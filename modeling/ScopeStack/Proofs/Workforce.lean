import Mathlib.Logic.ExistsUnique
import Mathlib.Logic.Relation
import ScopeStack.WorkerPool

/-!
# A pool of workers at work

The counters that a submission decides by lag behind: a busy worker may take the task another one
was notified of, and a worker whose time ran out may be just about to leave. What holds all the
same, after every critical section, is that there is a worker on its way for every task, and that
no task is at two places.

* `WorkerPool.tally`: how many workers are in a state of some kind.
* `WorkerPool.Tallied`: the counters count, and there is a worker on its way for every task that is
  queued. One lemma for each critical section says that it stays so.
* `WorkerPool.advance_cases`, `WorkerPool.submit_cases`, `WorkerPool.notifyOne_cases`: what a
  critical section can do.
* `WorkerPool.terms`: what no worker changes.
* `WorkerPool.tasks`: the tasks a pool has or had. Workers only move them.
* `WorkerPool.existsUnique_place`: **a task of a pool is queued, taken by one worker or finished.**
-/

namespace ScopeStack

/-! ## 1. Counting workers -/

namespace WorkerState

variable {τ : Type}

def isStarting : WorkerState τ → Bool
  | .starting => true
  | _ => false

def isWoken : WorkerState τ → Bool
  | .woken _ => true
  | _ => false

/-- A worker counts as idle from when it waits until it has the lock again. -/
def isIdle (s : WorkerState τ) : Bool := s.isWaiting || s.isWoken

/-- What a notification makes of a worker. -/
def notified (s : WorkerState τ) : WorkerState τ := if s.isWaiting then .woken false else s

end WorkerState

namespace WorkerPool

variable {τ : Type} {p : WorkerPool τ} {i : Nat}

/-- How many workers are in a state of this kind. -/
def tally (p : WorkerPool τ) (kind : WorkerState τ → Bool) : Nat :=
  p.workers.toList.countP kind

/-- The idle workers are those that wait and those that were woken. -/
theorem tally_idle (p : WorkerPool τ) :
    p.tally (·.isIdle) = p.tally (·.isWaiting) + p.tally (·.isWoken) := by
  unfold tally
  induction p.workers.toList with
  | nil => rfl
  | cons s l ih =>
    simp only [List.countP_cons, ih]
    cases s <;> simp only [WorkerState.isIdle, WorkerState.isWaiting, WorkerState.isWoken,
      Bool.or_false, Bool.or_true, if_true, Bool.false_eq_true, if_false] <;> omega

/-- The worker of a number stands somewhere among the others. -/
theorem workers_split {s : WorkerState τ} (hs : p.workers[i]? = some s) :
    ∃ before after, p.workers.toList = before ++ s :: after ∧
      ∀ s', (p.setWorker i s').workers.toList = before ++ s' :: after := by
  obtain ⟨hi, rfl⟩ := List.getElem?_eq_some_iff.mp (Array.getElem?_toList.trans hs)
  refine ⟨p.workers.toList.take i, p.workers.toList.drop (i + 1), ?_, fun s' => ?_⟩
  · rw [List.getElem_cons_drop, List.take_append_drop]
  · rw [setWorker, Array.toList_setIfInBounds, List.set_eq_take_append_cons_drop, if_pos hi]

theorem tally_setWorker {s : WorkerState τ} (hs : p.workers[i]? = some s) (s' : WorkerState τ)
    (kind : WorkerState τ → Bool) :
    (p.setWorker i s').tally kind + (kind s).toNat = p.tally kind + (kind s').toNat := by
  obtain ⟨before, after, hold, hnew⟩ := workers_split hs
  have hone (b : Bool) : (if b = true then 1 else 0) = b.toNat := by cases b <;> rfl
  simp only [tally, hold, hnew, List.countP_append, List.countP_cons, hone]
  omega

/-- A worker of some kind is counted. -/
theorem tally_pos {s : WorkerState τ} {kind : WorkerState τ → Bool}
    (hs : p.workers[i]? = some s) (hk : kind s = true) : 0 < p.tally kind := by
  refine List.countP_pos_iff.mpr ⟨s, ?_, hk⟩
  exact List.mem_of_getElem? (Array.getElem?_toList.trans hs)

/-! ## 2. The counters -/

/-- The counters count, no more workers are idle than may be, and no more tasks are queued than
workers are on their way to the queue. -/
structure Tallied (p : WorkerPool τ) : Prop where
  live : p.live = p.tally (!·.isExited)
  idle : p.idle = p.tally (·.isIdle)
  idle_le : p.idle ≤ p.maxIdle
  served : p.queue.length ≤ p.tally (·.isStarting) + p.tally (·.isWoken)

theorem tallied_new (maxIdle : Nat) : ({ maxIdle } : WorkerPool τ).Tallied :=
  ⟨rfl, rfl, Nat.zero_le _, Nat.zero_le _⟩

/-- A worker that gets the lock, before it looks at the queue: it has ended its task, it no longer
counts as idle, and from here on it goes the way of one that starts. -/
def atLock (p : WorkerPool τ) (i : Nat) : WorkerPool τ :=
  match p.workers[i]? with
  | some (.busy t) => { p.setWorker i .starting with finished := t :: p.finished }
  | some (.woken _) => { p.setWorker i .starting with idle := p.idle - 1 }
  | _ => p

theorem getElem?_setWorker {s s' : WorkerState τ} (hs : p.workers[i]? = some s) :
    (p.setWorker i s').workers[i]? = some s' := by
  obtain ⟨hi, -⟩ := Array.getElem?_eq_some_iff.mp hs
  rw [setWorker, Array.getElem?_setIfInBounds_self, if_pos hi]

/-- It does not matter what a worker was when it takes a task. -/
theorem takeTask_setWorker (q : WorkerPool τ) (i : Nat) (s : WorkerState τ) :
    (q.setWorker i s).takeTask i = q.takeTask i := by
  unfold takeTask leave setWorker
  cases q.queue <;> simp only [Array.setIfInBounds_setIfInBounds]

theorem leave_setWorker (q : WorkerPool τ) (i : Nat) (s : WorkerState τ) :
    (q.setWorker i s).leave i = q.leave i := by
  simp only [leave, setWorker, Array.setIfInBounds_setIfInBounds]

/-- **What a worker does when it gets the lock**: nothing, if it waits or has left; else it takes a
task, begins to wait or leaves, and it leaves only where the queue is empty. -/
theorem advance_cases (p : WorkerPool τ) (i : Nat) :
    p.advance i = p ∨
      (p.atLock i).workers[i]? = some .starting ∧
        (p.advance i = (p.atLock i).takeTask i ∨
          (p.atLock i).queue = [] ∧ p.advance i = (p.atLock i).leave i) := by
  unfold advance atLock
  cases hs : p.workers[i]? with
  | none => exact Or.inl rfl
  | some s =>
    cases s with
    | waiting => exact Or.inl rfl
    | exited => exact Or.inl rfl
    | starting => exact Or.inr ⟨hs, Or.inl rfl⟩
    | busy t =>
      refine Or.inr ⟨getElem?_setWorker hs, Or.inl ?_⟩
      exact (takeTask_setWorker { p with finished := t :: p.finished } i .starting).symm
    | woken timedOut =>
      refine Or.inr ⟨getElem?_setWorker hs, ?_⟩
      dsimp only
      split
      · rename_i hout
        refine Or.inr ⟨List.isEmpty_iff.mp (Bool.and_eq_true_iff.mp hout).2, ?_⟩
        exact (leave_setWorker { p with idle := p.idle - 1 } i .starting).symm
      · exact Or.inl (takeTask_setWorker { p with idle := p.idle - 1 } i .starting).symm

section Tallied

variable (hT : p.Tallied)
include hT

/-- The counters count on when one worker changes its state, if they are moved with it. -/
theorem Tallied.change {s s' : WorkerState τ} {q : WorkerPool τ} (hs : p.workers[i]? = some s)
    (hworkers : q.workers = (p.setWorker i s').workers)
    (hlive : q.live + (!s.isExited).toNat = p.live + (!s'.isExited).toNat)
    (hidle : q.idle + s.isIdle.toNat = p.idle + s'.isIdle.toNat) (hle : q.idle ≤ q.maxIdle)
    (hserved : q.queue = [] ∨ q.queue.length + (s.isStarting.toNat + s.isWoken.toNat) ≤
      p.queue.length + (s'.isStarting.toNat + s'.isWoken.toNat)) : q.Tallied := by
  have hcount (kind : WorkerState τ → Bool) :
      q.tally kind + (kind s).toNat = p.tally kind + (kind s').toNat := by
    rw [tally, hworkers]
    exact tally_setWorker hs s' kind
  have hlive' := hcount (!·.isExited)
  have hidle' := hcount (·.isIdle)
  have hstarting := hcount (·.isStarting)
  have hwoken := hcount (·.isWoken)
  have hT' := hT.served
  rw [hT.live] at hlive
  rw [hT.idle] at hidle
  refine ⟨by omega, by omega, hle, ?_⟩
  rcases hserved with hq | hserved
  · rw [hq]
    exact Nat.zero_le _
  · omega

theorem Tallied.idle_pos {timedOut : Bool} (hs : p.workers[i]? = some (.woken timedOut)) :
    0 < p.idle := by
  rw [hT.idle]
  exact tally_pos hs rfl

theorem Tallied.live_pos {s : WorkerState τ} (hs : p.workers[i]? = some s)
    (hin : s.isExited = false) : 0 < p.live := by
  rw [hT.live]
  exact tally_pos hs (by simp [hin])

theorem Tallied.atLock (i : Nat) : (p.atLock i).Tallied := by
  unfold WorkerPool.atLock
  split
  · rename_i t hs
    exact hT.change hs rfl rfl rfl hT.idle_le (Or.inr (Nat.le_succ _))
  · rename_i timedOut hs
    have hpos := hT.idle_pos hs
    have hle := hT.idle_le
    refine hT.change hs rfl rfl ?_ ?_ (Or.inr (Nat.le_refl _))
    · show p.idle - 1 + 1 = p.idle + 0
      omega
    · show p.idle - 1 ≤ p.maxIdle
      omega
  · exact hT

theorem Tallied.leave (hs : p.workers[i]? = some .starting) (hq : p.queue = []) :
    (p.leave i).Tallied := by
  have hpos := hT.live_pos hs rfl
  refine hT.change hs rfl ?_ rfl hT.idle_le (Or.inl hq)
  show p.live - 1 + 1 = p.live + 0
  omega

theorem Tallied.takeTask (hs : p.workers[i]? = some .starting) : (p.takeTask i).Tallied := by
  unfold WorkerPool.takeTask
  split
  · rename_i t rest hq
    refine hT.change hs rfl rfl rfl hT.idle_le (Or.inr ?_)
    rw [hq]
    exact Nat.le_refl _
  · rename_i hq
    split
    · exact hT.leave hs hq
    · rename_i hroom
      have hroom : p.idle < p.maxIdle := by
        simp only [Bool.or_eq_true, decide_eq_true_eq, not_or, Nat.not_le] at hroom
        exact hroom.2
      exact hT.change hs rfl rfl rfl hroom (Or.inl hq)

theorem Tallied.advance (i : Nat) : (p.advance i).Tallied := by
  rcases advance_cases p i with h | ⟨hs, h | ⟨hq, h⟩⟩
  · rwa [h]
  · rw [h]
    exact (hT.atLock i).takeTask hs
  · rw [h]
    exact (hT.atLock i).leave hs hq

theorem Tallied.wake (i : Nat) (timedOut : Bool) : (p.wake i timedOut).Tallied := by
  unfold WorkerPool.wake
  split
  · rename_i hs
    exact hT.change hs rfl rfl rfl hT.idle_le (Or.inr (Nat.le_succ _))
  · exact hT

end Tallied

/-! ## 3. Submissions and shutdowns -/

/-- The pool with one more token. Tokens that are seen to be set are no longer kept. -/
def keepToken (p : WorkerPool τ) (isSet : HaltToken → Bool) (token : HaltToken) : WorkerPool τ :=
  { p with tokens := p.tokens.filter (!isSet ·) ++ [token] }

/-- The pool with one more task in its queue. -/
def enqueue (p : WorkerPool τ) (task : τ) : WorkerPool τ := { p with queue := p.queue ++ [task] }

section Submit

variable (isSet : HaltToken → Bool) (chosen : Nat) (threadFault : Option String)
  (token : HaltToken) (task : τ)

/-- A pool that is shut down takes no task and stays as it is. -/
theorem submit_of_shutDown (h : p.shutDown = true) :
    p.submit isSet chosen threadFault token task = (.error .stopped, p) := by
  rw [submit, if_pos h]

/-- **What a submission to an open pool does**: it notifies a worker where more are idle than tasks
are queued, else it starts one, and where none can be started it keeps the token and nothing
else. -/
theorem submit_cases (h : p.shutDown = false) :
    (p.queue.length < p.idle ∧ p.submit isSet chosen threadFault token task =
      (.ok (), ((p.keepToken isSet token).enqueue task).notifyOne chosen)) ∨
    p.submit isSet chosen threadFault token task =
      (.ok (), ((p.keepToken isSet token).enqueue task).startWorker) ∨
    ∃ reason, p.submit isSet chosen threadFault token task =
      (.error (.noThread reason), p.keepToken isSet token) := by
  rw [submit, if_neg (by simp [h])]
  dsimp only
  split
  · rename_i hroom
    refine Or.inl ⟨?_, rfl⟩
    rwa [List.length_append] at hroom
  · split
    · exact Or.inr (Or.inl rfl)
    · exact Or.inr (Or.inr ⟨_, rfl⟩)

end Submit

theorem wake_of_waiting (hs : p.workers[i]? = some .waiting) (timedOut : Bool) :
    p.wake i timedOut = p.setWorker i (.woken timedOut) := by
  rw [wake, hs]

/-- **A notification reaches a worker that waits, if there is one.** -/
theorem notifyOne_cases (p : WorkerPool τ) (chosen : Nat) :
    (∃ i, p.workers[i]? = some .waiting ∧ p.notifyOne chosen = p.setWorker i (.woken false)) ∨
      p.tally (·.isWaiting) = 0 ∧ p.notifyOne chosen = p := by
  unfold notifyOne notified?
  by_cases hc : p.workers[chosen]? = some .waiting
  · simp only [hc]
    exact Or.inl ⟨chosen, hc, wake_of_waiting hc false⟩
  · split
    · rename_i j hj
      split at hj
      · rename_i hw
        exact absurd hw hc
      · obtain ⟨hlt, hw, -⟩ := Array.findIdx?_eq_some_iff_getElem.mp hj
        have hj : p.workers[j]? = some .waiting := by
          rw [Array.getElem?_eq_getElem hlt]
          cases hs : p.workers[j] <;> simp [hs, WorkerState.isWaiting] at hw ⊢
        exact Or.inl ⟨j, hj, wake_of_waiting hj false⟩
    · rename_i hj
      split at hj
      · cases hj
      · refine Or.inr ⟨List.countP_eq_zero.mpr fun s hs => ?_, rfl⟩
        rw [Array.findIdx?_eq_none_iff.mp hj s (Array.mem_toList_iff.mp hs)]
        exact Bool.false_ne_true

theorem tally_startWorker (p : WorkerPool τ) (kind : WorkerState τ → Bool) :
    p.startWorker.tally kind = p.tally kind + (kind .starting).toNat := by
  simp only [tally, startWorker, Array.toList_push, List.countP_append, List.countP_singleton]
  cases kind .starting <;> rfl

/-- A notification of all changes what is counted only where it changes a state. -/
theorem tally_notifyAll (p : WorkerPool τ) (kind kind' : WorkerState τ → Bool)
    (h : ∀ s : WorkerState τ, kind s.notified = kind' s) :
    p.notifyAll.tally kind = p.tally kind' := by
  simp only [tally, notifyAll, Array.toList_map, List.countP_map]
  exact List.countP_congr fun s _ => by rw [← h s]; rfl

section Tallied

variable (hT : p.Tallied)
include hT

theorem Tallied.keepToken (isSet : HaltToken → Bool) (token : HaltToken) :
    (p.keepToken isSet token).Tallied := ⟨hT.live, hT.idle, hT.idle_le, hT.served⟩

/-- With more idle workers than queued tasks there is one for the new task: it is notified, or all
that are idle have been woken already. -/
theorem Tallied.notifyOne (task : τ) (chosen : Nat) (hroom : p.queue.length < p.idle) :
    ((p.enqueue task).notifyOne chosen).Tallied := by
  rcases notifyOne_cases (p.enqueue task) chosen with ⟨i, hs, h⟩ | ⟨hnone, h⟩
  · rw [h]
    have hs : p.workers[i]? = some .waiting := hs
    refine hT.change hs rfl rfl rfl hT.idle_le (Or.inr ?_)
    exact Nat.le_of_eq List.length_append
  · have hnone : p.tally (·.isWaiting) = 0 := hnone
    have hidle := hT.idle
    rw [tally_idle, hnone] at hidle
    rw [h]
    refine ⟨hT.live, hT.idle, hT.idle_le, ?_⟩
    show (p.queue ++ [task]).length ≤ p.tally (·.isStarting) + p.tally (·.isWoken)
    rw [List.length_append, List.length_singleton]
    omega

theorem Tallied.startWorker (task : τ) : ((p.enqueue task).startWorker).Tallied := by
  have hcount (kind : WorkerState τ → Bool) :
      (p.enqueue task).startWorker.tally kind = p.tally kind + (kind .starting).toNat :=
    tally_startWorker _ kind
  refine ⟨?_, ?_, hT.idle_le, ?_⟩
  · rw [hcount, ← hT.live]
    rfl
  · rw [hcount, ← hT.idle]
    rfl
  · have hserved := hT.served
    have hlength : (p.enqueue task).startWorker.queue.length = p.queue.length + 1 :=
      List.length_append
    rw [hcount, hcount, hlength]
    show p.queue.length + 1 ≤ p.tally (·.isStarting) + 1 + (p.tally (·.isWoken) + 0)
    omega

theorem Tallied.shutdown : p.shutdown.2.2.Tallied := by
  refine ⟨?_, ?_, hT.idle_le, ?_⟩
  · refine hT.live.trans (tally_notifyAll p (!·.isExited) (!·.isExited) fun s => ?_).symm
    cases s <;> rfl
  · refine hT.idle.trans (tally_notifyAll p (·.isIdle) (·.isIdle) fun s => ?_).symm
    cases s <;> rfl
  · have hstarting : p.notifyAll.tally (·.isStarting) = p.tally (·.isStarting) :=
      tally_notifyAll p _ _ fun s => by cases s <;> rfl
    have hwoken : p.notifyAll.tally (·.isWoken) = p.tally (·.isIdle) :=
      tally_notifyAll p _ _ fun s => by cases s <;> rfl
    have hserved := hT.served
    have hidle := tally_idle p
    show p.queue.length ≤ p.notifyAll.tally (·.isStarting) + p.notifyAll.tally (·.isWoken)
    omega

end Tallied

/-! ## 4. What workers leave alone -/

/-- How many workers may be idle, the tokens that are kept, and whether the pool is shut down. -/
def terms (p : WorkerPool τ) : Nat × List HaltToken × Bool := (p.maxIdle, p.tokens, p.shutDown)

theorem terms_takeTask (p : WorkerPool τ) (i : Nat) : (p.takeTask i).terms = p.terms := by
  unfold takeTask
  split
  · rfl
  · split <;> rfl

theorem terms_atLock (p : WorkerPool τ) (i : Nat) : (p.atLock i).terms = p.terms := by
  unfold atLock
  split <;> rfl

theorem terms_advance (p : WorkerPool τ) (i : Nat) : (p.advance i).terms = p.terms := by
  rcases advance_cases p i with h | ⟨-, h | ⟨-, h⟩⟩
  · rw [h]
  · rw [h, terms_takeTask, terms_atLock]
  · rw [h]
    exact terms_atLock p i

theorem terms_wake (p : WorkerPool τ) (i : Nat) (timedOut : Bool) :
    (p.wake i timedOut).terms = p.terms := by
  unfold wake
  split <;> rfl

theorem terms_notifyOne (p : WorkerPool τ) (chosen : Nat) :
    (p.notifyOne chosen).terms = p.terms := by
  rcases notifyOne_cases p chosen with ⟨i, -, h⟩ | ⟨-, h⟩
  · rw [h]
    rfl
  · rw [h]

/-! ## 5. Tasks -/

/-- All tasks a pool has, or has had. -/
def tasks (p : WorkerPool τ) : List τ := p.queue ++ p.running ++ p.finished

theorem running_setWorker {s : WorkerState τ} (hs : p.workers[i]? = some s) (s' : WorkerState τ) :
    ((p.setWorker i s').running ++ s.task?.toList).Perm (p.running ++ s'.task?.toList) := by
  obtain ⟨before, after, hold, hnew⟩ := workers_split hs
  have hsplit (x : WorkerState τ) : (before ++ x :: after).filterMap (·.task?) =
      before.filterMap (·.task?) ++ (x.task?.toList ++ after.filterMap (·.task?)) := by
    rw [List.filterMap_append, List.filterMap_cons]
    cases x.task? <;> rfl
  rw [running, running, hold, hnew, hsplit, hsplit, List.append_assoc, List.append_assoc,
    List.append_assoc, List.append_assoc]
  refine List.Perm.append_left _ ?_
  rw [← List.append_assoc s.task?.toList]
  -- one of the two goes to the end, the other to the front
  exact List.perm_append_comm.trans (List.perm_append_comm.append_right _)

/-- The tasks stay where they are when a worker without one changes its state. -/
theorem tasks_setWorker {s s' : WorkerState τ} {q : WorkerPool τ} (hs : p.workers[i]? = some s)
    (hworkers : q.workers = (p.setWorker i s').workers) (hqueue : q.queue = p.queue)
    (hfinished : q.finished = p.finished) (hnone : s.task? = none) (hnone' : s'.task? = none) :
    q.tasks.Perm p.tasks := by
  have hrun := running_setWorker hs s'
  rw [hnone, hnone', Option.toList_none, List.append_nil, List.append_nil] at hrun
  have hq : q.running = (p.setWorker i s').running := by rw [running, running, hworkers]
  rw [tasks, tasks, hqueue, hfinished, hq]
  exact (hrun.append_left _).append_right _

theorem tasks_atLock (p : WorkerPool τ) (i : Nat) : (p.atLock i).tasks.Perm p.tasks := by
  unfold atLock
  split
  · rename_i t hs
    have hrun : ((p.setWorker i .starting).running ++ [t]).Perm (p.running ++ []) :=
      running_setWorker hs .starting
    show (p.queue ++ (p.setWorker i .starting).running ++ ([t] ++ p.finished)).Perm
      (p.queue ++ p.running ++ p.finished)
    rw [List.append_nil] at hrun
    rw [List.append_assoc, ← List.append_assoc _ [t], List.append_assoc p.queue]
    exact (hrun.append_right _).append_left _
  · rename_i timedOut hs
    exact tasks_setWorker hs rfl rfl rfl rfl rfl
  · exact List.Perm.refl _

theorem tasks_leave (hs : p.workers[i]? = some .starting) : (p.leave i).tasks.Perm p.tasks :=
  tasks_setWorker hs rfl rfl rfl rfl rfl

theorem tasks_takeTask (hs : p.workers[i]? = some .starting) :
    (p.takeTask i).tasks.Perm p.tasks := by
  unfold takeTask
  split
  · rename_i t rest hq
    have hrun : ((p.setWorker i (.busy t)).running ++ []).Perm (p.running ++ [t]) :=
      running_setWorker hs (.busy t)
    rw [List.append_nil] at hrun
    show (rest ++ (p.setWorker i (.busy t)).running ++ p.finished).Perm
      (p.queue ++ p.running ++ p.finished)
    rw [hq]
    refine List.Perm.append_right _ ((hrun.append_left rest).trans ?_)
    rw [← List.append_assoc]
    exact List.perm_append_singleton t (rest ++ p.running)
  · split
    · exact tasks_leave hs
    · exact tasks_setWorker hs rfl rfl rfl rfl rfl

/-- **A worker moves tasks on and neither loses nor doubles one.** -/
theorem tasks_advance (p : WorkerPool τ) (i : Nat) : (p.advance i).tasks.Perm p.tasks := by
  rcases advance_cases p i with h | ⟨hs, h | ⟨-, h⟩⟩
  · rw [h]
  · rw [h]
    exact (tasks_takeTask hs).trans (tasks_atLock p i)
  · rw [h]
    exact (tasks_leave hs).trans (tasks_atLock p i)

theorem tasks_wake (p : WorkerPool τ) (i : Nat) (timedOut : Bool) :
    (p.wake i timedOut).tasks.Perm p.tasks := by
  unfold wake
  split
  · rename_i hs
    exact tasks_setWorker hs rfl rfl rfl rfl rfl
  · exact List.Perm.refl _

theorem tasks_notifyOne (p : WorkerPool τ) (chosen : Nat) :
    (p.notifyOne chosen).tasks.Perm p.tasks := by
  rcases notifyOne_cases p chosen with ⟨i, hs, h⟩ | ⟨-, h⟩
  · rw [h]
    exact tasks_setWorker hs rfl rfl rfl rfl rfl
  · rw [h]

theorem tasks_startWorker (p : WorkerPool τ) : p.startWorker.tasks = p.tasks := by
  simp [tasks, running, startWorker, WorkerState.task?]

theorem tasks_enqueue (p : WorkerPool τ) (task : τ) :
    (p.enqueue task).tasks.Perm (task :: p.tasks) := by
  show (p.queue ++ [task] ++ p.running ++ p.finished).Perm (task :: p.tasks)
  rw [tasks, List.append_assoc, List.append_assoc p.queue, List.append_assoc p.queue]
  exact List.perm_middle

theorem tasks_shutdown (p : WorkerPool τ) : p.shutdown.2.2.tasks = p.tasks := by
  have hrun : p.notifyAll.running = p.running := by
    simp only [running, notifyAll, Array.toList_map, List.filterMap_map]
    refine congrArg (List.filterMap · p.workers.toList) (funext fun s => ?_)
    cases s <;> rfl
  show p.queue ++ p.notifyAll.running ++ p.finished = _
  rw [hrun, tasks]

/-- Where a task can be. -/
inductive Place where
  | queued
  | taken (worker : Nat)
  | finished

/-- The task is at the place. -/
def Holds (p : WorkerPool τ) (t : τ) : Place → Prop
  | .queued => t ∈ p.queue
  | .taken i => p.workers[i]? = some (.busy t)
  | .finished => t ∈ p.finished

theorem mem_running {t : τ} : t ∈ p.running ↔ ∃ i, p.Holds t (.taken i) := by
  simp only [running, List.mem_filterMap, Holds]
  constructor
  · rintro ⟨s, hs, ht⟩
    obtain ⟨i, hi⟩ := List.mem_iff_getElem?.mp hs
    cases s with
    | busy t' => cases ht; exact ⟨i, Array.getElem?_toList.symm.trans hi⟩
    | starting => cases ht
    | waiting => cases ht
    | woken _ => cases ht
    | exited => cases ht
  · rintro ⟨i, hi⟩
    exact ⟨.busy t, List.mem_of_getElem? (Array.getElem?_toList.trans hi), rfl⟩

/-- Where no task occurs twice, no two workers run the same one. -/
theorem taken_unique (hn : p.running.Nodup) {t : τ} {i j : Nat}
    (hi : p.workers[i]? = some (.busy t)) (hj : p.workers[j]? = some (.busy t)) : i = j := by
  have hpair := List.pairwise_iff_getElem.mp (List.pairwise_filterMap.mp hn)
  have hno {i j : Nat} (hlt : i < j) (hi : p.workers[i]? = some (.busy t))
      (hj : p.workers[j]? = some (.busy t)) : False := by
    obtain ⟨hi', hi⟩ := List.getElem?_eq_some_iff.mp (Array.getElem?_toList.trans hi)
    obtain ⟨hj', hj⟩ := List.getElem?_eq_some_iff.mp (Array.getElem?_toList.trans hj)
    exact hpair i j hi' hj' hlt t (by rw [hi]; rfl) t (by rw [hj]; rfl) rfl
  rcases Nat.lt_trichotomy i j with hlt | heq | hgt
  · exact (hno hlt hi hj).elim
  · exact heq
  · exact (hno hgt hj hi).elim

/-- Where no task occurs twice, every task is at one place. -/
theorem existsUnique_place (hn : p.tasks.Nodup) {t : τ} (ht : t ∈ p.tasks) :
    ∃! place, p.Holds t place := by
  obtain ⟨hqr, -, hdone⟩ := List.nodup_append.mp hn
  obtain ⟨-, hrun, hqueue⟩ := List.nodup_append.mp hqr
  have hqr' : t ∈ p.queue → ¬ ∃ i, p.Holds t (.taken i) := fun hq hr =>
    hqueue t hq t (mem_running.mpr hr) rfl
  have hqd : t ∈ p.queue → t ∉ p.finished := fun hq hd =>
    hdone t (List.mem_append_left _ hq) t hd rfl
  have hrd : (∃ i, p.Holds t (.taken i)) → t ∉ p.finished := fun hr hd =>
    hdone t (List.mem_append_right _ (mem_running.mpr hr)) t hd rfl
  rcases List.mem_append.mp ht with ht | hd
  · rcases List.mem_append.mp ht with hq | hr
    · refine ⟨.queued, hq, fun place hplace => ?_⟩
      cases place with
      | queued => rfl
      | taken i => exact (hqr' hq ⟨i, hplace⟩).elim
      | finished => exact (hqd hq hplace).elim
    · obtain ⟨i, hi⟩ := mem_running.mp hr
      refine ⟨.taken i, hi, fun place hplace => ?_⟩
      cases place with
      | queued => exact (hqr' hplace ⟨i, hi⟩).elim
      | taken j => rw [taken_unique hrun hi hplace]
      | finished => exact (hrd ⟨i, hi⟩ hplace).elim
  · refine ⟨.finished, hd, fun place hplace => ?_⟩
    cases place with
    | queued => exact (hqd hplace hd).elim
    | taken i => exact (hrd ⟨i, hplace⟩ hd).elim
    | finished => rfl

end WorkerPool

end ScopeStack
