import ScopeStack.Proofs.Workforce

/-!
# The book of a pool

A pool by itself does not remember what was handed in, and it forgets tokens that are set. Here it
runs beside a book: the tasks that were accepted, each with the number of its submission, and the
tokens that are set. Any number of threads submit, work, set tokens and shut the pool down, one
critical section after another in any order.

* `PoolLedger`, `PoolLedger.Step`: a pool with its book, and one critical section.
* `PoolLedger.Sound`: the counters count, and the book has the tasks that the pool has.
* `PoolLedger.Covered`: the token of every accepted task is set or kept, and set in a pool that is
  shut down.
* `PoolLedger.Reachable.tasks_accounted`: **no task is stranded, lost or run twice.**
* `PoolLedger.Reachable.shutdown_final`: **a shutdown reaches every task, and nothing comes after
  it.**
-/

namespace ScopeStack

/-! ## 1. The steps -/

/-- A pool and its book. -/
structure PoolLedger (τ : Type) where
  pool : WorkerPool (Ticket τ)
  /-- How many tasks have been handed in, accepted or not. -/
  offered : Nat := 0
  /-- The tasks that were accepted, the latest first. -/
  accepted : List (Ticket τ) := []
  /-- The tokens that are set. -/
  halted : List HaltToken := []

namespace PoolLedger

variable {τ : Type}

/-- A new pool. -/
def opened (maxIdle : Nat) : PoolLedger τ := { pool := { maxIdle } }

/-- Hand a task in, and enter it if it is accepted. -/
def submit (s : PoolLedger τ) (isSet : HaltToken → Bool) (chosen : Nat)
    (threadFault : Option String) (token : HaltToken) (work : τ) : PoolLedger τ :=
  let ticket : Ticket τ := ⟨s.offered, token, work⟩
  let (result, pool) := s.pool.submit isSet chosen threadFault token ticket
  { s with
    pool
    offered := s.offered + 1
    accepted := if result.isOk then ticket :: s.accepted else s.accepted }

/-- Shut the pool down and set the tokens it has kept. -/
def shutdown (s : PoolLedger τ) : PoolLedger τ :=
  let (tokens, _, pool) := s.pool.shutdown
  { s with pool, halted := tokens ++ s.halted }

/-- One critical section. -/
inductive Step : PoolLedger τ → PoolLedger τ → Prop where
  /-- Tokens are set without the lock. One that is set while the pool looks through them may be
  missed, but what is seen to be set is set. -/
  | submit (s : PoolLedger τ) {isSet : HaltToken → Bool} (chosen : Nat)
      (threadFault : Option String) (token : HaltToken) (work : τ)
      (hseen : ∀ t, isSet t = true → t ∈ s.halted) :
      Step s (s.submit isSet chosen threadFault token work)
  /-- A worker gets the lock. -/
  | advance (s : PoolLedger τ) (worker : Nat) : Step s { s with pool := s.pool.advance worker }
  /-- A waiting worker wakes up by time or for no reason. -/
  | wake (s : PoolLedger τ) (worker : Nat) (timedOut : Bool) :
      Step s { s with pool := s.pool.wake worker timedOut }
  | halt (s : PoolLedger τ) (token : HaltToken) : Step s { s with halted := token :: s.halted }
  | shutdown (s : PoolLedger τ) : Step s s.shutdown

/-- What a new pool can become. -/
def Reachable (maxIdle : Nat) : PoolLedger τ → Prop := Relation.ReflTransGen Step (opened maxIdle)

/-- **What handing a task in can do.** -/
theorem submit_cases (s : PoolLedger τ) (isSet : HaltToken → Bool) (chosen : Nat)
    (threadFault : Option String) (token : HaltToken) (work : τ) :
    let kept := s.pool.keepToken isSet token
    let ticket : Ticket τ := ⟨s.offered, token, work⟩
    (s.pool.shutDown = true ∧
      s.submit isSet chosen threadFault token work = { s with offered := s.offered + 1 }) ∨
    (s.pool.shutDown = false ∧ ∃ pool : WorkerPool (Ticket τ),
      (s.pool.queue.length < s.pool.idle ∧ pool = (kept.enqueue ticket).notifyOne chosen ∨
        pool = (kept.enqueue ticket).startWorker) ∧
      s.submit isSet chosen threadFault token work =
        { s with pool, offered := s.offered + 1, accepted := ticket :: s.accepted }) ∨
    (s.pool.shutDown = false ∧ s.submit isSet chosen threadFault token work =
      { s with pool := kept, offered := s.offered + 1 }) := by
  unfold submit
  dsimp only
  cases hd : s.pool.shutDown with
  | true =>
    rw [WorkerPool.submit_of_shutDown _ _ _ _ _ hd]
    exact Or.inl ⟨rfl, rfl⟩
  | false =>
    refine Or.inr ?_
    rcases WorkerPool.submit_cases isSet chosen threadFault token ⟨s.offered, token, work⟩ hd with
      ⟨hroom, h⟩ | h | ⟨reason, h⟩
    · rw [h]
      exact Or.inl ⟨rfl, _, Or.inl ⟨hroom, rfl⟩, rfl⟩
    · rw [h]
      exact Or.inl ⟨rfl, _, Or.inr rfl, rfl⟩
    · rw [h]
      exact Or.inr ⟨rfl, rfl⟩

/-! ## 2. No task is stranded, lost or run twice -/

/-- The counters count, and the book has the tasks that the pool has, each one once. -/
structure Sound (maxIdle : Nat) (s : PoolLedger τ) : Prop where
  maxIdle : s.pool.maxIdle = maxIdle
  tallied : s.pool.Tallied
  entered : s.pool.tasks.Perm s.accepted
  numbered : ∀ t ∈ s.accepted, t.number < s.offered
  distinct : s.accepted.Nodup

theorem sound_opened (maxIdle : Nat) : (opened maxIdle : PoolLedger τ).Sound maxIdle :=
  ⟨rfl, WorkerPool.tallied_new maxIdle, .nil, fun _ h => (List.not_mem_nil h).elim, .nil⟩

section Sound

variable {maxIdle : Nat} {s : PoolLedger τ} (hS : s.Sound maxIdle)
include hS

/-- Steps that leave the book alone. -/
theorem Sound.move {pool : WorkerPool (Ticket τ)} (hmax : pool.maxIdle = s.pool.maxIdle)
    (hT : pool.Tallied) (hperm : pool.tasks.Perm s.pool.tasks) :
    ({ s with pool } : PoolLedger τ).Sound maxIdle :=
  ⟨hmax.trans hS.maxIdle, hT, hperm.trans hS.entered, hS.numbered, hS.distinct⟩

/-- A task with a new number is entered. -/
theorem Sound.enter {ticket : Ticket τ} {pool : WorkerPool (Ticket τ)}
    (hnumber : ticket.number = s.offered) (hmax : pool.maxIdle = s.pool.maxIdle)
    (hT : pool.Tallied) (hperm : pool.tasks.Perm (ticket :: s.pool.tasks)) :
    ({ s with pool, offered := s.offered + 1, accepted := ticket :: s.accepted } :
      PoolLedger τ).Sound maxIdle := by
  refine ⟨hmax.trans hS.maxIdle, hT, hperm.trans (hS.entered.cons ticket), fun t ht => ?_, ?_⟩
  · rcases List.mem_cons.mp ht with rfl | ht
    · exact hnumber ▸ Nat.lt_succ_self _
    · exact Nat.lt_succ_of_lt (hS.numbered t ht)
  · refine List.nodup_cons.mpr ⟨fun hin => ?_, hS.distinct⟩
    exact absurd (hS.numbered ticket hin) (hnumber ▸ Nat.lt_irrefl _)

/-- A task is handed in and not entered. -/
theorem Sound.refuse {pool : WorkerPool (Ticket τ)} (hmax : pool.maxIdle = s.pool.maxIdle)
    (hT : pool.Tallied) (htasks : pool.tasks = s.pool.tasks) :
    ({ s with pool, offered := s.offered + 1 } : PoolLedger τ).Sound maxIdle :=
  ⟨hmax.trans hS.maxIdle, hT, htasks ▸ hS.entered,
    fun t ht => Nat.lt_succ_of_lt (hS.numbered t ht), hS.distinct⟩

theorem Sound.submit (isSet : HaltToken → Bool) (chosen : Nat) (threadFault : Option String)
    (token : HaltToken) (work : τ) :
    (s.submit isSet chosen threadFault token work).Sound maxIdle := by
  have hT := hS.tallied.keepToken isSet token
  rcases s.submit_cases isSet chosen threadFault token work with
    ⟨-, h⟩ | ⟨-, pool, hpool, h⟩ | ⟨-, h⟩
  · rw [h]
    exact hS.refuse rfl hS.tallied rfl
  · rw [h]
    rcases hpool with ⟨hroom, rfl⟩ | rfl
    · exact hS.enter rfl (congrArg (·.1) (WorkerPool.terms_notifyOne _ chosen))
        (hT.notifyOne _ chosen hroom)
        ((WorkerPool.tasks_notifyOne _ chosen).trans (WorkerPool.tasks_enqueue _ _))
    · refine hS.enter rfl rfl (hT.startWorker _) ?_
      rw [WorkerPool.tasks_startWorker]
      exact WorkerPool.tasks_enqueue _ _
  · rw [h]
    exact hS.refuse rfl hT rfl

theorem Sound.step {s' : PoolLedger τ} (hstep : Step s s') : s'.Sound maxIdle := by
  cases hstep with
  | submit chosen threadFault token work hseen => exact hS.submit _ chosen threadFault token work
  | advance i =>
    exact hS.move (congrArg (·.1) (WorkerPool.terms_advance s.pool i)) (hS.tallied.advance i)
      (WorkerPool.tasks_advance s.pool i)
  | wake i timedOut =>
    exact hS.move (congrArg (·.1) (WorkerPool.terms_wake s.pool i timedOut))
      (hS.tallied.wake i timedOut) (WorkerPool.tasks_wake s.pool i timedOut)
  | halt token => exact ⟨hS.maxIdle, hS.tallied, hS.entered, hS.numbered, hS.distinct⟩
  | shutdown =>
    refine ⟨hS.maxIdle, hS.tallied.shutdown, ?_, hS.numbered, hS.distinct⟩
    exact (WorkerPool.tasks_shutdown s.pool).symm ▸ hS.entered

end Sound

theorem Reachable.sound {maxIdle : Nat} {s : PoolLedger τ} (hr : Reachable maxIdle s) :
    s.Sound maxIdle := by
  induction hr with
  | refl => exact sound_opened maxIdle
  | tail _ hstep ih => exact ih.step hstep

/-- **No task is stranded, lost or run twice.** However the threads of a pool interleave, no more
tasks are queued than workers are on their way to the queue; the counters count the workers that
have not left and those that are idle; no more are idle than may be; where a worker takes one off a
counter there is one to take; and the accepted tasks are those that are queued, run by a worker or
finished, each at one place. -/
theorem Reachable.tasks_accounted {maxIdle : Nat} {s : PoolLedger τ} (hr : Reachable maxIdle s) :
    s.pool.queue.length ≤ s.pool.tally (·.isStarting) + s.pool.tally (·.isWoken) ∧
    s.pool.live = s.pool.tally (!·.isExited) ∧ s.pool.idle = s.pool.tally (·.isIdle) ∧
    s.pool.idle ≤ maxIdle ∧
    (∀ (i : Nat) (w : WorkerState (Ticket τ)), s.pool.workers[i]? = some w →
      (w.isExited = false → 0 < s.pool.live) ∧ (w.isWoken = true → 0 < s.pool.idle)) ∧
    (s.pool.queue ++ s.pool.running ++ s.pool.finished).Perm s.accepted ∧ s.accepted.Nodup ∧
    ∀ t ∈ s.accepted, ∃! place, s.pool.Holds t place := by
  have hS := hr.sound
  have hT := hS.tallied
  refine ⟨hT.served, hT.live, hT.idle, hS.maxIdle ▸ hT.idle_le, fun i w hw => ⟨hT.live_pos hw, ?_⟩,
    hS.entered, hS.distinct, fun t ht => ?_⟩
  · intro hwoken
    cases w with
    | woken timedOut => exact hT.idle_pos hw
    | starting => cases hwoken
    | waiting => cases hwoken
    | busy t => cases hwoken
    | exited => cases hwoken
  · exact WorkerPool.existsUnique_place (hS.entered.nodup_iff.mpr hS.distinct)
      (hS.entered.mem_iff.mpr ht)

/-- Two workers have run a task each. One of them waits, is notified of a third task, and finds
that the other has taken it. -/
def stolen : PoolLedger Unit :=
  let s := (opened 1).submit (fun _ => false) 0 none 5 ()
  let s := s.submit (fun _ => false) 0 none 6 ()
  let s := { s with pool := s.pool.advance 0 }
  let s := { s with pool := s.pool.advance 1 }
  let s := { s with pool := s.pool.advance 0 }
  let s := s.submit (fun _ => false) 0 (some "no thread is left") 7 ()
  { s with pool := s.pool.advance 1 }

theorem Reachable.tasks_accounted_stolen :
    stolen.pool.workers = #[.woken false, .busy ⟨2, 7, ()⟩] ∧
      stolen.pool.queue.length ≤ stolen.pool.tally (·.isStarting) + stolen.pool.tally (·.isWoken) ∧
      stolen.pool.idle = 1 ∧ ∃! place, stolen.pool.Holds ⟨2, 7, ()⟩ place := by
  have hnone : ∀ (halted : List HaltToken) (t : HaltToken), false = true → t ∈ halted :=
    fun _ _ h => by cases h
  have hr : Reachable 1 stolen :=
    ((((((Relation.ReflTransGen.refl.tail (.submit _ 0 none 5 () (hnone _))).tail
      (.submit _ 0 none 6 () (hnone _))).tail (.advance _ 0)).tail (.advance _ 1)).tail
      (.advance _ 0)).tail (.submit _ 0 _ 7 () (hnone _))).tail (.advance _ 1)
  obtain ⟨hserved, -, -, -, -, -, -, hplace⟩ := tasks_accounted hr
  exact ⟨by decide, hserved, by decide, hplace ⟨2, 7, ()⟩ (by decide)⟩

/-! ## 3. A shutdown reaches every task -/

/-- The token of every accepted task is set or kept, and it is set in a pool that is shut down. -/
structure Covered (s : PoolLedger τ) : Prop where
  kept : ∀ t ∈ s.accepted, t.token ∈ s.halted ∨ t.token ∈ s.pool.tokens
  shut : s.pool.shutDown = true → ∀ t ∈ s.accepted, t.token ∈ s.halted

theorem covered_opened (maxIdle : Nat) : (opened maxIdle : PoolLedger τ).Covered :=
  ⟨fun _ h => (List.not_mem_nil h).elim, fun h => by cases h⟩

section Covered

variable {s : PoolLedger τ} (hC : s.Covered)
include hC

/-- Steps of workers. -/
theorem Covered.move {pool : WorkerPool (Ticket τ)} (hterms : pool.terms = s.pool.terms) :
    ({ s with pool } : PoolLedger τ).Covered := by
  simp only [WorkerPool.terms, Prod.mk.injEq] at hterms
  obtain ⟨-, htokens, hshut⟩ := hterms
  exact ⟨fun t ht => htokens ▸ hC.kept t ht, fun h => hC.shut (hshut ▸ h)⟩

/-- A token that is no longer kept was seen to be set. -/
theorem Covered.keepToken {isSet : HaltToken → Bool} (hseen : ∀ t, isSet t = true → t ∈ s.halted)
    (token : HaltToken) {t : Ticket τ} (ht : t ∈ s.accepted) :
    t.token ∈ s.halted ∨ t.token ∈ (s.pool.keepToken isSet token).tokens := by
  rcases hC.kept t ht with hset | hkept
  · exact Or.inl hset
  · cases hs : isSet t.token with
    | true => exact Or.inl (hseen _ hs)
    | false =>
      refine Or.inr (List.mem_append_left _ (List.mem_filter.mpr ⟨hkept, ?_⟩))
      rw [hs]
      rfl

theorem Covered.submit {isSet : HaltToken → Bool} (hseen : ∀ t, isSet t = true → t ∈ s.halted)
    (chosen : Nat) (threadFault : Option String) (token : HaltToken) (work : τ) :
    (s.submit isSet chosen threadFault token work).Covered := by
  rcases s.submit_cases isSet chosen threadFault token work with
    ⟨-, h⟩ | ⟨hopen, pool, hpool, h⟩ | ⟨hopen, h⟩
  · rw [h]
    exact ⟨hC.kept, hC.shut⟩
  · have hterms : pool.terms = (s.pool.keepToken isSet token).terms := by
      rcases hpool with ⟨-, rfl⟩ | rfl
      · exact WorkerPool.terms_notifyOne _ chosen
      · rfl
    simp only [WorkerPool.terms, Prod.mk.injEq] at hterms
    obtain ⟨-, htokens, hshut⟩ := hterms
    have hopen' : pool.shutDown = false := hshut.trans hopen
    rw [h]
    refine ⟨fun t ht => ?_, fun hd => by cases hopen'.symm.trans hd⟩
    rw [htokens]
    rcases List.mem_cons.mp ht with rfl | ht
    · exact Or.inr (List.mem_append_right _ (List.mem_singleton_self _))
    · exact hC.keepToken hseen token ht
  · rw [h]
    exact ⟨fun t ht => hC.keepToken hseen token ht, fun hd => by cases hopen.symm.trans hd⟩

theorem Covered.step {s' : PoolLedger τ} (hstep : Step s s') : s'.Covered := by
  cases hstep with
  | submit chosen threadFault token work hseen =>
    exact hC.submit hseen chosen threadFault token work
  | advance i => exact hC.move (WorkerPool.terms_advance s.pool i)
  | wake i timedOut => exact hC.move (WorkerPool.terms_wake s.pool i timedOut)
  | halt token =>
    exact ⟨fun t ht => (hC.kept t ht).imp_left (List.mem_cons_of_mem _),
      fun hd t ht => List.mem_cons_of_mem _ (hC.shut hd t ht)⟩
  | shutdown =>
    -- all that is kept is set now
    have hall : ∀ t ∈ s.accepted, t.token ∈ s.pool.tokens ++ s.halted := fun t ht =>
      List.mem_append.mpr (hC.kept t ht).symm
    exact ⟨fun t ht => Or.inl (hall t ht), fun _ => hall⟩

end Covered

theorem Reachable.covered {maxIdle : Nat} {s : PoolLedger τ} (hr : Reachable maxIdle s) :
    s.Covered := by
  induction hr with
  | refl => exact covered_opened maxIdle
  | tail _ hstep ih => exact ih.step hstep

/-- A pool that is shut down is never opened again. -/
theorem Step.shutDown {s s' : PoolLedger τ} (hstep : Step s s') (hd : s.pool.shutDown = true) :
    s'.pool.shutDown = true := by
  have hkeep {pool : WorkerPool (Ticket τ)} (hterms : pool.terms = s.pool.terms) :
      pool.shutDown = true := by
    rw [← hd]
    exact congrArg (·.2.2) hterms
  cases hstep with
  | submit chosen threadFault token work hseen =>
    rw [PoolLedger.submit, WorkerPool.submit_of_shutDown _ _ _ _ _ hd]
    exact hd
  | advance i => exact hkeep (WorkerPool.terms_advance s.pool i)
  | wake i timedOut => exact hkeep (WorkerPool.terms_wake s.pool i timedOut)
  | halt token => exact hd
  | shutdown => rfl

/-- **A shutdown reaches every task, and nothing comes after it.** In a pool that is shut down the
token of every task that was ever accepted is set; whatever happens to the pool later, it stays shut
down, refuses every task that is handed in, and is left as it is by that. -/
theorem Reachable.shutdown_final {maxIdle : Nat} {s : PoolLedger τ} (hr : Reachable maxIdle s)
    (hd : s.pool.shutDown = true) :
    (∀ t ∈ s.accepted, t.token ∈ s.halted) ∧
    ∀ s', Relation.ReflTransGen Step s s' →
      s'.pool.shutDown = true ∧
      ∀ isSet chosen threadFault token task,
        s'.pool.submit isSet chosen threadFault token task = (.error .stopped, s'.pool) := by
  refine ⟨hr.covered.shut hd, fun s' hlater => ?_⟩
  have hd' : s'.pool.shutDown = true := by
    induction hlater with
    | refl => exact hd
    | tail _ hstep ih => exact hstep.shutDown ih
  exact ⟨hd', fun isSet chosen threadFault token task =>
    WorkerPool.submit_of_shutDown isSet chosen threadFault token task hd'⟩

/-- The token of a task is set while it runs and is no longer kept when the next one comes. -/
def shutLate : PoolLedger Unit :=
  let s := (opened 1).submit (fun _ => false) 0 none 5 ()
  let s := { s with pool := s.pool.advance 0 }
  let s := { s with halted := 5 :: s.halted }
  let s := s.submit (fun t => t == 5) 0 none 6 ()
  s.shutdown

theorem Reachable.shutdown_final_late :
    (shutLate.pool.shutDown = true ∧ shutLate.pool.tokens = [6] ∧
      shutLate.accepted = [⟨1, 6, ()⟩, ⟨0, 5, ()⟩]) ∧
    5 ∈ shutLate.halted ∧
    shutLate.pool.submit (fun _ => false) 0 none 7 ⟨2, 7, ()⟩ =
      (.error .stopped, shutLate.pool) := by
  have hr : Reachable 1 shutLate :=
    ((((Relation.ReflTransGen.refl.tail (.submit _ 0 none 5 () fun _ h => by cases h)).tail
      (.advance _ 0)).tail (.halt _ 5)).tail
      (.submit _ 0 none 6 () fun t ht => by rw [eq_of_beq ht]; decide)).tail (.shutdown _)
  obtain ⟨hset, hlater⟩ := shutdown_final hr (by decide)
  exact ⟨by decide, hset ⟨0, 5, ()⟩ (by decide), (hlater _ .refl).2 _ _ _ _ _⟩

end PoolLedger

end ScopeStack
