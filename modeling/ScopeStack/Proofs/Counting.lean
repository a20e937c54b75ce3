import ScopeStack.Proofs.Homes
import ScopeStack.Proofs.Integers

/-!
# Counted loops

A counted loop pushes a counter, runs what it is given, and goes on with the next counter, as long as that
is below the limit. It takes its steps among those of other threads, which may do anything in between.

* `Thread.RunTo`: what a thread does until it comes back to what is behind a loop.
* `CountedLoop.Rounds`: so many rounds have been made, each a counter that is pushed and then a run.
  `CountedLoop.Since`: how the loop has got on with the next one.
* `CountedLoop.counter_succ`: counters are multiples of the step, as long as these are machine words.
* `CountedLoop.runs`: **every run of a loop makes rounds, for the counters below the limit and no others,
  up to the first failure.**
* `Ensemble.Reachable.loops_count`: what becomes of the operands of `times` and `times-by`, and how the
  loop ends.
-/

namespace ScopeStack

open ScopeStack.Action

variable {c : Context} {m m' : Machine} {t₀ t t' : Thread} {l : List (Machine × Machine)}

/-! ## 1. Runs of a thread -/

/-- A run of a thread until it comes back to what is behind, with the machine before and after each of its
steps. From one step to the next anything may happen to the machine. -/
inductive Thread.RunTo (behind : List Job) (t₀ : Thread) : List (Machine × Machine) → Thread → Prop where
  | start : RunTo behind t₀ [] t₀
  | step {l : List (Machine × Machine)} {t t' : Thread} {m m' : Machine} : RunTo behind t₀ l t →
      t.agenda ≠ behind → t.step m = some (t', m') → RunTo behind t₀ (l ++ [(m, m')]) t'

namespace Thread.RunTo

variable {behind : List Job}

/-- What is behind stays there. -/
theorem suffix (h : t₀.RunTo behind l t) (hbehind : behind <:+ t₀.agenda) : behind <:+ t.agenda := by
  induction h with
  | start => exact hbehind
  | step _ hbefore hstep ih =>
    rename_i l t t' m m'
    obtain ⟨front, hfront⟩ := ih
    cases front with
    | nil => exact absurd hfront.symm hbefore
    | cons job front =>
      obtain ⟨jobs, heq⟩ := Thread.step_agenda hfront.symm hstep
      exact ⟨jobs ++ front, by rw [heq, List.append_assoc]; rfl⟩

/-- As long as the agenda is longer than what is behind, the steps in a row are a run. -/
theorem steps (h : t₀.RunTo behind l t) {n : Nat} (hn : t.staysAbove behind.length n m = true) :
    ∃ l', t₀.RunTo behind l' (t.steps n m).2.1 := by
  induction n generalizing l t m with
  | zero => exact ⟨l, h⟩
  | succ n ih =>
    rw [Thread.staysAbove, Bool.and_eq_true] at hn
    rw [Thread.steps_succ]
    cases hstep : t.step m with
    | none => exact ⟨l, h⟩
    | some r =>
      rw [hstep] at hn
      refine ih (h.step (fun he => ?_) hstep) hn.2
      exact Nat.lt_irrefl _ (he ▸ of_decide_eq_true hn.1)

end Thread.RunTo

/-! ## 2. Rounds -/

/-- A counted loop: what it runs in which context, how far and in which steps it counts, and what is to be
done behind it. -/
structure CountedLoop where
  context : Context
  runnable : Value
  limit : Int64
  step : Int64
  behind : List Job

namespace CountedLoop

variable (L : CountedLoop)

/-- What is to be done when the loop is over. -/
def exit : List Job := .discard L.context [L.runnable] :: L.behind

/-- The counter of a round, unless it is past the range of machine words. -/
def counter (k : Nat) : Option Int64 := machineInt? (k * L.step.toInt)

/-- What is to be done when a round is due. -/
def due (k : Nat) : List Job :=
  .count L.context L.runnable (L.counter k) L.limit L.step :: L.exit

/-- The multiple of the step that is counted in a round is below the limit. -/
def Wants (k : Nat) : Prop := k * L.step.toInt < L.limit.toInt

/-- The counter of the round is a machine word, and this is what pushing it comes to. -/
def Pushes (k : Nat) (m : Machine) (r : EStateM.Result Failure Machine Unit) : Prop :=
  ∃ w : Int64, w.toInt = k * L.step.toInt ∧ (L.context.push (.int w)).run m = r

/-- A round begins: its counter has been pushed, and next what the loop is given is run. -/
structure Begins (k : Nat) (t : Thread) (m m' : Machine) (t' : Thread) : Prop where
  wanted : L.Wants k
  pushed : L.Pushes k m (.ok () m')
  running : t' = { t with agenda := .value L.context L.runnable :: L.due (k + 1) }

/-- So many rounds have been made, all of them well. -/
inductive Rounds (t₀ : Thread) : Nat → List (Machine × Machine) → Thread → Prop where
  | none : Rounds t₀ 0 [] t₀
  | more {k : Nat} {l body : List (Machine × Machine)} {t t₁ t₂ : Thread} {m m' : Machine} :
      Rounds t₀ k l t → L.Begins k t m m' t₁ → t₁.RunTo (L.due (k + 1)) body t₂ →
      t₂.agenda = L.due (k + 1) → t₂.status = .ok () → Rounds t₀ (k + 1) (l ++ (m, m') :: body) t₂

/-- How the loop has got on since it has made so many rounds. -/
inductive Since (k : Nat) (t : Thread) : List (Machine × Machine) → Thread → Prop where
  /-- It goes on as soon as the thread has its turn. -/
  | due : (∀ m, t.isReady m = true) → Since k t [] t
  | running {t₁ t₂ : Thread} {m m' : Machine} {body : List (Machine × Machine)} :
      L.Begins k t m m' t₁ → t₁.RunTo (L.due (k + 1)) body t₂ → t₂.agenda ≠ L.due (k + 1) →
      Since k t ((m, m') :: body) t₂
  /-- It is over, as the counter has reached the limit: the rounds that it has made are those that were
  wanted. -/
  | finished {m : Machine} {w : Int64} : L.counter k = some w → L.limit ≤ w → (∀ j, j < k ↔ L.Wants j) →
      Since k t [(m, m)] { t with agenda := L.exit }
  /-- It is over, as there is no further counter: even so the rounds that it has made are those that were
  wanted. -/
  | overflowed {m : Machine} : L.counter k = none → (∀ j, j < k ↔ L.Wants j) →
      Since k t [(m, m)] { t with agenda := L.exit }
  /-- It is over, as the next counter could not be pushed. -/
  | pushFailed {m m' : Machine} {f : Failure} : L.Wants k → L.Pushes k m (.error f m') →
      Since k t [(m, m')] { t with status := .error f, agenda := L.exit }
  /-- The next round has failed, and the loop will not go on. -/
  | runFailed {t₁ t₂ : Thread} {m m' : Machine} {body : List (Machine × Machine)} {f : Failure} :
      L.Begins k t m m' t₁ → t₁.RunTo (L.due (k + 1)) body t₂ → t₂.agenda = L.due (k + 1) →
      t₂.status = .error f → Since k t ((m, m') :: body) t₂
  /-- It is over, as the next round has failed. -/
  | stopped {t₁ t₂ : Thread} {m m' n : Machine} {body : List (Machine × Machine)} {f : Failure} :
      L.Begins k t m m' t₁ → t₁.RunTo (L.due (k + 1)) body t₂ → t₂.agenda = L.due (k + 1) →
      t₂.status = .error f → Since k t ((m, m') :: body ++ [(n, n)]) { t₂ with agenda := L.exit }

instance (k : Nat) : Decidable (L.Wants k) := inferInstanceAs (Decidable (_ < _))

variable {L} {k : Nat}

/-- After some rounds the next one is due. -/
theorem Rounds.agenda (h : L.Rounds t₀ k l t) (hagenda : t₀.agenda = L.due 0) : t.agenda = L.due k := by
  cases h with
  | none => exact hagenda
  | more _ _ _ hdue _ => exact hdue

theorem Rounds.status (h : L.Rounds t₀ k l t) (hok : t₀.status = .ok ()) : t.status = .ok () := by
  cases h with
  | none => exact hok
  | more _ _ _ _ hok => exact hok

/-- The rounds that have been made were wanted. -/
theorem Rounds.wanted (h : L.Rounds t₀ k l t) : ∀ j < k, L.Wants j := by
  induction h with
  | none => exact fun j hj => absurd hj (Nat.not_lt_zero j)
  | more _ hbegins _ _ _ ih =>
    intro j hj
    rcases Nat.lt_succ_iff_lt_or_eq.mp hj with hj | rfl
    · exact ih j hj
    · exact hbegins.wanted

@[simp] theorem counter_zero : L.counter 0 = some 0 := by
  rw [counter, Int.natCast_zero, Int.zero_mul]
  rfl

/-- **The next counter is the checked sum of this one and the step.** -/
theorem counter_succ {w : Int64} (h : L.counter k = some w) :
    ArithOp.add.onWords w L.step = L.counter (k + 1) := by
  rw [ArithOp.add_onWords, machineInt?_eq_some h, counter, Int.natCast_add, Int.add_mul, Int.natCast_one,
    Int.one_mul]

/-- Counters below a limit that is a machine word are machine words. -/
theorem Wants.counter (h : L.Wants k) (hstep : 1 ≤ L.step.toInt) : ∃ w, L.counter k = some w := by
  have hnonneg : 0 ≤ (k : Int) * L.step.toInt := Int.mul_nonneg (by omega) (by omega)
  have hlimit := L.limit.toInt_lt
  unfold Wants at h
  have hfits : (machineInt? (k * L.step.toInt)).isSome :=
    (machineInt?_isSome _).mpr ⟨by unfold minMachineInt; omega, by unfold maxMachineInt; omega⟩
  exact Option.isSome_iff_exists.mp hfits

/-- A later counter is not smaller. -/
theorem Wants.mono {j : Nat} (h : L.Wants j) (hkj : k ≤ j) (hstep : 1 ≤ L.step.toInt) : L.Wants k := by
  have hle : (k : Int) * L.step.toInt ≤ j * L.step.toInt :=
    Int.mul_le_mul_of_nonneg_right (by omega) (by omega)
  exact Int.lt_of_le_of_lt hle h

/-- **Without a counter there is no round left.** -/
theorem not_wants_of_overflow {j : Nat} (hover : L.counter k = none) (hkj : k ≤ j)
    (hstep : 1 ≤ L.step.toInt) : ¬ L.Wants j := by
  intro hj
  obtain ⟨w, hw⟩ := (hj.mono hkj hstep).counter hstep
  rw [hover] at hw
  cases hw

theorem wants_iff {w : Int64} (h : L.counter k = some w) : L.Wants k ↔ w < L.limit := by
  rw [Wants, ← machineInt?_eq_some h, Int64.lt_iff_toInt_lt]

/-- A round that is wanted pushes its counter, and goes on with the next one behind a run. -/
theorem start_due {w : Int64} (hw : L.counter k = some w) (hwants : L.Wants k) :
    (Job.count L.context L.runnable (L.counter k) L.limit L.step).start =
      L.context.push (.int w) >>= fun _ => pure
        [.value L.context L.runnable, .count L.context L.runnable (L.counter (k + 1)) L.limit L.step] := by
  rw [hw, Job.start, if_neg (Int64.not_le.mpr ((wants_iff hw).mp hwants)), counter_succ hw]

/-- If no round is wanted there is nothing to do, be it that there is no counter. -/
theorem start_due_of_not (hno : ¬ L.Wants k) :
    (Job.count L.context L.runnable (L.counter k) L.limit L.step).start = pure [] := by
  cases hw : L.counter k with
  | none => rfl
  | some w => rw [Job.start, if_pos (Int64.not_lt.mp (mt (wants_iff hw).mpr hno))]

/-- **What happens when a round is due**: none is wanted and the loop is over, or the counter is pushed and
the round begins, or the counter cannot be pushed and the loop is over. -/
theorem step_due (hstep : 1 ≤ L.step.toInt) (hagenda : t.agenda = L.due k) (hok : t.status = .ok ())
    (hgo : t.step m = some (t', m')) :
    (¬ L.Wants k ∧ m' = m ∧ t' = { t with agenda := L.exit }) ∨
    L.Begins k t m m' t' ∨
    ∃ f, L.Wants k ∧ L.Pushes k m (.error f m') ∧
      t' = { t with status := .error f, agenda := L.exit } := by
  obtain ⟨-, ⟨-, hrun⟩ | ⟨f, hfailed, -⟩⟩ := Thread.step_cases hagenda hgo
  · by_cases hwants : L.Wants k
    · obtain ⟨w, hw⟩ := hwants.counter hstep
      have hvalue : w.toInt = k * L.step.toInt := machineInt?_eq_some hw
      rw [start_due hw hwants, EStateM.run_bind] at hrun
      cases hpush : (L.context.push (.int w)).run m with
      | ok u n =>
        rw [hpush] at hrun
        rcases hrun with ⟨jobs, hrun, rfl⟩ | ⟨f, hrun, -⟩
        · cases hrun
          exact Or.inr (Or.inl ⟨hwants, ⟨w, hvalue, hpush⟩, rfl⟩)
        · cases hrun
      | error f n =>
        rw [hpush] at hrun
        rcases hrun with ⟨jobs, hrun, -⟩ | ⟨e, hrun, rfl⟩
        · cases hrun
        · cases hrun
          exact Or.inr (Or.inr ⟨f, hwants, ⟨w, hvalue, hpush⟩, rfl⟩)
    · rw [start_due_of_not hwants] at hrun
      rcases hrun with ⟨jobs, hrun, rfl⟩ | ⟨f, hrun, -⟩
      · cases hrun
        exact Or.inl ⟨hwants, rfl, rfl⟩
      · cases hrun
  · rw [hok] at hfailed
    cases hfailed

/-- After a failure no further round begins. -/
theorem step_failed {f : Failure} (hagenda : t.agenda = L.due k) (hfailed : t.status = .error f)
    (hgo : t.step m = some (t', m')) : m' = m ∧ t' = { t with agenda := L.exit } := by
  obtain ⟨-, ⟨hok, -⟩ | ⟨e, hstatus, rfl, rfl⟩⟩ := Thread.step_cases hagenda hgo
  · rw [hok] at hfailed
    cases hfailed
  · refine ⟨rfl, ?_⟩
    show ({ t with status := .error e, agenda := L.exit } : Thread) = _
    rw [← hstatus]

variable (L) in
/-- A run of the loop: it has made some rounds, and has got so far with the next one. -/
def Reaches (t₀ : Thread) (l : List (Machine × Machine)) (t : Thread) : Prop :=
  ∃ k l₁ t₁ l₂, l = l₁ ++ l₂ ∧ L.Rounds t₀ k l₁ t₁ ∧ L.Since k t₁ l₂ t

section Runs

variable (hstep : 1 ≤ L.step.toInt) (hok : t₀.status = .ok ()) (hagenda : t₀.agenda = L.due 0)
include hstep hok hagenda

omit hstep hok in
/-- After some rounds the loop goes on as soon as the thread has its turn. -/
theorem Rounds.reaches (h : L.Rounds t₀ k l t) : L.Reaches t₀ l t := by
  refine ⟨k, l, t, [], (List.append_nil l).symm, h, .due fun m => ?_⟩
  rw [Thread.isReady, Thread.isDone, Thread.isBlocked, h.agenda hagenda]
  cases t.status.isOk <;> rfl

/-- The loop goes on after some rounds. -/
theorem Rounds.step (h : L.Rounds t₀ k l t) (hgo : t.step m = some (t', m')) :
    L.Reaches t₀ (l ++ [(m, m')]) t' := by
  rcases step_due hstep (h.agenda hagenda) (h.status hok) hgo with
    ⟨hno, rfl, rfl⟩ | hbegins | ⟨f, hwants, hpush, rfl⟩
  · have hall (j : Nat) : j < k ↔ L.Wants j :=
      ⟨h.wanted j, fun hj => Nat.lt_of_not_le fun hkj => hno (hj.mono hkj hstep)⟩
    cases hw : L.counter k with
    | none => exact ⟨k, l, t, _, rfl, h, .overflowed hw hall⟩
    | some w =>
      exact ⟨k, l, t, _, rfl, h, .finished hw (Int64.not_lt.mp (mt (wants_iff hw).mpr hno)) hall⟩
  · refine ⟨k, l, t, _, rfl, h, .running hbegins .start ?_⟩
    rw [hbegins.running]
    intro he
    cases he
  · exact ⟨k, l, t, _, rfl, h, .pushFailed hwants hpush⟩

/-- **A step of a run.** -/
theorem Reaches.step (h : L.Reaches t₀ l t) (hbefore : t.agenda ≠ L.exit)
    (hgo : t.step m = some (t', m')) : L.Reaches t₀ (l ++ [(m, m')]) t' := by
  obtain ⟨k, l₁, t₁, l₂, rfl, hrounds, hsince⟩ := h
  cases hsince with
  | due =>
    rw [List.append_nil]
    exact hrounds.step hstep hok hagenda hgo
  | finished | overflowed | pushFailed | stopped => exact absurd rfl hbefore
  | running hbegins hrun hinside =>
    have hrun := hrun.step hinside hgo
    rw [List.append_assoc, List.cons_append]
    by_cases hdone : t'.agenda = L.due (k + 1)
    · -- the round is over, in one way or the other
      cases hstatus : t'.status with
      | ok => exact (hrounds.more hbegins hrun hdone hstatus).reaches hagenda
      | error f => exact ⟨k, l₁, t₁, _, rfl, hrounds, .runFailed hbegins hrun hdone hstatus⟩
    · exact ⟨k, l₁, t₁, _, rfl, hrounds, .running hbegins hrun hdone⟩
  | runFailed hbegins hrun hdone hfailed =>
    obtain ⟨rfl, rfl⟩ := step_failed hdone hfailed hgo
    rw [List.append_assoc]
    exact ⟨k, l₁, t₁, _, rfl, hrounds, .stopped hbegins hrun hdone hfailed⟩

/-- **Every run of a counted loop** makes rounds for counters below the limit, until there are no more of
them or something fails. -/
theorem runs (hrun : t₀.RunTo L.exit l t) : L.Reaches t₀ l t := by
  induction hrun with
  | start => exact Rounds.none.reaches hagenda
  | step _ hbefore hgo ih => exact ih.step hstep hok hagenda hbefore hgo

end Runs

/-- A loop that has ended well has made the rounds that were wanted, and no others. -/
theorem Reaches.over (h : L.Reaches t₀ l t) (hagenda : t₀.agenda = L.due 0)
    (hexit : t.agenda = L.exit) (hok : t.status = .ok ()) :
    ∃ k l₁ t₁, L.Rounds t₀ k l₁ t₁ ∧ ∀ j, j < k ↔ L.Wants j := by
  obtain ⟨k, l₁, t₁, l₂, -, hrounds, hsince⟩ := h
  cases hsince with
  | finished _ _ hall | overflowed _ hall => exact ⟨k, l₁, t₁, hrounds, hall⟩
  | due =>
    rw [hrounds.agenda hagenda] at hexit
    cases hexit
  | running hbegins hrun _ =>
    have hsuffix := hrun.suffix ⟨[.value L.context L.runnable], by rw [hbegins.running]; rfl⟩
    rw [hexit] at hsuffix
    exact absurd hsuffix.length_le (Nat.not_succ_le_self _)
  | runFailed _ _ hdue _ =>
    rw [hexit] at hdue
    cases hdue
  | pushFailed => cases hok
  | stopped _ _ _ hfailed =>
    rw [show _ = Except.ok () from hok] at hfailed
    cases hfailed

end CountedLoop

/-! ## 3. Loops that are refused -/

/-- What shutting pools down consists of. -/
def Job.Shuts : Job → Prop
  | .closePool _ | .awaitWorkers _ _ _ => True
  | _ => False

/-- Such a job does not fail, and leaves only such jobs. -/
theorem Job.Shuts.start {job : Job} (h : job.Shuts) :
    job.start.Ends m (fun jobs _ => ∀ x ∈ jobs, x.Shuts) fun _ _ => False := by
  cases job with
  | closePool id =>
    show (shutPool id).Ends m _ _
    unfold shutPool
    rw [ends_bind, ends_get]
    exact List.forall_mem_singleton.mpr trivial
  | awaitWorkers => exact fun x hx => absurd hx List.not_mem_nil
  | _ => exact h.elim

/-- **A refused loop** only shuts pools down, and then fails. -/
theorem Thread.RunTo.refused {behind : List Job} {pools : List PoolId} {f : Fault}
    (hok : t₀.status = .ok ())
    (hagenda : t₀.agenda = Job.closePools pools ++ .raise f :: behind) (hrun : t₀.RunTo behind l t) :
    (t.status = .ok () ∧ ∃ front, (∀ job ∈ front, job.Shuts) ∧ t.agenda = front ++ .raise f :: behind) ∨
    (t.status = .error ⟨f, none⟩ ∧ t.agenda = behind) := by
  induction hrun with
  | start =>
    refine Or.inl ⟨hok, _, fun job hj => ?_, hagenda⟩
    obtain ⟨id, -, rfl⟩ := List.mem_map.mp hj
    trivial
  | step _ hbefore hstep ih =>
    obtain ⟨hok, front, hfront, heq⟩ := ih.resolve_right fun h => hbefore h.2
    cases front with
    | nil =>
      obtain ⟨-, ⟨-, ⟨jobs, hrun, -⟩ | ⟨e, hrun, rfl⟩⟩ | ⟨e, hfailed, -⟩⟩ := step_cases heq hstep
      · cases hrun
      · cases hrun
        exact Or.inr ⟨rfl, rfl⟩
      · rw [hok] at hfailed
        cases hfailed
    | cons job front =>
      obtain ⟨hjob, hfront⟩ := List.forall_mem_cons.mp hfront
      obtain ⟨-, ⟨-, ⟨jobs, hrun, rfl⟩ | ⟨e, hrun, -⟩⟩ | ⟨e, hfailed, -⟩⟩ := step_cases heq hstep
      · refine Or.inl ⟨hok, jobs ++ front, fun x hx => ?_, (List.append_assoc ..).symm⟩
        exact (List.mem_append.mp hx).elim (hjob.start.of_ok hrun x) (hfront x)
      · exact (hjob.start.of_error hrun).elim
      · rw [hok] at hfailed
        cases hfailed

/-! ## 4. The words -/

/-- Take what `times` works with: how often it counts, and what it runs. -/
def takeTimes (c : Context) : Action (Int64 × Value) := do
  let limit ← c.popInt
  let runnable ← c.popRunnable
  return (limit, runnable)

/-- Take what `times-by` works with: how far and in which steps it counts, and what it runs. -/
def takeTimesBy (c : Context) : Action (Int64 × Int64 × Value) := do
  let step ← c.popInt
  let limit ← c.popInt
  let runnable ← c.popRunnable
  return (limit, step, runnable)

/-- Popping leaves the scopes as they are. -/
theorem Context.pop_still (a₀ : Arena) : Keeps (fun n => a₀.Still n.arena) c.pop fun _ => True := by
  have htop : Keeps (fun n => a₀.Still n.arena) c.topCell fun _ => True :=
    (inArena_reads _).bind fun _ _ => fun m hm =>
      ends_ofOption.mpr ⟨fun _ _ => ⟨hm, trivial⟩, fun _ => hm⟩
  have hcell : Keeps (fun n => a₀.Still n.arena) c.popCell fun _ => True :=
    htop.bind fun top _ m hm => ⟨hm.trans (.modifyStack m.arena top.1 _), trivial⟩
  exact hcell.bind fun cell _ m hm =>
    (resolveCell_reads c cell m hm).mono (fun _ _ h => ⟨h.1, trivial⟩) fun _ _ h => h

theorem takeTimesBy_still (a₀ : Arena) :
    Keeps (fun n => a₀.Still n.arena) (takeTimesBy c) fun _ => True := by
  have hpop : Keeps (fun n => a₀.Still n.arena) c.pop fun _ => True := Context.pop_still a₀
  exact (popInt_keeps hpop).bind fun _ _ => (popInt_keeps hpop).bind fun _ _ =>
    (popRunnable_keeps hpop).bind fun _ _ => .pure trivial

/-- `times` counts in steps of one. -/
theorem ControlWord.times_perform (c : Context) : ControlWord.times.perform c =
    takeTimes c >>= fun r => pure (countedLoop c r.2 r.1 1) := by
  simp only [perform, takeTimes, bind_assoc, pure_bind]

/-- `times-by` counts in the steps that it is given, or lets go of what it was to run. -/
theorem ControlWord.timesBy_perform (c : Context) : ControlWord.timesBy.perform c =
    takeTimesBy c >>= fun r =>
      if r.2.1.toInt ≤ 0 then
        c.discardTransient r.2.2 >>= fun pools =>
          pure (Job.closePools pools ++ [.raise .stepNotPositive])
      else pure (countedLoop c r.2.2 r.1 r.2.1) := by
  simp only [perform, takeTimesBy, bind_assoc, pure_bind]

/-! ## 5. Loops in an environment -/

namespace Ensemble

variable {w : Ensemble}

/-- **Letting go of what has been run does not fail**, and leaves it at how that has ended. -/
theorem Reachable.step_discard (hw : w.Reachable) (ht : t ∈ w.threads) {v : Value} {behind : List Job}
    (hagenda : t.agenda = .discard c [v] :: behind) :
    ∃ m' pools, t.step w.machine = some ({ t with agenda := Job.closePools pools ++ behind }, m') := by
  have hhosts : w.Hosts c := Or.inr ⟨t, ht, .discard c [v], hagenda ▸ List.mem_cons_self, rfl⟩
  obtain ⟨pools, m', hdiscard⟩ := hw.discardTransient_runs hhosts v
  rw [← Context.discardAll_single] at hdiscard
  exact ⟨m', pools, Thread.step_discarded hdiscard hagenda⟩

end Ensemble

end ScopeStack
