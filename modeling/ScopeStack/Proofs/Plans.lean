import ScopeStack.Proofs.Operations

/-!
# What control words are going to do

A control word takes its operands off the stack and knows then what it will do: which of them it lets go
of at once, what it runs, and what it lets go of when that has ended. Between the two nothing can fail but
for the operands.

* `Plan`: what a control word does once it has its operands; `Plan.now`, `Plan.later`: what it lets go of
  at once, and after running.
* `ControlWord.plan`: taking the operands. `ControlWord.perform_eq`: **a control word plans, then carries
  out its plan**, and these are the ways in which it ends (`ControlWord.perform_cases`).
  `ControlWord.plan_keeps`, `Plan.carryOut_keeps`: invariants of the one and the other.
* `Job.due`: what a job has still to run for a control word. `Plan.due_jobs`: **operands only**;
  `Effect.leaves_nothing_due`: no other operation runs anything.
-/

namespace ScopeStack

open ScopeStack.Action

/-! ## 1. Plans -/

/-- What a control word does once it has its operands. -/
inductive Plan where
  /-- Run this if it is wanted; then push an answer, if there is one. -/
  | once (runnable : Value) (wanted : Bool) (answer : Option Bool)
  /-- Run the one and not the other. -/
  | either (taken skipped : Value)
  | loop (condition body : Value)
  | count (runnable : Value) (limit step : Int64)
  /-- Run nothing, and fail because the step of a counted loop is not positive. -/
  | refuse (runnable : Value)

namespace Plan

/-- What the word has popped that can be run. -/
def operands : Plan → List Value
  | once runnable _ _ => [runnable]
  | either taken skipped => [skipped, taken]
  | loop condition body => [body, condition]
  | count runnable _ _ => [runnable]
  | refuse runnable => [runnable]

/-- What the word lets go of at once. -/
def now : Plan → List Value
  | either _ skipped => [skipped]
  | refuse runnable => [runnable]
  | once _ _ _ | loop _ _ | count _ _ _ => []

/-- What the word lets go of when all has been run. -/
def later : Plan → List Value
  | once runnable _ _ => [runnable]
  | either taken _ => [taken]
  | loop condition body => [body, condition]
  | count runnable _ _ => [runnable]
  | refuse _ => []

/-- What is left to do. -/
def jobs (c : Context) : Plan → List Job
  | once runnable wanted answer =>
    runThenDiscard c runnable wanted ++ answer.toList.map fun b => .push c (.bool b)
  | either taken _ => runThenDiscard c taken true
  | loop condition body => [.test c condition body, .discard c [body, condition]]
  | count runnable limit step => countedLoop c runnable limit step
  | refuse _ => [.raise .stepNotPositive]

/-- Let go of what is not needed, and answer with what is left to do. -/
def carryOut (c : Context) (p : Plan) : Action (List Job) := do
  let pools ← c.discardAll p.now
  return Job.closePools pools ++ p.jobs c

end Plan

/-- Take the operands of a control word. -/
def ControlWord.plan (c : Context) : ControlWord → Action Plan
  | .run => do
    let runnable ← c.popRunnable
    return .once runnable true none
  | .branch => do
    let top ← c.popRunnable
    match ← c.pop with
    | .bool condition => return .once top condition (some condition)
    | second =>
      if !second.isRunnable then fail (.mismatch .boolean)
      let condition ← c.popBool
      return if condition then .either second top else .either top second
  | .branchElse => do
    let runnable ← c.popRunnable
    let condition ← c.popBool
    let previous ← c.popBool
    return .once runnable (!previous && condition) (some (previous || condition))
  | .otherwise => do
    let runnable ← c.popRunnable
    let previous ← c.popBool
    return .once runnable (!previous) none
  | .when => do
    let runnable ← c.popRunnable
    let condition ← c.popBool
    return .once runnable condition none
  | .unless => do
    let runnable ← c.popRunnable
    let condition ← c.popBool
    return .once runnable (!condition) none
  | .whileTrue => do
    let body ← c.popRunnable
    let condition ← c.popRunnable
    return .loop condition body
  | .times => do
    let limit ← c.popInt
    let runnable ← c.popRunnable
    return .count runnable limit 1
  | .timesBy => do
    let step ← c.popInt
    let limit ← c.popInt
    let runnable ← c.popRunnable
    return if step.toInt ≤ 0 then .refuse runnable else .count runnable limit step

variable {c : Context}

theorem Plan.carryOut_of_now_nil {p : Plan} (h : p.now = []) :
    p.carryOut c = pure (p.jobs c) := by
  rw [carryOut, h]
  rfl

theorem Plan.carryOut_of_now_single {p : Plan} {v : Value} (h : p.now = [v]) :
    p.carryOut c = c.discardTransient v >>= fun pools => pure (Job.closePools pools ++ p.jobs c) := by
  rw [carryOut, h, Context.discardAll]
  simp only [List.mapM_cons, List.mapM_nil, bind_assoc, pure_bind, List.flatten_cons,
    List.flatten_nil, List.append_nil]

theorem Plan.carryOut_once (runnable : Value) (wanted : Bool) (answer : Option Bool) :
    (once runnable wanted answer).carryOut c = pure (runThenDiscard c runnable wanted ++
      answer.toList.map fun b => .push c (.bool b)) :=
  carryOut_of_now_nil rfl

theorem Plan.carryOut_count (runnable : Value) (limit step : Int64) :
    (count runnable limit step).carryOut c = pure (countedLoop c runnable limit step) :=
  carryOut_of_now_nil rfl

theorem Plan.carryOut_either (taken skipped : Value) :
    (either taken skipped).carryOut c = c.discardTransient skipped >>= fun pools =>
      pure (Job.closePools pools ++ runThenDiscard c taken true) :=
  carryOut_of_now_single rfl

/-- **A control word takes its operands, and then carries out what it has planned.** -/
theorem ControlWord.perform_eq (w : ControlWord) :
    w.perform c = w.plan c >>= fun p => p.carryOut c := by
  cases w with
  | run | otherwise | when | «unless» | branchElse | times =>
    simp only [perform, plan, bind_assoc, pure_bind, Plan.carryOut_once, Plan.carryOut_count,
      Option.toList, List.map_nil, List.map_cons, List.append_nil]
  | whileTrue =>
    simp only [perform, plan, bind_assoc, pure_bind]
    rfl
  | timesBy =>
    simp only [perform, plan, bind_assoc, pure_bind]
    refine congrArg _ (funext fun step => congrArg _ (funext fun limit => congrArg _
      (funext fun runnable => ?_)))
    split
    · rw [Plan.carryOut_of_now_single rfl]
      rfl
    · exact (Plan.carryOut_count runnable limit step).symm
  | branch =>
    simp only [perform, plan, bind_assoc]
    refine congrArg _ (funext fun top => congrArg _ (funext fun second => ?_))
    -- only a boolean in second place makes this the short form
    cases second with
    | bool condition =>
      rw [pure_bind, Plan.carryOut_once]
      rfl
    | int | big | double | str | word | block =>
      dsimp only
      split
      · rfl
      · simp only [bind_assoc, pure_bind]
        refine congrArg _ (funext fun condition => ?_)
        cases condition
        · exact (Plan.carryOut_either top _).symm
        · exact (Plan.carryOut_either _ top).symm

/-! ## 2. Invariants -/

/-- Does the word let go of something before it runs anything? -/
def ControlWord.letsGo : ControlWord → Bool
  | .branch | .timesBy => true
  | .run | .branchElse | .otherwise | .when | .unless | .whileTrue | .times => false

variable {P : Machine → Prop} {good : Value → Prop}

/-- Taking the operands keeps what popping keeps, and the operands are what has been popped. -/
theorem ControlWord.plan_keeps (hpop : Keeps P c.pop good) (w : ControlWord) :
    Keeps P (w.plan c) fun p => (∀ v ∈ p.operands, good v) ∧ (w.letsGo = false → p.now = []) := by
  have hrun : Keeps P c.popRunnable good := popRunnable_keeps hpop
  have hbool := popBool_keeps hpop
  have hint := popInt_keeps hpop
  have hone {v : Value} (hv : good v) : ∀ u ∈ [v], good u := List.forall_mem_singleton.mpr hv
  have htwo {v w : Value} (hv : good v) (hw : good w) : ∀ u ∈ [v, w], good u :=
    List.forall_mem_cons.mpr ⟨hv, hone hw⟩
  cases w with
  | run => exact hrun.bind fun v hv => .pure ⟨hone hv, fun _ => rfl⟩
  | branch =>
    refine hrun.bind fun top htop => hpop.bind fun second hsecond => ?_
    split
    · exact .pure ⟨hone htop, fun _ => rfl⟩
    · split
      · exact fun _ hm => hm
      · refine hbool.bind fun condition _ => ?_
        cases condition
        · exact .pure ⟨htwo hsecond htop, fun h => (by cases h)⟩
        · exact .pure ⟨htwo htop hsecond, fun h => (by cases h)⟩
  | branchElse =>
    exact hrun.bind fun v hv => hbool.bind fun _ _ => hbool.bind fun _ _ =>
      .pure ⟨hone hv, fun _ => rfl⟩
  | otherwise | when | «unless» =>
    exact hrun.bind fun v hv => hbool.bind fun _ _ => .pure ⟨hone hv, fun _ => rfl⟩
  | whileTrue =>
    exact hrun.bind fun body hbody => hrun.bind fun condition hcondition =>
      .pure ⟨htwo hbody hcondition, fun _ => rfl⟩
  | times =>
    exact hint.bind fun _ _ => hrun.bind fun v hv => .pure ⟨hone hv, fun _ => rfl⟩
  | timesBy =>
    refine hint.bind fun step _ => hint.bind fun _ _ => hrun.bind fun v hv => ?_
    split
    · exact .pure ⟨hone hv, fun h => (by cases h)⟩
    · exact .pure ⟨hone hv, fun _ => rfl⟩

/-- Carrying out a plan keeps what letting go keeps. -/
theorem Plan.carryOut_keeps {p : Plan}
    (hdiscard : ∀ v ∈ p.now, Keeps P (c.discardTransient v) fun _ => True) :
    Keeps P (p.carryOut c) fun _ => True := by
  have hall : Keeps P (c.discardAll p.now) fun _ => True :=
    (Keeps.mapM hdiscard).bind fun _ _ => .pure trivial
  exact hall.bind fun _ _ => .pure trivial

/-- **How a control word ends**: it has taken its operands and let go of what it does not need, and what
is left to do is what was planned; or it has not got its operands; or letting go has failed. -/
theorem ControlWord.perform_cases (w : ControlWord) (m : Machine) :
    (w.perform c).Ends m
      (fun jobs m' => ∃ p m₁ pools, (w.plan c).run m = .ok p m₁ ∧
        (c.discardAll p.now).run m₁ = .ok pools m' ∧ jobs = Job.closePools pools ++ p.jobs c)
      fun f m' => (w.plan c).run m = .error f m' ∨
        ∃ p m₁, (w.plan c).run m = .ok p m₁ ∧ (c.discardAll p.now).run m₁ = .error f m' := by
  rw [w.perform_eq]
  cases hplan : (w.plan c).run m with
  | error f m₁ =>
    rw [ends_bind, Ends, hplan]
    exact Or.inl rfl
  | ok p m₁ =>
    rw [ends_bind_of_run hplan]
    unfold Plan.carryOut
    cases hall : (c.discardAll p.now).run m₁ with
    | ok pools m₂ =>
      rw [ends_bind_of_run hall]
      exact ⟨p, m₁, pools, rfl, hall, rfl⟩
    | error f m₂ =>
      rw [ends_bind, Ends, hall]
      exact Or.inr ⟨p, m₁, rfl, hall⟩

/-! ## 3. What is still to be run -/

/-- What a job has still to run for a control word. -/
def Job.due : Job → List Value
  | .value _ v => [v]
  | .test _ condition act | .choose _ condition act => [condition, act]
  | .count _ runnable _ _ _ => [runnable]
  | _ => []

/-- None of these jobs runs anything for a control word. -/
def Job.NothingDue (jobs : List Job) : Prop := ∀ job ∈ jobs, job.due = []

namespace Job

theorem nothingDue_nil : NothingDue [] := fun _ h => absurd h List.not_mem_nil

theorem nothingDue_single {job : Job} (h : job.due = []) : NothingDue [job] :=
  List.forall_mem_singleton.mpr h

theorem nothingDue_closePools (ids : List PoolId) : NothingDue (closePools ids) := by
  intro job hm
  obtain ⟨id, -, rfl⟩ := List.mem_map.mp hm
  rfl

end Job

/-- **A control word runs nothing but its operands.** -/
theorem Plan.due_jobs {p : Plan} {job : Job} (hm : job ∈ p.jobs c) : job.due ⊆ p.operands := by
  have hdiscard {vs : List Value} : (Job.discard c vs).due ⊆ p.operands := List.nil_subset _
  cases p with
  | once runnable wanted answer =>
    rcases List.mem_append.mp hm with hm | hm
    · rcases List.mem_append.mp hm with hm | hm
      · cases wanted
        · cases hm
        · rw [List.mem_singleton.mp hm]
          exact fun _ h => h
      · rw [List.mem_singleton.mp hm]
        exact hdiscard
    · obtain ⟨b, -, rfl⟩ := List.mem_map.mp hm
      exact List.nil_subset _
  | either taken skipped =>
    rcases List.mem_cons.mp hm with rfl | hm
    · exact fun v h => List.mem_cons_of_mem _ h
    · rw [List.mem_singleton.mp hm]
      exact hdiscard
  | loop condition body =>
    rcases List.mem_cons.mp hm with rfl | hm
    · exact (List.Perm.swap body condition []).subset
    · rw [List.mem_singleton.mp hm]
      exact hdiscard
  | count runnable limit step =>
    rcases List.mem_cons.mp hm with rfl | hm
    · exact fun _ h => h
    · rw [List.mem_singleton.mp hm]
      exact hdiscard
  | refuse runnable =>
    rw [List.mem_singleton.mp hm]
    exact List.nil_subset _

/-- Whatever an action does, it leaves a machine. -/
theorem keeps_anything {α : Type} (x : Action α) : Keeps (fun _ => True) x fun _ => True := by
  intro m _
  unfold Ends
  split
  · exact ⟨trivial, trivial⟩
  · trivial

/-- **No other operation leaves anything to be run.** -/
theorem Effect.leaves_nothing_due {e : Effect} (he : ∀ w, e ≠ .control w) :
    Keeps (fun _ => True) (e.perform c) Job.NothingDue := by
  have hany {α : Type} (x : Action α) : Keeps (fun _ => True) x fun _ => True := keeps_anything x
  have hnone {x : Action Unit} : Keeps (fun _ => True) (x >>= fun _ => pure []) Job.NothingDue :=
    (hany x).bind fun _ _ => .pure Job.nothingDue_nil
  cases e with
  | control w => exact absurd rfl (he w)
  | output | stack | arith | compare | text | list => exact hnone
  | scope w =>
    cases w with
    | define | defineStrict => exact hnone
    | forget =>
      refine (hany _).bind fun name _ => (hany _).bind fun r _ => ?_
      cases r with
      | some pools => exact .pure (Job.nothingDue_closePools pools)
      | none => exact .fail _
    | eval | load => exact (hany _).bind fun _ _ => .pure (Job.nothingDue_single rfl)
  | process w =>
    cases w with
    | spawn | endPush => exact hnone
    | self | parent | sendAllParent | takeAllParent | beginPush | sendAll | takeAll =>
      exact (hany _).bind fun _ _ => hnone
    | takeParent | send | sendParent | take =>
      exact (hany _).bind fun _ _ => (hany _).bind fun _ _ => hnone
    | receive => exact (hany _).bind fun _ _ => .pure (Job.nothingDue_single rfl)
    | quit => exact (hany _).bind fun pools _ => .pure (Job.nothingDue_closePools pools)
    | sleep =>
      refine (hany _).bind fun n _ => ?_
      dsimp only
      split
      · exact .pure Job.nothingDue_nil
      · exact (hany _).bind fun _ _ => .pure (Job.nothingDue_single rfl)
  | host a =>
    cases a with
    | greet | nameWord => exact (hany _).bind fun _ _ => hnone
    | fail => exact .fail _
    | source => exact .pure (Job.nothingDue_single rfl)
    | nothing => exact .pure Job.nothingDue_nil

end ScopeStack
