import ScopeStack.Proofs.Issued

/-!
# Steps that carry out an operation

A token, an instruction or a name that is run may stand for an operation. The step then carries out
that operation in the context of the job, after at most some payloads have been interned, and all that
is added is the place of the token or instruction and the code that comes behind it.

* `Job.around`, `Job.placing`: what a job adds to the jobs, or to the failure, of its operation.
* `Arena.Settled`: no block that the process has open is finished, so no token is run inside one.
* `Job.start_effect`, `Thread.step_effect`: **a step with an operation is that operation.**
-/

namespace ScopeStack

open ScopeStack.Action

variable {c : Context} {m m' : Machine} {e : Effect}

/-! ## 1. Names, cells and tokens -/

/-- The blocks that the process has open are being compiled. -/
def Arena.Settled (a : Arena) (p : ScopeId) : Prop :=
  ∀ r k s, a.get? p = some r → k ∈ r.compileStack → a.get? k = some s → s.compiling = true

theorem Arena.Regular.settled {a : Arena} (hR : a.Regular) (p : ScopeId) : a.Settled p :=
  fun _ _ _ hr hk hs => hR.compiling hr hk hs

namespace Context

/-- A name that stands for an operation. -/
theorem runWord_effect {name : String} (he : c.effectOfName? m name = some e)
    {Q : List Job → Machine → Prop} {E : Failure → Machine → Prop} :
    (c.runWord name).Ends m Q E ↔ (e.perform c).Ends m Q E := by
  unfold effectOfName? at he
  unfold runWord findVariable
  rw [bind_assoc, ends_bind, ends_get, pure_bind]
  cases hv : m.arena.findVariable c.scope name with
  | some cell =>
    rw [hv] at he
    cases he
  | none =>
    rw [hv] at he
    obtain ⟨op, hop, rfl⟩ := Option.map_eq_some_iff.mp he
    unfold findOperation
    dsimp only
    rw [bind_assoc, ends_bind, ends_get, pure_bind, hop]
    exact Iff.rfl

theorem runCell_effect {cell : Cell} (he : c.effectOfCell? m cell = some e)
    {Q : List Job → Machine → Prop} {E : Failure → Machine → Prop} :
    (c.runCell cell).Ends m Q E ↔ (e.perform c).Ends m Q E := by
  cases cell with
  | word h =>
    show (c.resolveText h >>= c.runWord).Ends m Q E ↔ _
    rw [effectOfCell?] at he
    cases hr : m.arena.resolve String c.scope h with
    | error f =>
      rw [hr] at he
      cases he
    | ok name =>
      rw [hr] at he
      rw [ends_bind, resolveText, ends_inArena_ok hr]
      exact runWord_effect he
  | bool | int | big | double | str | block => cases he

/-- Where there is no scope, no name is found. -/
theorem get?_of_effectOfCell? (hF : m.arena.Forest) {cell : Cell}
    (he : c.effectOfCell? m cell = some e) : ∃ s, m.arena.get? c.scope = some s := by
  cases hc : m.arena.get? c.scope with
  | some s => exact ⟨s, rfl⟩
  | none =>
    cases cell with
    | word h =>
      have hr : m.arena.resolve String c.scope h = .error (.notInterned h) := by
        rw [Arena.resolve, Arena.search_eq, Arena.chain_of_none hF hc]
        rfl
      rw [effectOfCell?, hr] at he
      cases he
    | bool | int | big | double | str | block => cases he

/-- A token with an operation stands for a cell, and the scope that it is meant for is not compiled. -/
theorem of_effectOfToken? {t : Token} (he : c.effectOfToken? m t = some e) :
    ∃ a id m₁ cell m₂, Literal.ofToken t = .atom a ∧ c.compileTarget.run m = .ok id m₁ ∧
      ((c.switchTo id).compileAtom a).run m₁ = .ok cell m₂ ∧
      ¬ (m₂.arena.get? (c.switchTo id).scope).any (·.compiling) = true ∧
      (c.switchTo id).effectOfCell? m₂ cell = some e := by
  unfold effectOfToken? at he
  cases hlit : Literal.ofToken t with
  | blockOpen | blockClose =>
    rw [hlit] at he
    cases he
  | atom a =>
    rw [hlit] at he
    dsimp only at he
    cases htarget : c.compileTarget.run m with
    | error f m₁ =>
      rw [htarget] at he
      cases he
    | ok id m₁ =>
      rw [htarget] at he
      dsimp only at he
      cases hatom : ((c.switchTo id).compileAtom a).run m₁ with
      | error f m₂ =>
        rw [hatom] at he
        cases he
      | ok cell m₂ =>
        rw [hatom] at he
        dsimp only at he
        split at he
        · cases he
        · exact ⟨a, id, m₁, cell, m₂, rfl, rfl, hatom, ‹_›, he⟩

/-- A token that carries out an operation does so in the context itself. -/
theorem compileToken_effect {t : Token} (hT : m.arena.Tree) (hopen : m.arena.Settled c.process)
    (he : c.effectOfToken? m t = some e) :
    ∃ m₁, Gains m m₁ ∧ ∀ (Q : List Job → Machine → Prop) (E : Failure → Machine → Prop),
      (c.compileToken t).Ends m Q E ↔ (e.perform c).Ends m₁ Q E := by
  obtain ⟨a, id, m₁, cell, m₂, hlit, htarget, hatom, hidle, he⟩ := of_effectOfToken? he
  obtain ⟨rfl, r, hr, rfl⟩ := (compileTarget_ends_of c m).of_ok htarget
  have hg : Gains m₁ m₂ := (compileAtom_gains hT a).of_ok hatom
  obtain ⟨s, hs⟩ := get?_of_effectOfCell? (hg.grows.still.tree hT).forest he
  rw [hs, Option.any_some] at hidle
  have hself : c.switchTo (r.compileStack.headD c.scope) = c := by
    rw [switchTo_scope] at hs
    exact switchTo_of_not_compiling (fun k t hk ht => hopen r k t hr hk ht) hg hs hidle
  rw [hself] at hatom hs he
  refine ⟨m₂, hg, fun Q E => ?_⟩
  unfold compileToken
  rw [hlit]
  dsimp only
  rw [ends_bind_of_run htarget, hself, ends_bind_of_run hatom, ends_bind, ends_getScope_some hs,
    if_neg hidle]
  exact runCell_effect he

end Context

/-! ## 2. Jobs and steps -/

namespace Job

/-- What a job puts around the jobs of its operation: where it stands, and the code behind it. -/
def around : Job → List Job → List Job
  | .token _ t, jobs => located t.location jobs
  | .code c (i :: rest), jobs =>
    located i.location jobs ++ if rest.isEmpty then [] else [.code c rest]
  | _, jobs => jobs

/-- A failure of its operation, with the place where the job stands. -/
def placing : Job → Failure → Failure
  | .token _ t, f => f.orAt t.location
  | .code _ (i :: _), f => (i.location.map f.orAt).getD f
  | _, f => f

/-- **A job with an operation carries out that operation.** -/
theorem start_effect {job : Job} (hT : m.arena.Tree) (hopen : m.arena.Settled c.process)
    (hc : job.context? = some c) (he : job.effect? m = some e) :
    ∃ m₁, Gains m m₁ ∧ ∀ (Q : List Job → Machine → Prop) (E : Failure → Machine → Prop),
      job.start.Ends m Q E ↔
        (e.perform c).Ends m₁ (fun jobs => Q (job.around jobs)) fun f => E (job.placing f) := by
  have hcheck {x : Action (List Job)} (hrun : ¬ c.isStopped m = true)
      (Q : List Job → Machine → Prop) (E : Failure → Machine → Prop) :
      (c.checkRunning >>= fun _ => x).Ends m Q E ↔ x.Ends m Q E := by
    unfold Context.checkRunning
    rw [bind_assoc, ends_bind, ends_get, if_neg hrun]
    exact Iff.rfl
  cases job with
  | token d t =>
    cases hc
    rw [effect?] at he
    split at he
    · cases he
    rename_i hrun
    obtain ⟨m₁, hg, hends⟩ := Context.compileToken_effect hT hopen he
    refine ⟨m₁, hg, fun Q E => ?_⟩
    unfold start
    rw [hcheck hrun, ends_bind, ends_locating, hends]
    exact Iff.rfl
  | cell d x =>
    cases hc
    exact ⟨m, .refl m, fun Q E => Context.runCell_effect he⟩
  | code d is =>
    cases hc
    cases is with
    | nil => cases he
    | cons i is =>
      rw [effect?] at he
      split at he
      · cases he
      rename_i hrun
      refine ⟨m, .refl m, fun Q E => ?_⟩
      unfold start
      rw [hcheck hrun, ends_bind, ends_locating, Context.runCell_effect he]
      simp only [ends_pure, before_eq]
      exact Iff.rfl
  | value d v =>
    cases hc
    cases v with
    | word name => exact ⟨m, .refl m, fun Q E => Context.runWord_effect he⟩
    | str name => exact ⟨m, .refl m, fun Q E => Context.runWord_effect he⟩
    | bool | int | big | double | block => cases he
  | _ => cases he

end Job

/-- **A step with an operation carries out that operation**, in the context of the job that is next. -/
theorem Thread.step_effect {t t' : Thread} {job : Job} {rest : List Job} (hT : m.arena.Tree)
    (hopen : m.arena.Settled c.process) (hagenda : t.agenda = job :: rest)
    (hc : job.context? = some c) (he : t.effect? m = some e) (hstep : t.step m = some (t', m')) :
    ∃ m₁, Gains m m₁ ∧
      ((∃ jobs, (e.perform c).run m₁ = .ok jobs m' ∧
          t' = { t with agenda := job.around jobs ++ rest }) ∨
        ∃ f, (e.perform c).run m₁ = .error f m' ∧
          t' = { t with status := .error (job.placing f), agenda := rest }) := by
  obtain ⟨hblocked, ⟨hstatus, hrun⟩ | ⟨f, hstatus, -⟩⟩ := Thread.step_cases hagenda hstep
  · rw [Thread.effect?, hstatus, hagenda] at he
    dsimp only at he
    rw [hblocked, if_neg (by decide)] at he
    obtain ⟨m₁, hg, hends⟩ := Job.start_effect hT hopen hc he
    refine ⟨m₁, hg, ?_⟩
    rcases hrun with ⟨jobs, hrun, rfl⟩ | ⟨f, hrun, rfl⟩
    · have hend := (hends (fun v n => v = jobs ∧ n = m') fun _ _ => False).mp (Ends.of_run hrun)
      obtain ⟨new, m₂, hrun', rfl, rfl⟩ := hend.run_eq_ok
      exact Or.inl ⟨new, hrun', rfl⟩
    · have hend : job.start.Ends m (fun _ _ => False) fun g n => g = f ∧ n = m' := by
        rw [Ends, hrun]
        exact ⟨rfl, rfl⟩
      have hend' := (hends _ _).mp hend
      unfold Ends at hend'
      cases hrun' : (e.perform c).run m₁ with
      | ok new m₂ =>
        rw [hrun'] at hend'
        exact hend'.elim
      | error g m₂ =>
        rw [hrun'] at hend'
        obtain ⟨rfl, rfl⟩ := hend'
        exact Or.inr ⟨g, rfl, rfl⟩
  · rw [Thread.effect?, hstatus] at he
    cases he

end ScopeStack
