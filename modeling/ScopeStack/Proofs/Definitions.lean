import ScopeStack.Proofs.Isolation
import ScopeStack.Proofs.Operations
import ScopeStack.Proofs.Views

/-!
# Where definitions write

A definition writes at most one binding, in the scope that executes it or in one around that, and
never past the body of a process. But which scopes are around is a matter of where code is written. A
process that calls a block from outside its own scope executes that block's definitions where the
block stands.

* `Arena.bindingAt?`, `Arena.Rebinds`: the bindings of the scopes, and which of them differ.
* `Arena.mem_chain_definingScope`: **a definition stays on its side of the body of a process.**
* `Ensemble.Reachable.define_outside_iff`: what a process defines is outside its own scope just if the
  definition is executed there.
-/

namespace ScopeStack

open ScopeStack.Action

/-! ## 1. Bindings -/

namespace Arena

/-- The cell that a variable is bound to in one scope. -/
def bindingAt? (a : Arena) (k : ScopeId) (name : String) : Option Cell :=
  (a.get? k).bind (·.binding? name)

/-- A binding has been made, changed or removed. -/
def Rebinds (a b : Arena) (k : ScopeId) (name : String) : Prop :=
  b.bindingAt? k name ≠ a.bindingAt? k name

variable {a b : Arena} {p q id k : ScopeId} {name other : String}

theorem Fills.bindingAt? (hF : a.Fills b) (k : ScopeId) (name : String) :
    b.bindingAt? k name = a.bindingAt? k name := by
  unfold Arena.bindingAt?
  cases hs : a.get? k with
  | none =>
    have hnone : b.get? k = none := Grows.none hF hs
    rw [hnone]
  | some s =>
    obtain ⟨t, ht, hts⟩ := hF.get? hs
    rw [ht, hts]
    rfl

theorem bindingAt?_bind (a : Arena) (q k : ScopeId) (name other : String) (cell : Cell)
    (h : k ≠ q ∨ other ≠ name) :
    (a.modify q (·.bind name cell)).bindingAt? k other = a.bindingAt? k other := by
  unfold bindingAt?
  rw [get?_modify]
  by_cases hk : k = q
  · have hne : other ≠ name := h.resolve_left fun hk' => hk' hk
    rw [if_pos hk, hk]
    cases a.get? q with
    | none => rfl
    | some s =>
      rw [Option.map_some, Option.bind_some, Option.bind_some, Scope.binding?_bind, if_neg hne]
  · rw [if_neg hk]

/-! ## 2. The scope that a definition writes -/

/-- Whatever lies outside a scope that is no body of a process is outside its parent too. -/
theorem Forest.mem_chain_parent_iff (hF : a.Forest) {s t : Scope} {parent : ScopeId}
    (hs : a.get? id = some s) (hparent : s.parent = some parent) (hspawned : s.spawned = false)
    (ht : a.get? p = some t) (hp : t.spawned = true) : p ∈ a.chain parent ↔ p ∈ a.chain id := by
  have hne : p ≠ id := by
    rintro rfl
    cases hs.symm.trans ht
    rw [hp] at hspawned
    cases hspawned
  rw [chain_of_parent hF hs hparent, List.mem_cons]
  exact ⟨Or.inr, fun h => h.resolve_left hne⟩

/-- The search for a binding stays on its side of the body of a process. -/
theorem Forest.mem_chain_bound (hF : a.Forest)
    (h : a.boundWithinProcess name (a.chain id) = some k) :
    k ∈ a.chain id ∧ ∀ p t, a.get? p = some t → t.spawned = true →
      (p ∈ a.chain k ↔ p ∈ a.chain id) := by
  induction id using Nat.strongRecOn with
  | ind id ih =>
    cases hs : a.get? id with
    | none =>
      rw [chain_of_none hF hs] at h
      cases h
    | some s =>
      have hself := mem_chain_self hF hs
      obtain ⟨rest, hrest⟩ := chain_cons hF hs
      rw [hrest, boundWithinProcess, hs] at h
      dsimp only at h
      split at h
      · cases h
        exact ⟨hself, fun _ _ _ _ => Iff.rfl⟩
      split at h
      · cases h
      rename_i hspawned
      cases hparent : s.parent with
      | none =>
        rw [chain_of_noParent hF hs hparent] at hrest
        cases hrest
        cases h
      | some parent =>
        rw [chain_of_parent hF hs hparent] at hrest
        cases hrest
        obtain ⟨hk, hp⟩ := ih parent (hF.parent_lt hs hparent) h
        refine ⟨mem_chain_of_parent hF hs hparent hk, fun p t ht hbody => ?_⟩
        rw [hp p t ht hbody]
        exact hF.mem_chain_parent_iff hs hparent (Bool.not_eq_true _ ▸ hspawned) ht hbody

/-- **A definition writes in the scope itself or in one around it**, and stays on its side of the body
of a process. -/
theorem Forest.mem_chain_definingScope (hF : a.Forest) {s : Scope} (hs : a.get? id = some s)
    (name : String) :
    a.definingScope id s name ∈ a.chain id ∧ ∀ p t, a.get? p = some t → t.spawned = true →
      (p ∈ a.chain (a.definingScope id s name) ↔ p ∈ a.chain id) := by
  have hself := mem_chain_self hF hs
  unfold definingScope
  split
  · rename_i parent hparent hspawned
    cases hb : a.boundWithinProcess name (a.chain parent) with
    | none => exact ⟨hself, fun _ _ _ _ => Iff.rfl⟩
    | some k =>
      obtain ⟨hk, hp⟩ := hF.mem_chain_bound hb
      refine ⟨mem_chain_of_parent hF hs hparent hk, fun p t ht hbody => ?_⟩
      rw [Option.getD_some, hp p t ht hbody]
      exact hF.mem_chain_parent_iff hs hparent hspawned ht hbody
  · exact ⟨hself, fun _ _ _ _ => Iff.rfl⟩

/-- What a definition does to the bindings of all scopes. -/
theorem Forest.define_rebinds (hF : a.Forest) {cell : Cell} {strict : Bool}
    (h : a.define id name cell strict = .ok b) (hk : a.Rebinds b k other) :
    other = name ∧ k ∈ a.chain id ∧ ∀ p t, a.get? p = some t → t.spawned = true →
      (p ∈ a.chain k ↔ p ∈ a.chain id) := by
  rcases define_cases h with rfl | ⟨s, hs, rfl⟩
  · exact absurd rfl hk
  · by_cases hwritten : k = a.definingScope id s name ∧ other = name
    · obtain ⟨rfl, rfl⟩ := hwritten
      exact ⟨rfl, hF.mem_chain_definingScope hs other⟩
    · have hapart := Decidable.not_and_iff_not_or_not.mp hwritten
      exact absurd (bindingAt?_bind a _ k name other cell hapart) hk

end Arena

/-! ## 3. The words that define -/

/-- Payloads have come and cells have moved since. -/
def Filled (a₀ : Arena) (m : Machine) : Prop := a₀.Fills m.arena

variable {a₀ : Arena} {c : Context} {m m' : Machine}

theorem Filled.gains (h : Filled a₀ m) (hg : Gains m m') : Filled a₀ m' := h.grows hg.grows

theorem Context.pop_filled (hT : a₀.Tree) (c : Context) : Keeps (Filled a₀) c.pop fun _ => True := by
  intro m hm
  unfold pop popCell topCell
  simp only [bind_assoc]
  rw [ends_bind, ends_inArena]
  refine ⟨fun top htop => ?_, fun _ _ => hm⟩
  rw [ends_bind, ends_ofOption]
  refine ⟨fun entry he => ?_, fun _ => hm⟩
  rw [ends_bind, ends_modifyArena, pure_bind]
  have hm' : Filled a₀ { m with arena := m.arena.popCell entry.1 } := hm.modifyStack _ _
  exact (resolveCell_ends (hm'.still.tree hT) c entry.2).mono (fun _ _ h => ⟨h.1 ▸ hm', trivial⟩)
    fun _ _ h => h ▸ hm'

/-- **What a word that defines does**: payloads come and cells move, and then, unless it fails, there is
one definition in the scope. -/
theorem popDefinition_ends (hT : m.arena.Tree) (c : Context) (strict : Bool) :
    (popDefinition c strict).Ends m
      (fun _ m' => ∃ a name cell, m.arena.Fills a ∧ a.define c.scope name cell strict = .ok m'.arena)
      fun _ m' => m.arena.Fills m'.arena := by
  have hpop := c.pop_filled hT
  unfold popDefinition
  refine Ends.bind ((popText_keeps hpop m (.refl _)).mono (fun _ _ h => h) fun _ _ h => h) ?_
  rintro name m₁ ⟨hm₁, -⟩
  refine Ends.bind ((hpop m₁ hm₁).mono (fun _ _ h => h) fun _ _ h => h) ?_
  rintro v m₂ ⟨hm₂, -⟩
  refine Ends.bind ((c.internValue_gains (hm₂.still.tree hT) v).mono (fun _ _ h => h)
    fun _ _ h => hm₂.gains h) ?_
  rintro cell m₃ ⟨hg, -⟩
  have hm₃ : Filled m.arena m₃ := hm₂.gains hg
  unfold Context.define
  rw [ends_bind, ends_inArena]
  exact ⟨fun b hb => ⟨m₃.arena, name, cell, hm₃, hb⟩, fun _ _ => hm₃⟩

/-- The word defines a variable. -/
def ScopeWord.Defines (word : ScopeWord) : Prop := word = .define ∨ word = .defineStrict

theorem ScopeWord.Defines.ends {word : ScopeWord} (h : word.Defines) (hT : m.arena.Tree)
    (c : Context) :
    (Effect.perform c (.scope word)).Ends m
      (fun _ m' => ∃ a name cell strict, m.arena.Fills a ∧
        a.define c.scope name cell strict = .ok m'.arena)
      fun _ m' => m.arena.Fills m'.arena := by
  rcases h with rfl | rfl
  · show (popDefinition c false >>= fun _ => pure []).Ends m _ _
    rw [ends_bind]
    exact (popDefinition_ends hT c false).mono
      (fun _ _ ⟨a, name, cell, hF, hd⟩ => ⟨a, name, cell, false, hF, hd⟩) fun _ _ h => h
  · show (popDefinition c true >>= fun _ => pure []).Ends m _ _
    rw [ends_bind]
    exact (popDefinition_ends hT c true).mono
      (fun _ _ ⟨a, name, cell, hF, hd⟩ => ⟨a, name, cell, true, hF, hd⟩) fun _ _ h => h

/-- **A step that defines a variable** writes in the scope of its context or in one around it, and stays
on its side of every body of a process. -/
theorem Thread.step_define {t t' : Thread} {job : Job} {rest : List Job} {word : ScopeWord}
    (hR : m.arena.Regular) (hagenda : t.agenda = job :: rest) (hc : job.context? = some c)
    (hword : word.Defines) (he : t.effect? m = some (.scope word))
    (hstep : t.step m = some (t', m')) {k : ScopeId} {name : String}
    (hk : m.arena.Rebinds m'.arena k name) :
    k ∈ m.arena.chain c.scope ∧ ∀ p s, m.arena.get? p = some s → s.spawned = true →
      (p ∈ m.arena.chain k ↔ p ∈ m.arena.chain c.scope) := by
  have hF := hR.tree.forest
  obtain ⟨m₁, hg, hrun⟩ := Thread.step_effect hR.tree (hR.settled _) hagenda hc he hstep
  have hends := hword.ends (hg.grows.still.tree hR.tree) c
  rcases hrun with ⟨jobs, hrun, -⟩ | ⟨f, hrun, -⟩
  · obtain ⟨a, name', cell, strict, ha, hd⟩ := hends.of_ok hrun
    have hF' := ((Arena.Fills.refl _).grows hg.grows).trans ha
    have hchain (j : ScopeId) : a.chain j = m.arena.chain j := hF'.still.alike.chain_eq hF j
    rw [Arena.Rebinds, ← hF'.bindingAt? k name] at hk
    obtain ⟨-, hmem, hside⟩ := Arena.Forest.define_rebinds (hF'.still.tree hR.tree).forest hd hk
    simp only [hchain] at hmem hside
    refine ⟨hmem, fun p s hs hbody => ?_⟩
    obtain ⟨u, hu, hus⟩ := hF'.get? hs
    exact hside p u hu (by rw [hus]; exact hbody)
  · exact absurd ((((Arena.Fills.refl _).grows hg.grows).trans (hends.of_error hrun)).bindingAt? k name) hk

/-! ## 4. Processes -/

/-- The thread of a process runs in the context of that process. -/
theorem Thread.Sound.of_heads {a : Arena} {t : Thread} {p : ScopeId} (h : t.Sound a)
    (hp : t.Heads p) :
    ∃ s jobs pid, t.agenda = jobs ++ [.finish p pid] ∧ a.get? p = some s ∧ s.running = true ∧
      Jobs.Placed a p jobs := by
  obtain ⟨pid, hm⟩ := hp
  cases h with
  | serving hjobs => exact absurd rfl ((hjobs _ hm).2 p pid)
  | live heq hs hrun hjobs =>
    rw [heq] at hm
    rcases List.mem_append.mp hm with hm | hm
    · exact absurd rfl ((hjobs _ hm).2 p pid)
    · cases List.mem_singleton.mp hm
      exact ⟨_, _, _, heq, hs, hrun, hjobs⟩

/-- **Where a process defines variables.** In any state of a running environment, let the thread of the
process `p` take a step that defines a variable. All bindings that it changes are bindings of the scope
that executes the definition or of one around it, and they are outside the scope of the process just if
that scope is. -/
theorem Ensemble.Reachable.define_outside_iff {w : Ensemble} (hw : w.Reachable) {t t' : Thread}
    {p : ScopeId} {job : Job} {rest : List Job} {word : ScopeWord} (ht : t ∈ w.others)
    (hp : t.Heads p) (hagenda : t.agenda = job :: rest) (hc : job.context? = some c)
    (hword : word.Defines) (he : t.effect? w.machine = some (.scope word))
    (hstep : t.step w.machine = some (t', m')) :
    (∀ k name, w.machine.arena.Rebinds m'.arena k name → k ∈ w.machine.arena.chain c.scope) ∧
    ((∃ k name, p ∉ w.machine.arena.chain k ∧ w.machine.arena.Rebinds m'.arena k name) ↔
      p ∉ w.machine.arena.chain c.scope ∧ ∃ k name, w.machine.arena.Rebinds m'.arena k name) := by
  have hR := hw.sound.regular
  obtain ⟨s, jobs, pid, -, hs, hrun, -⟩ := (hw.sound.others t ht).of_heads hp
  have hspawned := (hR.running hs hrun).2.1
  refine ⟨fun k name hk => (Thread.step_define hR hagenda hc hword he hstep hk).1, ?_, ?_⟩
  · intro ⟨k, name, hout, hk⟩
    have hside := (Thread.step_define hR hagenda hc hword he hstep hk).2 p s hs hspawned
    exact ⟨fun hin => hout (hside.mpr hin), k, name, hk⟩
  · intro ⟨hout, k, name, hk⟩
    have hside := (Thread.step_define hR hagenda hc hword he hstep hk).2 p s hs hspawned
    exact ⟨k, name, fun hin => hout (hside.mp hin), hk⟩

/-- Is this the job that ends the process of the scope? -/
def Job.isEndOf (p : ScopeId) : Job → Bool
  | .finish q _ => p == q
  | _ => false

theorem Thread.heads_of_any {t : Thread} {p : ScopeId} (h : t.agenda.any (Job.isEndOf p) = true) :
    t.Heads p := by
  obtain ⟨job, hj, hend⟩ := List.any_eq_true.mp h
  cases job with
  | finish q pid =>
    cases beq_iff_eq.mp hend
    exact ⟨pid, hj⟩
  | _ => cases hend

namespace Ensemble

/-- Steps of a spawned process in a row. -/
theorem Reachable.otherSteps {m : Machine} {main t : Thread} {back : List Thread}
    (hw : Reachable ⟨m, main, t :: back⟩) (n : Nat) :
    Reachable ⟨(t.steps n m).2.2, main, (t.steps n m).2.1 :: back⟩ := by
  induction n generalizing t m with
  | zero => exact hw
  | succ n ih =>
    rw [Thread.steps_succ]
    cases hstep : t.step m with
    | none => exact hw
    | some r =>
      have hnext : Reachable ⟨r.2, main, [] ++ r.1 :: back⟩ := hw.other rfl hstep
      exact ih hnext

/-- `1 "x" ; [ 2 "x" ; ] "set" ; [ set ] !!`: the process of the second block is about to define `x`,
in the first block, which it has called by its name. -/
theorem exists_called_definition : ∃ (w : Ensemble) (t t' : Thread) (m' : Machine) (job : Job)
    (rest : List Job) (c : Context), w.Reachable ∧ t ∈ w.others ∧ t.Heads 3 ∧
    t.agenda = job :: rest ∧ job.context? = some c ∧ c.scope = 2 ∧
    t.effect? w.machine = some (.scope .define) ∧ t.step w.machine = some (t', m') ∧
    w.machine.arena.chain 1 = [1] ∧ w.machine.arena.chain 2 = [2, 1] ∧
    w.machine.arena.bindingAt? 1 "x" = some (.int 1) ∧ m'.arena.bindingAt? 1 "x" = some (.int 2) := by
  obtain ⟨m₀, main, hm₀, hw⟩ : ∃ m₀ main, m₀ = (Thread.steps 29
      { agenda := [.source .top (.ofText "" "1 \"x\" ; [ 2 \"x\" ; ] \"set\" ; [ set ] !!")] }
      (Environment.freshMachine {} fun _ => none).2).2.2 ∧ Reachable ⟨m₀, main, []⟩ :=
    ⟨_, _, rfl, ((Reachable.start {} (fun _ => none) .standard).request
      [.source .top (.ofText "" "1 \"x\" ; [ 2 \"x\" ; ] \"set\" ; [ set ] !!")] rfl (fun job hj => by
        cases List.mem_singleton.mp hj
        exact fun d hd => (Option.some.inj hd).symm)).steps 29⟩
  have hbody : (m₀.arena.get? 3).map (fun s => (s.running, s.pid)) = some (true, 1) := by
    rw [hm₀]
    decide +kernel
  obtain ⟨r, hr⟩ : ∃ r, r = (Thread.steps 5 { agenda := Task.agenda ⟨1, 3, 1⟩ } m₀).2 := ⟨_, rfl⟩
  have hnext : (r.1.agenda.head?.bind Job.context?).map Context.scope = some 2 ∧
      r.1.agenda.any (Job.isEndOf 3) = true ∧ r.1.effect? r.2 = some (.scope .define) ∧
      r.2.arena.chain 1 = [1] ∧ r.2.arena.chain 2 = [2, 1] ∧
      r.2.arena.bindingAt? 1 "x" = some (.int 1) ∧
      (r.1.step r.2).map (fun r => r.2.arena.bindingAt? 1 "x") = some (some (.int 2)) := by
    rw [hr, hm₀]
    decide +kernel
  obtain ⟨s, hs, hspawned⟩ := Option.map_eq_some_iff.mp hbody
  rw [Prod.mk.injEq] at hspawned
  obtain ⟨hrun, hpid⟩ := hspawned
  have hbegun := hw.begin none 1 hs hrun (fun t ht => by cases ht)
  rw [hpid] at hbegun
  have hthere := hbegun.otherSteps 5
  rw [← hr] at hthere
  obtain ⟨hctx, hend, he, hroot, hblock, hbefore, hafter⟩ := hnext
  obtain ⟨c, hc, hscope⟩ := Option.map_eq_some_iff.mp hctx
  obtain ⟨job, hhead, hc⟩ := Option.bind_eq_some_iff.mp hc
  obtain ⟨rest, hagenda⟩ := List.head?_eq_some_iff.mp hhead
  obtain ⟨⟨t', m'⟩, hstep, hafter⟩ := Option.map_eq_some_iff.mp hafter
  exact ⟨_, r.1, t', m', job, rest, c, hthere, List.mem_cons_self, Thread.heads_of_any hend, hagenda,
    hc, hscope, he, hstep, hroot, hblock, hbefore, hafter⟩

/-- The definition reaches past the process: its scope is 3, and the block stands beside it. -/
theorem Reachable.define_outside_iff_called : ∃ (w : Ensemble) (t t' : Thread) (m' : Machine),
    w.Reachable ∧ t ∈ w.others ∧ t.Heads 3 ∧ t.effect? w.machine = some (.scope .define) ∧
    t.step w.machine = some (t', m') ∧
    ∃ k name, 3 ∉ w.machine.arena.chain k ∧ w.machine.arena.Rebinds m'.arena k name := by
  obtain ⟨w, t, t', m', job, rest, c, hw, ht, hp, hagenda, hc, hscope, he, hstep, -, hchain, hbefore,
    hafter⟩ := exists_called_definition
  have hrebinds : w.machine.arena.Rebinds m'.arena 1 "x" := by
    rw [Arena.Rebinds, hbefore, hafter]
    decide
  have hout : 3 ∉ w.machine.arena.chain c.scope := by
    rw [hscope, hchain]
    decide
  exact ⟨w, t, t', m', hw, ht, hp, he, hstep,
    (hw.define_outside_iff ht hp hagenda hc (Or.inl rfl) he hstep).2.mpr ⟨hout, 1, "x", hrebinds⟩⟩

/-- **A process changes a variable of its spawner**: the top level had bound `x` to 1, and the process of
scope 3 binds it to 2. -/
theorem Reachable.define_escapes : ∃ (w : Ensemble) (t t' : Thread) (m' : Machine),
    w.Reachable ∧ t ∈ w.others ∧ t.Heads 3 ∧ t.effect? w.machine = some (.scope .define) ∧
    t.step w.machine = some (t', m') ∧ 3 ∉ w.machine.arena.chain rootScope ∧
    w.machine.arena.bindingAt? rootScope "x" = some (.int 1) ∧
    m'.arena.bindingAt? rootScope "x" = some (.int 2) := by
  obtain ⟨w, t, t', m', job, rest, c, hw, ht, hp, -, -, -, he, hstep, hroot, -, hbefore, hafter⟩ :=
    exists_called_definition
  have hout : 3 ∉ w.machine.arena.chain rootScope := by
    rw [rootScope, hroot]
    decide
  exact ⟨w, t, t', m', hw, ht, hp, he, hstep, hout, hbefore, hafter⟩

end Ensemble

end ScopeStack
