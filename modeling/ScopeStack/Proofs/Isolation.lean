import ScopeStack.Proofs.Ensemble

/-!
# Isolated blocks leave the caller's stacks alone

An isolated block runs on a stack of its own. It may take cells from the stacks behind, those that the
pops of its caller fall through to, but puts none there; when it ends well, its top value goes to the
caller. This holds whatever it calls and whatever source it runs.

* `Context.effective`: what the pops of a context take, the top first (`Context.top?_effective`).
* `Guarded`: cells have gone from the top only, and nothing is set up that would put one there.
* `Inside`: a context in the call, on stacks that the call has made. `Edits.guarded`: **no change that
  code in such a context makes puts a cell on the stacks of the caller.**
* `BlockRun`: a run of a block from its call on, while others leave the caller alone.
* `Ensemble.Reachable.isolated`: **an isolated block takes cells and gives one at most.**
-/

namespace ScopeStack

open ScopeStack.Action

/-! ## 1. The stacks that pops fall through -/

/-- The own stack of a scope and those of its ancestors in its process, looked for at most `n` scopes
out. -/
def Arena.ownStacksUpTo (a : Arena) : Nat → ScopeId → List StackId
  | 0, _ => []
  | n + 1, id =>
    match a.get? id with
    | none => []
    | some s => s.stack ::
      match s.parent, s.spawned with
      | some parent, false => a.ownStacksUpTo n parent
      | _, _ => []

/-- The innermost stack of a context and those that its pops fall through to. -/
def Context.stackChain (c : Context) (a : Arena) : List StackId :=
  c.callStacks ++ (c.base.map (a.ownStacksUpTo (a.size + 1))).getD []

/-- What the pops of a context take, the top first. -/
def Context.effective (c : Context) (a : Arena) : List Cell := (c.stackChain a).flatMap a.stackCells

namespace Arena

variable {a : Arena}

theorem topOf?_append (a : Arena) (front back : List StackId) :
    a.topOf? (front ++ back) = (a.topOf? front).or (a.topOf? back) := by
  induction front with
  | nil => rfl
  | cons σ front ih =>
    rw [List.cons_append, topOf?, topOf?]
    cases a.stackCells σ with
    | nil => exact ih
    | cons cell cells => rfl

theorem topOf?_ownStacks {n : Nat} {id : ScopeId} {r : Option (StackId × Cell)}
    (h : a.ownTopUpTo n id = .ok r) : a.topOf? (a.ownStacksUpTo n id) = r := by
  induction n generalizing id with
  | zero => exact Except.ok.inj h
  | succ n ih =>
    rw [ownTopUpTo] at h
    rw [ownStacksUpTo]
    cases hs : a.get? id with
    | none =>
      rw [hs] at h
      cases h
    | some s =>
      rw [hs] at h
      dsimp only at h ⊢
      rw [topOf?]
      cases hcells : a.stackCells s.stack with
      | cons cell cells =>
        rw [hcells] at h
        exact Except.ok.inj h
      | nil =>
        rw [hcells] at h
        dsimp only at h ⊢
        cases hp : s.parent with
        | none =>
          rw [hp] at h
          exact Except.ok.inj h
        | some parent =>
          cases hsp : s.spawned with
          | true =>
            rw [hp, hsp] at h
            exact Except.ok.inj h
          | false =>
            rw [hp, hsp] at h
            exact ih h

theorem mem_of_topOf? {σs : List StackId} {σ : StackId} {cell : Cell}
    (h : a.topOf? σs = some (σ, cell)) : σ ∈ σs := by
  induction σs with
  | nil => cases h
  | cons τ σs ih =>
    rw [topOf?] at h
    cases hcells : a.stackCells τ with
    | nil =>
      rw [hcells] at h
      exact List.mem_cons_of_mem _ (ih h)
    | cons x xs =>
      rw [hcells] at h
      cases h
      exact List.mem_cons_self

/-- Stacks with the same cells. -/
theorem flatMap_congr {b : Arena} {σs : List StackId}
    (h : ∀ σ ∈ σs, b.stackCells σ = a.stackCells σ) :
    σs.flatMap b.stackCells = σs.flatMap a.stackCells := by
  rw [List.flatMap_def, List.flatMap_def, List.map_congr_left h]

/-- Another stack changes. -/
theorem flatMap_modifyStack {σs : List StackId} {σ : StackId} (hσ : σ ∉ σs)
    (f : CellStack → CellStack) :
    σs.flatMap (a.modifyStack σ f).stackCells = σs.flatMap a.stackCells :=
  flatMap_congr fun τ hτ => by
    have hne : τ ≠ σ := fun he => hσ (he ▸ hτ)
    rw [stackCells, stack_modifyStack, if_neg hne, stackCells]

/-- Another stack goes. -/
theorem flatMap_dropStack {σs : List StackId} {σ : StackId} (hσ : σ ∉ σs) :
    σs.flatMap (a.dropStack σ).stackCells = σs.flatMap a.stackCells :=
  flatMap_congr fun τ hτ => by
    have hne : ¬ σ = τ := fun he => hσ (he ▸ hτ)
    simp [stackCells, stack, dropStack, Std.TreeMap.getD_erase, hne]

/-- A pop takes the top cell. -/
theorem flatMap_popCell {σs : List StackId} (hnodup : σs.Nodup) {σ : StackId} {cell : Cell}
    (h : a.topOf? σs = some (σ, cell)) :
    σs.flatMap a.stackCells = cell :: σs.flatMap (a.popCell σ).stackCells := by
  induction σs with
  | nil => cases h
  | cons τ σs ih =>
    rw [topOf?] at h
    obtain ⟨hτ, hnodup⟩ := List.nodup_cons.mp hnodup
    cases hcells : a.stackCells τ with
    | nil =>
      rw [hcells] at h
      have hne : τ ≠ σ := fun he => hτ (he ▸ mem_of_topOf? h)
      rw [List.flatMap_cons, List.flatMap_cons, stackCells_popCell, if_neg hne, hcells]
      exact ih hnodup h
    | cons x xs =>
      rw [hcells] at h
      cases h
      have hrest : σs.flatMap (a.popCell σ).stackCells = σs.flatMap a.stackCells :=
        flatMap_modifyStack hτ _
      rw [List.flatMap_cons, List.flatMap_cons, stackCells_popCell, if_pos rfl, hcells, hrest]
      rfl

theorem head?_flatMap (a : Arena) (σs : List StackId) :
    (σs.flatMap a.stackCells).head? = (a.topOf? σs).map (·.2) := by
  induction σs with
  | nil => rfl
  | cons σ σs ih =>
    rw [List.flatMap_cons, topOf?]
    cases a.stackCells σ with
    | nil => exact ih
    | cons cell cells => rfl

end Arena

namespace Context

variable {a : Arena}

/-- A pop takes from the first of these stacks that is not empty. -/
theorem top?_stacks {c : Context} {r : Option (StackId × Cell)} (h : c.top? a = .ok r) :
    a.topOf? (c.stackChain a) = r := by
  rw [top?] at h
  rw [stackChain, Arena.topOf?_append]
  cases htop : a.topOf? c.callStacks with
  | some top =>
    rw [htop] at h
    exact Except.ok.inj h
  | none =>
    rw [htop] at h
    cases hb : c.base with
    | none =>
      rw [hb] at h
      exact Except.ok.inj h
    | some base =>
      rw [hb] at h
      exact Arena.topOf?_ownStacks h

/-- **What a pop takes is the top of the effective stack.** -/
theorem top?_effective {c : Context} {r : Option (StackId × Cell)} (h : c.top? a = .ok r) :
    (c.effective a).head? = r.map (·.2) := by
  rw [effective, Arena.head?_flatMap, top?_stacks h]

end Context

section Watched

variable {a₀ a b : Arena} {p : ScopeId} {c d : Context}

/-- Behind the stacks of calls there is the stack of the process, or nothing. -/
theorem Placed.stacks_eq (hR : a.Regular) (hp : Head a p) (hc : Placed a p c) {s : Scope}
    (hs : a.get? p = some s) :
    c.stackChain a = c.callStacks ++ if c.base = none then [] else [s.stack] := by
  have hend : ∀ n, a.ownStacksUpTo (n + 1) p = [s.stack] := by
    intro n
    rw [Arena.ownStacksUpTo, hs]
    dsimp only
    rcases hp with rfl | ⟨t, ht, hrun⟩
    · obtain ⟨r, hr, hparent, -⟩ := hR.tree.root
      cases hs.symm.trans hr
      rw [hparent]
    · cases hs.symm.trans ht
      rw [(hR.running ht hrun).2.1]
      cases s.parent <;> rfl
  rw [Context.stackChain]
  rcases hc.base with hb | ⟨hb, -⟩
  · rw [hb]
    rfl
  · rw [hb, Option.map_some, Option.getD_some, hend]
    rfl

namespace Starts

variable (hS : Starts a₀ p c)
include hS

/-- The stacks that a context works on are the same as long as it has its place. -/
theorem stackChain_drifts (hR : a.Regular) (hD : a₀.Drifts a) : c.stackChain a = c.stackChain a₀ := by
  obtain ⟨s, hs, hk⟩ := hS.head.get? hS.regular.tree
  obtain ⟨t, ht, -, hst⟩ := hD.kept hs hk
  rw [(hS.placed.drifts hS.regular.tree hD hS.head).stacks_eq hR (hD.head hS.head) ht,
    hS.placed.stacks_eq hS.regular hS.head hs, hst]

theorem stackChain_le {σ : StackId} (hσ : σ ∈ c.stackChain a₀) : σ ≤ a₀.lastStack := by
  obtain ⟨s, hs, -⟩ := hS.head.get? hS.regular.tree
  rw [hS.placed.stacks_eq hS.regular hS.head hs] at hσ
  rcases List.mem_append.mp hσ with hσ | hσ
  · exact hS.placed.stack_le hσ
  · split at hσ
    · cases hσ
    · cases List.mem_singleton.mp hσ
      exact hS.regular.stack_le hs

theorem stackChain_nodup : (c.stackChain a₀).Nodup := by
  obtain ⟨s, hs, -⟩ := hS.head.get? hS.regular.tree
  rw [hS.placed.stacks_eq hS.regular hS.head hs]
  rcases hS.placed.base with hb | ⟨hb, hown⟩
  · rw [hb, if_pos rfl, List.append_nil]
    exact hS.placed.nodup
  · rw [hb, if_neg (fun h => by cases h)]
    refine List.nodup_append.mpr ⟨hS.placed.nodup, List.nodup_cons.mpr ⟨List.not_mem_nil, .nil⟩,
      fun σ hσ τ hτ he => ?_⟩
    cases List.mem_singleton.mp hτ
    exact hown s hs (he ▸ hσ)

/-- Of the scopes only the process itself may have one of these stacks. -/
theorem stacks_apart (hR : a.Regular) (hD : a₀.Drifts a) {k : ScopeId} {s : Scope}
    (hs : a.get? k = some s) (hσ : s.stack ∈ c.stackChain a₀) : k = p := by
  have hp := hD.head hS.head
  have hc := hS.placed.drifts hS.regular.tree hD hS.head
  obtain ⟨r, hr, -⟩ := hp.get? hR.tree
  rw [← hS.stackChain_drifts hR hD, hc.stacks_eq hR hp hr] at hσ
  rcases List.mem_append.mp hσ with hσ | hσ
  · exact hc.apart hs hσ
  · split at hσ
    · cases hσ
    · exact hR.stack_inj hs hr (List.mem_singleton.mp hσ)

/-- A push goes onto the first of the stacks of the context. -/
theorem owns (hR : a.Regular) (hD : a₀.Drifts a) {σ : StackId} (hσ : c.Owns a σ) :
    ∃ rest, c.stackChain a₀ = σ :: rest := by
  rw [← hS.stackChain_drifts hR hD]
  have hc := hS.placed.drifts hS.regular.tree hD hS.head
  rcases hσ with hhead | ⟨hbare, s, hs, rfl⟩
  · rw [Context.stackChain]
    cases ho : c.callStacks with
    | nil =>
      rw [ho] at hhead
      cases hhead
    | cons τ rest =>
      rw [ho] at hhead
      cases hhead
      exact ⟨_, List.cons_append⟩
  · obtain ⟨hscope, hbase⟩ := hc.bare hbare
    rw [hscope] at hs
    rw [hc.stacks_eq hR (hD.head hS.head) hs, hbare, hbase]
    exact ⟨[], rfl⟩

end Starts

/-! ## 2. What a call leaves of them -/

/-- Since `a₀` cells have gone from the top of the stacks of the caller `c` and none has come, no push
session is open, and the blocks that are open are not written in the scope of the process. -/
structure Guarded (a₀ : Arena) (c : Context) (a : Arena) : Prop where
  kept : (c.stackChain a₀).flatMap a.stackCells <:+ c.effective a₀
  session {r : Scope} : a.get? c.process = some r → r.pushTarget = none
  opened {r : Scope} {k : ScopeId} : a.get? c.process = some r → k ∈ r.compileStack →
    k ≠ c.process ∧ ∀ s, a.get? k = some s → s.parent ≠ some c.process

namespace Guarded

/-- No cell comes, and neither a session nor a block is opened. -/
theorem mono (hG : Guarded a₀ c a) (hT : a.Tree)
    (hcells : (c.stackChain a₀).flatMap b.stackCells <:+ (c.stackChain a₀).flatMap a.stackCells)
    (hprocess : ∀ t, b.get? c.process = some t → ∃ r, a.get? c.process = some r ∧
      t.pushTarget = r.pushTarget ∧ t.compileStack ⊆ r.compileStack)
    (hparent : ∀ k t, b.get? k = some t → k ≤ a.lastScope →
      ∃ s, a.get? k = some s ∧ t.parent = s.parent) : Guarded a₀ c b where
  kept := hcells.trans hG.kept
  session ht := by
    obtain ⟨r, hr, hpush, -⟩ := hprocess _ ht
    exact hpush.trans (hG.session hr)
  opened ht hk := by
    obtain ⟨r, hr, -, hsub⟩ := hprocess _ ht
    obtain ⟨hne, hparents⟩ := hG.opened hr (hsub hk)
    refine ⟨hne, fun t ht' => ?_⟩
    obtain ⟨s, hs, he⟩ := hparent _ t ht' (hT.open_le hr (hsub hk)).1
    rw [he]
    exact hparents s hs

/-- Only stacks change. -/
theorem of_scopes (hG : Guarded a₀ c a) (hT : a.Tree) (hget : ∀ k, b.get? k = a.get? k)
    (hcells : (c.stackChain a₀).flatMap b.stackCells <:+ (c.stackChain a₀).flatMap a.stackCells) :
    Guarded a₀ c b := by
  refine hG.mono hT hcells (fun t ht => ⟨t, hget _ ▸ ht, rfl, List.Subset.refl _⟩) fun k t ht _ => ?_
  exact ⟨t, hget k ▸ ht, rfl⟩

/-- A stack changes that the caller does not work on. -/
theorem modifyStack (hG : Guarded a₀ c a) (hT : a.Tree) {σ : StackId} (hσ : σ ∉ c.stackChain a₀)
    (f : CellStack → CellStack) : Guarded a₀ c (a.modifyStack σ f) := by
  exact hG.of_scopes hT (fun _ => rfl) ⟨[], Arena.flatMap_modifyStack hσ f⟩

/-- A stack goes that the caller does not work on. -/
theorem dropStack (hG : Guarded a₀ c a) (hT : a.Tree) {σ : StackId} (hσ : σ ∉ c.stackChain a₀) :
    Guarded a₀ c (a.dropStack σ) := by
  exact hG.of_scopes hT (fun _ => rfl) ⟨[], Arena.flatMap_dropStack hσ⟩

/-- A new stack comes. -/
theorem newStack (hG : Guarded a₀ c a) (hT : a.Tree) (hS : Starts a₀ p c) (hD : a₀.Drifts a) :
    Guarded a₀ c a.newStack.2 := by
  refine hG.of_scopes hT (fun _ => rfl) ⟨[], Arena.flatMap_congr fun τ hτ => ?_⟩
  rw [Arena.stackCells_newStack, if_neg]
  rintro rfl
  exact Nat.not_succ_le_self _ (Nat.le_trans (hS.stackChain_le hτ) hD.lastStack)

theorem refills (hG : Guarded a₀ c a) (hT : a.Tree) (h : a.Refills b) : Guarded a₀ c b := by
  refine hG.mono hT ⟨[], Arena.flatMap_congr fun σ _ => h.stackCells σ⟩ (fun t ht => ?_)
    fun k t ht _ => ?_
  · obtain ⟨r, hr, he⟩ := h.get? ht
    refine ⟨r, hr, Scope.eq_of_outline (·.pushTarget) (fun _ => rfl) he, ?_⟩
    rw [Scope.eq_of_outline (·.compileStack) (fun _ => rfl) he]
    exact List.Subset.refl _
  · obtain ⟨s, hs, he⟩ := h.get? ht
    exact ⟨s, hs, Scope.eq_of_outline (·.parent) (fun _ => rfl) he⟩

/-- A block that nothing refers to goes. -/
theorem pruned (hG : Guarded a₀ c a) (hT : a.Tree) {top : ScopeId} (h : a.Pruned top b) :
    Guarded a₀ c b := by
  refine hG.mono hT ⟨[], Arena.flatMap_congr fun σ _ => h.stackCells σ⟩ (fun t ht => ?_)
    fun k t ht _ => ?_
  · obtain ⟨-, s, hs, hts, -⟩ := h.of_get? ht
    exact ⟨s, hs, by rw [hts], by rw [hts]; exact List.Subset.refl _⟩
  · obtain ⟨-, s, hs, hts, -⟩ := h.of_get? ht
    exact ⟨s, hs, by rw [hts]⟩

/-- A block comes. -/
theorem added (hG : Guarded a₀ c a) (hT : a.Tree) (hS : Starts a₀ c.process c) (hD : a₀.Drifts a)
    {parent : ScopeId} {shares : Bool} (h : a.Added parent shares b) : Guarded a₀ c b := by
  have hold {k : ScopeId} {t : Scope} (ht : b.get? k = some t) (hk : k ≤ a.lastScope) :
      ∃ s, a.get? k = some s ∧ t.parent = s.parent ∧ t.pushTarget = s.pushTarget ∧
        t.compileStack = s.compileStack := by
    rw [h.get?, if_neg (Nat.ne_of_lt (Nat.lt_succ_of_le hk))] at ht
    obtain ⟨s, hs, rfl⟩ := Option.map_eq_some_iff.mp ht
    exact ⟨s, hs, rfl, rfl, rfl⟩
  have hp : c.process ≤ a.lastScope := by
    obtain ⟨s, hs, hk⟩ := hS.head.get? hS.regular.tree
    exact Nat.le_trans (hS.regular.tree.forest.le_last hs) hD.lastScope
  refine hG.mono hT ⟨[], Arena.flatMap_congr fun σ hσ => ?_⟩ (fun t ht => ?_) fun k t ht hk => ?_
  · rw [h.stackCells, if_neg]
    rintro rfl
    exact Nat.not_succ_le_self _ (Nat.le_trans (hS.stackChain_le hσ) hD.lastStack)
  · obtain ⟨s, hs, -, hpush, hopen⟩ := hold ht hp
    exact ⟨s, hs, hpush, hopen ▸ List.Subset.refl _⟩
  · obtain ⟨s, hs, hparent, -⟩ := hold ht hk
    exact ⟨s, hs, hparent⟩

/-- The block that has come last is open. -/
theorem opening (hG : Guarded a₀ c a) (hne : a.lastScope ≠ c.process)
    (hparent : ∀ s, a.get? a.lastScope = some s → s.parent ≠ some c.process) :
    Guarded a₀ c (a.opening c.process) := by
  have hget {k : ScopeId} {t : Scope} (ht : (a.opening c.process).get? k = some t) :
      ∃ s, a.get? k = some s ∧ t.parent = s.parent ∧ t.pushTarget = s.pushTarget ∧
        t.compileStack = if k = c.process then a.lastScope :: s.compileStack else s.compileStack := by
    rw [Arena.get?_opening] at ht
    obtain ⟨s, hs, rfl⟩ := Option.map_eq_some_iff.mp ht
    exact ⟨s, hs, rfl, rfl, rfl⟩
  refine ⟨hG.kept, fun ht => ?_, fun {t k} ht hk => ?_⟩
  · obtain ⟨r, hr, -, hpush, -⟩ := hget ht
    exact hpush.trans (hG.session hr)
  · obtain ⟨r, hr, -, -, hopen⟩ := hget ht
    rw [hopen, if_pos rfl] at hk
    rcases List.mem_cons.mp hk with rfl | hk
    · refine ⟨hne, fun u hu => ?_⟩
      obtain ⟨s, hs, he, -⟩ := hget hu
      exact he ▸ hparent s hs
    · obtain ⟨hk', hparents⟩ := hG.opened hr hk
      refine ⟨hk', fun u hu => ?_⟩
      obtain ⟨s, hs, he, -⟩ := hget hu
      exact he ▸ hparents s hs

theorem finish (hG : Guarded a₀ c a) (hT : a.Tree) (block parent : ScopeId) :
    Guarded a₀ c (a.finish c.process block parent) := by
  refine hG.mono hT List.suffix_rfl (fun t ht => ?_) fun k t ht _ => ?_
  · rw [Arena.get?_finish] at ht
    obtain ⟨r, hr, rfl⟩ := Option.map_eq_some_iff.mp ht
    refine ⟨r, hr, rfl, ?_⟩
    dsimp only
    rw [if_pos rfl]
    exact fun k hk => List.mem_of_mem_tail hk
  · rw [Arena.get?_finish] at ht
    obtain ⟨s, hs, rfl⟩ := Option.map_eq_some_iff.mp ht
    exact ⟨s, hs, rfl⟩

end Guarded

/-! ## 3. Code inside the call -/

/-- The context `d` is that of code in a call from `c`, on stacks made since, in front of those of the
caller. -/
structure Inside (a₀ : Arena) (c d : Context) : Prop where
  process : d.process = c.process
  scope : d.scope ≠ c.process
  base : d.base = c.base
  callStacks : ∃ made, made ≠ [] ∧ d.callStacks = made ++ c.callStacks ∧ ∀ σ ∈ made, a₀.lastStack < σ

/-- A call from inside stays inside. -/
theorem Inside.callee {a₁ : Arena} {callee : Context} {call : Call} (hd : Inside a₀ c d)
    (hlast : a₀.lastStack ≤ a₁.lastStack) (h : Callee a₁ d callee call) : Inside a₀ c callee := by
  obtain ⟨made, hne, heq, hmade⟩ := hd.callStacks
  have hscope : callee.scope ≠ c.process := hd.process ▸ h.scope
  cases hshares : call.shares with
  | false =>
    obtain ⟨hstacks, hbase, hnew⟩ := h.isolated hshares
    refine ⟨h.process.trans hd.process, hscope, hbase.trans hd.base, call.stack :: made,
      List.cons_ne_nil _ _, ?_, fun σ hσ => ?_⟩
    · rw [hstacks, heq, List.cons_append]
    · rcases List.mem_cons.mp hσ with rfl | hσ
      · exact Nat.lt_of_le_of_lt hlast hnew
      · exact hmade σ hσ
  | true =>
    have hcalls : d.callStacks ≠ [] := by
      rw [heq]
      exact fun h => hne (List.append_eq_nil_iff.mp h).1
    obtain ⟨hstacks, hbase⟩ := h.shared hshares hcalls
    exact ⟨h.process.trans hd.process, hscope, hbase.trans hd.base, made, hne, hstacks.trans heq,
      hmade⟩

section Changes

variable {a₁ : Arena} {spare : StackId → Prop} (hS : Starts a₀ c.process c)
  (hspare : ∀ σ, spare σ → a₀.lastStack < σ) (hd : Inside a₀ c d)
include hS hspare hd

/-- **A change that code inside the call makes puts nothing on the stacks of the caller.** -/
theorem Edit.guarded (he : Edit a₁ False spare d a b) (hR : a.Regular) (hD : a₀.Drifts a)
    (hG : Guarded a₀ c a) : Guarded a₀ c b := by
  have hT := hR.tree
  have hnew {σ : StackId} (hσ : a₀.lastStack < σ) : σ ∉ c.stackChain a₀ := fun hm =>
    Nat.not_le_of_lt hσ (hS.stackChain_le hm)
  have hquiet : ¬ a.InSession d.process := by
    rintro ⟨r, hr, hpush⟩
    rw [hd.process] at hr
    exact hpush (hG.session hr)
  obtain ⟨made, hne, heq, hmade⟩ := hd.callStacks
  cases he with
  | refill h _ _ => exact hG.refills hT h
  | put f hown =>
    refine hG.modifyStack hT (hnew (hmade _ ?_)) f
    rcases hown with hhead | ⟨hbare, -⟩
    · rw [heq] at hhead
      cases made with
      | nil => exact absurd rfl hne
      | cons σ made =>
        cases hhead
        exact List.mem_cons_self
    · rw [heq] at hbare
      exact absurd (List.append_eq_nil_iff.mp hbare).1 hne
  | pop htop =>
    rename_i σ cell
    have hstacks : d.stackChain a = made ++ c.stackChain a₀ := by
      rw [← hS.stackChain_drifts hR hD, Context.stackChain, Context.stackChain, heq, hd.base, List.append_assoc]
    have htop := Context.top?_stacks htop
    rw [hstacks, Arena.topOf?_append] at htop
    cases hfront : a.topOf? made with
    | some top =>
      rw [hfront] at htop
      cases htop
      exact hG.modifyStack hT (hnew (hmade _ (Arena.mem_of_topOf? hfront))) _
    | none =>
      rw [hfront] at htop
      refine hG.of_scopes hT (fun _ => rfl) ?_
      rw [Arena.flatMap_popCell hS.stackChain_nodup htop]
      exact List.suffix_cons _ _
  | spend f hσ => exact hG.modifyStack hT (hnew (hspare _ hσ)) f
  | drop hσ => exact hG.dropStack hT (hnew (hspare _ hσ))
  | newStack => exact hG.newStack hT hS hD
  | prune _ _ hP => exact hG.pruned hT hP
  | stray _ _ hA => exact hG.added hT hS hD hA
  | opened hr hs hA =>
    rename_i r s shares b
    rw [hd.process] at hr ⊢
    have htarget : r.compileStack.headD d.scope ≠ c.process := by
      cases ho : r.compileStack with
      | nil => exact hd.scope
      | cons k rest =>
        refine (hG.opened hr ?_).1
        rw [ho]
        exact List.mem_cons_self
    refine (hG.added hT hS hD hA).opening (fun he => ?_) fun t ht => ?_
    · rw [hA.lastScope] at he
      exact Nat.not_succ_le_self _ (he ▸ hT.forest.le_last hr)
    · rw [hA.lastScope, hA.get?_new] at ht
      cases ht
      exact fun he => htarget (Option.some.inj he)
  | finished _ _ _ _ =>
    rw [hd.process]
    exact hG.finish hT _ _
  | delivered f hr hk hs hp ht =>
    rename_i r s t block parent
    rw [hd.process] at hr ⊢
    -- the block is not written in the scope of the process, so it goes to another scope's stack
    have hG' := hG.finish hT block parent
    have hne' : parent ≠ c.process := fun he =>
      (hG.opened hr (List.mem_of_head? hk)).2 s hs (he ▸ hp)
    refine ⟨?_, hG'.session, hG'.opened⟩
    rw [Arena.flatMap_modifyStack fun hσ => hne' (hS.stacks_apart hR hD ht hσ)]
    exact hG'.kept
  | send _ h => exact absurd h (not_or.mpr ⟨id, hquiet⟩)
  | session _ h => exact absurd h (not_or.mpr ⟨id, hquiet⟩)
  | claim _ h => exact h.elim
  | clear h => exact h.elim

/-- **Nor do such changes in a row.** -/
theorem Edits.guarded {lists : Prop} (he : Edits lists False spare d a₁ a) (hR : a₁.Regular) (hD : a₀.Drifts a₁)
    (hplaced : Placed a₁ c.process d) (hG : Guarded a₀ c a₁) : Guarded a₀ c a := by
  have hp : Head a₁ c.process := hD.head hS.head
  induction he with
  | refl => exact hG
  | step hes he ih =>
    obtain ⟨hR', hD'⟩ := hes.regular_drifts hR hp hplaced
    exact he.guarded hS hspare hd hR' (hD.trans hS.regular.tree.forest hD') ih
  | relist _ hes h _ ih => exact ih.refills (hes.regular_drifts hR hp hplaced).1.tree h

end Changes

/-! ## 4. Jobs inside the call -/

/-- A job of code in a call from `c`. -/
structure Job.Inside (a₀ : Arena) (c : Context) (a : Arena) (job : Job) : Prop where
  context {d : Context} : job.context? = some d →
    Placed a c.process d ∧ ScopeStack.Inside a₀ c d
  frees {σ : StackId} : job.frees σ → a₀.lastStack < σ
  ne_finish (s : ScopeId) (pid : Pid) : job ≠ .finish s pid

theorem Job.Inside.drifts {job : Job} (h : job.Inside a₀ c a) (hT : a.Tree) (hp : Head a c.process)
    (hD : a.Drifts b) : job.Inside a₀ c b :=
  ⟨fun hd => ⟨(h.context hd).1.drifts hT hD hp, (h.context hd).2⟩, h.frees, h.ne_finish⟩

/-- What a job inside the call leaves is inside the call. -/
theorem Job.Issued.inside {a₁ : Arena} {job : Job} (h : job.Issued a₁ a c.process d)
    (hd : ScopeStack.Inside a₀ c d) (hplaced : Placed a c.process d)
    (hlast : a₀.lastStack ≤ a₁.lastStack) : job.Inside a₀ c a := by
  cases h with
  | here h =>
    cases job with
    | leave | finish => exact h.elim
    | _ => exact ⟨fun he => h _ he ▸ ⟨hplaced, hd⟩, fun hσ => hσ.elim, fun _ _ he => by cases he⟩
  | body hcallee hplaced' =>
    exact ⟨fun he => by cases he; exact ⟨hplaced', hd.callee hlast hcallee⟩, fun hσ => hσ.elim,
      fun _ _ he => by cases he⟩
  | leave hcallee _ =>
    refine ⟨fun he => by cases he; exact ⟨hplaced, hd⟩, fun hσ => ?_, fun _ _ he => by cases he⟩
    obtain ⟨hshares, rfl⟩ := hσ
    exact Nat.lt_of_le_of_lt hlast (hcallee.isolated hshares).2.2

/-- Does the next step carry out a word that reaches into another process, or makes pushes do so? -/
def Thread.talks (t : Thread) (m : Machine) : Bool := (t.effect? m).any (·.talks)

/-- **A step inside the call** leaves the stacks of the caller guarded, and jobs inside the call. -/
theorem Thread.step_inside {m m' : Machine} {t t' : Thread} {job : Job} {rest : List Job}
    (hS : Starts a₀ c.process c) (hR : m.arena.Regular) (hD : a₀.Drifts m.arena)
    (hG : Guarded a₀ c m.arena) (hplaced : Placed m.arena c.process d)
    (hd : ScopeStack.Inside a₀ c d) (hagenda : t.agenda = job :: rest)
    (hjob : job.Inside a₀ c m.arena) (hquiet : t.talks m = false)
    (hstep : t.step m = some (t', m')) :
    m'.arena.Regular ∧ m.arena.Drifts m'.arena ∧ Guarded a₀ c m'.arena ∧
      ∃ jobs, t'.agenda = jobs ++ rest ∧ ∀ x ∈ jobs, x.Inside a₀ c m'.arena := by
  have hp : Head m.arena c.process := hD.head hS.head
  -- a job without a context may as well be one of `d`
  have hctx : ∃ e, Placed m.arena c.process e ∧ ScopeStack.Inside a₀ c e ∧
      ∀ x, job.context? = some x → x = e := by
    cases he : job.context? with
    | none => exact ⟨d, hplaced, hd, fun x hx => by cases hx⟩
    | some e =>
      exact ⟨e, (hjob.context he).1, (hjob.context he).2, fun x hx => (Option.some.inj hx).symm⟩
  obtain ⟨e, hplaced', he, honly⟩ := hctx
  have hS' : Starts m.arena c.process e := ⟨hR, hp, hplaced'⟩
  have hran : ∃ jobs, t'.agenda = jobs ++ rest ∧
      Ran False job.frees c.process e (job.delisted m.arena) jobs m' :=
    Thread.step_ran hS' hagenda honly hjob.ne_finish (fun x hx ht => by
      rw [Thread.talks, hx, Option.any_some, ht] at hquiet
      cases hquiet) hstep
  obtain ⟨jobs, heq, hm⟩ := hran
  have hlast := (job.delisted_refills m.arena).lastStack
  exact ⟨hS'.regular_now hm.since, hS'.drifts hm.since,
    Edits.guarded hS (fun _ => hjob.frees) he hm.since hR hD hplaced' hG, jobs, heq, fun x hx =>
      (hm.issued x hx).inside he (hS'.placed_now hm.since) (hlast.symm ▸ hD.lastStack)⟩

/-! ## 5. The end of the call -/

/-- What has become of a stack, the top first, however the work has ended: cells have gone from the
top and, if the work has ended well, one may have come. -/
def Isolates (before after : List Cell) : Status → Prop
  | .ok () => ∃ top kept, top.length ≤ 1 ∧ kept <:+ before ∧ after = top ++ kept
  | .error _ => after <:+ before

section Leave

variable {m : Machine} (hS : Starts a₀ c.process c) (hR : m.arena.Regular)
  (hD : a₀.Drifts m.arena) (hG : Guarded a₀ c m.arena)
include hS hR hD hG

/-- **A push by the caller puts one cell on top.** -/
theorem Guarded.push (v : Value) :
    (c.push v).Ends m
      (fun _ m' => ∃ cell, (c.stackChain a₀).flatMap m'.arena.stackCells =
        cell :: (c.stackChain a₀).flatMap m.arena.stackCells)
      fun _ m' => (c.stackChain a₀).flatMap m'.arena.stackCells <:+ c.effective a₀ := by
  obtain ⟨r, hr, -⟩ := (hD.head hS.head).get? hR.tree
  unfold Context.push Context.pushTarget
  rw [bind_assoc, ends_bind, ends_getScope]
  refine ⟨fun r' hr' => ?_, fun _ => hG.kept⟩
  rw [pure_bind, hG.session hr']
  dsimp only
  unfold Context.pushLocal
  refine Ends.bind ((Context.internValue_gains hR.tree c v).mono (fun _ _ h => h)
    fun _ _ h => (hG.refills hR.tree (.grows h.grows)).kept) ?_
  rintro cell m₁ ⟨hg, -⟩
  have hrefill : m.arena.Refills m₁.arena := .grows hg.grows
  have hR₁ := hR.refills hrefill
  have hD₁ := hD.trans hS.regular.tree.forest (.refills hrefill)
  have hG₁ := hG.refills hR.tree hrefill
  have hcells : (c.stackChain a₀).flatMap m₁.arena.stackCells = (c.stackChain a₀).flatMap m.arena.stackCells :=
    Arena.flatMap_congr fun σ _ => hrefill.stackCells σ
  refine Ends.bind ((c.ownStack_ends m₁).mono (fun _ _ h => h) fun _ _ h => h ▸ hG₁.kept) ?_
  rintro σ m₂ ⟨rfl, hσ⟩
  obtain ⟨rest, hrest⟩ := hS.owns hR₁ hD₁ hσ
  have hnodup := hS.stackChain_nodup
  rw [hrest] at hnodup hcells ⊢
  rw [ends_modifyArena, ← hcells]
  refine ⟨cell, ?_⟩
  have hothers : rest.flatMap (m₂.arena.pushCell σ cell).stackCells = rest.flatMap m₂.arena.stackCells :=
    Arena.flatMap_modifyStack (List.nodup_cons.mp hnodup).1 _
  rw [List.flatMap_cons, List.flatMap_cons, Arena.stackCells_pushCell, if_pos rfl, hothers]
  rfl

/-- **The end of an isolated call** hands one value back, if it does anything. -/
theorem Guarded.leave (callee : Context) {call : Call} (hshares : call.shares = false)
    (hcall : a₀.lastStack < call.stack) :
    (Job.leave c callee call).start.Ends m
      (fun jobs m' => jobs = [] ∧
        Isolates (c.effective a₀) ((c.stackChain a₀).flatMap m'.arena.stackCells) (.ok ()))
      fun f m' =>
        Isolates (c.effective a₀) ((c.stackChain a₀).flatMap m'.arena.stackCells) (.error f) := by
  have hnew : call.stack ∉ c.stackChain a₀ := fun hm => Nat.not_le_of_lt hcall (hS.stackChain_le hm)
  have hrefill := Arena.Refills.setCalls m.arena call.block fun calls => calls.erase call.stack
  have hR₁ := hR.refills hrefill
  have hG₁ := hG.refills hR.tree hrefill
  show (Context.endCall call >>= fun _ => c.handBack callee call >>= fun _ =>
    dropCallStack call >>= fun _ => pure []).Ends m _ _
  rw [ends_bind, Context.endCall, ends_modifyScope]
  unfold Context.handBack dropCallStack
  rw [hshares, if_pos (by decide), ends_bind, ends_bind, ends_get]
  split
  · rw [ends_pure, if_neg (by decide), ends_bind, ends_modifyArena, ends_pure]
    exact ⟨rfl, [], _, Nat.zero_le _, hG₁.kept, Arena.flatMap_dropStack hnew⟩
  · rename_i cell cells hcells
    rw [ends_bind, ends_modifyArena]
    have hG₂ := hG₁.modifyStack hR₁.tree hnew CellStack.pop
    have hR₂ := hR₁.of_scopes (b := (m.arena.modify call.block fun s =>
      { s with calls := s.calls.erase call.stack }).popCell call.stack) (fun _ => rfl) rfl rfl
      (Nat.le_refl _)
    have hD₂ : a₀.Drifts ((m.arena.modify call.block fun s =>
        { s with calls := s.calls.erase call.stack }).popCell call.stack) := by
      refine (hD.trans hS.regular.tree.forest (.refills hrefill)).trans hS.regular.tree.forest
        (.of_alike (Arena.Still.modifyStack ..).alike (Nat.le_refl _) fun k s t hs ht => ?_)
      cases hs.symm.trans ht
      exact ⟨rfl, rfl⟩
    refine Ends.bind ((Context.resolveCell_ends hR₂.tree callee cell).mono (fun _ _ h => h)
      fun _ _ h => h ▸ hG₂.kept) ?_
    rintro v m₁ ⟨rfl, -⟩
    refine (hG₂.push hS hR₂ hD₂ v).mono ?_ fun _ _ h => h
    rintro _ m₂ ⟨x, hx⟩
    rw [if_neg (by decide), ends_bind, ends_modifyArena, ends_pure]
    exact ⟨rfl, [x], _, Nat.le_refl _, hG₂.kept, (Arena.flatMap_dropStack hnew).trans hx⟩

omit hD in
/-- After a failure the end of a call hands nothing back. -/
theorem Guarded.leave_failed (callee : Context) {call : Call} (hshares : call.shares = false)
    (hcall : a₀.lastStack < call.stack) (f : Failure) :
    ((Job.leave c callee call).settle f).run m = ((.error f, []),
        (((Job.leave c callee call).settle f).run m).2) ∧
      Guarded a₀ c (((Job.leave c callee call).settle f).run m).2.arena := by
  have hnew : call.stack ∉ c.stackChain a₀ := fun hm => Nat.not_le_of_lt hcall (hS.stackChain_le hm)
  have hrefill := Arena.Refills.setCalls m.arena call.block fun calls => calls.erase call.stack
  have hrun : (do Context.endCall call; dropCallStack call : Action Unit).outcome m =
      (.ok (), { m with arena := (m.arena.modify call.block fun s =>
        { s with calls := s.calls.erase call.stack }).dropStack call.stack }) := by
    unfold dropCallStack
    rw [hshares]
    rfl
  have hsettle : ((Job.leave c callee call).settle f).run m = ((.error f, []),
      ((do Context.endCall call; dropCallStack call : Action Unit).outcome m).2) := rfl
  rw [hsettle, hrun]
  exact ⟨rfl, (hG.refills hR.tree hrefill).dropStack (hR.refills hrefill).tree hnew⟩

end Leave

/-! ## 6. Runs -/

/-- Others have acted in between. What runs goes on; the stacks that the caller works on, the session
of its process and the blocks that are open there are as they were. -/
structure Meanwhile (c : Context) (m m' : Machine) : Prop where
  regular : m'.arena.Regular
  drifts : m.arena.Drifts m'.arena
  parent {k : ScopeId} {s t : Scope} : m.arena.get? k = some s → m'.arena.get? k = some t →
    t.parent = s.parent
  cells {σ : StackId} : σ ∈ c.stackChain m.arena → m'.arena.stackCells σ = m.arena.stackCells σ
  process {r t : Scope} : m.arena.get? c.process = some r → m'.arena.get? c.process = some t →
    t.pushTarget = r.pushTarget ∧ t.compileStack = r.compileStack

/-- Scopes stay where they were written. -/
theorem Edit.parent {a₁ : Arena} {talks : Prop} {spare : StackId → Prop}
    (he : Edit a₁ talks spare d a b) {k : ScopeId} {t : Scope} (ht : b.get? k = some t)
    (hk : k ≤ a.lastScope) : ∃ s, a.get? k = some s ∧ t.parent = s.parent := by
  have hadded {parent : ScopeId} {shares : Bool} {b : Arena} (hA : a.Added parent shares b)
      {t : Scope} (ht : b.get? k = some t) : ∃ s, a.get? k = some s ∧ t.parent = s.parent := by
    rw [hA.get?, if_neg (Nat.ne_of_lt (Nat.lt_succ_of_le hk))] at ht
    obtain ⟨s, hs, rfl⟩ := Option.map_eq_some_iff.mp ht
    exact ⟨s, hs, rfl⟩
  have hfinish {process block parent : ScopeId} {t : Scope}
      (ht : (a.finish process block parent).get? k = some t) :
      ∃ s, a.get? k = some s ∧ t.parent = s.parent := by
    rw [Arena.get?_finish] at ht
    obtain ⟨s, hs, rfl⟩ := Option.map_eq_some_iff.mp ht
    exact ⟨s, hs, rfl⟩
  have hmodify {b : Arena} (hb : ∀ k, b.get? k = a.get? k) {id : ScopeId} {f : Scope → Scope}
      (ht : (b.modify id f).get? k = some t) (hf : ∀ s, (f s).parent = s.parent) :
      ∃ s, a.get? k = some s ∧ t.parent = s.parent := by
    obtain ⟨s, hs, hst⟩ := Arena.get?_modify_cases ht
    refine ⟨s, (hb k).symm.trans hs, ?_⟩
    rcases hst with ⟨-, rfl⟩ | ⟨-, rfl⟩
    · rfl
    · exact hf s
  cases he with
  | refill h _ _ =>
    obtain ⟨s, hs, hst⟩ := h.get? ht
    exact ⟨s, hs, Scope.eq_of_outline (·.parent) (fun _ => rfl) hst⟩
  | put | pop | spend | drop | newStack | send => exact ⟨t, ht, rfl⟩
  | prune _ _ hP =>
    obtain ⟨-, s, hs, hts, -⟩ := hP.of_get? ht
    exact ⟨s, hs, by rw [hts]⟩
  | stray _ _ hA => exact hadded hA ht
  | opened _ _ hA =>
    rw [Arena.get?_opening] at ht
    obtain ⟨s, hs, rfl⟩ := Option.map_eq_some_iff.mp ht
    obtain ⟨u, hu, he⟩ := hadded hA hs
    exact ⟨u, hu, he⟩
  | finished => exact hfinish ht
  | delivered =>
    rw [Arena.get?_modifyStack] at ht
    exact hfinish ht
  | session => exact hmodify (fun _ => rfl) ht fun _ => rfl
  | claim => exact hmodify (b := a.newStack.2) (fun _ => rfl) ht fun _ => rfl
  | clear => exact hmodify (fun _ => rfl) ht fun _ => rfl

/-- **A step of another process is such a change**, if it leaves the stacks, the session and the open
blocks of the caller alone. -/
theorem Meanwhile.of_step {m m' : Machine} {q : ScopeId} {t t' : Thread} {job : Job}
    {rest : List Job} (hR : m.arena.Regular) (hq : Head m.arena q)
    (hagenda : t.agenda = job :: rest) (h : Jobs.Placed m.arena q [job])
    (hstep : t.step m = some (t', m'))
    (hcells : ∀ σ ∈ c.stackChain m.arena, m'.arena.stackCells σ = m.arena.stackCells σ)
    (hprocess : ∀ r u, m.arena.get? c.process = some r → m'.arena.get? c.process = some u →
      u.pushTarget = r.pushTarget ∧ u.compileStack = r.compileStack) : Meanwhile c m m' := by
  obtain ⟨e, hS, hran⟩ := h.ran hR hq hagenda hstep
  obtain ⟨jobs, -, hm⟩ := hran
  refine ⟨hS.regular_now hm.since, hS.drifts hm.since, fun {k s u} hs hu => ?_, hcells _,
    hprocess _ _⟩
  have hparent : ∀ {a : Arena}, Edits True True job.frees e m.arena a → ∀ {u : Scope},
      a.get? k = some u → u.parent = s.parent := by
    intro a hes
    induction hes with
    | refl =>
      intro u hu
      cases hs.symm.trans hu
      rfl
    | step hes he ih =>
      intro u hu
      have hD := (hes.regular_drifts hS.regular hS.head hS.placed).2
      obtain ⟨v, hv, huv⟩ :=
        he.parent hu (Nat.le_trans (hR.tree.forest.le_last hs) hD.lastScope)
      exact huv.trans (ih hv)
    | relist _ _ h _ ih =>
      intro u hu
      obtain ⟨v, hv, huv⟩ := h.get? hu
      exact (Scope.eq_of_outline (·.parent) (fun _ => rfl) huv).trans (ih hv)
  exact hparent hm.since hu

/-- A run of a block that the context `c` calls, from the call on, in which no word reaches into
another process: what is left to do, and the machine. -/
inductive BlockRun (c : Context) (h : Handle) (m₀ : Machine) : Thread → Machine → Prop where
  | call {worker : Option WorkerRef} {t : Thread} {m : Machine} :
      Thread.step { worker, agenda := [.value c (.block h)] } m₀ = some (t, m) → BlockRun c h m₀ t m
  | step {t t' : Thread} {m m' : Machine} : BlockRun c h m₀ t m → t.talks m = false →
      t.step m = some (t', m') → BlockRun c h m₀ t' m'
  | meanwhile {t : Thread} {m m' : Machine} : BlockRun c h m₀ t m → Meanwhile c m m' →
      BlockRun c h m₀ t m'

/-- How far a run has got: it is inside the call, or the call has ended. -/
inductive InRun (a₀ : Arena) (c : Context) (t : Thread) (m : Machine) : Prop where
  | inside {callee : Context} {call : Call} {jobs : List Job} :
      t.agenda = jobs ++ [.leave c callee call] → (∀ job ∈ jobs, job.Inside a₀ c m.arena) →
      Placed m.arena c.process callee → Inside a₀ c callee → call.shares = false →
      a₀.lastStack < call.stack → Guarded a₀ c m.arena → InRun a₀ c t m
  | ended : t.agenda = [] →
      Isolates (c.effective a₀) ((c.stackChain a₀).flatMap m.arena.stackCells) t.status →
      InRun a₀ c t m

section Runs

variable {m m' : Machine} (hS : Starts a₀ c.process c)
include hS

theorem Guarded.meanwhile (hG : Guarded a₀ c m.arena) (hR : m.arena.Regular)
    (hD : a₀.Drifts m.arena) (h : Meanwhile c m m') : Guarded a₀ c m'.arena := by
  obtain ⟨r, hr, -⟩ := (hD.head hS.head).get? hR.tree
  refine hG.mono hR.tree ?_ (fun t ht => ?_) fun k t ht hk => ?_
  · exact ⟨[], Arena.flatMap_congr fun σ hσ => h.cells ((hS.stackChain_drifts hR hD).symm ▸ hσ)⟩
  · obtain ⟨hpush, hopen⟩ := h.process hr ht
    exact ⟨r, hr, hpush, hopen ▸ List.Subset.refl _⟩
  · rcases h.drifts.of_get? ht with ⟨s, hs, -⟩ | ⟨hlt, -⟩
    · exact ⟨s, hs, h.parent hs ht⟩
    · exact absurd hk (Nat.not_le_of_lt hlt)

/-- A step of a run. -/
theorem InRun.step {t t' : Thread} (h : InRun a₀ c t m) (hR : m.arena.Regular)
    (hD : a₀.Drifts m.arena) (hquiet : t.talks m = false) (hstep : t.step m = some (t', m')) :
    m'.arena.Regular ∧ m.arena.Drifts m'.arena ∧ InRun a₀ c t' m' := by
  have hp : Head m.arena c.process := hD.head hS.head
  cases h with
  | ended hagenda _ =>
    obtain ⟨job, rest, hjob⟩ := Thread.agenda_of_step hstep
    cases hagenda.symm.trans hjob
  | inside hagenda hjobs hplaced hcallee hshares hcall hG =>
    rename_i callee call jobs
    cases jobs with
    | cons job jobs =>
      obtain ⟨hR', hD', hG', new, heq, hnew⟩ := Thread.step_inside hS hR hD hG hplaced hcallee hagenda
        (hjobs job List.mem_cons_self) hquiet hstep
      refine ⟨hR', hD', .inside (heq.trans (List.append_assoc new jobs _).symm) (fun x hx => ?_)
        (hplaced.drifts hR.tree hD' hp) hcallee hshares hcall hG'⟩
      rcases List.mem_append.mp hx with hx | hx
      · exact hnew x hx
      · exact (hjobs x (List.mem_cons_of_mem _ hx)).drifts hR.tree hp hD'
    | nil =>
      -- the call itself ends
      have hS' : Starts m.arena c.process c :=
        ⟨hR, hp, hS.placed.drifts hS.regular.tree hD hS.head⟩
      have hran : ∃ jobs, t'.agenda = jobs ++ [] ∧
          Ran True (Job.leave c callee call).frees c.process c
            ((Job.leave c callee call).delisted m.arena) jobs m' :=
        Thread.step_ran hS' hagenda (fun d hd => (Option.some.inj hd).symm)
          (fun _ _ he => by cases he) (fun _ _ _ => trivial) hstep
      obtain ⟨_, -, hm⟩ := hran
      refine ⟨hS'.regular_now hm.since, hS'.drifts hm.since, ?_⟩
      have hend := hG.leave hS hR hD callee hshares hcall
      unfold Ends at hend
      obtain ⟨-, ⟨hstatus, hrun⟩ | ⟨f, hstatus, rfl, rfl⟩⟩ := Thread.step_cases hagenda hstep
      · rcases hrun with ⟨new, hrun, rfl⟩ | ⟨f, hrun, rfl⟩
        · rw [hrun] at hend
          obtain ⟨rfl, hiso⟩ := hend
          exact .ended rfl (hstatus ▸ hiso)
        · rw [hrun] at hend
          exact .ended rfl hend
      · obtain ⟨hsettle, hG'⟩ := hG.leave_failed hS hR callee hshares hcall f
        refine .ended ?_ ?_
        · rw [hsettle]
          rfl
        · rw [hsettle]
          exact hG'.kept

theorem InRun.meanwhile {t : Thread} (h : InRun a₀ c t m) (hR : m.arena.Regular)
    (hD : a₀.Drifts m.arena) (hmeanwhile : Meanwhile c m m') : InRun a₀ c t m' := by
  have hp : Head m.arena c.process := hD.head hS.head
  cases h with
  | inside hagenda hjobs hplaced hcallee hshares hcall hG =>
    exact .inside hagenda (fun job hj => (hjobs job hj).drifts hR.tree hp hmeanwhile.drifts)
      (hplaced.drifts hR.tree hmeanwhile.drifts hp) hcallee hshares hcall
      (hG.meanwhile hS hR hD hmeanwhile)
  | ended hagenda hiso =>
    refine .ended hagenda ?_
    rw [Arena.flatMap_congr fun σ hσ => hmeanwhile.cells ((hS.stackChain_drifts hR hD).symm ▸ hσ)]
    exact hiso

end Runs

/-- How an isolated block is called: on a new stack. -/
theorem Context.callBlock_isolated {m : Machine} {h : Handle} {k : ScopeId} {s : Scope}
    (hr : m.arena.resolveBlock c.scope h = .ok k) (hs : m.arena.get? k = some s)
    (hiso : s.sharesStack = false) :
    (c.callBlock h).Ends m
      (fun jobs m' => ∃ callee,
        jobs = [.body callee, .leave c callee ⟨k, m.arena.lastStack + 1, false⟩] ∧
        m'.arena = m.arena.newStack.2.modify k fun s =>
          { s with calls := (m.arena.lastStack + 1) :: s.calls })
      fun _ m' => m' = m := by
  unfold callBlock beginCall prepareCall
  rw [bind_assoc, bind_assoc, ends_bind, ends_inArena_ok hr, bind_assoc, ends_bind,
    ends_getScope_some hs]
  dsimp only
  split
  · rfl
  rw [hiso, if_neg (by decide), bind_assoc, ends_bind, ends_get, bind_assoc, ends_bind,
    ends_modifyArena, pure_bind, bind_assoc, Context.enterCall, bind_assoc, ends_bind, ends_getScope]
  refine ⟨fun s' _ => ?_, fun hno => ?_⟩
  · rw [ends_bind, ends_modifyScope, pure_bind, ends_pure]
    exact ⟨_, rfl, rfl⟩
  · cases hs.symm.trans hno

section Calls

variable {m m' : Machine} (hS : Starts m.arena c.process c) (hG : Guarded m.arena c m.arena)
include hS hG

/-- **The call begins.** -/
theorem InRun.call {worker : Option WorkerRef} {h : Handle} {k : ScopeId} {s : Scope} {t : Thread}
    (hr : m.arena.resolveBlock c.scope h = .ok k) (hs : m.arena.get? k = some s)
    (hiso : s.sharesStack = false)
    (hstep : Thread.step { worker, agenda := [.value c (.block h)] } m = some (t, m')) :
    m'.arena.Regular ∧ m.arena.Drifts m'.arena ∧ InRun m.arena c t m' := by
  have hbegin : (c.callBlock h).Ends m
      (fun jobs m' => Edits True False (fun _ => False) c m.arena m'.arena ∧ ∃ callee call,
        jobs = [.body callee, .leave c callee call] ∧ Callee m.arena c callee call ∧
        Placed m'.arena c.process callee ∧
        ∀ k, m'.arena.callsOf k = Arena.callsOn [call] k ++ m.arena.callsOf k)
      fun _ => Edited False (fun _ => False) c m.arena := hS.callBlock .refl h
  have hcall : (Job.value c (.block h)).start.Ends m _ _ :=
    hbegin.and (Context.callBlock_isolated hr hs hiso)
  unfold Ends at hcall
  obtain ⟨-, ⟨-, ⟨jobs, hrun, rfl⟩ | ⟨f, hrun, rfl⟩⟩ | ⟨f, hstatus, -⟩⟩ :=
    Thread.step_cases rfl hstep
  · rw [hrun] at hcall
    obtain ⟨⟨hm, callee, call, rfl, hcallee, hplaced, -⟩, callee', heq, harena⟩ := hcall
    cases heq
    obtain ⟨hstacks, hbase, hnew⟩ := hcallee.isolated rfl
    have hinside : Inside m.arena c callee :=
      ⟨hcallee.process, hcallee.scope, hbase, [m.arena.lastStack + 1], List.cons_ne_nil _ _, hstacks,
        fun σ hσ => List.mem_singleton.mp hσ ▸ hnew⟩
    have hagenda : [Job.body callee, .leave c callee ⟨k, m.arena.lastStack + 1, false⟩] ++ [] =
        [.body callee] ++ [.leave c callee ⟨k, m.arena.lastStack + 1, false⟩] := rfl
    refine ⟨hS.regular_now hm, hS.drifts hm, .inside hagenda (fun job hj => ?_) hplaced hinside rfl
      hnew ?_⟩
    · cases List.mem_singleton.mp hj
      exact ⟨fun he => by cases he; exact ⟨hplaced, hinside⟩, fun hσ => hσ.elim,
        fun _ _ he => by cases he⟩
    · rw [harena]
      exact (hG.newStack hS.regular.tree hS (.refl _)).refills
        ((Arena.Still.newStack _).tree hS.regular.tree) (.setCalls ..)
  · rw [hrun] at hcall
    obtain ⟨hm, rfl⟩ := hcall
    exact ⟨hS.regular, .refl _, .ended rfl hG.kept⟩
  · cases hstatus

/-- **A run of an isolated block** stays within its bounds all along. -/
theorem BlockRun.inRun {h : Handle} {k : ScopeId} {s : Scope} {t : Thread}
    (hr : m.arena.resolveBlock c.scope h = .ok k) (hs : m.arena.get? k = some s)
    (hiso : s.sharesStack = false) (hrun : BlockRun c h m t m') :
    m'.arena.Regular ∧ m.arena.Drifts m'.arena ∧ InRun m.arena c t m' := by
  have hF := hS.regular.tree.forest
  induction hrun with
  | call hstep => exact InRun.call hS hG hr hs hiso hstep
  | step _ hquiet hstep ih =>
    obtain ⟨hR, hD, hin⟩ := ih
    obtain ⟨hR', hD', hin'⟩ := hin.step hS hR hD hquiet hstep
    exact ⟨hR', hD.trans hF hD', hin'⟩
  | meanwhile _ hmeanwhile ih =>
    obtain ⟨hR, hD, hin⟩ := ih
    exact ⟨hmeanwhile.regular, hD.trans hF hmeanwhile.drifts, hin.meanwhile hS hR hD hmeanwhile⟩

end Calls

end Watched

namespace Ensemble

variable {w : Ensemble} {c : Context}

/-- In any state of a running environment, let a context call an isolated block, with no block open in
its process and no push session. When the call is over, cells have gone from the top of the caller's
effective stack; if it has ended well, at most one cell has come, and otherwise none. -/
theorem Reachable.isolated (hw : w.Reachable) (hc : w.Hosts c) {h : Handle} {k : ScopeId}
    {s r : Scope} (hblock : w.machine.arena.resolveBlock c.scope h = .ok k)
    (hs : w.machine.arena.get? k = some s) (hiso : s.sharesStack = false)
    (hr : w.machine.arena.get? c.process = some r) (hopen : r.compileStack = [])
    (hpush : r.pushTarget = none) {t : Thread} {m : Machine} (hrun : BlockRun c h w.machine t m)
    (hdone : t.isDone = true) :
    Isolates (c.effective w.machine.arena) (c.effective m.arena) t.status := by
  have hS := hw.starts hc
  have hG : Guarded w.machine.arena c w.machine.arena := by
    refine ⟨List.suffix_rfl, fun hr' => ?_, fun hr' hk => ?_⟩
    · cases hr.symm.trans hr'
      exact hpush
    · cases hr.symm.trans hr'
      rw [hopen] at hk
      cases hk
  obtain ⟨hR, hD, hin⟩ := hrun.inRun hS hG hblock hs hiso
  rw [Context.effective, Context.effective, hS.stackChain_drifts hR hD]
  cases hin with
  | inside hagenda =>
    rw [Thread.isDone, hagenda] at hdone
    simp at hdone
  | ended _ h => exact h

/-- Steps of the top level in a row. -/
theorem Reachable.steps (hw : w.Reachable) (n : Nat) :
    Reachable ⟨(w.main.steps n w.machine).2.2, (w.main.steps n w.machine).2.1, w.others⟩ := by
  induction n generalizing w with
  | zero => exact hw
  | succ n ih =>
    rw [Thread.steps_succ]
    cases hstep : w.main.step w.machine with
    | none => exact hw
    | some r => exact ih (hw.step hstep)

end Ensemble

/-- Does no word among the next steps reach into another process? -/
def Thread.quietFor : Nat → Thread → Machine → Bool
  | 0, _, _ => true
  | n + 1, t, m => !t.talks m &&
    match t.step m with
    | none => true
    | some (t, m) => quietFor n t m

/-- Steps in a row belong to the run. -/
theorem BlockRun.steps {c : Context} {h : Handle} {m₀ m : Machine} {t : Thread}
    (hrun : BlockRun c h m₀ t m) {n : Nat} (hquiet : t.quietFor n m = true) :
    BlockRun c h m₀ (t.steps n m).2.1 (t.steps n m).2.2 := by
  induction n generalizing t m with
  | zero => exact hrun
  | succ n ih =>
    rw [Thread.quietFor, Bool.and_eq_true, Bool.not_eq_true'] at hquiet
    rw [Thread.steps_succ]
    cases hstep : t.step m with
    | none => exact hrun
    | some r =>
      rw [hstep] at hquiet
      exact ih (hrun.step hquiet.1 hstep) hquiet.2

namespace Ensemble

/-- `1 2 { drop 7 }`, and the block is called: its `drop` takes the block itself off the stack of the
top level, and the `7` comes instead. -/
theorem Reachable.isolated_drop : ∃ (w : Ensemble) (t : Thread) (m : Machine), w.Reachable ∧
    BlockRun .top 2 w.machine t m ∧ t.status.isOk = true ∧
    Context.top.effective w.machine.arena = [.block 2, .int 2, .int 1] ∧
    Context.top.effective m.arena = [.int 7, .int 2, .int 1] ∧
    Isolates (Context.top.effective w.machine.arena) (Context.top.effective m.arena) t.status := by
  have hw := ((Reachable.start {} (fun _ => none) .standard).request
    [.source .top (.ofText "" "1 2 \x7b drop 7 \x7d")] rfl (fun job hj => by
      cases List.mem_singleton.mp hj
      exact fun d hd => (Option.some.inj hd).symm)).steps 20
  obtain ⟨m₀, hm₀⟩ : ∃ m₀, m₀ = (Thread.steps 20
      { agenda := [.source .top (.ofText "" "1 2 \x7b drop 7 \x7d")] }
      (Environment.freshMachine {} fun _ => none).2).2.2 := ⟨_, rfl⟩
  have hblock : (m₀.arena.get? 2).any (fun s => !s.sharesStack) = true := by
    rw [hm₀]
    decide +kernel
  have hroot : (m₀.arena.get? rootScope).any
      (fun r => r.compileStack.isEmpty && r.pushTarget.isNone) = true := by
    rw [hm₀]
    decide +kernel
  have hfirst : (Thread.step { agenda := [.value .top (.block 2)] } m₀).any (fun r =>
      r.1.quietFor 9 r.2 && (r.1.steps 9 r.2).2.1.isDone && (r.1.steps 9 r.2).2.1.status.isOk &&
      Context.top.effective (r.1.steps 9 r.2).2.2.arena == [.int 7, .int 2, .int 1]) = true := by
    rw [hm₀]
    decide +kernel
  obtain ⟨s, hs, hiso⟩ := (Option.any_eq_true _ _).mp hblock
  obtain ⟨r, hr, hidle⟩ := (Option.any_eq_true _ _).mp hroot
  obtain ⟨⟨t, m⟩, hstep, hend⟩ := (Option.any_eq_true _ _).mp hfirst
  simp only [Bool.and_eq_true, List.isEmpty_iff, Option.isNone_iff_eq_none, Bool.not_eq_true',
    beq_iff_eq] at hiso hidle hend
  obtain ⟨⟨⟨hquiet, hdone⟩, hok⟩, hafter⟩ := hend
  have hrun := (BlockRun.call hstep).steps hquiet
  rw [hm₀] at hrun hr hs
  have hT := hw.sound.regular.tree
  have hknown := hT.resolveBlock_eq_ok hT.linked_root ⟨s, hs⟩ (by decide +kernel)
  exact ⟨_, _, _, hw, hrun, hok, by decide +kernel, hafter,
    hw.isolated (Or.inl rfl) hknown hs hiso hr hidle.1 hidle.2 hrun hdone⟩

end Ensemble

end ScopeStack
