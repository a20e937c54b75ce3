import ScopeStack.Proofs.Crew

/-!
# Stacks and open blocks that are nobody else's

Processes share an arena, but each scope has a stack of its own, and a block is open for one process
only.

* `Scope.outline`, `Arena.Refills`: **what a scope contains may change** and nothing else.
* `Arena.Regular`: the invariant. One lemma for each thing that happens to scopes: a block is opened
  (`Regular.opening`), finished (`Regular.finish`), becomes a process (`Regular.claiming`), a process
  ends (`Regular.cleared`), a block goes (`Regular.pruned`).
* `Arena.Drifts`: what all of these leave to others: scopes that run stay, with their stacks.
-/

namespace ScopeStack

/-! ## 1. Scopes and what they contain -/

/-- A scope without what it contains: its variables, payloads, operations and code, its pool, and the
calls of it that are listed. -/
def Scope.outline (s : Scope) : Scope :=
  { s with
    calls := [], bindings := {}, strings := {}, numbers := {}, operations := {}, pool := none,
    code := {} }

/-- What does not look at the contents of a scope is told by its outline. -/
theorem Scope.eq_of_outline {α : Type} (f : Scope → α) (hf : ∀ s, f s.outline = f s) {s t : Scope}
    (he : t.outline = s.outline) : f t = f s := by
  rw [← hf t, he, hf s]

namespace Arena

/-- Scopes contain something else; otherwise all is as it was. -/
structure Refills (a b : Arena) : Prop where
  outline (id : ScopeId) : (b.get? id).map Scope.outline = (a.get? id).map Scope.outline
  bound {id h : ScopeId} {t : Scope} : b.get? id = some t → Cell.block h ∈ t.boundCells →
    h ≠ rootScope ∨ ∃ s, a.get? id = some s ∧ Cell.block h ∈ s.boundCells
  known : b.known = a.known
  lastScope : b.lastScope = a.lastScope
  lastStack : b.lastStack = a.lastStack
  stackHeap : b.stackHeap = a.stackHeap

namespace Refills

variable {a b : Arena}

theorem refl (a : Arena) : a.Refills a :=
  ⟨fun _ => rfl, fun {_ _ t} ht hh => Or.inr ⟨t, ht, hh⟩, rfl, rfl, rfl, rfl⟩

theorem modify (a : Arena) (id : ScopeId) (f : Scope → Scope) (hf : ∀ s, (f s).outline = s.outline)
    (hbound : ∀ s h, Cell.block h ∈ (f s).boundCells →
      h ≠ rootScope ∨ Cell.block h ∈ s.boundCells) : a.Refills (a.modify id f) where
  outline k := map_get?_modify a id k hf
  bound {k h t} ht hh := by
    obtain ⟨s, hs, ⟨-, rfl⟩ | ⟨-, rfl⟩⟩ := get?_modify_cases ht
    · exact Or.inr ⟨t, hs, hh⟩
    · exact (hbound s h hh).imp_right fun hh => ⟨s, hs, hh⟩
  known := rfl
  lastScope := rfl
  lastStack := rfl
  stackHeap := rfl

/-- A call is listed, or taken off the list. -/
theorem setCalls (a : Arena) (block : ScopeId) (g : List StackId → List StackId) :
    a.Refills (a.modify block fun s => { s with calls := g s.calls }) :=
  modify a block (fun s => { s with calls := g s.calls }) (fun _ => rfl) fun _ _ hb => Or.inr hb

theorem grows (hG : a.Grows b) : a.Refills b where
  outline id := by
    cases hs : a.get? id with
    | none => rw [hG.none hs]
    | some s =>
      obtain ⟨t, ht, hts, -⟩ := hG.get? hs
      rw [ht, hts]
      rfl
  bound {id h t} ht hh := by
    obtain ⟨s, hs, -⟩ := hG.still.get? ht
    obtain ⟨t', ht', hts, -⟩ := hG.get? hs
    cases ht.symm.trans ht'
    rw [hts] at hh
    exact Or.inr ⟨s, hs, hh⟩
  known := hG.known
  lastScope := hG.lastScope
  lastStack := hG.lastStack
  stackHeap := hG.stackHeap

variable (hR : a.Refills b)
include hR

theorem get? {id : ScopeId} {t : Scope} (ht : b.get? id = some t) :
    ∃ s, a.get? id = some s ∧ t.outline = s.outline := by
  have h := hR.outline id
  rw [ht] at h
  obtain ⟨s, hs, he⟩ := Option.map_eq_some_iff.mp h.symm
  exact ⟨s, hs, he.symm⟩

theorem get?_of {id : ScopeId} {s : Scope} (hs : a.get? id = some s) :
    ∃ t, b.get? id = some t ∧ t.outline = s.outline := by
  have h := hR.outline id
  rw [hs] at h
  exact Option.map_eq_some_iff.mp h

theorem alike : a.Alike b where
  get? {id t} ht := by
    obtain ⟨s, hs, he⟩ := hR.get? ht
    refine ⟨s, hs, Scope.eq_of_outline (·.parent) (fun _ => rfl) he,
      Scope.eq_of_outline (·.children) (fun _ => rfl) he, fun h => ?_⟩
    rwa [← Scope.eq_of_outline (·.compiling) (fun _ => rfl) he]
  none {id} h := by
    have h' := hR.outline id
    rw [h] at h'
    exact Option.map_eq_none_iff.mp h'.symm
  opens {q k t} ht hk := by
    obtain ⟨s, hs, he⟩ := hR.get? ht
    rw [Scope.eq_of_outline (·.compileStack) (fun _ => rfl) he] at hk
    exact Or.inl ⟨s, hs, hk⟩
  known h := by rw [scopesKnowing, scopesKnowing, hR.known]
  lastScope := hR.lastScope

theorem stackCells (σ : StackId) : b.stackCells σ = a.stackCells σ := by
  rw [Arena.stackCells, Arena.stackCells, stack, stack, hR.stackHeap]

end Refills

/-! ## 2. What is nobody else's -/

/-- Every scope has a stack of its own, a block is open for one process only, and processes that run
hang from the top level. -/
structure Regular (a : Arena) : Prop where
  tree : a.Tree
  bound : a.NoRootBound
  stack_le {k : ScopeId} {s : Scope} : a.get? k = some s → s.stack ≤ a.lastStack
  stack_inj {j k : ScopeId} {s t : Scope} : a.get? j = some s → a.get? k = some t →
    s.stack = t.stack → j = k
  running {k : ScopeId} {s : Scope} : a.get? k = some s → s.running = true →
    a.Linked k ∧ s.spawned = true ∧ k ≠ rootScope
  nodup {q : ScopeId} {s : Scope} : a.get? q = some s → s.compileStack.Nodup
  opened_once {q r k : ScopeId} {s t : Scope} : a.get? q = some s → a.get? r = some t →
    k ∈ s.compileStack → k ∈ t.compileStack → q = r
  compiling {q k : ScopeId} {s t : Scope} : a.get? q = some s → k ∈ s.compileStack →
    a.get? k = some t → t.compiling = true

/-- Scopes have come and gone, but not what runs, and stacks are new or whose they were. -/
structure Drifts (a b : Arena) : Prop where
  lastScope : a.lastScope ≤ b.lastScope
  lastStack : a.lastStack ≤ b.lastStack
  linked {k : ScopeId} {t : Scope} : a.Linked k → b.get? k = some t → b.Linked k
  of_get? {k : ScopeId} {t : Scope} : b.get? k = some t →
    (∃ s, a.get? k = some s ∧ (t.stack = s.stack ∨ a.lastStack < t.stack)) ∨
    (a.lastScope < k ∧ a.lastStack < t.stack)
  kept {k : ScopeId} {s : Scope} : a.get? k = some s → k = rootScope ∨ s.running = true →
    ∃ t, b.get? k = some t ∧ t.running = s.running ∧ t.stack = s.stack

namespace Drifts

variable {a b d : Arena}

theorem trans (hF : a.Forest) (hab : a.Drifts b) (hbd : b.Drifts d) : a.Drifts d where
  lastScope := Nat.le_trans hab.lastScope hbd.lastScope
  lastStack := Nat.le_trans hab.lastStack hbd.lastStack
  linked {k u} hl hu := by
    obtain ⟨s, hs⟩ := hl.get?
    rcases hbd.of_get? hu with ⟨t, ht, -⟩ | ⟨hlt, -⟩
    · exact hbd.linked (hab.linked hl ht) hu
    · exact absurd (Nat.le_trans (hF.le_last hs) hab.lastScope) (Nat.not_le_of_lt hlt)
  of_get? {k u} hu := by
    rcases hbd.of_get? hu with ⟨t, ht, hstack⟩ | ⟨hlt, hnew⟩
    · rcases hab.of_get? ht with ⟨s, hs, hstack'⟩ | ⟨hlt, hnew⟩
      · refine Or.inl ⟨s, hs, ?_⟩
        rcases hstack with he | hnew
        · exact he ▸ hstack'
        · exact Or.inr (Nat.lt_of_le_of_lt hab.lastStack hnew)
      · refine Or.inr ⟨hlt, ?_⟩
        rcases hstack with he | hnew'
        · exact he ▸ hnew
        · exact Nat.lt_of_le_of_lt hab.lastStack hnew'
    · exact Or.inr ⟨Nat.lt_of_le_of_lt hab.lastScope hlt, Nat.lt_of_le_of_lt hab.lastStack hnew⟩
  kept {k s} hs hk := by
    obtain ⟨t, ht, hr, hst⟩ := hab.kept hs hk
    obtain ⟨u, hu, hr', hst'⟩ := hbd.kept ht (hk.imp_right hr.trans)
    exact ⟨u, hu, hr'.trans hr, hst'.trans hst⟩

/-- Nothing comes or goes, and stacks and marks are as they were. -/
theorem of_alike (hA : a.Alike b) (hlast : a.lastStack ≤ b.lastStack)
    (hmarks : ∀ k s t, a.get? k = some s → b.get? k = some t →
      t.stack = s.stack ∧ t.running = s.running) : a.Drifts b where
  lastScope := Nat.le_of_eq hA.lastScope.symm
  lastStack := hlast
  linked hl _ := hA.linked_iff.mpr hl
  of_get? {k t} ht := by
    obtain ⟨s, hs, -⟩ := hA.get? ht
    exact Or.inl ⟨s, hs, Or.inl (hmarks k s t hs ht).1⟩
  kept {k s} hs _ := by
    obtain ⟨t, ht, -⟩ := hA.get?_of hs
    exact ⟨t, ht, (hmarks k s t hs ht).2, (hmarks k s t hs ht).1⟩

theorem refl (a : Arena) : a.Drifts a :=
  of_alike (.refl a) (Nat.le_refl _) fun k s t hs ht => by
    cases hs.symm.trans ht
    exact ⟨rfl, rfl⟩

theorem refills (h : a.Refills b) : a.Drifts b := by
  refine of_alike h.alike (Nat.le_of_eq h.lastStack.symm) fun k s t hs ht => ?_
  obtain ⟨s', hs', he⟩ := h.get? ht
  cases hs.symm.trans hs'
  exact ⟨Scope.eq_of_outline (·.stack) (fun _ => rfl) he,
    Scope.eq_of_outline (·.running) (fun _ => rfl) he⟩

end Drifts

namespace Regular

variable {a b : Arena} (hR : a.Regular)
include hR

/-- Scopes may go, blocks may be closed and processes may end. -/
theorem of_fewer (hT : b.Tree) (hbound : b.NoRootBound) (hlast : a.lastStack ≤ b.lastStack)
    (hlinked : ∀ k t, a.Linked k → b.get? k = some t → b.Linked k)
    (hget : ∀ k t, b.get? k = some t → ∃ s, a.get? k = some s ∧ t.stack = s.stack ∧
      (t.running = true → s.running = true ∧ t.spawned = s.spawned) ∧
      t.compileStack.Sublist s.compileStack)
    (hcomp : ∀ q k t u, b.get? q = some t → k ∈ t.compileStack → b.get? k = some u →
      u.compiling = true) : b.Regular where
  tree := hT
  bound := hbound
  stack_le {k t} ht := by
    obtain ⟨s, hs, hst, -⟩ := hget k t ht
    exact hst ▸ Nat.le_trans (hR.stack_le hs) hlast
  stack_inj {j k t u} ht hu he := by
    obtain ⟨s, hs, hst, -⟩ := hget j t ht
    obtain ⟨v, hv, huv, -⟩ := hget k u hu
    exact hR.stack_inj hs hv (hst.symm.trans (he.trans huv))
  running {k t} ht hrun := by
    obtain ⟨s, hs, -, hmarks, -⟩ := hget k t ht
    obtain ⟨hl, hsp, hne⟩ := hR.running hs (hmarks hrun).1
    exact ⟨hlinked k t hl ht, (hmarks hrun).2.trans hsp, hne⟩
  nodup {q t} ht := by
    obtain ⟨s, hs, -, -, hsub⟩ := hget q t ht
    exact (hR.nodup hs).sublist hsub
  opened_once {q r k t u} ht hu hk hk' := by
    obtain ⟨s, hs, -, -, hsub⟩ := hget q t ht
    obtain ⟨v, hv, -, -, hsub'⟩ := hget r u hu
    exact hR.opened_once hs hv (hsub.subset hk) (hsub'.subset hk')
  compiling ht hk hu := hcomp _ _ _ _ ht hk hu

/-- The same scopes, with the same stacks, marks and open blocks. -/
theorem of_alike (hA : a.Alike b) (hbound : b.NoRootBound) (hlast : a.lastStack ≤ b.lastStack)
    (hmarks : ∀ k s t, a.get? k = some s → b.get? k = some t → t.stack = s.stack ∧
      t.running = s.running ∧ t.spawned = s.spawned ∧ t.compileStack = s.compileStack ∧
      t.compiling = s.compiling) : b.Regular := by
  have hget (k : ScopeId) (t : Scope) (ht : b.get? k = some t) : ∃ s, a.get? k = some s ∧
      t.stack = s.stack ∧ t.running = s.running ∧ t.spawned = s.spawned ∧
      t.compileStack = s.compileStack ∧ t.compiling = s.compiling := by
    obtain ⟨s, hs, -⟩ := hA.get? ht
    exact ⟨s, hs, hmarks k s t hs ht⟩
  refine hR.of_fewer (hA.tree hR.tree) hbound hlast (fun k t hl _ => hA.linked_iff.mpr hl)
    (fun k t ht => ?_) fun q k t u ht hk hu => ?_
  · obtain ⟨s, hs, hst, hrun, hsp, hopen, -⟩ := hget k t ht
    exact ⟨s, hs, hst, fun h => ⟨hrun.symm.trans h, hsp⟩, hopen ▸ List.Sublist.refl _⟩
  · obtain ⟨s, hs, -, -, -, hopen, -⟩ := hget q t ht
    obtain ⟨v, hv, -, -, -, -, hc⟩ := hget k u hu
    exact hc.trans (hR.compiling hs (hopen ▸ hk) hv)

theorem refills (h : a.Refills b) : b.Regular := by
  refine hR.of_alike h.alike (fun id x t ht hx => ?_) (Nat.le_of_eq h.lastStack.symm)
    fun k s t hs ht => ?_
  · rcases h.bound ht hx with hne | ⟨s, hs, hx⟩
    · exact hne
    · exact hR.bound id x s hs hx
  · obtain ⟨s', hs', he⟩ := h.get? ht
    cases hs.symm.trans hs'
    exact ⟨Scope.eq_of_outline (·.stack) (fun _ => rfl) he,
      Scope.eq_of_outline (·.running) (fun _ => rfl) he,
      Scope.eq_of_outline (·.spawned) (fun _ => rfl) he,
      Scope.eq_of_outline (·.compileStack) (fun _ => rfl) he,
      Scope.eq_of_outline (·.compiling) (fun _ => rfl) he⟩

/-- Only stacks change. -/
theorem of_scopes (hget : ∀ k, b.get? k = a.get? k) (hknown : b.known = a.known)
    (hscope : b.lastScope = a.lastScope) (hstack : a.lastStack ≤ b.lastStack) : b.Regular := by
  have hS : a.Still b := ⟨fun k => by rw [hget], hknown, hscope, hstack⟩
  refine hR.of_alike hS.alike (fun id x t ht hx => ?_) hstack fun k s t hs ht => ?_
  · rw [hget] at ht
    exact hR.bound id x t ht hx
  · rw [hget, hs] at ht
    cases ht
    exact ⟨rfl, rfl, rfl, rfl, rfl⟩

/-- **A scope that nothing refers to goes.** -/
theorem pruned {top : ScopeId} (hP : a.Pruned top b) (hne : top ≠ rootScope) : b.Regular := by
  refine hR.of_fewer (hP.tree hR.tree hne) (fun id x t ht hx => ?_)
    (Nat.le_of_eq hP.lastStack.symm) (fun k t hl ht => ?_) (fun k t ht => ?_)
    fun q k t u ht hk hu => ?_
  · obtain ⟨-, s, hs, hts, -⟩ := hP.of_get? ht
    rw [hts] at hx
    exact hR.bound id x s hs hx
  · exact hP.linked hR.tree.forest hl (hP.of_get? ht).1
  · obtain ⟨-, s, hs, hts, -⟩ := hP.of_get? ht
    rw [hts]
    exact ⟨s, hs, rfl, fun h => ⟨h, rfl⟩, List.Sublist.refl _⟩
  · obtain ⟨-, s, hs, hts, -⟩ := hP.of_get? ht
    obtain ⟨-, v, hv, huv, -⟩ := hP.of_get? hu
    rw [hts] at hk
    rw [huv]
    exact hR.compiling (t := v) hs hk hv

omit hR in
theorem drifts_pruned (hF : a.Forest) {top : ScopeId} (hP : a.Pruned top b)
    (hU : a.Unreferenced top) (hroot : top ∉ a.chain rootScope) : a.Drifts b where
  lastScope := Nat.le_of_eq hP.lastScope.symm
  lastStack := Nat.le_of_eq hP.lastStack.symm
  linked hl ht := hP.linked hF hl (hP.of_get? ht).1
  of_get? {k t} ht := by
    obtain ⟨-, s, hs, hts, -⟩ := hP.of_get? ht
    rw [hts]
    exact Or.inl ⟨s, hs, Or.inl rfl⟩
  kept {k s} hs hk := by
    have hk' : top ∉ a.chain k := fun hmem => by
      rcases hk with rfl | hrun
      · exact hroot hmem
      · rw [(hU.idle hs hmem).1] at hrun
        cases hrun
    obtain ⟨cs, hcs, -⟩ := hP.kept hs hk'
    exact ⟨_, hcs, rfl, rfl⟩

end Regular

/-! ## 3. Blocks and processes -/

/-- The process no longer has the block open, and the block is finished and known. -/
def finish (a : Arena) (process block parent : ScopeId) : Arena :=
  let b := (a.modify process fun s => { s with compileStack := s.compileStack.tail }).modify block
    fun s => { s with compiling := false }
  b.makeKnown block (b.chain parent)

/-- The process has one more block open, the one that has come last. -/
def opening (a : Arena) (process : ScopeId) : Arena :=
  a.modify process fun s => { s with compileStack := a.lastScope :: s.compileStack }

/-- A block with a stack of its own has become a process. -/
def claiming (a : Arena) (block : ScopeId) (pid : Pid) : Arena :=
  a.newStack.2.modify block (·.claimed pid a.newStack.1)

variable {a b : Arena}

theorem get?_modify_map (a : Arena) (id k : ScopeId) (f : Scope → Scope) :
    (a.modify id f).get? k = (a.get? k).map fun s => if k = id then f s else s := by
  rw [get?_modify]
  by_cases hk : k = id
  · simp [hk]
  · simp [hk]

theorem get?_finish (a : Arena) (process block parent k : ScopeId) :
    (a.finish process block parent).get? k = (a.get? k).map fun s => { s with
      compileStack := if k = process then s.compileStack.tail else s.compileStack,
      compiling := if k = block then false else s.compiling } := by
  show ((a.modify process _).modify block _).get? k = _
  rw [get?_modify_map, get?_modify_map, Option.map_map]
  congr 1
  funext s
  by_cases hp : k = process <;> by_cases hb : k = block
  · simp only [Function.comp, if_pos hp, if_pos hb]
  · simp only [Function.comp, if_pos hp, if_neg hb]
  · simp only [Function.comp, if_neg hp, if_pos hb]
  · simp only [Function.comp, if_neg hp, if_neg hb]

theorem get?_opening (a : Arena) (process k : ScopeId) :
    (a.opening process).get? k = (a.get? k).map fun s => { s with
      compileStack := if k = process then a.lastScope :: s.compileStack else s.compileStack } := by
  rw [opening, get?_modify_map]
  congr 1
  funext s
  by_cases hp : k = process <;> simp [hp]

theorem get?_claiming (a : Arena) (block k : ScopeId) (pid : Pid) :
    (a.claiming block pid).get? k = (a.get? k).map fun s =>
      if k = block then s.claimed pid (a.lastStack + 1) else s :=
  get?_modify_map a.newStack.2 block k _

namespace Regular

variable (hR : a.Regular)
include hR

/-- **The innermost open block is finished.** -/
theorem finish {process block parent : ScopeId} {r s : Scope} (hr : a.get? process = some r)
    (hblock : r.compileStack.head? = some block) (hs : a.get? block = some s)
    (hp : s.parent = some parent) :
    (a.finish process block parent).Regular ∧ a.Drifts (a.finish process block parent) := by
  obtain ⟨rest, hrest⟩ := List.head?_eq_some_iff.mp hblock
  have hmem : block ∈ r.compileStack := hrest ▸ List.mem_cons_self
  have hA : a.Alike ((a.modify process fun s => { s with compileStack := s.compileStack.tail }).modify
      block fun s => { s with compiling := false }) :=
    (Alike.modify a process (fun s => { s with compileStack := s.compileStack.tail }) fun s _ =>
      ⟨rfl, rfl, fun h => h, fun k hk => Or.inl (List.mem_of_mem_tail hk)⟩).trans
    (Alike.modify _ block (fun s => { s with compiling := false }) fun s _ =>
      ⟨rfl, rfl, fun h => (by cases h), fun k hk => Or.inl hk⟩)
  have hget := get?_finish a process block parent
  have hlinked {k : ScopeId} (hl : a.Linked k) : (a.finish process block parent).Linked k :=
    hA.linked_iff.mpr hl
  have hT : (a.finish process block parent).Tree :=
    (hA.tree hR.tree).makeKnown ((hget block).trans (congrArg _ hs))
      (hlinked (hR.tree.open_linked hr hmem hs)) hp (if_pos rfl) (hR.tree.open_le hr hmem).2
  refine ⟨hR.of_fewer hT (fun id x t ht hx => ?_) (Nat.le_refl _) (fun k t hl _ => hlinked hl)
    (fun k t ht => ?_) fun q k t u ht hk hu => ?_, ⟨Nat.le_refl _, Nat.le_refl _,
      fun hl _ => hlinked hl, fun {k t} ht => ?_, fun {k u} hu _ => ?_⟩⟩
  · rw [hget] at ht
    obtain ⟨u, hu, rfl⟩ := Option.map_eq_some_iff.mp ht
    exact hR.bound id x u hu hx
  · rw [hget] at ht
    obtain ⟨u, hu, rfl⟩ := Option.map_eq_some_iff.mp ht
    refine ⟨u, hu, rfl, fun h => ⟨h, rfl⟩, ?_⟩
    show (if k = process then u.compileStack.tail else u.compileStack).Sublist _
    split
    · exact List.tail_sublist _
    · exact List.Sublist.refl _
  · -- the block that is finished is open for nobody any more
    rw [hget] at ht hu
    obtain ⟨v, hv, rfl⟩ := Option.map_eq_some_iff.mp ht
    obtain ⟨w, hw, rfl⟩ := Option.map_eq_some_iff.mp hu
    have hk : k ∈ if q = process then v.compileStack.tail else v.compileStack := hk
    have hkv : k ∈ v.compileStack := by
      split at hk
      · exact List.mem_of_mem_tail hk
      · exact hk
    have hne : k ≠ block := fun he => by
      subst he
      cases hR.opened_once hv hr hkv hmem
      cases hv.symm.trans hr
      rw [if_pos rfl, hrest] at hk
      exact (List.nodup_cons.mp (hrest ▸ hR.nodup hr)).1 hk
    show (if k = block then false else w.compiling) = true
    rw [if_neg hne]
    exact hR.compiling hv hkv hw
  · rw [hget] at ht
    obtain ⟨u, hu, rfl⟩ := Option.map_eq_some_iff.mp ht
    exact Or.inl ⟨u, hu, Or.inl rfl⟩
  · rw [hget, hu]
    exact ⟨_, rfl, rfl, rfl⟩

/-- A block comes that is open for nobody yet. -/
theorem added {parent : ScopeId} {shares : Bool} (hA : a.Added parent shares b)
    (hle : parent ≤ a.lastScope) (hl : ∀ s, a.get? parent = some s → a.Linked parent) :
    b.Regular ∧ a.Drifts b := by
  have hF := hR.tree.forest
  refine ⟨⟨hA.tree hR.tree hle hl, fun id x t ht hx => ?_, fun {k t} ht => ?_,
    fun {j k t u} ht hu he => ?_, fun {k t} ht hrun => ?_, fun {q t} ht => ?_,
    fun {q r k t u} ht hu hk hk' => ?_, fun {q k t u} ht hk hu => ?_⟩,
    ⟨hA.lastScope ▸ Nat.le_succ _, hA.lastStack ▸ Nat.le_succ _, fun hl _ => hA.linked hF hl,
      fun {k t} ht => ?_, fun {k s} hs _ => ⟨_, hA.get?_of hF hs, rfl, rfl⟩⟩⟩
  · rcases hA.of_get? ht with ⟨-, rfl⟩ | ⟨s, hs, rfl⟩
    · obtain ⟨name, hn⟩ := Scope.mem_boundCells.mp hx
      simp [newBlock, Scope.binding?] at hn
    · exact hR.bound id x s hs hx
  · rw [hA.lastStack]
    rcases hA.of_get? ht with ⟨-, rfl⟩ | ⟨s, hs, rfl⟩
    · exact Nat.le_refl _
    · exact Nat.le_succ_of_le (hR.stack_le (s := s) hs)
  · rcases hA.of_get? ht with ⟨rfl, rfl⟩ | ⟨s, hs, rfl⟩ <;>
      rcases hA.of_get? hu with ⟨rfl, rfl⟩ | ⟨v, hv, rfl⟩
    · rfl
    · exact absurd he (Nat.ne_of_gt (Nat.lt_succ_of_le (hR.stack_le (s := v) hv)))
    · exact absurd he.symm (Nat.ne_of_gt (Nat.lt_succ_of_le (hR.stack_le (s := s) hs)))
    · exact hR.stack_inj hs hv he
  · rcases hA.of_get? ht with ⟨-, rfl⟩ | ⟨s, hs, rfl⟩
    · cases hrun
    · obtain ⟨hl', hsp, hne⟩ := hR.running hs hrun
      exact ⟨hA.linked hF hl', hsp, hne⟩
  · rcases hA.of_get? ht with ⟨-, rfl⟩ | ⟨s, hs, rfl⟩
    · exact .nil
    · exact hR.nodup (s := s) hs
  · rcases hA.of_get? ht with ⟨-, rfl⟩ | ⟨s, hs, rfl⟩
    · cases hk
    · rcases hA.of_get? hu with ⟨-, rfl⟩ | ⟨v, hv, rfl⟩
      · cases hk'
      · exact hR.opened_once hs hv hk hk'
  · rcases hA.of_get? ht with ⟨-, rfl⟩ | ⟨s, hs, rfl⟩
    · cases hk
    · rcases hA.of_get? hu with ⟨-, rfl⟩ | ⟨v, hv, rfl⟩
      · rfl
      · exact hR.compiling (t := v) hs hk hv
  · rcases hA.of_get? ht with ⟨rfl, rfl⟩ | ⟨s, hs, rfl⟩
    · exact Or.inr ⟨Nat.lt_succ_self _, Nat.lt_succ_self _⟩
    · exact Or.inl ⟨s, hs, Or.inl rfl⟩

/-- **A block is opened.** -/
theorem opening {process target : ScopeId} {shares : Bool} {s : Scope}
    (hs : a.get? target = some s) (hl : a.Linked target) (hA : a.Added target shares b) :
    (b.opening process).Regular ∧ a.Drifts (b.opening process) := by
  have hF := hR.tree.forest
  obtain ⟨hRb, hD⟩ := hR.added hA (hF.le_last hs) fun _ _ => hl
  have hget := get?_opening b process
  have hlast : b.lastScope = a.lastScope + 1 := hA.lastScope
  have hfresh {q : ScopeId} {t : Scope} (ht : b.get? q = some t) : b.lastScope ∉ t.compileStack := by
    rcases hA.of_get? ht with ⟨-, rfl⟩ | ⟨u, hu, rfl⟩
    · exact List.not_mem_nil
    · intro hm
      exact Nat.not_succ_le_self _ (hlast ▸ (hR.tree.open_le hu hm).1)
  have hmem {q k : ScopeId} {u : Scope}
      (hk : k ∈ if q = process then b.lastScope :: u.compileStack else u.compileStack) :
      (q = process ∧ k = b.lastScope) ∨ k ∈ u.compileStack := by
    split at hk
    · exact (List.mem_cons.mp hk).imp_left fun he => ⟨‹_›, he⟩
    · exact Or.inr hk
  have hmay : b.MayOpen b.lastScope := by
    refine ⟨Nat.le_refl _, fun he => ?_, hlast ▸ hA.linked_new hF hs⟩
    exact Nat.not_succ_le_self _ ((hlast.symm.trans he) ▸ hR.tree.root_le)
  have hAl : b.Alike (b.opening process) := by
    refine Alike.modify b process (fun s => { s with compileStack := b.lastScope :: s.compileStack })
      fun s _ => ⟨rfl, rfl, fun h => h, fun k hk => ?_⟩
    rcases List.mem_cons.mp hk with rfl | hk
    · exact Or.inr hmay
    · exact Or.inl hk
  have hof {k : ScopeId} {t : Scope} (ht : (b.opening process).get? k = some t) :
      ∃ u, b.get? k = some u ∧ t = { u with compileStack :=
        if k = process then b.lastScope :: u.compileStack else u.compileStack } := by
    rw [hget] at ht
    obtain ⟨u, hu, rfl⟩ := Option.map_eq_some_iff.mp ht
    exact ⟨u, hu, rfl⟩
  refine ⟨⟨hAl.tree hRb.tree, fun id x t ht hx => ?_, fun {k t} ht => ?_,
    fun {j k t u} ht hu he => ?_, fun {k t} ht hrun => ?_, fun {q t} ht => ?_,
    fun {q r k t u} ht hu hk hk' => ?_, fun {q k t u} ht hk hu => ?_⟩,
    hD.trans hF (.of_alike hAl (Nat.le_refl _) fun k t u ht hu => ?_)⟩
  · obtain ⟨u, hu, rfl⟩ := hof ht
    exact hRb.bound id x u hu hx
  · obtain ⟨u, hu, rfl⟩ := hof ht
    exact hRb.stack_le (s := u) hu
  · obtain ⟨v, hv, rfl⟩ := hof ht
    obtain ⟨w, hw, rfl⟩ := hof hu
    exact hRb.stack_inj hv hw he
  · obtain ⟨u, hu, rfl⟩ := hof ht
    obtain ⟨hl', hsp, hne⟩ := hRb.running hu hrun
    exact ⟨hAl.linked_iff.mpr hl', hsp, hne⟩
  · obtain ⟨u, hu, rfl⟩ := hof ht
    dsimp only
    split
    · exact List.nodup_cons.mpr ⟨hfresh hu, hRb.nodup hu⟩
    · exact hRb.nodup hu
  · obtain ⟨v, hv, rfl⟩ := hof ht
    obtain ⟨w, hw, rfl⟩ := hof hu
    rcases hmem hk with ⟨hq, he⟩ | hkv <;> rcases hmem hk' with ⟨hr, he'⟩ | hkw
    · exact hq.trans hr.symm
    · exact absurd (he ▸ hkw) (hfresh hw)
    · exact absurd (he' ▸ hkv) (hfresh hv)
    · exact hRb.opened_once hv hw hkv hkw
  · obtain ⟨v, hv, rfl⟩ := hof ht
    obtain ⟨w, hw, rfl⟩ := hof hu
    rcases hmem hk with ⟨rfl, rfl⟩ | hk
    · rw [hlast, hA.get?_new] at hw
      cases hw
      rfl
    · exact hRb.compiling (t := w) hv hk hw
  · obtain ⟨v, hv, rfl⟩ := hof hu
    cases ht.symm.trans hv
    exact ⟨rfl, rfl⟩

/-- **A block that does not run becomes a process**, with a new stack. -/
theorem claiming {block : ScopeId} {s : Scope} (hs : a.get? block = some s)
    (hrun : s.running = false) (hl : a.Linked block) (hne : block ≠ rootScope) (pid : Pid) :
    (a.claiming block pid).Regular ∧ a.Drifts (a.claiming block pid) := by
  have hget := get?_claiming a block
  have hA : a.Alike (a.claiming block pid) :=
    (Still.newStack a).alike.trans (Alike.modify a.newStack.2 block (·.claimed pid a.newStack.1)
      fun s _ => ⟨rfl, rfl, fun h => h, fun k hk => (by cases hk)⟩)
  have hof {k : ScopeId} {t : Scope} (ht : (a.claiming block pid).get? k = some t) :
      (k = block ∧ t = s.claimed pid (a.lastStack + 1)) ∨ (k ≠ block ∧ a.get? k = some t) := by
    rw [hget] at ht
    obtain ⟨u, hu, rfl⟩ := Option.map_eq_some_iff.mp ht
    by_cases hk : k = block
    · cases (hk ▸ hu).symm.trans hs
      rw [if_pos hk]
      exact Or.inl ⟨hk, rfl⟩
    · rw [if_neg hk]
      exact Or.inr ⟨hk, hu⟩
  refine ⟨⟨hA.tree hR.tree, fun id x t ht hx => ?_, fun {k t} ht => ?_,
    fun {j k t u} ht hu he => ?_, fun {k t} ht hr => ?_, fun {q t} ht => ?_,
    fun {q r k t u} ht hu hk hk' => ?_, fun {q k t u} ht hk hu => ?_⟩,
    ⟨Nat.le_refl _, Nat.le_succ _, fun hl _ => hA.linked_iff.mpr hl, fun {k t} ht => ?_,
      fun {k t} ht hk => ?_⟩⟩
  · rcases hof ht with ⟨rfl, rfl⟩ | ⟨-, ht⟩
    · exact hR.bound id x s hs hx
    · exact hR.bound id x t ht hx
  · rcases hof ht with ⟨rfl, rfl⟩ | ⟨-, ht⟩
    · exact Nat.le_refl _
    · exact Nat.le_succ_of_le (hR.stack_le ht)
  · rcases hof ht with ⟨hj, rfl⟩ | ⟨-, hta⟩ <;> rcases hof hu with ⟨hk, rfl⟩ | ⟨-, hua⟩
    · exact hj.trans hk.symm
    · exact absurd he (Nat.ne_of_gt (Nat.lt_succ_of_le (hR.stack_le hua)))
    · exact absurd he.symm (Nat.ne_of_gt (Nat.lt_succ_of_le (hR.stack_le hta)))
    · exact hR.stack_inj hta hua he
  · rcases hof ht with ⟨rfl, rfl⟩ | ⟨-, ht⟩
    · exact ⟨hA.linked_iff.mpr hl, rfl, hne⟩
    · obtain ⟨hl', hsp, hne'⟩ := hR.running ht hr
      exact ⟨hA.linked_iff.mpr hl', hsp, hne'⟩
  · rcases hof ht with ⟨rfl, rfl⟩ | ⟨-, ht⟩
    · exact .nil
    · exact hR.nodup ht
  · rcases hof ht with ⟨rfl, rfl⟩ | ⟨-, ht⟩
    · cases hk
    · rcases hof hu with ⟨rfl, rfl⟩ | ⟨-, hu⟩
      · cases hk'
      · exact hR.opened_once ht hu hk hk'
  · rcases hof ht with ⟨-, rfl⟩ | ⟨-, hta⟩
    · cases hk
    · rcases hof hu with ⟨he, rfl⟩ | ⟨-, hua⟩
      · exact hR.compiling (t := s) hta (he ▸ hk) hs
      · exact hR.compiling hta hk hua
  · rcases hof ht with ⟨rfl, rfl⟩ | ⟨-, ht⟩
    · exact Or.inl ⟨s, hs, Or.inr (Nat.lt_succ_self _)⟩
    · exact Or.inl ⟨t, ht, Or.inl rfl⟩
  · have hk' : k ≠ block := fun he => by
      subst he
      cases hs.symm.trans ht
      rcases hk with rfl | hk
      · exact hne rfl
      · rw [hrun] at hk
        cases hk
    rw [hget, ht]
    exact ⟨t, by rw [Option.map_some, if_neg hk'], rfl, rfl⟩

/-- **A process ends.** -/
theorem cleared (scope : ScopeId) : (a.modify scope (·.cleared)).Regular := by
  have hA : a.Alike (a.modify scope (·.cleared)) :=
    Alike.modify a scope (·.cleared) fun _ _ => ⟨rfl, rfl, fun h => h, fun k hk => (by cases hk)⟩
  have hof {k : ScopeId} {t : Scope} (ht : (a.modify scope (·.cleared)).get? k = some t) :
      ∃ s, a.get? k = some s ∧ (t = s ∨ t = s.cleared) := by
    obtain ⟨s, hs, ⟨-, he⟩ | ⟨-, he⟩⟩ := get?_modify_cases ht
    · exact ⟨s, hs, Or.inl he⟩
    · exact ⟨s, hs, Or.inr he⟩
  refine hR.of_fewer (hA.tree hR.tree) (fun id x t ht hx => ?_) (Nat.le_refl _)
    (fun k t hl _ => hA.linked_iff.mpr hl) (fun k t ht => ?_) fun q k t u ht hk hu => ?_
  · obtain ⟨s, hs, hst⟩ := hof ht
    have hcells : t.boundCells = s.boundCells := by
      rcases hst with rfl | rfl <;> rfl
    exact hR.bound id x s hs (hcells ▸ hx)
  · obtain ⟨s, hs, rfl | rfl⟩ := hof ht
    · exact ⟨t, hs, rfl, fun h => ⟨h, rfl⟩, List.Sublist.refl _⟩
    · exact ⟨s, hs, rfl, fun h => (by cases h), List.nil_sublist _⟩
  · obtain ⟨v, hv, huv⟩ := hof hu
    have hc : u.compiling = v.compiling := by
      rcases huv with rfl | rfl <;> rfl
    obtain ⟨s, hs, rfl | rfl⟩ := hof ht
    · exact hc.trans (hR.compiling hs hk hv)
    · cases hk

end Regular

/-- The end of a process that has been there since `a₀`, but did not run then. -/
theorem Drifts.cleared {a₀ : Arena} (hD : a₀.Drifts a) {scope : ScopeId} (hne : scope ≠ rootScope)
    (hidle : ∀ s, a₀.get? scope = some s → s.running = false) :
    a₀.Drifts (a.modify scope (·.cleared)) where
  lastScope := hD.lastScope
  lastStack := hD.lastStack
  linked {k t} hl ht := by
    have hA : a.Alike (a.modify scope (·.cleared)) :=
      Alike.modify a scope (·.cleared) fun _ _ => ⟨rfl, rfl, fun h => h, fun k hk => (by cases hk)⟩
    obtain ⟨s, hs, -⟩ := hA.get? ht
    exact hA.linked_iff.mpr (hD.linked hl hs)
  of_get? {k t} ht := by
    obtain ⟨s, hs, hst⟩ := get?_modify_cases ht
    have hstack : t.stack = s.stack := by
      rcases hst with ⟨-, rfl⟩ | ⟨-, rfl⟩ <;> rfl
    rw [hstack]
    exact hD.of_get? hs
  kept {k s} hs hk := by
    obtain ⟨t, ht, hrun, hst⟩ := hD.kept hs hk
    have hk' : k ≠ scope := fun he => by
      rcases hk with hk | hk
      · exact hne (he ▸ hk)
      · rw [hidle s (he ▸ hs)] at hk
        cases hk
    exact ⟨t, by rw [get?_modify, if_neg hk', ht], hrun, hst⟩

end Arena

end ScopeStack
