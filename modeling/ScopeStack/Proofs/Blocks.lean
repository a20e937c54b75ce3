import ScopeStack.Proofs.Steady

/-!
# A block's life

What happens to blocks keeps all in order: a block is opened, compiled into, finished and made known,
and taken out once nothing refers to it.

* `Steady.addBlock`, `Steady.pushOpen`: opening; `Steady.append`: compiling.
* `Steady.popOpen`, `Steady.closeScope`, `Steady.makeKnown`: finishing.
* `Steady.pruned`: **taking out what is not referred to leaves every cell backed.**
-/

namespace ScopeStack.Arena

section Blocks

variable {honest kept : Prop} {a b : Arena}

/-! ## 1. Opening -/

theorem Added.openBlocks {parent : ScopeId} {shares : Bool} (hA : a.Added parent shares b)
    (hT : a.Tree) : b.openBlocks = a.openBlocks := by
  obtain ⟨s, hs, -⟩ := hT.root
  rw [openBlocks_eq hs, openBlocks_eq (hA.get?_of hT.forest hs)]

theorem Added.hasPayload {parent : ScopeId} {shares : Bool} (hA : a.Added parent shares b)
    (hT : a.Tree) : Retains kept a b := by
  refine ⟨fun _ h ⟨s, hs, hh⟩ => ?_, fun _ h ⟨s, hs, hh⟩ => ?_⟩
  · exact ⟨_, hA.get?_of hT.forest hs, hh⟩
  · exact ⟨_, hA.get?_of hT.forest hs, hh⟩

/-- A block comes that holds nothing. If its parent is gone it stays for itself. -/
theorem Steady.addBlock {parent : ScopeId} {shares : Bool} (hS : Steady honest kept a)
    (hA : a.Added parent shares b) (hle : parent ≤ a.lastScope)
    (hl : ∀ s, a.get? parent = some s → a.Linked parent) : Steady honest kept b := by
  have hF := hS.tree.forest
  have hheld {k : ScopeId} {cell : Cell} (h : b.Holds k cell) : a.Holds k cell := by
    obtain ⟨t, ht, hcell⟩ := h
    rcases hA.of_get? ht with ⟨-, rfl⟩ | ⟨s, hs, rfl⟩
    · rcases hcell with hcode | hbound | ⟨σ, hσ, hm⟩
      · cases hcode
      · obtain ⟨name, hn⟩ := Scope.mem_boundCells.mp hbound
        simp [newBlock, Scope.binding?] at hn
      · have he : σ = a.lastStack + 1 := List.mem_singleton.mp hσ
        rw [hA.stackCells, if_pos he] at hm
        cases hm
    · refine ⟨s, hs, hcell.imp_right (Or.imp_right ?_)⟩
      rintro ⟨σ, hσ, hm⟩
      have hle := hS.stack_le hs hσ
      rw [hA.stackCells, if_neg (fun h => Nat.not_succ_le_self _ (h ▸ hle))] at hm
      exact ⟨σ, hσ, hm⟩
  have hunlinked {k : ScopeId} (h : ¬ b.Linked k) : ¬ a.Linked k := fun h' => h (hA.linked hF h')
  refine ⟨⟨hA.tree hS.tree hle hl, ?_, fun {k t} ht hne => ?_, fun {k t σ} ht hσ => ?_,
    fun {k t} ht hno => ?_, fun {k j t u} ht hno hu hm => ?_⟩, fun {k h t} ht hm => ?_,
    fun h => hA.linked hF (hS.held_linked (hheld h)), fun {k cell} h => ?_⟩
  · rw [hA.openBlocks hS.tree]
    refine hS.opens.mono hF (fun k hk t ht => ?_) fun k hk p hp t ht hc => ?_
    · rcases hA.of_get? ht with ⟨rfl, -⟩ | ⟨s, hs, rfl⟩
      · exact absurd (hS.tree.openBlock_le hk).1 (Nat.not_succ_le_self _)
      · exact ⟨s, hs, rfl, rfl⟩
    · rcases hA.of_get? ht with ⟨rfl, -⟩ | ⟨s, hs, rfl⟩
      · have hk' := (hS.tree.openBlock_le hk).1
        exact absurd (Nat.lt_of_lt_of_le hp hk') (Nat.not_lt_of_le (Nat.le_succ _))
      · exact ⟨s, hs, hc⟩
  · rcases hA.of_get? ht with ⟨-, rfl⟩ | ⟨s, hs, rfl⟩
    · exact absurd rfl hne
    · show s.compiling = false
      exact hS.called hs hne
  · rw [hA.lastStack]
    rcases hA.of_get? ht with ⟨-, rfl⟩ | ⟨s, hs, rfl⟩
    · rw [List.mem_singleton.mp hσ]
      exact Nat.le_refl _
    · exact Nat.le_succ_of_le (hS.stack_le hs hσ)
  · rcases hA.of_get? ht with ⟨-, rfl⟩ | ⟨s, hs, rfl⟩
    · rfl
    · show s.calls = []
      exact hS.uncalled hs (hunlinked hno)
  · -- the own stack of the new block is new, so nobody else lists it
    rcases hA.of_get? ht with ⟨rfl, rfl⟩ | ⟨s, hs, rfl⟩
    · rcases hA.of_get? hu with ⟨rfl, -⟩ | ⟨v, hv, rfl⟩
      · rfl
      · exact absurd (hS.stack_le hv hm) (Nat.not_succ_le_self _)
    · rcases hA.of_get? hu with ⟨rfl, rfl⟩ | ⟨v, hv, rfl⟩
      · have hlast := hS.stack_le hs List.mem_cons_self
        rw [show s.stack = a.lastStack + 1 from List.mem_singleton.mp hm] at hlast
        exact absurd hlast (Nat.not_succ_le_self _)
      · exact hS.alone hs (hunlinked hno) hv hm
  · rcases hA.of_get? ht with ⟨-, rfl⟩ | ⟨s, hs, rfl⟩
    · obtain ⟨name, hn⟩ := Scope.mem_boundCells.mp hm
      simp [newBlock, Scope.binding?] at hn
    · exact hS.bound hs hm
  · refine (hS.backed (hheld h)).mono (fun j _ hj hr => ?_) (hA.hasPayload hS.tree)
    obtain ⟨s, hs⟩ := hj
    exact ⟨⟨_, hA.get?_of hF hs⟩, by rwa [hA.known]⟩

/-! ## 2. Changes of one scope -/

/-- The links are as they were, and so are stacks, calls and variables; code has grown by what is
backed. -/
theorem Steady.alike (hS : Steady honest kept a) (hA : a.Alike b) (hR : Retains kept a b)
    (hheap : b.stackHeap = a.stackHeap) (hlast : b.lastStack = a.lastStack)
    (hof : ∀ k t, b.get? k = some t → ∃ s, a.get? k = some s ∧ t.allStacks = s.allStacks ∧
      t.bindings = s.bindings ∧
      ∀ cell ∈ t.code.cells, cell ∈ s.code.cells ∨ (a.Linked k ∧ Backs honest kept a cell))
    (hopens : b.OpenChain b.openBlocks) : Steady honest kept b := by
  have hheld {k : ScopeId} {cell : Cell} (h : b.Holds k cell) :
      a.Linked k ∧ Backs honest kept a cell := by
    have of (h : a.Holds k cell) : a.Linked k ∧ Backs honest kept a cell :=
      ⟨hS.held_linked h, hS.backed h⟩
    obtain ⟨t, ht, hcell⟩ := h
    obtain ⟨s, hs, hstacks, hbind, hcode⟩ := hof k t ht
    rcases hcell with hc | hbound | ⟨σ, hσ, hm⟩
    · rcases hcode cell hc with hc | hc
      · exact of ⟨s, hs, Or.inl hc⟩
      · exact hc
    · rw [Scope.boundCells, hbind] at hbound
      exact of ⟨s, hs, Or.inr (Or.inl hbound)⟩
    · rw [stackCells, stack, hheap] at hm
      exact of ⟨s, hs, Or.inr (Or.inr ⟨σ, hstacks ▸ hσ, hm⟩)⟩
  have hunlinked {k : ScopeId} (h : ¬ b.Linked k) : ¬ a.Linked k :=
    fun h' => h (hA.linked_iff.mpr h')
  have hfields {k : ScopeId} {t : Scope} (ht : b.get? k = some t) :
      ∃ s, a.get? k = some s ∧ t.stack = s.stack ∧ t.calls = s.calls ∧
        (t.compiling = true → s.compiling = true) := by
    obtain ⟨s, hs, hstacks, -⟩ := hof k t ht
    obtain ⟨s', hs', -, -, hc⟩ := hA.get? ht
    cases hs.symm.trans hs'
    obtain ⟨h₁, h₂⟩ := List.cons.inj hstacks
    exact ⟨s, hs, h₁, h₂, hc⟩
  refine ⟨⟨hA.tree hS.tree, hopens, fun {k t} ht hne => ?_, fun {k t σ} ht hσ => ?_,
    fun {k t} ht hno => ?_, fun {k j t u} ht hno hu hm => ?_⟩, fun {k h t} ht hm => ?_,
    fun h => hA.linked_iff.mpr (hheld h).1, fun {k cell} h => ?_⟩
  · obtain ⟨s, hs, -, hcalls, hc⟩ := hfields ht
    rw [hcalls] at hne
    rw [← Bool.not_eq_true]
    intro htrue
    have hfalse := hS.called hs hne
    rw [hc htrue] at hfalse
    cases hfalse
  · obtain ⟨s, hs, hstacks, -⟩ := hof k t ht
    rw [hlast]
    exact hS.stack_le hs (hstacks ▸ hσ)
  · obtain ⟨s, hs, -, hcalls, -⟩ := hfields ht
    rw [hcalls]
    exact hS.uncalled hs (hunlinked hno)
  · obtain ⟨s, hs, hstack, -⟩ := hfields ht
    obtain ⟨v, hv, hstacks, -⟩ := hof j u hu
    rw [hstack, hstacks] at hm
    exact hS.alone hs (hunlinked hno) hv hm
  · obtain ⟨s, hs, -, hbind, -⟩ := hof k t ht
    rw [Scope.boundCells, hbind] at hm
    exact hS.bound hs hm
  · refine (hheld h).2.mono (fun j _ hj hr => ?_) hR
    obtain ⟨s, hs⟩ := hj
    obtain ⟨t, ht, -⟩ := hA.get?_of hs
    exact ⟨⟨t, ht⟩, by rwa [hA.known]⟩

/-- A change of one scope that touches only what is open, what is compiled, and the code. -/
theorem Steady.modifyCode (hS : Steady honest kept a) (id : ScopeId) (f : Scope → Scope)
    (hf : ∀ s, f s = { s with
      compileStack := (f s).compileStack, compiling := (f s).compiling, code := (f s).code })
    (hcomp : ∀ s, (f s).compiling = true → s.compiling = true)
    (hopen : ∀ s, a.get? id = some s → ∀ k ∈ (f s).compileStack, k ∈ s.compileStack ∨ a.MayOpen k)
    (hcode : ∀ s, a.get? id = some s → ∀ cell ∈ (f s).code.cells, cell ∈ s.code.cells ∨
      (a.Linked id ∧ Backs honest kept a cell))
    (hchain : (a.modify id f).OpenChain (a.modify id f).openBlocks) :
    Steady honest kept (a.modify id f) := by
  have hA : a.Alike (a.modify id f) := .modify a id f fun s hs =>
    ⟨by rw [hf], by rw [hf], hcomp s, hopen s hs⟩
  refine hS.alike hA (.modify id f fun s => ⟨by rw [hf], by rw [hf]⟩) rfl rfl (fun k t ht => ?_)
    hchain
  obtain ⟨s, hs, ⟨-, rfl⟩ | ⟨rfl, rfl⟩⟩ := get?_modify_cases ht
  · exact ⟨t, hs, rfl, rfl, fun _ h => Or.inl h⟩
  · exact ⟨s, hs, by rw [hf]; rfl, by rw [hf], hcode s hs⟩

/-- A new block is the innermost open one. -/
theorem Steady.pushOpen (hS : Steady honest kept a) {k : ScopeId} {s : Scope}
    (hk : a.get? k = some s) (hl : a.Linked k) (hne : k ≠ rootScope) (hc : s.compiling = true)
    (hlt : ∀ j ∈ a.openBlocks, j < k) {p : ScopeId} (hp : s.parent = some p)
    (hnext : a.OpenedIn a.openBlocks p) :
    Steady honest kept
        (a.modify rootScope fun r => { r with compileStack := k :: r.compileStack }) ∧
      (a.modify rootScope fun r => { r with compileStack := k :: r.compileStack }).openBlocks =
        k :: a.openBlocks := by
  generalize hb : (a.modify rootScope fun r => { r with compileStack := k :: r.compileStack }) = b
  obtain ⟨r, hr, -⟩ := hS.tree.root
  have hopen : b.openBlocks = k :: a.openBlocks := by
    rw [← hb, openBlocks, get?_modify, if_pos rfl, hr, openBlocks_eq hr]
    rfl
  have hof {j : ScopeId} {t : Scope} (ht : b.get? j = some t) :
      ∃ u, a.get? j = some u ∧ t.parent = u.parent ∧ t.compiling = u.compiling := by
    rw [← hb] at ht
    obtain ⟨u, hu, ⟨-, rfl⟩ | ⟨-, rfl⟩⟩ := get?_modify_cases ht
    · exact ⟨t, hu, rfl, rfl⟩
    · exact ⟨u, hu, rfl, rfl⟩
  refine ⟨?_, hopen⟩
  rw [← hb]
  refine hS.modifyCode rootScope _ (fun _ => rfl) (fun _ h => h) (fun u _ j hj => ?_)
    (fun _ _ _ h => Or.inl h) ?_
  · rcases List.mem_cons.mp hj with rfl | hj
    · exact Or.inr ⟨hS.tree.forest.le_last hk, hne, hl⟩
    · exact Or.inl hj
  · rw [hb, hopen]
    refine ⟨fun t ht => ?_, hlt, hS.opens.mono hS.tree.forest (fun j _ t ht => hof ht)
      fun j _ q _ t ht hct => ?_⟩
    · obtain ⟨u, hu, hpu, hcu⟩ := hof ht
      cases hk.symm.trans hu
      refine ⟨hcu.trans hc, p, hpu.trans hp, ?_⟩
      cases ho : a.openBlocks with
      | nil =>
        rw [ho] at hnext
        intro v hv
        obtain ⟨w, hw, -, hcw⟩ := hof hv
        exact hcw.trans (hnext w hw)
      | cons j rest =>
        rw [ho] at hnext
        exact hnext
    · obtain ⟨u, hu, -, hcu⟩ := hof ht
      exact ⟨u, hu, hcu.symm.trans hct⟩

/-- Code is compiled into a scope. -/
theorem Steady.append (hS : Steady honest kept a) {id : ScopeId} (hl : a.Linked id)
    (i : Instruction) (hb : Backs honest kept a i.cell) :
    Steady honest kept (a.modify id (·.append i)) := by
  refine hS.modifyCode id _ (fun _ => rfl) (fun _ h => h) (fun _ _ _ h => Or.inl h)
    (fun s _ cell hc => ?_) ?_
  · rw [Scope.append, CodeBlock.cells_push, List.mem_append, List.mem_singleton] at hc
    rcases hc with hc | rfl
    · exact Or.inl hc
    · exact Or.inr ⟨hl, hb⟩
  · have ho : (a.modify id (·.append i)).openBlocks = a.openBlocks :=
      openBlocks_modify id _ fun _ => rfl
    rw [ho]
    refine hS.opens.mono hS.tree.forest (fun j _ t ht => ?_) fun j _ p _ t ht hc => ?_
    · obtain ⟨u, hu, ⟨-, rfl⟩ | ⟨-, rfl⟩⟩ := get?_modify_cases ht
      · exact ⟨t, hu, rfl, rfl⟩
      · exact ⟨u, hu, rfl, rfl⟩
    · obtain ⟨u, hu, ⟨-, rfl⟩ | ⟨-, rfl⟩⟩ := get?_modify_cases ht
      · exact ⟨t, hu, hc⟩
      · exact ⟨u, hu, hc⟩

/-! ## 3. Finishing -/

/-- The innermost open block is no longer open. -/
theorem Steady.popOpen (hS : Steady honest kept a) :
    Steady honest kept
        (a.modify rootScope fun r => { r with compileStack := r.compileStack.tail }) ∧
      (a.modify rootScope fun r => { r with compileStack := r.compileStack.tail }).openBlocks =
        a.openBlocks.tail := by
  generalize hb : (a.modify rootScope fun r => { r with compileStack := r.compileStack.tail }) = b
  obtain ⟨r, hr, -⟩ := hS.tree.root
  have hopen : b.openBlocks = a.openBlocks.tail := by
    rw [← hb, openBlocks, get?_modify, if_pos rfl, hr, openBlocks_eq hr]
    rfl
  refine ⟨?_, hopen⟩
  rw [← hb]
  refine hS.modifyCode rootScope _ (fun _ => rfl) (fun _ h => h)
    (fun u _ j hj => Or.inl (List.mem_of_mem_tail hj)) (fun _ _ _ h => Or.inl h) ?_
  rw [hb, hopen]
  have htail : a.OpenChain a.openBlocks.tail := by
    have h := hS.opens
    cases ho : a.openBlocks with
    | nil => trivial
    | cons k rest =>
      rw [ho] at h
      exact h.2.2
  refine htail.mono hS.tree.forest (fun j _ t ht => ?_) fun j _ p _ t ht hc => ?_
  · rw [← hb] at ht
    obtain ⟨u, hu, ⟨-, rfl⟩ | ⟨-, rfl⟩⟩ := get?_modify_cases ht
    · exact ⟨t, hu, rfl, rfl⟩
    · exact ⟨u, hu, rfl, rfl⟩
  · rw [← hb] at ht
    obtain ⟨u, hu, ⟨-, rfl⟩ | ⟨-, rfl⟩⟩ := get?_modify_cases ht
    · exact ⟨t, hu, hc⟩
    · exact ⟨u, hu, hc⟩

/-- A block that is not open is no longer compiled. -/
theorem Steady.closeScope (hS : Steady honest kept a) {k : ScopeId} (hk : k ∉ a.openBlocks) :
    Steady honest kept (a.modify k fun s => { s with compiling := false }) := by
  refine hS.modifyCode k _ (fun _ => rfl) (fun _ h => by cases h) (fun _ _ _ h => Or.inl h)
    (fun _ _ _ h => Or.inl h) ?_
  have ho : (a.modify k fun s => { s with compiling := false }).openBlocks = a.openBlocks :=
    openBlocks_modify k _ fun _ => rfl
  rw [ho]
  refine hS.opens.mono hS.tree.forest (fun j hj t ht => ?_) fun j _ p _ t ht hc => ?_
  · obtain ⟨u, hu, ⟨-, rfl⟩ | ⟨rfl, -⟩⟩ := get?_modify_cases ht
    · exact ⟨t, hu, rfl, rfl⟩
    · exact absurd hj hk
  · obtain ⟨u, hu, ⟨-, rfl⟩ | ⟨-, rfl⟩⟩ := get?_modify_cases ht
    · exact ⟨t, hu, hc⟩
    · cases hc

/-- A finished block becomes known. -/
theorem Steady.makeKnown (hS : Steady honest kept a) {block p : ScopeId} {s : Scope}
    (hs : a.get? block = some s) (hl : a.Linked block) (hp : s.parent = some p)
    (hc : s.compiling = false) (hne : block ≠ rootScope) :
    Steady honest kept (a.makeKnown block (a.chain p)) := by
  have hlinked {k : ScopeId} (h : a.Linked k) : (a.makeKnown block (a.chain p)).Linked k := h
  have hchain {ks : List ScopeId} (h : a.OpenChain ks) :
      (a.makeKnown block (a.chain p)).OpenChain ks :=
    h.mono hS.tree.forest (fun j _ t ht => ⟨t, ht, rfl, rfl⟩) fun _ _ q _ t ht hc => ⟨t, ht, hc⟩
  refine ⟨⟨hS.tree.makeKnown hs hl hp hc hne, hchain hS.opens, hS.called, hS.stack_le, hS.uncalled,
    hS.alone⟩, hS.bound, fun h => hlinked (hS.held_linked h), fun {k cell} h => ?_⟩
  have hR : Retains kept a (a.makeKnown block (a.chain p)) := ⟨fun _ _ h => h, fun _ _ h => h⟩
  refine (hS.backed (show a.Holds k cell from h)).mono (fun j _ hj hr => ?_) hR
  exact ⟨hj, (mem_scopesKnowing_makeKnown a block j _ _).mpr (Or.inl hr)⟩

/-! ## 4. Taking out -/

section Pruned

variable {top : ScopeId} (hP : a.Pruned top b)
include hP

theorem Pruned.openBlocks (hT : a.Tree) (hne : top ≠ rootScope) : b.openBlocks = a.openBlocks := by
  obtain ⟨r, hr, -⟩ := hT.root
  obtain ⟨cs, hcs, -⟩ := hP.kept hr fun h => hne (by
    rw [hT.chain_root] at h
    exact List.mem_singleton.mp h)
  rw [openBlocks_eq hr, openBlocks_eq hcs]

/-- **Taking out a scope that nothing refers to keeps all in order.** -/
theorem Steady.pruned (hS : Steady honest kept a) (hU : a.Unreferenced top)
    (hne : top ≠ rootScope) : Steady honest kept b := by
  have hF := hS.tree.forest
  have hroot : top ∉ a.chain rootScope := fun h => hne (by
    rw [hS.tree.chain_root] at h
    exact List.mem_singleton.mp h)
  have hR : Retains kept a b := by
    refine ⟨fun _ h ⟨s, hs, hh⟩ => ?_, fun _ h ⟨s, hs, hh⟩ => ?_⟩
    · obtain ⟨cs, hcs, -⟩ := hP.kept hs hroot
      exact ⟨_, hcs, hh⟩
    · obtain ⟨cs, hcs, -⟩ := hP.kept hs hroot
      exact ⟨_, hcs, hh⟩
  have hof {k : ScopeId} {t : Scope} (ht : b.get? k = some t) :
      top ∉ a.chain k ∧ ∃ s, a.get? k = some s ∧ t = { s with children := t.children } := by
    obtain ⟨hk, s, hs, hts, -⟩ := hP.of_get? ht
    exact ⟨hk, s, hs, hts⟩
  have hunlinked {k : ScopeId} (hk : top ∉ a.chain k) (h : ¬ b.Linked k) : ¬ a.Linked k :=
    fun h' => h (hP.linked hF h' hk)
  refine ⟨⟨hP.tree hS.tree hne, ?_, fun {k t} ht hcalls => ?_, fun {k t σ} ht hσ => ?_,
    fun {k t} ht hno => ?_, fun {k j t u} ht hno hu hm => ?_⟩, fun {k h t} ht hm => ?_,
    fun {k cell} h => ?_, fun {k cell} h => ?_⟩
  · rw [hP.openBlocks hS.tree hne]
    refine hS.opens.mono hF (fun k _ t ht => ?_) fun k _ p _ t ht hc => ?_
    · obtain ⟨-, s, hs, hts⟩ := hof ht
      rw [hts]
      exact ⟨s, hs, rfl, rfl⟩
    · obtain ⟨-, s, hs, hts⟩ := hof ht
      rw [hts] at hc
      exact ⟨s, hs, hc⟩
  · obtain ⟨-, s, hs, hts⟩ := hof ht
    rw [hts] at hcalls ⊢
    show s.compiling = false
    exact hS.called hs hcalls
  · obtain ⟨-, s, hs, hts⟩ := hof ht
    rw [hts] at hσ
    rw [hP.lastStack]
    exact hS.stack_le hs hσ
  · obtain ⟨hk, s, hs, hts⟩ := hof ht
    rw [hts]
    show s.calls = []
    exact hS.uncalled hs (hunlinked hk hno)
  · obtain ⟨hk, s, hs, hts⟩ := hof ht
    obtain ⟨-, v, hv, huv⟩ := hof hu
    rw [hts, huv] at hm
    exact hS.alone hs (hunlinked hk hno) hv hm
  · obtain ⟨-, s, hs, hts⟩ := hof ht
    rw [hts] at hm
    exact hS.bound hs hm
  · obtain ⟨hk, h⟩ := hP.holds h
    exact hP.linked hF (hS.held_linked h) hk
  · obtain ⟨hk, h⟩ := hP.holds h
    refine (hS.backed h).mono (fun j hj hlive hr => ?_) hR
    -- a cell that stays names a block that stays
    have hstay : top ∉ a.chain j := hU.not_mem_chain hk (hj ▸ h)
    obtain ⟨s, hs⟩ := hlive
    obtain ⟨cs, hcs, -⟩ := hP.kept hs hstay
    exact ⟨⟨_, hcs⟩, by rwa [hP.known hstay]⟩

end Pruned

end Blocks

end ScopeStack.Arena
