import ScopeStack.Machine.Compile
import ScopeStack.Proofs.Moves

/-!
# Critical sections

Processes share one arena, and each of them does one thing at a time to it: opens or closes a block,
interns, defines or forgets, lets go of a block, looks for a block to call. Whoever does it, no scope
that runs or is called goes, and none around it.

* `Arena.Spares`: **what such a change leaves alone**: the marks of processes, the calls, and all
  scopes that are busy with those around them. Changes in a row are such a change (`Spares.trans`).
* `Tended`: the machine after such changes. One lemma for each critical section.
-/

namespace ScopeStack

open ScopeStack.Action

/-- No variable stands for the top level. -/
def Arena.NoRootBound (a : Arena) : Prop :=
  ∀ id h s, a.get? id = some s → Cell.block h ∈ s.boundCells → h ≠ rootScope

/-- The scope runs as a process, or is called. -/
def Scope.Busy (s : Scope) : Prop := s.running = true ∨ s.calls ≠ []

/-- What a scope says about processes and calls. -/
def Scope.SameMarks (s t : Scope) : Prop :=
  t.running = s.running ∧ t.spawned = s.spawned ∧ t.pid = s.pid ∧ t.calls = s.calls

namespace Arena

/-- A block that becomes known changes no chain. -/
theorem chain_makeKnown (a : Arena) (block id : ScopeId) (ids : List ScopeId) :
    (a.makeKnown block ids).chain id = a.chain id :=
  chain_of_scopes (show (a.makeKnown block ids).scopes = a.scopes from rfl) id

/-- Busy scopes stay with those around them, and nobody's marks change. -/
structure Spares (a b : Arena) : Prop where
  tree : b.Tree
  bound : b.NoRootBound
  of_get? {k : ScopeId} {t : Scope} : b.get? k = some t →
    (∃ s, a.get? k = some s ∧ s.SameMarks t) ∨
    (a.lastScope < k ∧ t.running = false ∧ t.spawned = false ∧ t.calls = [])
  busy {k : ScopeId} {s : Scope} : a.get? k = some s → s.Busy →
    b.chain k = a.chain k ∧ ∃ t, b.get? k = some t
  linked {k : ScopeId} {t : Scope} : a.Linked k → b.get? k = some t → b.Linked k
  lastScope : a.lastScope ≤ b.lastScope

namespace Spares

variable {a b c : Arena}

/-- What was there has the marks it had. -/
theorem sameMarks (hab : a.Spares b) (hF : a.Forest) {k : ScopeId} {s t : Scope}
    (hs : a.get? k = some s) (ht : b.get? k = some t) : s.SameMarks t := by
  rcases hab.of_get? ht with ⟨s', hs', hmarks⟩ | ⟨hlt, -⟩
  · cases hs.symm.trans hs'
    exact hmarks
  · exact absurd (hF.le_last hs) (Nat.not_le_of_lt hlt)

theorem trans (hF : a.Forest) (hab : a.Spares b) (hbc : b.Spares c) : a.Spares c where
  tree := hbc.tree
  bound := hbc.bound
  of_get? {k u} hu := by
    rcases hbc.of_get? hu with ⟨t, ht, hr, hs, hp, hc⟩ | ⟨hlt, hnew⟩
    · rcases hab.of_get? ht with ⟨s, hs', hr', hs'', hp', hc'⟩ | ⟨hlt, hr', hs', hc'⟩
      · exact Or.inl ⟨s, hs', hr.trans hr', hs.trans hs'', hp.trans hp', hc.trans hc'⟩
      · exact Or.inr ⟨hlt, hr.trans hr', hs.trans hs', hc.trans hc'⟩
    · exact Or.inr ⟨Nat.lt_of_le_of_lt hab.lastScope hlt, hnew⟩
  busy {k s} hs hbusy := by
    obtain ⟨hchain, t, ht⟩ := hab.busy hs hbusy
    obtain ⟨hr, -, -, hc⟩ := hab.sameMarks hF hs ht
    have hbusy' : t.Busy := hbusy.imp hr.trans fun hne => hc ▸ hne
    obtain ⟨hchain', u, hu⟩ := hbc.busy ht hbusy'
    exact ⟨hchain'.trans hchain, u, hu⟩
  linked {k u} hl hu := by
    obtain ⟨s, hs⟩ := hl.get?
    rcases hbc.of_get? hu with ⟨t, ht, -⟩ | ⟨hlt, -⟩
    · exact hbc.linked (hab.linked hl ht) hu
    · exact absurd (Nat.le_trans (hF.le_last hs) hab.lastScope) (Nat.not_le_of_lt hlt)
  lastScope := Nat.le_trans hab.lastScope hbc.lastScope

/-- Whoever is around a busy scope stays. -/
theorem contains (hab : a.Spares b) {id k : ScopeId} {s : Scope} (hs : a.get? k = some s)
    (hbusy : s.Busy) (hid : id ∈ a.chain k) : b.contains id = true := by
  rw [← (hab.busy hs hbusy).1] at hid
  exact contains_iff.mpr (get?_of_mem_chain hid)

/-- Nothing comes or goes, and nobody's marks change. -/
theorem of_alike (hT : a.Tree) (hA : a.Alike b) (hbound : b.NoRootBound)
    (hmarks : ∀ k s t, a.get? k = some s → b.get? k = some t → s.SameMarks t) : a.Spares b where
  tree := hA.tree hT
  bound := hbound
  of_get? {k t} ht := by
    obtain ⟨s, hs, -⟩ := hA.get? ht
    exact Or.inl ⟨s, hs, hmarks k s t hs ht⟩
  busy {k s} hs _ := by
    obtain ⟨t, ht, -⟩ := hA.get?_of hs
    exact ⟨hA.chain_eq hT.forest k, t, ht⟩
  linked hl _ := hA.linked_iff.mpr hl
  lastScope := Nat.le_of_eq hA.lastScope.symm

theorem refl (hT : a.Tree) (hbound : a.NoRootBound) : a.Spares a :=
  of_alike hT (.refl a) hbound fun k s t hs ht => by
    cases hs.symm.trans ht
    exact ⟨rfl, rfl, rfl, rfl⟩

/-- One scope changes, but neither where it hangs nor what it says about processes and calls. -/
theorem modify (hT : a.Tree) (hbound : a.NoRootBound) (id : ScopeId) (f : Scope → Scope)
    (hlinks : ∀ s, a.get? id = some s → (f s).parent = s.parent ∧ (f s).children = s.children ∧
      ((f s).compiling = true → s.compiling = true) ∧
      ∀ k ∈ (f s).compileStack, k ∈ s.compileStack ∨ a.MayOpen k)
    (hmarks : ∀ s : Scope, s.SameMarks (f s))
    (hcells : ∀ s, a.get? id = some s → ∀ h, Cell.block h ∈ (f s).boundCells →
      Cell.block h ∈ s.boundCells ∨ h ≠ rootScope) : a.Spares (a.modify id f) := by
  refine of_alike hT (.modify a id f hlinks) (fun k h t ht hm => ?_) fun k s t hs ht => ?_
  · obtain ⟨s, hs, ⟨-, rfl⟩ | ⟨rfl, rfl⟩⟩ := get?_modify_cases ht
    · exact hbound k h t hs hm
    · exact (hcells s hs h hm).elim (hbound k h s hs) fun hne => hne
  · obtain ⟨s', hs', ⟨-, rfl⟩ | ⟨-, rfl⟩⟩ := get?_modify_cases ht
    · cases hs.symm.trans hs'
      exact ⟨rfl, rfl, rfl, rfl⟩
    · cases hs.symm.trans hs'
      exact hmarks s

/-- The cores of all scopes are as they were. -/
theorem still (hT : a.Tree) (hS : a.Still b) (hbound : b.NoRootBound) : a.Spares b := by
  refine of_alike hT hS.alike hbound fun k s t hs ht => ?_
  obtain ⟨s', hs', he⟩ := hS.get? ht
  cases hs.symm.trans hs'
  exact ⟨Scope.eq_of_core (·.running) (fun _ => rfl) he,
    Scope.eq_of_core (·.spawned) (fun _ => rfl) he, Scope.eq_of_core (·.pid) (fun _ => rfl) he,
    Scope.eq_of_core (·.calls) (fun _ => rfl) he⟩

/-- A block comes. -/
theorem added (hT : a.Tree) (hbound : a.NoRootBound) {parent : ScopeId} {shares : Bool}
    (hA : a.Added parent shares b) (hle : parent ≤ a.lastScope)
    (hl : ∀ s, a.get? parent = some s → a.Linked parent) : a.Spares b where
  tree := hA.tree hT hle hl
  bound k h t ht hm := by
    rcases hA.of_get? ht with ⟨-, rfl⟩ | ⟨s, hs, rfl⟩
    · obtain ⟨name, hn⟩ := Scope.mem_boundCells.mp hm
      simp [newBlock, Scope.binding?] at hn
    · exact hbound k h s hs hm
  of_get? {k t} ht := by
    rcases hA.of_get? ht with ⟨rfl, rfl⟩ | ⟨s, hs, rfl⟩
    · exact Or.inr ⟨Nat.lt_succ_self _, rfl, rfl, rfl⟩
    · exact Or.inl ⟨s, hs, rfl, rfl, rfl, rfl⟩
  busy {k s} hs _ :=
    ⟨hA.chain_eq hT.forest hle (hT.forest.le_last hs), _, hA.get?_of hT.forest hs⟩
  linked hl' _ := hA.linked hT.forest hl'
  lastScope := hA.lastScope ▸ Nat.le_succ _

/-- A finished block becomes known. -/
theorem makeKnown (hT : a.Tree) (hbound : a.NoRootBound) {block p : ScopeId} {s : Scope}
    (hs : a.get? block = some s) (hl : a.Linked block) (hp : s.parent = some p)
    (hc : s.compiling = false) (hne : block ≠ rootScope) :
    a.Spares (a.makeKnown block (a.chain p)) where
  tree := hT.makeKnown hs hl hp hc hne
  bound := hbound
  of_get? {_ t} ht := Or.inl ⟨t, ht, rfl, rfl, rfl, rfl⟩
  busy {k s} hs _ := ⟨chain_makeKnown a block k _, s, hs⟩
  linked hl _ := hl
  lastScope := Nat.le_refl _

/-- **Something that nothing refers to goes: nothing busy is in it.** -/
theorem pruned (hT : a.Tree) (hbound : a.NoRootBound) {top : ScopeId} (hP : a.Pruned top b)
    (hU : a.Unreferenced top) (hne : top ≠ rootScope) : a.Spares b where
  tree := hP.tree hT hne
  bound k h t ht hm := by
    obtain ⟨-, s, hs, hts, -⟩ := hP.of_get? ht
    rw [hts] at hm
    exact hbound k h s hs hm
  of_get? {k t} ht := by
    obtain ⟨-, s, hs, hts, -⟩ := hP.of_get? ht
    rw [hts]
    exact Or.inl ⟨s, hs, rfl, rfl, rfl, rfl⟩
  busy {k s} hs hbusy := by
    have hk : top ∉ a.chain k := fun hmem => by
      obtain ⟨hrunning, hcalls⟩ := hU.idle hs hmem
      rcases hbusy with hr | hc
      · rw [hrunning] at hr
        cases hr
      · exact hc hcalls
    obtain ⟨ks, hks, -⟩ := hP.kept hs hk
    exact ⟨hP.chain_eq hT.forest hk, _, hks⟩
  linked hl ht := hP.linked hT.forest hl (hP.of_get? ht).1
  lastScope := Nat.le_of_eq hP.lastScope.symm

end Spares

end Arena

/-! ## 2. What processes do -/

/-- The machine after critical sections that spare what is busy. -/
structure Tended (a₀ : Arena) (p₀ : ProcessTable) (m : Machine) : Prop where
  spares : a₀.Spares m.arena
  processes : m.processes = p₀

section Tended

variable {a₀ : Arena} {p₀ : ProcessTable} {m : Machine} {c : Context}

/-- One more change. -/
theorem Tended.step (hF : a₀.Forest) (hm : Tended a₀ p₀ m) {m' : Machine}
    (h : m.arena.Spares m'.arena) (hp : m'.processes = m.processes) : Tended a₀ p₀ m' :=
  ⟨hm.spares.trans hF h, hp.trans hm.processes⟩

theorem Tended.forgetful (hF : a₀.Forest) : Forgetful (Tended a₀ p₀) where
  tree hm := hm.spares.tree
  discard hm hne hr hd := by
    have hT := hm.spares.tree
    exact hm.step hF (.pruned hT hm.spares.bound (Arena.discard_pruned hT.forest hd)
      (Arena.unreferenced_of_eq_false hT.forest hr) hne) rfl
  bound hm hs hb := hm.spares.bound _ _ _ hs hb
  unbind {m} owner name hm := by
    refine hm.step hF (.modify hm.spares.tree hm.spares.bound owner (·.unbind name)
      (fun s _ => ⟨rfl, rfl, fun h => h, fun k hk => Or.inl hk⟩) (fun _ => ⟨rfl, rfl, rfl, rfl⟩)
      fun s _ h hb => Or.inl ?_) rfl
    obtain ⟨other, ho⟩ := Scope.mem_boundCells.mp hb
    rw [Scope.binding?_unbind] at ho
    split at ho
    · cases ho
    · exact Scope.mem_boundCells.mpr ⟨other, ho⟩
  erase {m} owner {f} hf hm := by
    have hstill := Arena.Still.modify m.arena owner f fun s => by
      rw [hf s]
      rfl
    refine hm.step hF (.still hm.spares.tree hstill fun k h t ht hb => ?_) rfl
    obtain ⟨s, hs, ⟨-, rfl⟩ | ⟨-, rfl⟩⟩ := Arena.get?_modify_cases ht
    · exact hm.spares.bound k h t hs hb
    · rw [hf s] at hb
      exact hm.spares.bound k h s hs hb

namespace Context

/-- Interning. -/
theorem internPayload_tended {α : Type} [BEq α] [Interned α] [Arena.GrowingTable α]
    (hF : a₀.Forest) (hash : ContentHash → α → Handle) (v : α) :
    Keeps (Tended a₀ p₀) (internPayload hash c v) fun _ => True := by
  intro m hm
  have hT := hm.spares.tree
  have hgains {m' : Machine} (hg : Gains m m') : Tended a₀ p₀ m' := by
    refine hm.step hF (.still hT hg.grows.still fun k h t ht hb => ?_) hg.processes
    obtain ⟨s, hs, -⟩ := hg.grows.still.get? ht
    obtain ⟨t', ht', hts, -, -⟩ := hg.grows.get? hs
    cases ht.symm.trans ht'
    rw [hts] at hb
    exact hm.spares.bound k h s hs hb
  exact (internPayload_ends hash v hT).mono (fun _ _ h => ⟨hgains h.1, trivial⟩) fun _ _ h => hgains h

/-- Defining a variable. -/
theorem define_tended (hF : a₀.Forest) {cell : Cell} (hne : cell ≠ .block rootScope)
    (name : String) (strict : Bool) :
    Keeps (Tended a₀ p₀) (c.define name cell strict) fun _ => True := by
  intro m hm
  unfold define
  rw [ends_bind, ends_inArena]
  refine ⟨fun b hd => ?_, fun _ _ => hm⟩
  suffices h : Tended a₀ p₀ { m with arena := b } from ⟨h, trivial⟩
  rcases Arena.define_cases hd with rfl | ⟨s, hs, rfl⟩
  · exact hm
  · refine hm.step hF (.modify hm.spares.tree hm.spares.bound _ (·.bind name cell)
      (fun s _ => ⟨rfl, rfl, fun h => h, fun k hk => Or.inl hk⟩) (fun _ => ⟨rfl, rfl, rfl, rfl⟩)
      fun s _ h hb => ?_) rfl
    obtain ⟨other, ho⟩ := Scope.mem_boundCells.mp hb
    rw [Scope.binding?_bind] at ho
    split at ho
    · cases ho
      exact Or.inr fun he => hne (he ▸ rfl)
    · exact Or.inl (Scope.mem_boundCells.mpr ⟨other, ho⟩)

/-- Opening a block. -/
theorem openBlock_tended (hF : a₀.Forest) (hm : Tended a₀ p₀ m) (hle : c.scope ≤ m.arena.lastScope)
    (hl : ∀ s, m.arena.get? c.scope = some s → m.arena.Linked c.scope) (kind : BlockKind) :
    (c.openBlock kind).Ends m (fun _ m' => Tended a₀ p₀ m') fun _ m' => Tended a₀ p₀ m' := by
  have hT := hm.spares.tree
  unfold openBlock compileTarget
  rw [bind_assoc, ends_bind, ends_getScope]
  refine ⟨fun r hr => ?_, fun _ => hm⟩
  rw [pure_bind, ends_bind, ends_changeArena]
  have htarget : r.compileStack.headD c.scope ≤ m.arena.lastScope ∧
      ∀ s, m.arena.get? (r.compileStack.headD c.scope) = some s →
        m.arena.Linked (r.compileStack.headD c.scope) := by
    cases ho : r.compileStack with
    | nil => exact ⟨hle, hl⟩
    | cons k rest =>
      have hk : k ∈ r.compileStack := ho ▸ List.mem_cons_self
      exact ⟨(hT.open_le hr hk).1, fun s hs => hT.open_linked hr hk hs⟩
  generalize r.compileStack.headD c.scope = target at htarget ⊢
  obtain ⟨hA, hres⟩ := Arena.createChild_added htarget.1 kind.shares
  generalize (m.arena.createChild target kind.shares).2 = b at hA ⊢
  have hb : Tended a₀ p₀ { m with arena := b } :=
    hm.step hF (.added hT hm.spares.bound hA htarget.1 htarget.2) rfl
  refine ⟨fun child hchild => ?_, fun _ _ => hb⟩
  rw [ends_bind, ends_getScope]
  refine ⟨fun _ _ => ?_, fun _ => hb⟩
  rw [ends_modifyScope]
  cases ht : m.arena.get? target with
  | none =>
    rw [hres, ht] at hchild
    cases hchild
  | some s =>
    rw [hres, ht] at hchild
    cases hchild
    refine hb.step hF (.modify hb.spares.tree hb.spares.bound _ (fun s =>
      { s with compileStack := (m.arena.lastScope + 1) :: s.compileStack })
      (fun u _ => ⟨rfl, rfl, fun h => h, fun k hk => ?_⟩) (fun _ => ⟨rfl, rfl, rfl, rfl⟩)
      fun _ _ _ hb => Or.inl hb) rfl
    rcases List.mem_cons.mp hk with rfl | hk
    · refine Or.inr ⟨hA.lastScope ▸ Nat.le_refl _, fun he => ?_, hA.linked_new hT.forest ht⟩
      exact Nat.not_succ_le_self _ (he ▸ hT.root_le)
    · exact Or.inl hk

/-- Finishing a block. -/
theorem finishBlock_tended (hF : a₀.Forest) (hm : Tended a₀ p₀ m) (kind : BlockKind)
    (location : Location) :
    (c.finishBlock kind location).Ends m (fun _ m' => Tended a₀ p₀ m') fun _ m' =>
      Tended a₀ p₀ m' := by
  have hT := hm.spares.tree
  unfold finishBlock
  rw [ends_bind, ends_getScope]
  refine ⟨fun r hr => ?_, fun _ => hm⟩
  rw [ends_bind, ends_ofOption]
  refine ⟨fun child hopen => ?_, fun _ => hm⟩
  rw [ends_bind, ends_getScope]
  refine ⟨fun s hs => ?_, fun _ => hm⟩
  have hchild : child ∈ r.compileStack := List.mem_of_head? hopen
  have hne : child ≠ rootScope := (hT.open_le hr hchild).2
  obtain ⟨p, hp⟩ := hT.root_ne_parent hs hne
  split
  · exact hm
  rw [ends_bind, ends_modifyScope, ends_bind, ends_modifyScope, ends_bind]
  have h₁ : m.arena.Spares (m.arena.modify c.process fun s =>
      { s with compileStack := s.compileStack.tail }) :=
    .modify hT hm.spares.bound _ (fun s => { s with compileStack := s.compileStack.tail })
      (fun s _ => ⟨rfl, rfl, fun h => h, fun k hk => Or.inl (List.mem_of_mem_tail hk)⟩)
      (fun _ => ⟨rfl, rfl, rfl, rfl⟩) fun _ _ _ hb => Or.inl hb
  generalize ha₁ : (m.arena.modify c.process fun s =>
    { s with compileStack := s.compileStack.tail }) = a₁ at h₁ ⊢
  have h₂ : a₁.Spares (a₁.modify child fun s => { s with compiling := false }) :=
    .modify h₁.tree h₁.bound _ (fun s => { s with compiling := false })
      (fun s _ => ⟨rfl, rfl, fun h => (by cases h), fun k hk => Or.inl hk⟩)
      (fun _ => ⟨rfl, rfl, rfl, rfl⟩) fun _ _ _ hb => Or.inl hb
  obtain ⟨s₁, hs₁, hp₁⟩ : ∃ s₁, a₁.get? child = some s₁ ∧ s₁.parent = some p := by
    obtain ⟨s₁, hs₁⟩ := Arena.get?_modify_some hs c.process
      fun s => { s with compileStack := s.compileStack.tail }
    obtain ⟨s', hs', hcases⟩ := Arena.get?_modify_cases hs₁
    cases hs.symm.trans hs'
    rw [ha₁] at hs₁
    refine ⟨s₁, hs₁, ?_⟩
    rcases hcases with ⟨-, rfl⟩ | ⟨-, rfl⟩ <;> exact hp
  have ht : (a₁.modify child fun s => { s with compiling := false }).get? child =
      some { s₁ with compiling := false } := by
    rw [Arena.get?_modify, if_pos rfl, hs₁]
    rfl
  generalize ha₂ : (a₁.modify child fun s => { s with compiling := false }) = a₂ at h₂ ht ⊢
  have hlinked : a₂.Linked child := h₂.linked (h₁.linked (hT.open_linked hr hchild hs) hs₁) ht
  have hm₂ : Tended a₀ p₀ { m with arena := a₂ } :=
    hm.step hF (h₁.trans hT.forest h₂) rfl
  rw [ends_getScope_some ht]
  have h₃ := Arena.Spares.makeKnown h₂.tree h₂.bound ht hlinked hp₁ rfl hne
  have hm₃ : Tended a₀ p₀ { m with arena := a₂.makeKnown child (a₂.chain p) } :=
    hm₂.step hF h₃ rfl
  dsimp only
  have hp₂ : ({ s₁ with compiling := false } : Scope).parent = some p := hp₁
  rw [hp₁, Option.getD_some, ends_bind, ends_registerBlock ht hp₂, ends_bind, ends_getScope]
  refine ⟨fun u hu => ?_, fun _ => hm₃⟩
  split
  · rw [ends_bind, ends_modifyScope]
    exact hm₃.step hF (.modify h₃.tree h₃.bound p (·.append ⟨some location, .block child⟩)
      (fun s _ => ⟨rfl, rfl, fun h => h, fun k hk => Or.inl hk⟩) (fun _ => ⟨rfl, rfl, rfl, rfl⟩)
      fun _ _ _ hb => Or.inl hb) rfl
  · exact hm₃

/-- Looking for a block to call: it is there, with all that is around it. -/
theorem prepareCall_tended (hF : a₀.Forest) (hm : Tended a₀ p₀ m) (h : Handle) :
    (c.prepareCall h).Ends m
      (fun r m' => Tended a₀ p₀ m' ∧ m'.arena.Linked r.2.block)
      fun _ m' => Tended a₀ p₀ m' := by
  have hT := hm.spares.tree
  unfold prepareCall
  rw [ends_bind, ends_inArena]
  refine ⟨fun block hr => ?_, fun _ _ => hm⟩
  obtain ⟨rfl, -, hl, -, -⟩ := hT.of_resolveBlock hr
  rw [ends_bind, ends_getScope]
  refine ⟨fun s _ => ?_, fun _ => hm⟩
  dsimp only
  split
  · exact hm
  split
  · unfold sharedStacks
    split
    · exact ⟨hm, hl⟩
    · rw [bind_assoc, ends_bind, ends_getScope]
      exact ⟨fun _ _ => ⟨hm, hl⟩, fun _ => hm⟩
  · rw [ends_bind, ends_get, ends_bind, ends_modifyArena, ends_pure]
    have hstill := Arena.Still.newStack m.arena
    exact ⟨hm.step hF (.still hT hstill hm.spares.bound) rfl, hstill.linked hl⟩

end Context

end Tended

end ScopeStack
