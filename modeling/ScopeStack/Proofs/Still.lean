import ScopeStack.Proofs.Tree

/-!
# Changes of payloads and stacks

Most of what a program does leaves the scopes where they are: it interns payloads, moves cells
between stacks and binds variables.

* `Scope.core`: a scope without its payloads, its variables and its push session.
* `Arena.Still`: **the cores of all scopes are as they were.** What hangs where, what is open, what
  is called and what is known is then as it was too.
* `Arena.Grows`: tables have gained payloads and lost none, and all else is as it was. Interning
  does that (`intern_grows`), and afterwards every scope of the chain has the handle.
-/

namespace ScopeStack

/-- A scope without its payloads, its variables and its push session. -/
def Scope.core (s : Scope) : Scope :=
  { s with
    bindings := {}, strings := {}, numbers := {}, operations := {}, pool := none,
    pushTarget := none }

/-- What does not look at the rest of a scope is told by its core. -/
theorem Scope.eq_of_core {α : Type} (f : Scope → α) (hf : ∀ s, f s.core = f s) {s t : Scope}
    (he : t.core = s.core) : f t = f s := by
  rw [← hf t, he, hf s]

namespace Arena

/-! ## 1. Scopes that stay as they are -/

/-- The cores of all scopes are as they were. -/
structure Still (a b : Arena) : Prop where
  core (id : ScopeId) : (b.get? id).map Scope.core = (a.get? id).map Scope.core
  known : b.known = a.known
  lastScope : b.lastScope = a.lastScope
  lastStack : a.lastStack ≤ b.lastStack

/-- What a change to a scope leaves alone is as before in every scope. -/
theorem map_get?_modify {β : Type} (a : Arena) (id k : ScopeId) {f : Scope → Scope} {g : Scope → β}
    (hg : ∀ s, g (f s) = g s) : ((a.modify id f).get? k).map g = (a.get? k).map g := by
  rw [get?_modify]
  by_cases hk : k = id
  · rw [if_pos hk, hk, Option.map_map]
    exact congrArg (fun g => Option.map g (a.get? id)) (funext hg)
  · rw [if_neg hk]

namespace Still

theorem refl (a : Arena) : a.Still a := ⟨fun _ => rfl, rfl, rfl, Nat.le_refl _⟩

theorem trans {a b c : Arena} (hab : a.Still b) (hbc : b.Still c) : a.Still c :=
  ⟨fun id => (hbc.core id).trans (hab.core id), hbc.known.trans hab.known,
    hbc.lastScope.trans hab.lastScope, Nat.le_trans hab.lastStack hbc.lastStack⟩

/-- Changing one scope, but not its core. -/
theorem modify (a : Arena) (id : ScopeId) (f : Scope → Scope) (hf : ∀ s, (f s).core = s.core) :
    a.Still (a.modify id f) :=
  ⟨fun k => map_get?_modify a id k hf, rfl, rfl, Nat.le_refl _⟩

/-- Changing a stack. -/
theorem modifyStack (a : Arena) (σ : StackId) (f : CellStack → CellStack) :
    a.Still (a.modifyStack σ f) := ⟨fun _ => rfl, rfl, rfl, Nat.le_refl _⟩

/-- Making a stack. -/
theorem newStack (a : Arena) : a.Still a.newStack.2 :=
  ⟨fun _ => rfl, rfl, rfl, Nat.le_succ _⟩

/-- Dropping a stack. -/
theorem dropStack (a : Arena) (σ : StackId) : a.Still (a.dropStack σ) :=
  ⟨fun _ => rfl, rfl, rfl, Nat.le_refl _⟩

variable {a b : Arena} (hS : a.Still b)
include hS

theorem get? {id : ScopeId} {t : Scope} (ht : b.get? id = some t) :
    ∃ s, a.get? id = some s ∧ t.core = s.core := by
  have h := hS.core id
  rw [ht, Option.map_some] at h
  obtain ⟨s, hs, he⟩ := Option.map_eq_some_iff.mp h.symm
  exact ⟨s, hs, he.symm⟩

theorem get?_of {id : ScopeId} {s : Scope} (hs : a.get? id = some s) :
    ∃ t, b.get? id = some t ∧ t.core = s.core := by
  have h := hS.core id
  rw [hs, Option.map_some] at h
  exact Option.map_eq_some_iff.mp h

theorem of_get?_none {id : ScopeId} (h : b.get? id = none) : a.get? id = none := by
  have h' := hS.core id
  rw [h, Option.map_none, eq_comm, Option.map_eq_none_iff] at h'
  exact h'

theorem scopesKnowing (h : ScopeId) : b.scopesKnowing h = a.scopesKnowing h := by
  rw [Arena.scopesKnowing, Arena.scopesKnowing, hS.known]

theorem alike : a.Alike b where
  get? {id t} ht := by
    obtain ⟨s, hs, he⟩ := hS.get? ht
    exact ⟨s, hs, Scope.eq_of_core (·.parent) (fun _ => rfl) he,
      Scope.eq_of_core (·.children) (fun _ => rfl) he,
      fun h => (Scope.eq_of_core (·.compiling) (fun _ => rfl) he).symm.trans h⟩
  none h := hS.of_get?_none h
  opens {q k t} ht hk := by
    obtain ⟨s, hs, he⟩ := hS.get? ht
    exact Or.inl ⟨s, hs, Scope.eq_of_core (·.compileStack) (fun _ => rfl) he ▸ hk⟩
  known := hS.scopesKnowing
  lastScope := hS.lastScope

theorem tree (hT : a.Tree) : b.Tree := hS.alike.tree hT

theorem linked {id : ScopeId} (h : a.Linked id) : b.Linked id := hS.alike.linked_iff.mpr h

end Still

/-! ## 2. Tables that grow -/

/-- Tables have gained payloads and lost none; all else is as it was. -/
structure Grows (a b : Arena) : Prop where
  get? {id : ScopeId} {s : Scope} : a.get? id = some s → ∃ t, b.get? id = some t ∧
    t = { s with strings := t.strings, numbers := t.numbers } ∧
    (∀ h x, s.strings.get? h = some x → t.strings.get? h = some x) ∧
    ∀ h x, s.numbers.get? h = some x → t.numbers.get? h = some x
  none {id : ScopeId} : a.get? id = none → b.get? id = none
  known : b.known = a.known
  lastScope : b.lastScope = a.lastScope
  lastStack : b.lastStack = a.lastStack
  stackHeap : b.stackHeap = a.stackHeap

namespace Grows

theorem refl (a : Arena) : a.Grows a :=
  ⟨fun {_ s} hs => ⟨s, hs, rfl, fun _ _ h => h, fun _ _ h => h⟩, fun h => h, rfl, rfl, rfl, rfl⟩

theorem trans {a b c : Arena} (hab : a.Grows b) (hbc : b.Grows c) : a.Grows c where
  get? {id s} hs := by
    obtain ⟨t, ht, hts, hst, hnt⟩ := hab.get? hs
    obtain ⟨u, hu, hut, hsu, hnu⟩ := hbc.get? ht
    refine ⟨u, hu, ?_, fun h x hx => hsu h x (hst h x hx), fun h x hx => hnu h x (hnt h x hx)⟩
    rw [hts] at hut
    exact hut
  none h := hbc.none (hab.none h)
  known := hbc.known.trans hab.known
  lastScope := hbc.lastScope.trans hab.lastScope
  lastStack := hbc.lastStack.trans hab.lastStack
  stackHeap := hbc.stackHeap.trans hab.stackHeap

variable {a b : Arena} (hG : a.Grows b)
include hG

theorem still : a.Still b := by
  refine ⟨fun id => ?_, hG.known, hG.lastScope, Nat.le_of_eq hG.lastStack.symm⟩
  cases hs : a.get? id with
  | none => rw [hG.none hs]
  | some s =>
    obtain ⟨t, ht, hts, -, -⟩ := hG.get? hs
    rw [ht, hts]
    rfl

theorem stackCells (σ : StackId) : b.stackCells σ = a.stackCells σ := by
  rw [Arena.stackCells, Arena.stackCells, stack, stack, hG.stackHeap]

/-- What is held afterwards was held before. -/
theorem holds {id : ScopeId} {cell : Cell} (h : b.Holds id cell) : a.Holds id cell := by
  obtain ⟨t, ht, hcell⟩ := h
  obtain ⟨s, hs, -⟩ := hG.still.get? ht
  obtain ⟨t', ht', hts, -, -⟩ := hG.get? hs
  cases ht.symm.trans ht'
  refine ⟨s, hs, ?_⟩
  rw [hts] at hcell
  simp only [hG.stackCells] at hcell
  exact hcell

end Grows

/-- A kind of payload whose table can be filled on its own. -/
class GrowingTable (α : Type) [BEq α] [Interned α] : Prop where
  grows (a : Arena) (id : ScopeId) (h : Handle) (v : α) :
    a.Grows (a.modify id (Interned.modifyTable (·.insert h v)))
  get?_insert (s : Scope) (h : Handle) (v : α) :
    ((Interned.table (Interned.modifyTable (·.insert h v) s) : InternTable α).get? h).isSome
  mono {a b : Arena} (hG : a.Grows b) {id : ScopeId} {s t : Scope} (hs : a.get? id = some s)
    (ht : b.get? id = some t) {h : Handle} {v : α} :
    (Interned.table s).get? h = some v → (Interned.table t).get? h = some v

theorem get?_insert_of_some {α : Type} (t : InternTable α) (h k : Handle) (v x : α)
    (hx : t.get? k = some x) : (t.insert h v).get? k = some x := by
  rw [InternTable.get?_insert]
  by_cases hk : k = h
  · rw [if_pos hk, ← hk, hx]
    rfl
  · rw [if_neg hk, hx]

theorem isSome_get?_insert {α : Type} (t : InternTable α) (h : Handle) (v : α) :
    ((t.insert h v).get? h).isSome := by
  rw [InternTable.get?_insert, if_pos rfl]
  rfl

/-- Changing one scope so that its tables grow. -/
theorem Grows.modify (a : Arena) (id : ScopeId) (f : Scope → Scope)
    (hf : ∀ s, f s = { s with strings := (f s).strings, numbers := (f s).numbers } ∧
      (∀ h x, s.strings.get? h = some x → (f s).strings.get? h = some x) ∧
      ∀ h x, s.numbers.get? h = some x → (f s).numbers.get? h = some x) :
    a.Grows (a.modify id f) := by
  refine ⟨fun {k s} hs => ?_, fun {k} hs => ?_, rfl, rfl, rfl, rfl⟩
  · rw [get?_modify]
    by_cases hk : k = id
    · rw [if_pos hk, ← hk, hs]
      exact ⟨f s, rfl, hf s⟩
    · rw [if_neg hk, hs]
      exact ⟨s, rfl, rfl, fun _ _ h => h, fun _ _ h => h⟩
  · rw [get?_modify]
    by_cases hk : k = id
    · rw [if_pos hk, ← hk, hs]
      rfl
    · rw [if_neg hk, hs]

instance : GrowingTable String where
  grows a id h v := Grows.modify a id _ fun s =>
    ⟨rfl, fun k x hx => get?_insert_of_some s.strings h k v x hx, fun _ _ hx => hx⟩
  get?_insert s h v := isSome_get?_insert s.strings h v
  mono hG _ _ _ hs ht _ _ hv := by
    obtain ⟨t, ht', -, hst, -⟩ := hG.get? hs
    cases ht.symm.trans ht'
    exact hst _ _ hv

instance : GrowingTable Number where
  grows a id h v := Grows.modify a id _ fun s =>
    ⟨rfl, fun _ _ hx => hx, fun k x hx => get?_insert_of_some s.numbers h k v x hx⟩
  get?_insert s h v := isSome_get?_insert s.numbers h v
  mono hG _ _ _ hs ht _ _ hv := by
    obtain ⟨t, ht', -, -, hnt⟩ := hG.get? hs
    cases ht.symm.trans ht'
    exact hnt _ _ hv

section Intern

variable {α : Type} [BEq α] [Interned α] [GrowingTable α]

/-- The scope is there and its table holds something under the handle. -/
def HasPayload (a : Arena) (α : Type) [BEq α] [Interned α] (id : ScopeId) (h : Handle) : Prop :=
  ∃ s, a.get? id = some s ∧ ((Interned.table s : InternTable α).get? h).isSome

theorem Grows.hasPayload {a b : Arena} (hG : a.Grows b) {id : ScopeId} {h : Handle}
    (hh : a.HasPayload α id h) : b.HasPayload α id h := by
  obtain ⟨s, hs, hsome⟩ := hh
  obtain ⟨t, ht, -⟩ := hG.get? hs
  obtain ⟨v, hv⟩ := Option.isSome_iff_exists.mp hsome
  exact ⟨t, ht, Option.isSome_iff_exists.mpr ⟨v, GrowingTable.mono hG hs ht hv⟩⟩

theorem insertAll_grows (a : Arena) (ids : List ScopeId) (h : Handle) (v : α) :
    a.Grows (a.insertAll ids h v) := by
  induction ids generalizing a with
  | nil => exact .refl a
  | cons id ids ih => exact (GrowingTable.grows a id h v).trans (ih _)

/-- Every scope that a payload goes to has it afterwards. -/
theorem hasPayload_insertAll (a : Arena) {ids : List ScopeId} (h : Handle) (v : α) {k : ScopeId}
    (hk : k ∈ ids) (hlive : ∃ s, a.get? k = some s) : (a.insertAll ids h v).HasPayload α k h := by
  induction ids generalizing a with
  | nil => cases hk
  | cons id ids ih =>
    obtain ⟨s, hs⟩ := hlive
    show ((a.modify id (Interned.modifyTable (·.insert h v))).insertAll ids h v).HasPayload α k h
    by_cases hid : k = id
    · refine (insertAll_grows _ ids h v).hasPayload ?_
      refine ⟨Interned.modifyTable (·.insert h v) s, ?_, GrowingTable.get?_insert s h v⟩
      rw [get?_modify, if_pos hid, ← hid, hs]
      rfl
    · have hk' : k ∈ ids := (List.mem_cons.mp hk).resolve_left hid
      refine ih _ hk' ⟨s, ?_⟩
      rw [get?_modify, if_neg hid, hs]

/-- **Interning only adds payloads, and every scope of the chain has the handle it returns.** -/
theorem intern_grows {a b : Arena} {hash : α → Handle} {id : ScopeId} {v : α}
    {r : Except Fault Handle} (hi : a.intern hash id v = (r, b)) :
    a.Grows b ∧ ∀ h, r = .ok h → ∀ k ∈ a.chain id, b.HasPayload α k h := by
  unfold intern at hi
  dsimp only at hi
  split at hi
  · cases hi
    exact ⟨.refl a, fun h hr => by cases hr⟩
  · cases hi
    refine ⟨insertAll_grows _ _ _ _, fun h hr k hk => ?_⟩
    cases hr
    exact hasPayload_insertAll a _ v hk (get?_of_mem_chain hk)

end Intern

end Arena

end ScopeStack
