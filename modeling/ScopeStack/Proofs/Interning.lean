import ScopeStack.Proofs.Still

/-!
# What a table holds under a handle

Interning puts a payload into all tables of a chain under one handle, and no table of the chain held
other content there. So the payload is what every one of them has under the handle afterwards, and
nothing else changes.

* `Arena.payloadAt`, `Arena.payloadOn`: what one scope, or the first of several, has under a handle.
* `resolve_eq_ok_iff`: resolving is looking along the chain.
* `Arena.Stored`: **the handle stands for the payload all along the chain, all else is as it was**
  (`intern_stored`).
* `Arena.Echoes`: the tables of a scope are part of those of the top level. Interning texts and
  integers keeps that (`Stored.echoes_text`, `Stored.echoes_number`).
-/

namespace ScopeStack

/-- A kind of payload whose table holds what has been put into it. -/
class HeldTable (α : Type) [BEq α] [Interned α] : Prop where
  table_modifyTable (f : InternTable α → InternTable α) (s : Scope) :
    Interned.table (Interned.modifyTable f s) = f (Interned.table s)
  modifyTable_self {f : InternTable α → InternTable α} {s : Scope} :
    f (Interned.table s) = Interned.table s → Interned.modifyTable f s = s

instance : HeldTable String where
  table_modifyTable _ _ := rfl
  modifyTable_self {f s} h := by
    show { s with strings := f s.strings } = s
    rw [show f s.strings = s.strings from h]

instance : HeldTable Number where
  table_modifyTable _ _ := rfl
  modifyTable_self {f s} h := by
    show { s with numbers := f s.numbers } = s
    rw [show f s.numbers = s.numbers from h]

/-- Two kinds of payloads in different tables. -/
class ApartTables (α β : Type) [BEq α] [Interned α] [BEq β] [Interned β] : Prop where
  table_modifyTable (f : InternTable α → InternTable α) (s : Scope) :
    (Interned.table (Interned.modifyTable f s) : InternTable β) = Interned.table s

instance : ApartTables String Number := ⟨fun _ _ => rfl⟩

instance : ApartTables Number String := ⟨fun _ _ => rfl⟩

/-- Nothing but the payload itself counts as equal to it. -/
def Sharp {α : Type} [BEq α] (v : α) : Prop := ∀ w : α, (w == v) = true → w = v

theorem sharp_of_lawful {α : Type} [BEq α] [LawfulBEq α] (v : α) : Sharp v := fun _ h => eq_of_beq h

theorem sharp_big (n : Int) : Sharp (Number.big n) := by
  intro w hw
  cases w with
  | big m => exact congrArg Number.big (eq_of_beq (α := Int) hw)
  | double x => cases hw

namespace Arena

/-! ## 1. Looking along a chain -/

section Payloads

variable {α : Type} [BEq α] [Interned α] {a b : Arena} {k : ScopeId} {h : Handle}

/-- What a scope has under a handle. -/
def payloadAt (a : Arena) (α : Type) [BEq α] [Interned α] (k : ScopeId) (h : Handle) : Option α :=
  (a.get? k).bind fun s => (Interned.table s).get? h

theorem payloadAt_of_get? {s : Scope} (hs : a.get? k = some s) :
    a.payloadAt α k h = (Interned.table s).get? h := by
  rw [payloadAt, hs, Option.bind_some]

theorem payloadAt_of_none (hs : a.get? k = none) : a.payloadAt α k h = none := by
  rw [payloadAt, hs, Option.bind_none]

/-- A change of one scope that leaves its table alone. -/
theorem payloadAt_modify (a : Arena) (id : ScopeId) (f : Scope → Scope)
    (hf : ∀ s, (Interned.table (f s) : InternTable α) = Interned.table s) {k : ScopeId} {h : Handle} :
    (a.modify id f).payloadAt α k h = a.payloadAt α k h := by
  unfold payloadAt
  rw [get?_modify]
  by_cases hk : k = id
  · rw [if_pos hk, hk]
    cases a.get? id with
    | none => rfl
    | some s => rw [Option.map_some, Option.bind_some, Option.bind_some, hf]
  · rw [if_neg hk]

/-- The first payload under a handle in the tables of these scopes. -/
def payloadOn (a : Arena) (α : Type) [BEq α] [Interned α] (ids : List ScopeId) (h : Handle) :
    Option α :=
  ids.findSome? fun k => (a.get? k).bind fun s => (Interned.table s).get? h

theorem payloadOn_cons (ids : List ScopeId) :
    a.payloadOn α (k :: ids) h = (a.payloadAt α k h).or (a.payloadOn α ids h) := by
  unfold payloadOn payloadAt
  rw [List.findSome?_cons]
  cases (a.get? k).bind fun s => (Interned.table s : InternTable α).get? h <;> rfl

theorem resolve_eq_ok_iff {v : α} :
    a.resolve α k h = .ok v ↔ a.payloadOn α (a.chain k) h = some v := by
  unfold resolve payloadOn
  rw [search_eq]
  split
  · rename_i w hw
    rw [hw]
    simp
  · rename_i hw
    rw [hw]
    simp

/-- What a scope has itself is what it resolves. -/
theorem resolve_of_payloadAt (hF : a.Forest) {v : α} (hv : a.payloadAt α k h = some v) :
    a.resolve α k h = .ok v := by
  obtain ⟨s, hs, -⟩ := Option.bind_eq_some_iff.mp hv
  obtain ⟨rest, hrest⟩ := chain_cons hF hs
  rw [resolve_eq_ok_iff, hrest, payloadOn_cons, hv, Option.some_or]

theorem resolve_eq_error (hp : a.payloadOn α (a.chain k) h = none) :
    a.resolve α k h = .error (.notInterned h) := by
  unfold payloadOn at hp
  unfold resolve
  rw [search_eq, hp]

theorem resolve_congr (hchain : b.chain k = a.chain k)
    (hp : b.payloadOn α (a.chain k) h = a.payloadOn α (a.chain k) h) :
    b.resolve α k h = a.resolve α k h := by
  unfold payloadOn at hp
  unfold resolve
  rw [search_eq, search_eq, hchain, hp]

theorem payloadOn_congr {ids : List ScopeId}
    (hids : ∀ j ∈ ids, ((b.get? j).bind fun s => (Interned.table s : InternTable α).get? h) =
      (a.get? j).bind fun s => (Interned.table s : InternTable α).get? h) :
    b.payloadOn α ids h = a.payloadOn α ids h := by
  induction ids with
  | nil => rfl
  | cons j ids ih =>
    have ih := ih fun j hj => hids j (List.mem_cons_of_mem _ hj)
    unfold payloadOn at ih ⊢
    rw [List.findSome?_cons, List.findSome?_cons, ih, hids j List.mem_cons_self]

end Payloads

/-! ## 2. Filling tables -/

section Filling

variable {α : Type} [BEq α] [Interned α]

/-- A change of one scope's table changes what it has. -/
theorem payloadAt_modifyTable [HeldTable α] (a : Arena) (id k : ScopeId) (h j : Handle) (v : α) :
    (a.modify id (Interned.modifyTable (·.insert h v))).payloadAt α k j =
      if k = id ∧ j = h then (a.get? k).map fun _ => (a.payloadAt α k h).getD v
      else a.payloadAt α k j := by
  unfold payloadAt
  rw [get?_modify]
  by_cases hk : k = id
  · subst hk
    cases hs : a.get? k with
    | none => simp
    | some s => simp [HeldTable.table_modifyTable, InternTable.get?_insert]
  · simp [hk]

theorem payloadAt_insertAll [HeldTable α] (a : Arena) (ids : List ScopeId) (k : ScopeId)
    (h j : Handle) (v : α) :
    (a.insertAll ids h v).payloadAt α k j =
      if k ∈ ids ∧ j = h then (a.get? k).map fun _ => (a.payloadAt α k h).getD v
      else a.payloadAt α k j := by
  induction ids generalizing a with
  | nil => simp [insertAll]
  | cons id ids ih =>
    show ((a.modify id (Interned.modifyTable (·.insert h v))).insertAll ids h v).payloadAt α k j = _
    rw [ih, payloadAt_modifyTable, payloadAt_modifyTable, get?_modify]
    by_cases hk : k = id
    · subst hk
      by_cases hj : j = h <;> cases hs : a.get? k <;> simp [hj, hs, payloadAt]
    · simp [hk]

theorem payloadAt_insertAll_apart {β : Type} [BEq β] [Interned β] [ApartTables α β] (a : Arena)
    (ids : List ScopeId) (k : ScopeId) (h j : Handle) (v : α) :
    (a.insertAll ids h v).payloadAt β k j = a.payloadAt β k j := by
  induction ids generalizing a with
  | nil => rfl
  | cons id ids ih =>
    refine (ih _).trans ?_
    unfold payloadAt
    rw [get?_modify]
    by_cases hk : k = id
    · subst hk
      cases hs : a.get? k with
      | none => simp
      | some s => simp [ApartTables.table_modifyTable]
    · rw [if_neg hk]

/-- Without a conflict a table of these scopes has nothing under the handle, or the same content. -/
theorem payloadAt_of_noConflict {a : Arena} {ids : List ScopeId} {v : α} {h : Handle} {k : ScopeId}
    (hc : a.anyConflict ids v h = false) (hk : k ∈ ids) {w : α} (hw : a.payloadAt α k h = some w) :
    (w == v) = true := by
  unfold anyConflict at hc
  rw [List.any_eq_false] at hc
  obtain ⟨s, hs, hsw⟩ := Option.bind_eq_some_iff.mp hw
  have hno := hc k hk
  rw [hs, Option.any_some, InternTable.conflicts, hsw] at hno
  simpa [bne] using hno

/-! ## 3. Interning -/

/-- From `a` to `b` the payload has been put under the handle in all scopes of a chain. -/
structure Stored (a : Arena) (id : ScopeId) (v : α) (h : Handle) (b : Arena) : Prop where
  grows : a.Grows b
  on {k : ScopeId} : k ∈ a.chain id → ∃ w, b.payloadAt α k h = some w ∧ (w = v ∨ (w == v) = true)
  kept {k : ScopeId} {j : Handle} {w : α} : a.payloadAt α k j = some w →
    b.payloadAt α k j = some w
  off {k : ScopeId} {j : Handle} : k ∉ a.chain id ∨ j ≠ h →
    b.payloadAt α k j = a.payloadAt α k j

/-- Filling the tables of a chain under a handle without conflicts stores the payload. -/
theorem insertAll_stored [HeldTable α] [GrowingTable α] {a : Arena} {id : ScopeId} {v : α}
    {h : Handle} (hc : a.anyConflict (a.chain id) v h = false) :
    a.Stored id v h (a.insertAll (a.chain id) h v) where
  grows := insertAll_grows _ _ _ _
  on {k} hk := by
    obtain ⟨t, ht⟩ := get?_of_mem_chain hk
    rw [payloadAt_insertAll, if_pos ⟨hk, rfl⟩, ht, Option.map_some]
    refine ⟨_, rfl, ?_⟩
    cases hw : a.payloadAt α k h with
    | none => exact Or.inl rfl
    | some w => exact Or.inr (payloadAt_of_noConflict hc hk hw)
  kept {k j w} hw := by
    rw [payloadAt_insertAll]
    split
    · rename_i hkj
      obtain ⟨t, ht, -⟩ := Option.bind_eq_some_iff.mp hw
      rw [← hkj.2, hw, ht]
      rfl
    · exact hw
  off {k j} hkj := by
    rw [payloadAt_insertAll, if_neg]
    rintro ⟨hk, hj⟩
    exact hkj.elim (· hk) (· hj)

/-- **Interning stores the payload** wherever the scope is there; the other tables are as they
were. -/
theorem intern_stored [HeldTable α] [GrowingTable α] {a : Arena} (hA : a.Acyclic)
    (hash : α → Handle) {id : ScopeId} (hid : ∃ s, a.get? id = some s) (v : α) :
    ∃ h b, a.intern hash id v = (.ok h, b) ∧ a.Stored id v h b ∧
      ∀ (β : Type) [BEq β] [Interned β] [ApartTables α β] (k : ScopeId) (j : Handle),
        b.payloadAt β k j = a.payloadAt β k j := by
  obtain ⟨s, hs⟩ := hid
  have hne : (a.chain id).isEmpty = false := by
    rw [List.isEmpty_eq_false_iff_exists_mem]
    exact ⟨id, hA.mem_chain_self hs⟩
  refine ⟨a.handleFor hash (a.chain id) v, _, ?_,
    insertAll_stored (a.anyConflict_handleFor hash _ v), fun β _ _ _ k j =>
      payloadAt_insertAll_apart ..⟩
  rw [intern]
  simp only [hne, Bool.false_eq_true, if_false]

/-- A sharp payload is what the whole chain has under its handle. -/
theorem Stored.on_sharp {a b : Arena} {id k : ScopeId} {v : α} {h : Handle}
    (hS : a.Stored id v h b) (hv : Sharp v) (hk : k ∈ a.chain id) :
    b.payloadAt α k h = some v := by
  obtain ⟨w, hw, rfl | he⟩ := hS.on hk
  · exact hw
  · rw [hw, hv w he]

/-- A sharp payload is stored in all tables alike. -/
theorem Stored.repeated {a b : Arena} {id k : ScopeId} {v : α} {h : Handle}
    (hS : a.Stored id v h b) (hv : Sharp v) (hroot : rootScope ∈ a.chain id)
    (hk : ∀ j w, a.payloadAt α k j = some w → a.payloadAt α rootScope j = some w) {j : Handle} {w : α}
    (hw : b.payloadAt α k j = some w) : b.payloadAt α rootScope j = some w := by
  by_cases hon : k ∈ a.chain id ∧ j = h
  · obtain ⟨hmem, rfl⟩ := hon
    rw [hS.on_sharp hv hmem] at hw
    cases hw
    exact hS.on_sharp hv hroot
  · have hoff : k ∉ a.chain id ∨ j ≠ h := by
      by_cases hmem : k ∈ a.chain id
      · exact Or.inr fun hj => hon ⟨hmem, hj⟩
      · exact Or.inl hmem
    rw [hS.off hoff] at hw
    exact hS.kept (hk j w hw)

end Filling

/-! ## 4. Tables that repeat those of the top level -/

/-- What the tables of the scope hold, those of the top level hold as well. -/
structure Echoes (a : Arena) (k : ScopeId) : Prop where
  texts {h : Handle} {v : String} : a.payloadAt String k h = some v →
    a.payloadAt String rootScope h = some v
  numbers {h : Handle} {v : Number} : a.payloadAt Number k h = some v →
    a.payloadAt Number rootScope h = some v

section Echoes

variable {a b : Arena} {id k : ScopeId} {h : Handle}

theorem Echoes.root (a : Arena) : a.Echoes rootScope := ⟨fun h => h, fun h => h⟩

theorem Echoes.of_tables (hE : a.Echoes k)
    (htexts : ∀ k h, b.payloadAt String k h = a.payloadAt String k h)
    (hnumbers : ∀ k h, b.payloadAt Number k h = a.payloadAt Number k h) : b.Echoes k where
  texts {h x} hx := by
    rw [htexts] at hx ⊢
    exact hE.texts hx
  numbers {h x} hx := by
    rw [hnumbers] at hx ⊢
    exact hE.numbers hx

/-- A change of one scope, but not of its tables. -/
theorem Echoes.modify (hE : a.Echoes k) (id : ScopeId) (f : Scope → Scope)
    (hstrings : ∀ s, (f s).strings = s.strings) (hnumbers : ∀ s, (f s).numbers = s.numbers) :
    (a.modify id f).Echoes k :=
  hE.of_tables (fun _ _ => payloadAt_modify a id f hstrings) fun _ _ => payloadAt_modify a id f hnumbers

theorem Stored.echoes_text {text : String} (hS : a.Stored id text h b)
    (hroot : rootScope ∈ a.chain id)
    (hnumbers : ∀ k j, b.payloadAt Number k j = a.payloadAt Number k j) (hE : a.Echoes k) :
    b.Echoes k where
  texts := hS.repeated (sharp_of_lawful text) hroot fun _ _ => hE.texts
  numbers {j x} hx := by
    rw [hnumbers] at hx ⊢
    exact hE.numbers hx

theorem Stored.echoes_number {n : Int} (hS : a.Stored id (Number.big n) h b)
    (hroot : rootScope ∈ a.chain id)
    (htexts : ∀ k j, b.payloadAt String k j = a.payloadAt String k j) (hE : a.Echoes k) :
    b.Echoes k where
  texts {j x} hx := by
    rw [htexts] at hx ⊢
    exact hE.texts hx
  numbers := hS.repeated (sharp_big n) hroot fun _ _ => hE.numbers

end Echoes

end Arena

end ScopeStack
