import ScopeStack.Proofs.Interning
import ScopeStack.Proofs.Lineage

/-!
# Resolving from anywhere in a tree

A payload goes into the tables of a whole chain, a block becomes known to a whole chain, and scopes
go with all that is below them. So whatever a scope has, its ancestors have too, and resolving a
handle gives the same answer from every scope of a tree.

* `Arena.Built`: the arenas that come from the empty one by creating scopes, interning texts and
  integers, finishing blocks and discarding scopes.
* `Arena.Nested`: **what a scope has, its parent has too.** Every step keeps it (`Built.nested`).
* `Built.resolve_agree`: **two scopes of one tree resolve every handle alike.**
-/

namespace ScopeStack.Arena

/-! ## 1. The steps -/

/-- The arenas that come from the empty one, for a given way of choosing handles. -/
inductive Built (hash : ContentHash) : Arena → Prop where
  | empty : Built hash {}
  | createRoot {a : Arena} (operations : OperationTable) :
      Built hash a → Built hash (a.createRoot operations).2
  | createChild {a : Arena} {parent : ScopeId} (shares : Bool) :
      Built hash a → a.contains parent = true → Built hash (a.createChild parent shares).2
  | internText {a : Arena} (id : ScopeId) (text : String) :
      Built hash a → Built hash (a.intern hash.text id text).2
  | internBig {a : Arena} (id : ScopeId) (n : Int) :
      Built hash a → Built hash (a.intern hash.number id (.big n)).2
  | registerBlock {a : Arena} (block : ScopeId) :
      Built hash a → Built hash (a.registerBlock block).2
  | discard {a b : Arena} {id : ScopeId} {pools : List PoolId} :
      Built hash a → a.discard id = .ok (pools, b) → Built hash b

/-! ## 2. The invariant -/

/-- The parent has what the scope has. -/
structure NestedTables (a : Arena) (α : Type) [BEq α] [Interned α] : Prop where
  up {k p : ScopeId} {s : Scope} {h : Handle} {v : α} : a.get? k = some s → s.parent = some p →
    a.payloadAt α k h = some v → a.payloadAt α p h = some v

/-- What a scope has or knows, its parent has or knows too. -/
structure Nested (a : Arena) : Prop where
  forest : a.Forest
  /-- The parent of a scope is there. -/
  parent {k p : ScopeId} {s : Scope} : a.get? k = some s → s.parent = some p →
    ∃ t, a.get? p = some t
  texts : a.NestedTables String
  numbers : a.NestedTables Number
  known {h k p : ScopeId} {s t : Scope} : a.get? h = some t → k ∈ a.scopesKnowing h →
    a.get? k = some s → s.parent = some p → p ∈ a.scopesKnowing h
  known_le {h k : ScopeId} : k ∈ a.scopesKnowing h → h ≤ a.lastScope ∧ k ≤ a.lastScope

theorem Nested.rooted {a : Arena} (hN : a.Nested) : a.Rooted := ⟨hN.forest, hN.parent⟩

theorem nested_empty : Nested {} := by
  have hnone (k : ScopeId) (s : Scope) : ({} : Arena).get? k ≠ some s := fun h => by cases h
  have hknown (h k : ScopeId) : k ∉ ({} : Arena).scopesKnowing h := fun hk => by cases hk
  exact
    { forest := rooted_empty.forest
      parent := rooted_empty.parent
      texts := ⟨fun h => (hnone _ _ h).elim⟩
      numbers := ⟨fun h => (hnone _ _ h).elim⟩
      known := fun h => (hnone _ _ h).elim
      known_le := fun h => (hknown _ _ h).elim }

/-! ## 3. Scopes come and go -/

/-- The scopes of `b` are scopes of `a` with the tables they had, and new ones with empty tables. -/
structure Resettles (a b : Arena) : Prop where
  forest : b.Forest
  parent {k p : ScopeId} {t : Scope} : b.get? k = some t → t.parent = some p →
    ∃ u, b.get? p = some u
  of_get? {k : ScopeId} {t : Scope} : b.get? k = some t →
    (∃ s, a.get? k = some s ∧ t.parent = s.parent ∧ t.strings = s.strings ∧
      t.numbers = s.numbers) ∨
    (a.lastScope < k ∧ t.strings = {} ∧ t.numbers = {})
  known {h : ScopeId} {t : Scope} : b.get? h = some t → b.scopesKnowing h = a.scopesKnowing h
  knownTo {h k : ScopeId} : k ∈ b.scopesKnowing h → k ∈ a.scopesKnowing h
  lastScope : a.lastScope ≤ b.lastScope

section Resettles

variable {a b : Arena}

/-- Nested tables stay nested where every scope keeps its table or has an empty one. -/
theorem NestedTables.resettle {α : Type} [BEq α] [Interned α] (hN : a.NestedTables α)
    (hparent : ∀ {k p t}, b.get? k = some t → t.parent = some p → ∃ u, b.get? p = some u)
    (htable : ∀ {k t}, b.get? k = some t →
      (∃ s, a.get? k = some s ∧ t.parent = s.parent ∧
        (Interned.table t : InternTable α) = Interned.table s) ∨
      (a.get? k = none ∧ (Interned.table t : InternTable α) = {})) :
    b.NestedTables α := by
  refine ⟨fun {k p t h v} ht hp hv => ?_⟩
  rw [payloadAt_of_get? ht] at hv
  rcases htable ht with ⟨s, hs, hps, hts⟩ | ⟨-, hempty⟩
  · rw [hts, ← payloadAt_of_get? hs] at hv
    have hpv : a.payloadAt α p h = some v := hN.up hs (hps ▸ hp) hv
    obtain ⟨r, hr, hrv⟩ := Option.bind_eq_some_iff.mp hpv
    obtain ⟨u, hu⟩ := hparent ht hp
    rw [payloadAt_of_get? hu]
    rcases htable hu with ⟨r', hr', -, hur⟩ | ⟨hnone, -⟩
    · cases hr.symm.trans hr'
      rw [hur, hrv]
    · cases hr.symm.trans hnone
  · rw [hempty] at hv
    cases hv

theorem Nested.resettle (hN : a.Nested) (hR : a.Resettles b) : b.Nested where
  forest := hR.forest
  parent := hR.parent
  texts := hN.texts.resettle hR.parent fun ht =>
    (hR.of_get? ht).imp (fun ⟨s, hs, hp, htext, _⟩ => ⟨s, hs, hp, htext⟩)
      fun ⟨hlt, hempty, _⟩ => ⟨hN.forest.get?_of_last_lt hlt, hempty⟩
  numbers := hN.numbers.resettle hR.parent fun ht =>
    (hR.of_get? ht).imp (fun ⟨s, hs, hp, _, hnumber⟩ => ⟨s, hs, hp, hnumber⟩)
      fun ⟨hlt, _, hempty⟩ => ⟨hN.forest.get?_of_last_lt hlt, hempty⟩
  known {h k p s t} ht hk hs hp := by
    have hk' := hR.knownTo hk
    rw [hR.known ht]
    rcases hR.of_get? ht with ⟨t', ht', -⟩ | ⟨hlt, -⟩
    · rcases hR.of_get? hs with ⟨s', hs', hps, -⟩ | ⟨hlt, -⟩
      · exact hN.known ht' hk' hs' (hps ▸ hp)
      · exact absurd (hN.known_le hk').2 (Nat.not_le_of_lt hlt)
    · exact absurd (hN.known_le hk').1 (Nat.not_le_of_lt hlt)
  known_le hk := by
    obtain ⟨hh, hk⟩ := hN.known_le (hR.knownTo hk)
    exact ⟨Nat.le_trans hh hR.lastScope, Nat.le_trans hk hR.lastScope⟩

theorem Nested.createRoot (hN : a.Nested) (operations : OperationTable) :
    (a.createRoot operations).2.Nested := by
  have hR := hN.rooted.createRoot operations
  refine hN.resettle ⟨hR.forest, hR.parent, ?_, fun _ => rfl, fun h => h, Nat.le_succ _⟩
  intro k t ht
  rcases get?_createRoot_cases ht with ⟨rfl, rfl⟩ | hs
  · exact Or.inr ⟨Nat.lt_succ_self _, rfl, rfl⟩
  · exact Or.inl ⟨t, hs, rfl, rfl, rfl⟩

theorem Nested.createChild (hN : a.Nested) {parent : ScopeId} (shares : Bool)
    (hlive : a.contains parent = true) : (a.createChild parent shares).2.Nested := by
  obtain ⟨s, hs⟩ := contains_iff.mp hlive
  have hA := (createChild_added (hN.forest.le_last hs) shares).1
  have hR := hN.rooted.added hs hA
  refine hN.resettle ⟨hR.forest, hR.parent, ?_, fun _ => hA.known _, fun {h k} hk => ?_, ?_⟩
  · intro k t ht
    rcases hA.of_get? ht with ⟨rfl, rfl⟩ | ⟨u, hu, rfl⟩
    · exact Or.inr ⟨Nat.lt_succ_self _, rfl, rfl⟩
    · exact Or.inl ⟨u, hu, rfl, rfl, rfl⟩
  · exact hA.known h ▸ hk
  · exact Nat.le_of_lt (hA.lastScope ▸ Nat.lt_succ_self _)

theorem Nested.discard (hN : a.Nested) {id : ScopeId} {pools : List PoolId}
    (hd : a.discard id = .ok (pools, b)) : b.Nested := by
  have hP := discard_pruned hN.forest hd
  have hR := hN.rooted.pruned hP
  refine hN.resettle ⟨hR.forest, hR.parent, ?_, ?_, hP.knownTo, Nat.le_of_eq hP.lastScope.symm⟩
  · intro k t ht
    obtain ⟨-, s, hs, hts, -⟩ := hP.of_get? ht
    rw [hts]
    exact Or.inl ⟨s, hs, rfl, rfl, rfl⟩
  · intro h t ht
    exact hP.known (hP.of_get? ht).1

end Resettles

/-! ## 4. Payloads and blocks -/

section Contents

variable {a b : Arena}

/-- **A payload goes to the parent of every scope it goes to**, and no scope of the chain had other
content under its handle. -/
theorem NestedTables.stored {α : Type} [BEq α] [Interned α] (hF : a.Forest)
    (hparent : ∀ {k p s}, a.get? k = some s → s.parent = some p → ∃ t, a.get? p = some t)
    (hN : a.NestedTables α) {id : ScopeId} {v : α} {h : Handle} (hS : a.Stored id v h b)
    (hv : Sharp v) : b.NestedTables α := by
  refine ⟨fun {k p t j w} ht hp hw => ?_⟩
  obtain ⟨s, hs, hts⟩ := hS.grows.still.get? ht
  have hps : s.parent = some p := Scope.eq_of_core (·.parent) (fun _ => rfl) hts ▸ hp
  by_cases hkj : k ∈ a.chain id ∧ j = h
  · obtain ⟨hk, rfl⟩ := hkj
    rw [hS.on_sharp hv hk] at hw
    cases hw
    obtain ⟨u, hu⟩ := hparent hs hps
    have hpk : p ∈ a.chain k := mem_chain_of_parent hF hs hps (mem_chain_self hF hu)
    exact hS.on_sharp hv (mem_chain_trans hF hpk hk)
  · rw [hS.off (Decidable.not_and_iff_or_not.mp hkj)] at hw
    exact hS.kept (hN.up hs hps hw)

theorem NestedTables.apart {α : Type} [BEq α] [Interned α] (hN : a.NestedTables α)
    (hG : a.Grows b) (hat : ∀ k j, b.payloadAt α k j = a.payloadAt α k j) : b.NestedTables α := by
  refine ⟨fun {k p t j w} ht hp hw => ?_⟩
  obtain ⟨s, hs, hts⟩ := hG.still.get? ht
  have hps : s.parent = some p := Scope.eq_of_core (·.parent) (fun _ => rfl) hts ▸ hp
  rw [hat] at hw ⊢
  exact hN.up hs hps hw

/-- Growing tables leave all but the tables as it is. -/
theorem Nested.grows (hN : a.Nested) (hG : a.Grows b) (htexts : b.NestedTables String)
    (hnumbers : b.NestedTables Number) : b.Nested where
  forest := hG.still.alike.forest hN.forest
  parent := (hN.rooted.alike hG.still.alike).parent
  texts := htexts
  numbers := hnumbers
  known {h k p s t} ht hk hs hp := by
    rw [hG.still.scopesKnowing] at hk ⊢
    obtain ⟨t', ht', -⟩ := hG.still.get? ht
    obtain ⟨s', hs', hss⟩ := hG.still.get? hs
    exact hN.known ht' hk hs' (Scope.eq_of_core (·.parent) (fun _ => rfl) hss ▸ hp)
  known_le {h k} hk := by
    rw [hG.still.scopesKnowing] at hk
    rw [hG.lastScope]
    exact hN.known_le hk

/-- Nothing is interned from a scope that is gone. -/
theorem Acyclic.intern_gone {α : Type} [BEq α] [Interned α] (hA : a.Acyclic) {id : ScopeId}
    (hs : a.get? id = none) (hash : α → Handle) (v : α) :
    a.intern hash id v = (.error (.scopeGone id), a) := by
  rw [intern, hA.chain_of_none hs]
  rfl

theorem Nested.internText (hN : a.Nested) (hash : String → Handle) (id : ScopeId) (text : String) :
    (a.intern hash id text).2.Nested := by
  cases hs : a.get? id with
  | none => rwa [hN.forest.acyclic.intern_gone hs]
  | some s =>
    obtain ⟨h, b, hi, hS, hapart⟩ := intern_stored hN.forest.acyclic hash ⟨s, hs⟩ text
    rw [hi]
    exact hN.grows hS.grows (hN.texts.stored hN.forest hN.parent hS (sharp_of_lawful text))
      (hN.numbers.apart hS.grows (hapart Number))

theorem Nested.internBig (hN : a.Nested) (hash : Number → Handle) (id : ScopeId) (n : Int) :
    (a.intern hash id (.big n)).2.Nested := by
  cases hs : a.get? id with
  | none => rwa [hN.forest.acyclic.intern_gone hs]
  | some s =>
    obtain ⟨h, b, hi, hS, hapart⟩ := intern_stored hN.forest.acyclic hash ⟨s, hs⟩ (Number.big n)
    rw [hi]
    exact hN.grows hS.grows (hN.texts.apart hS.grows (hapart String))
      (hN.numbers.stored hN.forest hN.parent hS (sharp_big n))

/-- **A block becomes known to the parent of every scope it becomes known to.** -/
theorem Nested.registerBlock (hN : a.Nested) (block : ScopeId) :
    (a.registerBlock block).2.Nested := by
  unfold Arena.registerBlock
  cases hs : a.get? block with
  | none => rwa [get_eq_error.mpr ⟨hs, rfl⟩]
  | some s =>
    rw [get_eq_ok.mpr hs]
    cases hp : s.parent with
    | none => simpa only [hp] using hN
    | some parent =>
      simp only [hp]
      refine ⟨⟨hN.forest.le_last, hN.forest.parent_lt, hN.forest.of_child, hN.forest.to_child⟩,
        hN.parent, ⟨hN.texts.up⟩, ⟨hN.numbers.up⟩, fun {h k p t u} hu hk ht hpt => ?_,
        fun {h k} hk => ?_⟩
      · rw [mem_scopesKnowing_makeKnown] at hk ⊢
        rcases hk with hk | ⟨rfl, hk⟩
        · exact Or.inl (hN.known hu hk ht hpt)
        · obtain ⟨v, hv⟩ := hN.parent ht hpt
          have hpk := mem_chain_of_parent hN.forest ht hpt (mem_chain_self hN.forest hv)
          exact Or.inr ⟨rfl, mem_chain_trans hN.forest hpk hk⟩
      · rw [mem_scopesKnowing_makeKnown] at hk
        rcases hk with hk | ⟨rfl, hk⟩
        · exact hN.known_le hk
        · have hparent := hN.forest.parent_lt hs hp
          refine ⟨hN.forest.le_last hs, ?_⟩
          exact Nat.le_trans (le_of_mem_chain hN.forest hk)
            (Nat.le_trans (Nat.le_of_lt hparent) (hN.forest.le_last hs))

end Contents

/-- Every step keeps the arena nested. -/
theorem Built.nested {hash : ContentHash} {a : Arena} (hB : Built hash a) : a.Nested := by
  induction hB with
  | empty => exact nested_empty
  | createRoot operations _ ih => exact ih.createRoot operations
  | createChild shares _ hlive ih => exact ih.createChild shares hlive
  | internText id text _ ih => exact ih.internText hash.text id text
  | internBig id n _ ih => exact ih.internBig hash.number id n
  | registerBlock block _ ih => exact ih.registerBlock block
  | discard _ hd ih => exact ih.discard hd

/-! ## 5. Resolving -/

section Resolving

variable {a : Arena}

/-- What a scope has, everything on its chain has. -/
theorem NestedTables.on_chain {α : Type} [BEq α] [Interned α] (hF : a.Forest)
    (hN : a.NestedTables α) {r k : ScopeId} (hr : r ∈ a.chain k) {h : Handle} {v : α}
    (hv : a.payloadAt α k h = some v) : a.payloadAt α r h = some v := by
  induction k using Nat.strongRecOn with
  | ind k ih =>
    obtain ⟨s, hs, rfl | ⟨p, hp, hrp⟩⟩ := mem_chain_cases hF hr
    · exact hv
    · exact ih p (hF.parent_lt hs hp) hrp (hN.up hs hp hv)

/-- A scope resolves what its parent resolves. -/
theorem NestedTables.resolve_parent {α : Type} [BEq α] [Interned α] (hF : a.Forest)
    (hN : a.NestedTables α) {k p : ScopeId} {s t : Scope} (hs : a.get? k = some s)
    (hp : s.parent = some p) (ht : a.get? p = some t) (h : Handle) :
    a.resolve α k h = a.resolve α p h := by
  have hsame : a.payloadOn α (a.chain k) h = a.payloadOn α (a.chain p) h := by
    rw [chain_of_parent hF hs hp, payloadOn_cons]
    cases hv : a.payloadAt α k h with
    | none => rw [Option.none_or]
    | some v =>
      obtain ⟨rest, hrest⟩ := chain_cons hF ht
      rw [hrest, payloadOn_cons, hN.up hs hp hv, Option.some_or, Option.some_or]
  cases hv : a.payloadOn α (a.chain p) h with
  | none => rw [resolve_eq_error (hsame.trans hv), resolve_eq_error hv]
  | some v => rw [resolve_eq_ok_iff.mpr (hsame.trans hv), resolve_eq_ok_iff.mpr hv]

/-- A scope finds the blocks that its parent finds. -/
theorem Nested.resolveBlock_parent (hN : a.Nested) {k p : ScopeId} {s : Scope}
    (hs : a.get? k = some s) (hp : s.parent = some p) (h : Handle) :
    a.resolveBlock k h = a.resolveBlock p h := by
  unfold resolveBlock
  simp only [chain_of_parent hN.forest hs hp, List.any_cons]
  cases hc : a.contains h with
  | false => rfl
  | true =>
    by_cases hk : k ∈ a.scopesKnowing h
    · obtain ⟨t, ht⟩ := contains_iff.mp hc
      obtain ⟨u, hu⟩ := hN.parent hs hp
      have hany : (a.chain p).any ((a.scopesKnowing h).contains ·) = true :=
        List.any_eq_true.mpr ⟨p, mem_chain_self hN.forest hu,
          List.contains_iff_mem.mpr (hN.known ht hk hs hp)⟩
      simp only [hany, Bool.or_true]
    · have hk' : (a.scopesKnowing h).contains k = false := by simpa using hk
      simp only [hk', Bool.false_or]

/-- A scope resolves what a scope around it resolves. -/
theorem Nested.resolve_of_mem_chain (hN : a.Nested) {r k : ScopeId} (hr : r ∈ a.chain k)
    (h : Handle) :
    a.resolve String k h = a.resolve String r h ∧ a.resolve Number k h = a.resolve Number r h ∧
      a.resolveBlock k h = a.resolveBlock r h := by
  induction k using Nat.strongRecOn with
  | ind k ih =>
    obtain ⟨s, hs, rfl | ⟨p, hp, hrp⟩⟩ := mem_chain_cases hN.forest hr
    · exact ⟨rfl, rfl, rfl⟩
    · obtain ⟨htext, hnumber, hblock⟩ := ih p (hN.forest.parent_lt hs hp) hrp
      obtain ⟨t, ht⟩ := hN.parent hs hp
      exact ⟨(hN.texts.resolve_parent hN.forest hs hp ht h).trans htext,
        (hN.numbers.resolve_parent hN.forest hs hp ht h).trans hnumber,
        (hN.resolveBlock_parent hs hp h).trans hblock⟩

/-- **Resolving does not depend on where it starts.** Whatever a scope has under a handle, all
scopes around it have, and two scopes below a common one resolve every handle alike. -/
theorem Built.resolve_agree {hash : ContentHash} (hB : Built hash a) :
    (∀ k r h, r ∈ a.chain k →
      (∀ text, a.payloadAt String k h = some text → a.payloadAt String r h = some text) ∧
      ∀ n, a.payloadAt Number k h = some n → a.payloadAt Number r h = some n) ∧
    ∀ x y r, r ∈ a.chain x → r ∈ a.chain y → ∀ h,
      a.resolve String x h = a.resolve String y h ∧
      a.resolve Number x h = a.resolve Number y h ∧
      a.resolveBlock x h = a.resolveBlock y h := by
  have hN := hB.nested
  refine ⟨fun k r h hr => ⟨fun _ => hN.texts.on_chain hN.forest hr,
    fun _ => hN.numbers.on_chain hN.forest hr⟩, fun x y r hx hy h => ?_⟩
  obtain ⟨hxt, hxn, hxb⟩ := hN.resolve_of_mem_chain hx h
  obtain ⟨hyt, hyn, hyb⟩ := hN.resolve_of_mem_chain hy h
  exact ⟨hxt.trans hyt.symm, hxn.trans hyn.symm, hxb.trans hyb.symm⟩

/-- Two blocks side by side, each with a text of its own, both texts hashed alike. -/
def twoBlocks : Arena :=
  let a := (Arena.createRoot {} {}).2
  let a := (a.createChild 1 true).2
  let a := (a.createChild 1 false).2
  let a := (a.intern (fun _ : String => 5) 2 "left").2
  (a.intern (fun _ : String => 5) 3 "right").2

theorem Built.resolve_agree_siblings :
    twoBlocks.resolve String 3 5 = twoBlocks.resolve String 2 5 ∧
      twoBlocks.resolve String 2 5 = .ok "left" ∧ twoBlocks.payloadAt String 3 5 = none := by
  have hB : Built ⟨fun _ => 5, fun _ => 7⟩ twoBlocks :=
    (((Built.empty.createRoot {}).createChild true (by decide +kernel)).createChild false
      (by decide +kernel)).internText 2 "left" |>.internText 3 "right"
  exact ⟨((resolve_agree hB).2 3 2 1 (by decide +kernel) (by decide +kernel) 5).1,
    resolve_eq_ok_iff.mpr (by decide +kernel), by decide +kernel⟩

end Resolving

end ScopeStack.Arena
