import Mathlib.Logic.Relation
import ScopeStack.ContentHash
import ScopeStack.Proofs.Still

/-!
# The forest in the life of an arena

An arena begins empty. Scopes are added at the top level or inside a scope that is there, payloads
are interned, blocks become known, and scopes are taken out with all that is below them. Through all
of this the links between scopes stay those of a forest.

* `Arena.Change`, `Arena.Lives`: one step in the life of an arena, and any number of them.
* `Arena.Rooted`: a forest in which the parent of every scope is there. Every step keeps it
  (`Change.succeeds`, `Lives.succeeds`).
* `Arena.Outwards`: the walk from a scope to its parent and on, without a bound. In a forest it
  comes to an end, and what it has passed is the chain (`Forest.outwards_iff`).
* `Lives.stays_forest`: **the arena stays a forest, and an id that is gone is never given again.**
-/

namespace ScopeStack.Arena

/-! ## 1. The steps -/

/-- One step in the life of an arena, for a given way of choosing handles. -/
inductive Change (hash : ContentHash) : Arena → Arena → Prop where
  | createRoot (a : Arena) (operations : OperationTable) :
      Change hash a (a.createRoot operations).2
  | createChild {a : Arena} {parent : ScopeId} (hlive : a.contains parent = true) (shares : Bool) :
      Change hash a (a.createChild parent shares).2
  | internText (a : Arena) (id : ScopeId) (text : String) :
      Change hash a (a.intern hash.text id text).2
  | internNumber (a : Arena) (id : ScopeId) (n : Number) :
      Change hash a (a.intern hash.number id n).2
  | registerBlock (a : Arena) (block : ScopeId) : Change hash a (a.registerBlock block).2
  | discard {a b : Arena} {id : ScopeId} {pools : List PoolId}
      (hd : a.discard id = .ok (pools, b)) : Change hash a b

/-- The second arena is what the first has become. -/
abbrev Lives (hash : ContentHash) : Arena → Arena → Prop := Relation.ReflTransGen (Change hash)

/-! ## 2. Forests that miss no parent -/

/-- A forest in which the parent of every scope is there. -/
structure Rooted (a : Arena) : Prop where
  forest : a.Forest
  parent {k p : ScopeId} {s : Scope} : a.get? k = some s → s.parent = some p →
    ∃ t, a.get? p = some t

theorem rooted_empty : Rooted {} := by
  have hnone (k : ScopeId) (s : Scope) : ({} : Arena).get? k ≠ some s := fun h => by cases h
  exact ⟨⟨fun h => (hnone _ _ h).elim, fun h => (hnone _ _ h).elim,
    fun h => (hnone _ _ h).elim, fun h => (hnone _ _ h).elim⟩, fun h => (hnone _ _ h).elim⟩

section Keeping

variable {a b : Arena}

/-- A scope at the top level that has just been created. -/
def newRoot (stack : StackId) (operations : OperationTable) : Scope :=
  { parent := none, stack, operations }

/-- Whatever is there is the new scope, or was there. -/
theorem get?_createRoot_cases {operations : OperationTable} {k : ScopeId} {t : Scope}
    (ht : (a.createRoot operations).2.get? k = some t) :
    (k = a.lastScope + 1 ∧ t = newRoot (a.lastStack + 1) operations) ∨ a.get? k = some t := by
  rw [createRoot, get?_create] at ht
  split at ht
  · rename_i hk
    exact Or.inl ⟨hk, (Option.some.inj ht).symm⟩
  · exact Or.inr ht

theorem Forest.get?_createRoot_of (hF : a.Forest) (operations : OperationTable) {k : ScopeId}
    {s : Scope} (hs : a.get? k = some s) : (a.createRoot operations).2.get? k = some s := by
  rw [createRoot, get?_create, if_neg fun h => Nat.not_succ_le_self _ (h ▸ hF.le_last hs), hs]

/-- The new scope has neither a parent nor children. -/
theorem Forest.createRoot (hF : a.Forest) (operations : OperationTable) :
    (a.createRoot operations).2.Forest where
  le_last {k t} ht := by
    rcases get?_createRoot_cases ht with ⟨rfl, -⟩ | hs
    · exact Nat.le_refl _
    · exact Nat.le_succ_of_le (hF.le_last hs)
  parent_lt {k p t} ht hp := by
    rcases get?_createRoot_cases ht with ⟨-, rfl⟩ | hs
    · cases hp
    · exact hF.parent_lt hs hp
  of_child {p k t} ht hk := by
    rcases get?_createRoot_cases ht with ⟨-, rfl⟩ | hs
    · exact absurd hk Std.TreeSet.not_mem_emptyc
    · obtain ⟨u, hu, hpu⟩ := hF.of_child hs hk
      exact ⟨u, hF.get?_createRoot_of operations hu, hpu⟩
  to_child {p k t u} hu hpu ht := by
    rcases get?_createRoot_cases hu with ⟨-, rfl⟩ | hu
    · cases hpu
    · rcases get?_createRoot_cases ht with ⟨rfl, -⟩ | ht
      · exact absurd (hF.le_last hu) (Nat.not_le_of_lt (Nat.lt_of_succ_lt (hF.parent_lt hu hpu)))
      · exact hF.to_child hu hpu ht

theorem Rooted.createRoot (hR : a.Rooted) (operations : OperationTable) :
    (a.createRoot operations).2.Rooted := by
  refine ⟨hR.forest.createRoot operations, fun {k p t} ht hp => ?_⟩
  rcases get?_createRoot_cases ht with ⟨-, rfl⟩ | hs
  · cases hp
  · obtain ⟨u, hu⟩ := hR.parent hs hp
    exact ⟨u, hR.forest.get?_createRoot_of operations hu⟩

theorem Rooted.added (hR : a.Rooted) {parent : ScopeId} {shares : Bool} {s : Scope}
    (hs : a.get? parent = some s) (hA : a.Added parent shares b) : b.Rooted := by
  refine ⟨hA.forest hR.forest (hR.forest.le_last hs), fun {k p t} ht hp => ?_⟩
  rcases hA.of_get? ht with ⟨-, rfl⟩ | ⟨u, hu, rfl⟩
  · cases hp
    exact ⟨_, hA.get?_of hR.forest hs⟩
  · obtain ⟨v, hv⟩ := hR.parent hu hp
    exact ⟨_, hA.get?_of hR.forest hv⟩

theorem Rooted.alike (hR : a.Rooted) (hA : a.Alike b) : b.Rooted := by
  refine ⟨hA.forest hR.forest, fun {k p t} ht hp => ?_⟩
  obtain ⟨s, hs, hps, -⟩ := hA.get? ht
  obtain ⟨u, hu⟩ := hR.parent hs (hps ▸ hp)
  obtain ⟨v, hv, -⟩ := hA.get?_of hu
  exact ⟨v, hv⟩

/-- With a scope goes all that is below it, so those that stay keep their parents. -/
theorem Rooted.pruned (hR : a.Rooted) {top : ScopeId} (hP : a.Pruned top b) : b.Rooted := by
  refine ⟨hP.forest hR.forest, fun {k p t} ht hp => ?_⟩
  obtain ⟨hk, s, hs, hts, -⟩ := hP.of_get? ht
  rw [hts] at hp
  obtain ⟨u, hu⟩ := hR.parent hs hp
  obtain ⟨cs, hcs, -⟩ := hP.kept hu fun hc => hk (mem_chain_of_parent hR.forest hs hp hc)
  exact ⟨_, hcs⟩

/-- What becomes known changes, and no scope does. -/
theorem registerBlock_scopes (a : Arena) (block : ScopeId) :
    (a.registerBlock block).2.scopes = a.scopes ∧
      (a.registerBlock block).2.lastScope = a.lastScope := by
  unfold registerBlock
  split
  · exact ⟨rfl, rfl⟩
  · split
    · exact ⟨rfl, rfl⟩
    · exact ⟨rfl, rfl⟩

theorem Rooted.of_scopes (hR : a.Rooted) (hscopes : b.scopes = a.scopes)
    (hlast : b.lastScope = a.lastScope) : b.Rooted := by
  have hget (k : ScopeId) : b.get? k = a.get? k := by rw [get?, get?, hscopes]
  refine ⟨⟨fun hs => ?_, fun hs hp => ?_, fun hs hk => ?_, fun hs hp ht => ?_⟩, fun hs hp => ?_⟩
  · rw [hlast]
    exact hR.forest.le_last (hget _ ▸ hs)
  · exact hR.forest.parent_lt (hget _ ▸ hs) hp
  · obtain ⟨t, ht, hpt⟩ := hR.forest.of_child (hget _ ▸ hs) hk
    exact ⟨t, (hget _).trans ht, hpt⟩
  · exact hR.forest.to_child (hget _ ▸ hs) hp (hget _ ▸ ht)
  · obtain ⟨t, ht⟩ := hR.parent (hget _ ▸ hs) hp
    exact ⟨t, (hget _).trans ht⟩

end Keeping

/-! ## 3. What one step does -/

/-- The second arena misses no parent, ids are given in ascending order, and one that was given and
is nobody's stays nobody's. -/
structure Succeeds (a b : Arena) : Prop where
  rooted : b.Rooted
  lastScope : a.lastScope ≤ b.lastScope
  gone {k : ScopeId} : k ≤ a.lastScope → a.get? k = none → b.get? k = none

namespace Succeeds

variable {a b c : Arena}

theorem refl (hR : a.Rooted) : a.Succeeds a := ⟨hR, Nat.le_refl _, fun _ h => h⟩

theorem trans (hab : a.Succeeds b) (hbc : b.Succeeds c) : a.Succeeds c :=
  ⟨hbc.rooted, Nat.le_trans hab.lastScope hbc.lastScope,
    fun hk h => hbc.gone (Nat.le_trans hk hab.lastScope) (hab.gone hk h)⟩

theorem createRoot (hR : a.Rooted) (operations : OperationTable) :
    a.Succeeds (a.createRoot operations).2 := by
  refine ⟨hR.createRoot operations, Nat.le_succ _, fun {k} hk hs => ?_⟩
  rw [Arena.createRoot, get?_create, if_neg fun h => Nat.not_succ_le_self _ (h ▸ hk), hs]

theorem createChild (hR : a.Rooted) {parent : ScopeId} (hlive : a.contains parent = true)
    (shares : Bool) : a.Succeeds (a.createChild parent shares).2 := by
  obtain ⟨s, hs⟩ := contains_iff.mp hlive
  have hA := (createChild_added (hR.forest.le_last hs) shares).1
  exact ⟨hR.added hs hA, Nat.le_of_lt (hA.lastScope ▸ Nat.lt_succ_self _), hA.get?_none⟩

theorem intern {α : Type} [BEq α] [Interned α] [GrowingTable α] (hR : a.Rooted)
    (hash : α → Handle) (id : ScopeId) (v : α) : a.Succeeds (a.intern hash id v).2 := by
  have hG : a.Grows (a.intern hash id v).2 := (intern_grows rfl).1
  exact ⟨hR.alike hG.still.alike, Nat.le_of_eq hG.lastScope.symm, fun _ => hG.none⟩

theorem registerBlock (hR : a.Rooted) (block : ScopeId) :
    a.Succeeds (a.registerBlock block).2 := by
  obtain ⟨hscopes, hlast⟩ := registerBlock_scopes a block
  refine ⟨hR.of_scopes hscopes hlast, Nat.le_of_eq hlast.symm, fun _ hs => ?_⟩
  rw [get?, hscopes]
  exact hs

theorem discard (hR : a.Rooted) {id : ScopeId} {pools : List PoolId}
    (hd : a.discard id = .ok (pools, b)) : a.Succeeds b := by
  have hP := discard_pruned hR.forest hd
  exact ⟨hR.pruned hP, Nat.le_of_eq hP.lastScope.symm, fun _ => hP.absent⟩

end Succeeds

/-- **Every step keeps the forest and the ids that are gone.** -/
theorem Change.succeeds {hash : ContentHash} {a b : Arena} (hC : Change hash a b)
    (hR : a.Rooted) : a.Succeeds b := by
  cases hC with
  | createRoot operations => exact .createRoot hR operations
  | createChild hlive shares => exact .createChild hR hlive shares
  | internText id text => exact .intern hR hash.text id text
  | internNumber id n => exact .intern hR hash.number id n
  | registerBlock block => exact .registerBlock hR block
  | discard hd => exact .discard hR hd

theorem Lives.succeeds {hash : ContentHash} {a b : Arena} (hL : Lives hash a b)
    (hR : a.Rooted) : a.Succeeds b := by
  induction hL with
  | refl => exact .refl hR
  | tail _ hC ih => exact ih.trans (hC.succeeds ih.rooted)

/-! ## 4. The walk outwards -/

/-- The walk from a scope outwards, with the scopes it passes. Nothing bounds its length. -/
inductive Outwards (a : Arena) : ScopeId → List ScopeId → Prop where
  | gone {id : ScopeId} : a.get? id = none → Outwards a id []
  | top {id : ScopeId} {s : Scope} : a.get? id = some s → s.parent = none → Outwards a id [id]
  | inner {id p : ScopeId} {s : Scope} {ids : List ScopeId} : a.get? id = some s →
      s.parent = some p → Outwards a p ids → Outwards a id (id :: ids)

section Walk

variable {a : Arena}

/-- A walk that comes to an end is the chain, unless it passes a scope twice. -/
theorem Outwards.chain_eq {k : ScopeId} {ids : List ScopeId} (hW : a.Outwards k ids)
    (hnodup : ids.Nodup) : a.chain k = ids := by
  have hlive : ids ⊆ a.scopes.keys := by
    clear hnodup
    induction hW with
    | gone => exact List.nil_subset _
    | top hs => exact List.cons_subset.mpr ⟨mem_keys_of_get? hs, List.nil_subset _⟩
    | inner hs _ _ ih => exact List.cons_subset.mpr ⟨mem_keys_of_get? hs, ih⟩
  have hlen := hnodup.length_le_of_subset hlive
  rw [Std.TreeMap.length_keys] at hlen
  have hupto {n : Nat} (hn : ids.length ≤ n) : a.chainUpTo n k = ids := by
    clear hlen hlive hnodup
    induction hW generalizing n with
    | gone hs =>
      cases n with
      | zero => rfl
      | succ n => rw [chainUpTo, hs]
    | top hs hp =>
      obtain ⟨n, rfl⟩ := Nat.exists_eq_add_of_le' hn
      rw [List.length_singleton, chainUpTo, hs]
      simp only [hp]
    | inner hs hp _ ih =>
      obtain ⟨n, rfl⟩ := Nat.exists_eq_add_of_le' hn
      rw [List.length_cons, ← Nat.add_assoc, chainUpTo, hs]
      simp only [hp]
      rw [ih (Nat.le_add_left _ _)]
  exact hupto hlen

/-- Where chains lead nowhere round the walk comes to an end. -/
theorem Acyclic.outwards (hA : a.Acyclic) (k : ScopeId) : a.Outwards k (a.chain k) := by
  induction k using hA.induction with
  | step k ih =>
    cases hs : a.get? k with
    | none =>
      rw [hA.chain_of_none hs]
      exact .gone hs
    | some s =>
      cases hp : s.parent with
      | none =>
        rw [hA.chain_of_noParent hs hp]
        exact .top hs hp
      | some p =>
        rw [hA.chain_of_parent hs hp]
        exact .inner hs hp (ih s p hs hp)

/-- **The walk comes to an end, and the chain is what it passes.** -/
theorem Forest.outwards_iff (hF : a.Forest) {id : ScopeId} {ids : List ScopeId} :
    a.Outwards id ids ↔ ids = a.chain id := by
  constructor
  · intro hW
    induction hW with
    | gone hs => rw [chain_of_none hF hs]
    | top hs hp => rw [chain_of_noParent hF hs hp]
    | inner hs hp _ ih => rw [chain_of_parent hF hs hp, ih]
  · rintro rfl
    exact hF.acyclic.outwards id

/-- Ids fall along a chain. -/
theorem Forest.chain_falls (hF : a.Forest) (id : ScopeId) : (a.chain id).Pairwise (· > ·) := by
  induction id using Nat.strongRecOn with
  | ind id ih =>
    cases hs : a.get? id with
    | none =>
      rw [chain_of_none hF hs]
      exact .nil
    | some s =>
      cases hp : s.parent with
      | none =>
        rw [chain_of_noParent hF hs hp]
        exact List.pairwise_singleton _ _
      | some p =>
        have hlt := hF.parent_lt hs hp
        rw [chain_of_parent hF hs hp]
        exact .cons (fun k hk => Nat.lt_of_le_of_lt (le_of_mem_chain hF hk) hlt) (ih p hlt)

/-- A chain leads to a scope without a parent. -/
theorem Rooted.getLast?_chain (hR : a.Rooted) {id : ScopeId} {s : Scope}
    (hs : a.get? id = some s) :
    ∃ r t, (a.chain id).getLast? = some r ∧ a.get? r = some t ∧ t.parent = none := by
  induction id using Nat.strongRecOn generalizing s with
  | ind id ih =>
    cases hp : s.parent with
    | none =>
      rw [chain_of_noParent hR.forest hs hp]
      exact ⟨id, s, rfl, hs, hp⟩
    | some p =>
      obtain ⟨u, hu⟩ := hR.parent hs hp
      obtain ⟨r, t, hr, ht⟩ := ih p (hR.forest.parent_lt hs hp) hu
      refine ⟨r, t, ?_, ht⟩
      rw [chain_of_parent hR.forest hs hp, List.getLast?_cons, hr]
      rfl

end Walk

/-! ## 5. The forest -/

/-- **An arena stays a forest all its life.** Parents are there and have smaller ids, links up and
down agree, the walk outwards from a scope ends at a scope without a parent, falling all the way,
what the work list finds below a scope are the scopes with that scope on their chains, and an id
that was somebody's and no longer is stays nobody's. -/
theorem Lives.stays_forest {hash : ContentHash} {a : Arena} (hL : Lives hash {} a) :
    (∀ id s p, a.get? id = some s → s.parent = some p → p < id ∧ a.contains p = true) ∧
    (∀ p s c, a.get? p = some s →
      (c ∈ s.children ↔ ∃ t, a.get? c = some t ∧ t.parent = some p)) ∧
    (∀ id, a.contains id = true →
      (∀ ids, a.Outwards id ids ↔ ids = a.chain id) ∧ (a.chain id).Nodup ∧
      (a.chain id).Pairwise (· > ·) ∧
      ∃ r t, (a.chain id).getLast? = some r ∧ a.get? r = some t ∧ t.parent = none) ∧
    (∀ top k, k ∈ a.subtree top ↔ a.contains k = true ∧ top ∈ a.chain k) ∧
    ∀ b c id, Lives hash a b → Lives hash b c → a.contains id = true →
      b.contains id = false → c.contains id = false := by
  have hR : a.Rooted := (hL.succeeds rooted_empty).rooted
  have hF := hR.forest
  refine ⟨fun id s p hs hp => ?_, fun p s c hs => ?_, fun id hid => ?_, fun top k => ?_,
    fun b c id hab hbc hid hgone => ?_⟩
  · exact ⟨hF.parent_lt hs hp, contains_iff.mpr (hR.parent hs hp)⟩
  · exact ⟨hF.of_child hs, fun ⟨t, ht, hp⟩ => hF.to_child ht hp hs⟩
  · obtain ⟨s, hs⟩ := contains_iff.mp hid
    have hfalls := hF.chain_falls id
    exact ⟨fun _ => hF.outwards_iff, hfalls.imp Nat.ne_of_gt, hfalls, hR.getLast?_chain hs⟩
  · rw [mem_subtree_iff hF]
    refine ⟨fun h => ⟨?_, h⟩, And.right⟩
    obtain ⟨s, hs, -⟩ := mem_chain_cases hF h
    exact contains_iff.mpr ⟨s, hs⟩
  · obtain ⟨s, hs⟩ := contains_iff.mp hid
    have hab := hab.succeeds hR
    have hbc := hbc.succeeds hab.rooted
    rw [contains_eq, Option.isSome_eq_false_iff, Option.isNone_iff_eq_none] at hgone ⊢
    exact hbc.gone (Nat.le_trans (hF.le_last hs) hab.lastScope) hgone

/-- A scope, a block in it, and another block in that. -/
def threeDeep : Arena :=
  let a := (Arena.createRoot {} {}).2
  let a := (a.createChild 1 true).2
  (a.createChild 2 false).2

/-- The same without the block in the middle. -/
def cutShort : Arena := (threeDeep.discard 2).toOption.elim {} (·.2)

/-- The inner block goes with the one around it, and the next block gets another id. -/
theorem Lives.stays_forest_cutShort :
    (3 ∈ threeDeep.subtree 2 ∧ threeDeep.chain 3 = [3, 2, 1]) ∧
      (cutShort.createChild 1 true).2.contains 3 = false ∧
      (cutShort.createChild 1 true).2.contains 4 = true := by
  let hash : ContentHash := ⟨fun _ => 5, fun _ => 7⟩
  have hL : Lives hash {} threeDeep :=
    ((Relation.ReflTransGen.refl.tail (.createRoot _ {})).tail
      (.createChild (by decide +kernel) true)).tail (.createChild (by decide +kernel) false)
  have hcut : Lives hash threeDeep cutShort :=
    .single (.discard (show threeDeep.discard 2 = .ok ([], cutShort) from rfl))
  have hnext : Lives hash cutShort (cutShort.createChild 1 true).2 :=
    .single (.createChild (by decide +kernel) true)
  obtain ⟨-, -, -, hbelow, hnever⟩ := stays_forest hL
  exact ⟨⟨(hbelow 2 3).mpr (by decide +kernel), by decide +kernel⟩,
    hnever _ _ 3 hcut hnext (by decide +kernel) (by decide +kernel), by decide +kernel⟩

end ScopeStack.Arena
