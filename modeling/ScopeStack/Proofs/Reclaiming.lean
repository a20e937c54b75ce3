import ScopeStack.Proofs.Nesting

/-!
# Reclaiming a scope that nothing refers to

A scope that nothing refers to can be taken out: what goes are the scopes with it on their chains,
and for those that stay nothing is missing. They hold no block that went, they resolve what they
resolved, and their ancestors have forgotten the blocks that went.

* `Arena.WellFormed`: the parents of all scopes are there, links agree and lead nowhere round, and a
  finished block is known all the way out. Every arena that comes from the empty one is like that
  (`Lives.wellFormed`).
* `Reclaimed.scopesKnowing_of_gone`, `Reclaimed.wellFormed`: the blocks that went are known nowhere.
* `Reclaimed.resolve_kept`, `Reclaimed.resolveBlock_kept`: what resolves does so as before.
* `WellFormed.discard_exact`: **taking out an unreferenced scope is exact and harmless.**
-/

namespace ScopeStack.Arena

/-! ## 1. Well-formed arenas -/

/-- A forest of scopes that are there, in which the blocks that are known are known to all around
them. Nothing is said of the order of the ids. -/
structure WellFormed (a : Arena) : Prop where
  branching : a.Branching
  /-- The parent of a scope is there. -/
  parent {k p : ScopeId} {s : Scope} : a.get? k = some s → s.parent = some p →
    ∃ t, a.get? p = some t
  /-- Only the scopes around a block know it. -/
  known_around {h k : ScopeId} : k ∈ a.scopesKnowing h → k ∈ a.chain h ∧ k ≠ h
  /-- If one of them knows it, all do. -/
  known_to_all {h j k : ScopeId} : j ∈ a.scopesKnowing h → k ∈ a.chain h → k ≠ h →
    k ∈ a.scopesKnowing h

theorem Rooted.wellFormed {a : Arena} (hR : a.Rooted)
    (haround : ∀ {h k}, k ∈ a.scopesKnowing h → k ∈ a.chain h ∧ k ≠ h)
    (hall : ∀ {h j k}, j ∈ a.scopesKnowing h → k ∈ a.chain h → k ≠ h → k ∈ a.scopesKnowing h) :
    a.WellFormed := ⟨hR.forest.branching, hR.parent, haround, hall⟩

/-! ## 2. After a removal -/

section Reclaimed

variable {a b : Arena} {top : ScopeId} (hR : a.Reclaimed top b)
include hR

/-- What stays is there as it was, except that the parent has lost a child. -/
theorem Reclaimed.get?_kept {r : Scope} (hB : a.Branching) (hr : a.get? top = some r)
    {k : ScopeId} {s : Scope} (hs : a.get? k = some s) (hk : top ∉ a.chain k) :
    b.get? k = some (if r.parent = some k then s.removeChild top else s) := by
  rw [hR.get?, if_neg hk, hs, Option.map_some]
  simp only [hB.mem_children_iff hr hs]

theorem Reclaimed.contains_iff (k : ScopeId) :
    b.contains k = true ↔ a.contains k = true ∧ top ∉ a.chain k := by
  rw [contains_eq, contains_eq, hR.get?]
  split
  · rename_i hk
    simp [hk]
  · rename_i hk
    simp [hk]

/-- The blocks that went are known nowhere: whoever knew one was around it, so inside what went or
around that. -/
theorem Reclaimed.scopesKnowing_of_gone (hW : a.WellFormed) {h : ScopeId}
    (hh : top ∈ a.chain h) : b.scopesKnowing h = [] := by
  rw [hR.scopesKnowing, if_pos hh, List.filter_eq_nil_iff]
  intro k hk hstays
  obtain ⟨hin, hout⟩ := of_decide_eq_true hstays
  exact (hW.branching.acyclic.mem_chain_linear hh (hW.known_around hk).1).elim hin hout

theorem Reclaimed.wellFormed (hW : a.WellFormed) : b.WellFormed := by
  have hP := hR.pruned
  have hchain {h : ScopeId} {k : ScopeId} (hk : k ∈ b.scopesKnowing h) :
      b.scopesKnowing h = a.scopesKnowing h ∧ b.chain h = a.chain h := by
    have hh : top ∉ a.chain h := fun hc => by
      rw [hR.scopesKnowing_of_gone hW hc] at hk
      cases hk
    exact ⟨hP.known hh, hP.chain_kept hW.branching hh⟩
  refine ⟨hP.branching hW.branching, fun {k p t} ht hp => ?_, fun {h k} hk => ?_,
    fun {h j k} hj hk hne => ?_⟩
  · obtain ⟨hk, s, hs, hts, -⟩ := hP.of_get? ht
    rw [hts] at hp
    obtain ⟨u, hu⟩ := hW.parent hs hp
    obtain ⟨cs, hcs, -⟩ := hP.kept hu fun hc =>
      hk (hW.branching.acyclic.mem_chain_of_parent hs hp hc)
    exact ⟨_, hcs⟩
  · obtain ⟨hsame, hline⟩ := hchain hk
    rw [hsame] at hk
    rw [hline]
    exact hW.known_around hk
  · obtain ⟨hsame, hline⟩ := hchain hj
    rw [hsame] at hj ⊢
    rw [hline] at hk
    exact hW.known_to_all hj hk hne

/-- A scope that stays resolves what it resolved. -/
theorem Reclaimed.resolve_kept {α : Type} [BEq α] [Interned α]
    (htable : ∀ s : Scope, (Interned.table (s.removeChild top) : InternTable α) = Interned.table s)
    (hB : a.Branching) {k : ScopeId} (hk : top ∉ a.chain k) (h : Handle) :
    b.resolve α k h = a.resolve α k h := by
  refine resolve_congr (hR.pruned.chain_kept hB hk) (payloadOn_congr fun j hj => ?_)
  have hj : top ∉ a.chain j := fun hc => hk (hB.acyclic.mem_chain_trans hc hj)
  rw [hR.get?, if_neg hj]
  cases a.get? j with
  | none => rfl
  | some s =>
    rw [Option.map_some, Option.bind_some, Option.bind_some]
    split
    · rw [htable]
    · rfl

/-- It finds the blocks that it found, if they stay. -/
theorem Reclaimed.resolveBlock_kept (hB : a.Branching) {k h : ScopeId} (hk : top ∉ a.chain k)
    (hh : top ∉ a.chain h) : b.resolveBlock k h = a.resolveBlock k h := by
  have hthere : b.contains h = a.contains h := by
    rw [Bool.eq_iff_iff, hR.contains_iff]
    exact ⟨And.left, fun h => ⟨h, hh⟩⟩
  unfold resolveBlock
  simp only [hthere, hR.pruned.known hh, hR.pruned.chain_kept hB hk]

/-- Nobody finds a block that went. -/
theorem Reclaimed.resolveBlock_gone {h : ScopeId} (hh : top ∈ a.chain h) (k : ScopeId) :
    b.resolveBlock k h = .error (.notInterned h) := by
  have hthere : b.contains h = false := by
    rw [← Bool.not_eq_true, hR.contains_iff]
    exact fun hc => hc.2 hh
  unfold resolveBlock
  simp only [hthere, Bool.false_and, Bool.false_eq_true, if_false]

/-- A scope that stays forgets only what went, and only if it was around that. -/
theorem Reclaimed.forgets (hW : a.WellFormed) {k h : ScopeId} (hk : top ∉ a.chain k)
    (hknew : k ∈ a.scopesKnowing h) (hforgot : k ∉ b.scopesKnowing h) :
    top ∈ a.chain h ∧ k ∈ a.chain top ∧ k ≠ top := by
  have hh : top ∈ a.chain h := Decidable.byContradiction fun hno =>
    hforgot ((hR.pruned.known hno).symm ▸ hknew)
  have hout : k ∈ a.chain top :=
    (hW.branching.acyclic.mem_chain_linear hh (hW.known_around hknew).1).resolve_left hk
  refine ⟨hh, hout, fun he => hk ?_⟩
  obtain ⟨s, hs⟩ := get?_of_mem_chain hh
  rw [he]
  exact hW.branching.acyclic.mem_chain_self hs

end Reclaimed

/-- The pools of these scopes. -/
theorem mem_poolsOf {a : Arena} {ids : ScopeSet} {pool : PoolId} :
    pool ∈ a.poolsOf ids ↔ ∃ k s, k ∈ ids ∧ a.get? k = some s ∧ s.pool = some pool := by
  rw [poolsOf, List.mem_filterMap]
  constructor
  · rintro ⟨k, hk, hpool⟩
    obtain ⟨s, hs, hpool⟩ := Option.bind_eq_some_iff.mp hpool
    exact ⟨k, s, Std.TreeSet.mem_toList.mp hk, hs, hpool⟩
  · rintro ⟨k, s, hk, hs, hpool⟩
    exact ⟨k, Std.TreeSet.mem_toList.mpr hk, Option.bind_eq_some_iff.mpr ⟨s, hs, hpool⟩⟩

/-! ## 3. In the life of an arena -/

section Growth

variable {a b : Arena}

/-- Scopes that stay where they are, and new ones, as long as what is known is the same. -/
theorem WellFormed.extend (hW : a.WellFormed) (hR : b.Rooted)
    (hget : ∀ {k s}, a.get? k = some s → ∃ t, b.get? k = some t ∧ t.parent = s.parent)
    (hknown : ∀ h, b.scopesKnowing h = a.scopesKnowing h) : b.WellFormed := by
  have hA := hW.branching.acyclic
  have hchain {h k : ScopeId} (hk : k ∈ a.chain h) : b.chain h = a.chain h := by
    refine hA.chain_congr hR.forest.acyclic (P := fun j => ∃ s, a.get? j = some s)
      (fun j ⟨s, hs⟩ => ?_) (fun j p _ ⟨s, hs, hp⟩ => hW.parent hs hp) ?_
    · obtain ⟨t, ht, hpt⟩ := hget hs
      rw [hs, ht, Option.map_some, Option.map_some, hpt]
    · obtain ⟨s, hs, -⟩ := hA.mem_chain_cases hk
      exact ⟨s, hs⟩
  refine hR.wellFormed (fun {h k} hk => ?_) fun {h j k} hj hk hne => ?_
  · rw [hknown] at hk
    rw [hchain (hW.known_around hk).1]
    exact hW.known_around hk
  · rw [hknown] at hj ⊢
    rw [hchain (hW.known_around hj).1] at hk
    exact hW.known_to_all hj hk hne

theorem WellFormed.grows (hW : a.WellFormed) (hR : a.Rooted) (hG : a.Grows b) : b.WellFormed := by
  refine hW.extend (hR.alike hG.still.alike) (fun {k s} hs => ?_) hG.still.scopesKnowing
  obtain ⟨t, ht, hpt, -⟩ := hG.still.alike.get?_of hs
  exact ⟨t, ht, hpt⟩

/-- A finished block becomes known to all around it, and to nobody else. -/
theorem WellFormed.registerBlock (hW : a.WellFormed) (hR : a.Rooted) (block : ScopeId) :
    (a.registerBlock block).2.WellFormed := by
  have hA := hW.branching.acyclic
  obtain ⟨hscopes, hlast⟩ := registerBlock_scopes a block
  have hR' := hR.of_scopes hscopes hlast
  have hchain := chain_of_scopes hscopes
  have hknown (h k : ScopeId) : k ∈ (a.registerBlock block).2.scopesKnowing h ↔
      k ∈ a.scopesKnowing h ∨ (h = block ∧ k ∈ a.chain block ∧ k ≠ block) := by
    unfold Arena.registerBlock
    cases hs : a.get? block with
    | none =>
      rw [get_eq_error.mpr ⟨hs, rfl⟩, hA.chain_of_none hs]
      simp
    | some s =>
      rw [get_eq_ok.mpr hs]
      cases hp : s.parent with
      | none =>
        rw [hA.chain_of_noParent hs hp]
        simp only [hp, List.mem_singleton, and_not_self_iff, and_false, or_false]
      | some p =>
        simp only [hp]
        rw [mem_scopesKnowing_makeKnown, hA.chain_of_parent hs hp, List.mem_cons]
        have hne {k : ScopeId} (hk : k ∈ a.chain p) : k ≠ block :=
          Nat.ne_of_lt (Nat.lt_of_le_of_lt (le_of_mem_chain hR.forest hk) (hR.forest.parent_lt hs hp))
        constructor
        · exact Or.imp_right fun ⟨hh, hk⟩ => ⟨hh, Or.inr hk, hne hk⟩
        · exact Or.imp_right fun ⟨hh, hk, hkb⟩ => ⟨hh, hk.resolve_left hkb⟩
  refine hR'.wellFormed (fun {h k} hk => ?_) fun {h j k} hj hk hne => ?_
  · rw [hchain]
    rcases (hknown h k).mp hk with hk | ⟨rfl, hk⟩
    · exact hW.known_around hk
    · exact hk
  · rw [hchain] at hk
    rcases (hknown h j).mp hj with hj | ⟨rfl, -⟩
    · exact (hknown h k).mpr (Or.inl (hW.known_to_all hj hk hne))
    · exact (hknown h k).mpr (Or.inr ⟨rfl, hk, hne⟩)

end Growth

theorem Change.wellFormed {hash : ContentHash} {a b : Arena} (hC : Change hash a b)
    (hR : a.Rooted) (hW : a.WellFormed) : b.WellFormed := by
  have hR' := (hC.succeeds hR).rooted
  cases hC with
  | createRoot operations =>
    exact hW.extend hR' (fun hs => ⟨_, hR.forest.get?_createRoot_of operations hs, rfl⟩) fun _ => rfl
  | createChild hlive shares =>
    obtain ⟨s, hs⟩ := contains_iff.mp hlive
    have hA := (createChild_added (hR.forest.le_last hs) shares).1
    exact hW.extend hR' (fun hs => ⟨_, hA.get?_of hR.forest hs, rfl⟩) hA.known
  | internText id text => exact hW.grows hR (intern_grows rfl).1
  | internNumber id n => exact hW.grows hR (intern_grows rfl).1
  | registerBlock block => exact hW.registerBlock hR block
  | discard hd =>
    obtain ⟨s, hs, hparent⟩ := get?_of_discard hd
    obtain ⟨c, hc, hreclaimed⟩ := hW.branching.discard_reclaimed hs hparent
    cases hc.symm.trans hd
    exact hreclaimed.wellFormed hW

/-- **An arena is well formed all its life.** -/
theorem Lives.wellFormed {hash : ContentHash} {a : Arena} (hL : Lives hash {} a) :
    a.WellFormed := by
  induction hL with
  | refl =>
    have hknown (h k : ScopeId) : k ∉ ({} : Arena).scopesKnowing h := fun hk => by cases hk
    exact rooted_empty.wellFormed (fun hk => (hknown _ _ hk).elim) fun hj => (hknown _ _ hj).elim
  | tail hL hC ih => exact hC.wellFormed (Lives.succeeds hL rooted_empty).rooted ih

/-! ## 4. The theorem -/

/-- **Taking out a scope that nothing refers to is exact and harmless.** It succeeds and returns the
pools of what goes. What goes are the scopes with it on their chains. What stays is well formed, and
no code, variable or stack of it names a block that went; it resolves every text and number as
before, and every block that stays; a block that went is found from nowhere. A scope that stays is
as it was, except that the parent has lost a child and that those around have forgotten the blocks
that went. -/
theorem WellFormed.discard_exact {a : Arena} (hW : a.WellFormed) {id : ScopeId}
    (hlive : a.contains id = true) (hfree : a.isReferenced id = false) :
    ∃ pools b, a.discard id = .ok (pools, b) ∧
      (∀ pool, pool ∈ pools ↔
        ∃ k s, a.get? k = some s ∧ id ∈ a.chain k ∧ s.pool = some pool) ∧
      (∀ k, b.contains k = true ↔ a.contains k = true ∧ id ∉ a.chain k) ∧
      b.WellFormed ∧
      (∀ k h, b.Holds k (.block h) → id ∉ a.chain h) ∧
      (∀ k, b.contains k = true → ∀ h,
        b.resolve String k h = a.resolve String k h ∧
        b.resolve Number k h = a.resolve Number k h ∧
        (id ∉ a.chain h → b.resolveBlock k h = a.resolveBlock k h)) ∧
      (∀ h, id ∈ a.chain h → ∀ k, b.resolveBlock k h = .error (.notInterned h)) ∧
      (∀ k s, a.get? k = some s → id ∉ a.chain k →
        b.get? k = some
          (if (a.get? id).bind (·.parent) = some k then s.removeChild id else s)) ∧
      (∀ k h, k ∈ b.scopesKnowing h ↔ k ∈ a.scopesKnowing h ∧ id ∉ a.chain h) ∧
      (∀ k h, id ∉ a.chain k → k ∈ a.scopesKnowing h → k ∉ b.scopesKnowing h →
        k ∈ a.chain id ∧ k ≠ id) ∧
      b.stackHeap = a.stackHeap ∧ b.lastScope = a.lastScope ∧ b.lastStack = a.lastStack := by
  obtain ⟨r, hr⟩ := contains_iff.mp hlive
  have hB := hW.branching
  have hU := hB.unreferenced hfree
  obtain ⟨b, hd, hR⟩ := hB.discard_reclaimed hr fun p hp => hW.parent hr hp
  refine ⟨_, b, hd, fun pool => ?_, hR.contains_iff, hR.wellFormed hW, fun k h hh => ?_,
    fun k hk h => ?_, fun h hh k => hR.resolveBlock_gone hh k, fun k s hs hk => ?_, fun k h => ?_,
    fun k h hk hknew hforgot => (hR.forgets hW hk hknew hforgot).2, hR.stackHeap, hR.lastScope,
    hR.lastStack⟩
  · rw [mem_poolsOf]
    simp only [hB.mem_subtree_iff]
    exact ⟨fun ⟨k, s, hk, hs, hp⟩ => ⟨k, s, hs, hk, hp⟩, fun ⟨k, s, hs, hk, hp⟩ => ⟨k, s, hk, hs, hp⟩⟩
  · obtain ⟨hk, hheld⟩ := hR.pruned.holds hh
    exact hU.not_mem_chain hk hheld
  · have hk := ((hR.contains_iff k).mp hk).2
    exact ⟨hR.resolve_kept (fun _ => rfl) hB hk h, hR.resolve_kept (fun _ => rfl) hB hk h,
      hR.resolveBlock_kept hB hk⟩
  · rw [hr, Option.bind_some]
    exact hR.get?_kept hB hr hs hk
  · by_cases hh : id ∈ a.chain h
    · rw [hR.scopesKnowing_of_gone hW hh]
      simp [hh]
    · rw [hR.pruned.known hh]
      simp [hh]

/-- A block with another in it, and a third beside it, all finished. -/
def threeFinished : Arena :=
  let a := (threeDeep.createChild 1 true).2
  let a := (a.registerBlock 3).2
  let a := (a.registerBlock 2).2
  (a.registerBlock 4).2

/-- The first takes the one in it along, and the top level still finds the third. -/
theorem WellFormed.discard_exact_nested :
    (threeFinished.resolveBlock 4 3 = .ok 3 ∧ threeFinished.isReferenced 2 = false) ∧
      ∃ pools b, threeFinished.discard 2 = .ok (pools, b) ∧ b.contains 3 = false ∧
        b.resolveBlock 4 3 = .error (.notInterned 3) ∧ b.resolveBlock 1 4 = .ok 4 := by
  let hash : ContentHash := ⟨fun _ => 5, fun _ => 7⟩
  have hL : Lives hash {} threeFinished :=
    (((((((Relation.ReflTransGen.refl.tail (.createRoot _ {})).tail
      (.createChild (by decide +kernel) true)).tail
      (.createChild (by decide +kernel) false)).tail
      (.createChild (by decide +kernel) true)).tail
      (.registerBlock _ 3)).tail (.registerBlock _ 2)).tail (.registerBlock _ 4))
  refine ⟨⟨rfl, by decide +kernel⟩, ?_⟩
  have hfree : threeFinished.isReferenced 2 = false := by decide +kernel
  obtain ⟨pools, b, hd, -, hthere, -, -, hkept, hgone, -⟩ :=
    discard_exact hL.wellFormed (by decide +kernel) hfree
  refine ⟨pools, b, hd, ?_, hgone 3 (by decide +kernel) 4, ?_⟩
  · rw [← Bool.not_eq_true, hthere]
    exact fun h => h.2 (by decide +kernel)
  · refine ((hkept 1 ((hthere 1).mpr ⟨by decide +kernel, by decide +kernel⟩) 4).2.2
      (by decide +kernel)).trans ?_
    rfl

end ScopeStack.Arena
