import ScopeStack.Proofs.Nesting

/-!
# Handles stay with their payloads

Interning gives a payload a handle that no table of the chain holds for other content, and puts it
into all of them. So everything that resolved before still does, to the same payload. And when the
payload is interned once more from the same scope, the handles that were passed over are still
taken, and the one it has is still its own, whatever else has been interned and whatever blocks have
been opened in between.

* `Stored.resolve_kept`: an entry that is added shadows nothing else.
* `Arena.Accretes`: links stay and tables only gain. Interning from anywhere and opening blocks
  anywhere do no more than that (`Accrual.accretes`).
* `handleFor_lt_iff`: the search for a handle ends if any is left.
* `probe_of_taken_more`, `handleFor_again`: later on it ends where it ended.
* `Acyclic.intern_stable`: **interning is sound, stable, and disturbs nothing.**
-/

namespace ScopeStack.Arena

/-! ## 1. Nothing is shadowed -/

section Shadowing

variable {α : Type} [BEq α] [Interned α] {a b : Arena} {id : ScopeId} {v : α} {h : Handle}

/-- What is found on some scopes one of them has. -/
theorem payloadAt_of_payloadOn {ids : List ScopeId} {j : Handle} {w : α}
    (hw : a.payloadOn α ids j = some w) : ∃ k ∈ ids, a.payloadAt α k j = some w :=
  List.exists_of_findSome?_eq_some hw

/-- The scopes of the chain resolve the payload. -/
theorem Stored.resolve_on (hA : a.Acyclic) (hS : a.Stored id v h b) (hv : Sharp v) {k : ScopeId}
    (hk : k ∈ a.chain id) : b.resolve α k h = .ok v := by
  obtain ⟨s, hs⟩ := get?_of_mem_chain hk
  obtain ⟨rest, hrest⟩ := hA.chain_cons hs
  rw [resolve_eq_ok_iff, hS.grows.still.alike.chain_kept hA, hrest, payloadOn_cons,
    hS.on_sharp hv hk, Option.some_or]

/-- **What resolved resolves to the same payload.** Where a scope of the chain gets an entry, all
around it get the same, so it stands in front of nothing else. -/
theorem Stored.resolve_kept (hA : a.Acyclic) (hS : a.Stored id v h b) (hv : Sharp v) {k : ScopeId}
    {j : Handle} {w : α} (hw : a.resolve α k j = .ok w) : b.resolve α k j = .ok w := by
  rw [resolve_eq_ok_iff] at hw ⊢
  rw [hS.grows.still.alike.chain_kept hA]
  induction k using hA.induction with
  | step k ih =>
    cases hs : a.get? k with
    | none =>
      rw [hA.chain_of_none hs] at hw
      cases hw
    | some s =>
      cases hold : a.payloadAt α k j with
      | some x =>
        obtain ⟨rest, hrest⟩ := hA.chain_cons hs
        rw [hrest, payloadOn_cons, hold, Option.some_or] at hw
        rw [hrest, payloadOn_cons, hS.kept (hold.trans hw), Option.some_or]
      | none =>
        cases hp : s.parent with
        | none =>
          rw [hA.chain_of_noParent hs hp, payloadOn_cons, hold] at hw
          cases hw
        | some p =>
          rw [hA.chain_of_parent hs hp, payloadOn_cons, hold, Option.none_or] at hw
          rw [hA.chain_of_parent hs hp, payloadOn_cons]
          by_cases hon : k ∈ a.chain id ∧ j = h
          · -- a new entry: the outer scope that has the handle is on the chain, so it has `v` too
            obtain ⟨hk, rfl⟩ := hon
            obtain ⟨x, hx, hxw⟩ := payloadAt_of_payloadOn hw
            have hxid := hA.mem_chain_trans (hA.mem_chain_of_parent hs hp hx) hk
            have hvw := (hS.on_sharp hv hxid).symm.trans (hS.kept hxw)
            rw [hS.on_sharp hv hk, Option.some_or, hvw]
          · rw [hS.off (Decidable.not_and_iff_or_not.mp hon), hold, Option.none_or]
            exact ih s p hs hp hw

/-- Tables that stay as they are resolve as they did. -/
theorem Grows.resolve_eq (hA : a.Acyclic) (hG : a.Grows b)
    (hat : ∀ k j, b.payloadAt α k j = a.payloadAt α k j) (k : ScopeId) (j : Handle) :
    b.resolve α k j = a.resolve α k j :=
  resolve_congr (hG.still.alike.chain_kept hA k) (payloadOn_congr fun i _ => hat i j)

/-- Interning is no matter to blocks. -/
theorem Grows.resolveBlock_eq (hA : a.Acyclic) (hG : a.Grows b) (k : ScopeId) (j : Handle) :
    b.resolveBlock k j = a.resolveBlock k j := by
  have hthere : b.contains j = a.contains j := by
    rw [contains_eq, contains_eq]
    cases hs : a.get? j with
    | none => rw [hG.none hs]
    | some s =>
      obtain ⟨t, ht, -⟩ := hG.get? hs
      rw [ht]
      rfl
  unfold resolveBlock
  simp only [hthere, hG.still.scopesKnowing, hG.still.alike.chain_kept hA]

end Shadowing

/-! ## 2. What stays while more comes in -/

/-- Ids have been given up to some number, and no parent is beyond. -/
structure Numbered (a : Arena) : Prop where
  le_last {k : ScopeId} {s : Scope} : a.get? k = some s → k ≤ a.lastScope
  parent_le {k p : ScopeId} {s : Scope} : a.get? k = some s → s.parent = some p → p ≤ a.lastScope

/-- The scopes of the first arena are where they were, with all their payloads, and whatever has
been added has a new id. -/
structure Accretes (a b : Arena) : Prop where
  get? {k : ScopeId} {s : Scope} : a.get? k = some s → ∃ t, b.get? k = some t ∧
    t.parent = s.parent ∧ (∀ h x, s.strings.get? h = some x → t.strings.get? h = some x) ∧
    ∀ h x, s.numbers.get? h = some x → t.numbers.get? h = some x
  absent {k : ScopeId} : k ≤ a.lastScope → a.get? k = none → b.get? k = none
  lastScope : a.lastScope ≤ b.lastScope

/-- Something more comes in: a payload of either kind from any scope, or a block in any scope. -/
inductive Accrual (hash : ContentHash) : Arena → Arena → Prop where
  | text (a : Arena) (id : ScopeId) (text : String) :
      Accrual hash a (a.intern hash.text id text).2
  | number (a : Arena) (id : ScopeId) (n : Number) :
      Accrual hash a (a.intern hash.number id n).2
  | block (a : Arena) (parent : ScopeId) (shares : Bool) :
      Accrual hash a (a.createChild parent shares).2

section Accretes

variable {a b c : Arena}

theorem Numbered.grows (hN : a.Numbered) (hG : a.Grows b) : b.Numbered where
  le_last ht := by
    obtain ⟨s, hs, -⟩ := hG.still.alike.get? ht
    exact hG.lastScope ▸ hN.le_last hs
  parent_le ht hp := by
    obtain ⟨s, hs, hps, -⟩ := hG.still.alike.get? ht
    exact hG.lastScope ▸ hN.parent_le hs (hps ▸ hp)

theorem Accretes.refl (a : Arena) : a.Accretes a :=
  ⟨fun hs => ⟨_, hs, rfl, fun _ _ h => h, fun _ _ h => h⟩, fun _ h => h, Nat.le_refl _⟩

theorem Accretes.trans (hab : a.Accretes b) (hbc : b.Accretes c) : a.Accretes c where
  get? hs := by
    obtain ⟨t, ht, hpt, htext, hnumber⟩ := hab.get? hs
    obtain ⟨u, hu, hpu, htext', hnumber'⟩ := hbc.get? ht
    exact ⟨u, hu, hpu.trans hpt, fun h x hx => htext' h x (htext h x hx),
      fun h x hx => hnumber' h x (hnumber h x hx)⟩
  absent hk hs := hbc.absent (Nat.le_trans hk hab.lastScope) (hab.absent hk hs)
  lastScope := Nat.le_trans hab.lastScope hbc.lastScope

theorem Grows.accretes (hG : a.Grows b) : a.Accretes b where
  get? hs := by
    obtain ⟨t, ht, hts, htext, hnumber⟩ := hG.get? hs
    exact ⟨t, ht, by rw [hts], htext, hnumber⟩
  absent _ := hG.none
  lastScope := Nat.le_of_eq hG.lastScope.symm

/-- Among the ids that were given, a new block changes nothing but the children of its parent. -/
theorem get?_createChild_of_le (a : Arena) (parent : ScopeId) (shares : Bool) {k : ScopeId}
    (hk : k ≤ a.lastScope) : (a.createChild parent shares).2.get? k =
      (a.get? k).map fun s => if k = parent then s.addChild (a.lastScope + 1) else s := by
  have hold (make : StackId → Scope) : (a.create make).2.get? k = a.get? k := by
    rw [get?_create, if_neg (Nat.ne_of_lt (Nat.lt_succ_of_le hk))]
  unfold createChild
  dsimp only
  split
  · rw [get?_modify]
    by_cases hkp : k = parent
    · subst hkp
      simp only [if_true]
      rw [hold]
      rfl
    · simp only [if_neg hkp]
      rw [hold, Option.map_id']
  · rename_i hgone
    rw [hold]
    by_cases hkp : k = parent
    · subst hkp
      obtain ⟨hnone, -⟩ := get_eq_error.mp hgone
      rw [hold] at hnone
      rw [hnone, Option.map_none]
    · simp only [if_neg hkp, Option.map_id']

/-- **What comes in disturbs nothing that is there.** -/
theorem Accrual.accretes {hash : ContentHash} (hN : a.Numbered) (hab : a.Accretes b)
    (hC : Accrual hash b c) : a.Accretes c := by
  cases hC with
  | text id text => exact hab.trans (Grows.accretes (intern_grows rfl).1)
  | number id n => exact hab.trans (Grows.accretes (intern_grows rfl).1)
  | block parent shares =>
    have hget {k : ScopeId} (hk : k ≤ a.lastScope) :=
      b.get?_createChild_of_le parent shares (Nat.le_trans hk hab.lastScope)
    refine ⟨fun {k s} hs => ?_, fun {k} hk hs => ?_, Nat.le_trans hab.lastScope ?_⟩
    · obtain ⟨t, ht, hpt, htext, hnumber⟩ := hab.get? hs
      rw [hget (hN.le_last hs), ht, Option.map_some]
      refine ⟨_, rfl, ?_⟩
      split
      · exact ⟨hpt, htext, hnumber⟩
      · exact ⟨hpt, htext, hnumber⟩
    · rw [hget hk, hab.absent hk hs, Option.map_none]
    · unfold createChild
      dsimp only
      split <;> exact Nat.le_succ _

theorem accretes_of_accruals {hash : ContentHash} (hN : a.Numbered)
    (hC : Relation.ReflTransGen (Accrual hash) a b) : a.Accretes b := by
  induction hC with
  | refl => exact .refl a
  | tail _ hC ih => exact hC.accretes hN ih

/-- A chain that was there stays, though blocks come in that may lead anywhere. -/
theorem Accretes.chain_eq (hA : a.Acyclic) (hN : a.Numbered) (hab : a.Accretes b) {k : ScopeId}
    (hk : k ≤ a.lastScope) : b.chain k = a.chain k := by
  refine Outwards.chain_eq ?_ (hA.chainUpTo_nodup _ k)
  have hW := hA.outwards k
  generalize a.chain k = ids at hW
  induction hW with
  | gone hs => exact .gone (hab.absent hk hs)
  | top hs hp =>
    obtain ⟨t, ht, hpt, -⟩ := hab.get? hs
    exact .top ht (hpt.trans hp)
  | inner hs hp _ ih =>
    obtain ⟨t, ht, hpt, -⟩ := hab.get? hs
    exact .inner ht (hpt.trans hp) (ih (hN.parent_le hs hp))

end Accretes

/-! ## 3. Interning once more -/

/-- Where more is taken, but not what was found, the same is found. -/
theorem probe_of_taken_more {taken taken' : Handle → Bool} {n : Nat} {start h : Handle}
    (hp : probe taken n start = some h) (hmore : ∀ g, taken g = true → taken' g = true)
    (hfree : taken' h = false) : probe taken' n start = some h := by
  induction n generalizing start with
  | zero => cases hp
  | succ n ih =>
    rw [probe] at hp ⊢
    split at hp
    · rename_i ht
      rw [if_pos (hmore _ ht)]
      exact ih hp
    · cases hp
      rw [hfree]
      rfl

/-- A search that finds nothing has looked at all handles, counting round. -/
theorem taken_of_probe_none {taken : Handle → Bool} {n : Nat} {start : Handle}
    (hp : probe taken n start = none) (hstart : start < handleCount) {i : Nat} (hi : i < n) :
    taken ((start + i) % handleCount) = true := by
  induction n generalizing start i with
  | zero => exact absurd hi (Nat.not_lt_zero i)
  | succ n ih =>
    rw [probe] at hp
    split at hp
    · rename_i ht
      cases i with
      | zero => rwa [Nat.add_zero, Nat.mod_eq_of_lt hstart]
      | succ i =>
        have h := ih hp (Nat.mod_lt _ (by decide)) (Nat.lt_of_succ_lt_succ hi)
        rwa [nextHandle, Nat.mod_add_mod, Nat.add_assoc, Nat.add_comm 1 i] at h
    · cases hp

theorem lt_of_probe {taken : Handle → Bool} {n : Nat} {start h : Handle}
    (hp : probe taken n start = some h) (hstart : start < handleCount) : h < handleCount := by
  induction n generalizing start with
  | zero => cases hp
  | succ n ih =>
    rw [probe] at hp
    split at hp
    · exact ih hp (Nat.mod_lt _ (by decide))
    · cases hp
      exact hstart

section Again

variable {α : Type} [BEq α] [Interned α] {a c : Arena} {ids : List ScopeId} {v : α} {h : Handle}

theorem handleCount_le_spareHandle (a : Arena) (ids : List ScopeId) :
    handleCount ≤ a.spareHandle ids α := by
  unfold spareHandle
  generalize handleCount = n
  induction ids generalizing n with
  | nil => exact Nat.le_refl _
  | cons id ids ih => exact Nat.le_trans (Nat.le_max_left _ _) (ih _)

/-- **The handle is a real one as long as any is left** that no table holds for other content. -/
theorem handleFor_lt_iff (a : Arena) (hash : α → Handle) (ids : List ScopeId) (v : α) :
    a.handleFor hash ids v < handleCount ↔ ∃ g < handleCount, a.anyConflict ids v g = false := by
  refine ⟨fun hlt => ⟨_, hlt, a.anyConflict_handleFor hash ids v⟩, fun ⟨g, hg, hfree⟩ => ?_⟩
  have hstart : hash v % handleCount < handleCount := Nat.mod_lt _ (by decide)
  unfold handleFor
  cases hp : probe (a.anyConflict ids v) handleCount (hash v % handleCount) with
  | some h => exact lt_of_probe hp hstart
  | none =>
    -- counting round from the first choice, `g` comes up after this many steps
    have hi : (g + handleCount - hash v % handleCount) % handleCount < handleCount :=
      Nat.mod_lt _ (by decide)
    have htaken := taken_of_probe_none hp hstart hi
    rw [Nat.add_mod_mod,
      Nat.add_sub_cancel' (Nat.le_trans (Nat.le_of_lt hstart) (Nat.le_add_left _ _)), Nat.add_mod_right,
      Nat.mod_eq_of_lt hg, hfree] at htaken
    cases htaken

theorem anyConflict_eq_true {g : Handle} : a.anyConflict ids v g = true ↔
    ∃ k ∈ ids, ∃ w, a.payloadAt α k g = some w ∧ (w != v) = true := by
  unfold anyConflict
  rw [List.any_eq_true]
  refine exists_congr fun k => and_congr_right fun _ => ?_
  unfold payloadAt
  cases a.get? k with
  | none => simp
  | some s =>
    rw [Option.any_some, Option.bind_some, InternTable.conflicts]
    cases (Interned.table s : InternTable α).get? g with
    | none => simp
    | some w => simp

/-- A search that ended at a handle ends there again, once the scopes have the payload under it and
as long as they have not lost anything. -/
theorem handleFor_again {hash : α → Handle} (hf : a.handleFor hash ids v = h)
    (hreal : h < handleCount) (hv : (v == v) = true)
    (hkept : ∀ k ∈ ids, ∀ g w, a.payloadAt α k g = some w → c.payloadAt α k g = some w)
    (hhas : ∀ k ∈ ids, c.payloadAt α k h = some v) : c.handleFor hash ids v = h := by
  have hmore (g : Handle) (hg : a.anyConflict ids v g = true) :
      c.anyConflict ids v g = true := by
    obtain ⟨k, hk, w, hw, hne⟩ := anyConflict_eq_true.mp hg
    exact anyConflict_eq_true.mpr ⟨k, hk, w, hkept k hk g w hw, hne⟩
  have hfree : c.anyConflict ids v h = false := by
    rw [← Bool.not_eq_true, anyConflict_eq_true]
    rintro ⟨k, hk, w, hw, hne⟩
    cases hw.symm.trans (hhas k hk)
    rw [bne, hv] at hne
    cases hne
  unfold handleFor at hf ⊢
  cases hp : probe (a.anyConflict ids v) handleCount (hash v % handleCount) with
  | none =>
    rw [hp, Option.getD_none] at hf
    exact absurd (hf ▸ handleCount_le_spareHandle (α := α) a ids) (Nat.not_le_of_lt hreal)
  | some g =>
    rw [hp, Option.getD_some] at hf
    subst hf
    rw [probe_of_taken_more hp hmore hfree, Option.getD_some]

/-- Where all have the handle already nothing happens. -/
theorem get?_insertAll_of_has [HeldTable α] (a : Arena) (ids : List ScopeId)
    (hhas : ∀ k ∈ ids, (a.payloadAt α k h).isSome) (k : ScopeId) :
    (a.insertAll ids h v).get? k = a.get? k := by
  induction ids generalizing a with
  | nil => rfl
  | cons id ids ih =>
    have hsame (k : ScopeId) :
        (a.modify id (Interned.modifyTable (·.insert h v))).get? k = a.get? k := by
      rw [get?_modify]
      split
      · rename_i hk
        subst hk
        obtain ⟨w, hw⟩ := Option.isSome_iff_exists.mp (hhas k List.mem_cons_self)
        obtain ⟨s, hs, hsw⟩ := Option.bind_eq_some_iff.mp hw
        rw [hs, Option.map_some, HeldTable.modifyTable_self]
        exact InternTable.insert_of_isSome (Option.isSome_iff_exists.mpr ⟨w, hsw⟩) v
      · rfl
    refine (ih _ fun k hk => ?_).trans (hsame k)
    rw [payloadAt, hsame]
    exact hhas k (List.mem_cons_of_mem _ hk)

theorem intern_eq_ok {a b : Arena} {hash : α → Handle} {id : ScopeId} :
    a.intern hash id v = (.ok h, b) ↔ a.chain id ≠ [] ∧ a.handleFor hash (a.chain id) v = h ∧
      a.insertAll (a.chain id) h v = b := by
  unfold intern
  cases hc : a.chain id with
  | nil => simp
  | cons k rest =>
    simp only [List.isEmpty_cons, Bool.false_eq_true, if_false, Prod.mk.injEq, Except.ok.injEq,
      ne_eq, reduceCtorEq, not_false_eq_true, true_and]
    exact and_congr_right fun hh => by rw [hh]

/-- Interning succeeds from every scope that is there. -/
theorem Acyclic.intern_there (hA : a.Acyclic) {id : ScopeId} (hid : a.contains id = true)
    (hash : α → Handle) (v : α) : ∃ h b, a.intern hash id v = (.ok h, b) := by
  obtain ⟨s, hs⟩ := contains_iff.mp hid
  exact ⟨_, _, intern_eq_ok.mpr ⟨List.ne_nil_of_mem (hA.mem_chain_self hs), rfl, rfl⟩⟩

variable [HeldTable α] [GrowingTable α] {b : Arena} {hash : α → Handle} {id : ScopeId}

theorem stored_of_intern (hi : a.intern hash id v = (.ok h, b)) : a.Stored id v h b := by
  obtain ⟨-, hh, rfl⟩ := intern_eq_ok.mp hi
  exact insertAll_stored (hh ▸ a.anyConflict_handleFor hash _ v)

/-- **An interned payload resolves all along the chain, and all that resolved still does.** -/
theorem resolve_of_intern {β : Type} [BEq β] [Interned β] [ApartTables α β] (hA : a.Acyclic)
    (hv : Sharp v) (hi : a.intern hash id v = (.ok h, b)) :
    (∀ k ∈ a.chain id, b.resolve α k h = .ok v) ∧
    ∀ k j, (∀ x, a.resolve α k j = .ok x → b.resolve α k j = .ok x) ∧
      (∀ y, a.resolve β k j = .ok y → b.resolve β k j = .ok y) ∧
      b.resolveBlock k j = a.resolveBlock k j := by
  have hS := stored_of_intern hi
  have hat (k : ScopeId) (j : Handle) : b.payloadAt β k j = a.payloadAt β k j := by
    obtain ⟨-, -, rfl⟩ := intern_eq_ok.mp hi
    exact payloadAt_insertAll_apart ..
  exact ⟨fun k hk => hS.resolve_on hA hv hk, fun k j => ⟨fun x => hS.resolve_kept hA hv,
    fun y hy => (hS.grows.resolve_eq hA hat k j).trans hy, hS.grows.resolveBlock_eq hA k j⟩⟩

/-- **Interned once more, a payload has the handle it had, and nothing changes.** -/
theorem intern_again (hA : a.Acyclic) (hN : a.Numbered) (hv : Sharp v) (hrefl : (v == v) = true)
    (hi : a.intern hash id v = (.ok h, b)) (hreal : h < handleCount) (hac : a.Accretes c)
    (hbc : ∀ k g w, b.payloadAt α k g = some w → c.payloadAt α k g = some w) :
    ∃ d, c.intern hash id v = (.ok h, d) ∧ (∀ k, d.get? k = c.get? k) ∧
      ∀ j, d.scopesKnowing j = c.scopesKnowing j := by
  have hS := stored_of_intern hi
  obtain ⟨hne, hh, -⟩ := intern_eq_ok.mp hi
  have hid : id ≤ a.lastScope := by
    obtain ⟨k, hk⟩ := List.exists_mem_of_ne_nil _ hne
    obtain ⟨s, hs, -⟩ := hA.mem_chain_cases hk
    exact hN.le_last hs
  have hchain : c.chain id = a.chain id := hac.chain_eq hA hN hid
  have hhas (k : ScopeId) (hk : k ∈ a.chain id) : c.payloadAt α k h = some v :=
    hbc k h v (hS.on_sharp hv hk)
  refine ⟨c.insertAll (a.chain id) h v, ?_, get?_insertAll_of_has c _ fun k hk => ?_,
    (insertAll_grows c _ h v).still.scopesKnowing⟩
  · rw [intern_eq_ok, hchain]
    exact ⟨hne, handleFor_again hh hreal hrefl (fun k _ g w hw => hbc k g w (hS.kept hw)) hhas, rfl⟩
  · rw [hhas k hk]
    rfl

end Again

/-! ## 4. Texts and integers -/

theorem Accretes.payloadAt_text {a b : Arena} (hab : a.Accretes b) {k : ScopeId} {h : Handle}
    {x : String} (hx : a.payloadAt String k h = some x) : b.payloadAt String k h = some x := by
  obtain ⟨s, hs, hsx⟩ := Option.bind_eq_some_iff.mp hx
  obtain ⟨t, ht, -, htext, -⟩ := hab.get? hs
  rw [payloadAt_of_get? ht]
  exact htext h x hsx

theorem Accretes.payloadAt_number {a b : Arena} (hab : a.Accretes b) {k : ScopeId} {h : Handle}
    {x : Number} (hx : a.payloadAt Number k h = some x) : b.payloadAt Number k h = some x := by
  obtain ⟨s, hs, hsx⟩ := Option.bind_eq_some_iff.mp hx
  obtain ⟨t, ht, -, -, hnumber⟩ := hab.get? hs
  rw [payloadAt_of_get? ht]
  exact hnumber h x hsx

/-- A text or an integer of any size. -/
inductive Payload where
  | text (s : String)
  | big (n : Int)

/-- Intern a text or an integer from a scope. -/
def Payload.intern (hash : ContentHash) (a : Arena) (id : ScopeId) :
    Payload → Except Fault Handle × Arena
  | .text s => a.intern hash.text id s
  | .big n => a.intern hash.number id (.big n)

/-- The handle stands for the payload, seen from the scope. -/
def Payload.Resolves (a : Arena) (k : ScopeId) (h : Handle) : Payload → Prop
  | .text s => a.resolve String k h = .ok s
  | .big n => a.resolve Number k h = .ok (.big n)

/-- **Interning is sound, stable, and disturbs nothing.** Where nobody gets back to a scope by going
outwards, and however payloads are hashed: from a scope that is gone nothing is interned; from one
that is there a text or an integer gets a handle, all scopes of the chain resolve it, and whatever
resolved before resolves to the same. Interned once more, it has the same handle and nothing
changes, whatever else has been interned and whatever blocks have been opened in between, from
wherever. (A handle that is none of the `handleCount` real ones stands for a search without end.) -/
theorem Acyclic.intern_stable {a : Arena} (hA : a.Acyclic) (hash : ContentHash) (id : ScopeId)
    (v : Payload) :
    (a.contains id = false → v.intern hash a id = (.error (.scopeGone id), a)) ∧
    (a.contains id = true → ∃ h b, v.intern hash a id = (.ok h, b)) ∧
    ∀ h b, v.intern hash a id = (.ok h, b) →
      (∀ k ∈ a.chain id, v.Resolves b k h) ∧
      (∀ k j,
        (∀ x, a.resolve String k j = .ok x → b.resolve String k j = .ok x) ∧
        (∀ n, a.resolve Number k j = .ok n → b.resolve Number k j = .ok n) ∧
        b.resolveBlock k j = a.resolveBlock k j) ∧
      (a.Numbered → h < handleCount → ∀ c, Relation.ReflTransGen (Accrual hash) b c →
        ∃ d, v.intern hash c id = (.ok h, d) ∧ (∀ k, d.get? k = c.get? k) ∧
          ∀ j, d.scopesKnowing j = c.scopesKnowing j) := by
  cases v with
  | text x =>
    refine ⟨fun hid => hA.intern_gone (get?_of_contains_false hid) hash.text x,
      fun hid => hA.intern_there hid hash.text x, fun h b hi => ?_⟩
    have hx := sharp_of_lawful x
    obtain ⟨hon, hkept⟩ := resolve_of_intern (β := Number) hA hx hi
    refine ⟨hon, hkept, fun hN hreal c hc => ?_⟩
    have hG := (stored_of_intern hi).grows
    have hbc := accretes_of_accruals (hN.grows hG) hc
    exact intern_again hA hN hx (beq_self_eq_true x) hi hreal (hG.accretes.trans hbc)
      fun k g w => hbc.payloadAt_text
  | big n =>
    refine ⟨fun hid => hA.intern_gone (get?_of_contains_false hid) hash.number (.big n),
      fun hid => hA.intern_there hid hash.number (.big n), fun h b hi => ?_⟩
    have hn := sharp_big n
    obtain ⟨hon, hkept⟩ := resolve_of_intern (β := String) hA hn hi
    refine ⟨hon, fun k j => ?_, fun hN hreal c hc => ?_⟩
    · obtain ⟨hnumber, htext, hblock⟩ := hkept k j
      exact ⟨htext, hnumber, hblock⟩
    · have hG := (stored_of_intern hi).grows
      have hbc := accretes_of_accruals (hN.grows hG) hc
      exact intern_again hA hN hn (beq_self_eq_true n) hi hreal (hG.accretes.trans hbc)
        fun k g w => hbc.payloadAt_number

/-- Three scopes one in another, with a text in the outermost. -/
def outerText (hash : ContentHash) : Arena := (threeDeep.intern hash.text 1 "outer").2

/-- A text from the scope in the middle, hashed like the one around it, gets the handle after it;
it has the same again when the innermost scope has interned both and has got a block. -/
theorem Acyclic.intern_stable_collision :
    let hash : ContentHash := ⟨fun _ => 5, fun _ => 7⟩
    let inner := Payload.text "inner"
    ∃ b, inner.intern hash (outerText hash) 2 = (.ok 6, b) ∧ inner.Resolves b 1 6 ∧
      b.resolve String 3 5 = .ok "outer" ∧
      ∃ d, inner.intern hash ((b.intern hash.text 3 "outer").2.createChild 3 true).2 2 =
        (.ok 6, d) := by
  intro hash inner
  have hL : Lives hash {} (outerText hash) :=
    (((Relation.ReflTransGen.refl.tail (.createRoot _ {})).tail
      (.createChild (by decide +kernel) true)).tail
      (.createChild (by decide +kernel) false)).tail (.internText _ 1 "outer")
  have hR := (hL.succeeds rooted_empty).rooted
  have hN : (outerText hash).Numbered := ⟨hR.forest.le_last, fun hs hp =>
    Nat.le_trans (Nat.le_of_lt (hR.forest.parent_lt hs hp)) (hR.forest.le_last hs)⟩
  have hi : inner.intern hash (outerText hash) 2 =
      (.ok 6, (inner.intern hash (outerText hash) 2).2) := rfl
  obtain ⟨-, -, hstable⟩ := hR.forest.acyclic.intern_stable hash 2 inner
  obtain ⟨hon, hkept, hagain⟩ := hstable 6 _ hi
  obtain ⟨d, hd, -⟩ := hagain hN (by decide) _
    ((Relation.ReflTransGen.refl.tail (.text _ 3 "outer")).tail (.block _ 3 true))
  exact ⟨_, hi, hon 1 (by decide +kernel), (hkept 3 5).1 _ (resolve_eq_ok_iff.mpr (by decide +kernel)),
    d, hd⟩

end ScopeStack.Arena
