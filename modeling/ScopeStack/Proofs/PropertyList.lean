import ScopeStack.Proofs.Comparisons
import ScopeStack.Proofs.Words

/-!
# The stack as a property list

A property is a key with the value that follows it. Keys are looked for by loose equality among all
values, wherever they stand: the first that equals the key counts as the key. Setting a property that
is there changes the value behind it, and all other properties are appended. So what has been set is
found again, except where the key was there with nothing behind it: then the key that is appended
stands behind that one, and is taken for its value.

* `lacks_or_split`, `positionOf_split`: where a key is.
* `Dangles`: the key is there with nothing behind it. `setAfterKey_of_lacks`, `setAfterKey_of_dangles`,
  `setAfterKey_split`: what setting a property leaves. `valueAfterKey_setAfterKey`: **what is found after
  a property has been set.**
* `Ensemble.Reachable.set_get`: **a property that has been set is found, unless its key dangled.**
-/

namespace ScopeStack

open ScopeStack.Action

/-! ## 1. Keys -/

variable {vs us ws : List Value} {key value u v : Value}

/-- No value equals the key. -/
def Lacks (vs : List Value) (key : Value) : Prop := ∀ v ∈ vs, Value.looseEq v key = false

/-- The first value that equals the key is the last of all. -/
def Dangles (vs : List Value) (key : Value) : Prop :=
  ∃ us u, vs = us ++ [u] ∧ Lacks us key ∧ Value.looseEq u key = true

theorem lacks_nil (key : Value) : Lacks [] key := by
  intro v hv
  cases hv

/-- A list lacks a key, or a value in it is the first that equals the key. -/
theorem lacks_or_split (vs : List Value) (key : Value) :
    Lacks vs key ∨ ∃ us u ws, vs = us ++ u :: ws ∧ Lacks us key ∧ Value.looseEq u key = true := by
  induction vs with
  | nil => exact Or.inl (lacks_nil key)
  | cons v vs ih =>
    cases hv : Value.looseEq v key with
    | true => exact Or.inr ⟨[], v, vs, rfl, lacks_nil key, hv⟩
    | false =>
      rcases ih with h | ⟨us, u, ws, rfl, hus, hu⟩
      · exact Or.inl (List.forall_mem_cons.mpr ⟨hv, h⟩)
      · exact Or.inr ⟨v :: us, u, ws, rfl, List.forall_mem_cons.mpr ⟨hv, hus⟩, hu⟩

theorem positionOf_of_lacks (h : Lacks vs key) : positionOf vs key = none :=
  List.findIdx?_eq_none_iff.mpr h

/-- The key is found behind what lacks it. -/
theorem positionOf_split (hus : Lacks us key) (hu : Value.looseEq u key = true) :
    positionOf (us ++ u :: ws) key = some us.length := by
  have hnone : us.findIdx? (Value.looseEq · key) = none := positionOf_of_lacks hus
  rw [positionOf, List.findIdx?_append, hnone, List.findIdx?_cons, if_pos hu]
  simp

theorem valueAfterKey_split (hus : Lacks us key) (hu : Value.looseEq u key = true) :
    valueAfterKey (us ++ u :: ws) key = ws.head? := by
  rw [valueAfterKey, positionOf_split hus hu, Option.bind_some, List.getElem?_append_right (by omega)]
  cases ws <;> simp

/-- **A property that is not there is appended.** -/
theorem setAfterKey_of_lacks (h : Lacks vs key) : setAfterKey vs key value = vs ++ [key, value] := by
  rw [setAfterKey, positionOf_of_lacks h]

/-- **So it is if its key dangles.** -/
theorem setAfterKey_of_dangles (h : Dangles vs key) : setAfterKey vs key value = vs ++ [key, value] := by
  obtain ⟨us, u, rfl, hus, hu⟩ := h
  rw [setAfterKey, positionOf_split hus hu]
  simp

/-- **A property that is there is changed.** -/
theorem setAfterKey_split (hus : Lacks us key) (hu : Value.looseEq u key = true) :
    setAfterKey (us ++ u :: v :: ws) key value = us ++ u :: value :: ws := by
  rw [setAfterKey, positionOf_split hus hu]
  dsimp only
  rw [if_pos (by simp), List.set_append_right _ _ (by omega)]
  simp

theorem not_dangles_of_lacks (h : Lacks vs key) : ¬ Dangles vs key := by
  intro ⟨us, u, he, _, hu⟩
  subst he
  rw [h u (by simp)] at hu
  cases hu

/-- A value behind the key stays there. -/
theorem not_dangles_split (hu : Value.looseEq u key = true) :
    ¬ Dangles (us ++ u :: v :: ws) key := by
  intro ⟨xs, x, he, hxs, _⟩
  have hfront : us ++ u :: (v :: ws).dropLast = xs := by
    simpa [List.dropLast_append_of_ne_nil] using congrArg List.dropLast he
  rw [hxs u (by simp [← hfront])] at hu
  cases hu

/-- **What is found after a property has been set**: its value, or the key if that dangled. -/
theorem valueAfterKey_setAfterKey (vs : List Value) (value : Value)
    (hkey : Value.looseEq key key = true) :
    ∃ got, valueAfterKey (setAfterKey vs key value) key = some got ∧
      (¬ Dangles vs key → got = value) ∧ (Dangles vs key → got = key) := by
  rcases lacks_or_split vs key with h | ⟨us, u, ws, rfl, hus, hu⟩
  · refine ⟨value, ?_, fun _ => rfl, fun hd => absurd hd (not_dangles_of_lacks h)⟩
    rw [setAfterKey_of_lacks h, valueAfterKey_split h hkey]
    rfl
  · cases ws with
    | nil =>
      have hdangles : Dangles (us ++ [u]) key := ⟨us, u, rfl, hus, hu⟩
      refine ⟨key, ?_, fun h => absurd hdangles h, fun _ => rfl⟩
      rw [setAfterKey_of_dangles hdangles, List.append_assoc, List.singleton_append,
        valueAfterKey_split hus hu]
      rfl
    | cons v ws =>
      refine ⟨value, ?_, fun _ => rfl, fun hd => absurd hd (not_dangles_split hu)⟩
      rw [setAfterKey_split hus hu, valueAfterKey_split hus hu]
      rfl

/-! ## 2. Words -/

namespace Lists

variable {pool : List Value} {target : Option Pid} {p : ScopeId} {c : Context} {m : Machine}

theorem set (hm : Lists pool target p c m (vs ++ [key] ++ [value])) :
    (ListWord.set.perform c).Ends m
      (fun _ m' => Lists pool target p c m' (setAfterKey vs key value)) fun _ _ => False := by
  obtain ⟨m₁, hvalue, hm₁⟩ := hm.pop
  obtain ⟨m₂, hkey, hm₂⟩ := hm₁.pop
  refine (ends_bind_of_run hvalue).mpr ((ends_bind_of_run hkey).mpr ?_)
  refine (ends_bind_of_run hm₂.stackValues).mpr (hm₂.setStackValues fun v hv => ?_)
  rcases mem_setAfterKey hv with hv | rfl | rfl
  · exact hm₂.among hv
  · exact hm.among (by simp)
  · exact hm.among (by simp)

theorem get (hm : Lists pool none p c m (vs ++ [key])) (hgot : valueAfterKey vs key = some v) :
    (ListWord.get.perform c).Ends m (fun _ m' => Lists pool none p c m' (vs ++ [v]))
      fun _ _ => False := by
  obtain ⟨m₁, hkey, hm₁⟩ := hm.pop
  refine (ends_bind_of_run hkey).mpr ((ends_bind_of_run hm₁.stackValues).mpr ?_)
  rw [hgot]
  obtain ⟨i, -, hi⟩ := Option.bind_eq_some_iff.mp hgot
  exact hm₁.push (hm₁.among (List.mem_of_getElem? hi))

/-- A property is set, and looked for. -/
theorem set_then_get (hm : Lists pool none p c m vs) (key value : Value) (hkey : key ∈ pool) (hvalue : value ∈ pool) :
    ∃ got m₁ m₂,
      (do c.push key; c.push value; ListWord.set.perform c : Action Unit).run m = .ok () m₁ ∧
      Lists pool none p c m₁ (setAfterKey vs key value) ∧
      (do c.push key; ListWord.get.perform c : Action Unit).run m₁ = .ok () m₂ ∧
      Lists pool none p c m₂ (setAfterKey vs key value ++ [got]) ∧
      (¬ Dangles vs key → got = value) ∧ (Dangles vs key → got = key) := by
  obtain ⟨got, hgot, hfound, hdangling⟩ :=
    valueAfterKey_setAfterKey vs value (Value.looseEq_self (hm.admits hkey).plain)
  have hset : (do c.push key; c.push value; ListWord.set.perform c : Action Unit).Ends m
      (fun _ m' => Lists pool none p c m' (setAfterKey vs key value)) fun _ _ => False :=
    (hm.push hkey).bind fun _ _ hm => (hm.push hvalue).bind fun _ _ hm => hm.set
  obtain ⟨_, m₁, hrun₁, hm₁⟩ := hset.run_eq_ok
  have hget : (do c.push key; ListWord.get.perform c : Action Unit).Ends m₁
      (fun _ m' => Lists pool none p c m' (setAfterKey vs key value ++ [got])) fun _ _ => False :=
    (hm₁.push hkey).bind fun _ _ hm => hm.get hgot
  obtain ⟨_, m₂, hrun₂, hm₂⟩ := hget.run_eq_ok
  exact ⟨got, m₁, m₂, hrun₁, hm₁, hrun₂, hm₂, hfound, hdangling⟩

end Lists

/-! ## 3. In a running environment -/

namespace Ensemble

variable {w : Ensemble}

/-- The stack of the top level, with values to come. -/
theorem Reachable.lists_top (hw : w.Reachable) (ws : List Value)
    (hsession : ∀ r, w.machine.arena.get? rootScope = some r → r.pushTarget = none)
    (hvs : Context.top.stackValues.outcome w.machine = (.ok vs, w.machine))
    (hplain : ∀ v ∈ vs, v.isDouble = false) (hws : ∀ v ∈ ws, v.isDouble = false)
    (hblock : ∀ h, .block h ∈ ws → w.machine.arena.resolveBlock rootScope h = .ok h) :
    Lists (ws ++ vs) none rootScope .top w.machine vs := by
  have hS := hw.starts (Or.inl rfl)
  refine (Lists.of_stackValues hS hsession hvs hplain).add ws fun v hv => ?_
  by_cases hno : ∀ h, v ≠ .block h
  · exact hS.regular.admits (hws v hv) hno
  · obtain ⟨h, hh⟩ := not_forall_not.mp hno
    subst hh
    refine ⟨rfl, Or.inl ⟨.block h, ?_⟩⟩
    show (w.machine.arena.resolveBlock rootScope h).map _ = _
    rw [hblock h hv]
    rfl

/-- **A property that has been set is found.** At the top level, without a push session, let the stack
have values, none of them a double. Setting a property changes the value behind the first value that
equals the key, and puts key and value on top if there is no such value or nothing behind it. Getting it
then pushes its value, on what setting it has left; but if the key dangled before, so that key and value
have been put on top, what is found is the key. -/
theorem Reachable.set_get (hw : w.Reachable)
    (hsession : ∀ r, w.machine.arena.get? rootScope = some r → r.pushTarget = none)
    (hvs : Context.top.stackValues.outcome w.machine = (.ok vs, w.machine))
    (hplain : ∀ v ∈ vs, v.isDouble = false) (hkey : key.isDouble = false)
    (hvalue : value.isDouble = false)
    (hblock : ∀ h, .block h ∈ [key, value] → w.machine.arena.resolveBlock rootScope h = .ok h) :
    ∃ ws got m₁ m₂,
      (do Context.top.push key; Context.top.push value; ListWord.set.perform .top).outcome w.machine =
        (.ok (), m₁) ∧
      Context.top.stackValues.outcome m₁ = (.ok ws, m₁) ∧
      (do Context.top.push key; ListWord.get.perform .top).outcome m₁ = (.ok (), m₂) ∧
      Context.top.stackValues.outcome m₂ = (.ok (ws ++ [got]), m₂) ∧
      (Lacks vs key → ws = vs ++ [key, value]) ∧
      (∀ us u v rest, vs = us ++ u :: v :: rest → Lacks us key → Value.looseEq u key = true →
        ws = us ++ u :: value :: rest) ∧
      (¬ Dangles vs key → got = value) ∧
      (Dangles vs key → ws = vs ++ [key, value] ∧ got = key) := by
  have hm := hw.lists_top [key, value] hsession hvs hplain (by simp [hkey, hvalue]) hblock
  obtain ⟨got, m₁, m₂, hset, hm₁, hget, hm₂, hfound, hdangling⟩ :=
    hm.set_then_get key value (by simp) (by simp)
  refine ⟨_, got, m₁, m₂, by rw [outcome, hset], hm₁.outcome, by rw [outcome, hget], hm₂.outcome,
    setAfterKey_of_lacks, fun us u v rest he hus hu => ?_, hfound,
    fun h => ⟨setAfterKey_of_dangles h, hdangling h⟩⟩
  rw [he, setAfterKey_split hus hu]

/-- A key that is there twice, with a value behind the first. -/
theorem Reachable.set_get_twice : ∃ (w : Ensemble) (m₁ m₂ : Machine), w.Reachable ∧
    Context.top.stackValues.outcome w.machine = (.ok [.int 1, .str "a", .str "1"], w.machine) ∧
    (do Context.top.push (.str "1"); Context.top.push (.bool true); ListWord.set.perform .top).outcome
      w.machine = (.ok (), m₁) ∧
    Context.top.stackValues.outcome m₁ = (.ok [.int 1, .bool true, .str "1"], m₁) ∧
    (do Context.top.push (.str "1"); ListWord.get.perform .top).outcome m₁ = (.ok (), m₂) ∧
    Context.top.stackValues.outcome m₂ = (.ok [.int 1, .bool true, .str "1", .bool true], m₂) := by
  obtain ⟨w, hw, hm⟩ := exists_lists [.int 1, .str "a", .str "1"] (by simp [Value.isDouble])
    (by simp)
  obtain ⟨ws, got, m₁, m₂, hset, hws, hget, hleft, -, hchanged, hfound, -⟩ :=
    hw.set_get (fun r hr => hm.session hr) hm.outcome (by simp [Value.isDouble])
      (show (Value.str "1").isDouble = false from rfl) (show (Value.bool true).isDouble = false from rfl)
      (by simp)
  have hfirst : Value.looseEq (.int 1) (.str "1") = true := by decide +kernel
  have hbehind : ¬ Dangles ([] ++ .int 1 :: .str "a" :: [.str "1"]) (.str "1") :=
    not_dangles_split hfirst
  cases hfound hbehind
  cases hchanged [] _ _ _ rfl (lacks_nil _) hfirst
  exact ⟨w, m₁, m₂, hw, hm.outcome, hset, hws, hget, hleft⟩

/-- A key that is on top, with nothing behind it: the property is appended, and the key is found. -/
theorem not_set_get : ¬ ∀ (w : Ensemble) (vs : List Value) (key value : Value), w.Reachable →
    (∀ r, w.machine.arena.get? rootScope = some r → r.pushTarget = none) →
    Context.top.stackValues.outcome w.machine = (.ok vs, w.machine) →
    (∀ v ∈ vs, v.isDouble = false) → key.isDouble = false → value.isDouble = false →
    (∀ h, .block h ∈ [key, value] → w.machine.arena.resolveBlock rootScope h = .ok h) →
    ∃ ws m₁ m₂,
      (do Context.top.push key; Context.top.push value; ListWord.set.perform .top).outcome w.machine =
        (.ok (), m₁) ∧
      Context.top.stackValues.outcome m₁ = (.ok ws, m₁) ∧
      (do Context.top.push key; ListWord.get.perform .top).outcome m₁ = (.ok (), m₂) ∧
      Context.top.stackValues.outcome m₂ = (.ok (ws ++ [value]), m₂) := by
  intro hclaim
  obtain ⟨w, hw, hm⟩ := exists_lists [.str "k"] (by simp [Value.isDouble]) (by simp)
  have hsession : ∀ r, w.machine.arena.get? rootScope = some r → r.pushTarget = none := fun r hr =>
    hm.session hr
  obtain ⟨ws, m₁, m₂, hset, hws, hget, hleft⟩ := hclaim w [.str "k"] (.str "k") (.int 5) hw hsession
    hm.outcome (by simp [Value.isDouble]) rfl rfl (by simp)
  have hm' := hw.lists_top [.str "k", .int 5] hsession hm.outcome (by simp [Value.isDouble])
    (by simp [Value.isDouble]) (by simp)
  obtain ⟨got, n₁, n₂, hset', hn₁, hget', hn₂, -, hdangling⟩ :=
    hm'.set_then_get (.str "k") (.int 5) (by simp) (by simp)
  cases hdangling ⟨[], .str "k", rfl, lacks_nil _, Value.looseEq_self rfl⟩
  rw [outcome, hset'] at hset
  cases hset
  cases hn₁.outcome.symm.trans hws
  rw [outcome, hget'] at hget
  cases hget
  cases hn₂.outcome.symm.trans hleft

end Ensemble

end ScopeStack
