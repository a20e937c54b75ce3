import ScopeStack.Proofs.Integers
import ScopeStack.Proofs.OwnStack

/-!
# Positions in strings

The words for strings count characters, each in its own way: one of them searches and gives a
position, one cuts between two positions, one reads at a position, and one measures. They mean the
same positions, whatever the characters are and however many bytes they have.

* `findText_eq_some_iff`, `findText_eq_none_iff`: a search finds the first place at which the needle
  stands.
* `substring?_needle`: cutting gives the needle just where it stands.
* `TextWord.Yields`, `TextWord.Fails`: what a word does with its operands, wherever these are on the
  stack. It does only one thing (`TextWord.Yields.unique`, `TextWord.Yields.not_fails`).
* `TextWord.positions_agree`: **a search gives the least position at which cutting gives the needle,
  and what is cut out has the characters that are read from there on.**
-/

namespace ScopeStack

open ScopeStack.Action

/-! ## 1. The first occurrence -/

/-- The needle stands at a position of the text. -/
def Stands (needle text : List Char) (k : Nat) : Prop :=
  k ≤ text.length ∧ needle <+: text.drop k

theorem stands_nil {needle : List Char} {k : Nat} : Stands needle [] k ↔ k = 0 ∧ needle = [] := by
  simp [Stands]

theorem stands_zero {needle text : List Char} :
    Stands needle text 0 ↔ needle.isPrefixOf text = true := by
  simp [Stands]

theorem stands_succ {needle text : List Char} {c : Char} {k : Nat} :
    Stands needle (c :: text) (k + 1) ↔ Stands needle text k := by
  simp [Stands]

/-- **What is found is the first position at which the needle stands.** -/
theorem findText_eq_some_iff {needle text : List Char} {n : Nat} :
    findText needle text = some n ↔
      Stands needle text n ∧ ∀ k < n, ¬ Stands needle text k := by
  induction text generalizing n with
  | nil =>
    simp only [findText, stands_nil, List.isEmpty_iff]
    split
    · rename_i h
      refine ⟨fun he => ?_, fun he => congrArg some he.1.1.symm⟩
      cases he
      exact ⟨⟨rfl, h⟩, fun k hk => absurd hk (Nat.not_lt_zero k)⟩
    · rename_i h
      exact ⟨fun he => (by cases he), fun he => absurd he.1.2 h⟩
  | cons c text ih =>
    rw [findText]
    split
    · rename_i h
      have hhere := stands_zero.mpr h
      constructor
      · intro he
        cases he
        exact ⟨hhere, fun k hk => absurd hk (Nat.not_lt_zero k)⟩
      · intro he
        exact congrArg some (Nat.eq_zero_of_not_pos fun hn => he.2 0 hn hhere).symm
    · rename_i h
      cases n with
      | zero =>
        rw [Option.map_eq_some_iff, stands_zero]
        constructor
        · intro he
          obtain ⟨_, -, hsucc⟩ := he
          cases hsucc
        · exact fun he => absurd he.1 h
      | succ n =>
        simp only [Option.map_eq_some_iff, Nat.succ.injEq, exists_eq_right, ih, stands_succ]
        refine and_congr_right fun _ => ⟨fun hbefore k hk => ?_, fun hbefore k hk => ?_⟩
        · cases k with
          | zero => exact fun hp => h (stands_zero.mp hp)
          | succ k => exact fun hp => hbefore k (Nat.lt_of_succ_lt_succ hk) (stands_succ.mp hp)
        · exact fun hp => hbefore (k + 1) (Nat.succ_lt_succ hk) (stands_succ.mpr hp)

/-- **Nothing is found where the needle stands nowhere.** -/
theorem findText_eq_none_iff {needle text : List Char} :
    findText needle text = none ↔ ∀ k, ¬ Stands needle text k := by
  induction text with
  | nil => simp [findText, stands_nil]
  | cons c text ih =>
    rw [findText]
    split
    · rename_i h
      exact ⟨fun he => (by cases he), fun hno => absurd (stands_zero.mpr h) (hno 0)⟩
    · rename_i h
      rw [Option.map_eq_none_iff, ih]
      refine ⟨fun hno k => ?_, fun hno k hp => hno (k + 1) (stands_succ.mpr hp)⟩
      cases k with
      | zero => exact fun hp => h (stands_zero.mp hp)
      | succ k => exact fun hp => hno k (stands_succ.mp hp)

/-- A search by word gives the first position, or minus one. -/
theorem positionIn_spec (search text : String) :
    (∀ n : Nat, positionIn search text = n ↔ Stands search.toList text.toList n ∧
      ∀ k < n, ¬ Stands search.toList text.toList k) ∧
    (positionIn search text = -1 ↔ ∀ k, ¬ Stands search.toList text.toList k) := by
  have hindex := index_firstIn search text
  simp only [← findText_eq_some_iff, ← findText_eq_none_iff, ← hindex, positionIn]
  cases firstIn search text with
  | none => simp
  | some o =>
    simp only [Option.map_some, Option.some.injEq, Int.natCast_inj, implies_true, reduceCtorEq,
      true_and]

/-! ## 2. Parts and characters -/

variable {s t f : String} {a b k n : Nat}

theorem substring?_of_le (hab : a ≤ b) (hb : b ≤ s.length) :
    substring? s a b = .ok (textBetween s a b) := by
  rw [substring?, if_neg (Nat.not_lt_of_le hb), if_neg (Nat.not_lt_of_le hab)]

theorem substring?_of_lt (hb : s.length < b) :
    substring? s a b = .error (.characterOutOfRange b s.length) := by
  rw [substring?, if_pos hb]

/-- **Cutting gives the needle just where it stands.** -/
theorem substring?_needle :
    substring? s k (k + f.length) = .ok f ↔ Stands f.toList s.toList k := by
  have hle : k ≤ k + f.length := Nat.le_add_right k _
  unfold Stands
  by_cases hb : k + f.length ≤ s.length
  · rw [substring?_of_le hle hb, Except.ok.injEq, ← String.toList_inj, toList_textBetween s hle,
      Nat.add_sub_cancel_left, List.prefix_iff_eq_take, String.length_toList, String.length_toList]
    exact ⟨fun h => ⟨Nat.le_trans hle hb, h.symm⟩, fun h => h.2.symm⟩
  · rw [substring?_of_lt (Nat.lt_of_not_le hb)]
    constructor
    · intro h
      cases h
    · intro ⟨hk, hp⟩
      have hlen := hp.length_le
      rw [List.length_drop, String.length_toList, String.length_toList] at hlen
      rw [String.length_toList] at hk
      omega

theorem length_textBetween (hab : a ≤ b) (hb : b ≤ s.length) :
    (textBetween s a b).length = b - a := by
  rw [← String.length_toList, toList_textBetween s hab, List.length_take, List.length_drop,
    String.length_toList]
  omega

/-- What is cut out has the characters that are read from there on. -/
theorem charCodeAt_textBetween (hab : a ≤ b) (hb : b ≤ s.length) (hk : k < b - a) :
    ∃ code, charCodeAt (textBetween s a b) k = .ok code ∧ charCodeAt s (a + k) = .ok code := by
  have hin : a + k < s.toList.length := by
    rw [String.length_toList]
    omega
  refine ⟨(s.toList[a + k]).toNat, ?_, ?_⟩
  · have hchar : charAt? (textBetween s a b) k = some s.toList[a + k] := by
      rw [charAt?_eq, toList_textBetween s hab, List.getElem?_take_of_lt hk, List.getElem?_drop,
        List.getElem?_eq_getElem hin]
    rw [charCodeAt, hchar]
  · rw [charCodeAt, charAt?_eq, List.getElem?_eq_getElem hin]

/-! ## 3. Operands -/

section Operands

variable {c : Context} {m m' : Machine}

/-- These values are taken from the stack, the last of them first. -/
def Context.Takes (c : Context) : List Value → Machine → Machine → Prop
  | [], m, m' => m' = m
  | v :: vs, m, m' => ∃ m₁, c.Takes vs m m₁ ∧ c.pop.run m₁ = .ok v m'

/-- Wherever its operands can be taken from the stack, the word takes them and pushes a value. -/
def TextWord.Yields (w : TextWord) (operands : List Value) (v : Value) : Prop :=
  ∀ (c : Context) (m m' : Machine), c.Takes operands m m' →
    (w.perform c).run m = (c.push v).run m'

/-- Wherever its operands can be taken from the stack, the word fails. -/
def TextWord.Fails (w : TextWord) (operands : List Value) : Prop :=
  ∀ (c : Context) (m m' : Machine), c.Takes operands m m' →
    ∃ e m₁, (w.perform c).run m = .error e m₁

/-- What is on the innermost stack can be taken. -/
theorem Lists.takes {pool vs ws : List Value} {target : Option Pid} {p : ScopeId}
    (hm : Lists pool target p c m (ws ++ vs)) :
    ∃ m', c.Takes vs m m' ∧ Lists pool target p c m' ws := by
  induction vs generalizing ws with
  | nil =>
    rw [List.append_nil] at hm
    exact ⟨m, rfl, hm⟩
  | cons v vs ih =>
    rw [List.append_cons] at hm
    obtain ⟨m₁, htake, hm₁⟩ := ih hm
    obtain ⟨m₂, hpop, hm₂⟩ := hm₁.pop
    exact ⟨m₂, ⟨m₁, htake, hpop⟩, hm₂⟩

/-- A value that stands for itself everywhere: neither a double nor a block. -/
def Value.Portable (v : Value) : Prop := v.isDouble = false ∧ ∀ h, v ≠ .block h

@[simp] theorem Value.portable_str (s : String) : (Value.str s).Portable := ⟨rfl, nofun⟩

@[simp] theorem Value.portable_ofInt (n : Int) : (Value.ofInt n).Portable := by
  unfold Value.ofInt
  split <;> exact ⟨rfl, nofun⟩

@[simp] theorem Value.portable_ofNat (n : Nat) : (Value.ofNat n).Portable := portable_ofInt n

/-- There are stacks from which they can be taken, and onto which more can be pushed. -/
theorem exists_takes (operands others : List Value) (hboth : ∀ v ∈ operands ++ others, v.Portable) :
    ∃ m m', Context.top.Takes operands m m' ∧
      Lists (others ++ operands) none rootScope .top m' [] := by
  have hoperand (v : Value) (hv : v ∈ operands) : v.Portable :=
    hboth v (List.mem_append_left _ hv)
  obtain ⟨w, -, hm⟩ := Ensemble.exists_lists operands (fun v hv => (hoperand v hv).1)
    fun v hv => (hoperand v hv).2
  have hadd := hm.add others fun v hv =>
    have ⟨hplain, hblock⟩ := hboth v (List.mem_append_right _ hv)
    hm.starts.regular.admits hplain hblock
  exact ⟨_, hadd.takes⟩

theorem Context.popText_run (h : c.pop.run m = .ok (.str s) m') : c.popText.run m = .ok s m' := by
  rw [popText, EStateM.run_bind, h]
  rfl

/-- A position that fits a machine word is taken for itself. -/
theorem Context.popNat_run (hn : (n : Int) ≤ maxMachineInt) (h : c.pop.run m = .ok (.ofNat n) m') :
    c.popNat.run m = .ok n m' := by
  obtain ⟨w, hw⟩ := (Value.canonical_ofInt n).word_iff.mpr ⟨by unfold minMachineInt; omega, hn⟩
  have hint : w.toInt = n := by
    have hto := (Value.canonical_ofInt n).toInt
    rw [hw] at hto
    exact Option.some.inj hto
  have hpop : c.popInt.run m = .ok w m' := by
    rw [popInt, EStateM.run_bind, h, Value.ofNat, hw]
    rfl
  rw [popNat, EStateM.run_bind, hpop]
  dsimp only
  rw [hint, if_neg (Int.not_lt.mpr (Int.natCast_nonneg n))]
  rfl

/-- Any other is not taken. -/
theorem Context.popNat_fails (hn : ¬ (n : Int) ≤ maxMachineInt)
    (h : c.pop.run m = .ok (.ofNat n) m') : ∃ e, c.popNat.run m = .error e m' := by
  have hbig : Value.ofNat n = .big n := by
    unfold Value.ofNat Value.ofInt
    rw [machineInt?, if_neg fun hfits => hn hfits.2]
  rw [hbig] at h
  refine ⟨⟨.mismatch .integer, none⟩, ?_⟩
  rw [popNat, EStateM.run_bind, popInt, EStateM.run_bind, h]
  rfl

end Operands

/-! ## 4. Words -/

namespace TextWord

/-- A word does not do two things. -/
theorem Yields.unique {w : TextWord} {operands : List Value} {v v' : Value}
    (hv : w.Yields operands v) (hv' : w.Yields operands v')
    (hall : ∀ u ∈ operands ++ [v, v'], u.Portable) : v = v' := by
  obtain ⟨m, m', htake, hm⟩ := exists_takes operands [v, v'] hall
  have hpool : v ∈ [v, v'] ++ operands := List.mem_append_left _ (by simp)
  have hpool' : v' ∈ [v, v'] ++ operands := List.mem_append_left _ (by simp)
  obtain ⟨_, m₁, hrun, hlist⟩ := (hm.push hpool).run_eq_ok
  obtain ⟨_, m₂, hrun', hlist'⟩ := (hm.push hpool').run_eq_ok
  have hsame := (hv _ _ _ htake).symm.trans (hv' _ _ _ htake)
  rw [hrun, hrun'] at hsame
  cases hsame
  have hread := hlist.stackValues.symm.trans hlist'.stackValues
  cases hread
  rfl

/-- What yields a value does not fail. -/
theorem Yields.not_fails {w : TextWord} {operands : List Value} {v : Value}
    (hv : w.Yields operands v) (hall : ∀ u ∈ operands ++ [v], u.Portable) :
    ¬ w.Fails operands := by
  intro hfails
  obtain ⟨m, m', htake, hm⟩ := exists_takes operands [v] hall
  obtain ⟨_, m₁, hrun, -⟩ := (hm.push (List.mem_append_left _ List.mem_cons_self)).run_eq_ok
  obtain ⟨e, m₂, hfail⟩ := hfails _ _ _ htake
  rw [hv _ _ _ htake, hrun] at hfail
  cases hfail

theorem length_yields (s : String) : length.Yields [.str s] (.ofNat s.length) := by
  rintro c m m' ⟨_, rfl, hs⟩
  show (c.popText >>= _).run _ = _
  rw [EStateM.run_bind, Context.popText_run hs]

theorem charAt_yields {code : Nat} (hn : (n : Int) ≤ maxMachineInt)
    (h : charCodeAt s n = .ok code) : charAt.Yields [.str s, .ofNat n] (.ofNat code) := by
  rintro c m m' ⟨m₁, ⟨_, rfl, hindex⟩, hs⟩
  show (c.popNat >>= fun index => c.popText >>= fun text => _).run _ = _
  rw [EStateM.run_bind, Context.popNat_run hn hindex]
  dsimp only
  rw [EStateM.run_bind, Context.popText_run hs]
  dsimp only
  rw [h]
  rfl

theorem substring_yields (ha : (a : Int) ≤ maxMachineInt) (hb : (b : Int) ≤ maxMachineInt)
    (h : substring? s a b = .ok t) : substring.Yields [.str s, .ofNat a, .ofNat b] (.str t) := by
  rintro c m m' ⟨m₁, ⟨m₂, ⟨_, rfl, hstop⟩, hstart⟩, hs⟩
  show (c.popNat >>= fun stop => c.popNat >>= fun start => c.popText >>= fun text => _).run _ = _
  rw [EStateM.run_bind, Context.popNat_run hb hstop]
  dsimp only
  rw [EStateM.run_bind, Context.popNat_run ha hstart]
  dsimp only
  rw [EStateM.run_bind, Context.popText_run hs]
  dsimp only
  rw [h]
  rfl

/-- Cutting behind the end fails, be it because no position is that large. -/
theorem substring_fails (hab : a ≤ b) (hb : s.length < b) :
    substring.Fails [.str s, .ofNat a, .ofNat b] := by
  rintro c m m' ⟨m₁, ⟨m₂, ⟨_, rfl, hstop⟩, hstart⟩, hs⟩
  show ∃ e m₁, (c.popNat >>= fun stop => c.popNat >>= fun start => c.popText >>= fun text =>
    _).run _ = .error e m₁
  by_cases hfits : (b : Int) ≤ maxMachineInt
  · rw [EStateM.run_bind, Context.popNat_run hfits hstop]
    dsimp only
    rw [EStateM.run_bind, Context.popNat_run (Int.le_trans (Int.ofNat_le.mpr hab) hfits) hstart]
    dsimp only
    rw [EStateM.run_bind, Context.popText_run hs]
    dsimp only
    rw [substring?_of_lt hb]
    exact ⟨_, _, rfl⟩
  · obtain ⟨e, he⟩ := Context.popNat_fails hfits hstop
    rw [EStateM.run_bind, he]
    exact ⟨_, _, rfl⟩

theorem find_yields (s f : String) : find.Yields [.str s, .str f] (.ofInt (positionIn f s)) := by
  rintro c m m' ⟨m₁, ⟨_, rfl, hf⟩, hs⟩
  show (c.popText >>= fun search => c.popText >>= fun text => _).run _ = _
  rw [EStateM.run_bind, Context.popText_run hf]
  dsimp only
  rw [EStateM.run_bind, Context.popText_run hs]

/-- Cutting out of the string, from a position and as long as the other one is, gives that one. -/
def OccursAt (f s : String) (k : Nat) : Prop :=
  substring.Yields [.str s, .ofNat k, .ofNat (k + f.length)] (.str f)

theorem occursAt_iff (hs : (s.length : Int) ≤ maxMachineInt) :
    OccursAt f s k ↔ Stands f.toList s.toList k := by
  rw [← substring?_needle]
  by_cases hin : k + f.length ≤ s.length
  · -- there is a part, and so it is the one that the word gives
    have hle : k ≤ k + f.length := Nat.le_add_right k _
    have hpart := substring?_of_le hle hin
    have hyields := substring_yields (by omega) (by omega) hpart
    rw [hpart, Except.ok.injEq]
    refine ⟨fun hoccurs => ?_, fun he => ?_⟩
    · exact Value.str.inj (hyields.unique hoccurs (by simp))
    · rw [he] at hyields
      exact hyields
  · have hout := Nat.lt_of_not_le hin
    rw [substring?_of_lt hout]
    refine ⟨fun hoccurs => ?_, fun he => (by cases he)⟩
    exact absurd (substring_fails (Nat.le_add_right k _) hout) (hoccurs.not_fails (by simp))

/-- **Positions agree between words**, in every string whose length is a machine word, as that of any
string in memory is. The word that searches gives the least position from which cutting gives the
other string, and minus one just if there is none; it gives 0 for the empty string. Cutting between
two positions succeeds just if the second is no greater than the length. What is cut out is as long as
the positions are apart, and reading at a position of it gives the code that reading as far behind the
first position gives. -/
theorem positions_agree (s f : String) (hs : (s.length : Int) ≤ maxMachineInt) :
    (length.Yields [.str s] (.ofNat s.length) ∧ length.Yields [.str f] (.ofNat f.length)) ∧
    (∃ i : Int, find.Yields [.str s, .str f] (.ofInt i) ∧
      (∀ n : Nat, i = n ↔ OccursAt f s n ∧ ∀ k < n, ¬ OccursAt f s k) ∧
      (i = -1 ↔ ∀ k, ¬ OccursAt f s k) ∧ (f = "" → i = 0)) ∧
    ∀ a b : Nat, a ≤ b →
      (s.length < b → substring.Fails [.str s, .ofNat a, .ofNat b]) ∧
      (b ≤ s.length → ∃ t, substring.Yields [.str s, .ofNat a, .ofNat b] (.str t) ∧
        length.Yields [.str t] (.ofNat (b - a)) ∧
        ∀ k < b - a, ∃ code, charAt.Yields [.str t, .ofNat k] (.ofNat code) ∧
          charAt.Yields [.str s, .ofNat (a + k)] (.ofNat code)) := by
  refine ⟨⟨length_yields s, length_yields f⟩, ⟨positionIn f s, find_yields s f, ?_, ?_, ?_⟩,
    fun a b hab => ⟨substring_fails hab, fun hb => ?_⟩⟩
  · intro n
    simp only [occursAt_iff hs]
    exact (positionIn_spec f s).1 n
  · simp only [occursAt_iff hs]
    exact (positionIn_spec f s).2
  · intro hf
    have hstands : Stands f.toList s.toList 0 := stands_zero.mpr (by simp [hf])
    exact ((positionIn_spec f s).1 0).mpr ⟨hstands, fun k hk => absurd hk (Nat.not_lt_zero k)⟩
  · refine ⟨textBetween s a b, ?_, ?_, fun k hk => ?_⟩
    · exact substring_yields (by omega) (by omega) (substring?_of_le hab hb)
    · have hlength := length_yields (textBetween s a b)
      rwa [length_textBetween hab hb] at hlength
    · obtain ⟨code, hpart, hwhole⟩ := charCodeAt_textBetween hab hb hk
      exact ⟨code, charAt_yields (by omega) hpart, charAt_yields (by omega) hwhole⟩

/-- Two occurrences overlap: the first of them is found, and characters of two bytes count once. -/
theorem positions_agree_overlapping :
    ∃ m m', Context.top.Takes [.str "xäaäaä", .str "äaä"] m m' ∧
      (find.perform .top).run m = (Context.top.push (.ofInt 1)).run m' ∧
      OccursAt "äaä" "xäaäaä" 1 ∧ OccursAt "äaä" "xäaäaä" 3 ∧ ¬ OccursAt "äaä" "xäaäaä" 0 ∧
      substring.Fails [.str "xäaäaä", .ofNat 4, .ofNat 7] := by
  have hs : (("xäaäaä".length : Nat) : Int) ≤ maxMachineInt := by decide +kernel
  obtain ⟨m, m', htake, -⟩ := exists_takes [.str "xäaäaä", .str "äaä"] [] (by simp)
  obtain ⟨-, ⟨i, hfind, hleast, -, -⟩, hparts⟩ := positions_agree "xäaäaä" "äaä" hs
  have hone : OccursAt "äaä" "xäaäaä" 1 :=
    (occursAt_iff hs).mpr (by unfold Stands; decide +kernel)
  have hthree : OccursAt "äaä" "xäaäaä" 3 :=
    (occursAt_iff hs).mpr (by unfold Stands; decide +kernel)
  have hzero : ¬ OccursAt "äaä" "xäaäaä" 0 :=
    mt (occursAt_iff hs).mp (by unfold Stands; decide +kernel)
  obtain rfl : i = (1 : Nat) := (hleast 1).mpr ⟨hone, fun k hk => by
    obtain rfl : k = 0 := Nat.lt_one_iff.mp hk
    exact hzero⟩
  exact ⟨m, m', htake, hfind _ m m' htake, hone, hthree, hzero,
    (hparts 4 7 (by decide)).1 (by decide +kernel)⟩

end TextWord

end ScopeStack
