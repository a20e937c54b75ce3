/-!
# Places in a text

Positions in a text count characters. The place behind a number of characters is found by walking,
or at once in a text all of whose characters have one byte.

* `isNarrow`: has every character one byte?
* **`splits_posAfter`**: the place behind `n` characters divides the text into the first `n`
  characters and the others.
* `charAt?`, `toList_textBetween`: the character at a position, and the text between two, are those
  of the list of characters.
-/

namespace ScopeStack

/-! ## 1. Narrow texts -/

/-- Has every character one byte? -/
def isNarrow (s : String) : Bool := s.utf8ByteSize == s.length

theorem length_le_utf8ByteSize (s : String) : s.length ≤ s.utf8ByteSize := by
  suffices h : ∀ cs : List Char, cs.length ≤ (String.ofList cs).utf8ByteSize by
    simpa [String.length_toList] using h s.toList
  intro cs
  induction cs with
  | nil => simp
  | cons c cs ih =>
    have hs : String.ofList (c :: cs) = String.singleton c ++ String.ofList cs := by
      rw [← String.toList_inj]
      simp
    rw [hs, String.utf8ByteSize_append, String.utf8ByteSize_singleton, List.length_cons]
    have := Char.utf8Size_pos c
    omega

/-- The first `n` characters of a narrow text have `n` bytes. -/
theorem utf8ByteSize_take {s : String} (h : isNarrow s = true) {n : Nat} (hn : n ≤ s.length) :
    (String.ofList (s.toList.take n)).utf8ByteSize = n := by
  have hs : s = String.ofList (s.toList.take n) ++ String.ofList (s.toList.drop n) := by
    rw [← String.toList_inj]
    simp
  have hb := congrArg String.utf8ByteSize hs
  have hl := congrArg String.length hs
  rw [String.utf8ByteSize_append] at hb
  rw [String.length_append] at hl
  have h1 := length_le_utf8ByteSize (String.ofList (s.toList.take n))
  have h2 := length_le_utf8ByteSize (String.ofList (s.toList.drop n))
  have h3 : (String.ofList (s.toList.take n)).length = n := by
    simp [String.length_toList, hn]
  have h4 : s.utf8ByteSize = s.length := by simpa [isNarrow] using h
  omega

/-- In a narrow text every number of bytes is that of some characters. -/
theorem isValid_of_isNarrow {s : String} (h : isNarrow s = true) {n : Nat} (hn : n ≤ s.length) :
    String.Pos.Raw.IsValid s ⟨n⟩ := by
  refine String.Pos.Raw.isValid_iff_exists_append.mpr
    ⟨String.ofList (s.toList.take n), String.ofList (s.toList.drop n), ?_, ?_⟩
  · rw [← String.toList_inj]
    simp
  · rw [String.Pos.Raw.ext_iff]
    exact (utf8ByteSize_take h hn).symm

/-! ## 2. The place behind some characters -/

/-- The place a number of characters further on, or the end. -/
def walk {s : String} : Nat → s.Pos → s.Pos
  | 0, p => p
  | n + 1, p => if h : p = s.endPos then p else walk n (p.next h)

theorem splits_walk {s : String} (n : Nat) {p : s.Pos} {t u : String} (h : p.Splits t u) :
    (walk n p).Splits (t ++ String.ofList (u.toList.take n)) (String.ofList (u.toList.drop n)) := by
  induction n generalizing p t u with
  | zero => simpa [walk] using h
  | succ n ih =>
    rw [walk]
    split
    · rename_i hp
      have hu : u = "" := h.eq_endPos_iff.mp hp
      subst hu
      simpa using h
    · rename_i hp
      obtain ⟨v, rfl⟩ := h.exists_eq_singleton_append hp
      have := ih h.next
      have hs : t ++ String.singleton (p.get hp) ++ String.ofList (v.toList.take n) =
          t ++ String.ofList (((String.singleton (p.get hp) ++ v).toList).take (n + 1)) := by
        rw [← String.toList_inj]
        simp
      rw [hs] at this
      simpa using this

/-- The place behind the first characters of a text, or the end. -/
def posAfter (s : String) (n : Nat) : s.Pos :=
  if h : isNarrow s = true ∧ n ≤ s.length then ⟨⟨n⟩, isValid_of_isNarrow h.1 h.2⟩
  else walk n s.startPos

/-- **The place behind `n` characters divides a text into the first `n` characters and the
others.** -/
theorem splits_posAfter (s : String) (n : Nat) :
    (posAfter s n).Splits (String.ofList (s.toList.take n)) (String.ofList (s.toList.drop n)) := by
  unfold posAfter
  split
  · rename_i h
    refine ⟨?_, ?_⟩
    · rw [← String.toList_inj]
      simp
    · rw [String.Pos.Raw.ext_iff]
      exact (utf8ByteSize_take h.1 h.2).symm
  · simpa using splits_walk n (String.splits_startPos s)

/-! ## 3. Characters and parts -/

/-- The character at a position. -/
def charAt? (s : String) (n : Nat) : Option Char :=
  let p := posAfter s n
  if h : p = s.endPos then none else some (p.get h)

theorem charAt?_eq (s : String) (n : Nat) : charAt? s n = s.toList[n]? := by
  have hp := splits_posAfter s n
  unfold charAt?
  simp only
  split
  · rename_i h
    have : s.toList.drop n = [] := by
      simpa using hp.eq_endPos_iff.mp h
    rw [List.getElem?_eq_none (List.drop_eq_nil_iff.mp this)]
  · rename_i h
    obtain ⟨v, hv⟩ := hp.exists_eq_singleton_append h
    have := congrArg (fun t : String => t.toList[0]?) hv
    simpa using this.symm

/-- The text between two places. -/
theorem extract_eq {s t u v : String} {p q : s.Pos} (hp : p.Splits t (u ++ v))
    (hq : q.Splits (t ++ u) v) : s.extract p q = u := by
  rw [← String.toByteArray_inj, String.toByteArray_extract, hp.offset_eq_rawEndPos,
    hq.offset_eq_rawEndPos, hp.eq_append]
  have ht : t.toByteArray.extract t.utf8ByteSize (t.utf8ByteSize + u.utf8ByteSize) =
      ByteArray.empty := by
    simp [ByteArray.extract_eq_empty_iff, ← String.size_toByteArray]
  have hu : u.toByteArray.extract 0 u.utf8ByteSize = u.toByteArray := by
    rw [← String.size_toByteArray, ByteArray.extract_zero_size]
  simp [ByteArray.extract_append, String.toByteArray_append, ht, hu]

/-- The text between two positions. -/
def textBetween (s : String) (start stop : Nat) : String :=
  s.extract (posAfter s start) (posAfter s stop)

theorem toList_textBetween (s : String) {start stop : Nat} (h : start ≤ stop) :
    (textBetween s start stop).toList = (s.toList.drop start).take (stop - start) := by
  have hp := splits_posAfter s start
  have hq := splits_posAfter s stop
  have h1 : String.ofList (s.toList.drop start) =
      String.ofList ((s.toList.drop start).take (stop - start)) ++
        String.ofList (s.toList.drop stop) := by
    have hd : s.toList.drop stop = (s.toList.drop start).drop (stop - start) := by
      rw [List.drop_drop, Nat.add_sub_cancel' h]
    rw [← String.ofList_append, hd, List.take_append_drop]
  have h2 : String.ofList (s.toList.take stop) =
      String.ofList (s.toList.take start) ++
        String.ofList ((s.toList.drop start).take (stop - start)) := by
    rw [← String.ofList_append, ← List.take_add, Nat.add_sub_cancel' h]
  rw [h1] at hp
  rw [h2] at hq
  rw [textBetween, extract_eq hp hq, String.toList_ofList]

end ScopeStack
