import ScopeStack.Source.Cursor

/-!
# A text read a line at a time

A source is cut into lines as bytes, and each line is decoded by itself. For a text nothing is lost
by that: a line feed byte stands for a line feed and is part of no other character, so every line
is the encoding of characters, and they come out in order.

* `bytesOf`: the encoding of characters.
* `linesOfBytes_bytesOf`: every line of an encoded text is an encoded line.
* `glyphsOfLine_bytesOf`, `glyphsOfLine_damaged`: what an encoded line and any other line decode to.
* `Cursor.ofBytes_toUTF8`: **reading the bytes of a text is reading the text.**
-/

namespace ScopeStack

/-- The encoding of characters. -/
def bytesOf (cs : List Char) : List UInt8 := cs.flatMap String.utf8EncodeChar

/-- A line feed byte is part of no other character. -/
theorem newline_not_mem_utf8EncodeChar {c : Char} (hc : c ≠ '\n') :
    10 ∉ String.utf8EncodeChar c := by
  have hv : c.val.toNat ≠ 10 := fun h => hc (Char.ext (UInt32.toNat.inj h))
  have hofNat {n : Nat} (hn : n % 256 ≠ 10) : 10 ≠ UInt8.ofNat n := fun h => by
    have := congrArg UInt8.toNat h
    rw [UInt8.toNat_ofNat'] at this
    exact hn this.symm
  unfold String.utf8EncodeChar
  dsimp only
  split
  · simp only [List.mem_singleton]
    exact hofNat (by omega)
  · split
    · simp only [List.mem_cons, List.not_mem_nil, or_false, not_or]
      exact ⟨hofNat (by omega), hofNat (by omega)⟩
    · split
      · simp only [List.mem_cons, List.not_mem_nil, or_false, not_or]
        exact ⟨hofNat (by omega), hofNat (by omega), hofNat (by omega)⟩
      · simp only [List.mem_cons, List.not_mem_nil, or_false, not_or]
        exact ⟨hofNat (by omega), hofNat (by omega), hofNat (by omega), hofNat (by omega)⟩

/-- Bytes without a line feed go to the front of the first line. -/
theorem linesOfBytes_append {bytes : List UInt8} (hne : bytes ≠ []) (hno : 10 ∉ bytes)
    (rest : List UInt8) :
    linesOfBytes (bytes ++ rest) = (bytes ++ (linesOfBytes rest).headD []) ::
      (linesOfBytes rest).tail := by
  induction bytes with
  | nil => exact absurd rfl hne
  | cons b bytes ih =>
    have hb : b ≠ 10 := fun h => hno (h ▸ List.mem_cons_self)
    rw [List.cons_append, linesOfBytes, if_neg hb]
    cases bytes with
    | nil =>
      rw [List.nil_append]
      cases linesOfBytes rest <;> rfl
    | cons b' bytes =>
      rw [ih (List.cons_ne_nil _ _) fun h => hno (List.mem_cons_of_mem _ h)]
      rfl

/-- **Every line of an encoded text is an encoded line.** -/
theorem linesOfBytes_bytesOf (cs : List Char) :
    ∃ lines : List (List Char), linesOfBytes (bytesOf cs) = lines.map bytesOf ∧
      lines.flatten = cs := by
  induction cs with
  | nil => exact ⟨[], rfl, rfl⟩
  | cons c cs ih =>
    obtain ⟨lines, hlines, hflat⟩ := ih
    have hcons : bytesOf (c :: cs) = String.utf8EncodeChar c ++ bytesOf cs := List.flatMap_cons
    by_cases hc : c = '\n'
    · refine ⟨[c] :: lines, ?_, by rw [List.flatten_cons, hflat]; rfl⟩
      rw [hcons, hc]
      show linesOfBytes (10 :: bytesOf cs) = _
      rw [linesOfBytes, if_pos rfl, hlines]
      rfl
    · refine ⟨(c :: lines.headD []) :: lines.tail, ?_, ?_⟩
      · have hne : String.utf8EncodeChar c ≠ [] := by
          rw [← List.length_pos_iff, String.length_utf8EncodeChar]
          exact c.utf8Size_pos
        rw [hcons, linesOfBytes_append hne (newline_not_mem_utf8EncodeChar hc), hlines]
        cases lines <;> simp [bytesOf]
      · cases lines <;> simp_all

theorem fromUTF8?_bytesOf (cs : List Char) :
    String.fromUTF8? ⟨(bytesOf cs).toArray⟩ = some (String.ofList cs) := by
  have hbytes : (⟨(bytesOf cs).toArray⟩ : ByteArray) = (String.ofList cs).toByteArray := by
    apply ByteArray.ext
    apply Array.ext'
    rw [String.toByteArray_ofList, List.utf8Encode, List.toList_data_toByteArray]
    rfl
  rw [hbytes, String.fromUTF8?, dif_pos (String.ofList cs).isValidUTF8]
  rfl

/-- Characters have an encoding of their own. -/
theorem bytesOf_inj {cs cs' : List Char} (h : bytesOf cs = bytesOf cs') : cs = cs' := by
  have hsome := fromUTF8?_bytesOf cs
  rw [h, fromUTF8?_bytesOf] at hsome
  exact (String.ofList_injective (Option.some.inj hsome)).symm

theorem glyphsOfLine_bytesOf (cs : List Char) : glyphsOfLine (bytesOf cs) = cs.map .char := by
  rw [glyphsOfLine, fromUTF8?_bytesOf]
  simp only [String.toList_ofList]

theorem glyphsOfBytes_bytesOf (cs : List Char) :
    glyphsOfBytes (bytesOf cs) = cs.map .char := by
  obtain ⟨lines, hlines, hflat⟩ := linesOfBytes_bytesOf cs
  rw [glyphsOfBytes, hlines, List.flatMap_map, ← hflat, List.map_flatten]
  simp only [glyphsOfLine_bytesOf]
  rw [List.flatMap_def]

/-- The bytes of an array, listed. -/
theorem toList_eq_data (bytes : ByteArray) : bytes.toList = bytes.data.toList := by
  have hloop (i : Nat) (r : List UInt8) :
      ByteArray.toList.loop bytes i r = r.reverse ++ bytes.data.toList.drop i := by
    fun_induction ByteArray.toList.loop bytes i r with
    | case1 i r h ih =>
      have hi : i < bytes.data.toList.length := by simpa using h
      rw [ih, List.drop_eq_getElem_cons (l := bytes.data.toList) hi]
      simp [ByteArray.get!, h]
    | case2 i r h =>
      rw [List.drop_eq_nil_of_le (by simpa using Nat.le_of_not_lt h), List.append_nil]
  rw [ByteArray.toList, hloop, List.reverse_nil, List.nil_append, List.drop_zero]

theorem toList_toUTF8 (text : String) : text.toUTF8.toList = bytesOf text.toList := by
  rw [toList_eq_data]
  conv => lhs; rw [← String.ofList_toList (s := text)]
  rw [String.toUTF8_eq_toByteArray, String.toByteArray_ofList, List.utf8Encode,
    List.toList_data_toByteArray, bytesOf]

/-- A line that decodes is the encoding of what it decodes to. -/
theorem eq_bytesOf_of_fromUTF8? {line : List UInt8} {text : String}
    (h : String.fromUTF8? ⟨line.toArray⟩ = some text) : line = bytesOf text.toList := by
  have hbytes : text.toUTF8 = ⟨line.toArray⟩ := by
    unfold String.fromUTF8? at h
    split at h
    · cases h
      rfl
    · cases h
  rw [← toList_toUTF8, hbytes, toList_eq_data]

/-- A line that is not the encoding of characters is damaged. -/
theorem glyphsOfLine_damaged {line : List UInt8} (h : ∀ cs, bytesOf cs ≠ line) :
    glyphsOfLine line = [.damaged] := by
  unfold glyphsOfLine
  split
  · rename_i text htext
    exact absurd (eq_bytesOf_of_fromUTF8? htext).symm (h _)
  · rfl

/-- **Reading the bytes of a text is reading the text.** -/
theorem Cursor.ofBytes_toUTF8 (path text : String) :
    Cursor.ofBytes path text.toUTF8 = Cursor.ofText path text := by
  rw [Cursor.ofBytes, Cursor.ofText, toList_toUTF8, glyphsOfBytes_bytesOf]

end ScopeStack
