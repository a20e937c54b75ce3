import ScopeStack.Text.Position

/-!
# Searching and replacing in texts

Positions count characters. A search looks for the first occurrence from the left; a replacement
of every occurrence goes on behind the occurrence it has just replaced, so occurrences do not
overlap. The empty text occurs before every character and at the end.

A window as long as the needle slides over the text. It keeps the hash of what it shows, and
characters are compared only where that is the hash of the needle, so the work grows with the
length of the text even where the text nearly matches everywhere, and ends with the first
occurrence. The hash never changes an answer:

* `findText`: the search by comparison alone.
* `Needle.startsAt_hashOf`: at the hash of the window, the test is the comparison of characters.
* `Needle.slide_hashOf`: sliding gives the hash of the next window.
* **`index_firstIn`**: the window finds what the comparison finds.
-/

namespace ScopeStack

/-! ## 1. By comparison -/

/-- The position of the first occurrence of `needle`. -/
def findText (needle : List Char) : List Char → Option Nat
  | [] => if needle.isEmpty then some 0 else none
  | c :: rest =>
    if needle.isPrefixOf (c :: rest) then some 0 else (findText needle rest).map (· + 1)

theorem findText_of_isPrefixOf {needle text : List Char} (h : needle.isPrefixOf text = true) :
    findText needle text = some 0 := by
  cases text with
  | nil => simpa [findText] using h
  | cons c rest => simp [findText, h]

/-- What is longer than the text is not found. -/
theorem findText_of_length_lt {needle text : List Char} (h : text.length < needle.length) :
    findText needle text = none := by
  induction text with
  | nil =>
    have : needle ≠ [] := by
      rintro rfl
      simp at h
    simp [findText, this]
  | cons c rest ih =>
    have hp : ¬ needle.isPrefixOf (c :: rest) = true := by
      intro hp
      have := (List.isPrefixOf_iff_prefix.mp hp).length_le
      omega
    have hr : rest.length < needle.length := by
      simp only [List.length_cons] at h
      omega
    simp [findText, hp, ih hr]

/-! ## 2. A window that slides -/

/-- The weight of a place in a window is this much greater than that of the place behind it. -/
def placeWeight : UInt64 := 0x100000001b3

/-- The code of a character as a word. -/
def codeWord (c : Char) : UInt64 := c.val.toUInt64

/-- The hash of some characters behind others that have the hash `h`. -/
def hashFrom (h : UInt64) (cs : List Char) : UInt64 :=
  cs.foldl (fun h c => h * placeWeight + codeWord c) h

/-- The hash of some characters. -/
def hashOf (cs : List Char) : UInt64 := hashFrom 0 cs

/-- The weight of the place before some characters. -/
def weightBefore (cs : List Char) : UInt64 :=
  cs.foldl (fun w _ => w * placeWeight) 1

/-- Do these characters stand at a place? -/
def standsAt {s : String} : List Char → s.Pos → Bool
  | [], _ => true
  | c :: cs, p => if h : p = s.endPos then false else c == p.get h && standsAt cs (p.next h)

/-- Where a needle occurs in a text: its position, and the places at its ends. -/
structure Occurrence (s : String) where
  index : Nat
  start : s.Pos
  stop : s.Pos

/-- What is looked for, its hash, and the weight of the first place of the window. -/
structure Needle where
  chars : List Char
  hash : UInt64
  weight : UInt64

namespace Needle

/-- Look for these characters. -/
def ofChars (chars : List Char) : Needle := ⟨chars, hashOf chars, weightBefore chars.tail⟩

/-- Does the needle stand at a place where the window has the hash `h`? -/
@[inline] def startsAt (n : Needle) (h : UInt64) {s : String} (p : s.Pos) : Bool :=
  h == n.hash && standsAt n.chars p

/-- The hash of the next window: a character leaves and one enters. -/
@[inline] def slide (n : Needle) (h : UInt64) (leaving entering : Char) : UInt64 :=
  (h - codeWord leaving * n.weight) * placeWeight + codeWord entering

/-- The first occurrence from a place on. The window lies between `p` and `q`, has the hash `h` and
stands at position `i`; it moves on at most `k` times, and no further than the end of the text. -/
def findFrom (n : Needle) {s : String} :
    (k i : Nat) → (h : UInt64) → (p q : s.Pos) → Option (Occurrence s)
  | 0, _, _, _, _ => none
  | k + 1, i, h, p, q =>
    if n.startsAt h p then some ⟨i, p, q⟩
    else if hq : q = s.endPos then none
    else if hp : p = s.endPos then none
    else n.findFrom k (i + 1) (n.slide h (p.get hp) (q.get hq)) (p.next hp) (q.next hq)

/-- The first occurrence from a place on, its position counted from there. -/
def findIn (n : Needle) {s : String} (p : s.Pos) : Option (Occurrence s) :=
  let q := walk n.chars.length p
  n.findFrom (s.length + 1) 0 (hashOf (s.extract p q).toList) p q

/-- Replace every occurrence from a place on, at most `k` of them. `done` is what comes before. -/
def replaceFrom (n : Needle) (new : String) {s : String} :
    (k : Nat) → (done : String) → (p : s.Pos) → String
  | 0, done, p => done ++ s.extract p s.endPos
  | k + 1, done, p =>
    match n.findIn p with
    | none => done ++ s.extract p s.endPos
    | some o => n.replaceFrom new k (done ++ s.extract p o.start ++ new) o.stop

end Needle

/-! ## 3. Whole texts -/

/-- The first occurrence of `needle`. -/
def firstIn (needle text : String) : Option (Occurrence text) :=
  (Needle.ofChars needle.toList).findIn text.startPos

/-- Replace every occurrence. No text has more of them than characters, unless the needle is empty:
then the new text goes before every character and to the end. -/
def replaceAllText (needle new text : String) : String :=
  if needle.isEmpty then text.foldl (fun done c => done.push c ++ new) new
  else (Needle.ofChars needle.toList).replaceFrom new text.length "" text.startPos

/-- Replace the first occurrence. -/
def replaceFirstText (needle new text : String) : String :=
  match firstIn needle text with
  | some o => text.extract text.startPos o.start ++ new ++ text.extract o.stop text.endPos
  | none => text

/-! ## 4. The hash changes no answer -/

theorem weightBefore_cons (c : Char) (cs : List Char) :
    weightBefore (c :: cs) = placeWeight * weightBefore cs := by
  have scaled (w : UInt64) : cs.foldl (fun w _ => w * placeWeight) w = w * weightBefore cs := by
    unfold weightBefore
    induction cs generalizing w with
    | nil => simp
    | cons d ds ih =>
      rw [List.foldl_cons, List.foldl_cons, ih, ih (1 * placeWeight)]
      grind
  unfold weightBefore at *
  rw [List.foldl_cons, scaled]
  grind

/-- The hash that stands before some characters counts with their weight. -/
theorem hashFrom_eq (h : UInt64) (cs : List Char) :
    hashFrom h cs = h * weightBefore cs + hashOf cs := by
  induction cs generalizing h with
  | nil => simp [hashFrom, hashOf, weightBefore]
  | cons c cs ih =>
    have step (h : UInt64) :
        hashFrom h (c :: cs) = hashFrom (h * placeWeight + codeWord c) cs := rfl
    rw [hashOf, step, step, ih, ih (0 * placeWeight + codeWord c), weightBefore_cons]
    grind

theorem hashOf_cons (c : Char) (cs : List Char) :
    hashOf (c :: cs) = codeWord c * weightBefore cs + hashOf cs := by
  have : hashOf (c :: cs) = hashFrom (0 * placeWeight + codeWord c) cs := rfl
  rw [this, hashFrom_eq]
  grind

theorem hashOf_concat (cs : List Char) (d : Char) :
    hashOf (cs ++ [d]) = hashOf cs * placeWeight + codeWord d := by
  simp [hashOf, hashFrom]

theorem weightBefore_eq_of_length_eq {cs ds : List Char} (h : cs.length = ds.length) :
    weightBefore cs = weightBefore ds := by
  induction cs generalizing ds with
  | nil => simp_all [List.length_eq_zero_iff.mp h.symm]
  | cons c cs ih =>
    cases ds with
    | nil => simp at h
    | cons d ds => rw [weightBefore_cons, weightBefore_cons, ih (by simpa using h)]


theorem standsAt_eq (cs : List Char) {s t u : String} {p : s.Pos} (hp : p.Splits t u) :
    standsAt cs p = cs.isPrefixOf u.toList := by
  induction cs generalizing p t u with
  | nil => rfl
  | cons c cs ih =>
    rw [standsAt]
    split
    · rename_i h
      have hu : u = "" := hp.eq_endPos_iff.mp h
      simp [hu]
    · rename_i h
      obtain ⟨v, rfl⟩ := hp.exists_eq_singleton_append h
      simp [ih hp.next, List.isPrefixOf]

namespace Needle

/-- At the hash of the window, the test is the comparison of characters. -/
theorem startsAt_hashOf (cs : List Char) {s t u : String} {p : s.Pos} (hp : p.Splits t u) :
    (ofChars cs).startsAt (hashOf (u.toList.take cs.length)) p = cs.isPrefixOf u.toList := by
  by_cases h : cs.isPrefixOf u.toList
  · have : u.toList.take cs.length = cs :=
      (List.prefix_iff_eq_take.mp (List.isPrefixOf_iff_prefix.mp h)).symm
    simp [startsAt, ofChars, standsAt_eq cs hp, h, this]
  · simp [startsAt, ofChars, standsAt_eq cs hp, h]

/-- Sliding gives the hash of the next window. -/
theorem slide_hashOf {x c d : Char} {xs text ahead : List Char}
    (h : text.drop xs.length = d :: ahead) :
    (ofChars (x :: xs)).slide (hashOf (c :: text.take xs.length)) c d =
      hashOf (text.take (xs.length + 1)) := by
  have hlt : xs.length < text.length := by
    have := congrArg List.length h
    simp only [List.length_drop, List.length_cons] at this
    omega
  have hd : text[xs.length]? = some d := by
    have := congrArg (fun l => l[0]?) h
    simpa using this
  have hw : weightBefore xs = weightBefore (text.take xs.length) :=
    weightBefore_eq_of_length_eq (by simp; omega)
  rw [List.take_add_one, hd, Option.toList_some, hashOf_concat, hashOf_cons]
  simp only [slide, ofChars, List.tail_cons, hw]
  grind

/-- From a place on, the window finds what the comparison finds. -/
theorem index_findFrom (cs : List Char) {s t u t' u' : String} {p q : s.Pos} (hp : p.Splits t u)
    (hq : q.Splits t' u') (hu : u'.toList = u.toList.drop cs.length) {k : Nat}
    (hk : u'.length < k) (i : Nat) :
    ((ofChars cs).findFrom k i (hashOf (u.toList.take cs.length)) p q).map (·.index) =
      (findText cs u.toList).map (· + i) := by
  induction k generalizing i t u t' u' p q with
  | zero => omega
  | succ k ih =>
    rw [findFrom, startsAt_hashOf cs hp]
    split
    · rename_i h
      simp [findText_of_isPrefixOf h]
    · rename_i hne
      split
      · rename_i h
        have hu' : u' = "" := hq.eq_endPos_iff.mp h
        have hlen : u.toList.length ≤ cs.length := by
          rw [hu'] at hu
          exact List.drop_eq_nil_iff.mp hu.symm
        have hnone : findText cs u.toList = none := by
          cases hl : u.toList with
          | nil =>
            cases cs with
            | nil => simp at hne
            | cons c cs => simp [findText]
          | cons d rest =>
            rw [hl] at hne hlen
            have : rest.length < cs.length := by
              simp only [List.length_cons] at hlen
              omega
            rw [findText, if_neg hne, findText_of_length_lt this]
            rfl
        simp [hnone]
      · rename_i hqe
        obtain ⟨v', rfl⟩ := hq.exists_eq_singleton_append hqe
        split
        · rename_i h
          have hue : u = "" := hp.eq_endPos_iff.mp h
          rw [hue] at hu
          simp at hu
        · rename_i hpe
          obtain ⟨v, rfl⟩ := hp.exists_eq_singleton_append hpe
          cases cs with
          | nil => simp at hne
          | cons x xs =>
            have hdrop : v.toList.drop xs.length = q.get hqe :: v'.toList := by
              simpa using hu.symm
            have hv' : v'.toList = v.toList.drop (xs.length + 1) := by
              rw [← List.drop_drop, hdrop]
              rfl
            have hlt : v'.length < k := by
              rw [String.length_append] at hk
              simp at hk
              omega
            have hslide : (ofChars (x :: xs)).slide
                (hashOf ((String.singleton (p.get hpe) ++ v).toList.take (x :: xs).length))
                (p.get hpe) (q.get hqe) = hashOf (v.toList.take (x :: xs).length) := by
              simpa using slide_hashOf (c := p.get hpe) hdrop
            rw [hslide, ih hp.next hq.next (by simpa using hv') hlt (i + 1)]
            have hne' : ¬ (x :: xs).isPrefixOf (p.get hpe :: v.toList) = true := by
              simpa using hne
            have hcons : (String.singleton (p.get hpe) ++ v).toList = p.get hpe :: v.toList := by
              simp
            rw [hcons, findText, if_neg hne']
            cases findText (x :: xs) v.toList <;> simp [Nat.add_comm, Nat.add_left_comm]

end Needle

/-- **The window finds what the comparison finds.** -/
theorem index_firstIn (needle text : String) :
    (firstIn needle text).map (·.index) = findText needle.toList text.toList := by
  have hp := String.splits_startPos text
  have hq := splits_walk needle.toList.length hp
  have hw : text.extract text.startPos (walk needle.toList.length text.startPos) =
      String.ofList (text.toList.take needle.toList.length) := by
    refine extract_eq (t := "") (v := String.ofList (text.toList.drop needle.toList.length)) ?_ ?_
    · rwa [← String.ofList_append, List.take_append_drop, String.ofList_toList]
    · simpa using hq
  have := Needle.index_findFrom needle.toList hp hq (by simp) (k := text.length + 1)
    (by rw [String.length_ofList, List.length_drop, String.length_toList]; omega) 0
  unfold firstIn Needle.findIn
  simp only [Needle.ofChars] at this ⊢
  rw [hw, String.toList_ofList, this]
  simp

end ScopeStack
