import ScopeStack.Proofs.Doubles
import ScopeStack.Value

/-!
# Which values can be sorted together

Two values are compared as integers, as doubles or as texts, and which of these it is depends on the
two. Each rule by itself is an order, apart from doubles that are no numbers, which count as equal to
every number. A list in which the rules mix need not have an order: 9 comes before 10, 10 before the
text `5`, and that before 9.

* `Rule`, `Value.rule`: how two values are compared; `sortOrder_eq`.
* `compareDoubles_eq`: **doubles that are numbers are in one line.**
* `Value.Consistent`: values that can be sorted. `Value.OutOfLine`: a value that two others cannot
  be sorted with.
* `Value.sortOrder_consistent_iff`: **values can be sorted if none is out of line with two others.**
-/

namespace ScopeStack

open Float.Model

/-! ## 1. Doubles in line -/

namespace Unpacked

/-- Below zero, zero or above, with the infinities at the ends. -/
def side : UnpackedFloat → Int
  | .infinity .negative => -2
  | .finite .negative _ _ _ => -1
  | .zero _ | .notANumber => 0
  | .finite .positive _ _ _ => 1
  | .infinity .positive => 2

/-- The exponent, counted down below zero. -/
def scale : UnpackedFloat → Int
  | .finite .negative _ e _ => -e
  | .finite .positive _ e _ => e
  | _ => 0

/-- The mantissa, counted down below zero. -/
def size : UnpackedFloat → Int
  | .finite .negative m _ _ => -m
  | .finite .positive m _ _ => m
  | _ => 0

/-- The order in which doubles lie. -/
def order : UnpackedFloat → UnpackedFloat → Ordering :=
  compareLex (compareOn side) (compareLex (compareOn scale) (compareOn size))

instance : Std.TransCmp order :=
  inferInstanceAs (Std.TransCmp (compareLex (compareOn side)
    (compareLex (compareOn scale) (compareOn size))))

theorem order_swap (u v : UnpackedFloat) : order v u = (order u v).swap := Std.OrientedCmp.eq_swap

theorem compare_eq {u v : UnpackedFloat} (hu : u ≠ .notANumber) (hv : v ≠ .notANumber) :
    u.compare v = some (order u v) := by
  cases u with
  | notANumber => exact absurd rfl hu
  | infinity s =>
    cases v with
    | notANumber => exact absurd rfl hv
    | infinity t => cases s <;> cases t <;> rfl
    | zero t => cases s <;> rfl
    | finite t m e hm => cases s <;> cases t <;> rfl
  | zero s =>
    cases v with
    | notANumber => exact absurd rfl hv
    | infinity t => cases t <;> rfl
    | zero t => rfl
    | finite t m e hm => cases t <;> rfl
  | finite s m e hm =>
    cases v with
    | notANumber => exact absurd rfl hv
    | infinity t => cases s <;> cases t <;> rfl
    | zero t => cases s <;> rfl
    | finite t n f hn =>
      have hcast (m n : Nat) : compare (m : Int) (n : Int) = compare m n := by
        simp only [compare, compareOfLessAndEq, Int.ofNat_lt, Int.ofNat_inj]
      have hneg (i j : Int) : compare (-i) (-j) = (compare i j).swap := by
        rw [← Std.OrientedCmp.eq_swap]
        simp only [compare, compareOfLessAndEq, Int.neg_lt_neg_iff, Int.neg_inj, eq_comm]
      cases s <;> cases t
      · refine congrArg some ?_
        show _ = (compare (-e) (-f)).then (compare (-(m : Int)) (-(n : Int)))
        rw [hneg, hneg, hcast, Ordering.swap_then]
      · rfl
      · rfl
      · refine congrArg some ?_
        show _ = (compare e f).then (compare (m : Int) (n : Int))
        rw [hcast]

end Unpacked

theorem isNaN_iff {x : Float} : x.isNaN = true ↔ x.toModel.unpack = .notANumber := by
  show x.toModel.unpack.isNaN = true ↔ _
  cases x.toModel.unpack with
  | notANumber => exact ⟨fun _ => rfl, fun _ => rfl⟩
  | infinity | zero | finite => exact ⟨nofun, nofun⟩

theorem isNaN_eq_false_iff {x : Float} :
    x.isNaN = false ↔ x.toModel.unpack ≠ .notANumber := by
  rw [← Bool.not_eq_true, isNaN_iff]

/-- A double that equals itself is a number. -/
theorem isNaN_of_beq {x : Float} (h : (x == x) = true) : x.isNaN = false := by
  rw [isNaN_eq_false_iff]
  intro hu
  have hself : (x.toModel.unpack.compare x.toModel.unpack == some .eq) = true := h
  rw [hu] at hself
  cases hself

theorem doubleOfInt_isNaN (n : Int) : (doubleOfInt n).isNaN = false := by
  refine isNaN_of_beq ?_
  unfold doubleOfInt
  split
  · exact infinity_beq _
  · exact nearestDouble_beq _ _ _

theorem lt_iff_compare {x y : Float} :
    x < y ↔ x.toModel.unpack.compare y.toModel.unpack = some .lt := by
  show Float.lt x y = true ↔ _
  unfold Float.lt
  rw [decide_eq_true_iff]
  exact beq_iff_eq

namespace Value

/-- **Doubles that are numbers are in one line.** -/
theorem compareDoubles_eq {x y : Float} (hx : x.isNaN = false) (hy : y.isNaN = false) :
    compareDoubles x y = Unpacked.order x.toModel.unpack y.toModel.unpack := by
  rw [isNaN_eq_false_iff] at hx hy
  have hswap := Unpacked.order_swap x.toModel.unpack y.toModel.unpack
  unfold compareDoubles
  simp only [lt_iff_compare, Unpacked.compare_eq hx hy, Unpacked.compare_eq hy hx, hswap,
    Option.some.injEq]
  cases Unpacked.order x.toModel.unpack y.toModel.unpack <;> rfl

/-- One that is no number counts as equal to all. -/
theorem compareDoubles_of_isNaN {x y : Float} (h : x.isNaN = true ∨ y.isNaN = true) :
    compareDoubles x y = .eq := by
  have hno {x y : Float} (h : x.isNaN = true ∨ y.isNaN = true) : ¬ x < y := by
    rw [lt_iff_compare]
    rcases h with h | h
    · rw [isNaN_iff.mp h]
      exact nofun
    · rw [isNaN_iff.mp h]
      cases x.toModel.unpack <;> exact nofun
  rw [compareDoubles, if_neg (hno h), if_neg (hno h.symm)]

theorem compareDoubles_swap (x y : Float) : compareDoubles y x = (compareDoubles x y).swap := by
  by_cases h : x.isNaN = true ∨ y.isNaN = true
  · rw [compareDoubles_of_isNaN h, compareDoubles_of_isNaN h.symm]
    rfl
  · obtain ⟨hx, hy⟩ := not_or.mp h
    rw [Bool.not_eq_true] at hx hy
    rw [compareDoubles_eq hx hy, compareDoubles_eq hy hx, Unpacked.order_swap]

/-! ## 2. One rule for two values -/

/-- How two values are compared. -/
inductive Rule where
  | integers
  | doubles
  | texts
deriving DecidableEq

/-- How these two are compared. -/
def rule (a b : Value) : Rule :=
  if a.isNumeric && b.isNumeric then
    if a.isDouble || b.isDouble then .doubles else .integers
  else .texts

/-- A number as a double. -/
def toDouble : Value → Float
  | .int n => doubleOfInt n.toInt
  | .big n => doubleOfInt n
  | .double x => x
  | _ => 0

/-- A double that is not a number. -/
def isNotANumber : Value → Bool
  | .double x => x.isNaN
  | _ => false

/-- The order of two values by a rule. -/
def Rule.order : Rule → Value → Value → Ordering
  | .integers => compareOn fun v => v.toInt?.getD 0
  | .doubles => fun a b => compareDoubles a.toDouble b.toDouble
  | .texts => compareOn text

variable {a b c x y z : Value} {r : Rule} {vs : List Value}

theorem rule_comm (a b : Value) : rule b a = rule a b := by
  unfold rule
  rw [Bool.and_comm, Bool.or_comm]

theorem rule_eq_doubles :
    rule a b = .doubles ↔ (a.isNumeric = true ∧ b.isNumeric = true) ∧
      (a.isDouble = true ∨ b.isDouble = true) := by
  unfold rule
  grind

theorem rule_eq_integers :
    rule a b = .integers ↔ (a.isNumeric = true ∧ b.isNumeric = true) ∧
      a.isDouble = false ∧ b.isDouble = false := by
  unfold rule
  grind

/-- Of three values one is compared with both others by one rule. -/
theorem rule_of_three (a b c : Value) :
    rule a b = rule b c ∨ rule b c = rule c a ∨ rule c a = rule a b := by
  unfold rule
  grind

theorem asDouble_eq (h : a.isNumeric = true) : a.asDouble = .ok a.toDouble := by
  cases a with
  | int | big | double => rfl
  | bool | str | word | block => cases h

theorem asInt_eq (h : a.isNumeric = true) (hd : a.isDouble = false) :
    a.asInt = .ok (a.toInt?.getD 0) := by
  cases a with
  | int | big => rfl
  | double => cases hd
  | bool | str | word | block => cases h

/-- **Values are sorted by their rule.** -/
theorem sortOrder_eq (a b : Value) : sortOrder a b = (rule a b).order a b := by
  cases hr : rule a b with
  | doubles =>
    obtain ⟨⟨ha, hb⟩, hd⟩ := rule_eq_doubles.mp hr
    rw [← Bool.or_eq_true] at hd
    rw [sortOrder, compare, ha, hb, Bool.and_self, if_pos rfl, compareNumbers, if_pos hd,
      asDouble_eq ha, asDouble_eq hb]
    rfl
  | integers =>
    obtain ⟨⟨ha, hb⟩, hda, hdb⟩ := rule_eq_integers.mp hr
    rw [sortOrder, compare, ha, hb, Bool.and_self, if_pos rfl, compareNumbers, hda, hdb,
      Bool.or_self, if_neg (by decide), asInt_eq ha hda, asInt_eq hb hdb]
    rfl
  | texts =>
    have hno : ¬ (a.isNumeric && b.isNumeric) = true := by
      unfold rule at hr
      grind
    rw [sortOrder, compare, if_neg hno]
    split
    · rename_i o ho
      split at ho <;> cases ho
      rfl
    · rfl

theorem toDouble_eq (h : a.isNumeric = true) (hd : a.isDouble = false) :
    a.toDouble = doubleOfInt (a.toInt?.getD 0) := by
  cases a with
  | int | big => rfl
  | double => cases hd
  | bool | str | word | block => cases h

theorem toDouble_isNaN (hv : a.isNumeric = true) : a.toDouble.isNaN = a.isNotANumber := by
  cases a with
  | int n => exact doubleOfInt_isNaN _
  | big n => exact doubleOfInt_isNaN n
  | double x => rfl
  | bool | str | word | block => cases hv

theorem isNotANumber_of_isDouble (hd : a.isDouble = false) : a.isNotANumber = false := by
  cases a with
  | double => cases hd
  | bool | int | big | str | word | block => rfl

namespace Rule

theorem order_swap (r : Rule) (a b : Value) : r.order b a = (r.order a b).swap := by
  cases r with
  | integers => exact @Std.OrientedCmp.eq_swap _ (compareOn fun v : Value => v.toInt?.getD 0) _ b a
  | doubles => exact compareDoubles_swap _ _
  | texts => exact @Std.OrientedCmp.eq_swap _ (compareOn text) _ b a

/-- **A rule by itself is transitive**, except through a double that is not a number. -/
theorem order_trans (hb : r = .doubles → b.toDouble.isNaN = false) (hab : (r.order a b).isLE)
    (hbc : (r.order b c).isLE) : (r.order a c).isLE := by
  cases r with
  | integers =>
    exact @Std.TransCmp.isLE_trans _ (compareOn fun v : Value => v.toInt?.getD 0) _ a b c hab hbc
  | texts => exact @Std.TransCmp.isLE_trans _ (compareOn text) _ a b c hab hbc
  | doubles =>
    change (compareDoubles _ _).isLE = true at hab hbc ⊢
    by_cases h : a.toDouble.isNaN = true ∨ c.toDouble.isNaN = true
    · rw [compareDoubles_of_isNaN h]
      rfl
    · obtain ⟨ha, hc⟩ := not_or.mp h
      rw [Bool.not_eq_true] at ha hc
      rw [compareDoubles_eq ha (hb rfl)] at hab
      rw [compareDoubles_eq (hb rfl) hc] at hbc
      rw [compareDoubles_eq ha hc]
      exact Std.TransCmp.isLE_trans hab hbc

/-- Integers that are equal are equal as doubles. -/
theorem order_doubles_of_integers (hr : rule a b = .integers) (h : integers.order a b = .eq) :
    doubles.order a b = .eq := by
  obtain ⟨⟨ha, hb⟩, hda, hdb⟩ := rule_eq_integers.mp hr
  have hn : a.toInt?.getD 0 = b.toInt?.getD 0 := Std.LawfulEqOrd.eq_of_compare h
  have hself := doubles.order_swap a a
  show compareDoubles a.toDouble b.toDouble = .eq
  rw [toDouble_eq hb hdb, ← hn, ← toDouble_eq ha hda]
  change compareDoubles _ _ = (compareDoubles _ _).swap at hself
  cases ho : compareDoubles a.toDouble a.toDouble with
  | eq => rfl
  | lt | gt => rw [ho] at hself; cases hself

end Rule

/-- **The order of two values goes both ways.** -/
theorem sortOrder_swap (a b : Value) : sortOrder b a = (sortOrder a b).swap := by
  rw [sortOrder_eq, sortOrder_eq, rule_comm, Rule.order_swap]

/-! ## 3. Values that can be sorted together -/

/-- The order is transitive on these values, so that they can be sorted. -/
def Consistent (vs : List Value) : Prop :=
  ∀ a ∈ vs, ∀ b ∈ vs, ∀ c ∈ vs, (sortOrder a b).isLE → (sortOrder b c).isLE →
    (sortOrder a c).isLE

/-- By the rule by which it is compared with both, `z` lies between `x` and `y`; these are compared
by another rule, and that orders them otherwise. -/
structure Splits (z x y : Value) : Prop where
  rule : rule x z = rule z y
  left : (sortOrder x z).isLE
  right : (sortOrder z y).isLE
  apart : sortOrder x y ≠ (Value.rule x z).order x y

/-- Two numbers are different, and `z`, a double that is not a number, equals both. -/
structure Blurs (z x y : Value) : Prop where
  blur : z.isNotANumber = true
  left : x.isNumeric = true
  right : y.isNumeric = true
  apart : sortOrder x y ≠ .eq

/-- A value that two others cannot be sorted with. -/
def OutOfLine (z x y : Value) : Prop := Splits z x y ∨ Blurs z x y

theorem eq_of_isLE {o : Ordering} (h : o.isLE) (h' : o.swap.isLE) : o = .eq := by
  cases o with
  | eq => rfl
  | lt => cases h'
  | gt => cases h

theorem eq_of_isLE_iff {o p : Ordering} (ho : o.isLE) (hp : p.isLE) (h : o = .eq ↔ p = .eq) :
    o = p := by
  cases o <;> cases p <;> simp_all

theorem Rule.order_antisymm (hab : (r.order a b).isLE) (hba : (r.order b a).isLE) :
    r.order a b = .eq := eq_of_isLE hab (r.order_swap a b ▸ hba)

theorem sortOrder_antisymm (hab : (sortOrder a b).isLE) (hba : (sortOrder b a).isLE) :
    sortOrder a b = .eq := eq_of_isLE hab (sortOrder_swap a b ▸ hba)

/-- A double that is no number equals all numbers. -/
theorem sortOrder_of_isNotANumber (ha : a.isNotANumber = true) (hb : b.isNumeric = true) :
    sortOrder a b = .eq := by
  cases a with
  | double x =>
    rw [sortOrder_eq, rule_eq_doubles.mpr ⟨⟨rfl, hb⟩, Or.inl rfl⟩]
    exact compareDoubles_of_isNaN (Or.inl ha)
  | bool | int | big | str | word | block => cases ha

theorem sortOrder_eq_comm : sortOrder b a = .eq ↔ sortOrder a b = .eq := by
  rw [sortOrder_swap, Ordering.swap_eq_eq]

/-- **A loop has a value that is out of line.** Let `z` be compared with both others by one rule. -/
theorem outOfLine_of_loop (hrule : rule x z = rule z y) (hxz : (sortOrder x z).isLE)
    (hzy : (sortOrder z y).isLE) (hyx : (sortOrder y x).isLE)
    (hloop : ¬ (sortOrder x z = .eq ∧ sortOrder z y = .eq ∧ sortOrder y x = .eq)) :
    OutOfLine z x y ∨ OutOfLine x z y ∨ OutOfLine y x z := by
  by_cases hblur : rule x z = .doubles ∧
      (x.isNotANumber = true ∨ y.isNotANumber = true ∨ z.isNotANumber = true)
  · obtain ⟨hr, hnan⟩ := hblur
    have hx := (rule_eq_doubles.mp hr).1.1
    obtain ⟨hz, hy⟩ := (rule_eq_doubles.mp (hrule ▸ hr)).1
    rcases hnan with hnan | hnan | hnan
    · refine Or.inr (Or.inl (Or.inr ⟨hnan, hz, hy, fun he => hloop ⟨?_, he, ?_⟩⟩))
      · exact sortOrder_of_isNotANumber hnan hz
      · exact sortOrder_eq_comm.mp (sortOrder_of_isNotANumber hnan hy)
    · refine Or.inr (Or.inr (Or.inr ⟨hnan, hx, hz, fun he => hloop ⟨he, ?_, ?_⟩⟩))
      · exact sortOrder_eq_comm.mp (sortOrder_of_isNotANumber hnan hz)
      · exact sortOrder_of_isNotANumber hnan hx
    · refine Or.inl (Or.inr ⟨hnan, hx, hy, fun he => hloop ⟨?_, ?_, sortOrder_eq_comm.mp he⟩⟩)
      · exact sortOrder_eq_comm.mp (sortOrder_of_isNotANumber hnan hx)
      · exact sortOrder_of_isNotANumber hnan hy
  · refine Or.inl (Or.inl ⟨hrule, hxz, hzy, fun hsame => hloop ?_⟩)
    have hnumber (hr : rule x z = .doubles) : x.toDouble.isNaN = false ∧
        y.toDouble.isNaN = false ∧ z.toDouble.isNaN = false := by
      obtain ⟨hz, hy⟩ := (rule_eq_doubles.mp (hrule ▸ hr)).1
      rw [toDouble_isNaN (rule_eq_doubles.mp hr).1.1, toDouble_isNaN hy, toDouble_isNaN hz]
      simpa [hr] using hblur
    -- the two are compared as by the rule of the third, and that rule has no loops
    have hyx' : sortOrder y x = (rule x z).order y x := by
      rw [sortOrder_swap, hsame, ← Rule.order_swap]
    rw [sortOrder_eq x z] at hxz ⊢
    rw [sortOrder_eq z y, ← hrule] at hzy ⊢
    rw [hyx'] at hyx ⊢
    have hzx := Rule.order_trans (fun hr => (hnumber hr).2.1) hzy hyx
    have hyz := Rule.order_trans (fun hr => (hnumber hr).1) hyx hxz
    have hxy := Rule.order_trans (fun hr => (hnumber hr).2.2) hxz hzy
    exact ⟨Rule.order_antisymm hxz hzx, Rule.order_antisymm hzy hyz, Rule.order_antisymm hyx hxy⟩

theorem Consistent.not_blurs (h : Consistent vs) (hx : x ∈ vs) (hy : y ∈ vs) (hz : z ∈ vs) :
    ¬ Blurs z x y := by
  intro hb
  have hzx := sortOrder_of_isNotANumber hb.blur hb.left
  have hzy := sortOrder_of_isNotANumber hb.blur hb.right
  have hxz := sortOrder_eq_comm.mpr hzx
  have hyz := sortOrder_eq_comm.mpr hzy
  have hxy := h x hx z hz y hy (by rw [hxz]; rfl) (by rw [hzy]; rfl)
  have hyx := h y hy z hz x hx (by rw [hyz]; rfl) (by rw [hzx]; rfl)
  exact hb.apart (sortOrder_antisymm hxy hyx)

theorem Consistent.not_splits (h : Consistent vs) (hx : x ∈ vs) (hy : y ∈ vs) (hz : z ∈ vs) :
    ¬ Splits z x y := by
  intro hs
  have hne : rule x y ≠ rule x z := fun hr => hs.apart (hr ▸ sortOrder_eq x y)
  have hboth (hr : rule x z = .doubles) : rule x y = .integers ∧ z.isNumeric = true := by
    obtain ⟨hz, hy⟩ := (rule_eq_doubles.mp (hs.rule ▸ hr)).1
    have hx := (rule_eq_doubles.mp hr).1.1
    rw [hr] at hne
    refine ⟨?_, hz⟩
    unfold rule at hne ⊢
    grind
  by_cases hblur : rule x z = .doubles ∧ z.isNotANumber = true
  · obtain ⟨hr, hnan⟩ := hblur
    obtain ⟨hxy, -⟩ := hboth hr
    have hnumeric := (rule_eq_integers.mp hxy).1
    have hequal : sortOrder x y = .eq := Decidable.byContradiction fun hno =>
      h.not_blurs hx hy hz ⟨hnan, hnumeric.1, hnumeric.2, hno⟩
    refine hs.apart ?_
    rw [hr, hequal]
    rw [sortOrder_eq, hxy] at hequal
    exact (Rule.order_doubles_of_integers hxy hequal).symm
  · have hnumber (hr : rule x z = .doubles) : x.toDouble.isNaN = false ∧
        y.toDouble.isNaN = false ∧ z.toDouble.isNaN = false := by
      obtain ⟨hxy, hnumeric⟩ := hboth hr
      obtain ⟨⟨hx, hy⟩, hdx, hdy⟩ := rule_eq_integers.mp hxy
      rw [toDouble_isNaN hx, toDouble_isNaN hy, toDouble_isNaN hnumeric]
      exact ⟨isNotANumber_of_isDouble hdx, isNotANumber_of_isDouble hdy,
        Bool.eq_false_iff.mpr fun hnan => hblur ⟨hr, hnan⟩⟩
    have hxz : sortOrder x z = (rule x z).order x z := sortOrder_eq x z
    have hzy : sortOrder z y = (rule x z).order z y := hs.rule ▸ sortOrder_eq z y
    have hzx : sortOrder z x = (rule x z).order z x := rule_comm x z ▸ sortOrder_eq z x
    have hyz : sortOrder y z = (rule x z).order y z := by
      rw [sortOrder_swap, hzy, ← Rule.order_swap]
    have hle := h x hx z hz y hy hs.left hs.right
    have hle' := Rule.order_trans (fun hr => (hnumber hr).2.2) (hxz ▸ hs.left) (hzy ▸ hs.right)
    -- both orders put `x` first, and each makes the two equal if the other does
    refine hs.apart (eq_of_isLE_iff hle hle' ⟨fun he => ?_, fun he => ?_⟩)
    · have hyx : (sortOrder y x).isLE := by rw [sortOrder_eq_comm.mpr he]; rfl
      have hback := Rule.order_trans (fun hr => (hnumber hr).2.2)
        (hyz ▸ h y hy x hx z hz hyx hs.left) (hzx ▸ h z hz y hy x hx hs.right hyx)
      exact Rule.order_antisymm hle' hback
    · have hyx : ((rule x z).order y x).isLE := by rw [Rule.order_swap, he]; rfl
      have hyz' := Rule.order_trans (fun hr => (hnumber hr).1) hyx (hxz ▸ hs.left)
      have hzx' := Rule.order_trans (fun hr => (hnumber hr).2.1) (hzy ▸ hs.right) hyx
      exact sortOrder_antisymm hle (h y hy z hz x hx (hyz ▸ hyz') (hzx ▸ hzx'))

/-- **Values can be sorted if none is out of line with two others.** -/
theorem consistent_iff : Consistent vs ↔ ∀ x ∈ vs, ∀ y ∈ vs, ∀ z ∈ vs, ¬ OutOfLine z x y := by
  constructor
  · intro h x hx y hy z hz hout
    exact hout.elim (h.not_splits hx hy hz) (h.not_blurs hx hy hz)
  · intro h a ha b hb c hc hab hbc
    have hclear {x y z : Value} (hx : x ∈ vs) (hy : y ∈ vs) (hz : z ∈ vs) :
        ¬ (OutOfLine z x y ∨ OutOfLine x z y ∨ OutOfLine y x z) := fun hout =>
      hout.elim (h x hx y hy z hz) (Or.rec (h z hz y hy x hx) (h x hx z hz y hy))
    refine Decidable.byContradiction fun hno => ?_
    have hca : sortOrder c a = .lt := by
      rw [sortOrder_swap]
      cases ho : sortOrder a c with
      | gt => rfl
      | lt | eq => rw [ho] at hno; exact absurd rfl hno
    have hle : (sortOrder c a).isLE := by rw [hca]; rfl
    have hlt : sortOrder c a ≠ .eq := by rw [hca]; decide
    rcases rule_of_three a b c with hr | hr | hr
    · exact hclear ha hc hb (outOfLine_of_loop hr hab hbc hle fun he => hlt he.2.2)
    · exact hclear hb ha hc (outOfLine_of_loop hr hbc hle hab fun he => hlt he.2.1)
    · exact hclear hc hb ha (outOfLine_of_loop hr hle hab hbc fun he => hlt he.1)

/-- Values of one kind can be sorted: integers however held, doubles that are numbers, or what is no
number at all. -/
theorem Consistent.of_rule (hrule : ∀ a ∈ vs, ∀ b ∈ vs, rule a b = r)
    (hnumber : ∀ a ∈ vs, a.isNotANumber = false) : Consistent vs := by
  refine consistent_iff.mpr fun x hx y hy z hz hout => ?_
  rcases hout with hs | hb
  · refine hs.apart ?_
    rw [sortOrder_eq, hrule x hx y hy, hrule x hx z hz]
  · exact absurd hb.blur (by rw [hnumber z hz]; decide)

/-- **The order of values goes both ways, and it is transitive on some values just if none of them is
out of line with two others**: lies between them by the rule by which it is compared with both, while
they are compared by another rule and that orders them otherwise; or is no number and equals both,
while they are different numbers. -/
theorem sortOrder_consistent_iff (vs : List Value) :
    (∀ a ∈ vs, ∀ b ∈ vs, sortOrder b a = (sortOrder a b).swap) ∧
    (Consistent vs ↔ ∀ x ∈ vs, ∀ y ∈ vs, ∀ z ∈ vs, ¬ OutOfLine z x y) :=
  ⟨fun a _ b _ => sortOrder_swap a b, consistent_iff⟩

/-- The text `5` lies between 10 and 9, which as numbers are the other way round. -/
theorem sortOrder_consistent_iff_mixed : OutOfLine (.str "5") (.int 10) (.int 9) ∧
    ¬ Consistent [.int 9, .int 10, .str "5"] := by
  have hout : OutOfLine (.str "5") (.int 10) (.int 9) :=
    Or.inl ⟨by decide +kernel, by decide +kernel, by decide +kernel, by decide +kernel⟩
  refine ⟨hout, fun h => ?_⟩
  exact (sortOrder_consistent_iff _).2.mp h (.int 10) (by simp) (.int 9) (by simp) (.str "5") (by simp)
    hout

/-- 9 comes before 10, and 10 before the text `5`, but 9 comes behind that. -/
theorem sortOrder_loop : ¬ ∀ a b c, (sortOrder a b).isLE → (sortOrder b c).isLE →
    (sortOrder a c).isLE := by
  intro h
  exact absurd (h (.int 9) (.int 10) (.str "5") (by decide +kernel) (by decide +kernel))
    (by decide +kernel)

end Value

end ScopeStack
