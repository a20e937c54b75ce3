import ScopeStack.Proofs.Integers
import ScopeStack.Proofs.Numerals
import ScopeStack.Proofs.OwnStack
import ScopeStack.Proofs.SortOrder

/-!
# Equality and order

Two numbers are equal by value and all other values by text, while the order of two values is by text
only if one of them is a string. The two agree where no value is a double, since an integer is told by
its decimal text, however it is held.

* `integerText_injective`: different integers have different texts.
* `Value.looseEq_iff_sortOrder`: values are loosely equal if they are sorted as equal.
  `Value.looseEq_iff_text`: values without doubles are loosely equal if they have the same text.
* `Value.compare_eq_ok_iff`, `Value.compare_eq_error_iff`: which values have an order.
* `Value.comparisons_coherent`: **equality and order agree, and so do the words that test them.**
-/

namespace ScopeStack

open ScopeStack.Action

/-! ## 1. Equality -/

/-- **Different integers have different texts.** -/
theorem integerText_injective : Function.Injective integerText := by
  intro m n h
  have hm := readBigInt?_integerText m
  rw [h, readBigInt?_integerText] at hm
  exact (Option.some.inj hm).symm

namespace Value

variable {a b v : Value} {n : Int}

theorem text_of_toInt? (h : v.toInt? = some n) : v.text = integerText n := by
  cases v with
  | int | big =>
    cases h
    rfl
  | bool | double | str | word | block => cases h

/-- A number that is no double is an integer. -/
theorem exists_toInt? (h : v.isNumeric = true) (hd : v.isDouble = false) : ∃ n, v.toInt? = some n := by
  cases v with
  | int | big => exact ⟨_, rfl⟩
  | double => cases hd
  | bool | str | word | block => cases h

/-- Two numbers have an order. -/
theorem compareNumbers_ok (ha : a.isNumeric = true) (hb : b.isNumeric = true) :
    ∃ o, compareNumbers a b = .ok o := by
  unfold compareNumbers
  split
  · rw [asDouble_eq ha, asDouble_eq hb]
    exact ⟨_, rfl⟩
  · rename_i h
    rw [Bool.or_eq_true, not_or, Bool.not_eq_true, Bool.not_eq_true] at h
    rw [asInt_eq ha h.1, asInt_eq hb h.2]
    exact ⟨_, rfl⟩

theorem compareTexts_eq_iff : compareTexts a b = .eq ↔ a.text = b.text := by
  rw [compareTexts]
  exact Std.LawfulEqCmp.compare_eq_iff_eq

/-- **Values are loosely equal just if they are sorted as equal.** -/
theorem looseEq_iff_sortOrder : looseEq a b = true ↔ sortOrder a b = .eq := by
  by_cases h : (a.isNumeric && b.isNumeric) = true
  · obtain ⟨ha, hb⟩ := Bool.and_eq_true_iff.mp h
    obtain ⟨o, ho⟩ := compareNumbers_ok ha hb
    rw [looseEq, sortOrder, compare, if_pos h, if_pos h, ho]
    cases o <;> simp
  · have horder : sortOrder a b = compareTexts a b := by
      rw [sortOrder, compare, if_neg h]
      split
      · rename_i ho
        split at ho
        · cases ho
          rfl
        · cases ho
      · rfl
    rw [looseEq, if_neg h, horder, compareTexts_eq_iff, beq_iff_eq]

/-- **Values without doubles are loosely equal just if they have the same text.** -/
theorem looseEq_iff_text (ha : a.isDouble = false) (hb : b.isDouble = false) :
    looseEq a b = true ↔ a.text = b.text := by
  by_cases h : a.isNumeric = true ∧ b.isNumeric = true
  · obtain ⟨x, hx⟩ := exists_toInt? h.1 ha
    obtain ⟨y, hy⟩ := exists_toInt? h.2 hb
    have horder : sortOrder a b = Ord.compare x y := by
      rw [sortOrder_eq, rule_eq_integers.mpr ⟨h, ha, hb⟩, Rule.order, compareOn, hx, hy]
      rfl
    rw [looseEq_iff_sortOrder, horder, Std.LawfulEqCmp.compare_eq_iff_eq, text_of_toInt? hx,
      text_of_toInt? hy, integerText_injective.eq_iff]
  · rw [looseEq, if_neg (by rwa [Bool.and_eq_true]), beq_iff_eq]

theorem looseEq_self (ha : a.isDouble = false) : looseEq a a = true :=
  (looseEq_iff_text ha ha).mpr rfl

/-! ## 2. Order -/

/-- Both are numbers, or one is a string. -/
def Comparable (a b : Value) : Prop :=
  (a.isNumeric = true ∧ b.isNumeric = true) ∨ a.isString = true ∨ b.isString = true

theorem Comparable.symm (h : Comparable a b) : Comparable b a := h.imp And.symm Or.symm

/-- Values that can be compared have the order in which they are sorted. -/
theorem compare_of_comparable (h : Comparable a b) : compare a b = .ok (sortOrder a b) := by
  obtain ⟨o, ho⟩ : ∃ o, compare a b = .ok o := by
    by_cases hn : a.isNumeric = true ∧ b.isNumeric = true
    · obtain ⟨o, ho⟩ := compareNumbers_ok hn.1 hn.2
      exact ⟨o, by rw [compare, if_pos (Bool.and_eq_true_iff.mpr hn), ho]⟩
    · have hs := h.resolve_left hn
      exact ⟨compareTexts a b, by
        rw [compare, if_neg fun h => hn (Bool.and_eq_true_iff.mp h), if_pos (Bool.or_eq_true_iff.mpr hs)]⟩
  rw [sortOrder, ho]

theorem compare_of_not (h : ¬ Comparable a b) : compare a b = .error (.mismatch .ordered) := by
  rw [compare, if_neg fun hn => h (Or.inl (Bool.and_eq_true_iff.mp hn)),
    if_neg fun hs => h (Or.inr (Bool.or_eq_true_iff.mp hs))]

/-- **Which values have an order**: that in which they are sorted. -/
theorem compare_eq_ok_iff {o : Ordering} :
    compare a b = .ok o ↔ Comparable a b ∧ o = sortOrder a b := by
  by_cases h : Comparable a b
  · rw [compare_of_comparable h, Except.ok.injEq]
    exact ⟨fun ho => ⟨h, ho.symm⟩, fun ho => ho.2.symm⟩
  · rw [compare_of_not h]
    exact ⟨nofun, fun ho => absurd ho.1 h⟩

/-- **Which have none.** -/
theorem compare_eq_error_iff {f : Fault} :
    compare a b = .error f ↔ ¬ Comparable a b ∧ f = .mismatch .ordered := by
  by_cases h : Comparable a b
  · rw [compare_of_comparable h]
    exact ⟨nofun, fun hf => absurd h hf.1⟩
  · rw [compare_of_not h, Except.error.injEq]
    exact ⟨fun hf => ⟨h, hf.symm⟩, fun hf => hf.2.symm⟩

/-- The order of two values goes both ways, and it is that of equal values just if they are loosely
equal. -/
theorem compare_swap {o : Ordering} (h : compare a b = .ok o) :
    compare b a = .ok o.swap ∧ (o = .eq ↔ looseEq a b = true) := by
  obtain ⟨hc, rfl⟩ := compare_eq_ok_iff.mp h
  rw [compare_of_comparable hc.symm, sortOrder_swap a b]
  exact ⟨rfl, looseEq_iff_sortOrder.symm⟩

/-! ## 3. Words -/

variable {c : Context} {m m₁ m₂ : Machine}

/-- A test takes two values and pushes its answer, or fails with its fault. -/
theorem pushTest_run {test : Value → Value → Except Fault Bool} (hb : c.pop.run m = .ok b m₁)
    (ha : c.pop.run m₁ = .ok a m₂) :
    (pushTest c test).run m = (ofExcept (test a b) >>= fun r => c.push (.bool r)).run m₂ := by
  unfold pushTest pushResult
  rw [EStateM.run_bind, hb]
  dsimp only
  rw [EStateM.run_bind, ha]
  dsimp only
  cases test a b <;> rfl

/-- A test of the order. -/
theorem ordered_run {accepts : Ordering → Bool} {o : Ordering} (hb : c.pop.run m = .ok b m₁)
    (ha : c.pop.run m₁ = .ok a m₂) (ho : compare a b = .ok o) :
    (pushTest c (ordered accepts)).run m = (c.push (.bool (accepts o))).run m₂ := by
  rw [pushTest_run hb ha, ordered, ho]
  rfl

/-- Where the values have no order, a test of it fails. -/
theorem ordered_run_of_error {accepts : Ordering → Bool} {f : Fault} (hb : c.pop.run m = .ok b m₁)
    (ha : c.pop.run m₁ = .ok a m₂) (hf : compare a b = .error f) :
    (pushTest c (ordered accepts)).run m = .error ⟨f, none⟩ m₂ := by
  rw [pushTest_run hb ha, ordered, hf]
  rfl

/-- **Equality and order agree.** On values without doubles loose equality is equality of texts, and
so it relates values as equal. Two such values have no order just if they are not both numbers and
neither is a string. If they have one, they have the reverse the other way round, and it is that of
equal values just if they are loosely equal: so just one of less, equal and greater holds. When both are
taken from the stack, `=` pushes whether they are loosely equal, `<` and `>` whether their order is that
of a lesser or a greater value, and `<=` and `>=` deny `>` and `<`; these four fail if there is no
order. -/
theorem comparisons_coherent :
    Equivalence (fun a b : {v : Value // v.isDouble = false} => looseEq a.1 b.1 = true) ∧
    ∀ a b : Value, a.isDouble = false → b.isDouble = false →
      (looseEq a b = true ↔ a.text = b.text) ∧
      (∀ f, compare a b = .error f ↔ ¬ (a.isNumeric = true ∧ b.isNumeric = true) ∧
        a.isString = false ∧ b.isString = false ∧ f = .mismatch .ordered) ∧
      (∀ o, compare a b = .ok o →
        compare b a = .ok o.swap ∧ (o = .eq ↔ looseEq a b = true) ∧
        [o == .lt, looseEq a b, o == .gt].count true = 1) ∧
      ∀ (c : Context) (m m₁ m₂ : Machine), c.pop.run m = .ok b m₁ → c.pop.run m₁ = .ok a m₂ →
        (CompareWord.looseEq.perform c).run m = (c.push (.bool (looseEq a b))).run m₂ ∧
        (∀ o, compare a b = .ok o →
          (CompareWord.less.perform c).run m = (c.push (.bool (o == .lt))).run m₂ ∧
          (CompareWord.greater.perform c).run m = (c.push (.bool (o == .gt))).run m₂ ∧
          (CompareWord.lessOrEqual.perform c).run m = (c.push (.bool !(o == .gt))).run m₂ ∧
          (CompareWord.greaterOrEqual.perform c).run m = (c.push (.bool !(o == .lt))).run m₂) ∧
        ∀ f, compare a b = .error f → ∀ w ∈ [CompareWord.less, .greater, .lessOrEqual, .greaterOrEqual],
          (w.perform c).run m = .error ⟨f, none⟩ m₂ := by
  refine ⟨⟨?_, ?_, ?_⟩, fun a b ha hb => ⟨looseEq_iff_text ha hb, fun f => ?_, fun o ho => ?_,
    fun c m m₁ m₂ hpopb hpopa => ⟨pushTest_run hpopb hpopa, fun o ho => ?_, fun f hf w hw => ?_⟩⟩⟩
  · intro a
    exact looseEq_self a.2
  · intro a b hab
    exact (looseEq_iff_text b.2 a.2).mpr ((looseEq_iff_text a.2 b.2).mp hab).symm
  · intro a b c hab hbc
    have hac := ((looseEq_iff_text a.2 b.2).mp hab).trans ((looseEq_iff_text b.2 c.2).mp hbc)
    exact (looseEq_iff_text a.2 c.2).mpr hac
  · rw [compare_eq_error_iff, Comparable, not_or, not_or, Bool.not_eq_true, Bool.not_eq_true,
      and_assoc, and_assoc]
  · obtain ⟨hswap, heq⟩ := compare_swap ho
    have hequal : looseEq a b = (o == .eq) := by
      rw [Bool.eq_iff_iff, ← heq, beq_iff_eq]
    refine ⟨hswap, heq, ?_⟩
    rw [hequal]
    cases o <;> decide
  · exact ⟨ordered_run hpopb hpopa ho, ordered_run hpopb hpopa ho, ordered_run hpopb hpopa ho,
      ordered_run hpopb hpopa ho⟩
  · simp only [List.mem_cons, List.not_mem_nil, or_false] at hw
    rcases hw with rfl | rfl | rfl | rfl <;> exact ordered_run_of_error hpopb hpopa hf

/-- The number 9 and the text `10` on the stack: they are told by their texts, and so 9 is greater. -/
theorem comparisons_coherent_mixed : ∃ (c : Context) (m m₁ m₂ : Machine),
    c.pop.run m = .ok (.str "10") m₁ ∧ c.pop.run m₁ = .ok (.int 9) m₂ ∧
    compare (.int 9) (.str "10") = .ok .gt ∧ compare (.str "10") (.int 9) = .ok .lt ∧
    (CompareWord.less.perform c).run m = (c.push (.bool false)).run m₂ ∧
    (CompareWord.looseEq.perform c).run m = (c.push (.bool false)).run m₂ ∧
    (CompareWord.greater.perform c).run m = (c.push (.bool true)).run m₂ ∧
    (CompareWord.lessOrEqual.perform c).run m = (c.push (.bool false)).run m₂ ∧
    (CompareWord.greaterOrEqual.perform c).run m = (c.push (.bool true)).run m₂ := by
  obtain ⟨w, -, hm⟩ := Ensemble.exists_lists ([] ++ [.int 9] ++ [.str "10"]) (by simp [isDouble]) (by simp)
  obtain ⟨m₁, hb, hm₁⟩ := hm.pop
  obtain ⟨m₂, ha, -⟩ := hm₁.pop
  have hcompare : compare (.int 9) (.str "10") = .ok .gt :=
    compare_eq_ok_iff.mpr ⟨Or.inr (Or.inr rfl), by decide +kernel⟩
  obtain ⟨-, -, hordered, hwords⟩ := comparisons_coherent.2 (.int 9) (.str "10") rfl rfl
  obtain ⟨hswap, hequal, -⟩ := hordered _ hcompare
  obtain ⟨hloose, htests, -⟩ := hwords _ _ _ _ hb ha
  obtain ⟨hless, hgreater, hlessEq, hgreaterEq⟩ := htests _ hcompare
  have hdiffer : looseEq (.int 9) (.str "10") = false := by
    rw [Bool.eq_false_iff]
    intro h
    cases hequal.mpr h
  rw [hdiffer] at hloose
  exact ⟨.top, _, m₁, m₂, hb, ha, hcompare, hswap, hless, hloose, hgreater, hlessEq, hgreaterEq⟩

end Value

end ScopeStack
