import ScopeStack.Proofs.Values
import ScopeStack.Word.Lists
import ScopeStack.Word.Values

/-!
# Words on values

A word that only works on values reaches the machine through a few actions. In two contexts where these
agree the word agrees, wherever it fails; and it keeps every invariant that they keep.

* `Mirrors`: the actions by which a word reaches values agree in two contexts.
* `OutputWord.agree`, `StackWord.agree`, `ArithWord.agree`, `CompareWord.agree`, `TextWord.agree`,
  `ListWord.agree`: **one statement for each family of words.**
* `OutputWord.keeps`, `StackWord.keeps`, `ArithWord.keeps`, `CompareWord.keeps`, `TextWord.keeps`,
  `ListWord.keeps`: invariants, as the case of one context.
-/

namespace ScopeStack

open ScopeStack.Action

/-! ## 1. Kinds of values -/

theorem Value.ofInt_ne_block (n : Int) (h : Nat) : Value.ofInt n ≠ .block h := by
  unfold Value.ofInt
  split <;> exact fun he => by cases he

theorem Value.isDouble_ofInt (n : Int) : (Value.ofInt n).isDouble = false := by
  unfold Value.ofInt
  split <;> rfl

/-- Calculating gives no blocks. -/
theorem ArithOp.apply_ne_block {op : ArithOp} {a b v : Value} (h : op.apply a b = .ok v)
    (k : Nat) : v ≠ .block k := by
  unfold ArithOp.apply at h
  split at h
  · cases h
  · split at h
    · cases ha : a.asDouble with
      | error e => rw [ha] at h; cases h
      | ok x =>
        cases hb : b.asDouble with
        | error e => rw [ha, hb] at h; cases h
        | ok y =>
          rw [ha, hb] at h
          cases h
          exact fun he => by cases he
    · split at h
      · cases h
        exact fun he => by cases he
      cases ha : a.asInt with
      | error e => rw [ha] at h; cases h
      | ok x =>
        cases hb : b.asInt with
        | error e => rw [ha, hb] at h; cases h
        | ok y =>
          rw [ha, hb] at h
          cases h
          exact Value.ofInt_ne_block _ k

/-! ## 2. Lists of values -/

theorem mem_insertFalling {v w : Value} {vs : List Value} (h : w ∈ insertFalling v vs) :
    w = v ∨ w ∈ vs := by
  induction vs with
  | nil => exact Or.inl (List.mem_singleton.mp h)
  | cons x rest ih =>
    unfold insertFalling at h
    split at h
    · rcases List.mem_cons.mp h with rfl | h
      · exact Or.inr List.mem_cons_self
      · exact (ih h).imp_right (List.mem_cons_of_mem _)
    · exact List.mem_cons.mp h

theorem mem_insertValues {v : Value} {vs : List Value} (h : v ∈ insertValues vs) : v ∈ vs := by
  have hfold (l sorted : List Value)
      (h : v ∈ l.foldl (fun sorted v => insertFalling v sorted) sorted) : v ∈ l ∨ v ∈ sorted := by
    induction l generalizing sorted with
    | nil => exact Or.inr h
    | cons x l ih =>
      rcases ih _ h with h | h
      · exact Or.inl (List.mem_cons_of_mem _ h)
      · rcases mem_insertFalling h with rfl | h
        · exact Or.inl List.mem_cons_self
        · exact Or.inr h
  exact (hfold vs [] (List.mem_reverse.mp h)).resolve_right List.not_mem_nil

/-- Sorting adds no values. -/
theorem mem_sortValues {v : Value} {vs : List Value} (h : v ∈ sortValues vs) : v ∈ vs := by
  fun_induction sortValues vs with
  | case1 vs _ => exact mem_insertValues h
  | case2 vs _ half ih₁ ih₂ =>
    rcases List.mem_merge.mp h with h | h
    · exact List.mem_of_mem_take (ih₁ h)
    · exact List.mem_of_mem_drop (ih₂ h)

theorem mem_setAfterKey {v key value : Value} {vs : List Value}
    (h : v ∈ setAfterKey vs key value) : v ∈ vs ∨ v = key ∨ v = value := by
  unfold setAfterKey at h
  split at h
  · split at h
    · exact (List.mem_or_eq_of_mem_set h).imp_right Or.inr
    · simpa using h
  · simpa using h

theorem mem_swapEntries {vs ws : List Value} {i j : Nat} (h : swapEntries? vs i j = some ws)
    {v : Value} (hv : v ∈ ws) : v ∈ vs := by
  unfold swapEntries? at h
  split at h
  · rename_i x y hx hy
    cases h
    rcases List.mem_or_eq_of_mem_set hv with hv | rfl
    · rcases List.mem_or_eq_of_mem_set hv with hv | rfl
      · exact hv
      · exact List.mem_of_getElem? hy
    · exact List.mem_of_getElem? hx
  · cases h

/-! ## 3. Words -/

/-- The actions by which a word reaches values agree in two contexts. What they take is good, and what
is good can be given back; so are values that are neither blocks nor doubles, and results of
calculating with what is good. -/
structure Mirrors (R : Machine → Machine → Prop) (good : Value → Prop) (c d : Context) : Prop where
  pop : Agree R c.pop d.pop good
  peek : Agree R c.peek d.peek good
  push {v : Value} : good v → Agree R (c.push v) (d.push v) fun _ => True
  size : Agree R c.stackSize d.stackSize fun _ => True
  values : Agree R c.stackValues d.stackValues fun vs => ∀ v ∈ vs, good v
  setValues {vs : List Value} : (∀ v ∈ vs, good v) →
    Agree R (c.setStackValues vs) (d.setStackValues vs) fun _ => True
  drain : Agree R c.drainStack d.drainStack fun vs => ∀ v ∈ vs, good v
  write (text : String) : Agree R (write text) (write text) fun _ => True
  plain {v : Value} : (∀ h, v ≠ .block h) → v.isDouble = false → good v
  result {op : ArithOp} {a b v : Value} : good a → good b → op.apply a b = .ok v → good v

section Pops

variable {R : Machine → Machine → Prop} {good : Value → Prop} {c d : Context}
  (hpop : Agree R c.pop d.pop good)
include hpop

theorem popInt_agree : Agree R c.popInt d.popInt fun _ => True :=
  hpop.bind fun v _ => by
    cases v with
    | int n => exact .pure trivial
    | bool | big | double | str | word | block => exact .fail _

theorem popNat_agree : Agree R c.popNat d.popNat fun _ => True :=
  (popInt_agree hpop).bind fun n _ => by
    dsimp only
    split
    · exact .fail _
    · exact .pure trivial

theorem popBool_agree : Agree R c.popBool d.popBool fun _ => True :=
  hpop.bind fun v _ => by
    cases v with
    | bool b => exact .pure trivial
    | int | big | double | str | word | block => exact .fail _

theorem popText_agree : Agree R c.popText d.popText fun _ => True :=
  hpop.bind fun v _ => by
    cases v with
    | str | word => exact .pure trivial
    | bool | int | big | double | block => exact .fail _

end Pops

section Agreement

variable {R : Machine → Machine → Prop} {good : Value → Prop} {c d : Context}
  (M : Mirrors R good c d)
include M

theorem Mirrors.popInt : Agree R c.popInt d.popInt fun _ => True := popInt_agree M.pop

theorem Mirrors.popNat : Agree R c.popNat d.popNat fun _ => True := popNat_agree M.pop

theorem Mirrors.popBool : Agree R c.popBool d.popBool fun _ => True := popBool_agree M.pop

theorem Mirrors.popText : Agree R c.popText d.popText fun _ => True := popText_agree M.pop

theorem Mirrors.pushInt (n : Int) : Agree R (c.push (.ofInt n)) (d.push (.ofInt n)) fun _ => True :=
  M.push (M.plain (Value.ofInt_ne_block n) (Value.isDouble_ofInt n))

theorem Mirrors.pushNat (n : Nat) : Agree R (c.push (.ofNat n)) (d.push (.ofNat n)) fun _ => True :=
  M.pushInt n

theorem Mirrors.pushBool (b : Bool) : Agree R (c.push (.bool b)) (d.push (.bool b)) fun _ => True :=
  M.push (M.plain (fun h he => by cases he) rfl)

theorem Mirrors.pushStr (text : String) :
    Agree R (c.push (.str text)) (d.push (.str text)) fun _ => True :=
  M.push (M.plain (fun h he => by cases he) rfl)

theorem OutputWord.agree (w : OutputWord) : Agree R (w.perform c) (w.perform d) fun _ => True := by
  cases w with
  | print => exact M.pop.bind fun v _ => M.write _
  | printTight => exact M.pop.bind fun v _ => M.write _
  | printStack => exact M.values.bind fun vs _ => M.write _
  | emit =>
    refine M.popInt.bind fun n _ => ?_
    exact (Agree.ofOption fun _ _ => trivial).bind fun char (_ : True) => M.write _
  | newline => exact M.write _
  | space => exact M.write _

theorem StackWord.agree (w : StackWord) : Agree R (w.perform c) (w.perform d) fun _ => True := by
  cases w with
  | depth => exact M.size.bind fun n _ => M.pushNat n
  | swap =>
    refine M.pop.bind fun b hb => M.pop.bind fun a ha => ?_
    exact (M.push hb).bind fun _ _ => M.push ha
  | swapAt =>
    refine M.popNat.bind fun j _ => M.popNat.bind fun i _ => M.values.bind fun vs hvs => ?_
    refine (Agree.ofOption fun ws hws => hws).bind fun ws hws => M.setValues fun v hv => ?_
    exact hvs v (mem_swapEntries hws hv)
  | dup => exact M.peek.bind fun v hv => M.push hv
  | «over» =>
    refine M.pop.bind fun b hb => M.pop.bind fun a ha => ?_
    exact (M.push ha).bind fun _ _ => (M.push hb).bind fun _ _ => M.push ha
  | rot =>
    refine M.pop.bind fun z hz => M.pop.bind fun y hy => M.pop.bind fun x hx => ?_
    exact (M.push hy).bind fun _ _ => (M.push hz).bind fun _ _ => M.push hx
  | drop => exact M.pop.bind fun _ _ => .pure trivial
  | swapPairs =>
    refine M.pop.bind fun z hz => M.pop.bind fun y hy => ?_
    refine M.pop.bind fun b hb => M.pop.bind fun a ha => ?_
    refine (M.push hy).bind fun _ _ => (M.push hz).bind fun _ _ => ?_
    exact (M.push ha).bind fun _ _ => M.push hb
  | dupPair =>
    refine M.pop.bind fun b hb => M.pop.bind fun a ha => ?_
    refine (M.push ha).bind fun _ _ => (M.push hb).bind fun _ _ => ?_
    exact (M.push ha).bind fun _ _ => M.push hb
  | overPair =>
    refine M.pop.bind fun z hz => M.pop.bind fun y hy => ?_
    refine M.pop.bind fun b hb => M.pop.bind fun a ha => ?_
    refine (M.push ha).bind fun _ _ => (M.push hb).bind fun _ _ => ?_
    refine (M.push hy).bind fun _ _ => (M.push hz).bind fun _ _ => ?_
    exact (M.push ha).bind fun _ _ => M.push hb
  | dropPair => exact M.pop.bind fun _ _ => M.pop.bind fun _ _ => .pure trivial
  | clear => exact M.drain.bind fun _ _ => .pure trivial

/-- An operation that makes what is good of what is good. -/
theorem Mirrors.pushResult {op : Value → Value → Except Fault Value}
    (hop : ∀ a b v, good a → good b → op a b = .ok v → good v) :
    Agree R (pushResult c op) (pushResult d op) fun _ => True :=
  M.pop.bind fun b hb => M.pop.bind fun a ha =>
    (Agree.ofExcept fun v hv => hop a b v ha hb hv).bind fun _ hv => M.push hv

theorem Mirrors.sum {a b v : Value} (ha : good a) (hb : good b) (h : addValues a b = .ok v) :
    good v := by
  unfold addValues at h
  split at h
  · cases h
    exact M.plain (fun k he => by cases he) rfl
  · exact M.result ha hb h

theorem Mirrors.division {op : ArithOp} {a b v : Value} (ha : good a) (hb : good b)
    (h : dividing op a b = .ok v) : good v := by
  unfold dividing at h
  cases hd : checkDivisor b with
  | error e => rw [hd] at h; cases h
  | ok u =>
    rw [hd] at h
    exact M.result ha hb h

theorem ArithWord.agree (w : ArithWord) : Agree R (w.perform c) (w.perform d) fun _ => True := by
  cases w with
  | add => exact M.pushResult fun _ _ _ ha hb h => M.sum ha hb h
  | subtract => exact M.pushResult fun _ _ _ ha hb h => M.result ha hb h
  | multiply => exact M.pushResult fun _ _ _ ha hb h => M.result ha hb h
  | divide => exact M.pushResult fun _ _ _ ha hb h => M.division ha hb h
  | modulo => exact M.pushResult fun _ _ _ ha hb h => M.division ha hb h
  | divideModulo =>
    refine M.pop.bind fun b hb => M.pop.bind fun a ha => ?_
    refine (Agree.ofExcept fun v hv => M.division ha hb hv).bind fun remainder hr => ?_
    refine (Agree.ofExcept fun v hv => M.division ha hb hv).bind fun quotient hq => ?_
    exact (M.push hr).bind fun _ _ => M.push hq

theorem Mirrors.pushTest (test : Value → Value → Except Fault Bool) :
    Agree R (pushTest c test) (pushTest d test) fun _ => True :=
  M.pushResult fun a b v _ _ hv => by
    cases ht : test a b with
    | error e => rw [ht] at hv; cases hv
    | ok passed =>
      rw [ht] at hv
      cases hv
      exact M.plain (fun h he => by cases he) rfl

theorem Mirrors.pushLogic (op : Bool → Bool → Bool) :
    Agree R (pushLogic c op) (pushLogic d op) fun _ => True :=
  M.popBool.bind fun b _ => M.popBool.bind fun a _ => M.pushBool (op a b)

theorem CompareWord.agree (w : CompareWord) : Agree R (w.perform c) (w.perform d) fun _ => True := by
  cases w with
  | looseEq => exact M.pushTest _
  | identical => exact M.pushTest _
  | less => exact M.pushTest _
  | greater => exact M.pushTest _
  | lessOrEqual => exact M.pushTest _
  | greaterOrEqual => exact M.pushTest _
  | and => exact M.pushLogic _
  | or => exact M.pushLogic _
  | not => exact M.popBool.bind fun b _ => M.pushBool _

theorem Mirrors.pushText (f : String → String) :
    Agree R (pushText c f) (pushText d f) fun _ => True :=
  M.popText.bind fun text _ => M.pushStr (f text)

theorem Mirrors.pushReplaced (f : String → String → String → String) :
    Agree R (pushReplaced c f) (pushReplaced d f) fun _ => True :=
  M.popText.bind fun new _ => M.popText.bind fun needle _ => M.popText.bind fun text _ =>
    M.pushStr (f needle new text)

theorem TextWord.agree (w : TextWord) : Agree R (w.perform c) (w.perform d) fun _ => True := by
  cases w with
  | length => exact M.popText.bind fun text _ => M.pushNat _
  | charAt =>
    refine M.popNat.bind fun index _ => M.popText.bind fun text _ => ?_
    exact (Agree.ofExcept fun _ _ => trivial).bind fun code (_ : True) => M.pushNat code
  | eq => exact M.popText.bind fun b _ => M.popText.bind fun a _ => M.pushBool _
  | eqIgnoringCase => exact M.popText.bind fun b _ => M.popText.bind fun a _ => M.pushBool _
  | lower => exact M.pushText _
  | upper => exact M.pushText _
  | trim => exact M.pushText _
  | substring =>
    refine M.popNat.bind fun stop _ => M.popNat.bind fun start _ => M.popText.bind fun text _ => ?_
    exact (Agree.ofExcept fun _ _ => trivial).bind fun part (_ : True) => M.pushStr part
  | replaceFirst => exact M.pushReplaced _
  | replaceAll => exact M.pushReplaced _
  | find => exact M.popText.bind fun search _ => M.popText.bind fun text _ => M.pushInt _

theorem Mirrors.popPosition :
    Agree R (popPosition c) (popPosition d) fun r => ∀ v ∈ r.2, good v :=
  M.popNat.bind fun index _ => M.values.bind fun vs hvs => by
    dsimp only
    split
    · exact (Agree.fail _).bind fun _ (_ : True) => .pure hvs
    · exact .pure hvs

theorem ListWord.agree (w : ListWord) : Agree R (w.perform c) (w.perform d) fun _ => True := by
  cases w with
  | copyAt =>
    refine M.popPosition.bind fun r hr => ?_
    refine (Agree.ofOption fun v hv => ?_).bind fun v hv => M.push hv
    exact hr v (List.mem_of_getElem? hv)
  | removeAt =>
    exact M.popPosition.bind fun r hr => M.setValues fun v hv => hr v (List.mem_of_mem_eraseIdx hv)
  | removeAll => exact M.setValues fun v hv => absurd hv List.not_mem_nil
  | remove =>
    refine M.pop.bind fun key _ => M.values.bind fun vs hvs => ?_
    cases positionOf vs key with
    | some i => exact M.setValues fun v hv => hvs v (List.mem_of_mem_eraseIdx hv)
    | none => exact .pure trivial
  | get =>
    refine M.pop.bind fun key _ => M.values.bind fun vs hvs => ?_
    cases hvalue : valueAfterKey vs key with
    | some value =>
      obtain ⟨i, -, hi⟩ := Option.bind_eq_some_iff.mp hvalue
      exact M.push (hvs value (List.mem_of_getElem? hi))
    | none => exact .pure trivial
  | set =>
    refine M.pop.bind fun value hvalue => M.pop.bind fun key hkey => ?_
    refine M.values.bind fun vs hvs => M.setValues fun v hv => ?_
    rcases mem_setAfterKey hv with hv | rfl | rfl
    · exact hvs v hv
    · exact hkey
    · exact hvalue
  | reverse => exact M.values.bind fun vs hvs => M.setValues fun v hv => hvs v (List.mem_reverse.mp hv)
  | sort => exact M.values.bind fun vs hvs => M.setValues fun v hv => hvs v (mem_sortValues hv)
  | search => exact M.pop.bind fun key _ => M.values.bind fun vs _ => M.pushInt _
  | replaceFirst =>
    refine M.pop.bind fun new hnew => M.pop.bind fun old _ => M.values.bind fun vs hvs => ?_
    cases positionOf vs old with
    | some i =>
      refine M.setValues fun v hv => ?_
      rcases List.mem_or_eq_of_mem_set hv with hv | rfl
      · exact hvs v hv
      · exact hnew
    | none => exact .pure trivial
  | replaceAll =>
    refine M.pop.bind fun new hnew => M.pop.bind fun old _ => M.values.bind fun vs hvs => ?_
    refine M.setValues fun v hv => ?_
    obtain ⟨w, hw, rfl⟩ := List.mem_map.mp hv
    split
    · exact hnew
    · exact hvs w hw

end Agreement

/-! ## 4. Invariants -/

section Pops

variable {P : Machine → Prop} {good : Value → Prop} {c : Context} (hpop : Keeps P c.pop good)
include hpop

theorem popInt_keeps : Keeps P c.popInt fun _ => True :=
  keeps_iff_agree.mpr (popInt_agree (keeps_iff_agree.mp hpop))

theorem popBool_keeps : Keeps P c.popBool fun _ => True :=
  keeps_iff_agree.mpr (popBool_agree (keeps_iff_agree.mp hpop))

theorem popText_keeps : Keeps P c.popText fun _ => True :=
  keeps_iff_agree.mpr (popText_agree (keeps_iff_agree.mp hpop))

theorem popRunnable_keeps : Keeps P c.popRunnable good :=
  hpop.bind fun v hv => by
    split
    · exact .pure hv
    · exact .fail _

end Pops

section Invariants

variable {P : Machine → Prop} {good : Value → Prop} {c : Context} (H : Handles P good c)
include H

/-- An invariant is kept in a context that mirrors itself. -/
theorem Handles.mirrors : Mirrors (Only P) good c c where
  pop := keeps_iff_agree.mp H.pop
  peek := keeps_iff_agree.mp H.peek
  push hv := keeps_iff_agree.mp (H.push hv)
  size := keeps_iff_agree.mp H.size
  values := keeps_iff_agree.mp H.values
  setValues hvs := keeps_iff_agree.mp (H.setValues hvs)
  drain := keeps_iff_agree.mp H.drain
  write text := keeps_iff_agree.mp (H.write text)
  plain hv _ := H.plain hv
  result _ _ hv := H.plain (ArithOp.apply_ne_block hv)

theorem Handles.popInt : Keeps P c.popInt fun _ => True := popInt_keeps H.pop

theorem Handles.popNat : Keeps P c.popNat fun _ => True := keeps_iff_agree.mpr H.mirrors.popNat

theorem Handles.popBool : Keeps P c.popBool fun _ => True := popBool_keeps H.pop

theorem Handles.popText : Keeps P c.popText fun _ => True := popText_keeps H.pop

theorem Handles.pushInt (n : Int) : Keeps P (c.push (.ofInt n)) fun _ => True :=
  keeps_iff_agree.mpr (H.mirrors.pushInt n)

theorem Handles.pushWord (w : Int64) : Keeps P (c.push (.int w)) fun _ => True :=
  H.push (H.plain nofun)

theorem OutputWord.keeps (w : OutputWord) : Keeps P (w.perform c) fun _ => True :=
  keeps_iff_agree.mpr (w.agree H.mirrors)

theorem StackWord.keeps (w : StackWord) : Keeps P (w.perform c) fun _ => True :=
  keeps_iff_agree.mpr (w.agree H.mirrors)

theorem ArithWord.keeps (w : ArithWord) : Keeps P (w.perform c) fun _ => True :=
  keeps_iff_agree.mpr (w.agree H.mirrors)

theorem CompareWord.keeps (w : CompareWord) : Keeps P (w.perform c) fun _ => True :=
  keeps_iff_agree.mpr (w.agree H.mirrors)

theorem TextWord.keeps (w : TextWord) : Keeps P (w.perform c) fun _ => True :=
  keeps_iff_agree.mpr (w.agree H.mirrors)

theorem ListWord.keeps (w : ListWord) : Keeps P (w.perform c) fun _ => True :=
  keeps_iff_agree.mpr (w.agree H.mirrors)

end Invariants

end ScopeStack
