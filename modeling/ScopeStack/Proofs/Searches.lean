import Mathlib.Data.Finset.Card
import Mathlib.Logic.Function.Iterate
import ScopeStack.Proofs.Handles
import ScopeStack.Proofs.Pids

/-!
# Searches that count round

Process ids and handles are found in the same way: from some point on, counting round, until one
comes up that is not taken. Such a loop has no bound of its own. It ends where any candidate is left
at all, and then at the first one, because every candidate comes up before one comes up again.

* `Search`: the loop, step by step. It ends nowhere else (`Search.unique`), and it ends at the first
  that is not taken (`search_iff`).
* `ProcessTable.Reached`: the tables that come about.
* `ProcessTable.Reached.allocate_first`: **the first id that is not in use is handed out.**
* `Payload.held`: the handles that are spoken for on some scopes.
* `Arena.Acyclic.intern_first`: **a payload gets the first handle, counting from its hash, that
  stands for nothing else.**
-/

namespace ScopeStack

/-! ## 1. A loop without a bound -/

/-- A loop that stands at the first point ends at the second: what is taken is stepped over, and
what is not is the end. -/
inductive Search {α : Type} (taken : α → Bool) (next : α → α) : α → α → Prop where
  | here {x : α} : taken x = false → Search taken next x x
  | onward {x y : α} : taken x = true → Search taken next (next x) y → Search taken next x y

namespace Search

variable {α : Type} {taken : α → Bool} {next : α → α} {x y z : α}

theorem free (h : Search taken next x y) : taken y = false := by
  induction h with
  | here hx => exact hx
  | onward _ _ ih => exact ih

theorem unique (hy : Search taken next x y) (hz : Search taken next x z) : y = z := by
  induction hy with
  | here hx =>
    cases hz with
    | here => rfl
    | onward hx' => simp [hx] at hx'
  | onward hx _ ih =>
    cases hz with
    | here hx' => simp [hx] at hx'
    | onward _ hz => exact ih hz

end Search

/-- **The loop ends at the first point that is not taken**, wherever there is one. -/
theorem search_iff {α : Type} {taken : α → Bool} {next : α → α} {x y : α} :
    Search taken next x y ↔
      ∃ n, next^[n] x = y ∧ taken y = false ∧ ∀ i < n, taken (next^[i] x) = true := by
  constructor
  · intro h
    induction h with
    | here hx => exact ⟨0, rfl, hx, fun i hi => absurd hi (Nat.not_lt_zero i)⟩
    | onward hx _ ih =>
      obtain ⟨n, hn, hy, hbefore⟩ := ih
      refine ⟨n + 1, hn, hy, fun i hi => ?_⟩
      cases i with
      | zero => exact hx
      | succ i => exact hbefore i (Nat.lt_of_succ_lt_succ hi)
  · intro ⟨n, hn, hy, hbefore⟩
    induction n generalizing x with
    | zero =>
      obtain rfl : x = y := hn
      exact .here hy
    | succ n ih =>
      refine .onward (hbefore 0 (Nat.succ_pos n)) (ih hn fun i hi => ?_)
      exact hbefore (i + 1) (Nat.succ_lt_succ hi)

/-! ## 2. Process ids -/

namespace ProcessTable

variable {t : ProcessTable}

/-- The tables that come about when process 0 is registered, ids are handed out, and processes are
put in and taken out, whichever and in whatever order. -/
inductive Reached : ProcessTable → Prop where
  | fresh : Reached {}
  | registerRoot {t : ProcessTable} (scope : Nat) : Reached t → Reached (t.registerRoot scope)
  | allocate {t : ProcessTable} : Reached t → Reached t.allocate.2
  | insert {t : ProcessTable} (pid : Pid) (scope : Nat) : Reached t → Reached (t.insert pid scope)
  | erase {t : ProcessTable} (pid : Pid) : Reached t → Reached (t.erase pid)

/-- The counter stays in its range. -/
theorem Reached.last_range (hr : t.Reached) : PidInRange t.last := by
  induction hr with
  | fresh => exact ⟨by decide, by decide⟩
  | registerRoot scope _ ih => exact ih
  | allocate _ ih => exact (freeAfter_range _ ih).2
  | insert pid scope _ ih => exact ih
  | erase pid _ ih => exact ih

/-- Step by step the counter takes the values that come up. -/
theorem iterate_nextPid {pid : Int} (h : PidInRange pid) (i : Nat) :
    nextPid^[i + 1] pid = nthPid pid i := by
  induction i generalizing pid with
  | zero => exact nextPid_eq h
  | succ i ih =>
    rw [Function.iterate_succ_apply, nextPid_eq h, ih (nthPid_range pid 0).2, nthPid_nthPid]

/-- Looking ahead a number of times is the loop, when a free id is found. -/
theorem search_freeAfter {n : Nat} {pid : Int} (hfree : t.contains (t.freeAfter n pid) = false) :
    Search t.contains nextPid (nextPid pid) (t.freeAfter n pid) := by
  induction n generalizing pid with
  | zero => exact .here hfree
  | succ n ih =>
    rw [freeAfter] at hfree ⊢
    split at hfree
    · rename_i hused
      rw [if_pos hused]
      exact .onward hused (ih hfree)
    · rename_i hunused
      rw [if_neg hunused]
      exact .here hfree

/-- **The first id that is not in use is handed out.** In every table that comes about, as long as
some id is not in use: the loop ends, at the first id not in use among those that come up after the
last one, counting round, and it looks at none of them twice. The counter takes no value out of its
range on the way. The id is not that of process 0, and the processes stay as they are. -/
theorem Reached.allocate_first (hr : t.Reached) (hroom : t.HasRoom) :
    Search t.contains nextPid (nextPid t.last) t.allocate.1 ∧
    (∃ n < 0x7fffffffffffffff, t.allocate.1 = nthPid t.last n ∧ t.contains (nthPid t.last n) = false ∧
      ∀ i < n, t.contains (nthPid t.last i) = true) ∧
    (∀ i, nextPid^[i + 1] t.last = nthPid t.last i ∧
      1 ≤ nthPid t.last i ∧ nthPid t.last i ≤ maxPid) ∧
    1 ≤ t.allocate.1 ∧ t.allocate.1 ≠ rootPid ∧
    t.allocate.2.entries = t.entries ∧ t.allocate.2.last = t.allocate.1 := by
  have hlast := hr.last_range
  obtain ⟨hfree, hone, -⟩ := allocate_free hlast hroom
  have hsearch : Search t.contains nextPid (nextPid t.last) t.allocate.1 := search_freeAfter hfree
  obtain ⟨n, hn, -, hbefore⟩ := search_iff.mp hsearch
  have hnth (i : Nat) : nextPid^[i] (nextPid t.last) = nthPid t.last i := iterate_nextPid hlast i
  have hused (i : Nat) (hi : i < n) : t.contains (nthPid t.last i) = true := by
    rw [← hnth]
    exact hbefore i hi
  have hfound : t.allocate.1 = nthPid t.last n := by rw [← hnth, hn]
  have hround : n < 0x7fffffffffffffff := by
    -- the id that is not in use comes up within one round, and not before the one that is found
    obtain ⟨p, hp, hpfree⟩ := hroom
    obtain ⟨i, hi, rfl⟩ := exists_nthPid t.last hp
    by_contra hlong
    rw [hused i (by omega)] at hpfree
    cases hpfree
  refine ⟨hsearch, ⟨n, hround, hfound, hfound ▸ hfree, hused⟩, fun i => ?_, hone, fun h0 => ?_,
    rfl, rfl⟩
  · obtain ⟨h₁, -, hm⟩ := nthPid_range t.last i
    exact ⟨iterate_nextPid hlast i, h₁, hm⟩
  · rw [h0] at hone
    exact absurd hone (by decide)

/-- Without any process ids are handed out in turn. -/
theorem reached_counter (n : Nat) (hn : n ≤ 0x7fffffffffffffff) : Reached { last := n } := by
  induction n with
  | zero => exact .fresh
  | succ n ih =>
    have hmax : ¬ (n : Int) = 0x7fffffffffffffff := by omega
    have hnext : nextPid n = n + 1 := if_neg hmax
    have h : Reached { last := nextPid n } := (ih (by omega)).allocate
    rwa [hnext] at h

/-- After the largest id, with 1 in use, it is the turn of 2. -/
theorem Reached.allocate_first_round :
    let t : ProcessTable := ({ last := maxPid } : ProcessTable).insert 1 20
    t.allocate.1 = 2 ∧ t.contains t.allocate.1 = false ∧
      Search t.contains nextPid 1 t.allocate.1 := by
  intro t
  have hr : t.Reached := (reached_counter 0x7fffffffffffffff (Nat.le_refl _)).insert 1 20
  have hroom : t.HasRoom := ⟨2, ⟨by decide, by decide, by decide⟩, by decide +kernel⟩
  obtain ⟨hsearch, -⟩ := hr.allocate_first hroom
  exact ⟨by decide +kernel, hsearch.free, hsearch⟩

end ProcessTable

/-! ## 3. Handles -/

namespace Arena

section Held

variable {α : Type} [BEq α] [Interned α] {a : Arena} {ids : List ScopeId} {v : α} {g h : Handle}

/-- The handles that the tables of these scopes hold. -/
def heldHandles (a : Arena) (α : Type) [BEq α] [Interned α] (ids : List ScopeId) : Finset Handle :=
  (ids.flatMap fun k => (a.get? k).elim [] fun s =>
    (Interned.table s : InternTable α).entries.keys).toFinset

theorem mem_heldHandles :
    h ∈ a.heldHandles α ids ↔ ∃ k ∈ ids, ∃ w, a.payloadAt α k h = some w := by
  unfold heldHandles payloadAt
  rw [List.mem_toFinset, List.mem_flatMap]
  refine exists_congr fun k => and_congr_right fun _ => ?_
  cases a.get? k with
  | none => simp
  | some s =>
    rw [Option.elim_some, Option.bind_some, Std.TreeMap.mem_keys,
      Std.TreeMap.mem_iff_isSome_getElem?]
    exact Option.isSome_iff_exists

/-- What is not held is not taken. -/
theorem anyConflict_of_not_held (hg : g ∉ a.heldHandles α ids) : a.anyConflict ids v g = false := by
  rw [← Bool.not_eq_true, anyConflict_eq_true]
  rintro ⟨k, hk, w, hw, -⟩
  exact hg (mem_heldHandles.mpr ⟨k, hk, w, hw⟩)

/-- **Where not all handles are held, one is left.** -/
theorem exists_not_taken (hroom : (a.heldHandles α ids).card < handleCount) (v : α) :
    ∃ g < handleCount, a.anyConflict ids v g = false := by
  have hcard : (a.heldHandles α ids).card < (Finset.range handleCount).card := by
    rwa [Finset.card_range]
  obtain ⟨g, hg, hfree⟩ := Finset.exists_mem_notMem_of_card_lt_card hcard
  exact ⟨g, Finset.mem_range.mp hg, anyConflict_of_not_held hfree⟩

theorem iterate_nextHandle (hg : g < handleCount) (i : Nat) :
    nextHandle^[i] g = (g + i) % handleCount := by
  induction i with
  | zero => exact (Nat.mod_eq_of_lt hg).symm
  | succ i ih =>
    rw [Function.iterate_succ_apply', ih, nextHandle, Nat.mod_add_mod, Nat.add_assoc]

/-- Looking at a number of handles is the loop, when one is found. -/
theorem search_probe {taken : Handle → Bool} {n : Nat} (hp : probe taken n g = some h) :
    Search taken nextHandle g h := by
  induction n generalizing g with
  | zero => cases hp
  | succ n ih =>
    rw [probe] at hp
    split at hp
    · rename_i hg
      exact .onward hg (ih hp)
    · rename_i hg
      cases hp
      exact .here (Bool.not_eq_true _ ▸ hg)

/-- **The loop ends if any handle is left, and within one round.** -/
theorem handleFor_first (hash : α → Handle) (hleft : ∃ g < handleCount, a.anyConflict ids v g = false) :
    Search (a.anyConflict ids v) nextHandle (hash v % handleCount) (a.handleFor hash ids v) ∧
    ∃ n < handleCount, a.handleFor hash ids v = (hash v + n) % handleCount ∧
      ∀ i < n, a.anyConflict ids v ((hash v + i) % handleCount) = true := by
  have hstart : hash v % handleCount < handleCount := Nat.mod_lt _ (by decide)
  have hreal := (a.handleFor_lt_iff hash ids v).mpr hleft
  have hsearch : Search (a.anyConflict ids v) nextHandle (hash v % handleCount)
      (a.handleFor hash ids v) := by
    unfold handleFor at hreal ⊢
    cases hp : probe (a.anyConflict ids v) handleCount (hash v % handleCount) with
    | some h => exact search_probe hp
    | none =>
      rw [hp] at hreal
      exact absurd (a.handleCount_le_spareHandle (α := α) ids) (Nat.not_le_of_lt hreal)
  have hnth (i : Nat) : nextHandle^[i] (hash v % handleCount) = (hash v + i) % handleCount := by
    rw [iterate_nextHandle hstart, Nat.mod_add_mod]
  obtain ⟨n, hn, hfree, hbefore⟩ := search_iff.mp hsearch
  have htaken (i : Nat) (hi : i < n) : a.anyConflict ids v ((hash v + i) % handleCount) = true := by
    rw [← hnth]
    exact hbefore i hi
  refine ⟨hsearch, n, ?_, by rw [← hnth, hn], htaken⟩
  -- after a whole round the loop would have come by where it ended
  by_contra hlong
  have hagain := htaken (n - handleCount) (by unfold handleCount at *; omega)
  rw [← Nat.add_mod_right, Nat.add_assoc, Nat.sub_add_cancel (Nat.le_of_not_lt hlong), ← hnth, hn,
    hfree] at hagain
  cases hagain

end Held

/-- The handles that tables of these scopes hold for payloads of the same kind. -/
def Payload.held (a : Arena) (ids : List ScopeId) : Payload → Finset Handle
  | .text _ => a.heldHandles String ids
  | .big _ => a.heldHandles Number ids

/-- The table of a scope holds other content under the handle. -/
def Payload.OtherAt (a : Arena) (k : ScopeId) (g : Handle) : Payload → Prop
  | .text s => ∃ w, a.payloadAt String k g = some w ∧ w ≠ s
  | .big n => ∃ w, a.payloadAt Number k g = some w ∧ w ≠ .big n

/-- The test of the loop. -/
def Payload.taken (a : Arena) (ids : List ScopeId) : Payload → Handle → Bool
  | .text s => a.anyConflict ids s
  | .big n => a.anyConflict ids (Number.big n)

/-- The hash that a payload has. -/
def Payload.contentHash (hash : ContentHash) : Payload → Handle
  | .text s => hash.text s
  | .big n => hash.number (.big n)

theorem Payload.taken_eq_true {a : Arena} {ids : List ScopeId} {v : Payload} {g : Handle} :
    v.taken a ids g = true ↔ ∃ k ∈ ids, v.OtherAt a k g := by
  cases v with
  | text s =>
    refine anyConflict_eq_true.trans ?_
    simp only [bne_iff_ne, Payload.OtherAt]
  | big n =>
    have hne (w : Number) : (w != .big n) = true ↔ w ≠ .big n := by
      rw [bne, Bool.not_eq_true', ← Bool.not_eq_true]
      refine not_congr ⟨sharp_big n w, fun hw => ?_⟩
      rw [hw]
      exact beq_self_eq_true n
    refine anyConflict_eq_true.trans ?_
    simp only [hne, Payload.OtherAt]

/-- **A payload gets the first handle, counting from its hash, that stands for nothing else.** Where
nobody gets back to a scope by going outwards, from every scope that is there, however payloads are
hashed, and whichever text or integer it is: as long as the tables of the chain do not hold all
handles, the loop ends, within one round; no table of the chain holds other content under the handle
at which it ends, and some table does for each that came up before. -/
theorem Acyclic.intern_first {a : Arena} (hA : a.Acyclic) {id : ScopeId}
    (hid : a.contains id = true) (hash : ContentHash) (v : Payload)
    (hroom : (v.held a (a.chain id)).card < handleCount) :
    ∃ n h b, v.intern hash a id = (.ok h, b) ∧
      n < handleCount ∧ h = (v.contentHash hash + n) % handleCount ∧
      (∀ k ∈ a.chain id, ¬ v.OtherAt a k h) ∧
      (∀ i < n, ∃ k ∈ a.chain id, v.OtherAt a k ((v.contentHash hash + i) % handleCount)) ∧
      Search (v.taken a (a.chain id)) nextHandle (v.contentHash hash % handleCount) h := by
  have hfirst : ∃ h b, v.intern hash a id = (.ok h, b) ∧
      Search (v.taken a (a.chain id)) nextHandle (v.contentHash hash % handleCount) h ∧
      ∃ n < handleCount, h = (v.contentHash hash + n) % handleCount ∧
        ∀ i < n, v.taken a (a.chain id) ((v.contentHash hash + i) % handleCount) = true := by
    cases v with
    | text s =>
      obtain ⟨h, b, hi⟩ := hA.intern_there hid hash.text s
      obtain ⟨-, rfl, -⟩ := intern_eq_ok.mp hi
      exact ⟨_, b, hi, handleFor_first hash.text (exists_not_taken hroom s)⟩
    | big n =>
      obtain ⟨h, b, hi⟩ := hA.intern_there hid hash.number (.big n)
      obtain ⟨-, rfl, -⟩ := intern_eq_ok.mp hi
      exact ⟨_, b, hi, handleFor_first hash.number (exists_not_taken hroom (.big n))⟩
  obtain ⟨h, b, hi, hsearch, n, hn, hh, hbefore⟩ := hfirst
  refine ⟨n, h, b, hi, hn, hh, fun k hk hother => ?_, fun i hi => ?_, hsearch⟩
  · have hfree := hsearch.free
    rw [Payload.taken_eq_true.mpr ⟨k, hk, hother⟩] at hfree
    cases hfree
  · exact Payload.taken_eq_true.mp (hbefore i hi)

/-- Where the last handle stands for another text, a text with that hash gets the first one. -/
theorem Acyclic.intern_first_round :
    let hash : ContentHash := ⟨fun _ => 0xffffffffffffffff, fun _ => 7⟩
    let inner := Payload.text "inner"
    inner.OtherAt (outerText hash) 1 0xffffffffffffffff ∧
      ∃ b, inner.intern hash (outerText hash) 2 = (.ok 0, b) ∧
        ∀ k ∈ (outerText hash).chain 2, ¬ inner.OtherAt (outerText hash) k 0 := by
  intro hash inner
  have hL : Lives hash {} (outerText hash) :=
    (((Relation.ReflTransGen.refl.tail (.createRoot _ {})).tail
      (.createChild (by decide +kernel) true)).tail
      (.createChild (by decide +kernel) false)).tail (.internText _ 1 "outer")
  have hA := (hL.succeeds rooted_empty).rooted.forest.acyclic
  obtain ⟨n, h, b, hi, -, -, hfree, -, hsearch⟩ :=
    hA.intern_first (show (outerText hash).contains 2 = true by decide +kernel) hash inner
      (by decide +kernel)
  have hround : Search (inner.taken (outerText hash) ((outerText hash).chain 2)) nextHandle
      0xffffffffffffffff 0 := .onward (by decide +kernel) (.here (by decide +kernel))
  obtain rfl : h = 0 := hsearch.unique hround
  exact ⟨⟨"outer", by decide +kernel, by decide⟩, b, hi, hfree⟩

end Arena

end ScopeStack
