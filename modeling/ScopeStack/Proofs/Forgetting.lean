import ScopeStack.Proofs.HeldCells
import ScopeStack.Proofs.Interning

/-!
# Forgetting a variable

With a variable goes the payload that it stood for, unless a cell of the same kind is still in use
with the same handle. A text and a word share a table, and so do the two kinds of numbers, so a cell
of the other kind may lose its payload.

* `Arena.unbound`: the arena without the binding, which is where the other cells are held.
* `Arena.Orphans`: **a cell of the other kind lives on a table that loses the payload.**
* `Session.forget_resolves_iff`: **forgetting changes what a cell stands for in exactly that case.**
-/

namespace ScopeStack

open ScopeStack.Action

/-! ## 1. Payloads along a chain -/

/-- The handle of a text. -/
def Cell.text? : Cell → Option Handle
  | .str h | .word h => some h
  | _ => none

/-- The handle of a number. -/
def Cell.number? : Cell → Option Handle
  | .big h | .double h => some h
  | _ => none

namespace Arena

section Payloads

variable {α : Type} [BEq α] [Interned α] {a b : Arena} {k owner : ScopeId} {h : Handle}

/-- A change of one scope that leaves its payload under this handle. -/
theorem payloadOn_modify {f : Scope → Scope} (ids : List ScopeId)
    (hf : ∀ s, (Interned.table (f s) : InternTable α).get? h = (Interned.table s).get? h) :
    (a.modify owner f).payloadOn α ids h = a.payloadOn α ids h := by
  refine payloadOn_congr fun j _ => ?_
  rw [get?_modify]
  split
  · rename_i hj
    rw [hj]
    cases a.get? owner with
    | none => rfl
    | some s => exact hf s
  · rfl

/-- **Without its payload a scope is passed over.** -/
theorem payloadOn_modify_none {f : Scope → Scope} (ids : List ScopeId)
    (hf : ∀ s, (Interned.table (f s) : InternTable α).get? h = none) :
    (a.modify owner f).payloadOn α ids h = a.payloadOn α (ids.filter (· ≠ owner)) h := by
  induction ids with
  | nil => rfl
  | cons j ids ih =>
    unfold payloadOn at ih ⊢
    rw [List.findSome?_cons, ih, get?_modify]
    by_cases hj : j = owner
    · rw [if_pos hj, List.filter_cons_of_neg (by simpa using hj)]
      cases a.get? owner with
      | none => rfl
      | some s => rw [Option.map_some, Option.bind_some, hf]
    · rw [if_neg hj, List.filter_cons_of_pos (by simpa using hj), List.findSome?_cons]

/-- The other scopes around `k` do not have the payload, or have another one. -/
def Lacks (a : Arena) (α : Type) [BEq α] [Interned α] (owner k : ScopeId) (h : Handle) : Prop :=
  a.payloadOn α ((a.chain k).filter (· ≠ owner)) h ≠ a.payloadOn α (a.chain k) h

end Payloads

/-! ## 2. What cells stand for -/

section Values

variable {a b : Arena} {k owner : ScopeId} {x : Cell} {v : Value}

/-- What a text stands for is told by its payload. -/
theorem valueOf_text {h : Handle} (hx : x.text? = some h) :
    ∃ g : String → Value, Function.Injective g ∧
      ∀ (a : Arena) (k : ScopeId), a.valueOf k x = (a.resolve String k h).map g := by
  cases x with
  | str | word => cases hx; exact ⟨_, fun _ _ he => (by cases he; rfl), fun _ _ => rfl⟩
  | bool | int | big | double | block => cases hx

/-- What a number stands for is told by its payload. -/
theorem valueOf_number {h : Handle} (hx : x.number? = some h) :
    ∃ g : Number → Value, Function.Injective g ∧
      ∀ (a : Arena) (k : ScopeId), a.valueOf k x = (a.resolve Number k h).map g := by
  have hinj : Function.Injective Value.ofNumber := fun n n' he => by
    cases n <;> cases n' <;> cases he <;> rfl
  cases x with
  | big | double => cases hx; exact ⟨_, hinj, fun _ _ => rfl⟩
  | bool | int | str | word | block => cases hx

theorem valueOf_congr
    (htext : ∀ h, x.text? = some h → b.resolve String k h = a.resolve String k h)
    (hnumber : ∀ h, x.number? = some h → b.resolve Number k h = a.resolve Number k h)
    (hblock : ∀ h, x = .block h → b.resolveBlock k h = a.resolveBlock k h) :
    b.valueOf k x = a.valueOf k x := by
  cases x with
  | bool | int => rfl
  | big h | double h => rw [valueOf, valueOf, hnumber h rfl]
  | str h | word h => rw [valueOf, valueOf, htext h rfl]
  | block h => rw [valueOf, valueOf, hblock h rfl]

/-- A payload that is found in one arena is found in the other in exactly one case. -/
theorem map_resolve_iff {α : Type} [BEq α] [Interned α] {g : α → Value}
    (hg : Function.Injective g) {h : Handle} (hv : (a.resolve α k h).map g = .ok v) :
    (b.resolve α k h).map g = .ok v ↔
      b.payloadOn α (b.chain k) h = a.payloadOn α (a.chain k) h := by
  cases ha : a.resolve α k h with
  | error e =>
    rw [ha] at hv
    cases hv
  | ok y =>
    rw [ha] at hv
    cases hv
    rw [resolve_eq_ok_iff.mp ha, ← resolve_eq_ok_iff]
    cases b.resolve α k h with
    | error e => simp [Except.map]
    | ok z =>
      show Except.ok (g z) = .ok (g y) ↔ Except.ok z = .ok y
      rw [Except.ok.injEq, Except.ok.injEq]
      exact hg.eq_iff

theorem resolveBlock_modify (hF : a.Forest) {f : Scope → Scope} (hcore : ∀ s, (f s).core = s.core)
    (h : Handle) : (a.modify owner f).resolveBlock k h = a.resolveBlock k h := by
  have hS := Still.modify a owner f hcore
  have hcontains : (a.modify owner f).contains h = a.contains h := by
    rw [contains_eq, contains_eq, get?_modify]
    split
    · rename_i he
      rw [he, Option.isSome_map]
    · rfl
  unfold resolveBlock
  rw [hS.scopesKnowing, hS.alike.chain_eq hF, hcontains]

/-- A change of one scope, but neither of its core nor of its payloads. -/
theorem valueOf_modify (hF : a.Forest) {f : Scope → Scope} (hcore : ∀ s, (f s).core = s.core)
    (htext : ∀ h, x.text? = some h → ∀ s : Scope, (f s).strings.get? h = s.strings.get? h)
    (hnumber : ∀ h, x.number? = some h → ∀ s : Scope, (f s).numbers.get? h = s.numbers.get? h) :
    (a.modify owner f).valueOf k x = a.valueOf k x := by
  have hchain : (a.modify owner f).chain k = a.chain k :=
    (Still.modify a owner f hcore).alike.chain_eq hF k
  exact valueOf_congr
    (fun h hx => resolve_congr hchain (payloadOn_modify _ (htext h hx)))
    (fun h hx => resolve_congr hchain (payloadOn_modify _ (hnumber h hx)))
    fun h _ => resolveBlock_modify hF hcore h

/-- **A payload is freed in one scope.** -/
theorem valueOf_freed_iff {α : Type} [BEq α] [Interned α] (hF : a.Forest) {f : Scope → Scope}
    (hcore : ∀ s, (f s).core = s.core) {h : Handle}
    (hf : ∀ s, (Interned.table (f s) : InternTable α).get? h = none) {g : α → Value}
    (hg : Function.Injective g)
    (hvalue : ∀ (a : Arena) (k : ScopeId), a.valueOf k x = (a.resolve α k h).map g)
    (hv : a.valueOf k x = .ok v) :
    (a.modify owner f).valueOf k x = .ok v ↔ ¬ a.Lacks α owner k h := by
  have hchain : (a.modify owner f).chain k = a.chain k :=
    (Still.modify a owner f hcore).alike.chain_eq hF k
  rw [hvalue] at hv
  rw [hvalue, map_resolve_iff hg hv, hchain, payloadOn_modify_none _ hf]
  simp [Lacks]

theorem valueOf_eraseText_iff (hF : a.Forest) {h : Handle} (hv : a.valueOf k x = .ok v) :
    (a.modify owner fun s => { s with strings := s.strings.erase h }).valueOf k x = .ok v ↔
      ¬ (x.text? = some h ∧ a.Lacks String owner k h) := by
  by_cases hx : x.text? = some h
  · obtain ⟨g, hg, hvalue⟩ := valueOf_text hx
    have hfree (s : Scope) : (s.strings.erase h).get? h = none := by
      rw [InternTable.get?_erase, if_pos rfl]
    rw [valueOf_freed_iff (f := fun s => { s with strings := s.strings.erase h }) hF (fun _ => rfl)
      hfree hg hvalue hv]
    simp [hx]
  · rw [valueOf_modify (f := fun s => { s with strings := s.strings.erase h }) hF (fun _ => rfl)
      (fun h' hx' s => ?_) fun _ _ _ => rfl]
    · simp [hx, hv]
    · show (s.strings.erase h).get? h' = _
      rw [InternTable.get?_erase, if_neg fun he : h' = h => hx (he ▸ hx')]

theorem valueOf_eraseNumber_iff (hF : a.Forest) {h : Handle} (hv : a.valueOf k x = .ok v) :
    (a.modify owner fun s => { s with numbers := s.numbers.erase h }).valueOf k x = .ok v ↔
      ¬ (x.number? = some h ∧ a.Lacks Number owner k h) := by
  by_cases hx : x.number? = some h
  · obtain ⟨g, hg, hvalue⟩ := valueOf_number hx
    have hfree (s : Scope) : (s.numbers.erase h).get? h = none := by
      rw [InternTable.get?_erase, if_pos rfl]
    rw [valueOf_freed_iff (f := fun s => { s with numbers := s.numbers.erase h }) hF (fun _ => rfl)
      hfree hg hvalue hv]
    simp [hx]
  · rw [valueOf_modify (f := fun s => { s with numbers := s.numbers.erase h }) hF (fun _ => rfl)
      (fun _ _ _ => rfl) fun h' hx' s => ?_]
    · simp [hx, hv]
    · show (s.numbers.erase h).get? h' = _
      rw [InternTable.get?_erase, if_neg fun he : h' = h => hx (he ▸ hx')]

/-- **What nothing refers to goes, and cells that are held stand for what they did.** -/
theorem Pruned.valueOf {top : ScopeId} (hP : a.Pruned top b) (hF : a.Forest)
    (hU : a.Unreferenced top) (hk : b.contains k = true) (hheld : a.Holds k x) :
    b.valueOf k x = a.valueOf k x := by
  obtain ⟨t, ht⟩ := contains_iff.mp hk
  have htop : top ∉ a.chain k := (hP.of_get? ht).1
  have hchain : b.chain k = a.chain k := hP.chain_eq hF htop
  have hpayload {α : Type} [BEq α] [Interned α] (h : Handle)
      (htable : ∀ (s : Scope) (cs : ScopeSet),
        (Interned.table { s with children := cs } : InternTable α) = Interned.table s) :
      b.payloadOn α (a.chain k) h = a.payloadOn α (a.chain k) h := by
    refine payloadOn_congr fun j hj => ?_
    obtain ⟨s, hs⟩ := get?_of_mem_chain hj
    obtain ⟨cs, hcs, -⟩ := hP.kept hs fun hm => htop (mem_chain_trans hF hm hj)
    rw [hcs, hs, Option.bind_some, Option.bind_some, htable]
  refine valueOf_congr (fun h _ => resolve_congr hchain (hpayload h fun _ _ => rfl))
    (fun h _ => resolve_congr hchain (hpayload h fun _ _ => rfl)) fun h hx => ?_
  have hh : top ∉ a.chain h := hU.not_mem_chain htop (hx ▸ hheld)
  have hcontains : b.contains h = a.contains h := by
    rw [contains_eq, contains_eq]
    cases hs : a.get? h with
    | none => rw [hP.absent hs]
    | some s =>
      obtain ⟨cs, hcs, -⟩ := hP.kept hs hh
      rw [hcs]
      rfl
  unfold resolveBlock
  rw [hP.known hh, hchain, hcontains]

end Values

/-! ## 3. Forgetting -/

/-- The arena without the binding that is forgotten. -/
def unbound (a : Arena) (id : ScopeId) (name : String) : Arena :=
  match a.ownerOf? id name with
  | none => a
  | some owner => a.modify owner (·.unbind name)

/-- The other cell has the handle of this one and is of the other kind, text or word, or big integer
or double, and what it stands for from `k` is in the table of the owner. -/
def Orphans (a : Arena) (owner k : ScopeId) (cell other : Cell) : Prop :=
  other ≠ cell ∧
  ((∃ h, cell.text? = some h ∧ other.text? = some h ∧ a.Lacks String owner k h) ∨
    ∃ h, cell.number? = some h ∧ other.number? = some h ∧ a.Lacks Number owner k h)

/-- Forgetting the variable takes from a cell of `k` what it stands for: no cell of the kind that was
bound is in use any more, but this one, of the other kind, is. -/
def Strips (a : Arena) (id : ScopeId) (name : String) (k : ScopeId) (x : Cell) : Prop :=
  ∃ owner cell, a.ownerOf? id name = some owner ∧
    (a.get? owner).bind (·.binding? name) = some cell ∧
    (a.unbound id name).isCellInUse cell = false ∧ a.Orphans owner k cell x

section Forget

variable {a b : Arena} {k owner : ScopeId} {x cell : Cell} {v : Value}

theorem Holds.isCellInUse (h : a.Holds k x) : a.isCellInUse x = true := by
  obtain ⟨s, hs, hcell⟩ := h
  rw [Arena.isCellInUse, any_eq_true]
  refine ⟨k, s, hs, ?_⟩
  rw [CodeBlock.any_eq, Bool.or_eq_true, Bool.or_eq_true]
  rcases hcell with hcode | hbound | ⟨σ, hσ, hm⟩
  · exact Or.inl (Or.inr (List.any_eq_true.mpr ⟨x, hcode, by simp⟩))
  · exact Or.inl (Or.inl (List.any_eq_true.mpr ⟨x, hbound, by simp⟩))
  · exact Or.inr (List.any_eq_true.mpr ⟨σ, hσ, List.any_eq_true.mpr ⟨x, hm, by simp⟩⟩)

/-- **What goes with a binding is missed by a cell of the other kind only.** -/
theorem releaseCell_valueOf_iff (hF : a.Forest) {r : List PoolId × Arena}
    (hr : a.releaseCell owner cell = .ok r) (hk : r.2.contains k = true) (hheld : a.Holds k x)
    (hv : a.valueOf k x = .ok v) :
    r.2.valueOf k x = .ok v ↔ ¬ (a.isCellInUse cell = false ∧ a.Orphans owner k cell x) := by
  have hother (hunused : a.isCellInUse cell = false) : x ≠ cell := fun he => by
    rw [← he, hheld.isCellInUse] at hunused
    cases hunused
  unfold releaseCell at hr
  cases cell with
  | bool | int =>
    cases hr
    simp [hv, Orphans, Cell.text?, Cell.number?]
  | str h | word h =>
    dsimp only at hr
    split at hr
    · rename_i hused
      cases hr
      simp [hv, hused]
    · rename_i hunused
      rw [Bool.not_eq_true] at hunused
      cases hr
      rw [valueOf_eraseText_iff hF hv]
      simp [hunused, Orphans, hother hunused, Cell.text?, Cell.number?]
  | big h | double h =>
    dsimp only at hr
    split at hr
    · rename_i hused
      cases hr
      simp [hv, hused]
    · rename_i hunused
      rw [Bool.not_eq_true] at hunused
      cases hr
      rw [valueOf_eraseNumber_iff hF hv]
      simp [hunused, Orphans, hother hunused, Cell.text?, Cell.number?]
  | block h =>
    dsimp only at hr
    have hno : ¬ a.Orphans owner k (.block h) x := by simp [Orphans, Cell.text?, Cell.number?]
    split at hr
    · rename_i hif
      simp only [Bool.and_eq_true, Bool.not_eq_true'] at hif
      have hU := unreferenced_of_eq_false hF hif.2
      rw [(discard_pruned hF hr).valueOf hF hU hk hheld]
      simp [hv, hno]
    · cases hr
      simp [hv, hno]

theorem orphans_unbind (hF : a.Forest) (name : String) :
    (a.modify owner (·.unbind name)).Orphans owner k cell x ↔ a.Orphans owner k cell x := by
  have hchain : (a.modify owner (·.unbind name)).chain k = a.chain k :=
    (Still.modify a owner (·.unbind name) fun _ => rfl).alike.chain_eq hF k
  unfold Orphans Lacks
  simp only [hchain, payloadOn_modify (α := String) (f := (·.unbind name)) _ fun _ => rfl,
    payloadOn_modify (α := Number) (f := (·.unbind name)) _ fun _ => rfl]

/-- **Forgetting a variable changes what a cell stands for in exactly one case.** -/
theorem forget_valueOf_iff (hF : a.Forest) {id : ScopeId} {name : String}
    {r : Option (List PoolId)} (hf : a.forget id name = (.ok r, b)) (hk : b.contains k = true)
    (hheld : (a.unbound id name).Holds k x) (hv : a.valueOf k x = .ok v) :
    b.valueOf k x = .ok v ↔ ¬ a.Strips id name k x := by
  unfold Arena.forget at hf
  unfold Strips unbound
  unfold unbound at hheld
  split at hf
  · rename_i howner
    cases hf
    simp [hv, howner]
  · rename_i owner howner
    rw [howner] at hheld
    dsimp only at hheld
    split at hf
    · rename_i hcell
      cases hf
      simp [hv, howner, hcell]
    · rename_i cell hcell
      dsimp only at hf
      split at hf
      · rename_i pools released hr
        cases hf
        have hstill := Still.modify a owner (·.unbind name) fun _ => rfl
        have hv' : (a.modify owner (·.unbind name)).valueOf k x = .ok v := by
          rw [valueOf_modify (f := (·.unbind name)) hF (fun _ => rfl) (fun _ _ _ => rfl)
            fun _ _ _ => rfl, hv]
        rw [releaseCell_valueOf_iff (hstill.alike.forest hF) hr hk hheld hv', orphans_unbind hF]
        simp [howner, hcell]
      · cases hf

theorem forget_eq {id : ScopeId} {name : String} {pools : List PoolId}
    (howner : a.ownerOf? id name = some owner)
    (hcell : (a.get? owner).bind (·.binding? name) = some cell)
    (hr : (a.modify owner (·.unbind name)).releaseCell owner cell = .ok (pools, b)) :
    a.forget id name = (.ok (some pools), b) := by
  unfold Arena.forget
  simp only [howner, hcell, hr]

end Forget

end Arena

/-- Forgetting only changes the arena. -/
theorem Context.forget_run_iff {c : Context} {name : String} {m m' : Machine}
    {r : Option (List PoolId)} :
    (c.forget name).run m = .ok r m' ↔
      ∃ b, m.arena.forget c.scope name = (.ok r, b) ∧ m' = { m with arena := b } := by
  have hrun : (c.forget name).run m =
      (ofExcept (m.arena.forget c.scope name).1).run
        { m with arena := (m.arena.forget c.scope name).2 } := rfl
  rw [hrun]
  generalize m.arena.forget c.scope name = result
  obtain ⟨e, b⟩ := result
  cases e with
  | ok r' =>
    show EStateM.Result.ok r' { m with arena := b } = .ok r m' ↔ _
    constructor
    · intro he
      cases he
      exact ⟨b, rfl, rfl⟩
    · rintro ⟨b', he, rfl⟩
      cases he
      rfl
  | error f =>
    show EStateM.Result.error (Failure.mk f none) { m with arena := b } = .ok r m' ↔ _
    constructor
    · intro he
      cases he
    · rintro ⟨b', he, -⟩
      cases he

/-- **Wherever a session has got to without spawning a process, and whoever forgets a variable: a cell
other than the binding, held by a scope that stays, stands for what it stood for, except a cell of
the other kind that lived on the payload of the binding.** -/
theorem Session.forget_resolves_iff {trace : List Event} {t : Thread} {m : Machine}
    (h : Session trace t m) (hspawn : SpawnFree trace) {c : Context} {name : String}
    {r : Option (List PoolId)} {m' : Machine} (hrun : (c.forget name).run m = .ok r m')
    {k : ScopeId} (hk : m'.arena.contains k = true) {x : Cell}
    (hheld : (m.arena.unbound c.scope name).Holds k x) {v : Value} (hv : Resolves m k x v) :
    Resolves m' k x v ↔ ¬ m.arena.Strips c.scope name k x := by
  have hm : InOrder False False t.agenda m := h.inOrder hspawn False.elim False.elim
  obtain ⟨b, hf, rfl⟩ := Context.forget_run_iff.mp hrun
  rw [resolves_iff] at hv ⊢
  exact Arena.forget_valueOf_iff hm.steady.tree.forest hf hk hheld hv

/-- A text that is on the stack as well survives its variable. -/
theorem Session.forget_resolves_shared : ∃ trace t m m', Session trace t m ∧ SpawnFree trace ∧
    (Context.top.forget "x").run m = .ok (some []) m' ∧
    Resolves m rootScope (.str (ContentHash.standard.text "a")) (.str "a") ∧
    Resolves m' rootScope (.str (ContentHash.standard.text "a")) (.str "a") := by
  obtain ⟨text, htext⟩ : ∃ text, text = "\"a\" \"a\" \"x\" ;" := ⟨_, rfl⟩
  obtain ⟨hsession, -⟩ := Environment.execution_session 100 text
  have hfacts : SpawnFree (Environment.execution 100 text).1 ∧
      (Environment.execution 100 text).2.2.arena.ownerOf? rootScope "x" = some rootScope ∧
      ((Environment.execution 100 text).2.2.arena.get? rootScope).bind (·.binding? "x") =
        some (.str (ContentHash.standard.text "a")) ∧
      ((Environment.execution 100 text).2.2.arena.modify rootScope (·.unbind "x")).Holds
        rootScope (.str (ContentHash.standard.text "a")) ∧
      (Environment.execution 100 text).2.2.arena.payloadOn String
        ((Environment.execution 100 text).2.2.arena.chain rootScope)
        (ContentHash.standard.text "a") = some "a" := by
    rw [htext]
    decide +kernel
  generalize Environment.execution 100 text = run at hsession hfacts
  generalize ContentHash.standard.text "a" = h at hfacts ⊢
  obtain ⟨hspawn, howner, hcell, hheld, hvalue⟩ := hfacts
  have hused := hheld.isCellInUse
  have hunbound : run.2.2.arena.unbound Context.top.scope "x" =
      run.2.2.arena.modify rootScope (·.unbind "x") := by
    unfold Arena.unbound
    rw [show Context.top.scope = rootScope from rfl, howner]
  have hrun : (Context.top.forget "x").run run.2.2 = .ok (some [])
      { run.2.2 with arena := run.2.2.arena.modify rootScope (·.unbind "x") } := by
    refine Context.forget_run_iff.mpr ⟨_, Arena.forget_eq howner hcell ?_, rfl⟩
    simp only [Arena.releaseCell, hused, if_true]
  have hv : Resolves run.2.2 rootScope (.str h) (.str "a") := by
    rw [resolves_iff, Arena.valueOf, Arena.resolve_eq_ok_iff.mpr hvalue]
    rfl
  have hk : (run.2.2.arena.modify rootScope (·.unbind "x")).contains rootScope = true := by
    obtain ⟨s, hs, -⟩ := hheld
    exact Arena.contains_iff.mpr ⟨s, hs⟩
  refine ⟨run.1, run.2.1, run.2.2, _, hsession, hspawn, hrun, hv, ?_⟩
  refine (hsession.forget_resolves_iff hspawn hrun hk (hunbound ▸ hheld) hv).mpr ?_
  rintro ⟨owner, cell, howner', hcell', hunused, -⟩
  cases howner.symm.trans howner'
  cases hcell.symm.trans hcell'
  rw [hunbound, hused] at hunused
  cases hunused

/-- A block holds the word `dup` in its code. Its own table loses the name with a text that is
forgotten inside it, and the table of the top level with another one; then the word has no name. -/
theorem Session.forget_strips_word : ∃ trace t m m', Session trace t m ∧ SourceOnly trace ∧
    SpawnFree trace ∧ (Context.top.forget "y").run m = .ok (some []) m' ∧
    m'.arena.contains 2 = true ∧ ∃ x, (m.arena.unbound rootScope "y").Holds 2 x ∧
    Resolves m 2 x (.word "dup") ∧ ∀ v, ¬ Resolves m' 2 x v := by
  obtain ⟨text, htext⟩ : ∃ text, text = "[ eval dup ] \"s\" ; " ++
    "\"1 \\\"dup\\\" \\\"x\\\" ;; \\\"x\\\" forget\" s \"dup\" \"y\" ;" := ⟨_, rfl⟩
  obtain ⟨hsession, hsource⟩ := Environment.execution_session 100 text
  have hfacts : SpawnFree (Environment.execution 100 text).1 ∧
      (Environment.execution 100 text).2.2.arena.ownerOf? rootScope "y" = some rootScope ∧
      ((Environment.execution 100 text).2.2.arena.get? rootScope).bind (·.binding? "y") =
        some (.str (ContentHash.standard.text "dup")) ∧
      ((Environment.execution 100 text).2.2.arena.modify rootScope
        (·.unbind "y")).isCellInUse (.str (ContentHash.standard.text "dup")) = false ∧
      ((Environment.execution 100 text).2.2.arena.modify rootScope
        (·.unbind "y")).Holds 2 (.word (ContentHash.standard.text "dup")) ∧
      (Environment.execution 100 text).2.2.arena.payloadOn String
        ((Environment.execution 100 text).2.2.arena.chain 2) (ContentHash.standard.text "dup") =
          some "dup" ∧
      (((Environment.execution 100 text).2.2.arena.modify rootScope (·.unbind "y")).modify rootScope
        fun s => { s with strings := s.strings.erase (ContentHash.standard.text "dup") }).payloadOn
          String ((((Environment.execution 100 text).2.2.arena.modify rootScope
            (·.unbind "y")).modify rootScope fun s =>
              { s with strings := s.strings.erase (ContentHash.standard.text "dup") }).chain 2)
          (ContentHash.standard.text "dup") = none := by
    rw [htext]
    decide +kernel
  generalize Environment.execution 100 text = run at hsession hsource hfacts
  generalize ContentHash.standard.text "dup" = h at hfacts
  obtain ⟨hspawn, howner, hcell, hunused, hheld, hvalue, hgone⟩ := hfacts
  have hunbound : run.2.2.arena.unbound rootScope "y" =
      run.2.2.arena.modify rootScope (·.unbind "y") := by rw [Arena.unbound, howner]
  refine ⟨run.1, run.2.1, run.2.2, _, hsession, hsource, hspawn,
    Context.forget_run_iff.mpr ⟨_, Arena.forget_eq howner hcell (b := (run.2.2.arena.modify rootScope
      (·.unbind "y")).modify rootScope fun s => { s with strings := s.strings.erase h }) ?_, rfl⟩,
    ?_, .word h, hunbound ▸ hheld, ?_, fun v hv => ?_⟩
  · simp [Arena.releaseCell, hunused]
  · obtain ⟨s, hs, -⟩ := hheld
    exact Arena.contains_iff.mpr (Arena.get?_modify_some hs _ _)
  · rw [resolves_iff, Arena.valueOf, Arena.resolve_eq_ok_iff.mpr hvalue]
    rfl
  · rw [resolves_iff, Arena.valueOf, Arena.resolve_eq_error hgone] at hv
    cases hv

end ScopeStack
