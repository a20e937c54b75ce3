import ScopeStack.Proofs.Sessions

/-!
# Cells that are held resolve

Blocks go when a control word has run them or a variable is forgotten, and payloads go when a
variable is forgotten. None of them goes while a cell on a stack, in a variable or in compiled code
still stands for it, except that a payload may be forgotten from under another cell.

* `Resolves`: what a cell stands for where it is looked up.
* `Session.held_resolve`: **wherever a session has got to, blocks that are held are there and resolve
  from the top level, and so does everything else unless something has been forgotten.**
-/

namespace ScopeStack

open ScopeStack.Action

/-- From this scope the cell resolves to this value. -/
def Resolves (m : Machine) (id : ScopeId) (cell : Cell) (v : Value) : Prop :=
  (Context.resolveCell (.ofProcess id 0) cell).run m = .ok v m

/-- What a cell stands for from a scope, as the arena has it. -/
def Arena.valueOf (a : Arena) (id : ScopeId) : Cell → Except Fault Value
  | .bool b => .ok (.bool b)
  | .int n => .ok (.int n)
  | .big h | .double h => (a.resolve Number id h).map .ofNumber
  | .str h => (a.resolve String id h).map .str
  | .word h => (a.resolve String id h).map .word
  | .block h => (a.resolveBlock id h).map fun _ => .block h

section Resolving

variable {m : Machine} {id : ScopeId} {cell : Cell}

/-- Resolving a cell only reads the arena. -/
theorem resolves_iff {v : Value} : Resolves m id cell v ↔ m.arena.valueOf id cell = .ok v := by
  have hread {α : Type} (r : Except Fault α) (g : α → Value) :
      (ofExcept r >>= fun x => (pure (g x) : Action Value)).run m = .ok v m ↔
        r.map g = .ok v := by
    cases r with
    | ok x =>
      show EStateM.Result.ok (g x) m = .ok v m ↔ Except.ok (g x) = .ok v
      simp
    | error f =>
      show EStateM.Result.error (Failure.mk f none) m = .ok v m ↔ Except.error f = .ok v
      simp
  cases cell with
  | bool | int =>
    show EStateM.Result.ok _ m = .ok v m ↔ Except.ok _ = .ok v
    simp
  | big h | double h => exact hread (m.arena.resolve Number id h) .ofNumber
  | str h => exact hread (m.arena.resolve String id h) .str
  | word h => exact hread (m.arena.resolve String id h) .word
  | block h => exact hread (m.arena.resolveBlock id h) fun _ => .block h

/-- A cell that stands for a value resolves to it. -/
theorem Context.ends_resolveCell_of_valueOf {c : Context} {v : Value}
    (hv : m.arena.valueOf c.scope cell = .ok v) {Q : Value → Machine → Prop}
    {E : Failure → Machine → Prop} : (c.resolveCell cell).Ends m Q E ↔ Q v m := by
  have hrun : (c.resolveCell cell).run m = .ok v m := by
    rw [show c.resolveCell cell = (Context.ofProcess c.scope 0).resolveCell cell by cases cell <;> rfl]
    exact resolves_iff.mpr hv
  rw [Ends, hrun]

/-- A payload in the tables of the top level is found from every scope with a way out. -/
theorem Arena.Tree.resolve_eq_ok {α : Type} [BEq α] [Interned α] {a : Arena} (hT : a.Tree)
    (hl : a.Linked id) {h : Handle} (hp : a.HasPayload α rootScope h) :
    ∃ v, a.resolve α id h = .ok v := by
  obtain ⟨s, hs, hsome⟩ := hp
  unfold resolve
  rw [search_eq]
  cases hf : (a.chain id).findSome? fun k =>
    (a.get? k).bind fun s => (Interned.table s : InternTable α).get? h with
  | some v => exact ⟨v, rfl⟩
  | none =>
    have hnone := List.findSome?_eq_none_iff.mp hf rootScope (hT.mem_chain hl)
    rw [hs, Option.bind_some] at hnone
    rw [hnone] at hsome
    cases hsome

/-- **A cell that is backed resolves from every scope with a way out.** -/
theorem Arena.Tree.resolves {honest kept : Prop} (hT : m.arena.Tree) (hl : m.arena.Linked id)
    (hhonest : honest) (hkept : kept) (hb : m.arena.Backs honest kept cell) :
    ∃ v, Resolves m id cell v := by
  simp only [resolves_iff]
  cases cell with
  | bool b => exact ⟨.bool b, rfl⟩
  | int n => exact ⟨.int n, rfl⟩
  | big h | double h =>
    obtain ⟨x, hx⟩ := hT.resolve_eq_ok hl (hb hkept)
    exact ⟨.ofNumber x, by rw [valueOf, hx]; rfl⟩
  | str h =>
    obtain ⟨x, hx⟩ := hT.resolve_eq_ok hl (hb hkept)
    exact ⟨.str x, by rw [valueOf, hx]; rfl⟩
  | word h =>
    obtain ⟨x, hx⟩ := hT.resolve_eq_ok hl (hb hkept)
    exact ⟨.word x, by rw [valueOf, hx]; rfl⟩
  | block h =>
    obtain ⟨hlive, hknown⟩ := hb hhonest
    exact ⟨.block h, by rw [valueOf, hT.resolveBlock_eq_ok hl hlive hknown]; rfl⟩

end Resolving

/-- **Wherever a session of source text has got to without spawning a process, every block that a
stack, a call, a variable or code holds is there and resolves from the top level. If nothing has been
forgotten, every cell that is held resolves from the scope that holds it and from the top level.** -/
theorem Session.held_resolve {trace : List Event} {t : Thread} {m : Machine}
    (h : Session trace t m) (hsource : SourceOnly trace) (hspawn : SpawnFree trace) :
    (∀ id b, m.arena.Holds id (.block b) →
      m.arena.contains b = true ∧ m.arena.resolveBlock rootScope b = .ok b) ∧
    (ForgetFree trace → ∀ id cell, m.arena.Holds id cell →
      (∃ v, Resolves m id cell v) ∧ ∃ v, Resolves m rootScope cell v) := by
  constructor
  · intro id b hheld
    have hm : InOrder True False t.agenda m := h.inOrder hspawn (fun _ => hsource) False.elim
    obtain ⟨hlive, hknown⟩ := hm.steady.backed hheld trivial
    have hT := hm.steady.tree
    exact ⟨Arena.contains_iff.mpr hlive, hT.resolveBlock_eq_ok hT.linked_root hlive hknown⟩
  · intro hforget id cell hheld
    have hm : InOrder True True t.agenda m := h.inOrder hspawn (fun _ => hsource) fun _ => hforget
    have hT := hm.steady.tree
    have hb := hm.steady.backed hheld
    exact ⟨hT.resolves (hm.steady.held_linked hheld) trivial trivial hb,
      hT.resolves hT.linked_root trivial trivial hb⟩

/-- A variable holds a block; the code of the block and, once it has run, the stack hold a text. -/
theorem Session.held_resolve_called : ∃ trace t m, Session trace t m ∧ SpawnFree trace ∧
    ForgetFree trace ∧ m.arena.Holds rootScope (.block 2) ∧
    m.arena.resolveBlock rootScope 2 = .ok 2 ∧
    m.arena.Holds 2 (.str (ContentHash.standard.text "a")) ∧
    ∃ v, Resolves m 2 (.str (ContentHash.standard.text "a")) v := by
  obtain ⟨hsession, hsource⟩ := Environment.execution_session 100 "[ \"a\" ] \"f\" ; f"
  have hfacts : SpawnFree (Environment.execution 100 "[ \"a\" ] \"f\" ; f").1 ∧
      ForgetFree (Environment.execution 100 "[ \"a\" ] \"f\" ; f").1 ∧
      (Environment.execution 100 "[ \"a\" ] \"f\" ; f").2.2.arena.Holds rootScope (.block 2) ∧
      (Environment.execution 100 "[ \"a\" ] \"f\" ; f").2.2.arena.Holds 2
        (.str (ContentHash.standard.text "a")) := by decide +kernel
  generalize Environment.execution 100 "[ \"a\" ] \"f\" ; f" = run at hsession hsource hfacts
  obtain ⟨hspawn, hforget, hbound, hcode⟩ := hfacts
  have hresolve := hsession.held_resolve hsource hspawn
  exact ⟨run.1, run.2.1, run.2.2, hsession, hspawn, hforget, hbound, (hresolve.1 _ _ hbound).2,
    hcode, (hresolve.2 hforget _ _ hcode).1⟩

end ScopeStack
