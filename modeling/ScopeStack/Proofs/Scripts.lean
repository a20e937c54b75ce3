import ScopeStack.Proofs.Interning
import ScopeStack.Source.Literal

/-!
# Source text with its blocks matched

A script is a sequence of tokens in which every opening delimiter has its close. Compiled code spells
a script if it has, in order and with their places, a cell for each token and a block for each block.

* `Script`: tokens with blocks inside blocks; `Script.tokens`: the tokens in order.
* `Nests`, `openKinds`: sequences that close what is open, and what is open after them. The tokens of
  a script leave open what was open (`Script.nests_append`).
* `Lookup`: from where payloads and blocks are looked up; `Script.Spells`: **code that says what a
  script says**. It goes on doing so where everything that was found is found (`Spells.mono`).
-/

namespace ScopeStack

/-! ## 1. Scripts -/

/-- Tokens with their blocks matched. -/
inductive Script where
  | nil
  | atom (t : Token) (x : Atom) (ht : Literal.ofToken t = .atom x) (rest : Script)
  | block (kind : BlockKind) (opening closing : Token)
      (ho : Literal.ofToken opening = .blockOpen kind)
      (hc : Literal.ofToken closing = .blockClose kind) (body rest : Script)

namespace Script

/-- The tokens in order. -/
def tokens : Script → List Token
  | nil => []
  | atom t _ _ rest => t :: rest.tokens
  | block _ opening closing _ _ body rest => opening :: body.tokens ++ closing :: rest.tokens

end Script

/-- The kinds of the blocks that are open after some tokens, the innermost first. -/
def openKinds : (kinds : List BlockKind) → List Token → List BlockKind
  | kinds, [] => kinds
  | kinds, t :: ts =>
    match Literal.ofToken t with
    | .blockOpen kind => openKinds (kind :: kinds) ts
    | .blockClose _ => openKinds kinds.tail ts
    | .atom _ => openKinds kinds ts

/-- With blocks of these kinds open, every token is inside a block or opens one, and every close is
of the kind that is open innermost. -/
def Nests : (kinds : List BlockKind) → List Token → Prop
  | _, [] => True
  | kinds, t :: ts =>
    match Literal.ofToken t with
    | .blockOpen kind => Nests (kind :: kinds) ts
    | .blockClose kind => kinds.head? = some kind ∧ Nests kinds.tail ts
    | .atom _ => kinds ≠ [] ∧ Nests kinds ts

theorem Nests.of_append {kinds : List BlockKind} {pre post : List Token}
    (h : Nests kinds (pre ++ post)) : Nests kinds pre := by
  induction pre generalizing kinds with
  | nil => trivial
  | cons t pre ih =>
    rw [List.cons_append, Nests] at h
    rw [Nests]
    split at h
    · exact ih h
    · exact ⟨h.1, ih h.2⟩
    · exact ⟨h.1, ih h.2⟩

/-- **The tokens of a script close what they open.** -/
theorem Script.nests_append (script : Script) {kind : BlockKind} {kinds : List BlockKind}
    {post : List Token} (h : Nests (kind :: kinds) post) :
    Nests (kind :: kinds) (script.tokens ++ post) := by
  induction script generalizing kind kinds post with
  | nil => exact h
  | atom t x ht rest ih =>
    rw [tokens, List.cons_append, Nests, ht]
    exact ⟨List.cons_ne_nil _ _, ih h⟩
  | block inner opening closing ho hc body rest ihb ihr =>
    have hrest : Nests (inner :: kind :: kinds) (closing :: rest.tokens ++ post) := by
      rw [List.cons_append, Nests, hc]
      exact ⟨rfl, ihr h⟩
    rw [tokens, List.cons_append, List.cons_append, List.append_assoc, Nests, ho]
    exact ihb hrest

/-! ## 2. Code that spells a script -/

/-- How payloads and blocks are looked up from a scope. -/
structure Lookup where
  text : ScopeId → Handle → Option String
  number : ScopeId → Handle → Option Number
  block : ScopeId → Handle → Option ScopeId

/-- The cell stands for the atom. Numbers are the same if the table of numbers takes them to be. -/
def Atom.Is (look : Lookup) (id : ScopeId) : Atom → Cell → Prop
  | .int n, cell => cell = .int n
  | .bool b, cell => cell = .bool b
  | .number (.big n), cell =>
    ∃ h v, cell = .big h ∧ look.number id h = some v ∧ (v == .big n) = true
  | .number (.double x), cell =>
    ∃ h v, cell = .double h ∧ look.number id h = some v ∧ (v == .double x) = true
  | .str text, cell => ∃ h, cell = .str h ∧ look.text id h = some text
  | .word name, cell => ∃ h, cell = .word h ∧ look.text id h = some name

/-- The code of a scope has, in order and with their places, what the script says: an atom as a cell
that is looked up from the scope, a block as a finished block inside it that spells its body. -/
def Script.Spells (look : Lookup) (a : Arena) : ScopeId → Script → List Instruction → Prop
  | _, .nil, code => code = []
  | id, .atom t x _ rest, code => ∃ cell more, code = ⟨some t.location, cell⟩ :: more ∧
      x.Is look id cell ∧ rest.Spells look a id more
  | id, .block kind _ closing _ _ body rest, code => ∃ k s more,
      code = ⟨some closing.location, .block k⟩ :: more ∧ look.block id k = some k ∧
      a.get? k = some s ∧ s.parent = some id ∧ s.sharesStack = kind.shares ∧
      s.compiling = false ∧ body.Spells look a k s.code.toList ∧ rest.Spells look a id more

/-- What a scope resolves, from itself outwards. -/
def Arena.resolving (a : Arena) : Lookup where
  text id h := (a.resolve String id h).toOption
  number id h := (a.resolve Number id h).toOption
  block id h := (a.resolveBlock id h).toOption

/-- What a scope has in its own tables, and the blocks that the top level knows. -/
def Arena.owning (a : Arena) : Lookup where
  text id h := a.payloadAt String id h
  number id h := a.payloadAt Number id h
  block _ h := if rootScope ∈ a.scopesKnowing h then some h else none

theorem Atom.Is.mono {look look' : Lookup} {id : ScopeId} {x : Atom} {cell : Cell}
    (htext : ∀ h v, look.text id h = some v → look'.text id h = some v)
    (hnumber : ∀ h v, look.number id h = some v → look'.number id h = some v)
    (h : x.Is look id cell) : x.Is look' id cell := by
  cases x with
  | int | bool => exact h
  | number n =>
    cases n with
    | big | double =>
      obtain ⟨handle, v, hc, hv, he⟩ := h
      exact ⟨handle, v, hc, hnumber handle v hv, he⟩
  | str | word =>
    obtain ⟨handle, hc, hv⟩ := h
    exact ⟨handle, hc, htext handle _ hv⟩

/-- **Code goes on spelling a script** while what was found is found and finished blocks stay as they
are. -/
theorem Script.Spells.mono {look look' : Lookup} {a b : Arena} {P : ScopeId → Prop}
    (htext : ∀ id h v, P id → look.text id h = some v → look'.text id h = some v)
    (hnumber : ∀ id h v, P id → look.number id h = some v → look'.number id h = some v)
    (hblock : ∀ id k s, P id → look.block id k = some k → a.get? k = some s →
      s.compiling = false → s.parent = some id → look'.block id k = some k ∧ P k ∧
      ∃ t, b.get? k = some t ∧ t.parent = s.parent ∧ t.sharesStack = s.sharesStack ∧
        t.compiling = false ∧ t.code = s.code)
    {script : Script} {id : ScopeId} {code : List Instruction} (hid : P id)
    (h : script.Spells look a id code) : script.Spells look' b id code := by
  induction script generalizing id code with
  | nil => exact h
  | atom t x ht rest ih =>
    obtain ⟨cell, more, hcode, hx, hrest⟩ := h
    exact ⟨cell, more, hcode, hx.mono (fun h v => htext id h v hid) (fun h v => hnumber id h v hid),
      ih hid hrest⟩
  | block kind opening closing ho hc body rest ihb ihr =>
    obtain ⟨k, s, more, hcode, hk, hs, hp, hshares, hclosed, hbody, hrest⟩ := h
    obtain ⟨hk', hPk, t, ht, hpt, hst, hct, hcode'⟩ := hblock id k s hid hk hs hclosed hp
    exact ⟨k, t, more, hcode, hk', ht, hpt.trans hp, hst.trans hshares, hct,
      hcode' ▸ ihb hPk hbody, ihr hid hrest⟩

theorem Arena.owning_block {a : Arena} {id k : ScopeId} :
    a.owning.block id k = some k ↔ rootScope ∈ a.scopesKnowing k := by
  by_cases h : rootScope ∈ a.scopesKnowing k <;> simp [owning, h]

/-- What a scope with a way out has itself, or the top level knows, it resolves. -/
theorem Script.Spells.resolving {a : Arena} (hT : a.Tree) {script : Script} {id : ScopeId}
    {code : List Instruction} (hid : a.Linked id) (h : script.Spells a.owning a id code) :
    script.Spells a.resolving a id code := by
  refine h.mono (P := a.Linked) (fun id h v _ hv => ?_) (fun id h v _ hv => ?_)
    (fun id k s hl hk hs hclosed hp => ?_) hid
  · exact congrArg Except.toOption (Arena.resolve_of_payloadAt hT.forest (α := String) hv)
  · exact congrArg Except.toOption (Arena.resolve_of_payloadAt hT.forest (α := Number) hv)
  · have hknown := Arena.owning_block.mp hk
    refine ⟨congrArg Except.toOption (hT.resolveBlock_eq_ok hl ⟨s, hs⟩ hknown), ⟨s, hs, ?_⟩, s, hs,
      rfl, rfl, hclosed, rfl⟩
    intro p hp'
    rw [hp] at hp'
    cases hp'
    exact hl.get?

end ScopeStack
