import ScopeStack.Proofs.Compilation
import ScopeStack.Proofs.HeldCells

/-!
# What is seen of the top level

A block of the top level that works on the stack of its caller sees that stack with other tables in
front, and interns for one more scope. As long as its tables hold nothing that the top level does not,
the two see the same values.

* `Echoes.valueOf`: where the tables of a scope are part of those of the top level, a cell stands for
  the same from both.
* `View`: the values of the stack and the output. `Shows`: the machine shows a view to a context.
* `Shows.pop`, `Shows.push` and so on: **what the actions on values do is told by the view**, so two
  contexts that are shown the same mirror each other (`AtTop.mirrors`).
-/

namespace ScopeStack

open ScopeStack.Action

/-! ## 1. Tables that repeat those of the top level -/

namespace Arena

section Payloads

variable {α : Type} [BEq α] [Interned α] {a : Arena} {k : ScopeId} {h : Handle}

/-- A scope right below the top level resolves what the top level does. -/
theorem resolve_eq_root (hT : a.Tree)
    (hchain : a.chain k = [rootScope] ∨ a.chain k = [k, rootScope])
    (hk : ∀ j w, a.payloadAt α k j = some w → a.payloadAt α rootScope j = some w) :
    a.resolve α k h = a.resolve α rootScope h := by
  have hroot : a.payloadOn α [rootScope] h = a.payloadAt α rootScope h := by
    rw [payloadOn_cons, payloadOn, List.findSome?_nil, Option.or_none]
  have hon : a.payloadOn α (a.chain k) h = a.payloadOn α (a.chain rootScope) h := by
    rw [hT.chain_root, hroot]
    rcases hchain with hchain | hchain
    · rw [hchain, hroot]
    · rw [hchain, payloadOn_cons, hroot]
      cases hw : a.payloadAt α k h with
      | none => rw [Option.none_or]
      | some w => rw [hk h w hw, Option.some_or]
  cases hp : a.payloadOn α (a.chain rootScope) h with
  | none => rw [resolve_eq_error hp, resolve_eq_error (hon.trans hp)]
  | some v => rw [resolve_eq_ok_iff.mpr hp, resolve_eq_ok_iff.mpr (hon.trans hp)]

end Payloads

variable {a b : Arena} {k : ScopeId} {cell : Cell} {v : Value}

/-- **A cell stands for the same from both scopes.** -/
theorem Echoes.valueOf (hE : a.Echoes k) (hT : a.Tree) (hl : a.Linked k)
    (hchain : a.chain k = [rootScope] ∨ a.chain k = [k, rootScope]) (cell : Cell) :
    a.valueOf k cell = a.valueOf rootScope cell := by
  cases cell with
  | bool | int => rfl
  | big h | double h =>
    rw [Arena.valueOf, Arena.valueOf, resolve_eq_root hT hchain fun _ _ => hE.numbers]
  | str h | word h =>
    rw [Arena.valueOf, Arena.valueOf, resolve_eq_root hT hchain fun _ _ => hE.texts]
  | block h =>
    have hblock {i j : ScopeId} {b : ScopeId} (hj : a.Linked j) (hr : a.resolveBlock i h = .ok b) :
        a.resolveBlock j h = .ok h := by
      obtain ⟨-, ⟨s, hs, -⟩, -, -, hknown⟩ := hT.of_resolveBlock hr
      exact hT.resolveBlock_eq_ok hj ⟨s, hs⟩ hknown
    have herror {i : ScopeId} {e : Fault} (hr : a.resolveBlock i h = .error e) :
        e = .notInterned h := by
      unfold resolveBlock at hr
      dsimp only at hr
      split at hr
      · cases hr
      · exact (Except.error.inj hr).symm
    rw [Arena.valueOf, Arena.valueOf]
    cases hk : a.resolveBlock k h with
    | ok b => rw [hblock hT.linked_root hk]; rfl
    | error e =>
      cases hr : a.resolveBlock rootScope h with
      | ok b => cases hk.symm.trans (hblock hl hr)
      | error e' => rw [herror hk, herror hr]

/-- Only the cell of a block stands for a block. -/
theorem eq_block_of_valueOf {h : Handle} (hv : a.valueOf k cell = .ok (.block h)) :
    cell = .block h := by
  cases cell with
  | bool | int => cases hv
  | big j | double j =>
    rw [Arena.valueOf] at hv
    cases hn : a.resolve Number k j with
    | error e => rw [hn] at hv; cases hv
    | ok n => rw [hn] at hv; cases n <;> cases hv
  | str j | word j =>
    rw [Arena.valueOf] at hv
    cases hn : a.resolve String k j with
    | error e => rw [hn] at hv; cases hv
    | ok x => rw [hn] at hv; cases hv
  | block j =>
    rw [Arena.valueOf] at hv
    cases hr : a.resolveBlock k j with
    | error e => rw [hr] at hv; cases hv
    | ok i => rw [hr] at hv; cases hv; rfl

/-- A block that is the value of a cell is there and known. -/
theorem Tree.known_of_valueOf (hT : a.Tree) (hv : a.valueOf k cell = .ok v) : Known a v := by
  rintro j rfl
  cases eq_block_of_valueOf hv
  rw [Arena.valueOf] at hv
  cases hr : a.resolveBlock k j with
  | error e => rw [hr] at hv; cases hv
  | ok b =>
    obtain ⟨-, ⟨s, hs, -⟩, -, -, hknown⟩ := hT.of_resolveBlock hr
    exact ⟨⟨s, hs⟩, hknown⟩

/-- What the top level has in its tables it resolves. -/
theorem Tree.resolve_root {α : Type} [BEq α] [Interned α] (hT : a.Tree) {h : Handle} {x : α} :
    a.resolve α rootScope h = .ok x ↔ a.payloadAt α rootScope h = some x := by
  rw [resolve_eq_ok_iff, hT.chain_root, payloadOn_cons, payloadOn, List.findSome?_nil, Option.or_none]

/-- **At the top level a cell goes on standing for its value** where no payload of the top level is
lost, nor the block that it is. -/
theorem Tree.valueOf_mono (hT : a.Tree) (hT' : b.Tree)
    (htexts : ∀ h x, a.payloadAt String rootScope h = some x → b.payloadAt String rootScope h = some x)
    (hnumbers : ∀ h x, a.payloadAt Number rootScope h = some x →
      b.payloadAt Number rootScope h = some x)
    (hblock : ∀ h, cell = .block h → Known a (.block h) → Known b (.block h))
    (hv : a.valueOf rootScope cell = .ok v) : b.valueOf rootScope cell = .ok v := by
  have hpayload {α : Type} [BEq α] [Interned α] {h : Handle} {g : α → Value}
      (hmono : ∀ x, a.payloadAt α rootScope h = some x → b.payloadAt α rootScope h = some x)
      (hv : (a.resolve α rootScope h).map g = .ok v) : (b.resolve α rootScope h).map g = .ok v := by
    cases hr : a.resolve α rootScope h with
    | error e => rw [hr] at hv; cases hv
    | ok x =>
      rw [hr] at hv
      rw [hT'.resolve_root.mpr (hmono x (hT.resolve_root.mp hr))]
      exact hv
  cases cell with
  | bool | int => exact hv
  | big h | double h => exact hpayload (hnumbers h) hv
  | str h | word h => exact hpayload (htexts h) hv
  | block h =>
    rw [Arena.valueOf] at hv ⊢
    cases hr : a.resolveBlock rootScope h with
    | error e => rw [hr] at hv; cases hv
    | ok j =>
      obtain ⟨-, ⟨s, hs, -⟩, -, -, hroot⟩ := hT.of_resolveBlock hr
      rw [hr] at hv
      obtain ⟨hlive, hroot'⟩ := hblock h rfl (fun _ he => by cases he; exact ⟨⟨s, hs⟩, hroot⟩) h rfl
      rw [hT'.resolveBlock_eq_ok hT'.linked_root hlive hroot']
      exact hv

/-! ## 2. Payloads come and cells move -/

/-- Payloads have been added and cells moved; all else is as it was. -/
def Fills (a b : Arena) : Prop := a.Grows { b with stackHeap := a.stackHeap }

namespace Fills

variable {c : Arena}

theorem refl (a : Arena) : a.Fills a := Grows.refl a

theorem trans (hF : a.Fills b) (hF' : b.Fills c) : a.Fills c := by
  have hG : b.Grows { c with stackHeap := b.stackHeap } := hF'
  exact Grows.trans hF ⟨hG.get?, hG.none, hG.known, hG.lastScope, hG.lastStack, rfl⟩

theorem grows (hF : a.Fills b) (hG : b.Grows c) : a.Fills c :=
  hF.trans ⟨hG.get?, hG.none, hG.known, hG.lastScope, hG.lastStack, rfl⟩

theorem modifyStack (hF : a.Fills b) (σ : StackId) (f : CellStack → CellStack) :
    a.Fills (b.modifyStack σ f) := hF

theorem still (hF : a.Fills b) : a.Still b :=
  ⟨(Grows.still hF).core, hF.known, hF.lastScope, (Grows.still hF).lastStack⟩

theorem get? (hF : a.Fills b) {id : ScopeId} {s : Scope} (hs : a.get? id = some s) :
    ∃ t, b.get? id = some t ∧ t = { s with strings := t.strings, numbers := t.numbers } := by
  obtain ⟨t, ht, hts, -⟩ := Grows.get? hF hs
  exact ⟨t, ht, hts⟩

theorem texts (hF : a.Fills b) {h : Handle} {x : String} (hx : a.payloadAt String k h = some x) :
    b.payloadAt String k h = some x := (Extends.grows hF).texts hx

theorem numbers (hF : a.Fills b) {h : Handle} {x : Number} (hx : a.payloadAt Number k h = some x) :
    b.payloadAt Number k h = some x := (Extends.grows hF).numbers hx

/-- What is looked for in other than the tables is found as before. -/
theorem search (hF : a.Fills b) (hT : a.Tree) {α : Type} {f : Scope → Option α}
    (hf : ∀ (s : Scope) texts numbers, f { s with strings := texts, numbers := numbers } = f s)
    (k : ScopeId) : b.search k f = a.search k f := by
  have hget (j : ScopeId) : (b.get? j).bind f = (a.get? j).bind f := by
    cases hs : a.get? j with
    | none =>
      have hnone : b.get? j = none := Grows.none hF hs
      rw [hnone]
    | some s =>
      obtain ⟨t, ht, hts⟩ := hF.get? hs
      rw [ht, hts]
      exact hf s _ _
  rw [search_eq, search_eq, hF.still.alike.chain_eq hT.forest]
  simp only [hget]

end Fills

/-- From the scope the cells stand for these values. -/
def Reads (a : Arena) (k : ScopeId) (cells : List Cell) (vs : List Value) : Prop :=
  cells.map (a.valueOf k) = vs.map .ok

theorem reads_nil {vs : List Value} : a.Reads k [] vs ↔ vs = [] := by
  cases vs <;> simp [Reads]

theorem reads_cons {cells : List Cell} {vs : List Value} :
    a.Reads k (cell :: cells) vs ↔
      ∃ v ws, vs = v :: ws ∧ a.valueOf k cell = .ok v ∧ a.Reads k cells ws := by
  cases vs with
  | nil => simp [Reads]
  | cons v ws =>
    rw [Reads, List.map_cons, List.map_cons, List.cons.injEq]
    constructor
    · rintro ⟨hv, hws⟩
      exact ⟨v, ws, rfl, hv, hws⟩
    · rintro ⟨_, _, he, hv, hws⟩
      cases he
      exact ⟨hv, hws⟩

theorem Reads.mono {cells : List Cell} {vs : List Value} (h : a.Reads k cells vs)
    (hmono : ∀ cell ∈ cells, ∀ v, a.valueOf k cell = .ok v → b.valueOf k cell = .ok v) :
    b.Reads k cells vs := by
  unfold Reads at h ⊢
  rw [← h]
  refine List.map_congr_left fun cell hcell => ?_
  have hv : a.valueOf k cell ∈ vs.map .ok := h ▸ List.mem_map_of_mem hcell
  obtain ⟨v, -, hv⟩ := List.mem_map.mp hv
  rw [← hv]
  exact hmono cell hcell v hv.symm

/-- Each of the values is what some cell stands for. -/
theorem Reads.exists_cell {cells : List Cell} {vs : List Value} (h : a.Reads k cells vs)
    (hv : v ∈ vs) : ∃ cell ∈ cells, a.valueOf k cell = .ok v := by
  have hmem : .ok v ∈ cells.map (a.valueOf k) := h ▸ List.mem_map_of_mem hv
  exact List.mem_map.mp hmem

/-- At the top level the cells stand for these values. -/
def Displays (a : Arena) (cells : List Cell) (vs : List Value) : Prop :=
  cells.map (a.valueOf rootScope) = vs.map .ok

theorem displays_nil {vs : List Value} : a.Displays [] vs ↔ vs = [] := reads_nil

theorem displays_cons {cells : List Cell} {vs : List Value} :
    a.Displays (cell :: cells) vs ↔
      ∃ v ws, vs = v :: ws ∧ a.valueOf rootScope cell = .ok v ∧ a.Displays cells ws := reads_cons

theorem Displays.reverse {cells : List Cell} {vs : List Value} (h : a.Displays cells vs) :
    a.Displays cells.reverse vs.reverse := by
  unfold Displays at h ⊢
  rw [List.map_reverse, List.map_reverse, h]

theorem Displays.length {cells : List Cell} {vs : List Value} (h : a.Displays cells vs) :
    cells.length = vs.length := by
  unfold Displays at h
  simpa using congrArg List.length h

theorem Displays.mono {cells : List Cell} {vs : List Value} (h : a.Displays cells vs)
    (hmono : ∀ cell ∈ cells, ∀ v, a.valueOf rootScope cell = .ok v → b.valueOf rootScope cell = .ok v) :
    b.Displays cells vs := Reads.mono h hmono

/-- Payloads come, and what the top level resolves it goes on resolving. -/
theorem Grows.valueOf_root (hG : a.Grows b) (hT : a.Tree) (hv : a.valueOf rootScope cell = .ok v) :
    b.valueOf rootScope cell = .ok v :=
  hT.valueOf_mono (hG.still.tree hT) (fun _ _ => (Extends.grows hG).texts)
    (fun _ _ => (Extends.grows hG).numbers) (fun _ _ => hG.still.known_iff.mpr) hv

/-- What a cell stands for does not lie on a stack. -/
theorem Tree.valueOf_modifyStack (hT : a.Tree) (σ : StackId) (f : CellStack → CellStack)
    (hv : a.valueOf rootScope cell = .ok v) : (a.modifyStack σ f).valueOf rootScope cell = .ok v :=
  hT.valueOf_mono ((Still.modifyStack a σ f).tree hT) (fun _ _ hx => hx) (fun _ _ hx => hx)
    (fun _ _ hk => hk) hv

end Arena

/-! ## 3. Views -/

/-- The context works at the top level, on its stack: it is the top level itself, or a block of the
top level that shares the stack. -/
structure AtTop (a : Arena) (c : Context) (σ : StackId) : Prop where
  tree : a.Tree
  process : c.process = rootScope
  halt : c.halt = Context.top.halt
  linked : a.Linked c.scope
  echoes : a.Echoes c.scope
  chain : a.chain c.scope = [rootScope] ∨ a.chain c.scope = [c.scope, rootScope]
  root : ∃ r, a.get? rootScope = some r ∧ r.stack = σ ∧ r.pushTarget = none
  callStacks : (c.callStacks = [] ∧ c.scope = rootScope ∧ c.base = some rootScope) ∨
    (c.callStacks = [σ] ∧ c.base = none)

/-- What is seen of the top level: the values on its stack, the top first, and the output. -/
structure View where
  values : List Value
  output : String

/-- Since the arena `a` the machine has only gained payloads and moved cells of the stack, and tables
that repeated those of the top level do so still. The cells of the stack stand for these values, none
of them a double. -/
structure Shows (a : Arena) (c : Context) (σ : StackId) (m : Machine) (view : View) : Prop where
  fills : a.Fills m.arena
  echoes {k : ScopeId} : a.Echoes k → m.arena.Echoes k
  running : c.isStopped m = false
  cells : m.arena.Displays (m.arena.stackCells σ) view.values
  plain : ∀ v ∈ view.values, v.isDouble = false
  output : m.output = view.output

namespace View

/-- The top value, if there is one. -/
def top (view : View) : Except Failure Value :=
  match view.values with
  | [] => .error ⟨.emptyStack, none⟩
  | v :: _ => .ok v

theorem mem_of_top {view : View} {v : Value} (h : view.top = .ok v) : v ∈ view.values := by
  unfold top at h
  split at h
  · cases h
  · rename_i w ws hw
    cases h
    rw [hw]
    exact List.mem_cons_self

/-- Without the top value. -/
def popped (view : View) : View := { view with values := view.values.tail }

/-- With another value on top. -/
def pushed (view : View) (v : Value) : View := { view with values := v :: view.values }

/-- With these values instead, the bottom first. -/
def holding (view : View) (vs : List Value) : View := { view with values := vs.reverse }

/-- With more output. -/
def printed (view : View) (text : String) : View := { view with output := view.output ++ text }

end View

/-- The action has this result, and leaves such a machine. -/
def Action.Gives {α : Type} (x : Action α) (m : Machine) (r : Except Failure α)
    (S : Machine → Prop) : Prop :=
  x.Ends m (fun v m' => r = .ok v ∧ S m') fun f m' => r = .error f ∧ S m'

namespace Shows

variable {a : Arena} {c : Context} {σ : StackId} {m : Machine} {view : View} {α : Type}

/-- Payloads come. -/
theorem grows (hm : Shows a c σ m view) (hT : a.Tree) {b : Arena} (hG : m.arena.Grows b)
    (hE : ∀ k, m.arena.Echoes k → b.Echoes k) : Shows a c σ { m with arena := b } view where
  fills := hm.fills.grows hG
  echoes hk := hE _ (hm.echoes hk)
  running := hm.running
  cells := by
    rw [hG.stackCells]
    exact hm.cells.mono fun _ _ _ => hG.valueOf_root (hm.fills.still.tree hT)
  plain := hm.plain
  output := hm.output

/-- The stack gets other cells, which stand for other values. -/
theorem modifyStack (hm : Shows a c σ m view) (hT : a.Tree) (f : CellStack → CellStack)
    {vs : List Value} (hcells : m.arena.Displays (f (m.arena.stack σ)).cells vs)
    (hplain : ∀ v ∈ vs, v.isDouble = false) :
    Shows a c σ { m with arena := m.arena.modifyStack σ f } { view with values := vs } where
  fills := hm.fills.modifyStack σ f
  echoes hk := (hm.echoes hk).of_tables (fun _ _ => rfl) fun _ _ => rfl
  running := hm.running
  cells := by
    rw [Arena.stackCells, Arena.stack_modifyStack, if_pos rfl]
    exact hcells.mono fun _ _ _ => (hm.fills.still.tree hT).valueOf_modifyStack σ f
  plain := hplain
  output := hm.output

/-! ## 4. Actions on values -/

section Actions

variable (hm : Shows a c σ m view) (hc : AtTop a c σ)
include hm hc

theorem tree : m.arena.Tree := hm.fills.still.tree hc.tree

theorem linked : m.arena.Linked c.scope := hm.fills.still.linked hc.linked

theorem root : ∃ r, m.arena.get? rootScope = some r ∧ r.stack = σ ∧ r.pushTarget = none := by
  obtain ⟨r, hr, hσ, hpush⟩ := hc.root
  obtain ⟨t, ht, hts⟩ := hm.fills.get? hr
  rw [hts] at ht
  exact ⟨_, ht, hσ, hpush⟩

theorem ends_ownStack {Q : StackId → Machine → Prop} {E : Failure → Machine → Prop} :
    c.ownStack.Ends m Q E ↔ Q σ m := by
  obtain ⟨r, hr, hσ, -⟩ := hm.root hc
  unfold Context.ownStack
  rcases hc.callStacks with ⟨hs, hscope, -⟩ | ⟨hs, -⟩
  · rw [hs, hscope]
    dsimp only
    rw [ends_bind, ends_getScope, hr]
    simp [hσ]
  · rw [hs]
    exact Iff.rfl

theorem ends_pushTarget {Q : Option Pid → Machine → Prop} {E : Failure → Machine → Prop} :
    c.pushTarget.Ends m Q E ↔ Q none m := by
  obtain ⟨r, hr, -, hpush⟩ := hm.root hc
  unfold Context.pushTarget
  rw [hc.process, ends_bind, ends_getScope, hr]
  simp [hpush]

/-- A pop looks at the stack of the top level and nowhere else. -/
theorem top? : c.top? m.arena = .ok ((m.arena.stackCells σ).head?.map (σ, ·)) := by
  obtain ⟨r, hr, hσ, -⟩ := hm.root hc
  obtain ⟨r', hr', hp, -⟩ := (hm.tree hc).root
  cases hr.symm.trans hr'
  unfold Context.top?
  rcases hc.callStacks with ⟨hs, -, hbase⟩ | ⟨hs, hbase⟩
  · rw [hs, hbase, Arena.topOf?]
    dsimp only
    rw [Arena.ownTopUpTo, hr]
    dsimp only
    rw [hσ, hp]
    cases m.arena.stackCells σ <;> rfl
  · rw [hs, hbase, Arena.topOf?]
    cases m.arena.stackCells σ <;> rfl

theorem ends_resolveCell {cell : Cell} {v : Value} (hv : m.arena.valueOf rootScope cell = .ok v)
    {Q : Value → Machine → Prop} {E : Failure → Machine → Prop} :
    (c.resolveCell cell).Ends m Q E ↔ Q v m := by
  have hchain : m.arena.chain c.scope = [rootScope] ∨ m.arena.chain c.scope = [c.scope, rootScope] := by
    rw [hm.fills.still.alike.chain_eq hc.tree.forest]
    exact hc.chain
  rw [← (hm.echoes hc.echoes).valueOf (hm.tree hc) (hm.linked hc) hchain] at hv
  exact Context.ends_resolveCell_of_valueOf hv

theorem ends_resolveCells {cells : List Cell} {vs : List Value} (h : m.arena.Displays cells vs)
    {Q : List Value → Machine → Prop} {E : Failure → Machine → Prop} :
    (cells.mapM c.resolveCell).Ends m Q E ↔ Q vs m := by
  induction cells generalizing vs Q with
  | nil =>
    rw [Arena.displays_nil.mp h]
    exact Iff.rfl
  | cons cell cells ih =>
    obtain ⟨v, ws, rfl, hv, hws⟩ := Arena.displays_cons.mp h
    rw [List.mapM_cons, ends_bind, hm.ends_resolveCell hc hv, ends_bind, ih hws]
    exact Iff.rfl

/-- The cell of a value stands for it. -/
theorem internValue {v : Value} (hv : v.isDouble = false) (hk : Known a v) :
    (c.internValue v).Ends m
      (fun cell m' => m' = { m with arena := m'.arena } ∧ m.arena.Grows m'.arena ∧
        Shows a c σ m' view ∧ m'.arena.valueOf rootScope cell = .ok v)
      fun _ _ => False := by
  have hT := hm.tree hc
  have hroot := hT.mem_chain (hm.linked hc)
  have hlive := (hm.linked hc).get?
  -- interned payloads are in the tables of the top level
  have htext (text : String) {f : Handle → Cell} {g : String → Value}
      (hf : ∀ (b : Arena) h, b.valueOf rootScope (f h) = (b.resolve String rootScope h).map g) :
      (c.internText text >>= fun h => (pure (f h) : Action Cell)).Ends m
        (fun cell m' => m' = { m with arena := m'.arena } ∧ m.arena.Grows m'.arena ∧
          Shows a c σ m' view ∧ m'.arena.valueOf rootScope cell = .ok (g text)) fun _ _ => False := by
    refine (Context.internPayload_stored hT.forest hlive _ text).bind ?_
    rintro h m' ⟨hrest, hS, hapart⟩
    have hshows := hm.grows hc.tree hS.grows fun _ => hS.echoes_text hroot (hapart Number)
    rw [← hrest] at hshows
    refine ⟨hrest, hS.grows, hshows, ?_⟩
    rw [hf, (hshows.tree hc).resolve_root.mpr (hS.on_sharp (sharp_of_lawful text) hroot)]
    rfl
  cases v with
  | bool b => exact ⟨rfl, .refl _, hm, rfl⟩
  | int n => exact ⟨rfl, .refl _, hm, rfl⟩
  | double x => cases hv
  | big n =>
    refine (Context.internPayload_stored hT.forest hlive _ (Number.big n)).bind ?_
    rintro h m' ⟨hrest, hS, hapart⟩
    have hshows := hm.grows hc.tree hS.grows fun _ => hS.echoes_number hroot (hapart String)
    rw [← hrest] at hshows
    refine ⟨hrest, hS.grows, hshows, ?_⟩
    show (m'.arena.resolve Number rootScope h).map Value.ofNumber = _
    rw [(hshows.tree hc).resolve_root.mpr (hS.on_sharp (sharp_big n) hroot)]
    rfl
  | str text => exact htext text fun _ _ => rfl
  | word name => exact htext name fun _ _ => rfl
  | block h =>
    obtain ⟨hlive, hknown⟩ := hm.fills.still.known_iff.mpr hk h rfl
    refine ⟨rfl, .refl _, hm, ?_⟩
    show (m.arena.resolveBlock rootScope h).map _ = _
    rw [hT.resolveBlock_eq_ok hT.linked_root hlive hknown]
    rfl

omit hm in
theorem internValues {m : Machine} (hm : Shows a c σ m view) {vs : List Value}
    (hv : ∀ v ∈ vs, v.isDouble = false) (hk : ∀ v ∈ vs, Known a v) :
    (vs.mapM c.internValue).Ends m
      (fun cells m' => m' = { m with arena := m'.arena } ∧ m.arena.Grows m'.arena ∧
        Shows a c σ m' view ∧ m'.arena.Displays cells vs)
      fun _ _ => False := by
  induction vs generalizing m with
  | nil => exact ⟨rfl, .refl _, hm, Arena.displays_nil.mpr rfl⟩
  | cons v vs ih =>
    rw [List.mapM_cons]
    refine (hm.internValue hc (hv v List.mem_cons_self) (hk v List.mem_cons_self)).bind ?_
    rintro cell m₁ ⟨hrest, hG, hm₁, hcell⟩
    refine (ih hm₁ (fun w hw => hv w (List.mem_cons_of_mem _ hw))
      fun w hw => hk w (List.mem_cons_of_mem _ hw)).bind ?_
    rintro cells m₂ ⟨hrest', hG', hm₂, hcells⟩
    refine ⟨?_, hG.trans hG', hm₂, Arena.displays_cons.mpr ⟨v, vs, rfl, ?_, hcells⟩⟩
    · rw [hrest', hrest]
    · exact hG'.valueOf_root (hm₁.tree hc) hcell

theorem pop : c.pop.Gives m view.top fun m' => Shows a c σ m' view.popped := by
  unfold Gives Context.pop Context.popCell Context.topCell
  rw [ends_bind, ends_bind, ends_bind, ends_inArena, hm.top? hc]
  refine ⟨fun top htop => ?_, fun _ hno => (by cases hno)⟩
  cases htop
  have hcells := hm.cells
  cases hσ : m.arena.stackCells σ with
  | nil =>
    rw [hσ, Arena.displays_nil] at hcells
    refine ⟨?_, ?_⟩
    · rw [View.top, hcells]
    · rw [View.popped, hcells]
      refine ⟨hm.fills, hm.echoes, hm.running, ?_, fun _ hv => absurd hv List.not_mem_nil,
        hm.output⟩
      rw [hσ]
      rfl
  | cons cell cells =>
    rw [hσ, Arena.displays_cons] at hcells
    obtain ⟨v, ws, hvs, hv, hws⟩ := hcells
    have hm' : Shows a c σ { m with arena := m.arena.popCell σ } { view with values := ws } := by
      refine hm.modifyStack hc.tree _ ?_ fun w hw => hm.plain w (hvs ▸ List.mem_cons_of_mem _ hw)
      rw [CellStack.cells_pop]
      show m.arena.Displays (m.arena.stackCells σ).tail ws
      rw [hσ]
      exact hws
    rw [List.head?_cons, Option.map_some, ofOption, ends_pure]
    dsimp only
    rw [ends_bind, ends_modifyArena, ends_pure, hm'.ends_resolveCell hc
      ((hm.tree hc).valueOf_modifyStack σ _ hv), View.top, View.popped, hvs]
    exact ⟨rfl, hm'⟩

theorem peek : c.peek.Gives m view.top fun m' => Shows a c σ m' view := by
  unfold Gives Context.peek Context.topCell
  rw [ends_bind, ends_bind, ends_inArena, hm.top? hc]
  refine ⟨fun top htop => ?_, fun _ hno => (by cases hno)⟩
  cases htop
  have hcells := hm.cells
  cases hσ : m.arena.stackCells σ with
  | nil =>
    rw [hσ, Arena.displays_nil] at hcells
    rw [View.top, hcells]
    exact ⟨rfl, hm⟩
  | cons cell cells =>
    rw [hσ, Arena.displays_cons] at hcells
    obtain ⟨v, ws, hvs, hv, hws⟩ := hcells
    show (c.resolveCell cell).Ends m _ _
    rw [hm.ends_resolveCell hc hv, View.top, hvs]
    exact ⟨rfl, hm⟩

/-- A cell that stands for a value goes onto the stack. -/
theorem pushCell {cell : Cell} {v : Value} (hcell : m.arena.valueOf rootScope cell = .ok v)
    (hv : v.isDouble = false) :
    Shows a c σ { m with arena := m.arena.pushCell σ cell } (view.pushed v) := by
  refine hm.modifyStack hc.tree _ ?_ fun w hw => ?_
  · rw [CellStack.cells_push]
    exact Arena.displays_cons.mpr ⟨v, view.values, rfl, hcell, hm.cells⟩
  · rcases List.mem_cons.mp hw with rfl | hw
    · exact hv
    · exact hm.plain w hw

theorem push {v : Value} (hv : v.isDouble = false) (hk : Known a v) :
    (c.push v).Gives m (.ok ()) fun m' => Shows a c σ m' (view.pushed v) := by
  unfold Gives Context.push Context.pushLocal
  rw [ends_bind, hm.ends_pushTarget hc]
  dsimp only
  refine Ends.bind ((hm.internValue hc hv hk).mono (fun _ _ h => h) fun _ _ hno => hno.elim) ?_
  rintro cell m' ⟨-, -, hm', hcell⟩
  rw [ends_bind, hm'.ends_ownStack hc, ends_modifyArena]
  exact ⟨rfl, hm'.pushCell hc hcell hv⟩

theorem stackSize :
    c.stackSize.Gives m (.ok view.values.length) fun m' => Shows a c σ m' view := by
  unfold Gives Context.stackSize
  rw [ends_bind, hm.ends_ownStack hc, ends_bind, ends_get, ends_pure, CellStack.size_eq]
  exact ⟨congrArg _ hm.cells.length.symm, hm⟩

theorem stackValues :
    c.stackValues.Gives m (.ok view.values.reverse) fun m' => Shows a c σ m' view := by
  unfold Gives Context.stackValues
  rw [ends_bind, hm.ends_ownStack hc, ends_bind, ends_get,
    hm.ends_resolveCells hc hm.cells.reverse]
  exact ⟨rfl, hm⟩

theorem setStackValues {vs : List Value} (hv : ∀ v ∈ vs, v.isDouble = false)
    (hk : ∀ v ∈ vs, Known a v) :
    (c.setStackValues vs).Gives m (.ok ()) fun m' => Shows a c σ m' (view.holding vs) := by
  unfold Gives Context.setStackValues
  refine Ends.bind ((internValues hc hm hv hk).mono (fun _ _ h => h) fun _ _ hno => hno.elim) ?_
  rintro cells m' ⟨-, -, hm', hcells⟩
  rw [ends_bind, hm'.ends_ownStack hc, ends_modifyArena]
  refine ⟨rfl, hm'.modifyStack hc.tree _ ?_ fun v hmem => hv v (List.mem_reverse.mp hmem)⟩
  rw [CellStack.cells_ofList]
  exact hcells.reverse

theorem drainStack :
    c.drainStack.Gives m (.ok view.values) fun m' => Shows a c σ m' (view.holding []) := by
  have hm' : Shows a c σ { m with arena := m.arena.setStack σ [] } (view.holding []) :=
    hm.modifyStack hc.tree _ (Arena.displays_nil.mpr rfl) fun _ hv => absurd hv List.not_mem_nil
  have hcells : (m.arena.setStack σ []).Displays (m.arena.stackCells σ) view.values :=
    hm.cells.mono fun _ _ _ => (hm.tree hc).valueOf_modifyStack σ _
  unfold Gives Context.drainStack
  rw [ends_bind, hm.ends_ownStack hc, ends_bind, ends_get, ends_bind, ends_modifyArena,
    hm'.ends_resolveCells hc hcells]
  exact ⟨rfl, hm'⟩

omit hc in
theorem write (text : String) :
    (Action.write text).Gives m (.ok ()) fun m' => Shows a c σ m' (view.printed text) := by
  refine ⟨rfl, hm.fills, hm.echoes, hm.running, hm.cells, hm.plain, ?_⟩
  rw [View.printed, ← hm.output]

/-- What is shown has been resolved. -/
theorem known {v : Value} (hv : v ∈ view.values) : Known a v := by
  have hmem : Except.ok v ∈ (m.arena.stackCells σ).map (m.arena.valueOf rootScope) := by
    rw [hm.cells]
    exact List.mem_map_of_mem hv
  obtain ⟨cell, -, hcell⟩ := List.mem_map.mp hmem
  exact hm.fills.still.known_iff.mp ((hm.tree hc).known_of_valueOf hcell)

end Actions

end Shows

/-! ## 5. Two contexts -/

/-- The machines show the same to the two contexts. -/
def Alongside (a : Arena) (c : Context) (σ : StackId) (b : Arena) (d : Context) (τ : StackId)
    (m n : Machine) : Prop :=
  ∃ view, Shows a c σ m view ∧ Shows b d τ n view

/-- The value is no double, and if it is a block it is known on both sides. -/
def Shared (a b : Arena) (v : Value) : Prop := v.isDouble = false ∧ Known a v ∧ Known b v

/-- Calculating with integers gives integers. -/
theorem ArithOp.apply_isDouble {op : ArithOp} {a b v : Value} (ha : a.isDouble = false)
    (hb : b.isDouble = false) (h : op.apply a b = .ok v) : v.isDouble = false := by
  unfold ArithOp.apply at h
  split at h
  · cases h
  · rw [ha, hb, Bool.or_self, if_neg (by decide)] at h
    split at h
    · cases h
      rfl
    cases hx : a.asInt with
    | error e => rw [hx] at h; cases h
    | ok x =>
      cases hy : b.asInt with
      | error e => rw [hx, hy] at h; cases h
      | ok y =>
        rw [hx, hy] at h
        cases h
        exact Value.isDouble_ofInt _

section Mirrors

variable {a b : Arena} {c d : Context} {σ τ : StackId}

/-- Actions agree that have the same result and leave the same to be seen. -/
theorem agree_of_gives {α : Type} {x y : Action α} {good : α → Prop} (r : View → Except Failure α)
    (next : View → View)
    (hx : ∀ m view, Shows a c σ m view → x.Gives m (r view) fun m' => Shows a c σ m' (next view))
    (hy : ∀ n view, Shows b d τ n view → y.Gives n (r view) fun n' => Shows b d τ n' (next view))
    (hgood : ∀ m n view, Shows a c σ m view → Shows b d τ n view → ∀ v, r view = .ok v → good v) :
    Agree (Alongside a c σ b d τ) x y good := by
  rintro m n ⟨view, hm, hn⟩
  refine (hx m view hm).mono (fun v m' ⟨hr, hm'⟩ => ?_) fun f m' ⟨hr, hm'⟩ => ?_
  · refine (hy n view hn).mono (fun w n' ⟨hr', hn'⟩ => ?_) fun e n' ⟨hr', _⟩ => ?_
    · cases hr.symm.trans hr'
      exact ⟨rfl, ⟨_, hm', hn'⟩, hgood m n view hm hn v hr⟩
    · cases hr.symm.trans hr'
  · refine (hy n view hn).mono (fun w n' ⟨hr', _⟩ => ?_) fun e n' ⟨hr', hn'⟩ => ?_
    · cases hr.symm.trans hr'
    · cases hr.symm.trans hr'
      exact ⟨rfl, _, hm', hn'⟩

/-- **Contexts at the top level mirror each other** where they are shown the same. -/
theorem AtTop.mirrors (hc : AtTop a c σ) (hd : AtTop b d τ) :
    Mirrors (Alongside a c σ b d τ) (Shared a b) c d where
  pop := by
    refine agree_of_gives View.top View.popped (fun _ _ h => h.pop hc) (fun _ _ h => h.pop hd) ?_
    intro m n view hm hn v hv
    have hmem := View.mem_of_top hv
    exact ⟨hm.plain v hmem, hm.known hc hmem, hn.known hd hmem⟩
  peek := by
    refine agree_of_gives View.top id (fun _ _ h => h.peek hc) (fun _ _ h => h.peek hd) ?_
    intro m n view hm hn v hv
    have hmem := View.mem_of_top hv
    exact ⟨hm.plain v hmem, hm.known hc hmem, hn.known hd hmem⟩
  push {v} hv := agree_of_gives (fun _ => .ok ()) (·.pushed v) (fun _ _ h => h.push hc hv.1 hv.2.1)
    (fun _ _ h => h.push hd hv.1 hv.2.2) fun _ _ _ _ _ _ _ => trivial
  size := agree_of_gives (fun view => .ok view.values.length) id (fun _ _ h => h.stackSize hc)
    (fun _ _ h => h.stackSize hd) fun _ _ _ _ _ _ _ => trivial
  values := by
    refine agree_of_gives (fun view => .ok view.values.reverse) id (fun _ _ h => h.stackValues hc)
      (fun _ _ h => h.stackValues hd) ?_
    intro m n view hm hn vs hvs v hv
    cases hvs
    have hmem := List.mem_reverse.mp hv
    exact ⟨hm.plain v hmem, hm.known hc hmem, hn.known hd hmem⟩
  setValues {vs} hvs := agree_of_gives (fun _ => .ok ()) (·.holding vs)
    (fun _ _ h => h.setStackValues hc (fun v hv => (hvs v hv).1) fun v hv => (hvs v hv).2.1)
    (fun _ _ h => h.setStackValues hd (fun v hv => (hvs v hv).1) fun v hv => (hvs v hv).2.2)
    fun _ _ _ _ _ _ _ => trivial
  drain := by
    refine agree_of_gives (fun view => .ok view.values) (·.holding []) (fun _ _ h => h.drainStack hc)
      (fun _ _ h => h.drainStack hd) ?_
    intro m n view hm hn vs hvs v hv
    cases hvs
    exact ⟨hm.plain v hv, hm.known hc hv, hn.known hd hv⟩
  write text := agree_of_gives (fun _ => .ok ()) (·.printed text) (fun _ _ h => h.write text)
    (fun _ _ h => h.write text) fun _ _ _ _ _ _ _ => trivial
  plain hblock hdouble := ⟨hdouble, .of_ne hblock, .of_ne hblock⟩
  result ha hb hv := ⟨ArithOp.apply_isDouble ha.1 hb.1 hv, .of_ne (ArithOp.apply_ne_block hv),
    .of_ne (ArithOp.apply_ne_block hv)⟩

end Mirrors

end ScopeStack
