import ScopeStack.Proofs.Doubles
import ScopeStack.Proofs.Running
import ScopeStack.Proofs.Scripts

/-!
# Compiling at the top level

An opening delimiter opens a frame, tokens go into the code of the innermost frame, and a close makes
the frame an instruction of the one around it, or a value on the stack of the top level.

* `Arena.Extends`: **compiling adds**: payloads, blocks and code of blocks that are open. What is
  finished stays as it is. `Compiled`: nor does anything else of the machine change.
* `Frame`, `Compiling`: the blocks that are open, with the code they have so far. One lemma for each
  kind of token: `Compiling.opened`, `Compiling.atom`, `Compiling.closed`, `Compiling.closedLast`, and
  `Compiling.unbalanced` for a close that does not match.
* `Executes`: what the tokens do one after the other. `Script.compiles`: **the tokens of a script
  become code that spells it.** `Compiling.tracks`: what is open after any of them.
-/

namespace ScopeStack

open ScopeStack.Action

/-! ## 1. What compiling adds -/

/-- A scope without what compiling changes: its code, its payloads and the blocks in it. -/
def Scope.fixed (s : Scope) : Scope :=
  { s with
    children := {}, strings := {}, numbers := {}, code := {}, compiling := false,
    compileStack := [] }

/-- What does not look at the rest of a scope is told by what is fixed. -/
theorem Scope.eq_of_fixed {α : Type} (f : Scope → α) (hf : ∀ s, f s.fixed = f s) {s t : Scope}
    (he : t.fixed = s.fixed) : f t = f s := by
  rw [← hf t, he, hf s]

namespace Arena

/-- Payloads, blocks and code of open blocks have been added, and the rest is as it was. -/
structure Extends (a b : Arena) : Prop where
  get? {id : ScopeId} {s : Scope} : a.get? id = some s → ∃ t, b.get? id = some t ∧
    t.fixed = s.fixed ∧ (s.compiling = false → t.code = s.code ∧ t.compiling = false)
  new {id : ScopeId} {t : Scope} : b.get? id = some t → (∃ s, a.get? id = some s) ∨
    (a.lastScope < id ∧ ∃ p σ shares, a.lastStack < σ ∧ t.fixed = (newBlock p σ shares).fixed)
  texts {id : ScopeId} {h : Handle} {v : String} : a.payloadAt String id h = some v →
    b.payloadAt String id h = some v
  numbers {id : ScopeId} {h : Handle} {v : Number} : a.payloadAt Number id h = some v →
    b.payloadAt Number id h = some v
  known {h k : ScopeId} : k ∈ a.scopesKnowing h → k ∈ b.scopesKnowing h
  lastScope : a.lastScope ≤ b.lastScope
  lastStack : a.lastStack ≤ b.lastStack

namespace Extends

variable {a b c : Arena}

theorem trans (hab : a.Extends b) (hbc : b.Extends c) : a.Extends c where
  get? {id s} hs := by
    obtain ⟨t, ht, hts, hcode⟩ := hab.get? hs
    obtain ⟨u, hu, hut, hcode'⟩ := hbc.get? ht
    refine ⟨u, hu, hut.trans hts, fun hclosed => ?_⟩
    obtain ⟨hc, hd⟩ := hcode hclosed
    obtain ⟨hc', hd'⟩ := hcode' hd
    exact ⟨hc'.trans hc, hd'⟩
  new {id u} hu := by
    rcases hbc.new hu with ⟨t, ht⟩ | ⟨hlt, p, σ, shares, hσ, hup⟩
    · refine (hab.new ht).imp_right fun ⟨hlt, p, σ, shares, hσ, htp⟩ => ?_
      obtain ⟨u', hu', hut, -⟩ := hbc.get? ht
      cases hu.symm.trans hu'
      exact ⟨hlt, p, σ, shares, hσ, hut.trans htp⟩
    · exact Or.inr ⟨Nat.lt_of_le_of_lt hab.lastScope hlt, p, σ, shares,
        Nat.lt_of_le_of_lt hab.lastStack hσ, hup⟩
  texts hv := hbc.texts (hab.texts hv)
  numbers hv := hbc.numbers (hab.numbers hv)
  known hk := hbc.known (hab.known hk)
  lastScope := Nat.le_trans hab.lastScope hbc.lastScope
  lastStack := Nat.le_trans hab.lastStack hbc.lastStack

/-- Tables that grow. -/
theorem grows (hG : a.Grows b) : a.Extends b where
  get? {id s} hs := by
    obtain ⟨t, ht, hts, -⟩ := hG.get? hs
    refine ⟨t, ht, ?_, fun hclosed => ?_⟩
    · rw [hts]
      rfl
    · rw [hts]
      exact ⟨rfl, hclosed⟩
  new {id t} ht := by
    obtain ⟨s, hs, -⟩ := hG.still.get? ht
    exact Or.inl ⟨s, hs⟩
  texts {id h v} hv := by
    obtain ⟨s, hs, hsv⟩ := Option.bind_eq_some_iff.mp hv
    obtain ⟨t, ht, -, htext, -⟩ := hG.get? hs
    rw [payloadAt_of_get? ht]
    exact htext h v hsv
  numbers {id h v} hv := by
    obtain ⟨s, hs, hsv⟩ := Option.bind_eq_some_iff.mp hv
    obtain ⟨t, ht, -, -, hnumber⟩ := hG.get? hs
    rw [payloadAt_of_get? ht]
    exact hnumber h v hsv
  known hk := hG.still.scopesKnowing _ ▸ hk
  lastScope := Nat.le_of_eq hG.lastScope.symm
  lastStack := Nat.le_of_eq hG.lastStack.symm

theorem refl (a : Arena) : a.Extends a := grows (.refl a)

/-- What has come since is a block without anything of its own but what has been compiled. -/
theorem fixed_new (hE : a.Extends b) (hF : a.Forest) {id : ScopeId} {t : Scope}
    (ht : b.get? id = some t) (hlt : a.lastScope < id) :
    ∃ p σ shares, t.fixed = (newBlock p σ shares).fixed := by
  rcases hE.new ht with ⟨s, hs⟩ | ⟨-, p, σ, shares, -, hfixed⟩
  · exact absurd (hF.le_last hs) (Nat.not_le_of_lt hlt)
  · exact ⟨p, σ, shares, hfixed⟩

/-- A change of one scope that concerns its code or what is open. -/
theorem modify (a : Arena) (id : ScopeId) (f : Scope → Scope)
    (hf : ∀ s, a.get? id = some s → (f s).fixed = s.fixed ∧
      (s.compiling = false → (f s).code = s.code ∧ (f s).compiling = false) ∧
      (f s).strings = s.strings ∧ (f s).numbers = s.numbers) : a.Extends (a.modify id f) := by
  have hold {k : ScopeId} {s : Scope} (hs : a.get? k = some s) :
      ∃ t, (a.modify id f).get? k = some t ∧ t.fixed = s.fixed ∧
        (s.compiling = false → t.code = s.code ∧ t.compiling = false) ∧
        t.strings = s.strings ∧ t.numbers = s.numbers := by
    rw [get?_modify]
    by_cases hk : k = id
    · rw [if_pos hk, ← hk, hs]
      exact ⟨f s, rfl, hf s (hk ▸ hs)⟩
    · rw [if_neg hk, hs]
      exact ⟨s, rfl, rfl, fun hc => ⟨rfl, hc⟩, rfl, rfl⟩
  refine ⟨fun hs => ?_, fun ht => ?_, fun {k h v} hv => ?_, fun {k h v} hv => ?_, fun hk => hk,
    Nat.le_refl _, Nat.le_refl _⟩
  · obtain ⟨t, ht, hfixed, hcode, -⟩ := hold hs
    exact ⟨t, ht, hfixed, hcode⟩
  · obtain ⟨s, hs, -⟩ := get?_modify_cases ht
    exact Or.inl ⟨s, hs⟩
  · obtain ⟨s, hs, hsv⟩ := Option.bind_eq_some_iff.mp hv
    obtain ⟨t, ht, -, -, htext, -⟩ := hold hs
    rw [payloadAt_of_get? ht]
    show t.strings.get? h = some v
    rw [htext]
    exact hsv
  · obtain ⟨s, hs, hsv⟩ := Option.bind_eq_some_iff.mp hv
    obtain ⟨t, ht, -, -, -, hnumber⟩ := hold hs
    rw [payloadAt_of_get? ht]
    show t.numbers.get? h = some v
    rw [hnumber]
    exact hsv

/-- A block comes. -/
theorem added (hF : a.Forest) {parent : ScopeId} {shares : Bool} (hA : a.Added parent shares b) :
    a.Extends b where
  get? hs := ⟨_, hA.get?_of hF hs, rfl, fun hc => ⟨rfl, hc⟩⟩
  new {id t} ht := by
    rcases hA.of_get? ht with ⟨rfl, rfl⟩ | ⟨s, hs, -⟩
    · exact Or.inr ⟨Nat.lt_succ_self _, parent, _, shares, Nat.lt_succ_self _, rfl⟩
    · exact Or.inl ⟨s, hs⟩
  texts {id h v} hv := by
    obtain ⟨s, hs, hsv⟩ := Option.bind_eq_some_iff.mp hv
    rw [payloadAt_of_get? (hA.get?_of hF hs)]
    exact hsv
  numbers {id h v} hv := by
    obtain ⟨s, hs, hsv⟩ := Option.bind_eq_some_iff.mp hv
    rw [payloadAt_of_get? (hA.get?_of hF hs)]
    exact hsv
  known hk := hA.known _ ▸ hk
  lastScope := hA.lastScope ▸ Nat.le_succ _
  lastStack := hA.lastStack ▸ Nat.le_succ _

/-- A block becomes known. -/
theorem makeKnown (a : Arena) (block : ScopeId) (ids : List ScopeId) :
    a.Extends (a.makeKnown block ids) where
  get? {_ s} hs := ⟨s, hs, rfl, fun hc => ⟨rfl, hc⟩⟩
  new {_ t} ht := Or.inl ⟨t, ht⟩
  texts hv := hv
  numbers hv := hv
  known hk := (mem_scopesKnowing_makeKnown ..).mpr (Or.inl hk)
  lastScope := Nat.le_refl _
  lastStack := Nat.le_refl _

/-- A stack gets other cells. -/
theorem modifyStack (a : Arena) (σ : StackId) (f : CellStack → CellStack) :
    a.Extends (a.modifyStack σ f) where
  get? {_ s} hs := ⟨s, hs, rfl, fun hc => ⟨rfl, hc⟩⟩
  new {_ t} ht := Or.inl ⟨t, ht⟩
  texts hv := hv
  numbers hv := hv
  known hk := hk
  lastScope := Nat.le_refl _
  lastStack := Nat.le_refl _

/-- **What is spelled stays spelled.** -/
theorem spells (hE : a.Extends b) {script : Script} {id : ScopeId} {code : List Instruction}
    (h : script.Spells a.owning a id code) : script.Spells b.owning b id code := by
  refine h.mono (P := fun _ => True) (fun _ _ _ _ hv => hE.texts hv) (fun _ _ _ _ hv => hE.numbers hv)
    (fun id k s _ hk hs hclosed _ => ?_) trivial
  obtain ⟨t, ht, hfixed, hcode⟩ := hE.get? hs
  exact ⟨owning_block.mpr (hE.known (owning_block.mp hk)), trivial, t, ht,
    Scope.eq_of_fixed (·.parent) (fun _ => rfl) hfixed,
    Scope.eq_of_fixed (·.sharesStack) (fun _ => rfl) hfixed, (hcode hclosed).2, (hcode hclosed).1⟩

end Extends

end Arena

/-- A block comes without payloads. -/
theorem Arena.Added.echoes {a b : Arena} (hF : a.Forest) {parent : ScopeId} {shares : Bool}
    (hA : a.Added parent shares b) {k : ScopeId} (hk : a.Echoes k) : b.Echoes k := by
  have hpayload {α : Type} [BEq α] [Interned α] (j : ScopeId) (h : Handle)
      (hnew : ∀ p σ shares, (Interned.table (newBlock p σ shares) : InternTable α).get? h = none)
      (hold : ∀ (s : Scope) cs, (Interned.table { s with children := cs } : InternTable α) =
        Interned.table s) :
      b.payloadAt α j h = a.payloadAt α j h := by
    unfold payloadAt
    rw [hA.get?]
    by_cases hj : j = a.lastScope + 1
    · rw [if_pos hj, hj, hF.get?_of_last_lt (Nat.lt_succ_self _)]
      exact hnew _ _ _
    · rw [if_neg hj]
      cases a.get? j with
      | none => rfl
      | some s => exact congrArg (·.get? h) (hold s _)
  exact hk.of_tables (fun j h => hpayload j h (fun _ _ _ => rfl) fun _ _ => rfl)
    fun j h => hpayload j h (fun _ _ _ => rfl) fun _ _ => rfl

/-- Something has been compiled, and nothing else has happened: no stack has changed. -/
structure Compiled (m m' : Machine) : Prop where
  grown : m.arena.Extends m'.arena
  stackCells {σ : StackId} : σ ≤ m.arena.lastStack → m'.arena.stackCells σ = m.arena.stackCells σ
  rest : m' = { m with arena := m'.arena }

theorem Compiled.refl (m : Machine) : Compiled m m := ⟨.refl _, fun _ => rfl, rfl⟩

theorem Compiled.trans {m₁ m₂ m₃ : Machine} (h : Compiled m₁ m₂) (h' : Compiled m₂ m₃) :
    Compiled m₁ m₃ where
  grown := h.grown.trans h'.grown
  stackCells hσ := (h'.stackCells (Nat.le_trans hσ h.grown.lastStack)).trans (h.stackCells hσ)
  rest := by
    have h₃ := h'.rest
    rw [h.rest] at h₃
    exact h₃

/-! ## 2. Interning what is compiled -/

/-- Is it a number that is not an integer? -/
def Atom.isDouble : Atom → Bool
  | .number (.double _) => true
  | _ => false

namespace Context

/-- **A payload is stored** for any scope that is there. -/
theorem internPayload_stored {α : Type} [BEq α] [Interned α] [HeldTable α] [Arena.GrowingTable α]
    {c : Context} {m : Machine} (hF : m.arena.Forest) (hc : ∃ s, m.arena.get? c.scope = some s)
    (hash : ContentHash → α → Handle) (v : α) :
    (internPayload hash c v).Ends m
      (fun h m' => m' = { m with arena := m'.arena } ∧ m.arena.Stored c.scope v h m'.arena ∧
        ∀ (β : Type) [BEq β] [Interned β] [ApartTables α β] (k : ScopeId) (j : Handle),
          m'.arena.payloadAt β k j = m.arena.payloadAt β k j)
      fun _ _ => False := by
  obtain ⟨h, b, hi, hS, hapart⟩ := Arena.intern_stored hF.acyclic (hash m.hash) hc v
  unfold internPayload
  rw [ends_bind, ends_get, ends_changeArena, hi]
  exact ⟨fun h' hh => by cases hh; exact ⟨rfl, hS, hapart⟩, fun e he => (by cases he)⟩

/-- The cell of an atom stands for it. Unless it is a double, tables that repeat those of the top level
go on doing so. -/
theorem compileAtom_is {c : Context} {m : Machine} (hT : m.arena.Tree)
    (hc : m.arena.Linked c.scope) {x : Atom} (hx : ∀ n, x = .number n → (n == n) = true) :
    (c.compileAtom x).Ends m
      (fun cell m' => m' = { m with arena := m'.arena } ∧ m.arena.Grows m'.arena ∧
        x.Is m'.arena.owning c.scope cell ∧
        (x.isDouble = false → ∀ k, m.arena.Echoes k → m'.arena.Echoes k))
      fun _ _ => False := by
  obtain ⟨s, hs⟩ := hc.get?
  have hF := hT.forest
  have hroot := hT.mem_chain hc
  have hself := Arena.mem_chain_self hF hs
  have hnumber {n : Number} (hn : x = .number n) {h : Handle} {b : Arena}
      (hS : m.arena.Stored c.scope n h b) :
      ∃ v, b.payloadAt Number c.scope h = some v ∧ (v == n) = true := by
    obtain ⟨v, hv, rfl | he⟩ := hS.on hself
    · exact ⟨v, hv, hx v hn⟩
    · exact ⟨v, hv, he⟩
  have htext {text : String} {h : Handle} {b : Arena} (hS : m.arena.Stored c.scope text h b) :
      b.payloadAt String c.scope h = some text :=
    hS.on_sharp (sharp_of_lawful text) hself
  cases x with
  | int n => exact ⟨rfl, .refl _, rfl, fun _ _ hk => hk⟩
  | bool b => exact ⟨rfl, .refl _, rfl, fun _ _ hk => hk⟩
  | number n =>
    cases n with
    | big n =>
      refine (internPayload_stored hF ⟨s, hs⟩ _ _).bind ?_
      rintro h m' ⟨hrest, hS, hapart⟩
      obtain ⟨v, hv, he⟩ := hnumber rfl hS
      exact ⟨hrest, hS.grows, ⟨h, v, rfl, hv, he⟩,
        fun _ _ => hS.echoes_number hroot (hapart String)⟩
    | double x =>
      refine (internPayload_stored hF ⟨s, hs⟩ _ _).bind ?_
      rintro h m' ⟨hrest, hS, -⟩
      obtain ⟨v, hv, he⟩ := hnumber rfl hS
      exact ⟨hrest, hS.grows, ⟨h, v, rfl, hv, he⟩, fun hno => (by cases hno)⟩
  | str text =>
    refine (internPayload_stored hF ⟨s, hs⟩ _ _).bind ?_
    rintro h m' ⟨hrest, hS, hapart⟩
    exact ⟨hrest, hS.grows, ⟨h, rfl, htext hS⟩, fun _ _ => hS.echoes_text hroot (hapart Number)⟩
  | word name =>
    refine (internPayload_stored hF ⟨s, hs⟩ _ _).bind ?_
    rintro h m' ⟨hrest, hS, hapart⟩
    exact ⟨hrest, hS.grows, ⟨h, rfl, htext hS⟩, fun _ _ => hS.echoes_text hroot (hapart Number)⟩

end Context

/-- Without a push session the top level pushes on its own stack. -/
theorem Context.ends_pushCell_top {m : Machine} {r : Scope} (hr : m.arena.get? rootScope = some r)
    (hpush : r.pushTarget = none) {cell : Cell} {Q : Unit → Machine → Prop}
    {E : Failure → Machine → Prop} :
    ((Context.top.switchTo rootScope).pushCell cell).Ends m Q E ↔
      Q () { m with arena := m.arena.pushCell r.stack cell } := by
  have hget {β : Type} {f : Scope → Action β} {Q : β → Machine → Prop} :
      (getScope rootScope >>= f).Ends m Q E ↔ (f r).Ends m Q E := by
    rw [ends_bind, ends_getScope, hr]
    simp
  rw [show Context.top.switchTo rootScope = Context.top from rfl]
  unfold pushCell pushTarget ownStack
  show ((getScope rootScope >>= fun s => pure s.pushTarget) >>= _).Ends m Q E ↔ _
  rw [bind_assoc, hget, pure_bind, hpush]
  show ((getScope rootScope >>= fun s => pure s.stack) >>= _).Ends m Q E ↔ _
  rw [bind_assoc, hget, pure_bind, ends_modifyArena]

/-! ## 3. Open blocks -/

/-- A block that is open, and what has been compiled into it. -/
structure Frame where
  scope : ScopeId
  kind : BlockKind
  code : List Instruction

/-- Where the next block is opened. -/
def innermost (frames : List Frame) : ScopeId := (frames.map (·.scope)).headD rootScope

@[simp] theorem innermost_cons (f : Frame) (fs : List Frame) : innermost (f :: fs) = f.scope := rfl

namespace Arena

/-- The scope of a frame, with its code. -/
def IsFrame (a : Arena) (f : Frame) (outer : ScopeId) : Prop :=
  ∃ s, a.get? f.scope = some s ∧ s.parent = some outer ∧ s.sharesStack = f.kind.shares ∧
    s.compiling = true ∧ s.code.toList = f.code

/-- Each of these blocks is open and was opened inside the next one, the last at the top level. -/
def Framed (a : Arena) : List Frame → Prop
  | [] => True
  | f :: fs => a.IsFrame f (innermost fs) ∧ rootScope < f.scope ∧ (∀ g ∈ fs, g.scope < f.scope) ∧
      a.Framed fs

/-- The block of a frame is finished, and the top level knows it. -/
def Finished (a : Arena) (f : Frame) (outer : ScopeId) : Prop :=
  ∃ s, a.get? f.scope = some s ∧ s.parent = some outer ∧ s.sharesStack = f.kind.shares ∧
    s.compiling = false ∧ s.code.toList = f.code ∧ rootScope ∈ a.scopesKnowing f.scope

variable {a b : Arena}

theorem Extends.finished (hE : a.Extends b) {f : Frame} {outer : ScopeId} (h : a.Finished f outer) :
    b.Finished f outer := by
  obtain ⟨s, hs, hp, hshares, hclosed, hcode, hknown⟩ := h
  obtain ⟨t, ht, hfixed, hkept⟩ := hE.get? hs
  obtain ⟨hcode', hclosed'⟩ := hkept hclosed
  exact ⟨t, ht, (Scope.eq_of_fixed (·.parent) (fun _ => rfl) hfixed).trans hp,
    (Scope.eq_of_fixed (·.sharesStack) (fun _ => rfl) hfixed).trans hshares, hclosed',
    hcode' ▸ hcode, hE.known hknown⟩

theorem Framed.mem_gt {frames : List Frame} (h : a.Framed frames) {f : Frame} (hf : f ∈ frames) :
    rootScope < f.scope := by
  induction frames with
  | nil => cases hf
  | cons g fs ih =>
    rcases List.mem_cons.mp hf with rfl | hf
    · exact h.2.1
    · exact ih h.2.2.2 hf

/-- Frames stay where their scopes do not change. -/
theorem Framed.mono {frames : List Frame} (h : a.Framed frames)
    (hof : ∀ f ∈ frames, ∀ s, a.get? f.scope = some s → ∃ t, b.get? f.scope = some t ∧
      t.parent = s.parent ∧ t.sharesStack = s.sharesStack ∧ t.compiling = s.compiling ∧
      t.code = s.code) : b.Framed frames := by
  induction frames with
  | nil => trivial
  | cons f fs ih =>
    obtain ⟨⟨s, hs, hp, hshares, hopen, hcode⟩, hroot, hlt, hfs⟩ := h
    obtain ⟨t, ht, hp', hshares', hopen', hcode'⟩ := hof f List.mem_cons_self s hs
    refine ⟨⟨t, ht, hp'.trans hp, hshares'.trans hshares, hopen'.trans hopen, ?_⟩, hroot, hlt,
      ih hfs fun g hg => hof g (List.mem_cons_of_mem _ hg)⟩
    rw [hcode', hcode]

/-- A change of another scope. -/
theorem Framed.modify {frames : List Frame} (h : a.Framed frames) {id : ScopeId} {f : Scope → Scope}
    (hid : ∀ g ∈ frames, g.scope ≠ id) : (a.modify id f).Framed frames := by
  refine h.mono fun g hg s hs => ⟨s, ?_, rfl, rfl, rfl, rfl⟩
  rw [get?_modify, if_neg (hid g hg), hs]

end Arena

/-- The top level runs, no push session is open, and these are the blocks it has open. -/
structure Compiling (m : Machine) (frames : List Frame) : Prop where
  tree : m.arena.Tree
  running : Context.top.isStopped m = false
  root : ∃ r, m.arena.get? rootScope = some r ∧ r.pushTarget = none ∧
    r.compileStack = frames.map (·.scope)
  framed : m.arena.Framed frames

namespace Compiling

variable {m : Machine} {frames : List Frame}

theorem openBlocks (hm : Compiling m frames) : m.arena.openBlocks = frames.map (·.scope) := by
  obtain ⟨r, hr, -, ho⟩ := hm.root
  rw [Arena.openBlocks_eq hr, ho]

theorem target (hm : Compiling m frames) :
    m.arena.openBlocks.headD Context.top.scope = innermost frames := by
  rw [hm.openBlocks]
  rfl

theorem target_live (hm : Compiling m frames) : ∃ s, m.arena.get? (innermost frames) = some s := by
  cases frames with
  | nil =>
    obtain ⟨r, hr, -⟩ := hm.root
    exact ⟨r, hr⟩
  | cons f fs =>
    obtain ⟨⟨s, hs, -⟩, -⟩ := hm.framed
    exact ⟨s, hs⟩

theorem target_linked (hm : Compiling m frames) : m.arena.Linked (innermost frames) := by
  cases frames with
  | nil => exact hm.tree.linked_root
  | cons f fs =>
    obtain ⟨s, hs⟩ := hm.target_live
    refine hm.tree.linked_openBlock ?_ hs
    rw [hm.openBlocks]
    exact List.mem_cons_self

/-- **An opening delimiter opens a frame.** -/
theorem opened (hm : Compiling m frames) {t : Token} {kind : BlockKind}
    (ht : Literal.ofToken t = .blockOpen kind) :
    (Context.top.compileToken t).Ends m
      (fun jobs m' => jobs = [] ∧ Compiled m m' ∧
        Compiling m' (⟨m.arena.lastScope + 1, kind, []⟩ :: frames) ∧
        ∀ k, m.arena.Echoes k → m'.arena.Echoes k)
      fun _ _ => False := by
  have hT := hm.tree
  have hF := hT.forest
  obtain ⟨r, hr, hpush, ho⟩ := hm.root
  obtain ⟨s, hs⟩ := hm.target_live
  have hle := hF.le_last hs
  unfold Context.compileToken
  rw [ht]
  dsimp only
  unfold Context.openBlock
  rw [ends_bind, ends_bind, Context.compileTarget_ends rfl hT, hm.target, ends_bind, ends_changeArena]
  obtain ⟨hA, hres⟩ := Arena.createChild_added hle kind.shares
  rw [hres, hs]
  generalize (m.arena.createChild (innermost frames) kind.shares).2 = b at hA
  have hTb : b.Tree := hA.tree hT hle fun _ _ => hm.target_linked
  have hroot := hA.get?_of hF hr
  refine ⟨fun child hchild => ?_, fun e he => (by cases he)⟩
  cases hchild
  rw [ends_bind, ends_getScope_some hroot, ends_modifyScope, ends_pure]
  have hne : m.arena.lastScope + 1 ≠ rootScope := fun he =>
    Nat.not_succ_le_self _ (he ▸ hT.root_le)
  generalize hb : b.modify Context.top.process (fun r =>
    { r with compileStack := (m.arena.lastScope + 1) :: r.compileStack }) = b'
  have hget (k : ScopeId) : b'.get? k = if k = rootScope then (b.get? rootScope).map (fun r =>
      { r with compileStack := (m.arena.lastScope + 1) :: r.compileStack }) else b.get? k := by
    rw [← hb]
    exact Arena.get?_modify b rootScope k _
  have hT' : b'.Tree := by
    rw [← hb]
    refine (Arena.Alike.modify b _ (fun r =>
      { r with compileStack := (m.arena.lastScope + 1) :: r.compileStack })
      fun s _ => ⟨rfl, rfl, fun h => h, fun k hk => ?_⟩).tree hTb
    rcases List.mem_cons.mp hk with rfl | hk
    · exact Or.inr ⟨hA.lastScope ▸ Nat.le_refl _, hne, hA.linked_new hF hs⟩
    · exact Or.inl hk
  have hE : b.Extends b' := by
    rw [← hb]
    exact .modify _ _ _ fun _ _ => ⟨rfl, fun hc => ⟨rfl, hc⟩, rfl, rfl⟩
  refine ⟨rfl, ⟨(Arena.Extends.added hF hA).trans hE, fun {σ} hσ => ?_, rfl⟩,
    ⟨hT', hm.running, ?_, ?_⟩, fun k hk => ?_⟩
  · rw [← hb, Arena.stackCells_modify, hA.stackCells, if_neg]
    exact fun he => Nat.not_succ_le_self _ (he ▸ hσ)
  · rw [hget, if_pos rfl, hroot]
    exact ⟨_, rfl, hpush, congrArg (_ :: ·) ho⟩
  · refine ⟨?_, Nat.lt_succ_of_le hT.root_le, fun g hg => ?_, ?_⟩
    · rw [Arena.IsFrame, hget, if_neg hne, hA.get?_new]
      exact ⟨_, rfl, rfl, rfl, rfl, rfl⟩
    · have hg' : g.scope ∈ m.arena.openBlocks := hm.openBlocks ▸ List.mem_map_of_mem hg
      exact Nat.lt_succ_of_le (hT.openBlock_le hg').1
    · rw [← hb]
      refine Arena.Framed.modify (hm.framed.mono fun g hg s hs =>
        ⟨_, hA.get?_of hF hs, rfl, rfl, rfl, rfl⟩) fun g hg => ?_
      exact Nat.ne_of_gt (hm.framed.mem_gt hg)
  · rw [← hb]
    exact (hA.echoes hF hk).modify _ _ (fun _ => rfl) fun _ => rfl

/-- Tables that grow leave the open blocks as they are. -/
theorem grows (hm : Compiling m frames) {a : Arena} (hG : m.arena.Grows a) :
    Compiling { m with arena := a } frames := by
  obtain ⟨r, hr, hpush, ho⟩ := hm.root
  obtain ⟨r₁, hr₁, hrr, -, -⟩ := hG.get? hr
  rw [hrr] at hr₁
  refine ⟨hG.still.tree hm.tree, hm.running, ⟨_, hr₁, hpush, ho⟩, hm.framed.mono fun g hg u hu => ?_⟩
  obtain ⟨u₁, hu₁, huu, -, -⟩ := hG.get? hu
  rw [huu] at hu₁
  exact ⟨_, hu₁, rfl, rfl, rfl, rfl⟩

/-- An instruction goes into the innermost frame. -/
theorem append {f : Frame} {fs : List Frame} (hm : Compiling m (f :: fs)) (i : Instruction) :
    Compiled m { m with arena := m.arena.modify f.scope (·.append i) } ∧
      Compiling { m with arena := m.arena.modify f.scope (·.append i) }
        ({ f with code := f.code ++ [i] } :: fs) := by
  obtain ⟨r, hr, hpush, ho⟩ := hm.root
  obtain ⟨⟨s, hs, hp, hshares, hopen, hcode⟩, hroot, hlt, hfs⟩ := hm.framed
  have hne : rootScope ≠ f.scope := Nat.ne_of_lt hroot
  have hE : m.arena.Extends (m.arena.modify f.scope (·.append i)) := by
    refine .modify _ _ _ fun s' hs' => ?_
    cases hs.symm.trans hs'
    exact ⟨rfl, fun hc => (by rw [hopen] at hc; cases hc), rfl, rfl⟩
  have hT : (m.arena.modify f.scope (·.append i)).Tree :=
    (Arena.Alike.modify m.arena f.scope (·.append i)
      fun s _ => ⟨rfl, rfl, fun h => h, fun k hk => Or.inl hk⟩).tree hm.tree
  have hr' : (m.arena.modify f.scope (·.append i)).get? rootScope = some r := by
    rw [Arena.get?_modify, if_neg hne, hr]
  have hs' : (m.arena.modify f.scope (·.append i)).get? f.scope = some (s.append i) := by
    rw [Arena.get?_modify, if_pos rfl, hs]
    rfl
  have hcode' : (s.append i).code.toList = f.code ++ [i] := by
    rw [← hcode]
    exact CodeBlock.toList_push ..
  exact ⟨⟨hE, fun _ => rfl, rfl⟩, hT, hm.running, ⟨r, hr', hpush, ho⟩,
    ⟨s.append i, hs', hp, hshares, hopen, hcode'⟩, hroot, hlt,
    hfs.modify fun g hg => Nat.ne_of_lt (hlt g hg)⟩

/-- **A token that is no delimiter goes into the innermost frame.** -/
theorem atom {f : Frame} {fs : List Frame} (hm : Compiling m (f :: fs)) {t : Token} {x : Atom}
    (ht : Literal.ofToken t = .atom x) :
    (Context.top.compileToken t).Ends m
      (fun jobs m' => jobs = [] ∧ Compiled m m' ∧ ∃ cell, x.Is m'.arena.owning f.scope cell ∧
        Compiling m' ({ f with code := f.code ++ [⟨some t.location, cell⟩] } :: fs) ∧
        (x.isDouble = false → ∀ k, m.arena.Echoes k → m'.arena.Echoes k))
      fun _ _ => False := by
  have hlinked := hm.target_linked
  have hscope := Context.switchTo_scope .top f.scope
  unfold Context.compileToken
  rw [ht]
  dsimp only
  rw [ends_bind, Context.compileTarget_ends rfl hm.tree, hm.target, innermost_cons, hscope]
  rw [innermost_cons, ← hscope] at hlinked
  have hatom := Context.compileAtom_is hm.tree hlinked (x := x) fun n hn =>
    Literal.number_beq (hn ▸ ht)
  rw [hscope] at hatom
  refine hatom.bind ?_
  rintro cell m₁ ⟨hrest, hG, hx, hechoes⟩
  have hm₁ := hm.grows hG
  rw [← hrest] at hm₁
  obtain ⟨hcompiled, hcompiling⟩ := hm₁.append ⟨some t.location, cell⟩
  obtain ⟨s₁, hs₁, -, -, hopen₁, -⟩ := hm₁.framed.1
  rw [ends_bind, ends_getScope_some hs₁, if_pos hopen₁, ends_bind, ends_modifyScope, ends_pure]
  have hfirst : Compiled m m₁ := ⟨.grows hG, fun _ => hG.stackCells _, hrest⟩
  refine ⟨rfl, hfirst.trans hcompiled, cell, hx.mono (fun _ _ hv => hcompiled.grown.texts hv)
    (fun _ _ hv => hcompiled.grown.numbers hv), hcompiling, fun hplain k hk => ?_⟩
  exact (hechoes hplain k hk).modify _ _ (fun _ => rfl) fun _ => rfl

/-- The innermost block is no longer open, no longer compiled, and known. -/
theorem finish {f : Frame} {fs : List Frame} (hm : Compiling m (f :: fs)) {a₁ a₂ a₃ : Arena}
    (h₁ : a₁ = m.arena.modify rootScope fun r => { r with compileStack := r.compileStack.tail })
    (h₂ : a₂ = a₁.modify f.scope fun s => { s with compiling := false })
    (h₃ : a₃ = a₂.makeKnown f.scope (a₂.chain (innermost fs))) :
    Compiled m { m with arena := a₃ } ∧ Compiling { m with arena := a₃ } fs ∧
      a₃.Finished f (innermost fs) ∧ a₂.get? f.scope = a₃.get? f.scope ∧
      ∀ k, m.arena.Echoes k → a₃.Echoes k := by
  have hT := hm.tree
  obtain ⟨r, hr, hpush, ho⟩ := hm.root
  obtain ⟨⟨s, hs, hp, hshares, hopen, hcode⟩, hroot, hlt, hfs⟩ := hm.framed
  have hne : rootScope ≠ f.scope := Nat.ne_of_lt hroot
  have hr₁ : a₁.get? rootScope = some { r with compileStack := r.compileStack.tail } := by
    rw [h₁, Arena.get?_modify, if_pos rfl, hr]
    rfl
  have hs₁ : a₁.get? f.scope = some s := by rw [h₁, Arena.get?_modify, if_neg hne.symm, hs]
  have hs₂ : a₂.get? f.scope = some { s with compiling := false } := by
    rw [h₂, Arena.get?_modify, if_pos rfl, hs₁]
    rfl
  have hA₁ : m.arena.Alike a₁ := by
    rw [h₁]
    exact .modify _ _ _ fun s _ => ⟨rfl, rfl, fun h => h, fun k hk =>
      Or.inl (List.mem_of_mem_tail hk)⟩
  have hA₂ : a₁.Alike a₂ := by
    rw [h₂]
    exact .modify _ _ _ fun s _ => ⟨rfl, rfl, fun h => (by cases h), fun k hk => Or.inl hk⟩
  have hA := hA₁.trans hA₂
  have hlinked : a₂.Linked f.scope := hA.linked_iff.mpr hm.target_linked
  have hE₁ : m.arena.Extends a₁ := by
    rw [h₁]
    exact .modify _ _ _ fun _ _ => ⟨rfl, fun hc => ⟨rfl, hc⟩, rfl, rfl⟩
  have hE₂ : a₁.Extends a₂ := by
    rw [h₂]
    exact .modify _ _ _ fun _ _ => ⟨rfl, fun _ => ⟨rfl, rfl⟩, rfl, rfl⟩
  have hE₃ : a₂.Extends a₃ := h₃ ▸ .makeKnown ..
  have hT₃ : a₃.Tree := h₃ ▸ (hA.tree hT).makeKnown hs₂ hlinked hp rfl hne.symm
  have hget₃ (k : ScopeId) : a₃.get? k = a₂.get? k := by rw [h₃]; rfl
  refine ⟨⟨(hE₁.trans hE₂).trans hE₃, fun _ => ?_, rfl⟩, ⟨hT₃, hm.running,
    ⟨{ r with compileStack := r.compileStack.tail }, ?_, hpush, ?_⟩, ?_⟩, ?_, (hget₃ _).symm,
    fun k hk => ?_⟩
  · rw [h₃, h₂, h₁]
    rfl
  · rw [hget₃, h₂, Arena.get?_modify, if_neg hne]
    exact hr₁
  · exact (congrArg List.tail ho)
  · refine hfs.mono fun g hg u hu => ⟨u, ?_, rfl, rfl, rfl, rfl⟩
    have hgroot : g.scope ≠ rootScope := Nat.ne_of_gt (hfs.mem_gt hg)
    rw [hget₃, h₂, Arena.get?_modify, if_neg (Nat.ne_of_lt (hlt g hg)), h₁, Arena.get?_modify,
      if_neg hgroot]
    exact hu
  · refine ⟨_, (hget₃ _).trans hs₂, hp, hshares, rfl, hcode, ?_⟩
    rw [h₃, Arena.mem_scopesKnowing_makeKnown]
    exact Or.inr ⟨rfl, (hA.tree hT).mem_chain ((hA.tree hT).linked_parent hlinked hs₂ hp)⟩
  · have hk₁ : a₁.Echoes k := h₁ ▸ hk.modify _ _ (fun _ => rfl) fun _ => rfl
    have hk₂ : a₂.Echoes k := h₂ ▸ hk₁.modify _ _ (fun _ => rfl) fun _ => rfl
    rw [h₃]
    exact hk₂.of_tables (fun _ _ => rfl) fun _ _ => rfl

/-- Finishing the innermost block: it goes into the frame around it, or is to be pushed. -/
theorem finished {f : Frame} {fs : List Frame} (hm : Compiling m (f :: fs)) (location : Location) :
    (Context.top.finishBlock f.kind location).Ends m
      (fun result m' => Compiled m m' ∧ m'.arena.Finished f (innermost fs) ∧ result.1 = f.scope ∧
        match fs with
        | [] => result.2 = some rootScope ∧ Compiling m' [] ∧
          ∀ k, m.arena.Echoes k → m'.arena.Echoes k
        | g :: gs => result.2 = none ∧
          Compiling m' ({ g with code := g.code ++ [⟨some location, .block f.scope⟩] } :: gs))
      fun _ _ => False := by
  have hT := hm.tree
  obtain ⟨r, hr, hpush, ho⟩ := hm.root
  obtain ⟨⟨s, hs, hp, hshares, hopen, hcode⟩, hroot, hlt, hfs⟩ := hm.framed
  unfold Context.finishBlock
  show (getScope rootScope >>= _).Ends m _ _
  rw [ends_bind, ends_getScope_some hr, ho, ends_bind, ends_ofOption]
  refine ⟨fun child hchild => ?_, fun hnone => (by cases hnone)⟩
  cases hchild
  rw [ends_bind, ends_getScope_some hs, if_neg (by simp [hshares]), ends_bind, ends_modifyScope,
    ends_bind, ends_modifyScope, ends_bind]
  dsimp only
  generalize h₁ : m.arena.modify Context.top.process
    (fun r => { r with compileStack := r.compileStack.tail }) = a₁
  generalize h₂ : a₁.modify f.scope (fun s => { s with compiling := false }) = a₂
  obtain ⟨hcompiled, hcompiling, hfinished, hget, hechoes⟩ := hm.finish h₁.symm h₂.symm rfl
  obtain ⟨s₂, hs₂, hp₂, -⟩ := id hfinished
  rw [← hget] at hs₂
  rw [ends_getScope_some hs₂, hp₂, Option.getD_some, ends_bind, ends_registerBlock hs₂ hp₂]
  dsimp only
  generalize a₂.makeKnown f.scope (a₂.chain (innermost fs)) = a₃
    at hcompiled hcompiling hfinished hechoes
  obtain ⟨t, ht⟩ := hcompiling.target_live
  rw [ends_bind, ends_getScope_some ht]
  cases fs with
  | nil =>
    obtain ⟨r₃, hr₃, -, hc₃⟩ := hcompiling.tree.root
    cases ht.symm.trans hr₃
    rw [hc₃, if_neg (by decide), ends_pure]
    exact ⟨hcompiled, hfinished, rfl, rfl, hcompiling, hechoes⟩
  | cons g gs =>
    obtain ⟨⟨u, hu, -, -, hou, -⟩, -⟩ := hcompiling.framed
    cases ht.symm.trans hu
    rw [hou, if_pos rfl, ends_bind, ends_modifyScope, ends_pure]
    obtain ⟨hcompiled', hcompiling'⟩ := hcompiling.append ⟨some location, .block f.scope⟩
    exact ⟨hcompiled.trans hcompiled', hcompiled'.grown.finished hfinished, rfl, rfl, hcompiling'⟩

/-- **A close makes the innermost frame an instruction of the one around it.** -/
theorem closed {f g : Frame} {gs : List Frame} (hm : Compiling m (f :: g :: gs)) {t : Token}
    (ht : Literal.ofToken t = .blockClose f.kind) :
    (Context.top.compileToken t).Ends m
      (fun jobs m' => jobs = [] ∧ Compiled m m' ∧ m'.arena.Finished f g.scope ∧
        Compiling m' ({ g with code := g.code ++ [⟨some t.location, .block f.scope⟩] } :: gs))
      fun _ _ => False := by
  unfold Context.compileToken
  rw [ht]
  dsimp only
  rw [Context.closeBlock, ends_bind, ends_bind]
  refine (hm.finished t.location).mono ?_ fun _ _ h => h
  rintro ⟨child, parent⟩ m' ⟨hcompiled, hfinished, rfl, rfl, hcompiling⟩
  rw [ends_pure, ends_pure]
  exact ⟨rfl, hcompiled, hfinished, hcompiling⟩

/-- **The close of the last open block pushes it.** No other stack changes. -/
theorem closedLast {f : Frame} (hm : Compiling m [f]) {t : Token}
    (ht : Literal.ofToken t = .blockClose f.kind) :
    (Context.top.compileToken t).Ends m
      (fun jobs m' => jobs = [] ∧ m.arena.Extends m'.arena ∧ m' = { m with arena := m'.arena } ∧
        m'.arena.Finished f rootScope ∧ Compiling m' [] ∧
        (∃ r, m.arena.get? rootScope = some r ∧ ∀ σ, σ ≤ m.arena.lastStack →
          m'.arena.stackCells σ =
            if σ = r.stack then .block f.scope :: m.arena.stackCells σ else m.arena.stackCells σ) ∧
        ∀ k, m.arena.Echoes k → m'.arena.Echoes k)
      fun _ _ => False := by
  unfold Context.compileToken
  rw [ht]
  dsimp only
  rw [Context.closeBlock, ends_bind, ends_bind]
  refine (hm.finished t.location).mono ?_ fun _ _ h => h
  rintro ⟨child, parent⟩ m' ⟨hcompiled, hfinished, rfl, rfl, hcompiling, hechoes⟩
  obtain ⟨r, hr, -⟩ := hm.root
  obtain ⟨r', hr', hpush, ho⟩ := hcompiling.root
  obtain ⟨r'', hr'', hfixed, -⟩ := hcompiled.grown.get? hr
  cases hr'.symm.trans hr''
  have hstack : r'.stack = r.stack := Scope.eq_of_fixed (·.stack) (fun _ => rfl) hfixed
  dsimp only
  rw [Context.ends_pushCell_top hr' hpush, ends_pure, hstack]
  refine ⟨rfl, hcompiled.grown.trans (.modifyStack ..), ?_, hfinished,
    ⟨(Arena.Still.modifyStack ..).tree hcompiling.tree, hcompiling.running, ⟨r', hr', hpush, ho⟩,
      trivial⟩, ⟨r, hr, fun σ hσ => ?_⟩, fun k hk => ?_⟩
  · rw [hcompiled.rest]
  · rw [Arena.stackCells_pushCell, hcompiled.stackCells hσ]
    by_cases he : σ = r.stack
    · rw [if_pos he, if_pos he, ← he, hcompiled.stackCells hσ]
    · rw [if_neg he, if_neg he]
  · exact (hechoes k hk).of_tables (fun _ _ => rfl) fun _ _ => rfl

/-- **A close that does not match fails, and nothing changes.** -/
theorem unbalanced (hm : Compiling m frames) {t : Token} {kind : BlockKind}
    (ht : Literal.ofToken t = .blockClose kind) (hkind : (frames.map (·.kind)).head? ≠ some kind) :
    (Context.top.compileToken t).Ends m (fun _ _ => False)
      fun e m' => m' = m ∧ e.kind = .unbalancedBlock ∧ e.location = none := by
  obtain ⟨r, hr, -, ho⟩ := hm.root
  unfold Context.compileToken
  rw [ht]
  dsimp only
  rw [Context.closeBlock, ends_bind, ends_bind, Context.finishBlock]
  show (getScope rootScope >>= _).Ends m _ _
  rw [ends_bind, ends_getScope_some hr, ho]
  cases frames with
  | nil => exact ⟨rfl, rfl, rfl⟩
  | cons f fs =>
    obtain ⟨⟨s, hs, -, hshares, -⟩, -⟩ := hm.framed
    rw [ends_bind, ends_ofOption]
    refine ⟨fun child hchild => ?_, fun hnone => (by cases hnone)⟩
    cases hchild
    rw [ends_bind, ends_getScope_some hs]
    have hcross : (s.sharesStack != kind.shares) = true := by
      rw [hshares]
      cases hf : f.kind <;> cases kind <;> simp_all [BlockKind.shares]
    rw [if_pos hcross]
    exact ⟨rfl, rfl, rfl⟩

end Compiling

/-! ## 4. Token after token -/

/-- The top level executes the tokens one after the other, all end well, and this is the machine
they leave. -/
def Executes (ts : List Token) (m m' : Machine) : Prop :=
  ∀ (rest : List Job) (n : Nat),
    Thread.steps (ts.length + n) { agenda := ts.map (.token .top) ++ rest } m =
      Thread.steps n { agenda := rest } m'

/-- What a token does in a process that is not told to stop. -/
theorem Job.ends_token {c : Context} {m : Machine} (hrun : c.isStopped m = false) {t : Token}
    {Q : List Job → Machine → Prop} {E : Failure → Machine → Prop} :
    (Job.start (.token c t)).Ends m Q E ↔
      (c.compileToken t).Ends m (fun jobs m' => Q (Job.located t.location jobs) m')
        fun e m' => E (e.orAt t.location) m' := by
  show (c.checkRunning >>= fun _ => locating t.location (c.compileToken t) >>= fun jobs =>
    pure (Job.located t.location jobs)).Ends m Q E ↔ _
  rw [ends_bind, Context.checkRunning, ends_bind, ends_get, hrun, if_neg (by decide), ends_pure,
    ends_bind, ends_locating]
  exact Iff.rfl

namespace Executes

variable {m m₁ m₂ m₃ : Machine}

theorem nil (m : Machine) : Executes [] m m := fun rest n => by
  simp

theorem trans {ts us : List Token} (h : Executes ts m₁ m₂) (h' : Executes us m₂ m₃) :
    Executes (ts ++ us) m₁ m₃ := fun rest n => by
  have hfirst := h (us.map (.token .top) ++ rest) (us.length + n)
  rw [h' rest n] at hfirst
  rw [List.length_append, List.map_append, List.append_assoc, Nat.add_assoc]
  exact hfirst

/-- One token that leaves nothing to do. -/
theorem single {t : Token} (hrun : Context.top.isStopped m = false)
    (h : (Context.top.compileToken t).Ends m (fun jobs m' => jobs = [] ∧ m' = m₁) fun _ _ => False) :
    Executes [t] m m₁ := fun rest n => by
  have hjob : (Job.start (.token .top t)).Ends m (fun jobs m' => jobs = [] ∧ m' = m₁)
      fun _ _ => False := by
    rw [Job.ends_token hrun]
    refine h.mono ?_ fun _ _ h => h
    rintro jobs m' ⟨rfl, rfl⟩
    exact ⟨rfl, rfl⟩
  obtain ⟨jobs, m', hstart, rfl, rfl⟩ := hjob.run_eq_ok
  rw [show [t].length + n = n + 1 from Nat.add_comm 1 n, Thread.steps_succ]
  simp [Thread.step, Thread.isBlocked, Job.isBlocked, Thread.perform, hstart, Job.before]

end Executes

/-! ## 5. Scripts -/

/-- **The tokens of a script become code that spells it**, in the innermost block. -/
theorem Script.compiles (script : Script) {m : Machine} {f : Frame} {fs : List Frame}
    (hm : Compiling m (f :: fs)) :
    ∃ m' code, Executes script.tokens m m' ∧ Compiled m m' ∧
      Compiling m' ({ f with code := f.code ++ code } :: fs) ∧
      script.Spells m'.arena.owning m'.arena f.scope code := by
  induction script generalizing m f fs with
  | nil => exact ⟨m, [], .nil m, .refl m, by simpa using hm, rfl⟩
  | atom t x ht rest ih =>
    obtain ⟨jobs, m₁, hrun, rfl, hcompiled, cell, hx, hm₁, -⟩ := (hm.atom ht).run_eq_ok
    obtain ⟨m₂, code, hexec, hcompiled', hm₂, hspells⟩ := ih hm₁
    refine ⟨m₂, ⟨some t.location, cell⟩ :: code, ?_, hcompiled.trans hcompiled', ?_, cell, code, rfl,
      ?_, hspells⟩
    · exact .trans (.single hm.running (.of_run hrun)) hexec
    · simpa using hm₂
    · exact hx.mono (fun _ _ hv => hcompiled'.grown.texts hv)
        fun _ _ hv => hcompiled'.grown.numbers hv
  | block kind opening closing ho hc body rest ihb ihr =>
    obtain ⟨jobs, m₁, hrun, rfl, hcompiled₁, hm₁, -⟩ := (hm.opened ho).run_eq_ok
    obtain ⟨m₂, inner, hexec₂, hcompiled₂, hm₂, hspells₂⟩ := ihb hm₁
    obtain ⟨jobs, m₃, hrun₃, rfl, hcompiled₃, hfinished, hm₃⟩ := (hm₂.closed hc).run_eq_ok
    obtain ⟨m₄, code, hexec₄, hcompiled₄, hm₄, hspells₄⟩ := ihr hm₃
    obtain ⟨s, hs, hp, hshares, hclosed, hcode, hknown⟩ := hcompiled₄.grown.finished hfinished
    have hinner := (hcompiled₃.grown.trans hcompiled₄.grown).spells hspells₂
    refine ⟨m₄, ⟨some closing.location, .block (m.arena.lastScope + 1)⟩ :: code, ?_,
      ((hcompiled₁.trans hcompiled₂).trans hcompiled₃).trans hcompiled₄, ?_, _, s, code, rfl,
      Arena.owning_block.mpr hknown, hs, hp, hshares, hclosed, ?_, hspells₄⟩
    · exact .trans (.trans (.single hm.running (.of_run hrun)) hexec₂)
        (.trans (.single hm₂.running (.of_run hrun₃)) hexec₄)
    · simpa using hm₄
    · rw [hcode]
      exact hinner

/-- **Tokens that close what is open leave open what they say.** -/
theorem Compiling.tracks {m : Machine} {frames : List Frame} (hm : Compiling m frames)
    {ts : List Token} (hts : Nests (frames.map (·.kind)) ts) :
    ∃ m' frames', Executes ts m m' ∧ Compiling m' frames' ∧
      frames'.map (·.kind) = openKinds (frames.map (·.kind)) ts := by
  induction ts generalizing m frames with
  | nil => exact ⟨m, frames, .nil m, hm, rfl⟩
  | cons t ts ih =>
    rw [Nests] at hts
    rw [openKinds]
    -- one token that ends well, and the others after it
    have hgo {m₁ : Machine} {frames₁ : List Frame} {kinds : List BlockKind}
        (hrun : (Context.top.compileToken t).run m = .ok [] m₁) (hm₁ : Compiling m₁ frames₁)
        (hkinds : frames₁.map (·.kind) = kinds) (hrest : Nests kinds ts) :
        ∃ m' frames', Executes (t :: ts) m m' ∧ Compiling m' frames' ∧
          frames'.map (·.kind) = openKinds kinds ts := by
      subst hkinds
      obtain ⟨m₂, frames₂, hexec, hm₂, hkinds⟩ := ih hm₁ hrest
      exact ⟨m₂, frames₂, .trans (.single hm.running (.of_run hrun)) hexec, hm₂, hkinds⟩
    split at hts
    · rename_i kind ht
      obtain ⟨jobs, m₁, hrun, rfl, -, hm₁, -⟩ := (hm.opened ht).run_eq_ok
      exact hgo hrun hm₁ rfl hts
    · rename_i kind ht
      obtain ⟨hkind, hts⟩ := hts
      cases frames with
      | nil => cases hkind
      | cons f fs =>
        cases hkind
        cases fs with
        | nil =>
          obtain ⟨jobs, m₁, hrun, rfl, -, -, -, hm₁, -⟩ := (hm.closedLast ht).run_eq_ok
          exact hgo hrun hm₁ rfl hts
        | cons g gs =>
          obtain ⟨jobs, m₁, hrun, rfl, -, -, hm₁⟩ := (hm.closed ht).run_eq_ok
          exact hgo hrun hm₁ rfl hts
    · rename_i x ht
      obtain ⟨hne, hts⟩ := hts
      cases frames with
      | nil => exact absurd rfl hne
      | cons f fs =>
        obtain ⟨jobs, m₁, hrun, rfl, -, cell, -, hm₁, -⟩ := (hm.atom ht).run_eq_ok
        exact hgo hrun hm₁ rfl hts

end ScopeStack
