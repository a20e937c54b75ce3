import ScopeStack.Proofs.Handles
import ScopeStack.Proofs.Isolation
import ScopeStack.Proofs.Views

/-!
# Stack words on the stack that pops fall through to

The values a scope can pop may lie on any number of stacks: its own, then those of its callers. A
sharing block has the stack of its caller and falls through wherever the caller would. A pop takes
the cell on top of all of these, wherever it lies, and a push interns the value once more and puts
it on the scope's own stack. Stack words are made of pops and pushes, so what they do to the values
is told by their signatures.

* `Starts.prepareCall_stackChain`: what pops fall through to, call by call.
* `Arena.valueOf_kept`: what a cell stands for is the same when payloads come and cells move.
* `Sees`: a context sees values on its effective stack. `Sees.pop`, `Sees.peek`, `Sees.push`.
* `Shape`, `shapes`: what stack words take and leave, as their signatures say.
* `Ensemble.Reachable.stack_words`: **stack words act on the effective stack as their signatures
  say.**
-/

namespace ScopeStack

open ScopeStack.Action

/-! ## 1. The effective stack, call by call -/

/-- What pops fall through to is the business of the scopes. -/
theorem Context.stackChain_of_scopes {a b : Arena} (hscopes : b.scopes = a.scopes) (c : Context) :
    c.stackChain b = c.stackChain a := by
  have hget (k : ScopeId) : b.get? k = a.get? k := by rw [Arena.get?, Arena.get?, hscopes]
  have hown (n : Nat) (k : ScopeId) : b.ownStacksUpTo n k = a.ownStacksUpTo n k := by
    induction n generalizing k with
    | zero => rfl
    | succ n ih => simp only [Arena.ownStacksUpTo, hget, ih]
  have hsize : b.size = a.size := by rw [Arena.size, Arena.size, hscopes]
  unfold stackChain
  rw [hsize]
  cases c.base with
  | none => rfl
  | some base => rw [Option.map_some, Option.map_some, hown]

/-- **A sharing block falls through wherever its caller does; an isolated one has a stack of its own
on top of that.** -/
theorem Starts.prepareCall_stackChain {m : Machine} {p : ScopeId} {c : Context}
    (hS : Starts m.arena p c) (h : Handle) :
    (c.prepareCall h).Ends m (fun r m' => r.1.stackChain m'.arena =
      if r.2.shares then c.stackChain m.arena else r.2.stack :: c.stackChain m.arena)
      fun _ _ => True := by
  have hm : Edited False (fun _ => False) c m.arena m := .refl
  unfold Context.prepareCall
  rw [ends_bind, ends_inArena]
  refine ⟨fun block _ => ?_, fun _ _ => trivial⟩
  rw [ends_bind, ends_getScope]
  refine ⟨fun s hs => ?_, fun _ => trivial⟩
  dsimp only
  split
  · trivial
  split
  · unfold Context.sharedStacks
    split
    · rename_i σ rest hstacks
      rw [pure_bind, ends_pure, if_pos rfl, Context.stackChain, Context.stackChain, hstacks]
    · rename_i hbare
      obtain ⟨hscope, hbase⟩ := hS.placed.bare hbare
      rw [bind_assoc, ends_bind, ends_getScope]
      refine ⟨fun t ht => ?_, fun _ => trivial⟩
      rw [pure_bind, ends_pure, (hS.shared_of_bare hm hbare ht).1, if_pos rfl,
        hS.placed.stacks_eq hS.regular hS.head (hscope ▸ ht), hbare, hbase]
      rfl
  · rw [ends_bind, ends_get, ends_bind, ends_modifyArena, ends_pure]
    show Context.stackChain
      { c with scope := block, callStacks := m.arena.newStack.1 :: c.callStacks }
      m.arena.newStack.2 = m.arena.newStack.1 :: c.stackChain m.arena
    rw [Context.stackChain_of_scopes (show m.arena.newStack.2.scopes = m.arena.scopes from rfl)]
    rfl

/-! ## 2. What a cell stands for -/

namespace Arena

variable {a b : Arena} {k : ScopeId} {cell : Cell} {v : Value}

/-- Where a scope resolves what it resolved, a cell stands for the same. -/
theorem valueOf_kept (htext : ∀ h x, a.resolve String k h = .ok x → b.resolve String k h = .ok x)
    (hnumber : ∀ h n, a.resolve Number k h = .ok n → b.resolve Number k h = .ok n)
    (hblock : ∀ h, b.resolveBlock k h = a.resolveBlock k h) (hv : a.valueOf k cell = .ok v) :
    b.valueOf k cell = .ok v := by
  have hmap {α : Type} {x y : Except Fault α} {g : α → Value} (hxy : ∀ z, x = .ok z → y = .ok z)
      (hx : x.map g = .ok v) : y.map g = .ok v := by
    cases x with
    | error f => cases hx
    | ok z => rw [hxy z rfl, hx]
  cases cell with
  | bool | int => exact hv
  | big h | double h => exact hmap (hnumber h) hv
  | str h | word h => exact hmap (htext h) hv
  | block h =>
    rw [valueOf, hblock]
    exact hv

/-- What a cell stands for does not lie on a stack. -/
theorem valueOf_modifyStack (a : Arena) (σ : StackId) (f : CellStack → CellStack) :
    (a.modifyStack σ f).valueOf k cell = a.valueOf k cell := by
  have hchain (j : ScopeId) : (a.modifyStack σ f).chain j = a.chain j :=
    chain_of_scopes (show (a.modifyStack σ f).scopes = a.scopes from rfl) j
  have hresolve {α : Type} [BEq α] [Interned α] (h : Handle) :
      (a.modifyStack σ f).resolve α k h = a.resolve α k h :=
    resolve_congr (hchain k) rfl
  have hblock (h : Handle) : (a.modifyStack σ f).resolveBlock k h = a.resolveBlock k h := by
    unfold resolveBlock
    rw [hchain]
    rfl
  cases cell with
  | bool | int => rfl
  | big h | double h => rw [valueOf, valueOf, hresolve]
  | str h | word h => rw [valueOf, valueOf, hresolve]
  | block h => rw [valueOf, valueOf, hblock]

/-- A cell that is no boolean and no machine integer resolves only from a scope that is there. -/
theorem get?_of_valueOf (hA : a.Acyclic) (hv : a.valueOf k cell = .ok v)
    (hbool : ∀ b, v ≠ .bool b) (hint : ∀ n, v ≠ .int n) : ∃ s, a.get? k = some s := by
  cases hs : a.get? k with
  | some s => exact ⟨s, rfl⟩
  | none =>
    have hresolve {α : Type} [BEq α] [Interned α] (h : Handle) :
        a.resolve α k h = .error (.notInterned h) := by
      refine resolve_eq_error ?_
      rw [hA.chain_of_none hs]
      rfl
    cases cell with
    | bool b => exact absurd (Except.ok.inj hv).symm (hbool b)
    | int n => exact absurd (Except.ok.inj hv).symm (hint n)
    | big h | double h =>
      rw [valueOf, hresolve] at hv
      cases hv
    | str h | word h =>
      rw [valueOf, hresolve] at hv
      cases hv
    | block h =>
      rw [valueOf, resolveBlock] at hv
      simp only [hA.chain_of_none hs, List.any_nil, Bool.and_false, Bool.false_eq_true,
        if_false] at hv
      cases hv

/-- Payloads that come leave push sessions alone. -/
theorem Grows.pushTarget (hG : a.Grows b) {t : Scope} (ht : b.get? k = some t) :
    ∃ s, a.get? k = some s ∧ t.pushTarget = s.pushTarget := by
  obtain ⟨s, hs, -⟩ := hG.still.get? ht
  obtain ⟨t', ht', hts, -⟩ := hG.get? hs
  cases ht.symm.trans ht'
  exact ⟨s, hs, by rw [hts]⟩

/-- A cell of the scope can come to stand for the value: some cell does so already, or the scope is
there to intern it. -/
structure Admits (a : Arena) (k : ScopeId) (v : Value) : Prop where
  plain : v.isDouble = false
  cell : (∃ cell, a.valueOf k cell = .ok v) ∨ ((∃ s, a.get? k = some s) ∧ ∀ h, v ≠ .block h)

theorem Admits.live (h : a.Admits k v) (hA : a.Acyclic) (hbool : ∀ b, v ≠ .bool b)
    (hint : ∀ n, v ≠ .int n) : ∃ s, a.get? k = some s := by
  rcases h.cell with ⟨cell, hcell⟩ | ⟨hs, -⟩
  · exact get?_of_valueOf hA hcell hbool hint
  · exact hs

end Arena

/-! ## 3. Where a context stays placed -/

section Placing

variable {a b : Arena} {p : ScopeId} {c : Context}

theorem Starts.next (hS : Starts a p c) (hR : b.Regular) (hD : a.Drifts b) : Starts b p c :=
  ⟨hR, hD.head hS.head, hS.placed.drifts hS.regular.tree hD hS.head⟩

/-- Payloads come. -/
theorem Starts.grows (hS : Starts a p c) (hG : a.Grows b) :
    Starts b p c ∧ c.effective b = c.effective a := by
  have hR := hS.regular.refills (.grows hG)
  have hD : a.Drifts b := .refills (.grows hG)
  refine ⟨hS.next hR hD, ?_⟩
  rw [Context.effective, Context.effective, hS.stackChain_drifts hR hD]
  exact Arena.flatMap_congr fun σ _ => hG.stackCells σ

/-- Cells come and go. -/
theorem Starts.modifyStack (hS : Starts a p c) (σ : StackId) (f : CellStack → CellStack) :
    Starts (a.modifyStack σ f) p c ∧ c.stackChain (a.modifyStack σ f) = c.stackChain a := by
  have hR : (a.modifyStack σ f).Regular :=
    hS.regular.of_scopes (fun _ => rfl) rfl rfl (Nat.le_refl _)
  have hD : a.Drifts (a.modifyStack σ f) :=
    .of_alike (Arena.Still.modifyStack ..).alike (Nat.le_refl _) fun k s t hs ht => by
      cases hs.symm.trans ht
      exact ⟨rfl, rfl⟩
  exact ⟨hS.next hR hD, hS.stackChain_drifts hR hD⟩

/-- A pop looks through the stacks of the context, and no scope of it is missing. -/
theorem Starts.top? (hS : Starts a p c) : c.top? a = .ok (a.topOf? (c.stackChain a)) := by
  have hfound : ∃ r, c.top? a = .ok r := by
    unfold Context.top?
    cases a.topOf? c.callStacks with
    | some top => exact ⟨_, rfl⟩
    | none =>
      rcases hS.placed.base with hb | ⟨hb, -⟩
      · rw [hb]
        exact ⟨_, rfl⟩
      · obtain ⟨s, hs, hhead⟩ := hS.head.get? hS.regular.tree
        have hend : s.parent = none ∨ s.spawned = true := by
          rcases hhead with rfl | hrun
          · obtain ⟨r, hr, hparent, -⟩ := hS.regular.tree.root
            cases hs.symm.trans hr
            exact Or.inl hparent
          · exact Or.inr (hS.regular.running hs hrun).2.1
        rw [hb]
        dsimp only
        rw [Arena.ownTopUpTo, hs]
        dsimp only
        cases a.stackCells s.stack with
        | cons cell cells => exact ⟨_, rfl⟩
        | nil =>
          rcases hend with hp | hsp
          · rw [hp]
            exact ⟨_, rfl⟩
          · rw [hsp]
            cases s.parent <;> exact ⟨_, rfl⟩
  obtain ⟨r, hr⟩ := hfound
  rw [hr, Context.top?_stacks hr]

/-- Where the context has a stack, that is the one it works on. -/
theorem Context.Owns.ends_ownStack {m : Machine} {σ : StackId} (h : c.Owns m.arena σ)
    {Q : StackId → Machine → Prop} {E : Failure → Machine → Prop} : c.ownStack.Ends m Q E ↔ Q σ m := by
  unfold Context.ownStack
  rcases h with hhead | ⟨hnil, s, hs, rfl⟩
  · obtain ⟨rest, hstacks⟩ := List.head?_eq_some_iff.mp hhead
    rw [hstacks]
    exact Iff.rfl
  · rw [hnil]
    dsimp only
    rw [ends_bind, ends_getScope_some hs]
    exact Iff.rfl

/-- Where code may run, there is an innermost stack, and it comes first. -/
theorem Starts.exists_owns (hS : Starts a p c) :
    ∃ σ rest, c.stackChain a = σ :: rest ∧ c.Owns a σ := by
  have hown : ∃ σ, c.Owns a σ := by
    cases hstacks : c.callStacks with
    | cons σ rest => exact ⟨σ, Or.inl (by rw [hstacks]; rfl)⟩
    | nil =>
      obtain ⟨hscope, -⟩ := hS.placed.bare hstacks
      obtain ⟨s, hs, -⟩ := hS.head.get? hS.regular.tree
      exact ⟨s.stack, Or.inr ⟨hstacks, s, hscope ▸ hs, rfl⟩⟩
  obtain ⟨σ, howns⟩ := hown
  obtain ⟨rest, hchain⟩ := hS.owns hS.regular (.refl a) howns
  exact ⟨σ, rest, hchain, howns⟩

/-- A pop takes the top cell, wherever it lies, and gives what it stands for. -/
theorem Starts.pop_run {m : Machine} {σ : StackId} {cell : Cell} {v : Value}
    (hS : Starts m.arena p c) (htop : m.arena.topOf? (c.stackChain m.arena) = some (σ, cell))
    (hv : m.arena.valueOf c.scope cell = .ok v) :
    c.pop.run m = .ok v { m with arena := m.arena.popCell σ } := by
  have hends : c.pop.Ends m
      (fun w m' => w = v ∧ m' = { m with arena := m.arena.popCell σ }) fun _ _ => False := by
    unfold Context.pop Context.popCell Context.topCell
    rw [ends_bind, ends_bind, ends_bind, ends_inArena_ok hS.top?, htop, ofOption, ends_pure]
    dsimp only
    rw [ends_bind, ends_modifyArena, ends_pure,
      Context.ends_resolveCell_of_valueOf ((Arena.valueOf_modifyStack ..).trans hv)]
    exact ⟨rfl, rfl⟩
  obtain ⟨w, m', hrun, rfl, rfl⟩ := hends.run_eq_ok
  exact hrun

/-- Without a push session, pushes go to the innermost stack. -/
theorem Starts.ends_push {m : Machine} {v : Value} (hS : Starts m.arena p c)
    (hsession : ∀ r, m.arena.get? p = some r → r.pushTarget = none) {Q : Unit → Machine → Prop}
    {E : Failure → Machine → Prop} : (c.push v).Ends m Q E ↔ (c.pushLocal v).Ends m Q E := by
  obtain ⟨s, hs, -⟩ := hS.head.get? hS.regular.tree
  unfold Context.push Context.pushTarget
  rw [hS.placed.process, ends_bind, ends_bind, ends_getScope_some hs, ends_pure, hsession s hs]

/-- A payload is interned in a table of one kind, so what cells of both kinds stand for stays as it was. -/
theorem Context.internCell_stored {α β : Type} [BEq α] [Interned α] [HeldTable α]
    [Arena.GrowingTable α] [BEq β] [Interned β] [ApartTables α β] {m : Machine} {v : Value}
    (hF : m.arena.Forest) (hash : ContentHash → α → Handle) {x : α} (hx : Sharp x)
    (hlive : ∃ s, m.arena.get? c.scope = some s) {f : Handle → Cell}
    (hkept : ∀ (b : Arena) (k : ScopeId),
      (∀ j y, m.arena.resolve α k j = .ok y → b.resolve α k j = .ok y) →
      (∀ j y, m.arena.resolve β k j = .ok y → b.resolve β k j = .ok y) →
      (∀ j, b.resolveBlock k j = m.arena.resolveBlock k j) →
      ∀ cell w, m.arena.valueOf k cell = .ok w → b.valueOf k cell = .ok w)
    (hcell : ∀ (b : Arena) (h : Handle), b.resolve α c.scope h = .ok x →
      b.valueOf c.scope (f h) = .ok v) :
    (Context.internPayload hash c x >>= fun h => (pure (f h) : Action Cell)).Ends m
      (fun cell m' => m' = { m with arena := m'.arena } ∧ m.arena.Grows m'.arena ∧
        (∀ k cell w, m.arena.valueOf k cell = .ok w → m'.arena.valueOf k cell = .ok w) ∧
        m'.arena.valueOf c.scope cell = .ok v)
      fun _ _ => False := by
  have hA := hF.acyclic
  refine (Context.internPayload_stored hF hlive hash x).bind ?_
  rintro h m' ⟨hrest, hS, hapart⟩
  obtain ⟨s, hs⟩ := hlive
  exact ⟨hrest, hS.grows, fun k => hkept m'.arena k (fun j y => hS.resolve_kept hA hx)
    (fun j y hy => (hS.grows.resolve_eq hA (hapart β) k j).trans hy)
    (hS.grows.resolveBlock_eq hA k),
    hcell m'.arena h (hS.resolve_on hA hx (hA.mem_chain_self hs))⟩

/-- **A value is interned**: its cell stands for it, and all other cells stand for what they stood
for, wherever they are looked at. -/
theorem Context.internValue_stored {m : Machine} {v : Value} (hF : m.arena.Forest)
    (hv : m.arena.Admits c.scope v) :
    (c.internValue v).Ends m
      (fun cell m' => m' = { m with arena := m'.arena } ∧ m.arena.Grows m'.arena ∧
        (∀ k cell w, m.arena.valueOf k cell = .ok w → m'.arena.valueOf k cell = .ok w) ∧
        m'.arena.valueOf c.scope cell = .ok v)
      fun _ _ => False := by
  have hA := hF.acyclic
  cases v with
  | bool b => exact ⟨rfl, .refl _, fun _ _ _ hw => hw, rfl⟩
  | int n => exact ⟨rfl, .refl _, fun _ _ _ hw => hw, rfl⟩
  | double x => cases hv.plain
  | block h =>
    rcases hv.cell with ⟨cell, hcell⟩ | ⟨-, hno⟩
    · cases Arena.eq_block_of_valueOf hcell
      exact ⟨rfl, .refl _, fun _ _ _ hw => hw, hcell⟩
    · exact absurd rfl (hno h)
  | big n =>
    refine internCell_stored (β := String) hF (·.number) (sharp_big n)
      (hv.live hA (fun _ h => by cases h) fun _ h => by cases h)
      (fun b k hnumber htext hblock _ _ => Arena.valueOf_kept htext hnumber hblock) fun b h hx => ?_
    rw [Arena.valueOf, hx]
    rfl
  | str text =>
    refine internCell_stored (β := Number) hF (·.text) (sharp_of_lawful text)
      (hv.live hA (fun _ h => by cases h) fun _ h => by cases h)
      (fun b k htext hnumber hblock _ _ => Arena.valueOf_kept htext hnumber hblock) fun b h hx => ?_
    rw [Arena.valueOf, hx]
    rfl
  | word name =>
    refine internCell_stored (β := Number) hF (·.text) (sharp_of_lawful name)
      (hv.live hA (fun _ h => by cases h) fun _ h => by cases h)
      (fun b k htext hnumber hblock _ _ => Arena.valueOf_kept htext hnumber hblock) fun b h hx => ?_
    rw [Arena.valueOf, hx]
    rfl

/-- Where code may run, what it interns it can resolve. -/
theorem Starts.internValue {m : Machine} {v : Value} (hS : Starts m.arena p c)
    (hv : m.arena.Admits c.scope v) :
    (c.internValue v).Ends m
      (fun cell m' => m' = { m with arena := m'.arena } ∧ m.arena.Grows m'.arena ∧
        (∀ cell w, m.arena.valueOf c.scope cell = .ok w → m'.arena.valueOf c.scope cell = .ok w) ∧
        m'.arena.valueOf c.scope cell = .ok v)
      fun _ _ => False := by
  refine (Context.internValue_stored hS.regular.tree.forest hv).mono ?_ fun _ _ hno => hno
  intro cell m' ⟨hrest, hG, hkept, hcell⟩
  exact ⟨hrest, hG, hkept c.scope, hcell⟩

end Placing

/-! ## 4. Pops and pushes -/

/-- The context sees these values on its effective stack, the top first. They are some of the values
of a pool, each of which some cell stands for, and no push session is open. -/
structure Sees (pool : List Value) (p : ScopeId) (c : Context) (m : Machine) (vs : List Value) :
    Prop where
  starts : Starts m.arena p c
  session {r : Scope} : m.arena.get? p = some r → r.pushTarget = none
  cells : m.arena.Reads c.scope (c.effective m.arena) vs
  among {v : Value} : v ∈ vs → v ∈ pool
  known {v : Value} : v ∈ pool → ∃ cell, m.arena.valueOf c.scope cell = .ok v

namespace Sees

variable {pool : List Value} {p : ScopeId} {c : Context} {m : Machine} {v : Value} {vs : List Value}

/-- A stack changes. -/
theorem modifyStack (hm : Sees pool p c m vs) (σ : StackId) (f : CellStack → CellStack)
    {ws : List Value} (hcells : m.arena.Reads c.scope
      ((c.stackChain m.arena).flatMap (m.arena.modifyStack σ f).stackCells) ws)
    (hamong : ∀ v ∈ ws, v ∈ pool) : Sees pool p c { m with arena := m.arena.modifyStack σ f } ws where
  starts := (hm.starts.modifyStack σ f).1
  session := hm.session
  cells := by
    rw [Context.effective, (hm.starts.modifyStack σ f).2]
    exact hcells.mono fun cell _ w hw => (Arena.valueOf_modifyStack ..).trans hw
  among {v} := hamong v
  known hv := by
    obtain ⟨cell, hcell⟩ := hm.known hv
    exact ⟨cell, (Arena.valueOf_modifyStack ..).trans hcell⟩

/-- An empty effective stack has no top. -/
theorem topOf?_nil (hm : Sees pool p c m []) :
    m.arena.topOf? (c.stackChain m.arena) = none := by
  have hcells : c.effective m.arena = [] := List.map_eq_nil_iff.mp hm.cells
  have htop := m.arena.head?_flatMap (c.stackChain m.arena)
  rw [← Context.effective, hcells] at htop
  exact Option.map_eq_none_iff.mp htop.symm

/-- The top of the effective stack lies on one of the stacks, and is gone when it has been popped
there. -/
theorem topOf?_cons (hm : Sees pool p c m (v :: vs)) :
    ∃ σ cell, m.arena.topOf? (c.stackChain m.arena) = some (σ, cell) ∧
      m.arena.valueOf c.scope cell = .ok v ∧
      c.effective m.arena = cell :: c.effective (m.arena.popCell σ) ∧
      Sees pool p c { m with arena := m.arena.popCell σ } vs := by
  have hcells := hm.cells
  cases htop : m.arena.topOf? (c.stackChain m.arena) with
  | none =>
    have hhead := m.arena.head?_flatMap (c.stackChain m.arena)
    rw [htop, Option.map_none, List.head?_eq_none_iff] at hhead
    rw [Context.effective, hhead] at hcells
    cases hcells
  | some top =>
    obtain ⟨σ, cell⟩ := top
    have hpop := Arena.flatMap_popCell hm.starts.stackChain_nodup htop
    rw [Context.effective, hpop, Arena.reads_cons] at hcells
    obtain ⟨w, ws, he, hv, hws⟩ := hcells
    cases he
    refine ⟨σ, cell, rfl, hv, ?_, hm.modifyStack σ _ hws fun w hw =>
      hm.among (List.mem_cons_of_mem _ hw)⟩
    rw [Context.effective, Context.effective, hpop]
    exact congrArg (fun σs => cell :: List.flatMap (m.arena.popCell σ).stackCells σs)
      (hm.starts.modifyStack σ _).2.symm

/-- **A pop takes the top value, and only its cell goes.** -/
theorem pop_cons (hm : Sees pool p c m (v :: vs)) :
    ∃ σ cell, c.pop.run m = .ok v { m with arena := m.arena.popCell σ } ∧
      c.effective m.arena = cell :: c.effective (m.arena.popCell σ) ∧
      Sees pool p c { m with arena := m.arena.popCell σ } vs := by
  obtain ⟨σ, cell, htop, hv, heffective, hm'⟩ := hm.topOf?_cons
  exact ⟨σ, cell, hm.starts.pop_run htop hv, heffective, hm'⟩

theorem pop_nil (hm : Sees pool p c m []) : c.pop.run m = .error ⟨.emptyStack, none⟩ m := by
  have hends : c.pop.Ends m (fun _ _ => False) fun f m' => f = ⟨.emptyStack, none⟩ ∧ m' = m := by
    unfold Context.pop Context.popCell Context.topCell
    rw [ends_bind, ends_bind, ends_bind, ends_inArena_ok hm.starts.top?, hm.topOf?_nil, ofOption,
      ends_fail]
    exact ⟨rfl, rfl⟩
  obtain ⟨f, m', hrun, rfl, rfl⟩ := hends.run_eq_error
  exact hrun

/-- A peek gives the top value and changes nothing. -/
theorem peek_cons (hm : Sees pool p c m (v :: vs)) : c.peek.run m = .ok v m := by
  obtain ⟨σ, cell, htop, hv, -, -⟩ := hm.topOf?_cons
  have hends : c.peek.Ends m (fun w m' => w = v ∧ m' = m) fun _ _ => False := by
    unfold Context.peek Context.topCell
    rw [ends_bind, ends_bind, ends_inArena_ok hm.starts.top?, htop, ofOption, ends_pure,
      Context.ends_resolveCell_of_valueOf hv]
    exact ⟨rfl, rfl⟩
  obtain ⟨w, m', hrun, rfl, rfl⟩ := hends.run_eq_ok
  exact hrun

theorem peek_nil (hm : Sees pool p c m []) : c.peek.run m = .error ⟨.emptyStack, none⟩ m := by
  have hends : c.peek.Ends m (fun _ _ => False) fun f m' => f = ⟨.emptyStack, none⟩ ∧ m' = m := by
    unfold Context.peek Context.topCell
    rw [ends_bind, ends_bind, ends_inArena_ok hm.starts.top?, hm.topOf?_nil, ofOption, ends_fail]
    exact ⟨rfl, rfl⟩
  obtain ⟨f, m', hrun, rfl, rfl⟩ := hends.run_eq_error
  exact hrun

/-- Payloads come. -/
theorem grows (hm : Sees pool p c m vs) {b : Arena} (hG : m.arena.Grows b)
    (hkept : ∀ cell w, m.arena.valueOf c.scope cell = .ok w → b.valueOf c.scope cell = .ok w) :
    Sees pool p c { m with arena := b } vs where
  starts := (hm.starts.grows hG).1
  session ht := by
    obtain ⟨s, hs, hpush⟩ := hG.pushTarget ht
    exact hpush.trans (hm.session hs)
  cells := by
    rw [(hm.starts.grows hG).2]
    exact hm.cells.mono fun cell _ w => hkept cell w
  among := hm.among
  known hv := by
    obtain ⟨cell, hcell⟩ := hm.known hv
    exact ⟨cell, hkept cell _ hcell⟩

/-- **A value of the pool is interned once more**: its cell stands for it, and all other cells stand
for what they stood for. -/
theorem internValue (hm : Sees pool p c m vs) (hv : v ∈ pool) (hplain : v.isDouble = false) :
    (c.internValue v).Ends m
      (fun cell m' => Sees pool p c m' vs ∧ m'.arena.valueOf c.scope cell = .ok v)
      fun _ _ => False := by
  refine (hm.starts.internValue ⟨hplain, Or.inl (hm.known hv)⟩).mono ?_ fun _ _ hno => hno
  rintro cell m' ⟨hrest, hG, hkept, hcell⟩
  refine ⟨?_, hcell⟩
  rw [hrest]
  exact hm.grows hG hkept

/-- **A push puts a value of the pool on top.** -/
theorem push (hm : Sees pool p c m vs) (hv : v ∈ pool) (hplain : v.isDouble = false) :
    (c.push v).Ends m (fun _ m' => Sees pool p c m' (v :: vs)) fun _ _ => False := by
  rw [hm.starts.ends_push fun _ => hm.session]
  unfold Context.pushLocal
  refine (hm.internValue hv hplain).bind ?_
  rintro cell m' ⟨hm', hcell⟩
  obtain ⟨σ, rest, hstacks, howns⟩ := hm'.starts.exists_owns
  rw [ends_bind, howns.ends_ownStack, ends_modifyArena]
  refine hm'.modifyStack σ _ ?_ fun w hw => ?_
  · have hcells := hm'.cells
    have hnodup := hm'.starts.stackChain_nodup
    rw [Context.effective, hstacks, List.flatMap_cons] at hcells
    rw [hstacks] at hnodup ⊢
    have htop := m'.arena.stackCells_pushCell σ σ cell
    rw [if_pos rfl] at htop
    rw [List.flatMap_cons, Arena.flatMap_modifyStack (List.nodup_cons.mp hnodup).1]
    show m'.arena.Reads c.scope ((m'.arena.pushCell σ cell).stackCells σ ++ _) _
    rw [htop]
    exact Arena.reads_cons.mpr ⟨v, vs, rfl, hcell, hcells⟩
  · rcases List.mem_cons.mp hw with rfl | hw
    · exact hv
    · exact hm'.among hw

end Sees

/-! ## 5. Signatures -/

/-- What a word takes and what it leaves, by names, the top last. -/
structure Shape where
  takes : List String
  leaves : List String
deriving DecidableEq

namespace Shape

/-- Read a signature: names, two dashes, names. -/
def ofSignature (signature : String) : Shape :=
  let names := ((signature.toList.splitOn ' ').map String.ofList).filter (· ≠ "")
  ⟨names.takeWhile (· ≠ "--"), (names.dropWhile (· ≠ "--")).tail⟩

/-- The values once the word has taken the top ones, by name, and left what it leaves; the top comes
first. There must be enough of them. -/
def result? (s : Shape) (vs : List Value) : Option (List Value) :=
  if s.takes.length ≤ vs.length then
    let named := s.takes.reverse.zip vs
    some (s.leaves.reverse.filterMap (named.lookup ·) ++ vs.drop s.takes.length)
  else none

end Shape

/-- The words that only move values about, with their names and what they take and leave. -/
def moves : List (String × StackWord × Shape) := [
  ("swap", .swap, ⟨["a", "b"], ["b", "a"]⟩),
  ("dup", .dup, ⟨["value"], ["value", "value"]⟩),
  ("over", .over, ⟨["a", "b"], ["a", "b", "a"]⟩),
  ("rot", .rot, ⟨["a", "b", "c"], ["b", "c", "a"]⟩),
  ("drop", .drop, ⟨["value"], []⟩),
  ("2swap", .swapPairs, ⟨["a", "b", "c", "d"], ["c", "d", "a", "b"]⟩),
  ("2dup", .dupPair, ⟨["a", "b"], ["a", "b", "a", "b"]⟩),
  ("2over", .overPair, ⟨["a", "b", "c", "d"], ["a", "b", "c", "d", "a", "b"]⟩),
  ("2drop", .dropPair, ⟨["a", "b"], []⟩)]

/-- Their signatures say so. -/
theorem moves_signature : ∀ e ∈ moves, ∃ op ∈ Vocabulary.stackWords, op.name = e.1 ∧
    op.effect = .stack e.2.1 ∧ Shape.ofSignature op.signature = e.2.2 := by
  decide +kernel

/-! ## 6. Words that move values about -/

/-- The action ends well and leaves these values to be seen, or it fails for want of values. -/
def Yields (pool : List Value) (p : ScopeId) (c : Context) (x : Action Unit) (m : Machine) :
    Option (List Value) → Prop
  | some ws => x.Ends m (fun _ m' => Sees pool p c m' ws) fun _ _ => False
  | none => x.Ends m (fun _ _ => False) fun f _ => f = ⟨.emptyStack, none⟩

section Words

variable {pool : List Value} {p : ScopeId} {c : Context} {m : Machine} {v : Value} {vs : List Value}
  {r : Option (List Value)}

theorem Sees.yields (hm : Sees pool p c m vs) : Yields pool p c (pure ()) m (some vs) := hm

/-- A pop, and what follows it. -/
theorem Sees.pop_bind (hm : Sees pool p c m vs) {f : Value → Action Unit} (hnil : vs = [] → r = none)
    (hcons : ∀ v ws m', vs = v :: ws → v ∈ pool → Sees pool p c m' ws → Yields pool p c (f v) m' r) :
    Yields pool p c (c.pop >>= f) m r := by
  cases vs with
  | nil =>
    rw [hnil rfl, Yields, ends_bind, Ends, hm.pop_nil]
  | cons v ws =>
    obtain ⟨σ, cell, hrun, -, hm'⟩ := hm.pop_cons
    have h := hcons v ws _ rfl (hm.among List.mem_cons_self) hm'
    cases r with
    | none => exact (ends_bind_of_run hrun).mpr h
    | some ws => exact (ends_bind_of_run hrun).mpr h

/-- A push, and what follows it. -/
theorem Sees.push_bind (hm : Sees pool p c m vs) (hplain : ∀ v ∈ pool, v.isDouble = false)
    (hv : v ∈ pool) {f : Unit → Action Unit}
    (hf : ∀ m', Sees pool p c m' (v :: vs) → Yields pool p c (f ()) m' r) :
    Yields pool p c (c.push v >>= f) m r := by
  have hpush := hm.push hv (hplain v hv)
  cases r with
  | none => exact (hpush.mono (fun _ _ h => h) fun _ _ h => h.elim).bind fun _ m' hm' => hf m' hm'
  | some ws => exact hpush.bind fun _ m' hm' => hf m' hm'

theorem Sees.push_last (hm : Sees pool p c m vs) (hplain : ∀ v ∈ pool, v.isDouble = false)
    (hv : v ∈ pool) : Yields pool p c (c.push v) m (some (v :: vs)) := hm.push hv (hplain v hv)

section Moves

variable (hm : Sees pool p c m vs) (hplain : ∀ v ∈ pool, v.isDouble = false)
include hm hplain

theorem Sees.swap : Yields pool p c (StackWord.swap.perform c) m
    ((Shape.mk ["a", "b"] ["b", "a"]).result? vs) := by
  refine hm.pop_bind (by rintro rfl; rfl) ?_
  rintro b _ _ rfl hb hm
  refine hm.pop_bind (by rintro rfl; rfl) ?_
  rintro a _ _ rfl ha hm
  exact hm.push_bind hplain hb fun _ hm => hm.push_last hplain ha

theorem Sees.dup : Yields pool p c (StackWord.dup.perform c) m
    ((Shape.mk ["value"] ["value", "value"]).result? vs) := by
  show Yields pool p c (c.peek >>= fun v => c.push v) m _
  cases vs with
  | nil =>
    show (c.peek >>= fun v => c.push v).Ends m _ _
    rw [ends_bind, Ends, hm.peek_nil]
  | cons v ws =>
    refine (ends_bind_of_run hm.peek_cons).mpr ?_
    exact hm.push_last hplain (hm.among List.mem_cons_self)

theorem Sees.over : Yields pool p c (StackWord.over.perform c) m
    ((Shape.mk ["a", "b"] ["a", "b", "a"]).result? vs) := by
  refine hm.pop_bind (by rintro rfl; rfl) ?_
  rintro b _ _ rfl hb hm
  refine hm.pop_bind (by rintro rfl; rfl) ?_
  rintro a _ _ rfl ha hm
  exact hm.push_bind hplain ha fun _ hm => hm.push_bind hplain hb fun _ hm =>
    hm.push_last hplain ha

theorem Sees.rot : Yields pool p c (StackWord.rot.perform c) m
    ((Shape.mk ["a", "b", "c"] ["b", "c", "a"]).result? vs) := by
  refine hm.pop_bind (by rintro rfl; rfl) ?_
  rintro z _ _ rfl hz hm
  refine hm.pop_bind (by rintro rfl; rfl) ?_
  rintro y _ _ rfl hy hm
  refine hm.pop_bind (by rintro rfl; rfl) ?_
  rintro x _ _ rfl hx hm
  exact hm.push_bind hplain hy fun _ hm => hm.push_bind hplain hz fun _ hm =>
    hm.push_last hplain hx

omit hplain in
theorem Sees.drop : Yields pool p c (StackWord.drop.perform c) m
    ((Shape.mk ["value"] []).result? vs) := by
  refine hm.pop_bind (by rintro rfl; rfl) ?_
  rintro v _ _ rfl - hm
  exact hm.yields

theorem Sees.swapPairs : Yields pool p c (StackWord.swapPairs.perform c) m
    ((Shape.mk ["a", "b", "c", "d"] ["c", "d", "a", "b"]).result? vs) := by
  refine hm.pop_bind (by rintro rfl; rfl) ?_
  rintro z _ _ rfl hz hm
  refine hm.pop_bind (by rintro rfl; rfl) ?_
  rintro y _ _ rfl hy hm
  refine hm.pop_bind (by rintro rfl; rfl) ?_
  rintro b _ _ rfl hb hm
  refine hm.pop_bind (by rintro rfl; rfl) ?_
  rintro a _ _ rfl ha hm
  exact hm.push_bind hplain hy fun _ hm => hm.push_bind hplain hz fun _ hm =>
    hm.push_bind hplain ha fun _ hm => hm.push_last hplain hb

theorem Sees.dupPair : Yields pool p c (StackWord.dupPair.perform c) m
    ((Shape.mk ["a", "b"] ["a", "b", "a", "b"]).result? vs) := by
  refine hm.pop_bind (by rintro rfl; rfl) ?_
  rintro b _ _ rfl hb hm
  refine hm.pop_bind (by rintro rfl; rfl) ?_
  rintro a _ _ rfl ha hm
  exact hm.push_bind hplain ha fun _ hm => hm.push_bind hplain hb fun _ hm =>
    hm.push_bind hplain ha fun _ hm => hm.push_last hplain hb

theorem Sees.overPair : Yields pool p c (StackWord.overPair.perform c) m
    ((Shape.mk ["a", "b", "c", "d"] ["a", "b", "c", "d", "a", "b"]).result? vs) := by
  refine hm.pop_bind (by rintro rfl; rfl) ?_
  rintro z _ _ rfl hz hm
  refine hm.pop_bind (by rintro rfl; rfl) ?_
  rintro y _ _ rfl hy hm
  refine hm.pop_bind (by rintro rfl; rfl) ?_
  rintro b _ _ rfl hb hm
  refine hm.pop_bind (by rintro rfl; rfl) ?_
  rintro a _ _ rfl ha hm
  exact hm.push_bind hplain ha fun _ hm => hm.push_bind hplain hb fun _ hm =>
    hm.push_bind hplain hy fun _ hm => hm.push_bind hplain hz fun _ hm =>
    hm.push_bind hplain ha fun _ hm => hm.push_last hplain hb

omit hplain in
theorem Sees.dropPair : Yields pool p c (StackWord.dropPair.perform c) m
    ((Shape.mk ["a", "b"] []).result? vs) := by
  refine hm.pop_bind (by rintro rfl; rfl) ?_
  rintro b _ _ rfl - hm
  refine hm.pop_bind (by rintro rfl; rfl) ?_
  rintro a _ _ rfl - hm
  exact hm.yields

/-- **A word that moves values about does what its signature says.** -/
theorem Sees.perform {e : String × StackWord × Shape} (he : e ∈ moves) :
    Yields pool p c (e.2.1.perform c) m (e.2.2.result? vs) := by
  revert e
  simp only [moves, List.forall_mem_cons]
  exact ⟨hm.swap hplain, hm.dup hplain, hm.over hplain, hm.rot hplain, hm.drop,
    hm.swapPairs hplain, hm.dupPair hplain, hm.overPair hplain, hm.dropPair, by simp⟩

end Moves

theorem Yields.bind {x y : Action Unit} {ws : List Value} (hx : Yields pool p c x m (some ws))
    (hy : ∀ m', Sees pool p c m' ws → Yields pool p c y m' r) :
    Yields pool p c (x >>= fun _ => y) m r := by
  cases r with
  | none => exact (Ends.mono hx (fun _ _ h => h) fun _ _ h => h.elim).bind fun _ m' hm' => hy m' hm'
  | some us => exact Ends.bind hx fun _ m' hm' => hy m' hm'

theorem Yields.bind_none {x y : Action Unit} (hx : Yields pool p c x m none) :
    Yields pool p c (x >>= fun _ => y) m none :=
  Ends.bind hx fun _ _ hno => hno.elim

end Words

/-! ## 7. In a running environment -/

/-- The action ends well, and the context sees these values on its effective stack, the top first; or
it fails for want of values. -/
def Context.Transforms (c : Context) (x : Action Unit) (m : Machine) : Option (List Value) → Prop
  | some ws => ∃ m', x.outcome m = (.ok (), m') ∧
      m'.arena.Reads c.scope (c.effective m'.arena) ws
  | none => ∃ m', x.outcome m = (.error ⟨.emptyStack, none⟩, m')

theorem Yields.transforms {pool : List Value} {p : ScopeId} {c : Context} {x : Action Unit}
    {m : Machine} {r : Option (List Value)} (h : Yields pool p c x m r) : c.Transforms x m r := by
  cases r with
  | none =>
    obtain ⟨f, m', hrun, rfl⟩ := Ends.run_eq_error h
    exact ⟨m', by rw [outcome, hrun]⟩
  | some ws =>
    obtain ⟨_, m', hrun, hm'⟩ := Ends.run_eq_ok h
    exact ⟨m', by rw [outcome, hrun], hm'.cells⟩

namespace Ensemble

variable {w : Ensemble} {c : Context}

/-- **Stack words act on the effective stack as their signatures say.** In any state of a running
environment, take a context in which a job of some thread is to run, without a push session, and let
the cells of its effective stack stand for values, none of them a double. Where there are none, pop
and peek fail. Otherwise they give the top one; the pop takes its cell and no other. Each word that
moves values about leaves what its signature says, or fails if there are too few values. So pairs and
triples of words cancel out, and copying a pair is copying the second value twice. -/
theorem Reachable.stack_words (hw : w.Reachable) (hc : w.Hosts c)
    (hsession : ∀ r, w.machine.arena.get? c.process = some r → r.pushTarget = none)
    {vs : List Value} (hvs : w.machine.arena.Reads c.scope (c.effective w.machine.arena) vs)
    (hplain : ∀ v ∈ vs, v.isDouble = false) :
    (vs = [] → c.pop.outcome w.machine = (.error ⟨.emptyStack, none⟩, w.machine) ∧
      c.peek.outcome w.machine = (.error ⟨.emptyStack, none⟩, w.machine)) ∧
    (∀ v ws, vs = v :: ws →
      (∃ σ cell a, a = w.machine.arena.popCell σ ∧
        c.pop.outcome w.machine = (.ok v, { w.machine with arena := a }) ∧
        c.effective w.machine.arena = cell :: c.effective a ∧
        a.Reads c.scope (c.effective a) ws) ∧
      c.peek.outcome w.machine = (.ok v, w.machine)) ∧
    (∀ name ∈ ["swap", "dup", "over", "rot", "drop", "2swap", "2dup", "2over", "2drop"],
      ∃ op ∈ Vocabulary.stackWords, ∃ word, op.name = name ∧ op.effect = .stack word ∧
        c.Transforms (word.perform c) w.machine ((Shape.ofSignature op.signature).result? vs)) ∧
    (2 ≤ vs.length → c.Transforms (do StackWord.swap.perform c; StackWord.swap.perform c)
      w.machine (some vs)) ∧
    (1 ≤ vs.length → c.Transforms (do StackWord.dup.perform c; StackWord.drop.perform c)
      w.machine (some vs)) ∧
    (3 ≤ vs.length → c.Transforms
      (do StackWord.rot.perform c; StackWord.rot.perform c; StackWord.rot.perform c)
      w.machine (some vs)) ∧
    (4 ≤ vs.length → c.Transforms (do StackWord.swapPairs.perform c; StackWord.swapPairs.perform c)
      w.machine (some vs)) ∧
    ∃ r, c.Transforms (StackWord.dupPair.perform c) w.machine r ∧
      c.Transforms (do StackWord.over.perform c; StackWord.over.perform c) w.machine r := by
  have hm : Sees vs c.process c w.machine vs :=
    ⟨hw.starts hc, hsession _, hvs, fun h => h, fun hv => by
      obtain ⟨cell, -, hcell⟩ := hvs.exists_cell hv
      exact ⟨cell, hcell⟩⟩
  refine ⟨?_, ?_, fun name hname => ?_, fun hlen => ?_, fun hlen => ?_, fun hlen => ?_,
    fun hlen => ?_, _, (hm.dupPair hplain).transforms, ?_⟩
  · rintro rfl
    exact ⟨by rw [outcome, hm.pop_nil], by rw [outcome, hm.peek_nil]⟩
  · rintro v ws rfl
    obtain ⟨σ, cell, hpop, heffective, hm'⟩ := hm.pop_cons
    exact ⟨⟨σ, cell, _, rfl, by rw [outcome, hpop], heffective, hm'.cells⟩,
      by rw [outcome, hm.peek_cons]⟩
  · obtain ⟨e, he, rfl⟩ : ∃ e ∈ moves, e.1 = name := List.mem_map.mp hname
    obtain ⟨op, hop, hopname, heffect, hshape⟩ := moves_signature e he
    refine ⟨op, hop, e.2.1, hopname, heffect, ?_⟩
    rw [hshape]
    exact (hm.perform hplain he).transforms
  · obtain _ | ⟨b, _ | ⟨a, rest⟩⟩ := vs
    · simp at hlen
    · simp at hlen
    · exact (Yields.bind (hm.swap hplain) fun _ hm => hm.swap hplain).transforms
  · obtain _ | ⟨v, rest⟩ := vs
    · simp at hlen
    · exact (Yields.bind (hm.dup hplain) fun _ hm => hm.drop).transforms
  · obtain _ | ⟨z, _ | ⟨y, _ | ⟨x, rest⟩⟩⟩ := vs
    · simp at hlen
    · simp at hlen
    · simp at hlen
    · exact (Yields.bind (hm.rot hplain) fun _ hm =>
        Yields.bind (hm.rot hplain) fun _ hm => hm.rot hplain).transforms
  · obtain _ | ⟨z, _ | ⟨y, _ | ⟨b, _ | ⟨a, rest⟩⟩⟩⟩ := vs
    · simp at hlen
    · simp at hlen
    · simp at hlen
    · simp at hlen
    · exact (Yields.bind (hm.swapPairs hplain) fun _ hm => hm.swapPairs hplain).transforms
  · obtain _ | ⟨b, _ | ⟨a, rest⟩⟩ := vs
    · exact (Yields.bind_none (hm.over hplain)).transforms
    · exact (Yields.bind_none (hm.over hplain)).transforms
    · exact (Yields.bind (hm.over hplain) fun _ hm => hm.over hplain).transforms

/-- `1 2 { "a" [ swap ] ! } !`, where `swap` is next: the sharing block has the stack of the isolated
one, with a text that the isolated one has interned, and falls through to the top level. -/
theorem Reachable.stack_words_nested : ∃ (w : Ensemble) (c : Context), w.Reachable ∧ w.Hosts c ∧
    c.callStacks = [4] ∧ (c.effective w.machine.arena).drop 1 = [.int 2, .int 1] ∧
    c.peek.outcome w.machine = (.ok (.str "a"), w.machine) ∧
    c.Transforms (StackWord.rot.perform c) w.machine (some [.int 1, .str "a", .int 2]) ∧
    c.Transforms (do StackWord.swap.perform c; StackWord.swap.perform c) w.machine
      (some [.str "a", .int 2, .int 1]) := by
  let c : Context := { Context.top with scope := 3, callStacks := [4] }
  let h : Handle := ContentHash.standard.text "a"
  let run := Thread.steps 27
    { agenda := [.source .top (.ofText "" "1 2 \x7b \"a\" [ swap ] ! \x7d !")] }
    (Environment.freshMachine {} fun _ => none).2
  have hw : Reachable ⟨run.2.2, run.2.1, []⟩ :=
    ((Reachable.start {} (fun _ => none) .standard).request
      [.source .top (.ofText "" "1 2 \x7b \"a\" [ swap ] ! \x7d !")] rfl (fun job hj => by
        cases List.mem_singleton.mp hj
        exact fun d hd => (Option.some.inj hd).symm)).steps 27
  have hfacts : (∃ job ∈ run.2.1.agenda, job.context? = some c) ∧
      c.effective run.2.2.arena = [.str h, .int 2, .int 1] ∧
      run.2.2.arena.payloadOn String (run.2.2.arena.chain 3) h = some "a" ∧
      (run.2.2.arena.get? c.process).all (·.pushTarget.isNone) = true := by decide +kernel
  obtain ⟨⟨job, hjob, hctx⟩, heffective, htext, hpush⟩ := hfacts
  have hc : Hosts ⟨run.2.2, run.2.1, []⟩ c := Or.inr ⟨_, List.mem_cons_self, job, hjob, hctx⟩
  have hvs : run.2.2.arena.Reads c.scope (c.effective run.2.2.arena)
      [.str "a", .int 2, .int 1] := by
    rw [heffective, Arena.reads_cons]
    refine ⟨_, _, rfl, ?_, rfl⟩
    show (run.2.2.arena.resolve String 3 h).map Value.str = _
    rw [Arena.resolve_eq_ok_iff.mpr htext]
    rfl
  obtain ⟨-, hpop, hmoves, hswap, -⟩ := hw.stack_words hc
    (fun r hr => by simpa [hr] using hpush) hvs (by simp [Value.isDouble])
  have hrot : ∀ op ∈ Vocabulary.stackWords, op.name = "rot" →
      op.effect = .stack .rot ∧ op.signature = "a b c -- b c a" := by decide
  obtain ⟨op, hop, word, hname, heffect, htransforms⟩ := hmoves "rot" (by simp)
  obtain ⟨heffect', hsignature⟩ := hrot op hop hname
  cases heffect'.symm.trans heffect
  have hshape : Shape.ofSignature "a b c -- b c a" = ⟨["a", "b", "c"], ["b", "c", "a"]⟩ := by
    decide +kernel
  rw [hsignature, hshape] at htransforms
  exact ⟨_, c, hw, hc, rfl, by rw [heffective]; rfl, (hpop _ _ rfl).2, htransforms,
    hswap (by decide)⟩

end Ensemble

end ScopeStack
