import ScopeStack.Proofs.Effects

/-!
# Running names, cells and tokens

* `Context.callBlock_ends`: a call lists its stack with its block, and leaves the code and the end of
  the call to be done.
* `Context.openBlock_ends`, `Context.closeBlock_ends`: the delimiters.
* `Result`: how running something may end: simple jobs, a call, or a spawned process.
  `Context.runWord_ends`, `Context.runCell_ends`, `Context.compileToken_ends`: **whatever is run, the
  machine stays steady.**
* `Context.effectOfName?`, `Context.effectOfCell?`, `Context.effectOfToken?`: the operation that is
  carried out.
-/

namespace ScopeStack

open ScopeStack.Action

variable {honest kept : Prop} {cs : List Call} {c : Context} {m : Machine}

/-! ## 1. Calls -/

/-- A stack that already counts may be listed with a block. -/
theorem Arena.Steady.mayList {a : Arena} (hS : a.Steady honest kept) {σ : StackId}
    (hσ : a.Listed σ) {block : ScopeId} {s : Scope} (hs : a.get? block = some s)
    (hl : a.Linked block) (hc : s.compiling = false) : a.MayList honest kept block σ := by
  obtain ⟨id, t, ht, hm, hlt⟩ := hσ
  refine ⟨hl, fun {s'} hs' => ?_, hS.stack_le ht hm, fun {k u} hu hno he => ?_, fun {cell} hcell => ?_⟩
  · cases hs.symm.trans hs'
    exact hc
  · have hk := hS.alone hu hno ht (he ▸ hm)
    exact hno (hk ▸ hlt)
  · exact hS.backed ⟨t, ht, Or.inr (Or.inr ⟨σ, hm, hcell⟩)⟩

theorem Arena.stackCells_newStack (a : Arena) (σ : StackId) :
    a.newStack.2.stackCells σ = if σ = a.lastStack + 1 then [] else a.stackCells σ := by
  simp only [newStack, stackCells, stack, Std.TreeMap.getD_insert, Nat.compare_eq_eq]
  by_cases h : σ = a.lastStack + 1
  · simp [h]
  · simp [h, Ne.symm h]

theorem Arena.Steady.newStack {a : Arena} (hS : a.Steady honest kept) :
    a.newStack.2.Steady honest kept := by
  refine hS.changeStacks rfl rfl rfl (Nat.le_succ _) fun σ cell hm => Or.inl ?_
  rw [stackCells_newStack] at hm
  split at hm
  · cases hm
  · exact hm

namespace Context

/-- A block that is to be called is there and finished, and the stack of the call may be listed with
it. -/
theorem prepareCall_ends (hm : Moved honest kept m.arena cs m) (hc : Seated m.arena c)
    (h : Handle) :
    (c.prepareCall h).Ends m
      (fun r m' => Stays honest kept m.arena m' ∧ r.2.RunsIn c r.1 ∧
        m'.arena.MayList honest kept r.2.block r.2.stack)
      fun _ m' => m' = m := by
  unfold prepareCall
  rw [ends_bind, ends_inArena]
  refine ⟨fun block hr => ?_, fun _ _ => rfl⟩
  obtain ⟨rfl, ⟨s, hs, hclosed⟩, hl, -, -⟩ := hm.steady.tree.of_resolveBlock hr
  rw [ends_bind, ends_getScope_some hs]
  dsimp only
  split
  · exact rfl
  split
  · unfold sharedStacks
    split
    · rename_i stack rest heq
      have hmem : stack ∈ c.callStacks := heq ▸ List.mem_cons_self
      refine ⟨hm.stays, ⟨rfl, hc.process, rfl, rest, rfl, fun σ hσ => ?_⟩, ?_⟩
      · rw [heq]
        exact List.mem_cons_of_mem _ hσ
      · exact hm.steady.mayList (hc.listed hmem) hs hl hclosed
    · rw [bind_assoc, ends_bind, ends_getScope]
      refine ⟨fun t ht => ?_, fun _ => rfl⟩
      refine ⟨hm.stays, ⟨rfl, hc.process, rfl, [], rfl, List.nil_subset _⟩, ?_⟩
      exact hm.steady.mayList ⟨c.scope, t, ht, List.mem_cons_self, hc.linked⟩ hs hl hclosed
  · rw [ends_bind, ends_get]
    refine ⟨⟨hm.steady.newStack, .newStack _, hm.processes⟩,
      ⟨rfl, hc.process, rfl, c.callStacks, rfl, fun _ h => h⟩, ?_⟩
    have hstill := Arena.Still.newStack m.arena
    refine ⟨hstill.linked hl, fun {t} ht => ?_, Nat.le_refl _, fun {k u} hu hno he => ?_,
      fun {cell} hcell => ?_⟩
    · cases hs.symm.trans ht
      exact hclosed
    · have hle : u.stack ≤ m.arena.lastStack := hm.steady.stack_le hu List.mem_cons_self
      rw [he] at hle
      exact absurd hle (Nat.not_succ_le_self _)
    · have hcell : cell ∈ m.arena.newStack.2.stackCells (m.arena.lastStack + 1) := hcell
      rw [Arena.stackCells_newStack, if_pos rfl] at hcell
      cases hcell

/-- A call begins: its stack is listed with the block. -/
theorem enterCall_ends {m₀ : Machine} (hm₀ : Moved honest kept m₀.arena cs m₀)
    (hm : Stays honest kept m₀.arena m) {call : Call}
    (hl : m.arena.MayList honest kept call.block call.stack) :
    (enterCall call).Ends m (fun _ m' => Moved honest kept m₀.arena (call :: cs) m')
      fun _ m' => Moved honest kept m₀.arena cs m' := by
  unfold enterCall
  rw [ends_bind, ends_getScope]
  refine ⟨fun s hs => ?_, fun _ => hm.moved hm₀.steady.tree hm₀⟩
  have hT := hm.still.tree hm₀.steady.tree
  have hfollow : Arena.Follows (call :: cs) m.arena
      (m.arena.modify call.block fun s => { s with calls := call.stack :: s.calls }) :=
    .modify _ _ (fun _ => ⟨rfl, rfl, fun h => h, rfl⟩) fun _ _ h => h
  refine ⟨⟨?_, (hm₀.calls.still hm.still).enter call hs, ?_, hm.processes⟩, ?_⟩
  · refine hm.steady.setCalls call.block (call.stack :: ·) fun t _ σ hσ => ?_
    rcases List.mem_cons.mp hσ with rfl | hσ
    · exact Or.inr hl
    · exact Or.inl hσ
  · exact (Arena.Follows.still hm.still).trans hm₀.steady.tree hfollow
      (Or.inl hm.still.openBlocks)
  · refine Eq.trans ?_ hm.still.openBlocks
    exact Arena.openBlocks_modify call.block (fun s => { s with calls := call.stack :: s.calls })
      fun _ => rfl

/-- **A call lists its stack, and what is left to do is its code and its end.** -/
theorem callBlock_ends (hm : Moved honest kept m.arena cs m) (hc : Seated m.arena c) (h : Handle) :
    (c.callBlock h).Ends m
      (fun jobs m' => ∃ callee call, jobs = [.body callee, .leave c callee call] ∧
        call.RunsIn c callee ∧ Moved honest kept m.arena (call :: cs) m')
      fun _ m' => Moved honest kept m.arena cs m' := by
  unfold callBlock beginCall
  rw [bind_assoc]
  refine Ends.bind ((prepareCall_ends hm hc h).mono (fun _ _ h => h) fun _ _ h => h ▸ hm) ?_
  rintro ⟨callee, call⟩ m₁ ⟨hm₁, hruns, hl⟩
  dsimp only
  rw [bind_assoc]
  refine (enterCall_ends hm hm₁ hl).bind fun _ m₂ hm₂ => ?_
  exact ⟨callee, call, rfl, hruns, hm₂⟩

end Context

/-! ## 2. Opening and closing blocks -/

/-- The scope that code is compiled into. -/
theorem Context.run_compileTarget {c : Context} (hp : c.process = rootScope) {m : Machine}
    (hT : m.arena.Tree) : c.compileTarget.run m = .ok (m.arena.openBlocks.headD c.scope) m := by
  obtain ⟨s, hs, -⟩ := hT.root
  have hget : getScope c.process m = .ok s m := by
    rw [hp]
    show ofExcept (m.arena.get rootScope) m = _
    rw [Arena.get_eq_ok.mpr hs]
    rfl
  simp only [compileTarget, EStateM.run, bind, EStateM.bind, hget, Arena.openBlocks_eq hs]
  rfl

theorem Context.compileTarget_ends {c : Context} (hp : c.process = rootScope) {m : Machine}
    (hT : m.arena.Tree) {Q : ScopeId → Machine → Prop} {E : Failure → Machine → Prop} :
    c.compileTarget.Ends m Q E ↔ Q (m.arena.openBlocks.headD c.scope) m := by
  rw [Ends, run_compileTarget hp hT]

/-- The target is no larger than the scopes there are, and has a way out if it is there. -/
theorem Context.target_linked (hS : m.arena.Orderly) (hc : Seated m.arena c) :
    m.arena.openBlocks.headD c.scope ≤ m.arena.lastScope ∧
      ∀ s, m.arena.get? (m.arena.openBlocks.headD c.scope) = some s →
        m.arena.Linked (m.arena.openBlocks.headD c.scope) := by
  cases ho : m.arena.openBlocks with
  | nil =>
    obtain ⟨s, hs⟩ := hc.linked.get?
    exact ⟨hS.tree.forest.le_last hs, fun _ _ => hc.linked⟩
  | cons k rest =>
    have hk : k ∈ m.arena.openBlocks := ho ▸ List.mem_cons_self
    exact ⟨(hS.tree.openBlock_le hk).1, fun s hs => hS.tree.linked_openBlock hk hs⟩

/-- A scope whose code runs is not being compiled. -/
theorem Arena.Orderly.closed_of_runs {a : Arena} (hO : a.Orderly) (hC : a.InProgress cs)
    {id : ScopeId} (hr : Arena.Runs cs id) {s : Scope} (hs : a.get? id = some s) :
    s.compiling = false := by
  rcases hr with rfl | ⟨call, hm, rfl⟩
  · obtain ⟨t, ht, -, hc⟩ := hO.tree.root
    cases hs.symm.trans ht
    exact hc
  · exact hO.called hs (List.ne_nil_of_mem (hC.mem_calls hm hs))

/-- **Opening a block.** -/
theorem Context.openBlock_ends (hm : Moved honest kept m.arena cs m) (ha : Anchored cs c)
    (kind : BlockKind) :
    (c.openBlock kind).Ends m (fun _ m' => Stepped honest kept m.arena cs m')
      fun _ m' => Stepped honest kept m.arena cs m' := by
  have hO := hm.steady.toOrderly
  have hF := hO.tree.forest
  have hc := ha.seated hO hm.calls
  obtain ⟨hle, hlinked⟩ := target_linked hO hc
  unfold openBlock
  rw [ends_bind, compileTarget_ends hc.process hO.tree, ends_bind, ends_changeArena]
  generalize htarget : m.arena.openBlocks.headD c.scope = target at hle hlinked ⊢
  obtain ⟨hA, hres⟩ := Arena.createChild_added hle kind.shares
  generalize (m.arena.createChild target kind.shares).2 = b at hA ⊢
  have hSb := hm.steady.addBlock hA hle hlinked
  have hCb := hm.calls.added hA hF
  have hFb : Arena.Follows cs m.arena b := .added hO.tree hA
  have hob := hA.openBlocks hO.tree
  refine ⟨fun child hchild => ?_, fun e _ => ⟨hSb, hCb, hFb, hm.processes⟩⟩
  rw [hres] at hchild
  cases ht : m.arena.get? target with
  | none =>
    rw [ht] at hchild
    cases hchild
  | some s =>
    rw [ht] at hchild
    cases hchild
    rw [ends_bind, ends_getScope]
    refine ⟨fun r _ => ?_, fun _ => ⟨hSb, hCb, hFb, hm.processes⟩⟩
    rw [hc.process, ends_modifyScope]
    have hne : m.arena.lastScope + 1 ≠ rootScope := fun he =>
      Nat.not_succ_le_self _ (he ▸ hO.tree.root_le)
    have hnext : b.OpenedIn b.openBlocks target := by
      rw [hob]
      cases ho : m.arena.openBlocks with
      | nil =>
        intro t htt
        rw [ho] at htarget
        subst htarget
        rcases hA.of_get? htt with ⟨he, -⟩ | ⟨u, hu, rfl⟩
        · exact absurd hle (he ▸ Nat.not_succ_le_self _)
        · show u.compiling = false
          exact hO.closed_of_runs hm.calls ha.runs hu
      | cons j rest =>
        rw [ho] at htarget
        exact htarget.symm
    obtain ⟨hS', ho'⟩ := hSb.pushOpen hA.get?_new (hA.linked_new hF ht) hne rfl
      (fun j hj => Nat.lt_succ_of_le (hO.tree.openBlock_le (hob ▸ hj)).1) rfl hnext
    refine ⟨hS', hCb.modify _ _ fun _ => rfl, ?_, hm.processes⟩
    have hnew : (b.modify rootScope fun r =>
        { r with compileStack := (m.arena.lastScope + 1) :: r.compileStack }).get?
          (m.arena.lastScope + 1) =
            some (Arena.newBlock target (m.arena.lastStack + 1) kind.shares) := by
      rw [Arena.get?_modify, if_neg hne]
      exact hA.get?_new
    have hfollow : Arena.Follows cs b _ := .modifyRoot
      (fun r => { r with compileStack := (m.arena.lastScope + 1) :: r.compileStack })
      (fun _ => rfl) (Or.inl ⟨_, _, ho', hnew⟩)
    exact hFb.trans hO.tree hfollow (Or.inl hob)

/-- The block that is open innermost is finished: no longer open, no longer compiled, and known. -/
theorem Stepped.finish (hm : Moved honest kept m.arena cs m) {child p : ScopeId} {s : Scope}
    (hopen : m.arena.openBlocks.head? = some child) (hs : m.arena.get? child = some s)
    (hp : s.parent = some p) {a₁ a₂ : Arena}
    (ha₁ : a₁ = m.arena.modify rootScope fun r => { r with compileStack := r.compileStack.tail })
    (ha₂ : a₂ = a₁.modify child fun s => { s with compiling := false }) :
    a₂.get? child = some { s with compiling := false } ∧ a₂.Linked p ∧
    Stepped honest kept m.arena cs { m with arena := a₂.makeKnown child (a₂.chain p) } ∧
    (a₂.makeKnown child (a₂.chain p)).Backs honest kept (.block child) := by
  have hT := hm.steady.tree
  obtain ⟨rest, hrest⟩ : ∃ rest, m.arena.openBlocks = child :: rest := by
    cases ho : m.arena.openBlocks with
    | nil => rw [ho] at hopen; cases hopen
    | cons k rest => rw [ho] at hopen; cases hopen; exact ⟨rest, rfl⟩
  have hchild : child ∈ m.arena.openBlocks := hrest ▸ List.mem_cons_self
  have hne : child ≠ rootScope := (hT.openBlock_le hchild).2
  obtain ⟨hS₁, ho₁⟩ := hm.steady.popOpen
  rw [← ha₁] at hS₁ ho₁
  rw [hrest, List.tail_cons] at ho₁
  have hget₁ : a₁.get? child = some s := by
    rw [ha₁, Arena.get?_modify, if_neg hne]
    exact hs
  have h₁ : Stepped honest kept m.arena cs { m with arena := a₁ } := by
    refine ⟨hS₁, ?_, ?_, hm.processes⟩
    · rw [ha₁]
      exact hm.calls.modify _ _ fun _ => rfl
    · rw [ha₁] at ho₁ ⊢
      exact .modifyRoot (fun r => { r with compileStack := r.compileStack.tail }) (fun _ => rfl)
        (Or.inr ⟨child, s, s, by rw [hrest, ho₁], hs, ha₁ ▸ hget₁⟩)
  have hnot : child ∉ a₁.openBlocks := fun hmem => by
    have hchain := hm.steady.opens
    rw [hrest] at hchain
    rw [ho₁] at hmem
    exact Nat.lt_irrefl _ (hchain.2.1 child hmem)
  have h₂ : Stepped honest kept m.arena cs { m with arena := a₂ } := by
    rw [ha₂]
    exact h₁.step hT (hS₁.closeScope hnot) (h₁.calls.modify _ _ fun _ => rfl)
      (.modify _ _ (fun _ => ⟨rfl, rfl, fun h => (by cases h), rfl⟩) fun _ _ h => h)
      (Arena.openBlocks_modify child (fun s => { s with compiling := false }) fun _ => rfl)
      (fun k t ht => Arena.get?_modify_some ht _ _) rfl
  have hget₂ : a₂.get? child = some { s with compiling := false } := by
    rw [ha₂, Arena.get?_modify, if_pos rfl, hget₁]
    rfl
  have hlinked : a₂.Linked child := by
    obtain ⟨s', hs', hlive⟩ := hT.linked_openBlock hchild hs
    cases hs.symm.trans hs'
    refine ⟨_, hget₂, fun q hq => ?_⟩
    obtain ⟨t, ht⟩ := hlive q hq
    obtain ⟨u, hu⟩ := Arena.get?_modify_some ht rootScope
      fun r => { r with compileStack := r.compileStack.tail }
    rw [← ha₁] at hu
    rw [ha₂]
    exact Arena.get?_modify_some hu child fun s => { s with compiling := false }
  have hlinked' : a₂.Linked p := h₂.steady.tree.linked_parent hlinked hget₂ hp
  refine ⟨hget₂, hlinked', ?_, fun _ => ⟨⟨_, hget₂⟩, ?_⟩⟩
  · exact h₂.step hT (h₂.steady.makeKnown hget₂ hlinked hp rfl hne) (h₂.calls.makeKnown _ _)
      (.makeKnown _ _) rfl (fun k t ht => ⟨t, ht⟩) rfl
  · refine (Arena.mem_scopesKnowing_makeKnown a₂ child child rootScope _).mpr (Or.inr ⟨rfl, ?_⟩)
    exact h₂.steady.tree.mem_chain hlinked'

/-- Finishing a block. If it is to be pushed, there is a scope to push it for. -/
theorem Context.finishBlock_ends (hm : Moved honest kept m.arena cs m) (hp : c.process = rootScope)
    (kind : BlockKind) (location : Location) :
    (c.finishBlock kind location).Ends m
      (fun r m' => Stepped honest kept m.arena cs m' ∧ ∀ parent, r.2 = some parent →
        m'.arena.Linked parent ∧ m'.arena.Backs honest kept (.block r.1))
      fun _ m' => Stepped honest kept m.arena cs m' := by
  have hT := hm.steady.tree
  have h₀ : Stepped honest kept m.arena cs m := hm.toStepped
  obtain ⟨root, hroot, -⟩ := hT.root
  unfold finishBlock
  rw [hp, ends_bind, ends_getScope_some hroot, ends_bind, ends_ofOption]
  refine ⟨fun child hopen => ?_, fun _ => h₀⟩
  rw [← Arena.openBlocks_eq hroot] at hopen
  rw [ends_bind, ends_getScope]
  refine ⟨fun s hs => ?_, fun _ => h₀⟩
  have hne : child ≠ rootScope := (hT.openBlock_le (List.mem_of_head? hopen)).2
  obtain ⟨p, hparent⟩ := hT.root_ne_parent hs hne
  obtain ⟨hget, hlinked, h₃, hback⟩ := Stepped.finish hm hopen hs hparent rfl rfl
  split
  · exact h₀
  rw [ends_bind, ends_modifyScope, ends_bind, ends_modifyScope, ends_bind]
  generalize (m.arena.modify rootScope fun r =>
    { r with compileStack := r.compileStack.tail }).modify child
      (fun s => { s with compiling := false }) = a₂ at hget hlinked h₃ hback ⊢
  rw [ends_getScope_some hget]
  dsimp only
  have hparent₂ : ({ s with compiling := false } : Scope).parent = some p := hparent
  rw [hparent, Option.getD_some, ends_bind, ends_registerBlock hget hparent₂, ends_bind, ends_getScope]
  refine ⟨fun t ht => ?_, fun _ => h₃⟩
  split
  · rw [ends_bind, ends_modifyScope]
    refine ⟨?_, fun _ hno => (by cases hno)⟩
    exact h₃.step hT (h₃.steady.append hlinked ⟨some location, .block child⟩ hback)
      (h₃.calls.modify _ _ fun _ => rfl)
      (.modify p (·.append ⟨some location, .block child⟩)
        (fun _ => ⟨rfl, rfl, fun h => h, rfl⟩) fun u x hx => by
          rw [Scope.append, CodeBlock.cells_push]
          exact List.mem_append_left _ hx)
      (Arena.openBlocks_modify p (·.append ⟨some location, .block child⟩) fun _ => rfl)
      (fun k u hu => Arena.get?_modify_some hu _ _) rfl
  · refine ⟨h₃, fun q hq => ?_⟩
    cases hq
    exact ⟨hlinked, hback⟩

/-- **Closing a block.** -/
theorem Context.closeBlock_ends (hm : Moved honest kept m.arena cs m) (ha : Anchored cs c)
    (kind : BlockKind) (location : Location) :
    (c.closeBlock kind location).Ends m (fun _ m' => Stepped honest kept m.arena cs m')
      fun _ m' => Stepped honest kept m.arena cs m' := by
  have hc := ha.seated hm.steady.toOrderly hm.calls
  unfold closeBlock
  refine (finishBlock_ends hm hc.process kind location).bind ?_
  rintro ⟨child, parent?⟩ m₁ ⟨hm₁, hpush⟩
  cases parent? with
  | none => exact hm₁
  | some parent =>
    obtain ⟨hl, hb⟩ := hpush parent rfl
    have hc₁ := (ha.seated hm₁.steady.toOrderly hm₁.calls).switchTo hl
    have hstays : Stays honest kept m₁.arena m₁ := ⟨hm₁.steady, .refl _, hm₁.processes⟩
    exact (pushCell_ends hm₁.steady.tree hc₁ hstays hb).mono
      (fun _ _ h => h.stepped hm.steady.tree hm₁) fun _ _ h => h.stepped hm.steady.tree hm₁

/-! ## 3. The operation that is carried out -/

namespace Context

/-- The operation that a name stands for, unless it is a variable. -/
def effectOfName? (c : Context) (m : Machine) (name : String) : Option Effect :=
  match m.arena.findVariable c.scope name with
  | some _ => none
  | none => (m.arena.findOperation c.scope name).map (·.effect)

/-- The operation that executing a cell carries out. -/
def effectOfCell? (c : Context) (m : Machine) : Cell → Option Effect
  | .word h =>
    match m.arena.resolve String c.scope h with
    | .ok name => c.effectOfName? m name
    | .error _ => none
  | _ => none

/-- The operation that a token carries out, if it is not compiled. -/
def effectOfToken? (c : Context) (m : Machine) (t : Token) : Option Effect :=
  match Literal.ofToken t with
  | .blockOpen _ | .blockClose _ => none
  | .atom a =>
    match c.compileTarget.run m with
    | .error _ _ => none
    | .ok id m =>
      match ((c.switchTo id).compileAtom a).run m with
      | .error _ _ => none
      | .ok cell m =>
        if (m.arena.get? (c.switchTo id).scope).any (·.compiling) then none
        else (c.switchTo id).effectOfCell? m cell

end Context

/-! ## 4. Running -/

/-- What running something in a context may leave: simple jobs, a call to be run, or a process. -/
inductive Result (honest kept : Prop) (a₀ : Arena) (cs : List Call) (c : Context)
    (jobs : List Job) (m : Machine) : Prop where
  | simple : Stepped honest kept a₀ cs m → Job.AllSimple c jobs → Result honest kept a₀ cs c jobs m
  | called (callee : Context) (call : Call) : jobs = [.body callee, .leave c callee call] →
      call.RunsIn c callee → Stepped honest kept a₀ (call :: cs) m →
      Result honest kept a₀ cs c jobs m
  | spawned : LastIs 1 m → Result honest kept a₀ cs c jobs m

/-- What is left where running something fails. -/
def Fails (honest kept : Prop) (a₀ : Arena) (cs : List Call) (m : Machine) : Prop :=
  Stepped honest kept a₀ cs m ∨ LastIs 1 m

theorem Stepped.of_still {a₀ a : Arena} (hT : a₀.Tree) (hS : a₀.Still a)
    (h : Stepped honest kept a cs m) : Stepped honest kept a₀ cs m :=
  ⟨h.steady, h.calls, (Arena.Follows.still hS).trans hT h.follows (Or.inl hS.openBlocks),
    h.processes⟩

theorem Result.of_still {a₀ a : Arena} (hT : a₀.Tree) (hS : a₀.Still a) {jobs : List Job}
    (h : Result honest kept a cs c jobs m) : Result honest kept a₀ cs c jobs m := by
  cases h with
  | simple h hj => exact .simple (h.of_still hT hS) hj
  | called callee call hj hr h => exact .called callee call hj hr (h.of_still hT hS)
  | spawned h => exact .spawned h

theorem Fails.of_still {a₀ a : Arena} (hT : a₀.Tree) (hS : a₀.Still a)
    (h : Fails honest kept a cs m) : Fails honest kept a₀ cs m :=
  h.imp_left fun h => h.of_still hT hS

namespace Context

theorem callBlock_result (hm : Moved honest kept m.arena cs m) (hc : Seated m.arena c)
    (h : Handle) :
    (c.callBlock h).Ends m (Result honest kept m.arena cs c) fun _ => Fails honest kept m.arena cs :=
  (callBlock_ends hm hc h).mono
    (fun _ _ ⟨callee, call, hj, hr, h⟩ => .called callee call hj hr h.toStepped)
    fun _ _ h => Or.inl h.toStepped

theorem pushCell_result (hm : Moved honest kept m.arena cs m) (hc : Seated m.arena c) {cell : Cell}
    (hb : m.arena.Backs honest kept cell) :
    (c.pushCell cell >>= fun _ => (pure [] : Action (List Job))).Ends m
      (Result honest kept m.arena cs c) fun _ => Fails honest kept m.arena cs := by
  have hT := hm.steady.tree
  rw [ends_bind]
  exact (pushCell_ends hT hc hm.stays hb).mono
    (fun _ _ h => .simple (h.moved hT hm).toStepped .nil) fun _ _ h => Or.inl (h.moved hT hm).toStepped

/-- **Running a name.** -/
theorem runWord_ends (hm : Moved honest kept m.arena cs m) (hc : Seated m.arena c) (name : String)
    (hf : kept → c.effectOfName? m name ≠ some (.scope .forget)) :
    (c.runWord name).Ends m (Result honest kept m.arena cs c)
      fun _ => Fails honest kept m.arena cs := by
  unfold runWord
  show (findVariable c name >>= _).Ends m _ _
  rw [findVariable, bind_assoc, ends_bind, ends_get, pure_bind]
  cases hv : m.arena.findVariable c.scope name with
  | some cell =>
    have hheld : ∃ k, m.arena.Holds k cell := by
      rw [Arena.findVariable, Arena.search_eq] at hv
      obtain ⟨k, -, hk⟩ := List.exists_of_findSome?_eq_some hv
      obtain ⟨s, hs, hb⟩ := Option.bind_eq_some_iff.mp hk
      exact ⟨k, s, hs, Or.inr (Or.inl (Scope.mem_boundCells.mpr ⟨name, hb⟩))⟩
    obtain ⟨k, hk⟩ := hheld
    have hb := hm.steady.backed hk
    cases cell with
    | block h => exact callBlock_result hm hc h
    | bool | int | big | double | str | word => exact pushCell_result hm hc hb
  | none =>
    show (findOperation c name >>= _).Ends m _ _
    rw [findOperation, bind_assoc, ends_bind, ends_get, pure_bind, ends_bind, ends_ofOption]
    refine ⟨fun op hop => ?_, fun _ => Or.inl hm.toStepped⟩
    have he : kept → op.effect ≠ .scope .forget := fun hk he => hf hk (by
      rw [effectOfName?, hv, hop, ← he]
      rfl)
    refine (Effect.ends hm hc op.effect he).mono (fun _ _ h => ?_) fun _ _ h => ?_
    · rcases h with ⟨h, hj⟩ | h
      · exact .simple h.toStepped hj
      · exact .spawned h
    · exact h.imp_left Moved.toStepped

/-- Running a block, or a word given by its name. -/
theorem runValue_ends (hm : Moved honest kept m.arena cs m) (hc : Seated m.arena c) (v : Value)
    (hf : kept → ∀ name, v = .word name ∨ v = .str name →
      c.effectOfName? m name ≠ some (.scope .forget)) :
    (c.runValue v).Ends m (Result honest kept m.arena cs c)
      fun _ => Fails honest kept m.arena cs := by
  cases v with
  | block h => exact callBlock_result hm hc h
  | word name => exact runWord_ends hm hc name fun hk => hf hk name (Or.inl rfl)
  | str name => exact runWord_ends hm hc name fun hk => hf hk name (Or.inr rfl)
  | bool | int | big | double => exact Or.inl hm.toStepped

/-- Executing a cell that is backed. -/
theorem runCell_ends (hm : Moved honest kept m.arena cs m) (hc : Seated m.arena c) {cell : Cell}
    (hb : m.arena.Backs honest kept cell)
    (hf : kept → c.effectOfCell? m cell ≠ some (.scope .forget)) :
    (c.runCell cell).Ends m (Result honest kept m.arena cs c)
      fun _ => Fails honest kept m.arena cs := by
  cases cell with
  | word h =>
    show (c.resolveText h >>= c.runWord).Ends m _ _
    rw [ends_bind, resolveText, ends_inArena]
    refine ⟨fun name hr => runWord_ends hm hc name fun hk he => hf hk ?_,
      fun _ _ => Or.inl hm.toStepped⟩
    rw [effectOfCell?, hr]
    exact he
  | bool | int | big | double | str | block => exact pushCell_result hm hc hb

/-- The cell of an atom is backed if the scope has a way out. -/
theorem compileAtom_ends (hT : m.arena.Tree) (a : Atom) :
    (c.compileAtom a).Ends m
      (fun cell m' => Gains m m' ∧
        (m.arena.Linked c.scope → m'.arena.Backs honest kept cell))
      fun _ m' => Gains m m' := by
  cases a with
  | int n => exact ⟨.refl m, fun _ => trivial⟩
  | bool b => exact ⟨.refl m, fun _ => trivial⟩
  | number n =>
    cases n with
    | big n =>
      exact (internPayload_ends _ _ hT).bind fun h m' ⟨hg, hp⟩ => ⟨hg, fun hl _ => hp hl⟩
    | double x =>
      exact (internPayload_ends _ _ hT).bind fun h m' ⟨hg, hp⟩ => ⟨hg, fun hl _ => hp hl⟩
  | str text =>
    exact (internPayload_ends _ _ hT).bind fun h m' ⟨hg, hp⟩ => ⟨hg, fun hl _ => hp hl⟩
  | word name =>
    exact (internPayload_ends _ _ hT).bind fun h m' ⟨hg, hp⟩ => ⟨hg, fun hl _ => hp hl⟩

/-- Whatever comes of it, only payloads have come. -/
theorem compileAtom_gains (hT : m.arena.Tree) (a : Atom) :
    (c.compileAtom a).Ends m (fun _ m' => Gains m m') fun _ m' => Gains m m' := by
  have hcell : (c.compileAtom a).Ends m
      (fun cell m' => Gains m m' ∧ (m.arena.Linked c.scope → m'.arena.Backs False False cell))
      fun _ m' => Gains m m' := compileAtom_ends hT a
  exact hcell.mono (fun _ _ h => h.1) fun _ _ h => h

theorem switchTo_scope (c : Context) (id : ScopeId) : (c.switchTo id).scope = id := by
  unfold switchTo
  split
  · rename_i h
    exact h.symm
  · rfl

theorem switchTo_self (c : Context) : c.switchTo c.scope = c := by
  unfold switchTo
  rw [if_pos rfl]

/-- The cell of an atom goes into the code of the innermost open block, where one is open. -/
theorem compileInto_ends (hm : Moved honest kept m.arena cs m) {k : ScopeId}
    (hk : k ∈ m.arena.openBlocks) (a : Atom) (l : Location) :
    (do
      let cell ← (c.switchTo k).compileAtom a
      if (← getScope (c.switchTo k).scope).compiling then
        modifyScope (c.switchTo k).scope (·.append ⟨some l, cell⟩)
        return []
      else (c.switchTo k).runCell cell : Action (List Job)).Ends m
      (Result honest kept m.arena cs c) fun _ => Fails honest kept m.arena cs := by
  have hT := hm.steady.tree
  have hatom : ((c.switchTo k).compileAtom a).Ends m
      (fun cell m' => Gains m m' ∧ (m.arena.Linked (c.switchTo k).scope →
        m'.arena.Backs honest kept cell)) fun _ m' => Gains m m' := compileAtom_ends hT a
  rw [switchTo_scope] at hatom ⊢
  rw [ends_bind]
  refine hatom.mono ?_ fun _ _ hg => Or.inl ((hg.stays hm.stays).moved hT hm).toStepped
  rintro cell m₁ ⟨hg, hb⟩
  have hm₁ := (hg.stays hm.stays).moved hT hm
  rw [ends_bind, ends_getScope]
  refine ⟨fun s hs => ?_, fun _ => Or.inl hm₁.toStepped⟩
  have hk₁ : k ∈ m₁.arena.openBlocks := hm₁.opens ▸ hk
  obtain ⟨s₀, hs₀, -⟩ := hg.grows.still.get? hs
  have hl : m.arena.Linked k := hT.linked_openBlock hk hs₀
  rw [if_pos (hm₁.steady.opens.compiling hk₁ hs), ends_bind, ends_modifyScope]
  refine .simple ?_ .nil
  exact hm₁.toStepped.step hT
    (hm₁.steady.append (hg.grows.still.linked hl) ⟨some l, cell⟩ (hb hl))
    (hm₁.calls.modify _ _ fun _ => rfl)
    (.modify k (·.append ⟨some l, cell⟩) (fun _ => ⟨rfl, rfl, fun h => h, rfl⟩) fun u x hx => by
      rw [Scope.append, CodeBlock.cells_push]
      exact List.mem_append_left _ hx)
    (Arena.openBlocks_modify k (·.append ⟨some l, cell⟩) fun _ => rfl)
    (fun j u hu => Arena.get?_modify_some hu _ _) rfl

/-- **Executing a token**: a delimiter, an atom that is compiled, or a cell that is run. -/
theorem compileToken_ends (hm : Moved honest kept m.arena cs m) (ha : Anchored cs c) (t : Token)
    (hf : kept → c.effectOfToken? m t ≠ some (.scope .forget)) :
    (c.compileToken t).Ends m (Result honest kept m.arena cs c)
      fun _ => Fails honest kept m.arena cs := by
  have hT := hm.steady.tree
  have hc := ha.seated hm.steady.toOrderly hm.calls
  unfold compileToken
  unfold effectOfToken? at hf
  cases hlit : Literal.ofToken t with
  | blockOpen kind =>
    dsimp only
    rw [ends_bind]
    exact (openBlock_ends hm ha kind).mono (fun _ _ h => .simple h .nil) fun _ _ h => Or.inl h
  | blockClose kind =>
    dsimp only
    rw [ends_bind]
    exact (closeBlock_ends hm ha kind t.location).mono (fun _ _ h => .simple h .nil)
      fun _ _ h => Or.inl h
  | atom a =>
    rw [hlit, run_compileTarget hc.process hT] at hf
    dsimp only at hf ⊢
    rw [ends_bind, compileTarget_ends hc.process hT]
    cases ho : m.arena.openBlocks with
    | cons k rest =>
      have hk : k ∈ m.arena.openBlocks := ho ▸ List.mem_cons_self
      exact compileInto_ends hm hk a t.location
    | nil =>
      -- nothing is open, so the token is meant for the scope that runs, which is not compiled
      rw [ho] at hf
      simp only [List.headD_nil, switchTo_self] at hf ⊢
      have hatom : (c.compileAtom a).Ends m
          (fun cell m' => Gains m m' ∧ (m.arena.Linked c.scope →
            m'.arena.Backs honest kept cell)) fun _ m' => Gains m m' := compileAtom_ends hT a
      rw [ends_bind]
      refine hatom.attained.mono ?_ fun _ _ hg => Or.inl ((hg.stays hm.stays).moved hT hm).toStepped
      rintro cell m₁ ⟨hrun, hg, hb⟩
      have hm₁ := (hg.stays hm.stays).moved hT hm
      have hstill := hg.grows.still
      rw [hrun] at hf
      rw [ends_bind, ends_getScope]
      refine ⟨fun s hs => ?_, fun _ => Or.inl hm₁.toStepped⟩
      have hclosed : s.compiling = false := hm₁.steady.closed_of_runs hm₁.calls ha.runs hs
      have hf₁ : kept → c.effectOfCell? m₁ cell ≠ some (.scope .forget) := by
        simpa only [hs, Option.any_some, hclosed, Bool.false_eq_true, if_false] using hf
      rw [hclosed, if_neg (by decide)]
      have hself : Moved honest kept m₁.arena cs m₁ :=
        .refl hm₁.steady hm₁.calls hm₁.processes
      exact (runCell_ends hself (hc.still hstill) (hb hc.linked) hf₁).mono
        (fun _ _ h => h.of_still hT hstill) fun _ _ h => h.of_still hT hstill

end Context

end ScopeStack
