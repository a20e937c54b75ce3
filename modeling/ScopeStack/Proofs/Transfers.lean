import ScopeStack.Proofs.Housing
import ScopeStack.Proofs.OwnStack

/-!
# Whole stacks between processes

A transfer empties the innermost stack of one context and pushes what was on it onto that of another,
the top first. The values are looked up from the one scope and interned from the other, where they may
get other handles.

* `Context.Holding.drainStack`, `Context.Holding.pushAllLocal`: the two halves of a transfer.
* `Context.Holdings.transfer`: **all values arrive, in reverse, on top of what was there**, and whatever
  any cell stood for, it stands for still.
* `Machine.Confined`: what a transfer may change, however it ends (`Context.sendAllTo_confined`,
  `Context.takeAllFrom_confined`).
* `Ensemble.Reachable.transfers_conserve`: **transfers in reachable states lose and invent nothing.**
-/

namespace ScopeStack

open ScopeStack.Action

variable {a b : Arena} {c d : Context} {m m' : Machine} {σ τ : StackId} {vs ws : List Value}

/-! ## 1. The innermost stack of a context -/

/-- The body of a process, for reaching its stack. -/
def Context.bodyOf (c : Context) (id : ScopeId) : Context := { c.onScope id with process := id }

/-- Whatever a cell stood for, from wherever it was looked at, it stands for still. -/
def Arena.KeepsMeaning (a b : Arena) : Prop :=
  ∀ k cell v, a.valueOf k cell = .ok v → b.valueOf k cell = .ok v

theorem Arena.KeepsMeaning.modifyStack (h : a.KeepsMeaning b) (σ : StackId)
    (f : CellStack → CellStack) : a.KeepsMeaning (b.modifyStack σ f) := fun k cell v hv =>
  (valueOf_modifyStack ..).trans (h k cell v hv)

namespace Context.Owns

/-- Payloads that come and cells that move leave a context its stack. -/
theorem fills (h : c.Owns a σ) (hF : a.Fills b) : c.Owns b σ := by
  refine h.imp_right fun ⟨hnil, s, hs, hstack⟩ => ?_
  obtain ⟨t, ht, hts⟩ := hF.get? hs
  refine ⟨hnil, t, ht, ?_⟩
  rw [hts]
  exact hstack

theorem of_fills (h : c.Owns b σ) (hF : a.Fills b) : c.Owns a σ := by
  refine h.imp_right fun ⟨hnil, t, ht, hstack⟩ => ?_
  obtain ⟨s, hs, -⟩ := hF.still.get? ht
  obtain ⟨t', ht', hts⟩ := hF.get? hs
  cases ht.symm.trans ht'
  refine ⟨hnil, s, hs, ?_⟩
  rw [hts] at hstack
  exact hstack

end Context.Owns

namespace Context.Holding

/-- Nothing has happened to the stack. -/
theorem kept (h : c.Holding a σ vs) (hF : a.Fills b) (hM : a.KeepsMeaning b)
    (hcells : b.stackCells σ = a.stackCells σ) : c.Holding b σ vs := by
  refine ⟨h.owns.fills hF, ?_⟩
  rw [hcells]
  exact h.reads.mono fun cell _ => hM c.scope cell

/-- **Draining gives the top first and leaves nothing.** -/
theorem drainStack (h : c.Holding m.arena σ vs) :
    c.drainStack.run m = .ok vs.reverse { m with arena := m.arena.setStack σ [] } := by
  have hread : (m.arena.setStack σ []).Reads c.scope (m.arena.stackCells σ) vs.reverse :=
    h.reads.mono fun cell _ w hw => (Arena.valueOf_modifyStack ..).trans hw
  have hends : c.drainStack.Ends m
      (fun ws m' => ws = vs.reverse ∧ m' = { m with arena := m.arena.setStack σ [] })
      fun _ _ => False := by
    unfold Context.drainStack
    rw [ends_bind, h.owns.ends_ownStack, ends_bind, ends_get, ends_bind, ends_modifyArena]
    exact (ends_resolveCells_of_reads
      (m := { m with arena := m.arena.setStack σ [] }) hread).mpr ⟨rfl, rfl⟩
  obtain ⟨ws, m', hrun, rfl, rfl⟩ := hends.run_eq_ok
  exact hrun

/-- **Pushing several values puts them on top of what is there, the first one lowest.** -/
theorem pushAllLocal (h : c.Holding m.arena σ vs) (hF : m.arena.Forest)
    (hws : ∀ w ∈ ws, m.arena.Admits c.scope w) :
    (c.pushAllLocal ws).Ends m
      (fun _ m' => m' = { m with arena := m'.arena } ∧ m.arena.Fills m'.arena ∧
        m.arena.KeepsMeaning m'.arena ∧
        (∀ ρ, ρ ≠ σ → m'.arena.stackCells ρ = m.arena.stackCells ρ) ∧
        c.Holding m'.arena σ (vs ++ ws))
      fun _ _ => False := by
  unfold Context.pushAllLocal
  refine (internValues_stored hF hws).bind ?_
  intro cells m' ⟨hrest, hG, hkept, hcells⟩
  have hfills : m.arena.Fills m'.arena := (Arena.Fills.refl _).grows hG
  have hheld := h.kept hfills hkept (hG.stackCells σ)
  rw [ends_bind, hheld.owns.ends_ownStack, ends_modifyArena]
  have hkept' := Arena.KeepsMeaning.modifyStack hkept σ fun _ =>
    .ofList (cells.reverse ++ m'.arena.stackCells σ)
  refine ⟨?_, hfills.modifyStack σ _, hkept', fun ρ hρ => ?_, hheld.owns.fills ((Arena.Fills.refl
    m'.arena).modifyStack σ _), ?_⟩
  · rw [hrest]
  · rw [Arena.stackCells_setStack, if_neg hρ, hG.stackCells]
  · rw [Arena.stackCells_setStack, if_pos rfl, List.reverse_append]
    have hnew : m'.arena.Reads c.scope (cells.reverse ++ m'.arena.stackCells σ)
        (ws.reverse ++ vs.reverse) := hcells.reverse.append hheld.reads
    exact hnew.mono fun cell _ w hw => (Arena.valueOf_modifyStack ..).trans hw

end Context.Holding

/-! ## 2. A transfer -/

/-- What a scope resolves, a scope with a way out can intern. -/
theorem Arena.Tree.admits {k j : ScopeId} {cells : List Cell} (hT : a.Tree)
    (hreads : a.Reads k cells vs) (hplain : ∀ v ∈ vs, v.isDouble = false) (hj : a.Linked j) :
    ∀ v ∈ vs, a.Admits j v := by
  intro v hv
  refine ⟨hplain v hv, ?_⟩
  by_cases hblock : ∃ h, v = .block h
  · obtain ⟨h, rfl⟩ := hblock
    obtain ⟨cell, -, hcell⟩ := hreads.exists_cell hv
    obtain ⟨hthere, hknown⟩ := hT.known_of_valueOf hcell h rfl
    refine Or.inl ⟨.block h, ?_⟩
    rw [Arena.valueOf, hT.resolveBlock_eq_ok hj hthere hknown]
    rfl
  · exact Or.inr ⟨hj.get?, fun h he => hblock ⟨h, he⟩⟩

/-- Since the machine was `m₀`, payloads have come and cells have moved, and these are the values on the
innermost stacks of two contexts. -/
structure Context.Holdings (m₀ m : Machine) (c d : Context) (σ τ : StackId) (vs ws : List Value) :
    Prop where
  rest : m = { m₀ with arena := m.arena }
  fills : m₀.arena.Fills m.arena
  meaning : m₀.arena.KeepsMeaning m.arena
  mine : c.Holding m.arena σ vs
  theirs : d.Holding m.arena τ ws

namespace Context.Holdings

variable {m₀ : Machine} {pid : Pid} {id : ScopeId}

theorem symm (h : Holdings m₀ m c d σ τ vs ws) : Holdings m₀ m d c τ σ ws vs :=
  ⟨h.rest, h.fills, h.meaning, h.theirs, h.mine⟩

/-- **What was on the one stack is on the other, in reverse, and nothing else has happened.** -/
theorem transfer (h : Holdings m₀ m c d σ τ vs ws) (hT : m₀.arena.Tree) (hne : σ ≠ τ)
    (hd : m₀.arena.Linked d.scope) (hplain : ∀ v ∈ vs, v.isDouble = false) :
    (c.drainStack >>= d.pushAllLocal).Ends m
      (fun _ m' => Holdings m₀ m' c d σ τ [] (ws ++ vs.reverse)) fun _ _ => False := by
  have hstill := h.fills.still
  have hadmits : ∀ v ∈ vs.reverse, m.arena.Admits d.scope v :=
    (hstill.tree hT).admits h.mine.reads (fun v hv => hplain v (List.mem_reverse.mp hv))
      (hstill.alike.linked_iff.mpr hd)
  -- between draining and pushing, only the one stack is another
  have hfills : m.arena.Fills (m.arena.setStack σ []) := (Arena.Fills.refl _).modifyStack σ _
  have hkept : m.arena.KeepsMeaning (m.arena.setStack σ []) :=
    Arena.KeepsMeaning.modifyStack (fun _ _ _ h => h) σ _
  have htheirs : d.Holding (m.arena.setStack σ []) τ ws := by
    refine h.theirs.kept hfills hkept ?_
    rw [Arena.stackCells_setStack, if_neg hne.symm]
  rw [ends_bind_of_run h.mine.drainStack]
  refine (Holding.pushAllLocal (m := { m with arena := m.arena.setStack σ [] }) htheirs
    (hfills.still.alike.forest (hstill.tree hT).forest) fun v hv =>
      (hadmits v hv).modifyStack σ _).mono ?_ fun _ _ hno => hno
  intro _ m' ⟨hrest', hfills', hkept', hstacks, htheirs'⟩
  have hall : m.arena.Fills m'.arena := hfills.trans hfills'
  refine ⟨?_, h.fills.trans hall, fun k cell v hv => hkept' k cell v (hkept k cell v
    (h.meaning k cell v hv)), ⟨h.mine.owns.fills hall, ?_⟩, htheirs'⟩
  · rw [hrest', h.rest]
  · rw [hstacks σ hne, Arena.stackCells_setStack, if_pos rfl]
    exact rfl

end Context.Holdings

/-! ## 3. What a transfer leaves alone -/

/-- Since the machine was `m`, payloads have come, and of the stacks only the innermost one of the
context and that of the process have changed. -/
structure Machine.Confined (c : Context) (pid : Pid) (m m' : Machine) : Prop where
  rest : m' = { m with arena := m'.arena }
  fills : m.arena.Fills m'.arena
  elsewhere {ρ : StackId} : ¬ c.Owns m.arena ρ →
    (∀ id, m.processes.get? pid = some id → ¬ (c.bodyOf id).Owns m.arena ρ) →
    m'.arena.stackCells ρ = m.arena.stackCells ρ

namespace Machine.Confined

variable {pid : Pid} {n : Machine}

theorem refl (c : Context) (pid : Pid) (m : Machine) : m.Confined c pid m :=
  ⟨rfl, .refl _, fun _ _ => rfl⟩

/-- A stack that may change changes. -/
theorem modifyStack (h : m.Confined c pid n)
    (hσ : c.Owns n.arena σ ∨ ∃ id, m.processes.get? pid = some id ∧ (c.bodyOf id).Owns n.arena σ)
    (f : CellStack → CellStack) :
    m.Confined c pid { n with arena := n.arena.modifyStack σ f } where
  rest := by rw [h.rest]
  fills := h.fills.modifyStack σ f
  elsewhere {ρ} hc hd := by
    have hne : ρ ≠ σ := by
      rintro rfl
      rcases hσ with hσ | ⟨id, hid, hσ⟩
      · exact hc (hσ.of_fills h.fills)
      · exact hd id hid (hσ.of_fills h.fills)
    rw [Arena.stackCells, Arena.stack_modifyStack, if_neg hne]
    exact h.elsewhere hc hd

end Machine.Confined

namespace Context

variable {e : Context} {pid : Pid}

/-- The context itself, or that of the process. -/
def Concerned (c : Context) (pid : Pid) (m : Machine) (e : Context) : Prop :=
  e = c ∨ ∃ id, m.processes.get? pid = some id ∧ e = c.bodyOf id

theorem Concerned.owns (he : c.Concerned pid m e) (h : e.Owns a σ) :
    c.Owns a σ ∨ ∃ id, m.processes.get? pid = some id ∧ (c.bodyOf id).Owns a σ := by
  rcases he with rfl | ⟨id, hid, rfl⟩
  · exact Or.inl h
  · exact Or.inr ⟨id, hid, h⟩

theorem drainStack_confined (he : c.Concerned pid m e) :
    Keeps (m.Confined c pid) e.drainStack fun _ => True := by
  intro n hn
  unfold drainStack
  refine Ends.bind ((e.ownStack_ends n).mono (fun _ _ h => h) fun _ _ h => h ▸ hn) ?_
  intro σ n' ⟨hn', hσ⟩
  subst hn'
  rw [ends_bind, ends_get, ends_bind, ends_modifyArena]
  exact OffArena.resolveCells e _ _ (hn.modifyStack (he.owns hσ) _)

theorem pushAllLocal_confined (hT : m.arena.Tree) (he : c.Concerned pid m e) (vs : List Value) :
    Keeps (m.Confined c pid) (e.pushAllLocal vs) fun _ => True := by
  intro n hn
  have hcells : (vs.mapM e.internValue).Ends n (fun _ => m.Confined c pid)
      fun _ => m.Confined c pid := by
    have hgains := internValues_gains (hn.fills.still.tree hT) e vs
    have hrest := (OffArena.internValues (P := fun n' => n' = { n with arena := n'.arena })
      (fun _ b h => by rw [h]) e vs).ends (m := n) rfl
    have hnow {n' : Machine} (hg : Gains n n') (hrest : n' = { n with arena := n'.arena }) :
        m.Confined c pid n' := by
      refine ⟨?_, hn.fills.grows hg.grows, fun hc hd => ?_⟩
      · rw [hrest, hn.rest]
      · rw [hg.grows.stackCells]
        exact hn.elsewhere hc hd
    exact (hgains.and hrest).mono (fun _ _ h => hnow h.1 h.2) fun _ _ h => hnow h.1 h.2
  unfold pushAllLocal
  refine hcells.bind ?_
  intro cells n₁ hn₁
  refine Ends.bind ((e.ownStack_ends n₁).mono (fun _ _ h => h) fun _ _ h => h ▸ hn₁) ?_
  intro σ n₂ ⟨hn₂, hσ⟩
  subst hn₂
  exact ⟨hn₁.modifyStack (he.owns hσ) _, trivial⟩

/-- A process that is live is reached in its body. -/
theorem ends_ofPid {α : Type} {f : Context → Action α} {Q : α → Machine → Prop}
    {E : Failure → Machine → Prop} :
    (c.ofPid pid >>= f).Ends m Q E ↔
      (∀ id, m.processes.get? pid = some id → (f (c.bodyOf id)).Ends m Q E) ∧
      (m.processes.get? pid = none → E ⟨.noProcess pid, none⟩ m) := by
  unfold ofPid ProcessTable.get
  rw [bind_assoc, ends_bind, ends_get]
  cases m.processes.get? pid with
  | none => exact ⟨fun h => ⟨nofun, fun _ => h⟩, fun h => h.2 rfl⟩
  | some id => exact ⟨fun h => ⟨fun _ he => by cases he; exact h, nofun⟩, fun h => h.1 id rfl⟩

/-- **However it ends, a transfer leaves all else alone.** -/
theorem sendAllTo_confined (hT : m.arena.Tree) (c : Context) (pid : Pid) :
    (c.sendAllTo pid).Ends m (fun _ => m.Confined c pid) fun _ => m.Confined c pid := by
  unfold sendAllTo
  rw [ends_ofPid]
  refine ⟨fun id hid => ?_, fun _ => .refl c pid m⟩
  have hmove : Keeps (m.Confined c pid) (c.drainStack >>= (c.bodyOf id).pushAllLocal) fun _ => True :=
    (drainStack_confined (Or.inl rfl)).bind fun vs _ =>
      pushAllLocal_confined hT (Or.inr ⟨id, hid, rfl⟩) vs
  exact hmove.ends (.refl c pid m)

theorem takeAllFrom_confined (hT : m.arena.Tree) (c : Context) (pid : Pid) :
    (c.takeAllFrom pid).Ends m (fun _ => m.Confined c pid) fun _ => m.Confined c pid := by
  unfold takeAllFrom
  rw [ends_ofPid]
  refine ⟨fun id hid => ?_, fun _ => .refl c pid m⟩
  have hmove : Keeps (m.Confined c pid) ((c.bodyOf id).drainStack >>= c.pushAllLocal) fun _ => True :=
    (drainStack_confined (Or.inr ⟨id, hid, rfl⟩)).bind fun vs _ =>
      pushAllLocal_confined hT (Or.inl rfl) vs
  exact hmove.ends (.refl c pid m)

end Context

/-! ## 4. Transfers in reachable states -/

namespace Context

variable {m₀ : Machine} {pid : Pid} {id : ScopeId}

/-- A move to or from a process that is live is one between the context and its body. -/
theorem Holdings.ofPid {f : Context → Action Unit} {vs' ws' : List Value}
    (h : Holdings m₀ m c (c.bodyOf id) σ τ vs ws) (hpid : m₀.processes.get? pid = some id)
    (hmove : (f (c.bodyOf id)).Ends m
      (fun _ m' => Holdings m₀ m' c (c.bodyOf id) σ τ vs' ws') fun _ _ => False) :
    ∃ m', (c.ofPid pid >>= f).outcome m = (.ok (), m') ∧
      Holdings m₀ m' c (c.bodyOf id) σ τ vs' ws' := by
  have hget : m.processes.get? pid = some id := by
    rw [h.rest]
    exact hpid
  have hends : (c.ofPid pid >>= f).Ends m
      (fun _ m' => Holdings m₀ m' c (c.bodyOf id) σ τ vs' ws') fun _ _ => False := by
    rw [ends_ofPid]
    refine ⟨fun id' hid' => ?_, fun hnone => ?_⟩
    · cases hget.symm.trans hid'
      exact hmove
    · cases hget.symm.trans hnone
  obtain ⟨_, m', hrun, hm'⟩ := hends.run_eq_ok
  refine ⟨m', ?_, hm'⟩
  rw [Action.outcome, hrun]

/-- **Sending all adds what was on the own stack, in reverse, to that of the process.** -/
theorem Holdings.sendAllTo (h : Holdings m₀ m c (c.bodyOf id) σ τ vs ws) (hT : m₀.arena.Tree)
    (hpid : m₀.processes.get? pid = some id) (hne : σ ≠ τ) (hid : m₀.arena.Linked id)
    (hplain : ∀ v ∈ vs, v.isDouble = false) :
    ∃ m', (c.sendAllTo pid).outcome m = (.ok (), m') ∧
      Holdings m₀ m' c (c.bodyOf id) σ τ [] (ws ++ vs.reverse) :=
  h.ofPid hpid (h.transfer hT hne hid hplain)

/-- **Taking all adds what was on the stack of the process, in reverse, to the own one.** -/
theorem Holdings.takeAllFrom (h : Holdings m₀ m c (c.bodyOf id) σ τ vs ws) (hT : m₀.arena.Tree)
    (hpid : m₀.processes.get? pid = some id) (hne : σ ≠ τ) (hc : m₀.arena.Linked c.scope)
    (hplain : ∀ w ∈ ws, w.isDouble = false) :
    ∃ m', (c.takeAllFrom pid).outcome m = (.ok (), m') ∧
      Holdings m₀ m' c (c.bodyOf id) σ τ (vs ++ ws.reverse) [] :=
  h.ofPid hpid ((h.symm.transfer hT hne.symm hc hplain).mono (fun _ _ h => h.symm) fun _ _ hno => hno)

/-- Nobody can be reached by a pid that is not in the table. -/
theorem ofPid_none {f : Context → Action Unit} (hpid : m.processes.get? pid = none) :
    (c.ofPid pid >>= f).outcome m = (.error ⟨.noProcess pid, none⟩, m) := by
  have hends : (c.ofPid pid >>= f).Ends m (fun _ _ => False)
      fun e m' => e = ⟨.noProcess pid, none⟩ ∧ m' = m := by
    rw [ends_ofPid]
    refine ⟨fun id hid => ?_, fun _ => ⟨rfl, rfl⟩⟩
    cases hpid.symm.trans hid
  rcases hends.outcome with ⟨_, _, -, hno⟩ | ⟨_, _, ho, rfl, rfl⟩
  · exact hno.elim
  · exact ho

/-- What is read off the own stack and off that of a process, by each from where it is. -/
structure ReadsBoth (c : Context) (id : ScopeId) (m : Machine) (own theirs : List Value) : Prop where
  own : c.stackValues.outcome m = (.ok own, m)
  theirs : (c.bodyOf id).stackValues.outcome m = (.ok theirs, m)

theorem Holdings.readsBoth (h : Holdings m₀ m c (c.bodyOf id) σ τ vs ws) : c.ReadsBoth id m vs ws :=
  ⟨h.mine.outcome, h.theirs.outcome⟩

/-- Where success and failure leave all else alone, what comes of it does. -/
theorem outcome_confined {x : Action Unit}
    (h : x.Ends m (fun _ => m.Confined c pid) fun _ => m.Confined c pid) :
    m.Confined c pid (x.outcome m).2 := by
  rcases h.outcome with ⟨_, m', ho, hm'⟩ | ⟨_, m', ho, hm'⟩
  · rw [ho]
    exact hm'
  · rw [ho]
    exact hm'

end Context

namespace Ensemble

/-- **Transfers between processes lose and invent nothing.** In every reachable state, from every scope
with a way out (the others are blocks whose opening failed, where nobody ever is) and with any live
process whose stack is another one, sending all leaves the own stack empty and that of the process with
what was sent on top, in reverse; taking all leaves that of the process empty and the own one with what
was taken on top, in reverse. So what is sent and taken back is in its old order, below what was taken
with it. Whatever any cell stood for, it stands for still. A pid that is not in the table is an error,
and nothing has changed. However a transfer ends, all other stacks, all variables and all code are as
they were. -/
theorem Reachable.transfers_conserve {w : Ensemble} (hw : w.Reachable) {c : Context}
    (hc : w.machine.arena.Linked c.scope) (pid : Pid) :
    (w.machine.processes.get? pid = none →
      (Fault.noProcess pid).kind = .invalidProcess ∧
      (c.sendAllTo pid).outcome w.machine = (.error ⟨.noProcess pid, none⟩, w.machine) ∧
      (c.takeAllFrom pid).outcome w.machine = (.error ⟨.noProcess pid, none⟩, w.machine)) ∧
    (∀ (id : ScopeId) (σ τ : StackId) (S T : List Value), w.machine.processes.get? pid = some id →
      c.Owns w.machine.arena σ → (c.bodyOf id).Owns w.machine.arena τ → σ ≠ τ →
      c.ReadsBoth id w.machine S T → (∀ v ∈ S ++ T, v.isDouble = false) →
      (∃ m₁, (c.sendAllTo pid).outcome w.machine = (.ok (), m₁) ∧
        c.ReadsBoth id m₁ [] (T ++ S.reverse) ∧ w.machine.arena.KeepsMeaning m₁.arena ∧
        ∃ m₂, (c.takeAllFrom pid).outcome m₁ = (.ok (), m₂) ∧
          c.ReadsBoth id m₂ (S ++ T.reverse) [] ∧ w.machine.arena.KeepsMeaning m₂.arena) ∧
      ∃ m₃, (c.takeAllFrom pid).outcome w.machine = (.ok (), m₃) ∧
        c.ReadsBoth id m₃ (S ++ T.reverse) [] ∧ w.machine.arena.KeepsMeaning m₃.arena) ∧
    w.machine.Confined c pid ((c.sendAllTo pid).outcome w.machine).2 ∧
    w.machine.Confined c pid ((c.takeAllFrom pid).outcome w.machine).2 := by
  have hT := hw.sound.regular.tree
  refine ⟨fun hnone => ⟨rfl, Context.ofPid_none hnone, Context.ofPid_none hnone⟩, ?_,
    Context.outcome_confined (c.sendAllTo_confined hT pid),
    Context.outcome_confined (c.takeAllFrom_confined hT pid)⟩
  intro id σ τ S T hpid hown htheirs hne hreads hplain
  have hplainS : ∀ v ∈ S, v.isDouble = false := fun v hv => hplain v (List.mem_append_left _ hv)
  have hplainT : ∀ v ∈ T, v.isDouble = false := fun v hv => hplain v (List.mem_append_right _ hv)
  have hid : w.machine.arena.Linked id := by
    obtain ⟨-, s, hs, -⟩ := htheirs.resolve_left nofun
    exact (hw.housed pid id hpid).2 s hs
  have h₀ : Context.Holdings w.machine w.machine c (c.bodyOf id) σ τ S T :=
    ⟨rfl, .refl _, fun _ _ _ h => h, .of_outcome hT hown hreads.own,
      .of_outcome hT htheirs hreads.theirs⟩
  obtain ⟨m₁, hsend, h₁⟩ := h₀.sendAllTo hT hpid hne hid hplainS
  obtain ⟨m₃, htake, h₃⟩ := h₀.takeAllFrom hT hpid hne hc hplainT
  have hback : ∀ v ∈ T ++ S.reverse, v.isDouble = false := by
    intro v hv
    rcases List.mem_append.mp hv with hv | hv
    · exact hplainT v hv
    · exact hplainS v (List.mem_reverse.mp hv)
  obtain ⟨m₂, hreturn, h₂⟩ := h₁.takeAllFrom hT hpid hne hc hback
  have horder : [] ++ (T ++ S.reverse).reverse = S ++ T.reverse := by
    rw [List.nil_append, List.reverse_append, List.reverse_reverse]
  rw [horder] at h₂
  exact ⟨⟨m₁, hsend, h₁.readsBoth, h₁.meaning, m₂, hreturn, h₂.readsBoth, h₂.meaning⟩,
    m₃, htake, h₃.readsBoth, h₃.meaning⟩

/-- A process is spawned with a number on its stack, and the top level adds a text and a block to its own
one. -/
theorem exists_spawned : ∃ w : Ensemble, w.Reachable ∧ w.machine.processes.get? 1 = some 2 ∧
    Context.top.Holding w.machine.arena 1 [.int 7, .str "b", .block 3] ∧
    (Context.top.bodyOf 2).Holding w.machine.arena 3 [.int 7] := by
  obtain ⟨m₀, main, hm₀, hw⟩ : ∃ m₀ main, m₀ = (Thread.steps 20
      { agenda := [.source .top (.ofText "" "7 [ ] !! drop \"b\" [ ]")] }
      (Environment.freshMachine {} fun _ => none).2).2.2 ∧ Reachable ⟨m₀, main, []⟩ :=
    ⟨_, _, rfl, ((Reachable.start {} (fun _ => none) .standard).request
      [.source .top (.ofText "" "7 [ ] !! drop \"b\" [ ]")] rfl (fun job hj => by
        cases List.mem_singleton.mp hj
        exact fun d hd => (Option.some.inj hd).symm)).steps 20⟩
  have hpid : m₀.processes.get? 1 = some 2 := by
    rw [hm₀]
    decide +kernel
  have hstacks : (m₀.arena.get? 1).map (·.stack) = some 1 ∧ (m₀.arena.get? 2).map (·.stack) = some 3 ∧
      m₀.arena.stackCells 1 = [.block 3, .str (ContentHash.standard.text "b"), .int 7] ∧
      m₀.arena.stackCells 3 = [.int 7] := by
    rw [hm₀]
    decide +kernel
  have hfound : m₀.arena.payloadOn String (m₀.arena.chain 1) (ContentHash.standard.text "b") = some "b" ∧
      (m₀.arena.get? 3).isSome = true ∧ rootScope ∈ m₀.arena.scopesKnowing 3 := by
    rw [hm₀]
    decide +kernel
  obtain ⟨hown, htheirs, hcells, hcells'⟩ := hstacks
  obtain ⟨htext, hthere, hknown⟩ := hfound
  obtain ⟨r, hr, hrσ⟩ := Option.map_eq_some_iff.mp hown
  obtain ⟨s, hs, hsτ⟩ := Option.map_eq_some_iff.mp htheirs
  have hT : m₀.arena.Tree := hw.sound.regular.tree
  have hblock : m₀.arena.resolveBlock 1 3 = .ok 3 :=
    hT.resolveBlock_eq_ok hT.linked_root (Option.isSome_iff_exists.mp hthere) hknown
  refine ⟨_, hw, hpid, ⟨Or.inr ⟨rfl, r, hr, hrσ⟩, ?_⟩, Or.inr ⟨rfl, s, hs, hsτ⟩, ?_⟩
  · show (m₀.arena.stackCells 1).map (m₀.arena.valueOf 1) = _
    simp only [hcells, List.map_cons, List.map_nil, Arena.valueOf, hblock,
      Arena.resolve_eq_ok_iff.mpr htext]
    rfl
  · show (m₀.arena.stackCells 3).map (m₀.arena.valueOf 2) = _
    rw [hcells']
    rfl

/-- The top level sends all to the process and takes all back, or just takes what it has. -/
theorem Reachable.transfers_conserve_spawned : ∃ (w : Ensemble) (m₁ m₂ m₃ : Machine), w.Reachable ∧
    w.machine.processes.get? 1 = some 2 ∧
    Context.top.ReadsBoth 2 w.machine [.int 7, .str "b", .block 3] [.int 7] ∧
    (Context.top.sendAllTo 1).outcome w.machine = (.ok (), m₁) ∧
    Context.top.ReadsBoth 2 m₁ [] [.int 7, .block 3, .str "b", .int 7] ∧
    (Context.top.takeAllFrom 1).outcome m₁ = (.ok (), m₂) ∧
    Context.top.ReadsBoth 2 m₂ [.int 7, .str "b", .block 3, .int 7] [] ∧
    (Context.top.takeAllFrom 1).outcome w.machine = (.ok (), m₃) ∧
    Context.top.ReadsBoth 2 m₃ [.int 7, .str "b", .block 3, .int 7] [] := by
  obtain ⟨w, hw, hpid, hmine, hprocess⟩ := exists_spawned
  have hreads : Context.top.ReadsBoth 2 w.machine [.int 7, .str "b", .block 3] [.int 7] :=
    ⟨hmine.outcome, hprocess.outcome⟩
  obtain ⟨⟨m₁, hsend, h₁, -, m₂, hback, h₂, -⟩, m₃, htake, h₃, -⟩ :=
    (hw.transfers_conserve (c := .top) hw.sound.regular.tree.linked_root 1).2.1 2 1 3 _ _ hpid
      hmine.owns hprocess.owns (by decide) hreads (by simp [Value.isDouble])
  exact ⟨w, m₁, m₂, m₃, hw, hpid, hreads, hsend, h₁, hback, h₂, htake, h₃⟩

end Ensemble

end ScopeStack
