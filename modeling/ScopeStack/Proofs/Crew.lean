import ScopeStack.Proofs.Pids
import ScopeStack.Proofs.Sessions
import ScopeStack.Proofs.Spared

/-!
# Processes side by side

Any number of processes work on one machine. Each holds the lock for one thing at a time and then
lets go of it, so what happens is a sequence of such moves, in any order. A call takes three of them:
the block is looked for, then the call is listed with it if it is still there, and in the end the
entry is taken out.

* `Crew`: the machine with the calls that are under way and the processes that have not ended.
  `Move`: what happens between two states; `Move.Allowed`: who may do it.
* `Crew.Sound`: the invariant. One lemma for each kind of move (`Sound.tended`, `Sound.setCalls`,
  `Sound.claim`, `Sound.finish`); every move keeps it (`Sound.perform`).
* `Crew.Accounted`: **processes, their scopes and the process table agree, nothing that runs is taken
  out, and every process has a parent process.**
-/

namespace ScopeStack

open ScopeStack.Action

/-! ## 1. Moves -/

/-- A machine and what is under way on it. -/
structure Crew where
  machine : Machine
  /-- Calls whose block has been found and that are not listed with it yet. -/
  prepared : List Call := []
  /-- Calls in progress. -/
  calls : List Call := []
  /-- Processes that have been spawned and have not ended. -/
  tasks : List Task := []

/-- Something that is done while the lock is held. -/
inductive Move where
  | openBlock (c : Context) (kind : BlockKind)
  | finishBlock (c : Context) (kind : BlockKind) (location : Location)
  | internText (c : Context) (text : String)
  | internNumber (c : Context) (n : Number)
  | define (c : Context) (name : String) (cell : Cell) (strict : Bool)
  | forget (c : Context) (name : String)
  | discardTransient (c : Context) (v : Value)
  | prepareCall (c : Context) (h : Handle)
  | enterCall (call : Call)
  | endCall (call : Call)
  | claim (c : Context) (h : Handle)
  | finishProcess (task : Task)
  /-- A stack gets other cells. -/
  | setStack (stack : StackId) (cells : List Cell)
  /-- An instruction is compiled. -/
  | append (id : ScopeId) (i : Instruction)

namespace Crew

/-- The machine as the action leaves it. -/
def after {α : Type} (w : Crew) (x : Action α) : Crew := { w with machine := (x.outcome w.machine).2 }

/-- Code runs in the scope: as a process, in a call, or while it is compiled. -/
def Works (w : Crew) (id : ScopeId) : Prop :=
  (∃ pid, w.machine.processes.get? pid = some id) ∨ (∃ call ∈ w.calls, call.block = id) ∨
  ∃ k s, w.machine.arena.get? k = some s ∧ id ∈ s.compileStack

end Crew

namespace Move

/-- The crew after a move. What fails keeps the changes it has made. -/
def perform (w : Crew) : Move → Crew
  | openBlock c kind => w.after (c.openBlock kind)
  | finishBlock c kind location => w.after (c.finishBlock kind location)
  | internText c text => w.after (c.internText text)
  | internNumber c n => w.after (c.internNumber n)
  | define c name cell strict => w.after (c.define name cell strict)
  | forget c name => w.after (c.forget name)
  | discardTransient c v => w.after (c.discardTransient v)
  | prepareCall c h =>
    match (c.prepareCall h).outcome w.machine with
    | (.ok (_, call), machine) => { w with machine, prepared := call :: w.prepared }
    | (.error _, machine) => { w with machine }
  | enterCall call =>
    match (Context.enterCall call).outcome w.machine with
    | (.ok _, machine) =>
      { w with machine, prepared := w.prepared.erase call, calls := call :: w.calls }
    | (.error _, machine) => { w with machine, prepared := w.prepared.erase call }
  | endCall call => { w.after (Context.endCall call) with calls := w.calls.erase call }
  | claim c h =>
    match (c.claim h).outcome w.machine with
    | (.ok (_, task), machine) => { w with machine, tasks := task :: w.tasks }
    | (.error _, machine) => { w with machine }
  | finishProcess task =>
    { w with
      machine := (w.machine.finishProcess task.scope task.pid).2, tasks := w.tasks.erase task }
  | setStack stack cells => w.after (modifyArena (·.setStack stack cells))
  | append id i => w.after (modifyScope id (·.append i))

/-- When a move can be made. Blocks are opened from scopes in which code runs, what is defined is not
the top level, and calls and processes end that have begun. The search for a process id ends only if
there is one that is not in use. -/
def Allowed (w : Crew) : Move → Prop
  | openBlock c _ => w.Works c.scope
  | define _ _ cell _ => cell ≠ .block rootScope
  | enterCall call => call ∈ w.prepared
  | endCall call => call ∈ w.calls
  | claim _ _ => w.machine.processes.HasRoom
  | finishProcess task => task ∈ w.tasks
  | finishBlock .. | internText .. | internNumber .. | forget .. | discardTransient ..
  | prepareCall .. | setStack .. | append .. => True

end Move

namespace Crew

/-- The states that a new runtime gets to. -/
inductive Reachable : Crew → Prop where
  | fresh (config : Config) (files : FileSource) (hash : ContentHash) :
      Reachable { machine := { (Environment.freshMachine config files).2 with hash } }
  | move {w : Crew} (move : Move) : Reachable w → move.Allowed w → Reachable (move.perform w)

end Crew

/-! ## 2. The invariant -/

namespace Arena

/-- Calls that are under way are those of scopes that hang from the top level. -/
structure Moored (a : Arena) (prepared calls : List Call) : Prop where
  tree : a.Tree
  bound : a.NoRootBound
  inProgress : a.InProgress calls
  called {call : Call} : call ∈ calls → a.Linked call.block
  prepared {call : Call} : call ∈ prepared → call.block ≤ a.lastScope ∧
    ∀ s, a.get? call.block = some s → a.Linked call.block

/-- The marks of the scopes and the process table agree. -/
structure Booked (a : Arena) (t : ProcessTable) : Prop where
  root {s : Scope} : a.get? rootScope = some s →
    s.running = false ∧ s.spawned = false ∧ s.pid = rootPid
  rootProcess : t.get? rootPid = some rootScope
  process {pid : Pid} {id : ScopeId} : pid ≠ rootPid → t.get? pid = some id → a.Linked id ∧
    ∀ s, a.get? id = some s → s.running = true ∧ s.spawned = true ∧ s.pid = pid
  enrolled {id : ScopeId} {s : Scope} : a.get? id = some s →
    s.running = true ∨ s.spawned = true → t.get? s.pid = some id
  last : PidInRange t.last

variable {a b : Arena} {prepared calls : List Call} {t : ProcessTable}

/-- A change that spares what is busy. -/
theorem Moored.spares (h : a.Moored prepared calls) (hS : a.Spares b) : b.Moored prepared calls where
  tree := hS.tree
  bound := hS.bound
  inProgress := by
    refine h.inProgress.of_calls (fun k u hu => ?_) fun k s hs hne => (hS.busy hs (Or.inr hne)).2
    rcases hS.of_get? hu with ⟨s, hs, -, -, -, hc⟩ | ⟨hlt, -, -, hc⟩
    · exact Or.inl ⟨s, hs, hc⟩
    · exact Or.inr ⟨h.tree.forest.get?_of_last_lt hlt, hc⟩
  called {call} hc := by
    obtain ⟨s, hs⟩ := h.inProgress.live hc
    have hne : s.calls ≠ [] := List.ne_nil_of_mem (h.inProgress.mem_calls hc hs)
    obtain ⟨-, u, hu⟩ := hS.busy hs (Or.inr hne)
    exact hS.linked (h.called hc) hu
  prepared {call} hc := by
    obtain ⟨hle, hl⟩ := h.prepared hc
    refine ⟨Nat.le_trans hle hS.lastScope, fun u hu => ?_⟩
    rcases hS.of_get? hu with ⟨s, hs, -⟩ | ⟨hlt, -⟩
    · exact hS.linked (hl s hs) hu
    · exact absurd hle (Nat.not_le_of_lt hlt)

/-- A change that leaves scopes and variables where they are, while calls may begin and end. -/
theorem Moored.alike {prepared' calls' : List Call} (h : a.Moored prepared calls) (hA : a.Alike b)
    (hbound : b.NoRootBound) (hC : b.InProgress calls')
    (hcalled : ∀ call ∈ calls', a.Linked call.block)
    (hprepared : ∀ call ∈ prepared', call ∈ prepared) : b.Moored prepared' calls' where
  tree := hA.tree h.tree
  bound := hbound
  inProgress := hC
  called hc := hA.linked_iff.mpr (hcalled _ hc)
  prepared {call} hc := by
    obtain ⟨hle, hl⟩ := h.prepared (hprepared call hc)
    refine ⟨hA.lastScope ▸ hle, fun u hu => hA.linked_iff.mpr ?_⟩
    obtain ⟨s, hs, -⟩ := hA.get? hu
    exact hl s hs

/-- A block has been found. -/
theorem Moored.prepare (h : a.Moored prepared calls) {call : Call} (hl : a.Linked call.block) :
    a.Moored (call :: prepared) calls :=
  { h with
    prepared := fun hc => by
      rcases List.mem_cons.mp hc with rfl | hc
      · obtain ⟨s, hs⟩ := hl.get?
        exact ⟨h.tree.forest.le_last hs, fun _ _ => hl⟩
      · exact h.prepared hc }

/-- Nobody's marks change, whoever comes has none, and whoever runs stays. -/
theorem Booked.of_marks (h : a.Booked t) (hroot : ∃ s, a.get? rootScope = some s)
    (hof : ∀ k u, b.get? k = some u → (∃ s, a.get? k = some s ∧ u.running = s.running ∧
      u.spawned = s.spawned ∧ u.pid = s.pid) ∨ (a.get? k = none ∧ u.running = false ∧
      u.spawned = false))
    (hlinked : ∀ k s, a.get? k = some s → s.running = true → a.Linked k → b.Linked k) :
    b.Booked t where
  root {u} hu := by
    obtain ⟨s, hs⟩ := hroot
    rcases hof _ u hu with ⟨s', hs', hr, hsp, hpid⟩ | ⟨hnone, -⟩
    · rw [hr, hsp, hpid]
      exact h.root hs'
    · cases hs.symm.trans hnone
  rootProcess := h.rootProcess
  process {pid id} hne hget := by
    obtain ⟨hl, hmarks⟩ := h.process hne hget
    obtain ⟨s, hs⟩ := hl.get?
    refine ⟨hlinked id s hs (hmarks s hs).1 hl, fun u hu => ?_⟩
    rcases hof _ u hu with ⟨s', hs', hr, hsp, hpid⟩ | ⟨hnone, -⟩
    · rw [hr, hsp, hpid]
      exact hmarks s' hs'
    · cases hs.symm.trans hnone
  enrolled {id u} hu hmarks := by
    rcases hof _ u hu with ⟨s, hs, hr, hsp, hpid⟩ | ⟨-, hr, hsp⟩
    · rw [hr, hsp] at hmarks
      rw [hpid]
      exact h.enrolled hs hmarks
    · rw [hr, hsp] at hmarks
      cases hmarks <;> contradiction
  last := h.last

theorem Booked.spares (h : a.Booked t) (hT : a.Tree) (hS : a.Spares b) : b.Booked t := by
  obtain ⟨r, hr, -⟩ := hT.root
  refine h.of_marks ⟨r, hr⟩ (fun k u hu => ?_) fun k s hs hrun hl => ?_
  · rcases hS.of_get? hu with ⟨s, hs, hr, hsp, hpid, -⟩ | ⟨hlt, hr, hsp, -⟩
    · exact Or.inl ⟨s, hs, hr, hsp, hpid⟩
    · exact Or.inr ⟨hT.forest.get?_of_last_lt hlt, hr, hsp⟩
  · obtain ⟨-, u, hu⟩ := hS.busy hs (Or.inl hrun)
    exact hS.linked hl hu

/-- A scope that does not run is no process. -/
theorem Booked.not_process (h : a.Booked t) {id : ScopeId} {s : Scope} (hs : a.get? id = some s)
    (hrun : s.running = false) {pid : Pid} (hne : pid ≠ rootPid) : t.get? pid ≠ some id := by
  intro hget
  obtain ⟨-, hmarks⟩ := h.process hne hget
  rw [(hmarks s hs).1] at hrun
  cases hrun

/-- **A block becomes a process under a free id.** -/
theorem Booked.claim (h : a.Booked t) {block : ScopeId} {s : Scope} (hs : a.get? block = some s)
    (hrun : s.running = false) (hne : block ≠ rootScope) (hl : a.Linked block) {pid : Pid}
    (hfree : t.contains pid = false) (hpid : pid ≠ rootPid) (hrange : PidInRange pid)
    (hA : a.Alike b) (hblock : ∀ u, b.get? block = some u → u.running = true ∧ u.spawned = true ∧
      u.pid = pid) (hother : ∀ k, k ≠ block → b.get? k = a.get? k) :
    b.Booked (({ t with last := pid } : ProcessTable).insert pid block) where
  root hu := h.root (hother _ (Ne.symm hne) ▸ hu)
  rootProcess := by
    rw [ProcessTable.get?_insert, if_neg (Ne.symm hpid)]
    exact h.rootProcess
  process {p id} hp hget := by
    rw [ProcessTable.get?_insert] at hget
    split at hget
    · rename_i he
      cases hget
      exact ⟨hA.linked_iff.mpr hl, fun u hu => he ▸ hblock u hu⟩
    · have hget : t.get? p = some id := hget
      have hid : id ≠ block := fun he => h.not_process hs hrun hp (he ▸ hget)
      obtain ⟨hl', hmarks⟩ := h.process hp hget
      exact ⟨hA.linked_iff.mpr hl', fun u hu => hmarks u (hother id hid ▸ hu)⟩
  enrolled {id u} hu hmarks := by
    rw [ProcessTable.get?_insert]
    by_cases hid : id = block
    · cases hid
      rw [if_pos (hblock u hu).2.2]
    · have hget := h.enrolled (hother id hid ▸ hu) hmarks
      rw [if_neg fun he => ?_]
      · exact hget
      · rw [ProcessTable.contains_eq, ← he, hget] at hfree
        cases hfree
  last := hrange

/-- **A process ends.** -/
theorem Booked.clear (h : a.Booked t) {pid : Pid} {scope : ScopeId} (hne : pid ≠ rootPid)
    (hget : t.get? pid = some scope) (hA : a.Alike b)
    (hscope : ∀ u, b.get? scope = some u → u.running = false ∧ u.spawned = false)
    (hother : ∀ k, k ≠ scope → b.get? k = a.get? k) : b.Booked (t.erase pid) := by
  obtain ⟨hl, hmarks⟩ := h.process hne hget
  obtain ⟨s, hs⟩ := hl.get?
  have hroot : rootScope ≠ scope := fun he => by
    have h₁ := (h.root (he ▸ hs)).1
    rw [(hmarks s hs).1] at h₁
    cases h₁
  constructor
  case root => exact fun hu => h.root (hother _ hroot ▸ hu)
  case rootProcess =>
    rw [ProcessTable.get?_erase, if_neg (Ne.symm hne)]
    exact h.rootProcess
  case process =>
    intro p id hp hget'
    rw [ProcessTable.get?_erase] at hget'
    split at hget'
    · cases hget'
    · rename_i hpne
      obtain ⟨hl', hmarks'⟩ := h.process hp hget'
      have hid : id ≠ scope := fun he => by
        have h₁ := (hmarks' s (he ▸ hs)).2.2
        exact hpne (h₁.symm.trans (hmarks s hs).2.2)
      exact ⟨hA.linked_iff.mpr hl', fun u hu => hmarks' u (hother id hid ▸ hu)⟩
  case enrolled =>
    intro id u hu hm
    by_cases hid : id = scope
    · cases hid
      rw [(hscope u hu).1, (hscope u hu).2] at hm
      cases hm <;> contradiction
    · have hget' := h.enrolled (hother id hid ▸ hu) hm
      rw [ProcessTable.get?_erase, if_neg fun he => ?_]
      · exact hget'
      · rw [he, hget] at hget'
        exact hid (Option.some.inj hget').symm
  case last => exact h.last

end Arena

/-- A scope that is no longer a process. -/
def Scope.cleared (s : Scope) : Scope :=
  { s with
    running := false, spawned := false, pushTarget := none, compileStack := [], pool := none }

/-- A scope that has become a process. -/
def Scope.claimed (s : Scope) (pid : Pid) (stack : StackId) : Scope :=
  { s with spawned := true, running := true, pid, stack, compileStack := [], pushTarget := none }

namespace Crew

/-- Calls, processes and the table agree, and processes end once. -/
structure Sound (w : Crew) : Prop where
  moored : w.machine.arena.Moored w.prepared w.calls
  booked : w.machine.arena.Booked w.machine.processes
  task {task : Task} : task ∈ w.tasks →
    task.pid ≠ rootPid ∧ w.machine.processes.get? task.pid = some task.scope
  pids : (w.tasks.map (·.pid)).Nodup

/-- Busy scopes and those around them are still there. -/
def Spares (w w' : Crew) : Prop :=
  ∀ (k id : ScopeId) (s : Scope), w.machine.arena.get? k = some s → s.Busy →
    id ∈ w.machine.arena.chain k → w'.machine.arena.contains id = true

/-- A sound crew, and nothing busy has gone. -/
structure Goes (w w' : Crew) : Prop where
  sound : w'.Sound
  spares : w.Spares w'

section Sound

variable {w : Crew}

theorem Sound.tree (h : w.Sound) : w.machine.arena.Tree := h.moored.tree

theorem Sound.refl_tended (h : w.Sound) :
    Tended w.machine.arena w.machine.processes w.machine :=
  ⟨.refl h.tree h.moored.bound, rfl⟩

/-- A change that spares what is busy. -/
theorem Sound.tended (h : w.Sound) {m : Machine}
    (hm : Tended w.machine.arena w.machine.processes m) : w.Goes { w with machine := m } where
  sound :=
    { moored := h.moored.spares hm.spares
      booked := hm.processes ▸ h.booked.spares h.tree hm.spares
      task := fun ht => hm.processes ▸ h.task ht
      pids := h.pids }
  spares _ _ _ hs hb hid := hm.spares.contains hs hb hid

/-- An action that spares what is busy however it ends. -/
theorem Sound.after (h : w.Sound) {α : Type} {x : Action α}
    (hx : x.Ends w.machine (fun _ m => Tended w.machine.arena w.machine.processes m)
      fun _ m => Tended w.machine.arena w.machine.processes m) : w.Goes (w.after x) := by
  rcases hx.outcome with ⟨v, m, he, hm⟩ | ⟨f, m, he, hm⟩
  all_goals
    rw [Crew.after, he]
    exact h.tended hm

theorem Sound.keeps (h : w.Sound) {α : Type} {x : Action α} {good : α → Prop}
    (hx : Keeps (Tended w.machine.arena w.machine.processes) x good) : w.Goes (w.after x) :=
  h.after ((hx _ h.refl_tended).mono (fun _ _ h => h.1) fun _ _ h => h)

/-- Scopes where links stay are all still there. -/
theorem Spares.of_alike {w' : Crew}
    (hA : w.machine.arena.Alike w'.machine.arena) : w.Spares w' := by
  intro k id s _ _ hid
  obtain ⟨t, ht⟩ := Arena.get?_of_mem_chain hid
  obtain ⟨u, hu, -⟩ := hA.get?_of ht
  exact Arena.contains_iff.mpr ⟨u, hu⟩

/-- The calls of a block change, as those under way do. -/
theorem Sound.setCalls (h : w.Sound) {block : ScopeId} {g : List StackId → List StackId}
    {prepared calls : List Call} (hprepared : ∀ call ∈ prepared, call ∈ w.prepared)
    (hcalled : ∀ call ∈ calls, w.machine.arena.Linked call.block)
    (hC : (w.machine.arena.modify block fun s => { s with calls := g s.calls }).InProgress calls) :
    w.Goes { w with
      machine := { w.machine with
        arena := w.machine.arena.modify block fun s => { s with calls := g s.calls } },
      prepared, calls } := by
  have hA : w.machine.arena.Alike (w.machine.arena.modify block fun s =>
      { s with calls := g s.calls }) :=
    .modify _ block _ fun s _ => ⟨rfl, rfl, fun h => h, fun k hk => Or.inl hk⟩
  obtain ⟨r, hr, -⟩ := h.tree.root
  refine ⟨⟨h.moored.alike hA (fun k c t ht hm => ?_) hC hcalled hprepared,
    h.booked.of_marks ⟨r, hr⟩ (fun k u hu => Or.inl ?_) fun k s _ _ hl => hA.linked_iff.mpr hl,
    h.task, h.pids⟩, Spares.of_alike hA⟩
  · obtain ⟨s, hs, ⟨-, rfl⟩ | ⟨-, rfl⟩⟩ := Arena.get?_modify_cases ht
    · exact h.moored.bound k c t hs hm
    · exact h.moored.bound k c s hs hm
  · obtain ⟨s, hs, ⟨-, rfl⟩ | ⟨-, rfl⟩⟩ := Arena.get?_modify_cases hu
    · exact ⟨u, hs, rfl, rfl, rfl⟩
    · exact ⟨s, hs, rfl, rfl, rfl⟩

/-- A call is listed, if its block is still there. -/
theorem Sound.enterCall (h : w.Sound) {call : Call} (hc : call ∈ w.prepared) :
    (Context.enterCall call).Ends w.machine
      (fun _ m => w.Goes { w with
        machine := m, prepared := w.prepared.erase call, calls := call :: w.calls })
      fun _ m => w.Goes { w with machine := m, prepared := w.prepared.erase call } := by
  have hsub (other : Call) (ho : other ∈ w.prepared.erase call) : other ∈ w.prepared :=
    List.mem_of_mem_erase ho
  unfold Context.enterCall
  rw [ends_bind, ends_getScope]
  refine ⟨fun s hs => ?_, fun _ => ?_⟩
  · refine h.setCalls (g := fun calls => call.stack :: calls) hsub (fun other ho => ?_)
      (h.moored.inProgress.enter call hs)
    rcases List.mem_cons.mp ho with rfl | ho
    · exact (h.moored.prepared hc).2 s hs
    · exact h.moored.called ho
  · refine ⟨⟨h.moored.alike (.refl _) h.moored.bound h.moored.inProgress
      (fun _ hc => h.moored.called hc) hsub, h.booked, h.task, h.pids⟩, ?_⟩
    exact Spares.of_alike (.refl _)

/-- The pool of a process is there, or becomes its pool. -/
theorem childPool_ends (c : Context) (m : Machine) :
    c.childPool.Ends m
      (fun _ m' => m'.processes = m.processes ∧ (m'.arena = m.arena ∨
        ∃ id, m'.arena = m.arena.modify c.process fun s => { s with pool := some id }))
      fun _ m' => m' = m := by
  have hnew : c.newPool.Ends m
      (fun _ m' => m'.processes = m.processes ∧ (m'.arena = m.arena ∨
        ∃ id, m'.arena = m.arena.modify c.process fun s => { s with pool := some id }))
      fun _ m' => m' = m :=
    ⟨rfl, Or.inr ⟨_, rfl⟩⟩
  unfold Context.childPool
  rw [ends_bind, ends_getScope]
  refine ⟨fun s _ => ?_, fun _ => rfl⟩
  rw [ends_bind, ends_get]
  split
  · split
    · exact ⟨rfl, Or.inl rfl⟩
    · exact hnew
  · exact hnew

/-- What a spawn does to the block and to the table. -/
theorem ends_claimBlock {block : ScopeId} {m : Machine} {Q : Task → Machine → Prop}
    {E : Failure → Machine → Prop} :
    (Context.claimBlock block).Ends m Q E ↔
      Q ⟨m.processes.allocate.1, block, m.lastToken + 1⟩
        { m with
          arena := m.arena.newStack.2.modify block
            (·.claimed m.processes.allocate.1 m.arena.newStack.1),
          processes := ({ m.processes with last := m.processes.allocate.1 } : ProcessTable).insert
            m.processes.allocate.1 block,
          lastToken := m.lastToken + 1 } :=
  Iff.rfl

/-- **A block becomes a process.** -/
theorem Sound.claimBlock (h : w.Sound) {block : ScopeId} {s : Scope}
    (hs : w.machine.arena.get? block = some s) (hrun : s.running = false)
    (hl : w.machine.arena.Linked block) (hne : block ≠ rootScope)
    (hroom : w.machine.processes.HasRoom) :
    (Context.claimBlock block).Ends w.machine
      (fun task m => ({ w with machine := m, tasks := task :: w.tasks } : Crew).Sound ∧
        w.machine.arena.Alike m.arena)
      fun _ _ => False := by
  obtain ⟨hfree, hpos, hrange⟩ := ProcessTable.allocate_free h.booked.last hroom
  rw [ends_claimBlock]
  generalize w.machine.processes.allocate.1 = pid at hfree hpos hrange ⊢
  have hpid : pid ≠ rootPid := fun he => absurd (he ▸ hpos) (by decide)
  generalize hb : (w.machine.arena.newStack.2.modify block fun s =>
    s.claimed pid w.machine.arena.newStack.1) = b
  have hcases {k : ScopeId} {u : Scope} (hu : b.get? k = some u) :
      ∃ t, w.machine.arena.get? k = some t ∧ ((k ≠ block ∧ u = t) ∨
        (k = block ∧ u = t.claimed pid w.machine.arena.newStack.1)) := by
    rw [← hb] at hu
    exact Arena.get?_modify_cases hu
  have hA : w.machine.arena.Alike b := by
    rw [← hb]
    exact (Arena.Still.newStack _).alike.trans
      (.modify _ block _ fun t _ => ⟨rfl, rfl, fun h => h, fun k hk => (by cases hk)⟩)
  have hother {task : Task} (ht : task ∈ w.tasks) : task.pid ≠ pid := fun he => by
    rw [ProcessTable.contains_eq, ← he, (h.task ht).2] at hfree
    cases hfree
  refine ⟨⟨h.moored.alike hA (fun k c u hu hm => ?_) ?_ (fun _ hc => h.moored.called hc)
    fun _ hc => hc, h.booked.claim hs hrun hne hl hfree hpid hrange hA (fun u hu => ?_)
    fun k hk => ?_, fun {task} htask => ?_, List.nodup_cons.mpr ⟨fun hm => ?_, h.pids⟩⟩, hA⟩
  · obtain ⟨t, ht, ⟨-, rfl⟩ | ⟨-, rfl⟩⟩ := hcases hu
    · exact h.moored.bound k c u ht hm
    · exact h.moored.bound k c t ht hm
  · rw [← hb]
    exact (h.moored.inProgress.still (.newStack _)).modify _ _ fun _ => rfl
  · obtain ⟨t, ht, ⟨hk, -⟩ | ⟨-, rfl⟩⟩ := hcases hu
    · exact absurd rfl hk
    · exact ⟨rfl, rfl, rfl⟩
  · rw [← hb, Arena.get?_modify, if_neg hk]
    rfl
  · rcases List.mem_cons.mp htask with rfl | htask
    · exact ⟨hpid, by rw [ProcessTable.get?_insert, if_pos rfl]⟩
    · obtain ⟨hp, hget⟩ := h.task htask
      refine ⟨hp, ?_⟩
      rw [ProcessTable.get?_insert, if_neg (hother htask)]
      exact hget
  · obtain ⟨task, htask, he⟩ := List.mem_map.mp hm
    exact hother htask he

/-- Spawning a block. -/
theorem Sound.claim (h : w.Sound) (hroom : w.machine.processes.HasRoom) (c : Context)
    (handle : Handle) :
    (c.claim handle).Ends w.machine
      (fun r m => w.Goes { w with machine := m, tasks := r.2 :: w.tasks })
      fun _ m => w.Goes { w with machine := m } := by
  have hstay : w.Goes { w with machine := w.machine } := h.tended h.refl_tended
  unfold Context.claim
  rw [ends_bind, ends_inArena]
  refine ⟨fun block hr => ?_, fun _ _ => hstay⟩
  obtain ⟨rfl, -, hl, hne, -⟩ := h.tree.of_resolveBlock hr
  rw [ends_bind, ends_getScope]
  refine ⟨fun s hs => ?_, fun _ => hstay⟩
  dsimp only
  split
  · exact hstay
  · rename_i hrun
    have hrun : s.running = false := by simpa using hrun
    refine ends_bind.mpr ((childPool_ends c w.machine).mono (fun pool m hm => ?_) fun f m he => ?_)
    · obtain ⟨hp, ha⟩ := hm
      have hT := h.tree
      have hpool (id : PoolId) : w.machine.arena.Spares
          (w.machine.arena.modify c.process fun s => { s with pool := some id }) :=
        .modify hT h.moored.bound _ (fun s => { s with pool := some id })
          (fun _ _ => ⟨rfl, rfl, fun h => h, fun k hk => Or.inl hk⟩) (fun _ => ⟨rfl, rfl, rfl, rfl⟩)
          fun _ _ _ hb => Or.inl hb
      have hA : w.machine.arena.Alike m.arena ∧ w.machine.arena.Spares m.arena := by
        rcases ha with he | ⟨id, he⟩
        · rw [he]
          exact ⟨.refl _, .refl hT h.moored.bound⟩
        · rw [he]
          exact ⟨.modify _ _ _ fun _ _ => ⟨rfl, rfl, fun h => h, fun k hk => Or.inl hk⟩, hpool id⟩
      obtain ⟨hA, hS⟩ := hA
      obtain ⟨t, ht, -⟩ := hA.get?_of hs
      have hrun' : t.running = false := (hS.sameMarks hT.forest hs ht).1.trans hrun
      have hgoes : w.Goes { w with machine := m } := h.tended ⟨hS, hp⟩
      refine ends_bind.mpr ((hgoes.sound.claimBlock ht hrun' (hA.linked_iff.mpr hl) hne
        (hp ▸ hroom)).mono (fun task m' hm' => ?_) fun _ _ hno => hno.elim)
      exact ⟨hm'.1, Spares.of_alike (hA.trans hm'.2)⟩
    · cases he
      exact hstay

/-- How a process ends: its scope is cleared, and goes if nothing refers to it. -/
theorem finishProcess_eq {m : Machine} {scope : ScopeId} {s : Scope} (pid : Pid)
    (hs : m.arena.get? scope = some s) :
    ∃ b, (m.finishProcess scope pid).2 = { m with processes := m.processes.erase pid, arena := b } ∧
      (b = m.arena.modify scope (·.cleared) ∨ ∃ pools,
        (m.arena.modify scope (·.cleared)).isReferenced scope = false ∧
        (m.arena.modify scope (·.cleared)).discard scope = .ok (pools, b)) := by
  unfold Machine.finishProcess
  simp only [hs]
  split
  · exact ⟨_, rfl, Or.inl rfl⟩
  · rename_i hr
    split
    · rename_i pools b hd
      exact ⟨b, rfl, Or.inr ⟨pools, by simpa [Scope.cleared] using hr, hd⟩⟩
    · exact ⟨_, rfl, Or.inl rfl⟩

theorem alike_cleared (a : Arena) (scope : ScopeId) : a.Alike (a.modify scope (·.cleared)) :=
  .modify _ scope _ fun _ _ => ⟨rfl, rfl, fun h => h, fun k hk => (by cases hk)⟩

/-- **A process leaves the table, and its scope is cleared.** -/
theorem Sound.cleared (h : w.Sound) {task : Task} (ht : task ∈ w.tasks) :
    ({ w with
      machine := { w.machine with
        processes := w.machine.processes.erase task.pid,
        arena := w.machine.arena.modify task.scope (·.cleared) },
      tasks := w.tasks.erase task } : Crew).Sound := by
  obtain ⟨hpid, hget⟩ := h.task ht
  have hA := alike_cleared w.machine.arena task.scope
  have hnodup := List.nodup_cons.mp
    (((List.perm_cons_erase ht).map (·.pid)).nodup_iff.mp h.pids)
  refine ⟨h.moored.alike hA (fun k c u hu hm => ?_)
    (h.moored.inProgress.modify _ _ fun _ => rfl) (fun _ hc => h.moored.called hc) fun _ hc => hc,
    h.booked.clear hpid hget hA (fun u hu => ?_) fun k hk => ?_, fun {other} ho => ?_, hnodup.2⟩
  · obtain ⟨t, ht, ⟨-, rfl⟩ | ⟨-, rfl⟩⟩ := Arena.get?_modify_cases hu
    · exact h.moored.bound k c u ht hm
    · exact h.moored.bound k c t ht hm
  · obtain ⟨t, ht, ⟨hk, -⟩ | ⟨-, rfl⟩⟩ := Arena.get?_modify_cases hu
    · exact absurd rfl hk
    · exact ⟨rfl, rfl⟩
  · rw [Arena.get?_modify, if_neg hk]
  · obtain ⟨hp, ho'⟩ := h.task (List.mem_of_mem_erase ho)
    refine ⟨hp, ?_⟩
    rw [ProcessTable.get?_erase, if_neg fun he => hnodup.1 (List.mem_map.mpr ⟨other, ho, he⟩)]
    exact ho'

/-- **A process ends.** Its own scope may go with it, if it is not called; nothing else that is busy
does. -/
theorem Sound.finish (h : w.Sound) {task : Task} (ht : task ∈ w.tasks) :
    ((Move.finishProcess task).perform w).Sound ∧
    ∀ (k id : ScopeId) (s : Scope), w.machine.arena.get? k = some s → s.Busy →
      id ∈ w.machine.arena.chain k →
      ((Move.finishProcess task).perform w).machine.arena.contains id = true ∨
      (id = k ∧ task.scope = k ∧ s.calls = []) := by
  obtain ⟨hpid, hget⟩ := h.task ht
  obtain ⟨hl, hmarks⟩ := h.booked.process hpid hget
  obtain ⟨r, hr⟩ := hl.get?
  obtain ⟨b', hfin, hb'⟩ := finishProcess_eq task.pid hr
  have hperform : (Move.finishProcess task).perform w = { w with
      machine := { w.machine with processes := w.machine.processes.erase task.pid, arena := b' },
      tasks := w.tasks.erase task } := by
    rw [Move.perform, hfin]
  rw [hperform]
  have hsound := h.cleared ht
  have hA := alike_cleared w.machine.arena task.scope
  rcases hb' with rfl | ⟨pools, hunref, hd⟩
  · exact ⟨hsound, fun k id s hs hbusy hid =>
      Or.inl (Spares.of_alike hA k id s hs hbusy hid)⟩
  have hcases {k : ScopeId} {u : Scope}
      (hu : (w.machine.arena.modify task.scope (·.cleared)).get? k = some u) :=
    Arena.get?_modify_cases hu
  generalize w.machine.arena.modify task.scope (·.cleared) = b at hsound hA hunref hd hcases
  have hT : b.Tree := hsound.tree
  have hne : task.scope ≠ rootScope := fun he => by
    have hroot := (h.booked.root (he ▸ hr)).1
    rw [(hmarks r hr).1] at hroot
    cases hroot
  refine ⟨(hsound.tended ((Tended.forgetful hT.forest).discard hsound.refl_tended hne hunref
    hd)).sound, fun k id s hs hbusy hid => ?_⟩
  have hid' : id ∈ b.chain k := (hA.chain_eq h.tree.forest k) ▸ hid
  obtain ⟨u, hu⟩ := Arena.get?_of_mem_chain hid'
  by_cases hmem : task.scope ∈ b.chain id
  · -- what goes is idle now, so it was the process itself that was busy
    obtain ⟨v, hv, -⟩ := hA.get?_of hs
    obtain ⟨hrun, hcalls⟩ := (Arena.unreferenced_of_eq_false hT.forest hunref).idle hv
      (Arena.mem_chain_trans hT.forest hmem hid')
    obtain ⟨s', hs', ⟨-, rfl⟩ | ⟨rfl, rfl⟩⟩ := hcases hv
    · cases hs.symm.trans hs'
      rw [Scope.Busy, hrun, hcalls] at hbusy
      cases hbusy <;> contradiction
    · cases hs.symm.trans hs'
      refine Or.inr ⟨?_, rfl, hcalls⟩
      exact Nat.le_antisymm (Arena.le_of_mem_chain hT.forest hid')
        (Arena.le_of_mem_chain hT.forest hmem)
  · obtain ⟨ks, hks, -⟩ := (Arena.discard_pruned hT.forest hd).kept hu hmem
    exact Or.inl (Arena.contains_iff.mpr ⟨_, hks⟩)

/-- Wherever code runs, a block can be opened. -/
theorem Sound.works (h : w.Sound) {id : ScopeId} (hw : w.Works id) :
    id ≤ w.machine.arena.lastScope ∧
      ∀ s, w.machine.arena.get? id = some s → w.machine.arena.Linked id := by
  have hlinked (hl : w.machine.arena.Linked id) : id ≤ w.machine.arena.lastScope ∧
      ∀ s, w.machine.arena.get? id = some s → w.machine.arena.Linked id := by
    obtain ⟨s, hs⟩ := hl.get?
    exact ⟨h.tree.forest.le_last hs, fun _ _ => hl⟩
  rcases hw with ⟨pid, hget⟩ | ⟨call, hc, rfl⟩ | ⟨k, s, hs, hk⟩
  · by_cases hp : pid = rootPid
    · rw [hp, h.booked.rootProcess] at hget
      exact hlinked (Option.some.inj hget ▸ h.tree.linked_root)
    · exact hlinked (h.booked.process hp hget).1
  · exact hlinked (h.moored.called hc)
  · exact ⟨(h.tree.open_le hs hk).1, fun t ht => h.tree.open_linked hs hk ht⟩

/-- **Every move keeps the crew sound, and nothing goes that is busy but the scope of a process that
ends.** -/
theorem Sound.perform (h : w.Sound) {move : Move} (ha : move.Allowed w) :
    (move.perform w).Sound ∧
    ∀ (k id : ScopeId) (s : Scope), w.machine.arena.get? k = some s → s.Busy →
      id ∈ w.machine.arena.chain k → (move.perform w).machine.arena.contains id = true ∨
      (id = k ∧ s.calls = [] ∧ ∃ task, move = .finishProcess task ∧ task.scope = k) := by
  have hT := h.tree
  have hF := hT.forest
  have hgoes {w' : Crew} (hw : w.Goes w') : w'.Sound ∧
      ∀ (k id : ScopeId) (s : Scope), w.machine.arena.get? k = some s → s.Busy →
        id ∈ w.machine.arena.chain k → w'.machine.arena.contains id = true ∨
        (id = k ∧ s.calls = [] ∧ ∃ task, move = .finishProcess task ∧ task.scope = k) :=
    ⟨hw.sound, fun k id s hs hb hid => Or.inl (hw.spares k id s hs hb hid)⟩
  cases move with
  | openBlock c kind =>
    obtain ⟨hle, hl⟩ := h.works ha
    exact hgoes (h.after (Context.openBlock_tended hF h.refl_tended hle hl kind))
  | finishBlock c kind location =>
    exact hgoes (h.after (Context.finishBlock_tended hF h.refl_tended kind location))
  | internText c text => exact hgoes (h.keeps (Context.internPayload_tended hF _ text))
  | internNumber c n => exact hgoes (h.keeps (Context.internPayload_tended hF _ n))
  | define c name cell strict => exact hgoes (h.keeps (Context.define_tended hF ha name strict))
  | forget c name => exact hgoes (h.keeps (Context.forget_keeps (Tended.forgetful hF) c name))
  | discardTransient c v =>
    exact hgoes (h.keeps (Context.discardTransient_keeps (Tended.forgetful hF).toPrunable c v))
  | prepareCall c handle =>
    rcases (Context.prepareCall_tended hF h.refl_tended handle).outcome with
      ⟨r, m, he, hm, hl⟩ | ⟨f, m, he, hm⟩
    · have hw := h.tended hm
      rw [Move.perform, he]
      exact hgoes ⟨⟨hw.sound.moored.prepare hl, hw.sound.booked, hw.sound.task, hw.sound.pids⟩,
        hw.spares⟩
    · rw [Move.perform, he]
      exact hgoes (h.tended hm)
  | enterCall call =>
    rcases (h.enterCall ha).outcome with ⟨r, m, he, hw⟩ | ⟨f, m, he, hw⟩
    all_goals
      rw [Move.perform, he]
      exact hgoes hw
  | endCall call =>
    have hC := h.moored.inProgress.perm (List.perm_cons_erase ha)
    exact hgoes (h.setCalls (g := fun calls => calls.erase call.stack) (fun _ hc => hc)
      (fun _ hc => h.moored.called (List.mem_of_mem_erase hc)) (hC.leave call))
  | claim c handle =>
    rcases (h.claim ha c handle).outcome with ⟨r, m, he, hw⟩ | ⟨f, m, he, hw⟩
    all_goals
      rw [Move.perform, he]
      exact hgoes hw
  | finishProcess task =>
    obtain ⟨hsound, hkept⟩ := h.finish ha
    refine ⟨hsound, fun k id s hs hb hid => (hkept k id s hs hb hid).imp_right ?_⟩
    rintro ⟨hid, hscope, hcalls⟩
    exact ⟨hid, hcalls, task, rfl, hscope⟩
  | setStack stack cells =>
    refine hgoes (h.tended ⟨.still hT (.modifyStack _ _ _) ?_, rfl⟩)
    exact h.moored.bound
  | append id i =>
    refine hgoes (h.tended ⟨.modify hT h.moored.bound id (·.append i) (fun _ _ =>
      ⟨rfl, rfl, fun h => h, fun k hk => Or.inl hk⟩) (fun _ => ⟨rfl, rfl, rfl, rfl⟩)
      fun _ _ _ hb => Or.inl hb, rfl⟩)

end Sound

/-! ## 3. Reachable crews -/

/-- **A new runtime is sound.** -/
theorem fresh_sound (config : Config) (files : FileSource) (hash : ContentHash) :
    Sound { machine := { (Environment.freshMachine config files).2 with hash } } := by
  have h := Environment.fresh_inOrder config files False False hash
  have hmarks {id : ScopeId} {s : Scope}
      (hs : (Environment.freshMachine config files).2.arena.get? id = some s) :
      s.running = false ∧ s.spawned = false ∧ s.pid = rootPid := by
    rw [(Environment.of_get?_fresh hs).2]
    exact ⟨rfl, rfl, rfl⟩
  have hlast : PidInRange 0 := by
    unfold PidInRange
    decide
  have htable (pid : Pid) : (Environment.freshMachine config files).2.processes.get? pid =
      if pid = rootPid then some rootScope else none :=
    (congrArg (·.get? pid) h.processes).trans (get?_rootTable pid)
  refine ⟨⟨h.steady.tree, fun _ _ _ hs hm => h.steady.bound hs hm, h.calls, fun hc => (by cases hc),
    fun hc => (by cases hc)⟩, ⟨hmarks, htable rootPid, fun {pid id} hne hget => ?_,
    fun {id s} hs hm => ?_, hlast⟩, fun ht => (by cases ht), .nil⟩
  · have hget := (htable pid).symm.trans hget
    rw [if_neg hne] at hget
    cases hget
  · obtain ⟨hr, hsp, -⟩ := hmarks hs
    rw [hr, hsp] at hm
    cases hm <;> contradiction

theorem Reachable.sound {w : Crew} (h : w.Reachable) : w.Sound := by
  induction h with
  | fresh config files hash => exact fresh_sound config files hash
  | move move _ ha ih => exact (ih.perform ha).1

end Crew

/-! ## 4. Processes are accounted for -/

namespace Crew

/-- Processes, their scopes and the table agree, nothing that runs is taken out, and every process
has a parent process. -/
structure Accounted (w : Crew) : Prop where
  /-- Process 0 is the top level. -/
  rootProcess : w.machine.processes.get? rootPid = some rootScope
  /-- Every other process in the table has its scope, which is marked with it. -/
  process {pid : Pid} {id : ScopeId} : pid ≠ rootPid → w.machine.processes.get? pid = some id →
    ∃ s, w.machine.arena.get? id = some s ∧ s.running = true ∧ s.spawned = true ∧ s.pid = pid
  /-- Every scope that is marked is in the table. -/
  enrolled {id : ScopeId} {s : Scope} : w.machine.arena.get? id = some s →
    s.running = true ∨ s.spawned = true → w.machine.processes.get? s.pid = some id
  /-- The block of a call in progress is there and lists the call. -/
  called {call : Call} : call ∈ w.calls →
    ∃ s, w.machine.arena.get? call.block = some s ∧ call.stack ∈ s.calls
  /-- A scope that runs or is called stays, whatever is done next, and so does every scope around it;
  only the end of a process may take out the scope that it ran, if no call of it is in progress. -/
  spared {move : Move} : move.Allowed w → ∀ {k id : ScopeId} {s : Scope},
    w.machine.arena.get? k = some s → s.running = true ∨ s.calls ≠ [] →
    id ∈ w.machine.arena.chain k → (move.perform w).machine.arena.contains id = true ∨
    (id = k ∧ s.calls = [] ∧ ∃ task, move = .finishProcess task ∧ task.scope = k)
  /-- The process in which a process was written is in the table. -/
  parentPid {c : Context} {pid : Pid} : w.machine.processes.get? pid = some c.process →
    ∃ parent, c.parentPid.run w.machine = .ok parent w.machine ∧
      w.machine.processes.contains parent = true

/-- The process in which a process was written is in the table. -/
theorem Sound.parentPid {w : Crew} (h : w.Sound) {c : Context} {pid : Pid}
    (hget : w.machine.processes.get? pid = some c.process) :
    ∃ parent, c.parentPid.run w.machine = .ok parent w.machine ∧
      w.machine.processes.contains parent = true := by
  have hl : w.machine.arena.Linked c.process := by
    by_cases hp : pid = rootPid
    · rw [hp, h.booked.rootProcess] at hget
      exact Option.some.inj hget ▸ h.tree.linked_root
    · exact (h.booked.process hp hget).1
  have hends : c.parentPid.Ends w.machine
      (fun parent m => m = w.machine ∧ w.machine.processes.contains parent = true)
      fun _ _ => False := by
    have hroot : w.machine.processes.contains rootPid = true := by
      rw [ProcessTable.contains_eq, h.booked.rootProcess]
      rfl
    unfold Context.parentPid
    obtain ⟨s, hs⟩ := hl.get?
    rw [ends_bind, ends_getScope_some hs]
    split
    · exact ⟨rfl, hroot⟩
    · rename_i p hp
      obtain ⟨owner, t, ho, ht, hspawned⟩ := h.tree.processRoot (h.tree.linked_parent hl hs hp)
      rw [ends_bind, ends_inArena_ok ho, ends_bind, ends_getScope_some ht]
      refine ⟨rfl, ?_⟩
      rcases hspawned with rfl | hspawned
      · rw [(h.booked.root ht).2.2]
        exact hroot
      · rw [ProcessTable.contains_eq, h.booked.enrolled ht (Or.inr hspawned)]
        rfl
  obtain ⟨parent, m, hrun, rfl, hparent⟩ := hends.run_eq_ok
  exact ⟨parent, hrun, hparent⟩

/-- **However processes interleave, they are accounted for.** -/
theorem Reachable.accounted {w : Crew} (h : w.Reachable) : w.Accounted where
  rootProcess := h.sound.booked.rootProcess
  process hne hget := by
    obtain ⟨hl, hmarks⟩ := h.sound.booked.process hne hget
    obtain ⟨s, hs⟩ := hl.get?
    exact ⟨s, hs, hmarks s hs⟩
  enrolled hs hm := h.sound.booked.enrolled hs hm
  called hc := by
    obtain ⟨s, hs⟩ := h.sound.moored.inProgress.live hc
    exact ⟨s, hs, h.sound.moored.inProgress.mem_calls hc hs⟩
  spared ha _ _ _ hs hbusy hid := (h.sound.perform ha).2 _ _ _ hs hbusy hid
  parentPid hget := h.sound.parentPid hget

/-- A block runs as process 1, and another one is called. -/
theorem Reachable.accounted_spawned : ∃ w : Crew, w.Reachable ∧
    w.machine.processes.get? 1 = some 2 ∧ w.calls = [⟨3, 1, true⟩] ∧ w.Accounted := by
  have h₀ := Reachable.fresh {} (fun _ => none) .standard
  have h₁ := h₀.move (.openBlock .top .sharing) (Or.inl ⟨rootPid, by decide +kernel⟩)
  have h₂ := h₁.move (.finishBlock .top .sharing ⟨"", 1, 1⟩) trivial
  have h₃ := h₂.move (.openBlock .top .sharing) (Or.inl ⟨rootPid, by decide +kernel⟩)
  have h₄ := h₃.move (.finishBlock .top .sharing ⟨"", 1, 3⟩) trivial
  have h₅ := h₄.move (.claim .top 2) ⟨1, by unfold PidInRange; decide, by decide +kernel⟩
  have h₆ := h₅.move (.prepareCall .top 3) trivial
  have h₇ := h₆.move (.enterCall ⟨3, 1, true⟩) (by rw [Move.Allowed]; decide +kernel)
  exact ⟨_, h₇, by decide +kernel, by decide +kernel, h₇.accounted⟩

end Crew

end ScopeStack
