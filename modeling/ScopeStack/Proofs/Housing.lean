import ScopeStack.Proofs.Definitions
import ScopeStack.Proofs.Ensemble

/-!
# Where processes live

The process table says in which scope a process runs. Only a spawn adds to the table, and the block it
adds has just been found, so it has a way out to the top level. A process that ends leaves the table.

* `ProcessTable.Joins`: whoever has come lives in a scope with a way out. Tables change in no other way,
  job by job (`Job.start_joins`, `Job.settle_joins`) and step by step (`Thread.step_joins`).
* `Machine.Housed`: the scope of a process has a way out, if it is there.
* `Ensemble.Reachable.housed`: **in every reachable state processes are housed.**
-/

namespace ScopeStack

open ScopeStack.Action

variable {a₀ : Arena} {t : ProcessTable} {c : Context} {m m' : Machine}

/-! ## 1. Who comes and who goes -/

namespace ProcessTable

/-- Whoever is in the new table was in the old one, or lives where there is a way out. -/
def Joins (a : Arena) (t u : ProcessTable) : Prop :=
  ∀ pid id, u.get? pid = some id → t.get? pid = some id ∨ a.Linked id

variable {u : ProcessTable}

theorem Joins.refl (a : Arena) (t : ProcessTable) : Joins a t t := fun _ _ h => Or.inl h

theorem Joins.erase (h : Joins a₀ t u) (pid : Pid) : Joins a₀ t (u.erase pid) := by
  intro p id hp
  rw [get?_erase] at hp
  split at hp
  · cases hp
  · exact h p id hp

theorem Joins.insert (h : Joins a₀ t u) {block : ScopeId} (hl : a₀.Linked block) (pid : Pid) :
    Joins a₀ t (u.insert pid block) := by
  intro p id hp
  rw [get?_insert] at hp
  split at hp
  · cases hp
    exact Or.inr hl
  · exact h p id hp

end ProcessTable

open ProcessTable (Joins)

/-! ## 2. Operations -/

/-- A process that ends leaves the table. -/
theorem Tabled.finishProcess (hm : Tabled (Joins a₀ t) m) (scope : ScopeId) (pid : Pid) :
    Tabled (Joins a₀ t) (m.finishProcess scope pid).2 := by
  unfold Tabled
  rw [m.processes_finishProcess]
  exact hm.erase pid

namespace Context

/-- A block that is found and claimed comes into the table. -/
theorem claim_joins (hT : a₀.Tree) (hfill : Filled a₀ m) (hm : Tabled (Joins a₀ t) m) (h : Handle) :
    (c.claim h).Ends m (fun _ => Tabled (Joins a₀ t)) fun _ => Tabled (Joins a₀ t) := by
  unfold claim
  rw [ends_bind, ends_inArena]
  refine ⟨fun block hr => ?_, fun _ _ => hm⟩
  obtain ⟨rfl, -, hl, -⟩ := (hfill.still.tree hT).of_resolveBlock hr
  rw [ends_bind, ends_getScope]
  refine ⟨fun s _ => ?_, fun _ => hm⟩
  dsimp only
  split
  · exact hm
  refine (Tabled.childPool c m hm).bind fun pool m₁ ⟨hm₁, _⟩ => ?_
  rw [ends_bind, Crew.ends_claimBlock]
  exact Joins.insert hm₁ (hfill.still.alike.linked_iff.mp hl) _

/-- **Of all that a spawn does, only the claim adds to the table.** -/
theorem spawn_joins (hT : a₀.Tree) (hfill : Filled a₀ m) (hm : Tabled (Joins a₀ t) m) (h : Handle) :
    (c.spawn h).Ends m (fun _ => Tabled (Joins a₀ t)) fun _ => Tabled (Joins a₀ t) := by
  have hvalues : Keeps (fun n => Filled a₀ n ∧ Tabled (Joins a₀ t) n) c.stackValues fun _ => True :=
    OffArena.stackValues c
  unfold spawn
  refine Ends.bind ((hvalues.ends ⟨hfill, hm⟩).mono (fun _ _ h => h) fun _ _ h => h.2) ?_
  intro values m₁ ⟨hfill₁, hm₁⟩
  refine (claim_joins hT hfill₁ hm₁ h).bind ?_
  intro ⟨pool, task⟩ m₂ hm₂
  have hbody : Keeps (Tabled (Joins a₀ t))
      ((ofProcess task.scope task.halt).pushAllLocal values >>= fun _ => submit pool task)
      fun _ => True :=
    (Tabled.offArena.pushAllLocal _ values).bind fun _ _ => Tabled.submit pool task
  rw [ends_bind, ends_tryCatch]
  refine (hbody.ends hm₂).mono (fun _ _ h => h) fun e m₃ hm₃ => ?_
  show Joins a₀ t (((m₃.finishProcess task.scope task.pid).1.foldl
    (fun m id => (m.closePool id).2) (m₃.finishProcess task.scope task.pid).2).processes)
  rw [Machine.processes_closePools]
  exact hm₃.finishProcess task.scope task.pid

theorem popSpawn_joins (hT : a₀.Tree) (hfill : Filled a₀ m) (hm : Tabled (Joins a₀ t) m) :
    (popSpawn c).Ends m (fun _ => Tabled (Joins a₀ t)) fun _ => Tabled (Joins a₀ t) := by
  unfold popSpawn
  have hpop := (c.pop_filled hT m hfill).and (Tabled.offArena.pop c m hm)
  refine Ends.bind (hpop.mono (fun _ _ h => h) fun _ _ h => h.2) ?_
  intro v m₁ ⟨⟨hfill₁, _⟩, ⟨hm₁, _⟩⟩
  cases v with
  | block h =>
    exact (spawn_joins hT hfill₁ hm₁ h).bind fun pid m₂ hm₂ => (Tabled.offArena.push c _).ends hm₂
  | bool | int | big | double | str | word => exact hm₁

end Context

/-- The actions by which a word reaches other processes change no process. -/
theorem Tabled.converses {T : ProcessTable → Prop} (c : Context) :
    Converses (Tabled T) (fun _ => True) c where
  sendTo pid _ _ := Tabled.offArena.sendTo c pid _
  sendAllTo pid := Tabled.offArena.sendAllTo c pid
  takeFrom pid := Tabled.offArena.takeFrom c pid
  takeAllFrom pid := Tabled.offArena.takeAllFrom c pid
  beginPush pid := Tabled.offArena.beginPush c pid

/-- **Of all operations, only a spawn changes the table.** -/
theorem Effect.keeps_table {T : ProcessTable → Prop} (e : Effect) (he : e ≠ .process .spawn) :
    Keeps (Tabled T) (e.perform c) fun _ => True := by
  have H : Handles (Tabled T) (fun _ => True) c := Tabled.handles c
  have hjobs {x : Action (List Job)} {good : List Job → Prop} (h : Keeps (Tabled T) x good) :
      Keeps (Tabled T) x fun _ => True := fun m hm =>
    (h m hm).mono (fun _ _ h => ⟨h.1, trivial⟩) fun _ _ h => h
  have hunit {x : Action Unit} (h : Keeps (Tabled T) x fun _ => True) :
      Keeps (Tabled T) (x >>= fun _ => (pure [] : Action (List Job))) fun _ => True :=
    h.bind fun _ _ => .pure trivial
  have hdefine (strict : Bool) : Keeps (Tabled T) (popDefinition c strict) fun _ => True :=
    H.popText.bind fun _ _ => H.pop.bind fun v _ => (Tabled.offArena.internValue c v).bind fun _ _ =>
      Tabled.offArena.define c _ _ strict
  cases e with
  | output w => exact hunit (w.keeps H)
  | stack w => exact hunit (w.keeps H)
  | arith w => exact hunit (w.keeps H)
  | compare w => exact hunit (w.keeps H)
  | text w => exact hunit (w.keeps H)
  | list w => exact hunit (w.keeps H)
  | control w => exact hjobs (w.keeps (Tabled.offArena.discardTransient c) H.pop)
  | scope w =>
    cases w with
    | define => exact hunit (hdefine false)
    | defineStrict => exact hunit (hdefine true)
    | forget =>
      refine H.popText.bind fun name _ => (Tabled.offArena.forget c name).bind fun r _ => ?_
      cases r with
      | some pools => exact .pure trivial
      | none => exact .fail _
    | eval => exact H.popText.bind fun _ _ => .pure trivial
    | load => exact H.popText.bind fun _ _ => .pure trivial
  | process w =>
    exact hjobs (w.keeps H (Tabled.offArena.endPush c) (Tabled.stop c) (fun h => he (h ▸ rfl)) fun _ =>
      Tabled.converses c)
  | host x => exact hjobs (x.keeps H)

/-- **By an operation only those come into the table whose scope has a way out.** -/
theorem Effect.joins (hT : a₀.Tree) (hfill : Filled a₀ m) (hm : Tabled (Joins a₀ t) m) (e : Effect) :
    (e.perform c).Ends m (fun _ => Tabled (Joins a₀ t)) fun _ => Tabled (Joins a₀ t) := by
  by_cases he : e = .process .spawn
  · subst he
    exact (Context.popSpawn_joins hT hfill hm).bind fun _ _ h => h
  · exact (e.keeps_table he).ends hm

/-! ## 3. Jobs and steps -/

namespace Context

theorem callBlock_joins (hm : Tabled (Joins a₀ t) m) (h : Handle) :
    (c.callBlock h).Ends m (fun _ => Tabled (Joins a₀ t)) fun _ => Tabled (Joins a₀ t) :=
  ((Tabled.offArena.beginCall c h).ends hm).bind fun _ _ h => h

theorem runWord_joins (hT : a₀.Tree) (hfill : Filled a₀ m) (hm : Tabled (Joins a₀ t) m)
    (name : String) :
    (c.runWord name).Ends m (fun _ => Tabled (Joins a₀ t)) fun _ => Tabled (Joins a₀ t) := by
  have hpush (cell : Cell) : (c.pushCell cell >>= fun _ => (pure [] : Action (List Job))).Ends m
      (fun _ => Tabled (Joins a₀ t)) fun _ => Tabled (Joins a₀ t) :=
    ((Tabled.offArena.pushCell c cell).ends hm).bind fun _ _ h => h
  unfold runWord findVariable
  rw [bind_assoc, ends_bind, ends_get, pure_bind]
  cases m.arena.findVariable c.scope name with
  | some cell =>
    cases cell with
    | block h => exact callBlock_joins hm h
    | bool | int | big | double | str | word => exact hpush _
  | none =>
    dsimp only
    unfold findOperation
    rw [bind_assoc, ends_bind, ends_get, pure_bind, ends_bind, ends_ofOption]
    exact ⟨fun op _ => op.effect.joins hT hfill hm, fun _ => hm⟩

theorem runValue_joins (hT : a₀.Tree) (hfill : Filled a₀ m) (hm : Tabled (Joins a₀ t) m)
    (v : Value) :
    (c.runValue v).Ends m (fun _ => Tabled (Joins a₀ t)) fun _ => Tabled (Joins a₀ t) := by
  cases v with
  | block h => exact callBlock_joins hm h
  | word name | str name => exact runWord_joins hT hfill hm name
  | bool | int | big | double => exact hm

theorem runCell_joins (hT : a₀.Tree) (hfill : Filled a₀ m) (hm : Tabled (Joins a₀ t) m)
    (cell : Cell) :
    (c.runCell cell).Ends m (fun _ => Tabled (Joins a₀ t)) fun _ => Tabled (Joins a₀ t) := by
  cases cell with
  | word h =>
    show (c.resolveText h >>= c.runWord).Ends m _ _
    rw [ends_bind, resolveText, ends_inArena]
    exact ⟨fun name _ => runWord_joins hT hfill hm name, fun _ _ => hm⟩
  | bool | int | big | double | str | block =>
    exact ((Tabled.offArena.pushCell c _).ends hm).bind fun _ _ h => h

theorem compileToken_joins (hT : a₀.Tree) (hfill : Filled a₀ m) (hm : Tabled (Joins a₀ t) m)
    (token : Token) :
    (c.compileToken token).Ends m (fun _ => Tabled (Joins a₀ t)) fun _ => Tabled (Joins a₀ t) := by
  have hunit {x : Action Unit} (h : Keeps (Tabled (Joins a₀ t)) x fun _ => True) :
      (x >>= fun _ => (pure [] : Action (List Job))).Ends m (fun _ => Tabled (Joins a₀ t))
        fun _ => Tabled (Joins a₀ t) :=
    (h.ends hm).bind fun _ _ h => h
  unfold compileToken
  cases Literal.ofToken token with
  | blockOpen kind => exact hunit (Tabled.offArena.openBlock c kind)
  | blockClose kind => exact hunit (Tabled.offArena.closeBlock c kind token.location)
  | atom a =>
    have htarget : Keeps (fun n => Filled a₀ n ∧ Tabled (Joins a₀ t) n) c.compileTarget fun _ => True :=
      OffArena.compileTarget c
    refine Ends.bind ((htarget.ends ⟨hfill, hm⟩).mono (fun _ _ h => h) fun _ _ h => h.2) ?_
    intro id m₁ ⟨hfill₁, hm₁⟩
    have hatom := (compileAtom_gains (hfill₁.still.tree hT) a).and
      ((Tabled.offArena.compileAtom (c.switchTo id) a).ends hm₁)
    refine Ends.bind (hatom.mono (fun _ _ h => h) fun _ _ h => h.2) ?_
    intro cell m₂ ⟨hg, hm₂⟩
    rw [ends_bind, ends_getScope]
    refine ⟨fun s _ => ?_, fun _ => hm₂⟩
    split
    · exact hm₂
    · exact runCell_joins hT (hfill₁.gains hg) hm₂ cell

end Context

namespace Job

/-- The job runs code of its own, or ends a process. -/
def reachesTable : Job → Bool
  | .token _ _ | .cell _ _ | .code _ _ | .value _ _ | .finish _ _ => true
  | _ => false

theorem shutPool_keeps_table {T : ProcessTable → Prop} (id : PoolId) :
    Keeps (Tabled T) (shutPool id) fun _ => True := by
  refine Keeps.get_bind fun m hm => ?_
  intro m' _
  exact ⟨(congrArg T (m.processes_closePool id)).mpr hm, trivial⟩

theorem dropCallStack_keeps_table {T : ProcessTable → Prop} (call : Call) :
    Keeps (Tabled T) (dropCallStack call) fun _ => True := by
  unfold dropCallStack
  split
  · exact .pure trivial
  · exact Tabled.offArena.change _

theorem leave_keeps_table {T : ProcessTable → Prop} (call : Call) :
    Keeps (Tabled T) (do Context.endCall call; dropCallStack call : Action Unit) fun _ => True :=
  (Tabled.offArena.changeScope _ _).bind fun _ _ => dropCallStack_keeps_table call

/-- All other jobs leave the table alone. -/
theorem start_keeps_table {T : ProcessTable → Prop} {job : Job} (hjob : job.reachesTable = false) :
    Keeps (Tabled T) job.start fun _ => True := by
  have H (c : Context) : Handles (Tabled T) (fun _ => True) c := Tabled.handles c
  have hunit {x : Action Unit} (h : Keeps (Tabled T) x fun _ => True) :
      Keeps (Tabled T) (x >>= fun _ => (pure [] : Action (List Job))) fun _ => True :=
    h.bind fun _ _ => .pure trivial
  cases job with
  | token | cell | code | value | finish => cases hjob
  | stamp | awaitWorkers | report | awaitProcesses | test | resumeInput => exact .pure trivial
  | raise f => exact .fail f
  | closePool id => exact shutPool_keeps_table id
  | source c cursor =>
    exact fun m hm => source_ends (fun _ _ => ⟨hm, trivial⟩) ⟨hm, trivial⟩ fun _ => hm
  | readInput c cursor =>
    exact fun m hm => readInput_ends (fun _ _ => ⟨hm, trivial⟩) ⟨hm, trivial⟩ fun _ => hm
  | load c path => exact fun m hm => load_ends (fun _ => ⟨hm, trivial⟩) ⟨hm, trivial⟩ fun _ => hm
  | body c =>
    exact (checkRunning_keeps c).bind fun _ _ => (OffArena.scope _).bind fun _ _ => .pure trivial
  | leave c callee call =>
    exact (Tabled.offArena.changeScope _ _).bind fun _ _ =>
      (Tabled.offArena.handBack c callee call).bind fun _ _ => hunit (dropCallStack_keeps_table call)
  | discard c vs => exact (Tabled.offArena.discardAll c vs).bind fun _ _ => .pure trivial
  | push c v => exact hunit ((H c).push trivial)
  | choose c condition act =>
    exact choose_keeps (H c).popBool trivial trivial
  | count c runnable counter limit step =>
    exact count_keeps (H c).pushWord trivial fun _ => trivial
  | receive c size =>
    refine (H c).size.bind fun n _ => ?_
    split
    · exact hunit (checkRunning_keeps c)
    · exact .pure trivial
  | sleep c deadline => exact hunit (checkRunning_keeps c)

/-- **By a job only those come into the table whose scope has a way out.** -/
theorem start_joins (hT : m.arena.Tree) (job : Job) :
    job.start.Ends m (fun _ m' => m.processes.Joins m.arena m'.processes)
      fun _ m' => m.processes.Joins m.arena m'.processes := by
  have hfill : Filled m.arena m := .refl _
  have hm : Tabled (Joins m.arena m.processes) m := .refl _ _
  have hrunning (c : Context) {x : Action (List Job)}
      (h : x.Ends m (fun _ m' => m.processes.Joins m.arena m'.processes)
        fun _ m' => m.processes.Joins m.arena m'.processes) :
      (c.checkRunning >>= fun _ => x).Ends m (fun _ m' => m.processes.Joins m.arena m'.processes)
        fun _ m' => m.processes.Joins m.arena m'.processes :=
    ends_checkRunning_bind (fun _ => hm) fun _ => h
  by_cases hjob : job.reachesTable = false
  · exact (start_keeps_table hjob).ends hm
  cases job with
  | token c t =>
    refine hrunning c ?_
    rw [ends_bind, ends_locating]
    exact (Context.compileToken_joins hT hfill hm t).mono (fun _ _ h => h) fun _ _ h => h
  | cell c x => exact Context.runCell_joins hT hfill hm x
  | code c is =>
    cases is with
    | nil => exact hm
    | cons i is =>
      refine hrunning c ?_
      rw [ends_bind, ends_locating]
      exact (Context.runCell_joins hT hfill hm i.cell).mono (fun _ _ h => h) fun _ _ h => h
  | value c v => exact Context.runValue_joins hT hfill hm v
  | finish s pid => exact hm.finishProcess s pid
  | _ => exact absurd rfl hjob

/-- **Nor by what is done after a failure.** -/
theorem settle_joins (job : Job) (f : Failure) :
    m.processes.Joins m.arena ((job.settle f).run m).2.processes := by
  have hm : Tabled (Joins m.arena m.processes) m := .refl _ _
  cases job with
  | leave c callee call =>
    exact settle_leave (R := fun _ => Tabled (Joins m.arena m.processes))
      ((leave_keeps_table call).ends hm) c callee f
  | discard c vs =>
    exact settle_discard (R := fun _ => Tabled (Joins m.arena m.processes))
      ((Tabled.offArena.discardAll c vs).ends hm) f
  | closePool id =>
    exact settle_closePool (R := fun _ => Tabled (Joins m.arena m.processes))
      ((shutPool_keeps_table id).ends hm) f
  | finish s pid => exact hm.finishProcess s pid
  | report pid =>
    simp only [settle]
    split <;> exact hm
  | resumeInput c after =>
    exact settle_resumeInput (R := fun _ => Tabled (Joins m.arena m.processes)) hm c after f hm
  | _ => exact hm

end Job

/-- **A step of a thread.** -/
theorem Thread.step_joins {u u' : Thread} (hT : m.arena.Tree) (hstep : u.step m = some (u', m')) :
    m.processes.Joins m.arena m'.processes := by
  obtain ⟨job, rest, hagenda⟩ := Thread.agenda_of_step hstep
  obtain ⟨-, ⟨-, hrun⟩ | ⟨f, -, rfl, -⟩⟩ := Thread.step_cases hagenda hstep
  · have hend := job.start_joins hT
    unfold Ends at hend
    rcases hrun with ⟨jobs, hrun, -⟩ | ⟨f, hrun, -⟩
    · rw [hrun] at hend
      exact hend
    · rw [hrun] at hend
      exact hend
  · exact job.settle_joins f

/-! ## 4. Houses -/

/-- The scope of each process has a way out, if it is there. -/
def Machine.Housed (m : Machine) : Prop :=
  ∀ pid id, m.processes.get? pid = some id →
    id ≤ m.arena.lastScope ∧ ∀ s, m.arena.get? id = some s → m.arena.Linked id

namespace Machine.Housed

/-- Scopes come and go, and processes come. -/
theorem drifts (h : m.Housed) (hF : m.arena.Forest) (hD : m.arena.Drifts m'.arena)
    (hJ : m.processes.Joins m.arena m'.processes) : m'.Housed := by
  intro pid id hpid
  have hold : id ≤ m.arena.lastScope ∧ ∀ s, m.arena.get? id = some s → m.arena.Linked id := by
    rcases hJ pid id hpid with hold | hl
    · exact h pid id hold
    · obtain ⟨s, hs⟩ := hl.get?
      exact ⟨hF.le_last hs, fun _ _ => hl⟩
  refine ⟨Nat.le_trans hold.1 hD.lastScope, fun u hu => ?_⟩
  rcases hD.of_get? hu with ⟨s, hs, -⟩ | ⟨hlt, -⟩
  · exact hD.linked (hold.2 s hs) hu
  · exact absurd hold.1 (Nat.not_le_of_lt hlt)

/-- A process ends. -/
theorem finish (h : m.Housed) (hR : m.arena.Regular) {p : ScopeId} {s : Scope} (pid : Pid)
    (hs : m.arena.get? p = some s) (hrun : s.running = true) :
    (m.finishProcess p pid).2.Housed := by
  have hA := Crew.alike_cleared m.arena p
  have hcleared : Housed { m with
      processes := m.processes.erase pid, arena := m.arena.modify p (·.cleared) } := by
    intro q id hq
    have hq : (m.processes.erase pid).get? q = some id := hq
    rw [ProcessTable.get?_erase] at hq
    split at hq
    · cases hq
    · obtain ⟨hle, hl⟩ := h q id hq
      refine ⟨hle, fun u hu => ?_⟩
      obtain ⟨v, hv, -⟩ := hA.get? hu
      exact hA.linked_iff.mpr (hl v hv)
  obtain ⟨b, hfin, hb⟩ := Crew.finishProcess_eq pid hs
  rw [hfin]
  rcases hb with rfl | ⟨pools, hunref, hd⟩
  · exact hcleared
  · have hT := (hR.cleared p).tree
    have hne : p ≠ rootScope := (hR.running hs hrun).2.2
    refine hcleared.drifts hT.forest (Arena.Regular.drifts_pruned hT.forest
      (Arena.discard_pruned hT.forest hd) (Arena.unreferenced_of_eq_false hT.forest hunref)
      fun hm => hne ?_) (.refl _ _)
    rw [hT.chain_root] at hm
    exact List.mem_singleton.mp hm

end Machine.Housed

/-- **A step keeps processes housed.** -/
theorem Thread.Sound.step_housed {u u' : Thread} (hu : u.Sound m.arena) (hR : m.arena.Regular)
    (hm : m.Housed) (hstep : u.step m = some (u', m')) : m'.Housed := by
  obtain ⟨p, pid, s, hs, hrun, -, rfl, -⟩ | ⟨p, job, rest, hp, hagenda, hjob⟩ := hu.step_cases hstep
  · exact hm.finish hR pid hs hrun
  · obtain ⟨-, hD, -⟩ := hjob.step hR hp hagenda hstep
    exact hm.drifts hR.tree.forest hD (Thread.step_joins hR.tree hstep)

/-- What an embedder does adds to the table by a spawn only. -/
theorem Command.joins (hT : m.arena.Tree) (x : Command) :
    m.processes.Joins m.arena (x.perform.outcome m).2.processes := by
  have hm : Tabled (Joins m.arena m.processes) m := .refl _ _
  have hunit {α : Type} {y : Action α} (h : y.Ends m (fun _ => Tabled (Joins m.arena m.processes))
      fun _ => Tabled (Joins m.arena m.processes)) :
      (y >>= fun _ => (pure () : Action Unit)).Ends m (fun _ => Tabled (Joins m.arena m.processes))
        fun _ => Tabled (Joins m.arena m.processes) := h.bind fun _ _ h => h
  have O : OffArena (Tabled (Joins m.arena m.processes)) := Tabled.offArena
  have hend : x.perform.Ends m (fun _ => Tabled (Joins m.arena m.processes))
      fun _ => Tabled (Joins m.arena m.processes) := by
    cases x with
    | intern v => exact hunit ((O.internValue _ v).ends hm)
    | push v => exact (O.push _ v).ends hm
    | pop => exact hunit ((O.pop _).ends hm)
    | setStack vs => exact (O.setStackValues _ vs).ends hm
    | drain => exact hunit ((O.drainStack _).ends hm)
    | define name v strict =>
      exact ((O.internValue _ v).bind fun cell _ => O.define _ name cell strict).ends hm
    | forget name => exact hunit ((O.forget _ name).ends hm)
    | addOperation op => exact (O.changeScope _ _).ends hm
    | spawn h => exact hunit (Context.spawn_joins hT (.refl _) hm h)
    | send pid v => exact (O.sendTo _ pid v).ends hm
    | sendAll pid => exact (O.sendAllTo _ pid).ends hm
    | take pid => exact hunit ((O.takeFrom _ pid).ends hm)
    | takeAll pid => exact (O.takeAllFrom _ pid).ends hm
    | beginPush pid => exact (O.beginPush _ pid).ends hm
    | endPush => exact (O.endPush _).ends hm
    | stop => exact hunit ((Tabled.stop _).ends hm)
  rcases hend.outcome with ⟨v, m', ho, h⟩ | ⟨f, m', ho, h⟩
  · rw [ho]
    exact h
  · rw [ho]
    exact h

/-- **However processes take turns, they live in scopes with a way out.** -/
theorem Ensemble.Reachable.housed {w : Ensemble} (hw : w.Reachable) : w.machine.Housed := by
  induction hw with
  | start config files hash =>
    intro pid id hpid
    have hT := (fresh_regular config files hash).tree
    have hpid : rootTable.get? pid = some id := hpid
    rw [get?_rootTable] at hpid
    split at hpid
    · cases hpid
      exact ⟨hT.root_le, fun _ _ => hT.linked_root⟩
    · cases hpid
  | command x hw _ hx ih =>
    have hS := hw.sound.starts_top
    exact ih.drifts hS.regular.tree.forest (hS.drifts (Command.outcome_edited hS hx))
      (Command.joins hS.regular.tree x)
  | request _ _ _ _ ih => exact ih
  | step hw hstep ih =>
    exact (Thread.Sound.serving hw.sound.main).step_housed hw.sound.regular ih hstep
  | begin _ _ _ _ _ _ ih => exact ih
  | other hw hothers hstep ih =>
    have ht := hw.sound.others _ (hothers ▸ List.mem_append_right _ List.mem_cons_self)
    exact ht.step_housed hw.sound.regular ih hstep
  | retire _ _ _ ih => exact ih
  | pass m _ harena htable _ ih =>
    intro pid id hpid
    rw [harena]
    exact ih pid id (htable ▸ hpid)

end ScopeStack
