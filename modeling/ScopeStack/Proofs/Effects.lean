import ScopeStack.Proofs.Agenda
import ScopeStack.Proofs.Outside

/-!
# What operations do

An operation moves the machine and leaves jobs that run where it runs. Only spawning does more, and
is told apart by the process table.

* `Job.Simple`: a job that an operation may leave.
* `ControlWord.keeps`, `ScopeWord.ends`, `ProcessWord.keeps`, `HostAction.keeps`, and for all families
  `Effect.ends`: **an operation of a running context moves the machine, unless it spawns a
  process.**
-/

namespace ScopeStack

open ScopeStack.Action

/-! ## 1. Jobs that operations leave -/

/-- The job runs in this context, if in any, ends no call and runs no code by itself. -/
def Job.Simple (c : Context) : Job → Prop
  | .push d v => d = c ∧ ∀ h, v ≠ .block h
  | .leave _ _ _ | .cell _ _ | .finish _ _ | .code _ _ | .body _ => False
  | job => ∀ d, job.context? = some d → d = c

/-- All these jobs are simple. -/
def Job.AllSimple (c : Context) (jobs : List Job) : Prop := ∀ job ∈ jobs, job.Simple c

namespace Job

variable {c : Context}

theorem AllSimple.nil : AllSimple c [] := fun _ h => absurd h List.not_mem_nil

theorem AllSimple.cons {job : Job} {jobs : List Job} (h : job.Simple c) (hs : AllSimple c jobs) :
    AllSimple c (job :: jobs) := fun x hx => by
  rcases List.mem_cons.mp hx with rfl | hx
  · exact h
  · exact hs x hx

theorem AllSimple.append {jobs jobs' : List Job} (h : AllSimple c jobs) (h' : AllSimple c jobs') :
    AllSimple c (jobs ++ jobs') := fun x hx => (List.mem_append.mp hx).elim (h x) (h' x)

/-- A job that runs here is simple, if it is not of a special kind. -/
theorem simple_here : ∀ d, some c = some d → d = c := fun _ h => (Option.some.inj h).symm

theorem simple_value (v : Value) : Simple c (.value c v) := simple_here

theorem simple_discard (vs : List Value) : Simple c (.discard c vs) := simple_here

theorem simple_pushBool (b : Bool) : Simple c (.push c (.bool b)) :=
  ⟨rfl, fun _ h => by cases h⟩

theorem allSimple_closePools (ids : List PoolId) : AllSimple c (closePools ids) := by
  intro job hm
  obtain ⟨id, -, rfl⟩ := List.mem_map.mp hm
  exact fun d h => by cases h

theorem allSimple_runThenDiscard (v : Value) (wanted : Bool) :
    AllSimple c (runThenDiscard c v wanted) := by
  refine .append ?_ (.cons (simple_discard _) .nil)
  cases wanted
  · exact .nil
  · exact .cons (simple_value v) .nil

theorem allSimple_countedLoop (v : Value) (limit step : Int64) :
    AllSimple c (countedLoop c v limit step) :=
  .cons simple_here (.cons (simple_discard _) .nil)

end Job

variable {honest kept : Prop} {a₀ : Arena} {cs : List Call} {c : Context} {m : Machine}

/-! ## 2. Control -/

theorem ControlWord.keeps {P : Machine → Prop}
    (hdiscard : ∀ v, Keeps P (c.discardTransient v) fun _ => True)
    (hpop : Keeps P c.pop fun _ => True) (w : ControlWord) :
    Keeps P (w.perform c) (Job.AllSimple c) := by
  have hrun := popRunnable_keeps hpop
  have hbool := popBool_keeps hpop
  have hint := popInt_keeps hpop
  cases w with
  | run => exact hrun.bind fun v _ => .pure (Job.allSimple_runThenDiscard v true)
  | branch =>
    refine hrun.bind fun top _ => hpop.bind fun second _ => ?_
    split
    · rename_i condition
      exact .pure ((Job.allSimple_runThenDiscard top condition).append
        (.cons (Job.simple_pushBool condition) .nil))
    · dsimp only
      split
      · exact fun _ hm => hm
      · refine hbool.bind fun condition _ => ?_
        refine (hdiscard _).bind fun pools _ => ?_
        exact .pure ((Job.allSimple_closePools pools).append (Job.allSimple_runThenDiscard _ true))
  | branchElse =>
    refine hrun.bind fun v _ => hbool.bind fun condition _ => hbool.bind fun previous _ => ?_
    exact .pure ((Job.allSimple_runThenDiscard v _).append (.cons (Job.simple_pushBool _) .nil))
  | otherwise =>
    exact hrun.bind fun v _ => hbool.bind fun previous _ =>
      .pure (Job.allSimple_runThenDiscard v !previous)
  | when =>
    exact hrun.bind fun v _ => hbool.bind fun condition _ =>
      .pure (Job.allSimple_runThenDiscard v condition)
  | «unless» =>
    exact hrun.bind fun v _ => hbool.bind fun condition _ =>
      .pure (Job.allSimple_runThenDiscard v !condition)
  | whileTrue =>
    exact hrun.bind fun body _ => hrun.bind fun condition _ =>
      .pure (.cons (fun d h => by cases h; rfl) (.cons (Job.simple_discard _) .nil))
  | times =>
    exact hint.bind fun limit _ => hrun.bind fun v _ => .pure (Job.allSimple_countedLoop v _ 1)
  | timesBy =>
    refine hint.bind fun step _ => hint.bind fun limit _ => hrun.bind fun v _ => ?_
    split
    · refine (hdiscard v).bind fun pools _ => ?_
      exact .pure ((Job.allSimple_closePools pools).append (.cons (fun d h => by cases h) .nil))
    · exact .pure (Job.allSimple_countedLoop v _ _)

/-! ## 3. Variables and source text -/

/-- A variable is defined in the scope itself or in one around it. -/
theorem Arena.linked_definingScope {a : Arena} (hT : a.Tree) {id : ScopeId} {s : Scope}
    (hs : a.get? id = some s) (hl : a.Linked id) (name : String) :
    a.Linked (a.definingScope id s name) := by
  unfold definingScope
  split
  · rename_i hp _
    generalize hb : a.boundWithinProcess name _ = r
    cases r with
    | none => exact hl
    | some k =>
      exact hT.linked_of_mem_chain (hT.linked_parent hl hs hp) (of_boundWithinProcess hb).1
  · exact hl

theorem Context.define_ends (hc : Seated a₀ c) (hm : Stays honest kept a₀ m) {name : String}
    {cell : Cell} (hb : m.arena.Backs honest kept cell) (hne : cell ≠ .block rootScope)
    (strict : Bool) :
    (c.define name cell strict).Ends m (fun _ m' => Stays honest kept a₀ m' ∧ True) fun _ m' =>
      Stays honest kept a₀ m' := by
  unfold Context.define
  rw [ends_bind, ends_inArena]
  refine ⟨fun b hd => ?_, fun _ _ => hm⟩
  suffices h : Stays honest kept a₀ { m with arena := b } from ⟨h, trivial⟩
  rcases Arena.define_cases hd with rfl | ⟨s, hs, rfl⟩
  · exact hm
  · have hl := Arena.linked_definingScope hm.steady.tree hs (hm.still.linked hc.linked) name
    exact ⟨hm.steady.bind hl hb hne, hm.still.trans (.modify _ _ _ fun _ => rfl), hm.processes⟩

theorem popDefinition_keeps (hc : Seated a₀ c) (strict : Bool) :
    Keeps (Stays honest kept a₀) (popDefinition c strict) fun _ => True := by
  have hpop : Keeps (Stays honest kept a₀) c.pop (Known a₀) := Context.pop_keeps c
  refine (popText_keeps hpop).bind fun name _ => hpop.bind fun v hv m hm => ?_
  have hknown : Known m.arena v := hm.still.known_iff.mpr hv
  refine Ends.bind ((Context.internValue_ends v hm (hm.still.linked hc.linked)
    fun _ => hknown).mono (fun _ _ h => h) fun _ _ h => h.stays hm) ?_
  rintro cell m₁ ⟨hg, hb, hcell⟩
  refine Context.define_ends hc (hg.stays hm) hb (fun he => ?_) strict
  obtain ⟨-, hr⟩ := hknown rootScope (hcell rootScope he)
  exact (hm.steady.tree.known_le hr).2 rfl

/-- A word on variables or source text, other than forgetting where nothing may be forgotten. -/
theorem ScopeWord.ends (hm : Moved honest kept m.arena cs m) (hc : Seated m.arena c)
    (w : ScopeWord) (hf : kept → w ≠ .forget) :
    (w.perform c).Ends m
      (fun jobs m' => Moved honest kept m.arena cs m' ∧ Job.AllSimple c jobs)
      fun _ m' => Moved honest kept m.arena cs m' := by
  have hT := hm.steady.tree
  have hpop : Keeps (Moved honest kept m.arena cs) c.pop fun _ => True := Context.pop_moved hT c
  have hdefine (strict : Bool) : (popDefinition c strict).Ends m
      (fun _ m' => Moved honest kept m.arena cs m') fun _ m' => Moved honest kept m.arena cs m' :=
    (popDefinition_keeps hc strict m hm.stays).mono (fun _ _ h => h.1.moved hT hm)
      fun _ _ h => h.moved hT hm
  cases w with
  | define => exact (hdefine false).bind fun _ _ h => ⟨h, .nil⟩
  | defineStrict => exact (hdefine true).bind fun _ _ h => ⟨h, .nil⟩
  | forget =>
    have hkept : ¬ kept := fun h => hf h rfl
    have h : Keeps (Moved honest kept m.arena cs) (ScopeWord.forget.perform c)
        (Job.AllSimple c) := by
      refine (popText_keeps hpop).bind fun name _ => ?_
      refine (Context.forget_keeps (Moved.forgetful hT hkept) c name).bind fun r _ => ?_
      cases r with
      | some pools => exact .pure (Job.allSimple_closePools pools)
      | none => exact .fail _
    exact h m hm
  | eval =>
    have h : Keeps (Moved honest kept m.arena cs) (ScopeWord.eval.perform c) (Job.AllSimple c) :=
      (popText_keeps hpop).bind fun text _ => .pure (.cons (fun d h => by cases h; rfl) .nil)
    exact h m hm
  | load =>
    have h : Keeps (Moved honest kept m.arena cs) (ScopeWord.load.perform c) (Job.AllSimple c) :=
      (popText_keeps hpop).bind fun path _ => .pure (.cons (fun d h => by cases h; rfl) .nil)
    exact h m hm

/-! ## 4. Processes -/

theorem pid_keeps {P : Machine → Prop} : Keeps P c.pid fun _ => True := by
  intro m hm
  unfold Context.pid
  rw [ends_bind, ends_getScope]
  exact ⟨fun _ _ => ⟨hm, trivial⟩, fun _ => hm⟩

theorem parentPid_keeps {P : Machine → Prop} : Keeps P c.parentPid fun _ => True := by
  intro m hm
  unfold Context.parentPid
  rw [ends_bind, ends_getScope]
  refine ⟨fun s _ => ?_, fun _ => hm⟩
  split
  · exact ⟨hm, trivial⟩
  · rw [ends_bind, ends_inArena]
    refine ⟨fun owner _ => ?_, fun _ _ => hm⟩
    rw [ends_bind, ends_getScope]
    exact ⟨fun _ _ => ⟨hm, trivial⟩, fun _ => hm⟩

/-- Does the word reach into another process, or make pushes do so? -/
def ProcessWord.talks : ProcessWord → Bool
  | .spawn | .send | .sendAll | .take | .takeAll | .sendParent | .sendAllParent | .takeParent
  | .takeAllParent | .beginPush => true
  | .self | .parent | .receive | .endPush | .quit | .sleep => false

/-- Does the operation reach into another process? -/
def Effect.talks : Effect → Bool
  | .process w => w.talks
  | _ => false

/-- The actions by which a word reaches other processes keep an invariant. -/
structure Converses (P : Machine → Prop) (good : Value → Prop) (c : Context) : Prop where
  sendTo (pid : Pid) {v : Value} : good v → Keeps P (c.sendTo pid v) fun _ => True
  sendAllTo (pid : Pid) : Keeps P (c.sendAllTo pid) fun _ => True
  takeFrom (pid : Pid) : Keeps P (c.takeFrom pid) good
  takeAllFrom (pid : Pid) : Keeps P (c.takeAllFrom pid) fun _ => True
  beginPush (pid : Pid) : Keeps P (c.beginPush pid) fun _ => True

/-- A word on processes, other than spawning. -/
theorem ProcessWord.keeps {P : Machine → Prop} {good : Value → Prop} (H : Handles P good c)
    (hend : Keeps P c.endPush fun _ => True) (hstop : Keeps P c.stop fun _ => True)
    (w : ProcessWord) (hw : w ≠ .spawn) (htalks : w.talks = true → Converses P good c) :
    Keeps P (w.perform c) (Job.AllSimple c) := by
  have hpid : Keeps P (popPid c) fun _ => True := H.popInt.bind fun _ _ => .pure trivial
  cases w with
  | spawn => exact absurd rfl hw
  | self => exact pid_keeps.bind fun pid _ => (H.pushInt pid).bind fun _ _ => .pure .nil
  | parent =>
    exact parentPid_keeps.bind fun pid _ => (H.pushInt pid).bind fun _ _ => .pure .nil
  | receive =>
    exact H.popNat.bind fun size _ => .pure (.cons (fun d h => by cases h; rfl) .nil)
  | send =>
    exact hpid.bind fun pid _ => H.pop.bind fun v hv =>
      ((htalks rfl).sendTo pid hv).bind fun _ _ => .pure .nil
  | sendAll =>
    exact hpid.bind fun pid _ => ((htalks rfl).sendAllTo pid).bind fun _ _ => .pure .nil
  | take =>
    exact hpid.bind fun pid _ => ((htalks rfl).takeFrom pid).bind fun v hv =>
      (H.push hv).bind fun _ _ => .pure .nil
  | takeAll =>
    exact hpid.bind fun pid _ => ((htalks rfl).takeAllFrom pid).bind fun _ _ => .pure .nil
  | sendParent =>
    exact parentPid_keeps.bind fun pid _ => H.pop.bind fun v hv =>
      ((htalks rfl).sendTo pid hv).bind fun _ _ => .pure .nil
  | sendAllParent =>
    exact parentPid_keeps.bind fun pid _ =>
      ((htalks rfl).sendAllTo pid).bind fun _ _ => .pure .nil
  | takeParent =>
    exact parentPid_keeps.bind fun pid _ => ((htalks rfl).takeFrom pid).bind fun v hv =>
      (H.push hv).bind fun _ _ => .pure .nil
  | takeAllParent =>
    exact parentPid_keeps.bind fun pid _ =>
      ((htalks rfl).takeAllFrom pid).bind fun _ _ => .pure .nil
  | beginPush =>
    exact hpid.bind fun pid _ => ((htalks rfl).beginPush pid).bind fun _ _ => .pure .nil
  | endPush => exact hend.bind fun _ _ => .pure .nil
  | quit => exact hstop.bind fun pools _ => .pure (Job.allSimple_closePools pools)
  | sleep =>
    refine H.popInt.bind fun n _ => ?_
    dsimp only
    split
    · exact .pure .nil
    · exact Keeps.get_bind fun _ _ => .pure (.cons (fun d h => by cases h; rfl) .nil)

theorem HostAction.keeps {P : Machine → Prop} {good : Value → Prop} (H : Handles P good c)
    (x : HostAction) : Keeps P (x.perform c) (Job.AllSimple c) := by
  cases x with
  | greet => exact H.popText.bind fun name _ => (H.write _).bind fun _ _ => .pure .nil
  | nameWord =>
    refine H.popText.bind fun name _ => ?_
    exact (H.push (H.plain fun h he => by cases he)).bind fun _ _ => .pure .nil
  | fail text => exact .fail _
  | source text => exact .pure (.cons (fun d h => by cases h; rfl) .nil)
  | nothing => exact .pure .nil

/-- Opening or closing a push session. -/
theorem setPushTarget_keeps (target : Option Pid) :
    Keeps (Stays honest kept a₀) (modifyScope c.process fun s => { s with pushTarget := target })
      fun _ => True := by
  intro m hm
  refine ⟨⟨?_, hm.still.trans (.modify _ _ _ fun _ => rfl), hm.processes⟩, trivial⟩
  exact hm.steady.modify _ _ (fun _ => rfl) (.modify _ _ fun _ => ⟨rfl, rfl⟩) fun _ _ _ hx =>
    Or.inl hx

theorem beginPush_keeps (pid : Pid) :
    Keeps (Stays honest kept a₀) (c.beginPush pid) fun _ => True := by
  refine Keeps.get_bind fun m hm => ?_
  refine (Keeps.ofExcept fun _ _ => trivial).bind fun _ (_ : True) m' hm' => ?_
  rw [ends_bind, ends_getScope]
  refine ⟨fun s _ => ?_, fun _ => hm'⟩
  dsimp only
  split
  · exact hm'
  · exact setPushTarget_keeps _ m' hm'

theorem endPush_keeps : Keeps (Stays honest kept a₀) c.endPush fun _ => True := by
  intro m hm
  unfold Context.endPush
  rw [ends_bind, ends_getScope]
  refine ⟨fun s _ => ?_, fun _ => hm⟩
  dsimp only
  split
  · exact hm
  · exact setPushTarget_keeps _ m hm

theorem stop_keeps : Keeps (Stays honest kept a₀) c.stop fun _ => True := by
  intro m hm
  unfold Context.stop
  rw [ends_bind, ends_getScope]
  exact ⟨fun s _ => ⟨⟨hm.steady, hm.still, hm.processes⟩, trivial⟩, fun _ => hm⟩

section Process

variable (hT : a₀.Tree) (hc : Seated a₀ c)
include hT

theorem takeFrom_keeps (pid : Pid) :
    Keeps (Stays honest kept a₀) (c.takeFrom pid) (Known a₀) :=
  (Context.ofPid_keeps hT c pid).bind fun _ hd => Context.popLocal_keeps hd.1

include hc

theorem sendAllTo_keeps (pid : Pid) :
    Keeps (Stays honest kept a₀) (c.sendAllTo pid) fun _ => True :=
  (Context.ofPid_keeps hT c pid).bind fun _ hd => (Context.drainStack_keeps hc).bind fun _ hvs =>
    Context.pushAllLocal_keeps hd.1 fun _ => hvs

theorem takeAllFrom_keeps (pid : Pid) :
    Keeps (Stays honest kept a₀) (c.takeAllFrom pid) fun _ => True :=
  (Context.ofPid_keeps hT c pid).bind fun _ hd => (Context.drainStack_keeps hd.1).bind fun _ hvs =>
    Context.pushAllLocal_keeps hc fun _ => hvs

theorem converses : Converses (Stays honest kept a₀) (Known a₀) c where
  sendTo pid _ hv := Context.sendTo_keeps hT c pid fun _ => hv
  sendAllTo pid := sendAllTo_keeps hT hc pid
  takeFrom pid := takeFrom_keeps hT pid
  takeAllFrom pid := takeAllFrom_keeps hT hc pid
  beginPush pid := beginPush_keeps pid

end Process

/-! ## 5. Spawning -/

/-- No process id has been handed out since the one given last was `l`. -/
def LastIs (l : Pid) (m : Machine) : Prop := m.processes.last = l

section Spawn

variable {l : Pid}

theorem offArena_lastIs : OffArena (LastIs l) := fun _ _ hm => hm

/-- What follows the claim of a block hands out no further id. -/
theorem spawnTail_last (values : List Value) (pool : PoolId) (task : Task) :
    Keeps (LastIs l) (do
      try
        (Context.ofProcess task.scope task.halt).pushAllLocal values
        Context.submit pool task
      catch e =>
        let m ← get
        let (pools, m) := m.finishProcess task.scope task.pid
        set (pools.foldl (fun m id => (m.closePool id).2) m)
        throw e
      return task.pid) fun _ => True := by
  have hbody : Keeps (LastIs l)
      ((Context.ofProcess task.scope task.halt).pushAllLocal values >>= fun _ =>
        Context.submit pool task) fun _ => True :=
    (offArena_lastIs.pushAllLocal _ values).bind fun _ _ =>
      Tabled.submit (T := fun t => t.last = l) pool task
  intro m hm
  rw [ends_bind, ends_tryCatch]
  refine (hbody m hm).mono (fun _ m' h => ⟨h.1, trivial⟩) fun e m' h => ?_
  have htable := (Machine.processes_closePools (m'.finishProcess task.scope task.pid).2
    (m'.finishProcess task.scope task.pid).1).trans (m'.processes_finishProcess task.scope task.pid)
  exact (congrArg ProcessTable.last htable).trans h

end Spawn

/-- The pool for children is found or made. -/
theorem childPool_keeps (c : Context) :
    Keeps (Stays honest kept a₀) c.childPool fun _ => True := by
  have hnew : Keeps (Stays honest kept a₀) c.newPool fun _ => True := by
    intro m hm
    unfold Context.newPool
    rw [ends_bind, ends_get, ends_bind, ends_set, ends_bind, ends_modifyScope]
    refine ⟨⟨?_, hm.still.trans (.modify _ _ _ fun _ => rfl), hm.processes⟩, trivial⟩
    exact hm.steady.modify _ _ (fun _ => rfl) (.modify _ _ fun _ => ⟨rfl, rfl⟩) fun _ _ _ hx =>
      Or.inl hx
  have hscope : Keeps (Stays honest kept a₀) (getScope c.process) fun _ => True :=
    fun m hm => ends_getScope.mpr ⟨fun _ _ => ⟨hm, trivial⟩, fun _ => hm⟩
  refine hscope.bind fun s _ => Keeps.get_bind fun m _ => ?_
  split
  · split
    · exact .pure trivial
    · exact hnew
  · exact hnew

/-- **Whoever claims a block hands out a process id.** -/
theorem claim_ends (hm : Stays honest kept a₀ m) (h : Handle) :
    (c.claim h).Ends m (fun _ m' => LastIs 1 m') fun _ m' => Stays honest kept a₀ m' := by
  unfold Context.claim
  rw [ends_bind, ends_inArena]
  refine ⟨fun block _ => ?_, fun _ _ => hm⟩
  rw [ends_bind, ends_getScope]
  refine ⟨fun s _ => ?_, fun _ => hm⟩
  dsimp only
  split
  · exact hm
  · refine Ends.bind (childPool_keeps c m hm) fun pool m₁ ⟨hm₁, _⟩ => ?_
    have hlast : (m₁.processes.allocate).2.last = 1 := by
      rw [hm₁.processes]
      decide +kernel
    exact hlast

theorem popSpawn_ends (hc : Seated a₀ c) (hm : Stays honest kept a₀ m) :
    (popSpawn c).Ends m (fun _ m' => Stays honest kept a₀ m' ∨ LastIs 1 m')
      fun _ m' => Stays honest kept a₀ m' ∨ LastIs 1 m' := by
  have hleft {α : Type} {x : Action α} {good : α → Prop} (h : Keeps (Stays honest kept a₀) x good)
      {m : Machine} (hm : Stays honest kept a₀ m) :
      x.Ends m (fun v m' => Stays honest kept a₀ m' ∧ good v)
        fun _ m' => Stays honest kept a₀ m' ∨ LastIs 1 m' :=
    (h m hm).mono (fun _ _ h => h) fun _ _ h => Or.inl h
  unfold popSpawn
  refine Ends.bind (hleft (Context.pop_keeps c) hm) ?_
  rintro v m₁ ⟨hm₁, -⟩
  split
  · rename_i h
    unfold Context.spawn
    rw [bind_assoc]
    refine Ends.bind (hleft (Context.stackValues_keeps hc) hm₁) fun values m₂ ⟨hm₂, _⟩ => ?_
    rw [bind_assoc]
    refine Ends.bind ((claim_ends hm₂ h).mono (fun _ _ h => h) fun _ _ h => Or.inl h) ?_
    rintro ⟨pool, task⟩ m₃ hm₃
    have htail : Keeps (LastIs 1) _ fun _ => True :=
      (spawnTail_last values pool task).bind fun pid _ => offArena_lastIs.push c (.ofInt pid)
    exact (htail m₃ hm₃).mono (fun _ _ h => Or.inr h.1) fun _ _ h => Or.inr h
  · exact Or.inl hm₁

/-! ## 6. All operations -/

/-- **An operation moves the machine and leaves simple jobs, unless it spawns a process.** -/
theorem Effect.ends (hm : Moved honest kept m.arena cs m) (hc : Seated m.arena c) (e : Effect)
    (hf : kept → e ≠ .scope .forget) :
    (e.perform c).Ends m
      (fun jobs m' => (Moved honest kept m.arena cs m' ∧ Job.AllSimple c jobs) ∨ LastIs 1 m')
      fun _ m' => Moved honest kept m.arena cs m' ∨ LastIs 1 m' := by
  have hT := hm.steady.tree
  have H : Handles (Stays honest kept m.arena) (Known m.arena) c := hc.handles hT
  have hvalue {x : Action Unit} (h : Keeps (Stays honest kept m.arena) x fun _ => True) :
      (x >>= fun _ => (pure [] : Action (List Job))).Ends m
        (fun jobs m' => (Moved honest kept m.arena cs m' ∧ Job.AllSimple c jobs) ∨ LastIs 1 m')
        fun _ m' => Moved honest kept m.arena cs m' ∨ LastIs 1 m' := by
    rw [ends_bind]
    exact (h m hm.stays).mono (fun _ _ h => Or.inl ⟨h.1.moved hT hm, .nil⟩)
      fun _ _ h => Or.inl (h.moved hT hm)
  have hjobs {x : Action (List Job)}
      (h : Keeps (Stays honest kept m.arena) x (Job.AllSimple c)) :
      x.Ends m (fun jobs m' => (Moved honest kept m.arena cs m' ∧ Job.AllSimple c jobs) ∨
        LastIs 1 m') fun _ m' => Moved honest kept m.arena cs m' ∨ LastIs 1 m' :=
    (h m hm.stays).mono (fun _ _ h => Or.inl ⟨h.1.moved hT hm, h.2⟩)
      fun _ _ h => Or.inl (h.moved hT hm)
  cases e with
  | output w => exact hvalue (w.keeps H)
  | stack w => exact hvalue (w.keeps H)
  | arith w => exact hvalue (w.keeps H)
  | compare w => exact hvalue (w.keeps H)
  | text w => exact hvalue (w.keeps H)
  | list w => exact hvalue (w.keeps H)
  | control w =>
    exact (w.keeps (Context.discardTransient_keeps (Moved.prunable hT) c) (Context.pop_moved hT c) m
      hm).mono (fun _ _ h => Or.inl h) fun _ _ h => Or.inl h
  | scope w =>
    have hw : kept → w ≠ .forget := fun hk he => hf hk (he ▸ rfl)
    exact (w.ends hm hc hw).mono (fun _ _ h => Or.inl h) fun _ _ h => Or.inl h
  | process w =>
    by_cases hw : w = .spawn
    · subst hw
      show (popSpawn c >>= fun _ => (pure [] : Action (List Job))).Ends m _ _
      rw [ends_bind]
      refine (popSpawn_ends hc hm.stays).mono (fun _ _ h => ?_) fun _ _ h => ?_
      · exact h.imp_left fun h => ⟨h.moved hT hm, .nil⟩
      · exact h.imp_left fun h => h.moved hT hm
    · exact hjobs (ProcessWord.keeps H endPush_keeps stop_keeps w hw fun _ => converses hT hc)
  | host x => exact hjobs (x.keeps H)

end ScopeStack
