import ScopeStack.Machine.Call
import ScopeStack.Machine.Compile
import ScopeStack.Proofs.Values

/-!
# What lies outside the arena

Values are interned, moved between stacks and bound to names in the arena alone, and blocks are opened,
called and let go of there. Whatever a machine is apart from its arena, it stays through all of this.

* `OffArena`: a property of machines that the arena has no part in.
* `OffArena.push`, `OffArena.pop`, `OffArena.sendAllTo`, `OffArena.forget` and so on: **one lemma for each
  action that works on the arena alone**; none of them asks where the context is, or whether its scope is
  there.
* `OffArena.handles`: words reach values by such actions.
* `Tabled`: a property of the process table. Only a spawn and the end of a process concern it, and
  `Machine.processes_finishProcess` says what the latter does.
-/

namespace ScopeStack

open ScopeStack.Action

/-- However an action ends that keeps an invariant, the invariant holds. -/
theorem Action.Keeps.ends {α : Type} {P : Machine → Prop} {x : Action α} {good : α → Prop}
    (h : Keeps P x good) {m : Machine} (hm : P m) : x.Ends m (fun _ => P) fun _ => P :=
  (h m hm).mono (fun _ _ h => h.1) fun _ _ h => h

/-- The property says nothing about the arena. -/
def OffArena (P : Machine → Prop) : Prop := ∀ m b, P m → P { m with arena := b }

namespace OffArena

variable {P : Machine → Prop}

/-! ## 1. Reading and changing the arena -/

theorem read {α : Type} (f : Arena → Except Fault α) : Keeps P (inArena f) fun _ => True :=
  fun _ hm => ends_inArena.mpr ⟨fun _ _ => ⟨hm, trivial⟩, fun _ _ => hm⟩

theorem scope (id : ScopeId) : Keeps P (getScope id) fun _ => True := read _

variable (hP : OffArena P)
include hP

theorem change (f : Arena → Arena) : Keeps P (modifyArena f) fun _ => True :=
  fun m hm => ⟨hP m _ hm, trivial⟩

theorem changeWith {α : Type} (f : Arena → Except Fault α × Arena) :
    Keeps P (changeArena f) fun _ => True :=
  fun m hm => ends_changeArena.mpr ⟨fun _ _ => ⟨hP m _ hm, trivial⟩, fun _ _ => hP m _ hm⟩

theorem changeScope (id : ScopeId) (f : Scope → Scope) : Keeps P (modifyScope id f) fun _ => True :=
  hP.change _

/-! ## 2. Values -/

theorem internPayload {α : Type} [BEq α] [Interned α] (hash : ContentHash → α → Handle) (c : Context)
    (v : α) : Keeps P (Context.internPayload hash c v) fun _ => True :=
  Keeps.get_bind fun _ _ => hP.changeWith _

theorem internValue (c : Context) (v : Value) : Keeps P (c.internValue v) fun _ => True := by
  cases v with
  | bool | int | block => exact .pure trivial
  | big | double | str | word => exact (hP.internPayload _ c _).bind fun _ _ => .pure trivial

theorem internValues (c : Context) (vs : List Value) :
    Keeps P (vs.mapM c.internValue) fun _ => True :=
  fun _ hm => (Keeps.mapM fun v _ => hP.internValue c v).ends hm |>.mono (fun _ _ h => ⟨h, trivial⟩)
    fun _ _ h => h

omit hP in
theorem resolveCell (c : Context) (cell : Cell) : Keeps P (c.resolveCell cell) fun _ => True := by
  cases cell with
  | bool | int => exact .pure trivial
  | big | double | str | word | block => exact (read _).bind fun _ _ => .pure trivial

omit hP in
theorem resolveCells (c : Context) (cells : List Cell) :
    Keeps P (cells.mapM c.resolveCell) fun _ => True :=
  fun _ hm => (Keeps.mapM fun cell _ => resolveCell c cell).ends hm |>.mono
    (fun _ _ h => ⟨h, trivial⟩) fun _ _ h => h

omit hP in
theorem ownStack (c : Context) : Keeps P c.ownStack fun _ => True := by
  unfold Context.ownStack
  split
  · exact .pure trivial
  · exact (scope _).bind fun _ _ => .pure trivial

theorem pushLocal (c : Context) (v : Value) : Keeps P (c.pushLocal v) fun _ => True :=
  (hP.internValue c v).bind fun _ _ => (ownStack c).bind fun _ _ => hP.change _

theorem pushAllLocal (c : Context) (vs : List Value) : Keeps P (c.pushAllLocal vs) fun _ => True :=
  (hP.internValues c vs).bind fun _ _ => (ownStack c).bind fun _ _ => hP.change _

omit hP in
theorem ofPid (c : Context) (pid : Pid) : Keeps P (c.ofPid pid) fun _ => True :=
  Keeps.get_bind fun _ _ => (Keeps.ofExcept fun _ _ => trivial).bind fun _ (_ : True) => .pure trivial

theorem sendTo (c : Context) (pid : Pid) (v : Value) : Keeps P (c.sendTo pid v) fun _ => True :=
  (ofPid c pid).bind fun d _ => hP.pushLocal d v

omit hP in
theorem pushTarget (c : Context) : Keeps P c.pushTarget fun _ => True :=
  (scope _).bind fun _ _ => .pure trivial

theorem push (c : Context) (v : Value) : Keeps P (c.push v) fun _ => True := by
  refine (pushTarget c).bind fun target _ => ?_
  cases target with
  | none => exact hP.pushLocal c v
  | some pid => exact hP.sendTo c pid v

theorem pushCell (c : Context) (cell : Cell) : Keeps P (c.pushCell cell) fun _ => True := by
  refine (pushTarget c).bind fun target _ => ?_
  cases target with
  | none => exact (ownStack c).bind fun _ _ => hP.change _
  | some pid => exact (resolveCell c cell).bind fun v _ => hP.sendTo c pid v

omit hP in
theorem topCell (c : Context) : Keeps P c.topCell fun _ => True :=
  (read _).bind fun _ _ => .ofOption fun _ _ => trivial

theorem pop (c : Context) : Keeps P c.pop fun _ => True := by
  have hcell : Keeps P c.popCell fun _ => True :=
    (topCell c).bind fun _ _ => (hP.change _).bind fun _ _ => .pure trivial
  exact hcell.bind fun cell _ => resolveCell c cell

omit hP in
theorem peek (c : Context) : Keeps P c.peek fun _ => True :=
  (topCell c).bind fun _ _ => resolveCell c _

theorem popLocal (c : Context) : Keeps P c.popLocal fun _ => True := by
  refine (ownStack c).bind fun σ _ => Keeps.get_bind fun m _ => ?_
  split
  · exact .fail _
  · exact (hP.change _).bind fun _ _ => resolveCell c _

omit hP in
theorem stackSize (c : Context) : Keeps P c.stackSize fun _ => True :=
  (ownStack c).bind fun _ _ => Keeps.get_bind fun _ _ => .pure trivial

omit hP in
theorem stackValues (c : Context) : Keeps P c.stackValues fun _ => True :=
  (ownStack c).bind fun _ _ => Keeps.get_bind fun _ _ => resolveCells c _

theorem setStackValues (c : Context) (vs : List Value) :
    Keeps P (c.setStackValues vs) fun _ => True :=
  (hP.internValues c vs).bind fun _ _ => (ownStack c).bind fun _ _ => hP.change _

theorem drainStack (c : Context) : Keeps P c.drainStack fun _ => True :=
  (ownStack c).bind fun _ _ => Keeps.get_bind fun _ _ => (hP.change _).bind fun _ _ =>
    resolveCells c _

/-! ## 3. Other processes -/

theorem sendAllTo (c : Context) (pid : Pid) : Keeps P (c.sendAllTo pid) fun _ => True :=
  (ofPid c pid).bind fun d _ => (hP.drainStack c).bind fun vs _ => hP.pushAllLocal d vs

theorem takeFrom (c : Context) (pid : Pid) : Keeps P (c.takeFrom pid) fun _ => True :=
  (ofPid c pid).bind fun d _ => hP.popLocal d

theorem takeAllFrom (c : Context) (pid : Pid) : Keeps P (c.takeAllFrom pid) fun _ => True :=
  (ofPid c pid).bind fun d _ => (hP.drainStack d).bind fun vs _ => hP.pushAllLocal c vs

theorem beginPush (c : Context) (pid : Pid) : Keeps P (c.beginPush pid) fun _ => True := by
  refine Keeps.get_bind fun m _ => (Keeps.ofExcept fun _ _ => trivial).bind fun _ (_ : True) => ?_
  refine (scope _).bind fun s _ => ?_
  dsimp only
  split
  · exact .fail _
  · exact hP.changeScope _ _

theorem endPush (c : Context) : Keeps P c.endPush fun _ => True := by
  refine (scope _).bind fun s _ => ?_
  dsimp only
  split
  · exact .fail _
  · exact hP.changeScope _ _

/-! ## 4. Variables and blocks -/

theorem define (c : Context) (name : String) (cell : Cell) (strict : Bool) :
    Keeps P (c.define name cell strict) fun _ => True :=
  (read _).bind fun _ _ => hP.change _

theorem forget (c : Context) (name : String) : Keeps P (c.forget name) fun _ => True :=
  Keeps.get_bind fun _ _ => (hP.change _).bind fun _ _ => .ofExcept fun _ _ => trivial

theorem discardTransient (c : Context) (v : Value) :
    Keeps P (c.discardTransient v) fun _ => True := by
  cases v with
  | bool | int | big | double | str | word => exact .pure trivial
  | block h =>
    refine (scope _).bind fun s _ => ?_
    dsimp only
    split
    · exact .pure trivial
    refine Keeps.get_bind fun m _ => ?_
    split
    · exact .pure trivial
    refine (scope _).bind fun b _ => ?_
    split
    · exact .pure trivial
    · exact (Keeps.ofExcept fun _ _ => trivial).bind fun _ (_ : True) =>
        (hP.change _).bind fun _ _ => .pure trivial

theorem discardAll (c : Context) (vs : List Value) : Keeps P (c.discardAll vs) fun _ => True :=
  (Keeps.mapM fun v _ => hP.discardTransient c v).bind fun _ _ => .pure trivial

omit hP in
theorem compileTarget (c : Context) : Keeps P c.compileTarget fun _ => True :=
  (scope _).bind fun _ _ => .pure trivial

theorem openBlock (c : Context) (kind : BlockKind) : Keeps P (c.openBlock kind) fun _ => True :=
  (compileTarget c).bind fun _ _ => (hP.changeWith _).bind fun _ _ => (scope _).bind fun _ _ =>
    hP.changeScope _ _

theorem finishBlock (c : Context) (kind : BlockKind) (location : Location) :
    Keeps P (c.finishBlock kind location) fun _ => True := by
  refine (scope _).bind fun r _ => (Keeps.ofOption fun _ _ => trivial).bind fun child (_ : True) => ?_
  refine (scope _).bind fun s _ => ?_
  dsimp only
  split
  · exact .fail _
  refine (hP.changeScope _ _).bind fun _ _ => (hP.changeScope _ _).bind fun _ _ => ?_
  refine (scope _).bind fun t _ => (hP.changeWith _).bind fun _ _ => (scope _).bind fun u _ => ?_
  split
  · exact (hP.changeScope _ _).bind fun _ _ => .pure trivial
  · exact .pure trivial

theorem closeBlock (c : Context) (kind : BlockKind) (location : Location) :
    Keeps P (c.closeBlock kind location) fun _ => True := by
  refine (hP.finishBlock c kind location).bind fun r _ => ?_
  split
  · exact .pure trivial
  · exact hP.pushCell _ _

theorem compileAtom (c : Context) (a : Atom) : Keeps P (c.compileAtom a) fun _ => True := by
  cases a with
  | int | bool => exact .pure trivial
  | str | word => exact (hP.internPayload _ c _).bind fun _ _ => .pure trivial
  | number n => cases n <;> exact (hP.internPayload _ c _).bind fun _ _ => .pure trivial

theorem prepareCall (c : Context) (h : Handle) : Keeps P (c.prepareCall h) fun _ => True := by
  have hshared : Keeps P c.sharedStacks fun _ => True := by
    unfold Context.sharedStacks
    split
    · exact .pure trivial
    · exact (scope _).bind fun _ _ => .pure trivial
  refine (read _).bind fun block _ => (scope _).bind fun s _ => ?_
  dsimp only
  split
  · exact .fail _
  split
  · exact hshared.bind fun _ _ => .pure trivial
  · exact Keeps.get_bind fun _ _ => (hP.change _).bind fun _ _ => .pure trivial

theorem beginCall (c : Context) (h : Handle) : Keeps P (c.beginCall h) fun _ => True := by
  have henter (call : Call) : Keeps P (Context.enterCall call) fun _ => True :=
    (scope _).bind fun _ _ => hP.changeScope _ _
  exact (hP.prepareCall c h).bind fun r _ => (henter r.2).bind fun _ _ => .pure trivial

theorem handBack (c callee : Context) (call : Call) :
    Keeps P (c.handBack callee call) fun _ => True := by
  unfold Context.handBack
  split
  · refine Keeps.get_bind fun m _ => ?_
    split
    · exact .pure trivial
    · exact (hP.change _).bind fun _ _ => (resolveCell callee _).bind fun v _ => hP.push c v
  · exact .pure trivial

/-- **Words reach values by such actions.** -/
theorem handles (hwrite : ∀ text, Keeps P (write text) fun _ => True) (c : Context) :
    Handles P (fun _ => True) c where
  pop := hP.pop c
  peek := peek c
  push _ := hP.push c _
  size := stackSize c
  values _ hm := (stackValues c).ends hm |>.mono (fun _ _ h => ⟨h, fun _ _ => trivial⟩) fun _ _ h => h
  setValues _ := hP.setStackValues c _
  drain _ hm := (hP.drainStack c).ends hm |>.mono (fun _ _ h => ⟨h, fun _ _ => trivial⟩) fun _ _ h => h
  write := hwrite
  plain _ := trivial

end OffArena

/-! ## 5. The process table -/

/-- The process table has this property. -/
def Tabled (T : ProcessTable → Prop) (m : Machine) : Prop := T m.processes

namespace Machine

theorem processes_closePool (m : Machine) (id : PoolId) :
    (m.closePool id).2.processes = m.processes := by
  unfold closePool
  split <;> rfl

/-- Shutting pools down changes no process. -/
theorem processes_closePools (m : Machine) (pools : List PoolId) :
    (pools.foldl (fun m id => (m.closePool id).2) m).processes = m.processes := by
  induction pools generalizing m with
  | nil => rfl
  | cons id pools ih => exact (ih _).trans (m.processes_closePool id)

/-- A process that ends leaves the table, and no other does. -/
theorem processes_finishProcess (m : Machine) (scope : ScopeId) (pid : Pid) :
    (m.finishProcess scope pid).2.processes = m.processes.erase pid := by
  unfold finishProcess
  dsimp only
  split
  · rfl
  · split
    · rfl
    · split <;> rfl

end Machine

namespace Tabled

variable {T : ProcessTable → Prop}

theorem offArena : OffArena (Tabled T) := fun _ _ hm => hm

theorem submit (pool : PoolId) (task : Task) :
    Keeps (Tabled T) (Context.submit pool task) fun _ => True := by
  refine Keeps.get_bind fun m hm => ?_
  split
  · exact .fail _
  · intro m' _
    rw [ends_bind, ends_set, ends_ofExcept]
    exact ⟨fun _ _ => ⟨hm, trivial⟩, fun _ _ => hm⟩

theorem stop (c : Context) : Keeps (Tabled T) c.stop fun _ => True :=
  (OffArena.scope _).bind fun _ _ _ hm => ⟨hm, trivial⟩

theorem childPool (c : Context) : Keeps (Tabled T) c.childPool fun _ => True := by
  have hnew : Keeps (Tabled T) c.newPool fun _ => True := fun _ hm => ⟨hm, trivial⟩
  refine (OffArena.scope _).bind fun s _ => Keeps.get_bind fun m _ => ?_
  split
  · split
    · exact .pure trivial
    · exact hnew
  · exact hnew

theorem handles (c : Context) : Handles (Tabled T) (fun _ => True) c :=
  offArena.handles (fun _ _ hm => ⟨hm, trivial⟩) c

end Tabled

end ScopeStack
