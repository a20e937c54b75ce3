import ScopeStack.Proofs.Edits

/-!
# The changes that each action makes

One lemma for each action and each word: whatever it does, and wherever it fails, it has made changes
of the kinds listed.

* `Edited`: the arena has been changed in these ways since a job started. `Starts`: a job of a process
  may start here.
* `Starts.handles`, `Starts.forgetful`, `Starts.converses`: **the actions on values, on variables and
  on other processes make such changes**, and so do all words (`Effect.edits`).
-/

namespace ScopeStack

open ScopeStack.Action

/-- The arena has been changed by code in the context `c`, in a job that started with `a₀`. No call has
begun or ended. -/
def Edited (talks : Prop) (spare : StackId → Prop) (c : Context) (a₀ : Arena) (m : Machine) : Prop :=
  Edits False talks spare c a₀ m.arena

/-- A job of the process `p` may start here, in the context `c`. -/
structure Starts (a₀ : Arena) (p : ScopeId) (c : Context) : Prop where
  regular : a₀.Regular
  head : Head a₀ p
  placed : Placed a₀ p c

variable {a₀ : Arena} {p : ScopeId} {c d : Context} {lists talks : Prop} {spare : StackId → Prop}
  {m m' : Machine}

theorem Edited.step (hm : Edited talks spare c a₀ m) {b : Arena}
    (he : Edit a₀ talks spare c m.arena b) (hb : m'.arena = b) : Edited talks spare c a₀ m' := by
  unfold Edited
  rw [hb]
  exact Edits.step hm he

theorem Edited.gains (hm : Edited talks spare c a₀ m) (hg : Gains m m') :
    Edited talks spare c a₀ m' :=
  hm.step (.refill (.grows hg.grows) hg.grows.callsOf (.grows hg.grows)) rfl

/-- A change of the machine outside the arena. -/
theorem Edited.congr (hm : Edited talks spare c a₀ m) (ha : m'.arena = m.arena) :
    Edited talks spare c a₀ m' := by
  unfold Edited
  rw [ha]
  exact hm

namespace Starts

variable (hS : Starts a₀ p c) (hm : Edits lists talks spare c a₀ m.arena)
include hS hm

theorem regular_now : m.arena.Regular := (Edits.regular_drifts hm hS.regular hS.head hS.placed).1

theorem drifts : a₀.Drifts m.arena := (Edits.regular_drifts hm hS.regular hS.head hS.placed).2

theorem tree : m.arena.Tree := (hS.regular_now hm).tree

theorem placed_now : Placed m.arena p c :=
  hS.placed.drifts hS.regular.tree (hS.drifts hm) hS.head

theorem head_now : Head m.arena p := (hS.drifts hm).head hS.head

omit hm in
theorem callsOf (hm : Edited talks spare c a₀ m) (k : ScopeId) : m.arena.callsOf k = a₀.callsOf k :=
  Edits.callsOf hm hS.regular hS.head hS.placed k

end Starts

/-! ## 1. Interning and resolving -/

namespace Context

/-- Interning a value only makes tables grow, and the cell is the block that the value is. -/
theorem internValue_gains (hT : m.arena.Tree) (c : Context) (v : Value) :
    (c.internValue v).Ends m
      (fun cell m' => Gains m m' ∧ ∀ h, cell = .block h → v = .block h)
      fun _ m' => Gains m m' := by
  cases v with
  | bool | int | block => exact ⟨.refl m, fun h he => by cases he; try rfl⟩
  | big | double | str | word =>
    refine (internPayload_ends _ _ hT).bind ?_
    rintro h m' ⟨hg, -⟩
    exact ⟨hg, fun k he => by cases he⟩

theorem internValues_gains (hT : m.arena.Tree) (c : Context) (vs : List Value) :
    (vs.mapM c.internValue).Ends m (fun _ m' => Gains m m') fun _ m' => Gains m m' := by
  induction vs generalizing m with
  | nil => exact .refl m
  | cons v vs ih =>
    rw [List.mapM_cons]
    refine (internValue_gains hT c v).bind ?_
    rintro cell m₁ ⟨hg, -⟩
    have hrest := ih (hg.grows.still.tree hT)
    refine Ends.bind (hrest.mono (fun _ _ h => h) fun _ _ h => hg.trans h) ?_
    rintro cells m₂ hg'
    exact hg.trans hg'

/-- Resolving changes nothing, and nothing resolves to the top level. -/
theorem resolveCell_ends (hT : m.arena.Tree) (c : Context) (cell : Cell) :
    (c.resolveCell cell).Ends m (fun v m' => m' = m ∧ v ≠ .block rootScope) fun _ m' => m' = m := by
  refine (resolveCell_finds c cell).mono ?_ fun _ _ h => h
  rintro v _ ⟨rfl, hfound⟩
  refine ⟨rfl, fun hv => ?_⟩
  obtain ⟨k, hk⟩ := hfound rootScope hv
  obtain ⟨-, -, -, hne, -⟩ := hT.of_resolveBlock hk
  exact hne rfl

/-- The innermost stack. -/
theorem ownStack_ends (c : Context) (m : Machine) :
    c.ownStack.Ends m (fun σ m' => m' = m ∧ c.Owns m.arena σ) fun _ m' => m' = m := by
  unfold ownStack
  split
  · rename_i σ rest heq
    exact ⟨rfl, Or.inl (by rw [heq]; rfl)⟩
  · rename_i heq
    rw [ends_bind, ends_getScope]
    exact ⟨fun s hs => ⟨rfl, Or.inr ⟨heq, s, hs, rfl⟩⟩, fun _ => rfl⟩

/-- Where a push goes. -/
theorem pushTarget_ends (c : Context) (m : Machine) :
    c.pushTarget.Ends m
      (fun target m' => m' = m ∧ (target ≠ none → m.arena.InSession c.process))
      fun _ m' => m' = m := by
  unfold pushTarget
  rw [ends_bind, ends_getScope]
  exact ⟨fun s hs => ⟨rfl, fun h => ⟨s, hs, h⟩⟩, fun _ => rfl⟩

/-- Code is compiled into the innermost open block of the process, or into the scope itself. -/
theorem compileTarget_ends_of (c : Context) (m : Machine) :
    c.compileTarget.Ends m (fun id m' => m' = m ∧ ∃ r, m.arena.get? c.process = some r ∧
      id = r.compileStack.headD c.scope) fun _ m' => m' = m := by
  unfold compileTarget
  rw [ends_bind, ends_getScope]
  exact ⟨fun r hr => ⟨rfl, r, hr, rfl⟩, fun _ => rfl⟩

/-- What is open is being compiled, so a cell that is not compiled is meant for the scope itself. -/
theorem switchTo_of_not_compiling {m' : Machine} {ks : List ScopeId} {s : Scope}
    (hopen : ∀ k t, k ∈ ks → m.arena.get? k = some t → t.compiling = true) (hg : Gains m m')
    (hs : m'.arena.get? (ks.headD c.scope) = some s) (hidle : ¬ s.compiling = true) :
    c.switchTo (ks.headD c.scope) = c := by
  cases ks with
  | nil => exact switchTo_self c
  | cons k rest =>
    rw [List.headD_cons] at hs
    obtain ⟨t, ht, hcore⟩ := hg.grows.still.get? hs
    have hcompiling : t.compiling = true := hopen k t List.mem_cons_self ht
    rw [Scope.eq_of_core (·.compiling) (fun _ => rfl) hcore] at hidle
    exact absurd hcompiling hidle

end Context

/-! ## 2. Values -/

theorem Gains.inSession (hg : Gains m m') (h : m.arena.InSession p) : m'.arena.InSession p := by
  obtain ⟨r, hr, hpush⟩ := h
  obtain ⟨t, ht, he⟩ := (Arena.Refills.grows hg.grows).get?_of hr
  exact ⟨t, ht, fun hnone => hpush
    ((Scope.eq_of_outline (·.pushTarget) (fun _ => rfl) he).symm.trans hnone)⟩

/-- Code in the context `c` may change the innermost stack of the context `d`. -/
def Reaches (talks : Prop) (c d : Context) (m : Machine) : Prop :=
  d = c ∨ talks ∨ m.arena.InSession c.process

theorem Reaches.gains (h : Reaches talks c d m) (hg : Gains m m') : Reaches talks c d m' :=
  h.imp_right fun h => h.imp_right fun h => hg.inSession h

namespace Edited

/-- An innermost stack in reach changes. -/
theorem changeOwn (hm : Edited talks spare c a₀ m) (hd : Reaches talks c d m)
    (f : StackId → Arena → CellStack → CellStack) :
    (d.ownStack >>= fun σ => modifyArena fun a => a.modifyStack σ (f σ a)).Ends m
      (fun _ m' => Edited talks spare c a₀ m') fun _ m' => Edited talks spare c a₀ m' := by
  refine Ends.bind ((d.ownStack_ends m).mono (fun _ _ h => h) fun _ _ h => h ▸ hm) ?_
  rintro σ m₁ ⟨rfl, hσ⟩
  rcases hd with rfl | hd
  · exact hm.step (.put _ hσ) rfl
  · exact hm.step (.send _ hd) rfl

theorem ownStack (d : Context) : Keeps (Edited talks spare c a₀) d.ownStack fun _ => True :=
  fun m hm => (d.ownStack_ends m).mono (fun _ _ h => ⟨h.1 ▸ hm, trivial⟩) fun _ _ h => h ▸ hm

theorem popCell : Keeps (Edited talks spare c a₀) c.popCell fun _ => True := by
  intro m hm
  unfold Context.popCell Context.topCell
  rw [bind_assoc, ends_bind, ends_inArena]
  refine ⟨fun top htop => ?_, fun _ _ => hm⟩
  rw [ends_bind, ends_ofOption]
  refine ⟨fun entry he => ?_, fun _ => hm⟩
  subst he
  rw [ends_bind, ends_modifyArena]
  exact ⟨hm.step (.pop htop) rfl, trivial⟩

end Edited

namespace Starts

variable (hS : Starts a₀ p c)
include hS

theorem pushLocal (hm : Edited talks spare c a₀ m) (hd : Reaches talks c d m) (v : Value) :
    (d.pushLocal v).Ends m (fun _ m' => Edited talks spare c a₀ m')
      fun _ m' => Edited talks spare c a₀ m' := by
  unfold Context.pushLocal
  refine Ends.bind ((Context.internValue_gains (hS.tree hm) d v).mono (fun _ _ h => h)
    fun _ _ h => hm.gains h) ?_
  rintro cell m₁ ⟨hg, -⟩
  exact (hm.gains hg).changeOwn (hd.gains hg) fun _ _ s => s.push cell

theorem pushAllLocal (hm : Edited talks spare c a₀ m) (hd : Reaches talks c d m)
    (vs : List Value) :
    (d.pushAllLocal vs).Ends m (fun _ m' => Edited talks spare c a₀ m')
      fun _ m' => Edited talks spare c a₀ m' := by
  unfold Context.pushAllLocal
  refine Ends.bind ((Context.internValues_gains (hS.tree hm) d vs).mono (fun _ _ h => h)
    fun _ _ h => hm.gains h) ?_
  rintro cells m₁ hg
  exact (hm.gains hg).changeOwn (hd.gains hg) fun σ a _ => .ofList (cells.reverse ++ a.stackCells σ)

theorem resolveCell (d : Context) (cell : Cell) :
    Keeps (Edited talks spare c a₀) (d.resolveCell cell) fun v => v ≠ .block rootScope :=
  fun _ hm => (Context.resolveCell_ends (hS.tree hm) d cell).mono
    (fun _ _ h => ⟨h.1 ▸ hm, h.2⟩) fun _ _ h => h ▸ hm

theorem sendTo (hm : Edited talks spare c a₀ m) (h : talks ∨ m.arena.InSession c.process)
    (d : Context) (pid : Pid) (v : Value) :
    (d.sendTo pid v).Ends m (fun _ m' => Edited talks spare c a₀ m')
      fun _ m' => Edited talks spare c a₀ m' := by
  unfold Context.sendTo Context.ofPid
  rw [bind_assoc, ends_bind, ends_get, bind_assoc, ends_bind, ends_ofExcept]
  exact ⟨fun scope _ => hS.pushLocal hm (Or.inr h) v, fun _ _ => hm⟩

theorem push (v : Value) : Keeps (Edited talks spare c a₀) (c.push v) fun _ => True := by
  intro m hm
  unfold Context.push
  refine Ends.bind ((c.pushTarget_ends m).mono (fun _ _ h => h) fun _ _ h => h ▸ hm) ?_
  rintro target m₁ ⟨rfl, htarget⟩
  cases target with
  | some pid =>
    exact (hS.sendTo hm (Or.inr (htarget fun h => by cases h)) c pid v).mono (fun _ _ h => ⟨h, trivial⟩)
      fun _ _ h => h
  | none => exact (hS.pushLocal hm (Or.inl rfl) v).mono (fun _ _ h => ⟨h, trivial⟩) fun _ _ h => h

theorem pushCell (cell : Cell) : Keeps (Edited talks spare c a₀) (c.pushCell cell) fun _ => True := by
  intro m hm
  unfold Context.pushCell
  refine Ends.bind ((c.pushTarget_ends m).mono (fun _ _ h => h) fun _ _ h => h ▸ hm) ?_
  rintro target m₁ ⟨rfl, htarget⟩
  cases target with
  | some pid =>
    refine Ends.bind ((Context.resolveCell_ends (hS.tree hm) c cell).mono (fun _ _ h => h)
      fun _ _ h => h ▸ hm) ?_
    rintro v m₁ ⟨rfl, -⟩
    exact (hS.sendTo hm (Or.inr (htarget fun h => by cases h)) c pid v).mono (fun _ _ h => ⟨h, trivial⟩)
      fun _ _ h => h
  | none =>
    exact (hm.changeOwn (Or.inl rfl) fun _ _ s => s.push cell).mono (fun _ _ h => ⟨h, trivial⟩)
      fun _ _ h => h

theorem pop : Keeps (Edited talks spare c a₀) c.pop fun v => v ≠ .block rootScope :=
  Edited.popCell.bind fun cell _ => hS.resolveCell c cell

theorem peek : Keeps (Edited talks spare c a₀) c.peek fun v => v ≠ .block rootScope := by
  have htop : Keeps (Edited talks spare c a₀) c.topCell fun _ => True := by
    intro m hm
    unfold Context.topCell
    rw [ends_bind, ends_inArena]
    exact ⟨fun r _ => ends_ofOption.mpr ⟨fun _ _ => ⟨hm, trivial⟩, fun _ => hm⟩, fun _ _ => hm⟩
  exact htop.bind fun top _ => hS.resolveCell c top.2

theorem stackValues (d : Context) :
    Keeps (Edited talks spare c a₀) d.stackValues fun vs => ∀ v ∈ vs, v ≠ .block rootScope :=
  (Edited.ownStack d).bind fun _ _ => Keeps.get_bind fun _ _ =>
    Keeps.mapM fun cell _ => hS.resolveCell d cell

theorem drainStack (hm : Edited talks spare c a₀ m) (hd : Reaches talks c d m) :
    d.drainStack.Ends m
      (fun vs m' => Edited talks spare c a₀ m' ∧ ∀ v ∈ vs, v ≠ .block rootScope)
      fun _ m' => Edited talks spare c a₀ m' := by
  unfold Context.drainStack
  refine Ends.bind ((d.ownStack_ends m).mono (fun _ _ h => h) fun _ _ h => h ▸ hm) ?_
  rintro σ m₁ ⟨rfl, hσ⟩
  rw [ends_bind, ends_get, ends_bind, ends_modifyArena]
  refine (Keeps.mapM fun cell _ => hS.resolveCell d cell) _ ?_
  rcases hd with rfl | hd
  · exact hm.step (.put _ hσ) rfl
  · exact hm.step (.send _ hd) rfl

theorem popLocal (hm : Edited talks spare c a₀ m) (hd : Reaches talks c d m) :
    d.popLocal.Ends m (fun v m' => Edited talks spare c a₀ m' ∧ v ≠ .block rootScope)
      fun _ m' => Edited talks spare c a₀ m' := by
  unfold Context.popLocal
  refine Ends.bind ((d.ownStack_ends m).mono (fun _ _ h => h) fun _ _ h => h ▸ hm) ?_
  rintro σ m₁ ⟨rfl, hσ⟩
  rw [ends_bind, ends_get]
  split
  · exact hm
  · rw [ends_bind, ends_modifyArena]
    refine hS.resolveCell d _ _ ?_
    rcases hd with rfl | hd
    · exact hm.step (.put _ hσ) rfl
    · exact hm.step (.send _ hd) rfl

theorem setStackValues (vs : List Value) :
    Keeps (Edited talks spare c a₀) (c.setStackValues vs) fun _ => True := by
  intro m hm
  unfold Context.setStackValues
  refine Ends.bind ((Context.internValues_gains (hS.tree hm) c vs).mono (fun _ _ h => h)
    fun _ _ h => hm.gains h) ?_
  rintro cells m₁ hg
  exact ((hm.gains hg).changeOwn (Or.inl rfl) fun _ _ _ => .ofList cells.reverse).mono
    (fun _ _ h => ⟨h, trivial⟩) fun _ _ h => h

/-- **The actions on values.** -/
theorem handles : Handles (Edited talks spare c a₀) (· ≠ .block rootScope) c where
  pop := hS.pop
  peek := hS.peek
  push _ := hS.push _
  size := (Edited.ownStack c).bind fun _ _ => Keeps.get_bind fun _ _ => .pure trivial
  values := hS.stackValues c
  setValues _ := hS.setStackValues _
  drain _ hm := hS.drainStack hm (Or.inl rfl)
  write _ _ hm := ⟨hm, trivial⟩
  plain h := h rootScope

/-! ## 3. Variables and blocks that go -/

/-- **Letting go of blocks and forgetting variables.** -/
theorem forgetful : Forgetful (Edited talks spare c a₀) where
  tree hm := hS.tree hm
  discard {m top pools b} hm hne hr hd := by
    have hF := (hS.tree hm).forest
    exact hm.step (.prune hne (Arena.unreferenced_of_eq_false hF hr) (Arena.discard_pruned hF hd)) rfl
  bound hm hs hb := (hS.regular_now hm).bound _ _ _ hs hb
  unbind owner name hm := by
    refine hm.step (.refill (.modify _ owner (·.unbind name) (fun _ => rfl) fun s h hb => ?_)
      (Arena.callsOf_modify _ owner fun _ => rfl)
      (.of_modify _ owner (fun _ => ⟨rfl, rfl⟩) fun _ s _ _ => ⟨rfl, fun other hb => ?_⟩)) rfl
    · obtain ⟨other, ho⟩ := Scope.mem_boundCells.mp hb
      rw [Scope.binding?_unbind] at ho
      split at ho
      · cases ho
      · exact Or.inr (Scope.mem_boundCells.mpr ⟨other, ho⟩)
    · rw [Scope.binds_eq, Scope.binding?_unbind] at hb
      split at hb
      · cases hb
      · exact (Scope.binds_eq s other).trans hb
  erase {m} owner {f} hf hm := by
    refine hm.step (.refill (.modify _ owner f (fun s => ?_) fun s h hb => Or.inr ?_)
      (Arena.callsOf_modify _ owner fun s => ?_) (.modify _ owner fun s => ?_)) rfl
    · rw [hf s]
      rfl
    · rwa [hf s] at hb
    · rw [hf s]
    · rw [hf s]
      rfl

omit hS in
theorem define {cell : Cell} (hne : cell ≠ .block rootScope) (name : String) (strict : Bool) :
    Keeps (Edited talks spare c a₀) (c.define name cell strict) fun _ => True := by
  intro m hm
  unfold Context.define
  rw [ends_bind, ends_inArena]
  refine ⟨fun b hd => ?_, fun _ _ => hm⟩
  suffices h : Edited talks spare c a₀ { m with arena := b } from ⟨h, trivial⟩
  rcases Arena.define_cases hd with rfl | ⟨s, hs, rfl⟩
  · exact hm
  · refine hm.step (.refill (.modify _ _ (·.bind name cell) (fun _ => rfl) fun s h hb => ?_)
      (Arena.callsOf_modify _ _ fun _ => rfl)
      (.of_modify _ _ (fun _ => ⟨rfl, rfl⟩) fun hc r hroot hr => ⟨rfl, fun other hb => ?_⟩)) rfl
    · obtain ⟨other, ho⟩ := Scope.mem_boundCells.mp hb
      rw [Scope.binding?_bind] at ho
      split at ho
      · cases ho
        exact Or.inl fun he => hne (he ▸ rfl)
      · exact Or.inr (Scope.mem_boundCells.mpr ⟨other, ho⟩)
    · -- where a block writes to the top level, the name is bound there
      rw [Scope.binds_eq, Scope.binding?_bind] at hb
      split at hb
      · rename_i heq
        rcases m.arena.definingScope_binds c.scope s name with hself | ⟨t, ht, hbound⟩
        · exact absurd (hself.symm.trans hroot) hc
        · cases hr.symm.trans ht
          exact heq ▸ hbound
      · exact (Scope.binds_eq r other).trans hb

theorem popDefinition (strict : Bool) :
    Keeps (Edited talks spare c a₀) (popDefinition c strict) fun _ => True := by
  refine (popText_keeps hS.pop).bind fun name _ => hS.pop.bind fun v hv m hm => ?_
  refine Ends.bind ((Context.internValue_gains (hS.tree hm) c v).mono (fun _ _ h => h)
    fun _ _ h => hm.gains h) ?_
  rintro cell m₁ ⟨hg, hcell⟩
  exact define (fun he => hv (hcell rootScope he)) name strict m₁ (hm.gains hg)

theorem scopeWord (w : ScopeWord) :
    Keeps (Edited talks spare c a₀) (w.perform c) (Job.AllSimple c) := by
  cases w with
  | define => exact (hS.popDefinition false).bind fun _ _ => .pure .nil
  | defineStrict => exact (hS.popDefinition true).bind fun _ _ => .pure .nil
  | forget =>
    refine (popText_keeps hS.pop).bind fun name _ => ?_
    refine (Context.forget_keeps hS.forgetful c name).bind fun r _ => ?_
    cases r with
    | some pools => exact .pure (Job.allSimple_closePools pools)
    | none => exact .fail _
  | eval =>
    exact (popText_keeps hS.pop).bind fun text _ => .pure (.cons (fun d h => by cases h; rfl) .nil)
  | load =>
    exact (popText_keeps hS.pop).bind fun path _ => .pure (.cons (fun d h => by cases h; rfl) .nil)

/-! ## 4. Other processes -/

/-- **Reaching into other processes**, where that is allowed. -/
theorem converses (ht : talks) :
    Converses (Edited talks spare c a₀) (· ≠ .block rootScope) c where
  sendTo pid v _ m hm :=
    (hS.sendTo hm (Or.inl ht) c pid v).mono (fun _ _ h => ⟨h, trivial⟩) fun _ _ h => h
  sendAllTo pid m hm := by
    unfold Context.sendAllTo Context.ofPid
    rw [bind_assoc, ends_bind, ends_get, bind_assoc, ends_bind, ends_ofExcept]
    refine ⟨fun scope _ => ?_, fun _ _ => hm⟩
    rw [pure_bind]
    refine (hS.drainStack hm (Or.inl rfl)).bind ?_
    rintro vs m₁ ⟨hm₁, -⟩
    exact (hS.pushAllLocal hm₁ (Or.inr (Or.inl ht)) vs).mono (fun _ _ h => ⟨h, trivial⟩)
      fun _ _ h => h
  takeFrom pid m hm := by
    unfold Context.takeFrom Context.ofPid
    rw [bind_assoc, ends_bind, ends_get, bind_assoc, ends_bind, ends_ofExcept]
    exact ⟨fun scope _ => hS.popLocal hm (Or.inr (Or.inl ht)), fun _ _ => hm⟩
  takeAllFrom pid m hm := by
    unfold Context.takeAllFrom Context.ofPid
    rw [bind_assoc, ends_bind, ends_get, bind_assoc, ends_bind, ends_ofExcept]
    refine ⟨fun scope _ => ?_, fun _ _ => hm⟩
    rw [pure_bind]
    refine (hS.drainStack hm (Or.inr (Or.inl ht))).bind ?_
    rintro vs m₁ ⟨hm₁, -⟩
    exact (hS.pushAllLocal hm₁ (Or.inl rfl) vs).mono (fun _ _ h => ⟨h, trivial⟩) fun _ _ h => h
  beginPush pid m hm := by
    unfold Context.beginPush
    rw [ends_bind, ends_get, ends_bind, ends_ofExcept]
    refine ⟨fun _ _ => ?_, fun _ _ => hm⟩
    rw [ends_bind, ends_getScope]
    refine ⟨fun s _ => ?_, fun _ => hm⟩
    dsimp only
    split
    · exact hm
    · exact ⟨hm.step (.session _ (Or.inl ht)) rfl, trivial⟩

omit hS in
theorem endPush : Keeps (Edited talks spare c a₀) c.endPush fun _ => True := by
  intro m hm
  unfold Context.endPush
  rw [ends_bind, ends_getScope]
  refine ⟨fun s hs => ?_, fun _ => hm⟩
  dsimp only
  split
  · exact hm
  · rename_i hopen
    refine ⟨hm.step (.session none (Or.inr ⟨s, hs, fun hnone => hopen ?_⟩)) rfl, trivial⟩
    rw [hnone]
    rfl

omit hS in
theorem stop : Keeps (Edited talks spare c a₀) c.stop fun _ => True := by
  intro m hm
  unfold Context.stop
  rw [ends_bind, ends_getScope]
  exact ⟨fun s _ => ⟨hm, trivial⟩, fun _ => hm⟩

omit hS in
/-- Only the pool of the process changes when one is made for its children. -/
theorem childPool (c : Context) (m : Machine) :
    c.childPool.Ends m
      (fun _ m' => m.arena.Refills m'.arena ∧ (∀ k, m'.arena.callsOf k = m.arena.callsOf k) ∧
        m.arena.Discreet c m'.arena)
      fun _ m' => m' = m := by
  have hnew : c.newPool.Ends m
      (fun _ m' => m.arena.Refills m'.arena ∧ (∀ k, m'.arena.callsOf k = m.arena.callsOf k) ∧
        m.arena.Discreet c m'.arena)
      fun _ m' => m' = m := by
    unfold Context.newPool
    rw [ends_bind, ends_get, ends_bind, ends_set, ends_bind, ends_modifyScope]
    exact ⟨.modify _ c.process (fun s => { s with pool := some (m.lastPool + 1) }) (fun _ => rfl)
      fun _ _ hb => Or.inr hb, Arena.callsOf_modify _ c.process fun _ => rfl,
      .ownPool m.arena (m.lastPool + 1)⟩
  unfold Context.childPool
  rw [ends_bind, ends_getScope]
  refine ⟨fun s _ => ?_, fun _ => rfl⟩
  rw [ends_bind, ends_get]
  split
  · split
    · exact ⟨.refl _, fun _ => rfl, .of_scopes fun _ => rfl⟩
    · exact hnew
  · exact hnew

/-- A block that does not run now did not run when the job started. -/
theorem idle_before (hm : Edited talks spare c a₀ m) {block : ScopeId} {s : Scope}
    (hs : m.arena.get? block = some s) (hrun : s.running = false) (t : Scope)
    (ht : a₀.get? block = some t) : t.running = false := by
  cases h : t.running with
  | false => rfl
  | true =>
    obtain ⟨s', hs', hrun', -⟩ := (hS.drifts hm).kept ht (Or.inr h)
    cases hs.symm.trans hs'
    rw [hrun', h] at hrun
    cases hrun

/-- Claiming a block, which did not run when the job started. -/
theorem claim (ht : talks) (hm : Edited talks spare c a₀ m) (h : Handle) :
    (c.claim h).Ends m
      (fun r m' => Edited talks spare c a₀ m' ∧ r.2.scope ≠ rootScope ∧
        ∀ s, a₀.get? r.2.scope = some s → s.running = false)
      fun _ m' => Edited talks spare c a₀ m' := by
  unfold Context.claim
  rw [ends_bind, ends_inArena]
  refine ⟨fun block hr => ?_, fun _ _ => hm⟩
  rw [ends_bind, ends_getScope]
  refine ⟨fun s hs => ?_, fun _ => hm⟩
  dsimp only
  split
  · exact hm
  · rename_i hrun
    have hrun : s.running = false := Bool.not_eq_true _ ▸ hrun
    obtain ⟨rfl, -, hl, hne, -⟩ := (hS.tree hm).of_resolveBlock hr
    have hidle := hS.idle_before hm hs hrun
    refine Ends.bind ((childPool c m).mono (fun _ _ h => h) fun _ _ h => h ▸ hm) ?_
    rintro pool m₁ ⟨hrefill, hcalls, hdiscreet⟩
    have hm₁ : Edited talks spare c a₀ m₁ := hm.step (.refill hrefill hcalls hdiscreet) rfl
    obtain ⟨s₁, hs₁, he⟩ := hrefill.get?_of hs
    have hrun₁ : s₁.running = false :=
      (Scope.eq_of_outline (·.running) (fun _ => rfl) he).trans hrun
    rw [ends_bind, Crew.ends_claimBlock]
    exact ⟨hm₁.step (.claim _ ht hs₁ hrun₁ (hrefill.alike.linked_iff.mpr hl) hne) rfl, hne, hidle⟩

omit hS in
theorem submit (pool : PoolId) (task : Task) :
    Keeps (Edited talks spare c a₀) (Context.submit pool task) fun _ => True := by
  refine Keeps.get_bind fun m hm => ?_
  split
  · exact .fail _
  · intro m' _
    rw [ends_bind, ends_set, ends_ofExcept]
    exact ⟨fun _ _ => ⟨hm, trivial⟩, fun _ _ => hm⟩

omit hS in
theorem arena_closePool (m : Machine) (id : PoolId) : (m.closePool id).2.arena = m.arena := by
  unfold Machine.closePool
  split <;> rfl

/-- A process that could not be started ends. -/
theorem finishProcess (ht : talks) (hm : Edited talks spare c a₀ m) {scope : ScopeId}
    (hne : scope ≠ rootScope) (hidle : ∀ s, a₀.get? scope = some s → s.running = false) (pid : Pid) :
    Edited talks spare c a₀ (m.finishProcess scope pid).2 := by
  cases hs : m.arena.get? scope with
  | none =>
    refine hm.congr ?_
    simp only [Machine.finishProcess, hs]
  | some s =>
    obtain ⟨b, hfin, hb⟩ := Crew.finishProcess_eq pid hs
    have hclear : Edited talks spare c a₀ { m with arena := m.arena.modify scope (·.cleared) } :=
      hm.step (.clear ht hne hidle) rfl
    rw [hfin]
    rcases hb with rfl | ⟨pools, hunref, hd⟩
    · exact hclear
    · exact hS.forgetful.discard hclear hne hunref hd

theorem spawn (ht : talks) (h : Handle) :
    Keeps (Edited talks spare c a₀) (c.spawn h) fun _ => True := by
  refine (hS.stackValues c).bind fun values _ m hm => ?_
  refine (hS.claim ht hm h).bind ?_
  rintro ⟨pool, task⟩ m₁ ⟨hm₁, hne, hidle⟩
  have hbody : ((Context.ofProcess task.scope task.halt).pushAllLocal values >>= fun _ =>
      Context.submit pool task).Ends m₁ (fun _ m' => Edited talks spare c a₀ m')
      fun _ m' => Edited talks spare c a₀ m' :=
    (hS.pushAllLocal hm₁ (Or.inr (Or.inl ht)) values).bind fun _ m₂ hm₂ =>
      (submit pool task m₂ hm₂).mono (fun _ _ h => h.1) fun _ _ h => h
  have hclose (pools : List PoolId) (m : Machine) :
      (pools.foldl (fun m id => (m.closePool id).2) m).arena = m.arena := by
    induction pools generalizing m with
    | nil => rfl
    | cons id pools ih => exact (ih _).trans (arena_closePool m id)
  rw [ends_bind, ends_tryCatch]
  refine hbody.mono (fun _ m₂ h => ⟨h, trivial⟩) fun e m₂ h => ?_
  exact (hS.finishProcess ht h hne hidle task.pid).congr (hclose _ _)

theorem popSpawn (ht : talks) : Keeps (Edited talks spare c a₀) (popSpawn c) fun _ => True := by
  refine hS.pop.bind fun v _ => ?_
  cases v with
  | block h => exact (hS.spawn ht h).bind fun pid _ => hS.push _
  | _ => exact .fail _

theorem processWord (w : ProcessWord) (hw : w.talks = true → talks) :
    Keeps (Edited talks spare c a₀) (w.perform c) (Job.AllSimple c) := by
  by_cases hspawn : w = .spawn
  · subst hspawn
    exact (hS.popSpawn (hw rfl)).bind fun _ _ => .pure .nil
  · exact w.keeps hS.handles endPush stop hspawn fun ht => hS.converses (hw ht)

end Starts

/-! ## 5. Words -/

/-- **What an operation does.** -/
theorem Effect.edits (hS : Starts a₀ p c) (e : Effect) (he : e.talks = true → talks) :
    Keeps (Edited talks spare c a₀) (e.perform c) (Job.AllSimple c) := by
  have H : Handles (Edited talks spare c a₀) (· ≠ .block rootScope) c := hS.handles
  have hvalue {x : Action Unit} (h : Keeps (Edited talks spare c a₀) x fun _ => True) :
      Keeps (Edited talks spare c a₀) (x >>= fun _ => (pure [] : Action (List Job)))
        (Job.AllSimple c) := h.bind fun _ _ => .pure .nil
  cases e with
  | output w => exact hvalue (w.keeps H)
  | stack w => exact hvalue (w.keeps H)
  | arith w => exact hvalue (w.keeps H)
  | compare w => exact hvalue (w.keeps H)
  | text w => exact hvalue (w.keeps H)
  | list w => exact hvalue (w.keeps H)
  | control w =>
    exact w.keeps (Context.discardTransient_keeps hS.forgetful.toPrunable c) fun m hm =>
      (hS.pop m hm).mono (fun _ _ h => ⟨h.1, trivial⟩) fun _ _ h => h
  | scope w => exact hS.scopeWord w
  | process w => exact hS.processWord w he
  | host x => exact x.keeps H

end ScopeStack
