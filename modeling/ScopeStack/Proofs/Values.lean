import ScopeStack.Machine.Process
import ScopeStack.Machine.Variables
import ScopeStack.Proofs.Action
import ScopeStack.Proofs.Calls
import ScopeStack.Proofs.Pids

/-!
# Values and stacks in a steady arena

Words that work on values leave the scopes where they are. What they take from a stack resolves, so a
block among it is there and known; what they put on a stack they have taken, or interned for a scope
that has the top level on its chain.

* `Stays`: the machine is steady, and its scopes are as they were in an earlier arena.
* `Known`: a value that was taken from a stack. `Seated`: a context in which code may run.
* `Handles`: **the actions by which a word reaches values keep an invariant**, for any invariant and
  any notion of a good value. `Seated.handles`: those of a seated context keep `Stays`.
-/

namespace ScopeStack

open ScopeStack.Action

/-- The process table of an environment that has spawned nothing. -/
def rootTable : ProcessTable := ({} : ProcessTable).registerRoot rootScope

theorem get?_rootTable (pid : Pid) :
    rootTable.get? pid = if pid = rootPid then some rootScope else none :=
  ProcessTable.get?_insert {} rootPid pid rootScope

/-- The machine is steady, no process has been spawned, and the scopes are as they were in `a₀`. -/
structure Stays (honest kept : Prop) (a₀ : Arena) (m : Machine) : Prop where
  steady : m.arena.Steady honest kept
  still : a₀.Still m.arena
  processes : m.processes = rootTable

/-- If the value is a block, it is there and known to the top level. -/
def Known (a : Arena) (v : Value) : Prop :=
  ∀ h, v = .block h → (∃ s, a.get? h = some s) ∧ rootScope ∈ a.scopesKnowing h

/-- Code of the top level may run here. -/
structure Seated (a : Arena) (c : Context) : Prop where
  linked : a.Linked c.scope
  process : c.process = rootScope
  listed {σ : StackId} : σ ∈ c.callStacks → a.Listed σ

theorem Arena.Still.known_iff {a b : Arena} (hS : a.Still b) {v : Value} :
    Known b v ↔ Known a v := by
  refine forall_congr' fun h => imp_congr_right fun _ => ?_
  rw [hS.scopesKnowing]
  refine and_congr_left fun _ => ⟨fun ⟨t, ht⟩ => ?_, fun ⟨s, hs⟩ => ?_⟩
  · obtain ⟨s, hs, -⟩ := hS.get? ht
    exact ⟨s, hs⟩
  · obtain ⟨t, ht, -⟩ := hS.get?_of hs
    exact ⟨t, ht⟩

theorem Known.of_ne {a : Arena} {v : Value} (h : ∀ k, v ≠ .block k) : Known a v :=
  fun k hk => absurd hk (h k)

theorem Seated.still {a b : Arena} {c : Context} (h : Seated a c) (hS : a.Still b) : Seated b c :=
  ⟨hS.linked h.linked, h.process, fun hσ => hS.listed (h.listed hσ)⟩

/-- Another scope with a way out, on its own stack. -/
theorem Seated.onScope {a : Arena} {c : Context} (h : Seated a c) {id : ScopeId}
    (hl : a.Linked id) : Seated a (c.onScope id) :=
  ⟨hl, h.process, fun hσ => absurd hσ List.not_mem_nil⟩

theorem Seated.switchTo {a : Arena} {c : Context} (h : Seated a c) {id : ScopeId}
    (hl : a.Linked id) : Seated a (c.switchTo id) := by
  unfold Context.switchTo
  split
  · exact h
  · exact h.onScope hl

/-! ## 1. Interning and resolving -/

/-- Payloads have been interned, and nothing else has happened. -/
structure Gains (m m' : Machine) : Prop where
  grows : m.arena.Grows m'.arena
  processes : m'.processes = m.processes

namespace Gains

theorem refl (m : Machine) : Gains m m := ⟨.refl _, rfl⟩

theorem trans {m m' m'' : Machine} (h : Gains m m') (h' : Gains m' m'') : Gains m m'' :=
  ⟨h.grows.trans h'.grows, h'.processes.trans h.processes⟩

variable {honest kept : Prop} {a₀ : Arena} {m m' : Machine}

theorem stays (h : Gains m m') (hm : Stays honest kept a₀ m) : Stays honest kept a₀ m' :=
  ⟨hm.steady.grows h.grows, hm.still.trans h.grows.still, h.processes.trans hm.processes⟩

theorem backs (h : Gains m m') {cell : Cell} (hb : m.arena.Backs honest kept cell) :
    m'.arena.Backs honest kept cell :=
  h.grows.still.backs h.grows.retains hb

end Gains

namespace Context

variable {honest kept : Prop} {a₀ : Arena} {c : Context} {m : Machine}

/-- A payload that is interned from a scope with a way out is in the tables of the top level. -/
theorem internPayload_ends {α : Type} [BEq α] [Interned α] [Arena.GrowingTable α]
    (hash : ContentHash → α → Handle) (v : α) (hT : m.arena.Tree) :
    (internPayload hash c v).Ends m
      (fun h m' => Gains m m' ∧ (m.arena.Linked c.scope → m'.arena.HasPayload α rootScope h))
      fun _ m' => Gains m m' := by
  unfold internPayload
  rw [ends_bind, ends_get]
  generalize hi : m.arena.intern (hash m.hash) c.scope v = r
  obtain ⟨hg, hp⟩ := Arena.intern_grows hi
  rw [ends_changeArena, hi]
  exact ⟨fun h hr => ⟨⟨hg, rfl⟩, fun hl => hp h hr _ (hT.mem_chain hl)⟩, fun e _ => ⟨hg, rfl⟩⟩

/-- The cell of a value is backed, and it is the block that the value is. -/
theorem internValue_ends (v : Value) (hm : Stays honest kept a₀ m) (hl : m.arena.Linked c.scope)
    (hv : honest → Known m.arena v) :
    (c.internValue v).Ends m
      (fun cell m' => Gains m m' ∧ m'.arena.Backs honest kept cell ∧
        ∀ h, cell = .block h → v = .block h)
      fun _ m' => Gains m m' := by
  have hT := hm.steady.tree
  cases v with
  | bool b => exact ⟨.refl m, trivial, fun h he => by cases he⟩
  | int n => exact ⟨.refl m, trivial, fun h he => by cases he⟩
  | block k => exact ⟨.refl m, fun hh => hv hh k rfl, fun h he => by cases he; rfl⟩
  | big n =>
    exact (internPayload_ends _ _ hT).bind fun h m' ⟨hg, hp⟩ =>
      ⟨hg, fun _ => hp hl, fun k he => by cases he⟩
  | double x =>
    exact (internPayload_ends _ _ hT).bind fun h m' ⟨hg, hp⟩ =>
      ⟨hg, fun _ => hp hl, fun k he => by cases he⟩
  | str text =>
    exact (internPayload_ends _ _ hT).bind fun h m' ⟨hg, hp⟩ =>
      ⟨hg, fun _ => hp hl, fun k he => by cases he⟩
  | word name =>
    exact (internPayload_ends _ _ hT).bind fun h m' ⟨hg, hp⟩ =>
      ⟨hg, fun _ => hp hl, fun k he => by cases he⟩

/-- The cells of several values are all backed in the end. -/
theorem internValues_ends (vs : List Value) (hm : Stays honest kept a₀ m)
    (hl : m.arena.Linked c.scope) (hv : honest → ∀ v ∈ vs, Known m.arena v) :
    (vs.mapM c.internValue).Ends m
      (fun cells m' => Gains m m' ∧ ∀ cell ∈ cells, m'.arena.Backs honest kept cell)
      fun _ m' => Gains m m' := by
  induction vs generalizing m with
  | nil => exact ⟨.refl m, fun _ h => absurd h List.not_mem_nil⟩
  | cons v vs ih =>
    rw [List.mapM_cons]
    refine (internValue_ends v hm hl fun hh => hv hh v List.mem_cons_self).bind ?_
    rintro cell m₁ ⟨hg, hb, -⟩
    have hrest := ih (hg.stays hm) (hg.grows.still.linked hl)
      fun hh w hw => hg.grows.still.known_iff.mpr (hv hh w (List.mem_cons_of_mem _ hw))
    refine Ends.bind (hrest.mono (fun _ _ h => h) fun _ _ h => hg.trans h) ?_
    rintro cells m₂ ⟨hg', hbs⟩
    refine ⟨hg.trans hg', fun x hx => ?_⟩
    rcases List.mem_cons.mp hx with rfl | hx
    · exact hg'.backs hb
    · exact hbs x hx

/-- Resolving changes nothing, and a block that comes out of it has been looked up. -/
theorem resolveCell_finds (c : Context) (cell : Cell) :
    (c.resolveCell cell).Ends m (fun v m' => m' = m ∧ ∀ h, v = .block h →
      ∃ k, m.arena.resolveBlock c.scope h = .ok k) fun _ m' => m' = m := by
  have hread {α : Type} (f : Arena → Except Fault α) (g : α → Value) (hg : ∀ x k, g x ≠ .block k) :
      (inArena f >>= fun x => (pure (g x) : Action Value)).Ends m
        (fun v m' => m' = m ∧ ∀ h, v = .block h → ∃ k, m.arena.resolveBlock c.scope h = .ok k)
        fun _ m' => m' = m := by
    rw [ends_bind, ends_inArena]
    exact ⟨fun x _ => ⟨rfl, fun h he => absurd he (hg x h)⟩, fun _ _ => rfl⟩
  cases cell with
  | bool b => exact ⟨rfl, fun h he => by cases he⟩
  | int n => exact ⟨rfl, fun h he => by cases he⟩
  | big h => exact hread _ _ fun x k he => by cases x <;> cases he
  | double h => exact hread _ _ fun x k he => by cases x <;> cases he
  | str h => exact hread _ _ fun x k he => by cases he
  | word h => exact hread _ _ fun x k he => by cases he
  | block h =>
    show (inArena _ >>= fun _ => (pure (Value.block h) : Action Value)).Ends m _ _
    rw [ends_bind, ends_inArena]
    refine ⟨fun k hk => ⟨rfl, fun j hj => ?_⟩, fun _ _ => rfl⟩
    cases hj
    exact ⟨k, hk⟩

/-- What resolves is known. -/
theorem resolveCell_keeps (cell : Cell) :
    Keeps (Stays honest kept a₀) (c.resolveCell cell) (Known a₀) := by
  intro m hm
  refine (resolveCell_finds c cell).mono ?_ fun _ _ he => he ▸ hm
  rintro v _ ⟨rfl, hfound⟩
  refine ⟨hm, hm.still.known_iff.mp fun h hv => ?_⟩
  obtain ⟨k, hk⟩ := hfound h hv
  obtain ⟨-, ⟨s, hs, -⟩, -, -, hr⟩ := hm.steady.tree.of_resolveBlock hk
  exact ⟨⟨s, hs⟩, hr⟩

/-! ## 2. Pushing -/

/-- The innermost stack belongs to a scope with a way out. -/
theorem ownStack_keeps (hc : Seated a₀ c) :
    Keeps (Stays honest kept a₀) c.ownStack a₀.Listed := by
  intro m hm
  unfold ownStack
  split
  · rename_i σ rest heq
    exact ⟨hm, hc.listed (heq ▸ List.mem_cons_self)⟩
  · rw [ends_bind, ends_getScope]
    refine ⟨fun t ht => ⟨hm, ?_⟩, fun _ => hm⟩
    obtain ⟨s, hs, he⟩ := hm.still.get? ht
    refine ⟨c.scope, s, hs, ?_, hc.linked⟩
    rw [Scope.eq_of_core (·.stack) (fun _ => rfl) he]
    exact List.mem_cons_self

/-- Cells that are backed go onto the innermost stack, or take its place. -/
theorem changeOwn_ends (hc : Seated a₀ c) (hm : Stays honest kept a₀ m)
    (f : StackId → Arena → CellStack → CellStack)
    (hf : ∀ σ, ∀ cell ∈ (f σ m.arena (m.arena.stack σ)).cells,
      cell ∈ m.arena.stackCells σ ∨ m.arena.Backs honest kept cell) :
    (c.ownStack >>= fun σ => modifyArena fun a => a.modifyStack σ (f σ a)).Ends m
      (fun _ m' => Stays honest kept a₀ m' ∧ True) fun _ m' => Stays honest kept a₀ m' := by
  have hown : c.ownStack.Ends m (fun σ m' => m' = m ∧ a₀.Listed σ)
      fun _ m' => Stays honest kept a₀ m' := by
    have h := ownStack_keeps hc m hm
    unfold ownStack at h ⊢
    split at h
    · exact ⟨rfl, h.2⟩
    · rw [ends_bind, ends_getScope] at h ⊢
      exact ⟨fun t ht => ⟨rfl, (h.1 t ht).2⟩, h.2⟩
  refine hown.bind ?_
  rintro σ m₁ ⟨rfl, hσ⟩
  refine ⟨⟨?_, hm.still.trans (.modifyStack _ _ _), hm.processes⟩, trivial⟩
  exact hm.steady.modifyStack σ _ fun cell hx =>
    (hf σ cell hx).imp_right fun hb => ⟨hm.still.listed hσ, hb⟩

theorem pushLocal_keeps (hc : Seated a₀ c) {v : Value} (hv : honest → Known a₀ v) :
    Keeps (Stays honest kept a₀) (c.pushLocal v) fun _ => True := by
  intro m hm
  unfold pushLocal
  refine Ends.bind ((internValue_ends v hm (hm.still.linked hc.linked) fun hh =>
    hm.still.known_iff.mpr (hv hh)).mono (fun _ _ h => h) fun _ _ h => h.stays hm) ?_
  rintro cell m₁ ⟨hg, hb, -⟩
  refine changeOwn_ends hc (hg.stays hm) (fun _ _ s => s.push cell) fun σ x hx => ?_
  rcases List.mem_cons.mp hx with rfl | hx
  · exact Or.inr hb
  · exact Or.inl hx

theorem pushAllLocal_keeps (hc : Seated a₀ c) {vs : List Value}
    (hv : honest → ∀ v ∈ vs, Known a₀ v) :
    Keeps (Stays honest kept a₀) (c.pushAllLocal vs) fun _ => True := by
  intro m hm
  unfold pushAllLocal
  refine Ends.bind ((internValues_ends vs hm (hm.still.linked hc.linked) fun hh v hvs =>
    hm.still.known_iff.mpr (hv hh v hvs)).mono (fun _ _ h => h) fun _ _ h => h.stays hm) ?_
  rintro cells m₁ ⟨hg, hb⟩
  refine changeOwn_ends hc (hg.stays hm)
    (fun σ a _ => .ofList (cells.reverse ++ a.stackCells σ)) fun σ x hx => ?_
  rcases List.mem_append.mp hx with hx | hx
  · exact Or.inr (hb x (List.mem_reverse.mp hx))
  · exact Or.inl hx

theorem setStackValues_keeps (hc : Seated a₀ c) {vs : List Value} (hv : ∀ v ∈ vs, Known a₀ v) :
    Keeps (Stays honest kept a₀) (c.setStackValues vs) fun _ => True := by
  intro m hm
  unfold setStackValues
  refine Ends.bind ((internValues_ends vs hm (hm.still.linked hc.linked) fun _ v hvs =>
    hm.still.known_iff.mpr (hv v hvs)).mono (fun _ _ h => h) fun _ _ h => h.stays hm) ?_
  rintro cells m₁ ⟨hg, hb⟩
  refine changeOwn_ends hc (hg.stays hm) (fun _ _ _ => .ofList cells.reverse) fun σ x hx => ?_
  exact Or.inr (hb x (List.mem_reverse.mp hx))

/-- The only process is the top level. -/
theorem ofPid_keeps (hT : a₀.Tree) (c : Context) (pid : Pid) :
    Keeps (Stays honest kept a₀) (c.ofPid pid) fun d => Seated a₀ d ∧ d.scope = rootScope := by
  intro m hm
  unfold ofPid
  rw [ends_bind, ends_get, ends_bind, ends_ofExcept, hm.processes]
  refine ⟨fun scope hs => ⟨hm, ?_⟩, fun _ _ => hm⟩
  have hscope : scope = rootScope := by
    unfold ProcessTable.get at hs
    split at hs
    · rename_i k hk
      cases hs
      rw [get?_rootTable] at hk
      split at hk
      · exact (Option.some.inj hk).symm
      · cases hk
    · cases hs
  subst hscope
  exact ⟨⟨hT.linked_root, rfl, fun hσ => absurd hσ List.not_mem_nil⟩, rfl⟩

theorem sendTo_keeps (hT : a₀.Tree) (c : Context) (pid : Pid) {v : Value}
    (hv : honest → Known a₀ v) : Keeps (Stays honest kept a₀) (c.sendTo pid v) fun _ => True :=
  (ofPid_keeps hT c pid).bind fun _ hd => pushLocal_keeps hd.1 hv

theorem pushTarget_keeps (c : Context) :
    Keeps (Stays honest kept a₀) c.pushTarget fun _ => True := by
  intro m hm
  unfold pushTarget
  rw [ends_bind, ends_getScope]
  exact ⟨fun _ _ => ⟨hm, trivial⟩, fun _ => hm⟩

theorem push_keeps (hT : a₀.Tree) (hc : Seated a₀ c) {v : Value} (hv : honest → Known a₀ v) :
    Keeps (Stays honest kept a₀) (c.push v) fun _ => True := by
  refine (pushTarget_keeps c).bind fun target _ => ?_
  cases target with
  | some pid => exact sendTo_keeps hT c pid hv
  | none => exact pushLocal_keeps hc hv

/-- A backed cell is pushed. -/
theorem pushCell_ends (hT : a₀.Tree) (hc : Seated a₀ c) {cell : Cell} (hm : Stays honest kept a₀ m)
    (hb : m.arena.Backs honest kept cell) :
    (c.pushCell cell).Ends m (fun _ m' => Stays honest kept a₀ m') fun _ m' =>
      Stays honest kept a₀ m' := by
  have htarget : c.pushTarget.Ends m (fun _ m' => m' = m) fun _ m' => Stays honest kept a₀ m' := by
    unfold pushTarget
    rw [ends_bind, ends_getScope]
    exact ⟨fun _ _ => rfl, fun _ => hm⟩
  refine htarget.bind ?_
  rintro target m₁ rfl
  cases target with
  | some pid =>
    have h : Keeps (Stays honest kept a₀) (c.resolveCell cell >>= c.sendTo pid) fun _ => True :=
      (resolveCell_keeps cell).bind fun v hv => sendTo_keeps hT c pid fun _ => hv
    exact (h m₁ hm).mono (fun _ _ h => h.1) fun _ _ h => h
  | none =>
    refine (changeOwn_ends hc hm (fun _ _ s => s.push cell) fun σ x hx => ?_).mono
      (fun _ _ h => h.1) fun _ _ h => h
    rcases List.mem_cons.mp hx with rfl | hx
    · exact Or.inr hb
    · exact Or.inl hx

/-! ## 3. Popping -/

/-- Taking cells off a stack needs no further look. -/
theorem shrink_keeps (σ : StackId) (f : CellStack → CellStack) (hf : ∀ s, (f s).cells ⊆ s.cells) :
    Keeps (Stays honest kept a₀) (modifyArena (·.modifyStack σ f)) fun _ => True :=
  fun _ hm => ⟨⟨hm.steady.modifyStack σ f fun _ hx => Or.inl (hf _ hx),
    hm.still.trans (.modifyStack _ _ _), hm.processes⟩, trivial⟩

theorem dropTop_keeps (σ : StackId) :
    Keeps (Stays honest kept a₀) (modifyArena (·.popCell σ)) fun _ => True :=
  shrink_keeps σ _ fun _ _ => List.mem_of_mem_tail

theorem topCell_keeps (c : Context) : Keeps (Stays honest kept a₀) c.topCell fun _ => True := by
  intro m hm
  unfold topCell
  rw [ends_bind, ends_inArena]
  exact ⟨fun r _ => ends_ofOption.mpr ⟨fun _ _ => ⟨hm, trivial⟩, fun _ => hm⟩, fun _ _ => hm⟩

theorem popCell_keeps (c : Context) : Keeps (Stays honest kept a₀) c.popCell fun _ => True :=
  (topCell_keeps c).bind fun top _ => (dropTop_keeps top.1).bind fun _ _ => .pure trivial

theorem pop_keeps (c : Context) : Keeps (Stays honest kept a₀) c.pop (Known a₀) :=
  (popCell_keeps c).bind fun cell _ => resolveCell_keeps cell

theorem peek_keeps (c : Context) : Keeps (Stays honest kept a₀) c.peek (Known a₀) :=
  (topCell_keeps c).bind fun top _ => resolveCell_keeps top.2

theorem popLocal_keeps (hc : Seated a₀ c) : Keeps (Stays honest kept a₀) c.popLocal (Known a₀) := by
  refine (ownStack_keeps hc).bind fun σ _ => Keeps.get_bind fun m hm => ?_
  split
  · exact .fail _
  · exact (dropTop_keeps σ).bind fun _ _ => resolveCell_keeps _

theorem stackSize_keeps (hc : Seated a₀ c) :
    Keeps (Stays honest kept a₀) c.stackSize fun _ => True :=
  (ownStack_keeps hc).bind fun _ _ => Keeps.get_bind fun _ _ => .pure trivial

theorem stackValues_keeps (hc : Seated a₀ c) :
    Keeps (Stays honest kept a₀) c.stackValues fun vs => ∀ v ∈ vs, Known a₀ v :=
  (ownStack_keeps hc).bind fun _ _ => Keeps.get_bind fun _ _ =>
    Keeps.mapM fun cell _ => resolveCell_keeps cell

theorem drainStack_keeps (hc : Seated a₀ c) :
    Keeps (Stays honest kept a₀) c.drainStack fun vs => ∀ v ∈ vs, Known a₀ v := by
  refine (ownStack_keeps hc).bind fun σ _ => Keeps.get_bind fun m hm => ?_
  exact (shrink_keeps σ _ fun s => List.nil_subset s.cells).bind fun _ _ =>
    Keeps.mapM fun cell _ => resolveCell_keeps cell

end Context

/-! ## 4. What words need -/

/-- The actions by which a word reaches values keep an invariant. What they take is good, and what
is good can be given back; values that are not blocks are good. -/
structure Handles (P : Machine → Prop) (good : Value → Prop) (c : Context) : Prop where
  pop : Keeps P c.pop good
  peek : Keeps P c.peek good
  push {v : Value} : good v → Keeps P (c.push v) fun _ => True
  size : Keeps P c.stackSize fun _ => True
  values : Keeps P c.stackValues fun vs => ∀ v ∈ vs, good v
  setValues {vs : List Value} : (∀ v ∈ vs, good v) → Keeps P (c.setStackValues vs) fun _ => True
  drain : Keeps P c.drainStack fun vs => ∀ v ∈ vs, good v
  write (text : String) : Keeps P (write text) fun _ => True
  plain {v : Value} : (∀ h, v ≠ .block h) → good v

/-- **Where code may run, the actions on values keep the machine as it has to be.** -/
theorem Seated.handles {honest kept : Prop} {a₀ : Arena} {c : Context} (hT : a₀.Tree)
    (hc : Seated a₀ c) : Handles (Stays honest kept a₀) (Known a₀) c where
  pop := Context.pop_keeps c
  peek := Context.peek_keeps c
  push hv := Context.push_keeps hT hc fun _ => hv
  size := Context.stackSize_keeps hc
  values := Context.stackValues_keeps hc
  setValues hv := Context.setStackValues_keeps hc hv
  drain := Context.drainStack_keeps hc
  write _ _ hm := ⟨⟨hm.steady, hm.still, hm.processes⟩, trivial⟩
  plain h := .of_ne h

end ScopeStack
