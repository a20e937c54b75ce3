import ScopeStack.Proofs.Bindings
import ScopeStack.Proofs.FallThrough
import ScopeStack.Proofs.Forgetting

/-!
# What a lookup finds after a definition

A lookup goes from a scope outwards and takes the first binding. A definition updates a binding around
its scope rather than one in it. So a scope reads back what it has defined, unless it has a binding of
its own in front of the one that the definition updates: that one is found before and after.

* `Arena.findVariable_eq`, `NearestOutside.findVariable`: the binding that a lookup finds.
* `Arena.Shadows`: a binding of the scope itself stands in front of one around it.
* `Acyclic.findVariable_defined`: lookups after a definition.
* `Context.internValue_stands`: the cell of a value stands for it. `popDefinition_run`: a definition
  that finds a name and a value succeeds.
* `Ensemble.Reachable.define_reads_back`: **a scope reads back what it has defined, unless it shadows
  it.** `Session.define_unread`: a block that does.
-/

namespace ScopeStack

open ScopeStack.Action

/-! ## 1. Lookups -/

namespace Arena

variable {a b : Arena} {id k : ScopeId} {name : String} {cell : Cell} {s : Scope}

/-- A lookup takes the first binding of the chain. -/
theorem findVariable_eq (a : Arena) (id : ScopeId) (name : String) :
    a.findVariable id name = (a.chain id).findSome? (a.bindingAt? · name) :=
  a.search_eq id _

theorem Acyclic.findVariable_own (hA : a.Acyclic) (hcell : a.bindingAt? id name = some cell) :
    a.findVariable id name = some cell := by
  obtain ⟨s, hs, -⟩ := Option.bind_eq_some_iff.mp hcell
  obtain ⟨rest, hrest⟩ := hA.chain_cons hs
  rw [findVariable_eq, hrest, List.findSome?_cons, hcell]

/-- Where the scope has no binding of its own, a lookup finds the nearest one around it. -/
theorem NearestOutside.findVariable (hnear : a.NearestOutside id name k)
    (hown : a.bindingAt? id name = none) : a.findVariable id name = a.bindingAt? k name := by
  obtain ⟨_, haround, near, far, rfl, hbound, hfree⟩ := hnear
  obtain ⟨cell, hcell⟩ := Option.isSome_iff_exists.mp hbound
  have hnone : near.findSome? (a.bindingAt? · name) = none :=
    List.findSome?_eq_none_iff.mpr fun j hj => (hfree j hj).1
  rw [findVariable_eq, haround, List.findSome?_cons, hown, List.findSome?_append, hnone,
    Option.none_or, List.findSome?_cons, hcell]

/-! ## 2. Lookups after a definition -/

/-- The scope has a binding of its own in front of one around it, which a definition would update
instead. -/
def Shadows (a : Arena) (id : ScopeId) (name : String) (old : Cell) : Prop :=
  a.bindingAt? id name = some old ∧ ¬ a.IsBody id ∧ ∃ k, a.NearestOutside id name k

theorem Still.isBody_iff (hS : a.Still b) (j : ScopeId) : b.IsBody j ↔ a.IsBody j := by
  have hbody (a : Arena) : a.IsBody j ↔ ((a.get? j).map Scope.core).any (·.spawned) = true := by
    cases hs : a.get? j <;> simp [IsBody, Scope.core, hs]
  rw [hbody, hbody, hS.core]

section Fills

variable (hF : a.Fills b) (hA : a.Acyclic)
include hF hA

theorem Fills.nearestOutside_iff :
    b.NearestOutside id name k ↔ a.NearestOutside id name k := by
  simp only [NearestOutside, FirstBound, hF.bindingAt?, hF.still.isBody_iff,
    hF.still.alike.chain_kept hA]

/-- Payloads that come and cells that move are no matter to bindings. -/
theorem Fills.shadows_iff : b.Shadows id name cell ↔ a.Shadows id name cell := by
  simp only [Shadows, hF.bindingAt?, hF.still.isBody_iff, hF.nearestOutside_iff hA]

end Fills

section Writes

variable (hW : a.Writes b k name cell)
include hW

theorem Writes.still : a.Still b where
  core j := by
    have hcore : Scope.core = Scope.core ∘ Scope.unbound := rfl
    rw [hcore, ← Option.map_map, ← Option.map_map, hW.unbound]
  known := hW.known
  lastScope := hW.lastScope
  lastStack := Nat.le_of_eq hW.lastStack.symm

/-- The binding that a definition has updated is still the nearest one around the scope. -/
theorem Writes.nearestOutside (hA : a.Acyclic) (hnear : a.NearestOutside id name k) :
    b.NearestOutside id name k := by
  obtain ⟨around, haround, near, far, hids, hbound, hfree⟩ := hnear
  refine ⟨around, (hW.still.alike.chain_kept hA id).trans haround, near, far, hids, ?_,
    fun j hj => ?_⟩
  · rw [hW.written]
    rfl
  · obtain ⟨hnone, hbody⟩ := hfree j hj
    have hne : j ≠ k := by
      rintro rfl
      rw [hnone] at hbound
      cases hbound
    exact ⟨(hW.others (Or.inl hne)).trans hnone, mt (hW.still.isBody_iff j).mp hbody⟩

end Writes

theorem NearestOutside.ne (hA : a.Acyclic) (hnear : a.NearestOutside id name k) : id ≠ k := by
  obtain ⟨_, haround, near, far, rfl, -⟩ := hnear
  have hnodup : (a.chain id).Nodup := hA.chainUpTo_nodup _ id
  rw [haround, List.nodup_cons] at hnodup
  rintro rfl
  exact hnodup.1 (by simp)

/-- **Lookups after a definition.** The scope finds the new cell, unless it shadows the binding that
has been updated. -/
theorem Acyclic.findVariable_defined (hA : a.Acyclic) (hs : a.get? id = some s)
    (hb : b = a.modify (a.definingScope id s name) (·.bind name cell)) :
    ((∀ old, ¬ a.Shadows id name old) → b.findVariable id name = some cell) ∧
    ∀ old, a.Shadows id name old → b.findVariable id name = some old ∧
      ∃ k, a.NearestOutside id name k ∧ b.bindingAt? k name = some cell := by
  obtain ⟨t, ht⟩ := hA.exists_definingScope hs name
  have hW := writes_bind ht name cell
  rw [← hb] at hW
  have hA' := hW.still.alike.acyclic hA
  by_cases hout : s.spawned = false ∧ ∃ k, a.NearestOutside id name k
  · obtain ⟨hbody, k, hnear⟩ := hout
    rw [hA.definingScope_of_nearest hs hbody hnear] at hW
    have hown : b.bindingAt? id name = a.bindingAt? id name := hW.others (Or.inl (hnear.ne hA))
    refine ⟨fun hfree => ?_, fun old hold => ?_⟩
    · have hnone : a.bindingAt? id name = none := by
        refine Option.eq_none_iff_forall_ne_some.mpr fun old hold => ?_
        exact hfree old ⟨hold, by simp [isBody_iff hs, hbody], k, hnear⟩
      rw [(hW.nearestOutside hA hnear).findVariable (hown.trans hnone), hW.written]
    · exact ⟨hA'.findVariable_own (hown.trans hold.1), k, hnear, hW.written⟩
  · have hself : s.spawned = true ∨ ∀ k, ¬ a.NearestOutside id name k := by
      rw [← Bool.not_eq_false, ← not_exists]
      exact Decidable.not_and_iff_not_or_not.mp hout
    rw [hA.definingScope_self hs hself] at hW
    refine ⟨fun _ => hA'.findVariable_own hW.written, fun old hold => ?_⟩
    obtain ⟨-, hbody, hnear⟩ := hold
    rw [isBody_iff hs, Bool.not_eq_true] at hbody
    exact absurd ⟨hbody, hnear⟩ hout

/-- The payload that a scope has itself is the one it resolves. -/
theorem Acyclic.resolve_own {α : Type} [BEq α] [Interned α] (hA : a.Acyclic) {h : Handle} {v : α}
    (hv : a.payloadAt α id h = some v) : a.resolve α id h = .ok v := by
  obtain ⟨s, hs, -⟩ := Option.bind_eq_some_iff.mp hv
  obtain ⟨rest, hrest⟩ := hA.chain_cons hs
  rw [resolve_eq_ok_iff, hrest, payloadOn_cons, hv, Option.some_or]

end Arena

/-! ## 3. Values that are popped, interned and bound -/

/-- The values are the same, or doubles that compare equal, as zero and negative zero do: they may
share a handle. -/
def Value.Same (u v : Value) : Prop :=
  u = v ∨ ∃ x y, u = .double x ∧ v = .double y ∧ (x == y) = true

theorem Value.same_ofNumber {n k : Number} (h : k = n ∨ (k == n) = true) :
    (Value.ofNumber k).Same (Value.ofNumber n) := by
  rcases h with rfl | h
  · exact Or.inl rfl
  · cases n with
    | big n =>
      cases sharp_big n k h
      exact Or.inl rfl
    | double y =>
      cases k with
      | big n => cases h
      | double x => exact Or.inr ⟨x, y, rfl, rfl, h⟩

namespace Context

variable {c : Context} {m : Machine} {v : Value}

/-- What a cell resolves to is what it stands for. -/
theorem resolveCell_stands (hT : m.arena.Tree) (c : Context) (cell : Cell) :
    (c.resolveCell cell).Ends m (fun v m' => m' = m ∧ m.arena.valueOf c.scope cell = .ok v)
      fun _ _ => True := by
  unfold Ends
  split
  · rename_i v m' hrun
    obtain ⟨rfl, -⟩ := (resolveCell_ends hT c cell).of_ok hrun
    rw [show c.resolveCell cell = (Context.ofProcess c.scope 0).resolveCell cell by
      cases cell <;> rfl] at hrun
    exact ⟨rfl, resolves_iff.mp hrun⟩
  · trivial

/-- A pop gives what some cell stood for, and takes a cell off a stack. -/
theorem pop_stands (hT : m.arena.Tree) (c : Context) :
    c.pop.Ends m (fun v m' => ∃ σ cell, m' = { m with arena := m.arena.popCell σ } ∧
      m.arena.valueOf c.scope cell = .ok v) fun _ _ => True := by
  unfold pop popCell topCell
  rw [ends_bind, ends_bind, ends_bind, ends_inArena]
  refine ⟨fun top _ => ?_, fun _ _ => trivial⟩
  rw [ends_ofOption]
  refine ⟨fun ⟨σ, cell⟩ _ => ?_, fun _ => trivial⟩
  dsimp only
  rw [ends_bind, ends_modifyArena, ends_pure]
  have hT' : (m.arena.popCell σ).Tree := (Arena.Still.modifyStack ..).tree hT
  refine (resolveCell_stands (m := { m with arena := m.arena.popCell σ }) hT' c cell).mono ?_
    fun _ _ _ => trivial
  rintro v m' ⟨rfl, hv⟩
  exact ⟨σ, cell, rfl, (Arena.valueOf_modifyStack ..).symm.trans hv⟩

theorem popText_stands (hT : m.arena.Tree) (c : Context) :
    c.popText.Ends m (fun name m' => ∃ σ cell, m' = { m with arena := m.arena.popCell σ } ∧
      (m.arena.valueOf c.scope cell = .ok (.str name) ∨
        m.arena.valueOf c.scope cell = .ok (.word name))) fun _ _ => True := by
  unfold popText
  refine ends_bind.mpr ((pop_stands hT c).mono ?_ fun _ _ _ => trivial)
  rintro v m' ⟨σ, cell, hm', hv⟩
  cases v with
  | str text => exact ⟨σ, cell, hm', Or.inl hv⟩
  | word name => exact ⟨σ, cell, hm', Or.inr hv⟩
  | bool | int | big | double | block => trivial

/-- **The cell of a value stands for it**, once the value has been interned. -/
theorem internValue_stands (hF : m.arena.Forest) (hlive : ∃ s, m.arena.get? c.scope = some s)
    {old : Cell} (hold : m.arena.valueOf c.scope old = .ok v) :
    (c.internValue v).Ends m
      (fun cell m' => m' = { m with arena := m'.arena } ∧ m.arena.Grows m'.arena ∧
        ∃ u, m'.arena.valueOf c.scope cell = .ok u ∧ u.Same v)
      fun _ _ => False := by
  obtain ⟨s, hs⟩ := hlive
  have hself := hF.acyclic.mem_chain_self hs
  have hpayload {α : Type} [BEq α] [Interned α] [HeldTable α] [Arena.GrowingTable α]
      (hash : ContentHash → α → Handle) (x : α) {f : Handle → Cell} {g : α → Value}
      (hf : ∀ (b : Arena) (h : Handle), b.valueOf c.scope (f h) = (b.resolve α c.scope h).map g)
      (hg : ∀ w, w = x ∨ (w == x) = true → (g w).Same v) :
      (internPayload hash c x >>= fun h => (pure (f h) : Action Cell)).Ends m
        (fun cell m' => m' = { m with arena := m'.arena } ∧ m.arena.Grows m'.arena ∧
          ∃ u, m'.arena.valueOf c.scope cell = .ok u ∧ u.Same v) fun _ _ => False := by
    refine (internPayload_stored hF ⟨s, hs⟩ hash x).bind ?_
    rintro h m' ⟨hrest, hS, -⟩
    obtain ⟨w, hw, hwx⟩ := hS.on hself
    have hA' := hS.grows.still.alike.acyclic hF.acyclic
    exact ⟨hrest, hS.grows, g w, by rw [hf, hA'.resolve_own hw]; rfl, hg w hwx⟩
  have htext {text : String} {g : String → Value} (hv : v = g text) (w : String)
      (hw : w = text ∨ (w == text) = true) : (g w).Same v := by
    obtain rfl : w = text := hw.elim id eq_of_beq
    exact Or.inl hv.symm
  cases v with
  | bool | int => exact ⟨rfl, .refl _, _, rfl, Or.inl rfl⟩
  | big n =>
    exact hpayload (·.number) (Number.big n) (f := .big) (g := .ofNumber) (fun _ _ => rfl)
      fun _ => Value.same_ofNumber
  | double x =>
    exact hpayload (·.number) (Number.double x) (f := .double) (g := .ofNumber) (fun _ _ => rfl)
      fun _ => Value.same_ofNumber
  | str text => exact hpayload (·.text) text (f := .str) (g := .str) (fun _ _ => rfl) (htext rfl)
  | word name => exact hpayload (·.text) name (f := .word) (g := .word) (fun _ _ => rfl) (htext rfl)
  | block h =>
    cases Arena.eq_block_of_valueOf hold
    exact ⟨rfl, .refl _, _, hold, Or.inl rfl⟩

/-- What the use of a name comes to that is bound to the cell: a block is called, and anything else
goes on the stack. -/
def useCell (c : Context) : Cell → Action (List Job)
  | .block h => c.callBlock h
  | cell => do
    c.pushCell cell
    return []

theorem runWord_of_found {name : String} {cell : Cell}
    (hfound : m.arena.findVariable c.scope name = some cell) :
    (c.runWord name).run m = (c.useCell cell).run m := by
  have hrun : (c.findVariable name).run m = .ok (some cell) m := by
    rw [← hfound]
    rfl
  unfold runWord
  rw [EStateM.run_bind, hrun]
  cases cell <;> rfl

end Context

/-- **A definition that finds a name and a value succeeds.** Payloads come and cells move until a cell
stands for the value; then the definition writes that cell. -/
theorem popDefinition_run {c : Context} {m m₁ m₂ : Machine} {name : String} {v : Value}
    (hT : m.arena.Tree) (hname : c.popText.run m = .ok name m₁) (hvalue : c.pop.run m₁ = .ok v m₂) :
    ∃ (m₃ : Machine) (s : Scope) (cell : Cell) (u : Value),
      m.arena.Fills m₃.arena ∧ m₃.arena.get? c.scope = some s ∧
      m₃.arena.valueOf c.scope cell = .ok u ∧ u.Same v ∧
      (popDefinition c false).run m = .ok () { m₃ with
        arena := m₃.arena.modify (m₃.arena.definingScope c.scope s name) (·.bind name cell) } := by
  obtain ⟨σ, text, rfl, htext⟩ := (Context.popText_stands hT c).of_ok hname
  have hT₁ : (m.arena.popCell σ).Tree := (Arena.Still.modifyStack ..).tree hT
  obtain ⟨τ, old, rfl, hold⟩ := (Context.pop_stands hT₁ c).of_ok hvalue
  have hF₂ : m.arena.Fills ((m.arena.popCell σ).popCell τ) :=
    ((Arena.Fills.refl _).modifyStack σ _).modifyStack τ _
  -- the text of the name resolves only from a scope that is there
  have hlive : ∃ s, m.arena.get? c.scope = some s := by
    have hA := hT.forest.acyclic
    rcases htext with htext | htext
    · exact Arena.get?_of_valueOf hA htext (fun _ h => by cases h) fun _ h => by cases h
    · exact Arena.get?_of_valueOf hA htext (fun _ h => by cases h) fun _ h => by cases h
  have hold₂ : ((m.arena.popCell σ).popCell τ).valueOf c.scope old = .ok v :=
    (Arena.valueOf_modifyStack ..).trans hold
  obtain ⟨cell, m₃, hintern, -, hG, u, hu, hsame⟩ := (Context.internValue_stands
    (m := { m with arena := (m.arena.popCell σ).popCell τ })
    (hF₂.still.tree hT).forest hlive hold₂).run_eq_ok
  have hF₃ : m.arena.Fills m₃.arena := hF₂.grows hG
  obtain ⟨s, hs⟩ := hlive
  obtain ⟨t, ht, -⟩ := hF₃.get? hs
  have hsoft : ¬ (false = true ∧ t.binds name = true) := fun h => Bool.false_ne_true h.1
  refine ⟨m₃, t, cell, u, hF₃, ht, hu, hsame, ?_⟩
  unfold popDefinition
  rw [EStateM.run_bind, hname]
  dsimp only
  rw [EStateM.run_bind, hvalue]
  dsimp only
  rw [EStateM.run_bind, hintern]
  exact c.define_run (Arena.define_eq_ok ht hsoft cell)

/-! ## 4. In a running environment -/

/-- A session without spawned processes is a running environment. -/
theorem Session.reachable {trace : List Event} {t : Thread} {m : Machine} (h : Session trace t m) :
    Ensemble.Reachable ⟨m, t, []⟩ := by
  induction h with
  | start config files hash => exact .start config files hash
  | request _ hdone hjob ih =>
    refine ih.request _ hdone fun job hj => ?_
    cases List.mem_singleton.mp hj
    cases hjob <;> exact fun d hd => (Option.some.inj hd).symm
  | step _ hstep ih => exact ih.step hstep
  | push v _ hdone ih => exact ih.command (.push v) hdone trivial
  | pass clock files output _ ih => exact ih.pass _ rfl rfl rfl

/-- **A scope reads back what it has defined, unless it shadows it.** In any state of a running
environment, let some code take a name and a value for the word that defines variables. The definition
succeeds, and the cell of the value stands for it. Looking the name up from the scope finds that cell,
so the next use of the name calls the block or pushes the cell, unless the scope has a binding of its
own in front of one around it. Then the latter has been updated, and the lookup finds the former, as
before. -/
theorem Ensemble.Reachable.define_reads_back {w : Ensemble} (hw : w.Reachable) {c : Context}
    {name : String} {v : Value} {m₁ m₂ : Machine}
    (hname : c.popText.run w.machine = .ok name m₁) (hvalue : c.pop.run m₁ = .ok v m₂) :
    ∃ m' cell u, (Effect.perform c (.scope .define)).run w.machine = .ok [] m' ∧
      Resolves m' c.scope cell u ∧ u.Same v ∧
      ((∀ old, ¬ w.machine.arena.Shadows c.scope name old) →
        m'.arena.findVariable c.scope name = some cell ∧
        (c.runWord name).run m' = (c.useCell cell).run m') ∧
      ∀ old, w.machine.arena.Shadows c.scope name old →
        m'.arena.findVariable c.scope name = some old ∧
        (c.runWord name).run m' = (c.useCell old).run m' ∧
        ∃ k, w.machine.arena.NearestOutside c.scope name k ∧
          m'.arena.bindingAt? k name = some cell := by
  have hT := hw.sound.regular.tree
  have hA := hT.forest.acyclic
  obtain ⟨m₃, s, cell, u, hF, hs, hu, hsame, hdefine⟩ := popDefinition_run hT hname hvalue
  have hF₃ := (hF.still.tree hT).forest
  obtain ⟨hfree, hshadowed⟩ := hF₃.acyclic.findVariable_defined hs rfl
  have hrun : (Effect.perform c (.scope .define)).run w.machine = .ok [] { m₃ with
      arena := m₃.arena.modify (m₃.arena.definingScope c.scope s name) (·.bind name cell) } := by
    show (popDefinition c false >>= fun _ => pure []).run w.machine = _
    rw [EStateM.run_bind, hdefine]
    rfl
  refine ⟨_, cell, u, hrun, resolves_iff.mpr ?_, hsame, fun hno => ?_, fun old hold => ?_⟩
  · exact (Arena.valueOf_modify (f := (·.bind name cell)) hF₃ (fun _ => rfl)
      (fun _ _ _ => rfl) fun _ _ _ => rfl).trans hu
  · have hfound := hfree fun old hold => hno old ((hF.shadows_iff hA).mp hold)
    exact ⟨hfound, Context.runWord_of_found hfound⟩
  · obtain ⟨hfound, k, hnear, hwritten⟩ := hshadowed old ((hF.shadows_iff hA).mpr hold)
    exact ⟨hfound, Context.runWord_of_found hfound, k, (hF.nearestOutside_iff hA).mp hnear, hwritten⟩

/-- Does the code find this name and this machine word on its stacks, the name on top? -/
def Context.isOffered (c : Context) (m : Machine) (name : String) (n : Int64) : Bool :=
  match c.popText.run m with
  | .ok text m₁ =>
    match c.pop.run m₁ with
    | .ok (.int k) _ => text == name && k == n
    | _ => false
  | _ => false

theorem Context.of_isOffered {c : Context} {m : Machine} {name : String} {n : Int64}
    (h : c.isOffered m name n = true) :
    ∃ m₁ m₂, c.popText.run m = .ok name m₁ ∧ c.pop.run m₁ = .ok (.int n) m₂ := by
  unfold isOffered at h
  split at h
  · rename_i text m₁ hname
    split at h
    · rename_i k m₂ hvalue
      rw [Bool.and_eq_true, beq_iff_eq, beq_iff_eq] at h
      obtain ⟨rfl, rfl⟩ := h
      exact ⟨m₁, m₂, hname, hvalue⟩
    · cases h
  · cases h

/-- `[ "x" ; x ] "b" ; 1 b`: nothing around the block binds `x`, so the block does, and reads it back. -/
theorem Ensemble.Reachable.define_reads_back_local : ∃ (w : Ensemble) (c : Context)
    (m₁ m₂ m' : Machine) (cell : Cell), w.Reachable ∧ c.scope = 2 ∧
    c.popText.run w.machine = .ok "x" m₁ ∧ c.pop.run m₁ = .ok (.int 1) m₂ ∧
    (Effect.perform c (.scope .define)).run w.machine = .ok [] m' ∧
    m'.arena.findVariable 2 "x" = some cell ∧ Resolves m' 2 cell (.int 1) := by
  let c : Context := { Context.top with scope := 2, callStacks := [1], base := none }
  obtain ⟨hsession, -⟩ := Environment.execution_session 20 "[ \"x\" ; x ] \"b\" ; 1 b"
  have hfacts : (fun m => c.isOffered m "x" 1 = true ∧ m.arena.bindingAt? 2 "x" = none)
      (Environment.execution 20 "[ \"x\" ; x ] \"b\" ; 1 b").2.2 := by decide +kernel
  generalize Environment.execution 20 "[ \"x\" ; x ] \"b\" ; 1 b" = run at hsession hfacts
  obtain ⟨hoffered, hfree⟩ := hfacts
  obtain ⟨m₁, m₂, hname, hvalue⟩ := Context.of_isOffered hoffered
  obtain ⟨m', cell, u, hrun, hu, hsame, hfound, -⟩ :=
    hsession.reachable.define_reads_back hname hvalue
  have hint : u = .int 1 := hsame.resolve_right fun ⟨_, _, _, hv, _⟩ => by cases hv
  refine ⟨_, c, m₁, m₂, m', cell, hsession.reachable, rfl, hname, hvalue, hrun,
    (hfound fun old hold => ?_).1, hint ▸ hu⟩
  have hown : run.2.2.arena.bindingAt? 2 "x" = some old := hold.1
  rw [hfree] at hown
  cases hown

/-- **A scope does not read back what it has defined.** `[ "x" ; x ] "b" ; 1 b 5 "x" ; 2 b`: the first
call binds `x` in the block, the top level then has an `x` too, and the second call sets that one to 2
and finds 1. -/
theorem Session.define_unread : ∃ trace t m c m₁ m₂ t' m', Session trace t m ∧ SourceOnly trace ∧
    SpawnFree (.step t m m' :: trace) ∧ t.agenda.head?.bind Job.context? = some c ∧
    t.effect? m = some (.scope .define) ∧
    c.popText.run m = .ok "x" m₁ ∧ c.pop.run m₁ = .ok (.int 2) m₂ ∧
    t.step m = some (t', m') ∧ t'.status.isOk = true ∧
    m'.arena.findVariable c.scope "x" = some (.int 1) ∧
    m'.arena.bindingAt? rootScope "x" = some (.int 2) := by
  let c : Context := { Context.top with scope := 2, callStacks := [1], base := none }
  obtain ⟨hsession, hsource⟩ :=
    Environment.execution_session 36 "[ \"x\" ; x ] \"b\" ; 1 b 5 \"x\" ; 2 b"
  have hfacts : (fun run : List Event × Thread × Machine =>
      run.2.1.agenda.head?.bind Job.context? = some c ∧
      run.2.1.effect? run.2.2 = some (.scope .define) ∧ c.isOffered run.2.2 "x" 2 = true ∧
      (run.2.1.step run.2.2).map (fun r => decide (
        SpawnFree (.step run.2.1 run.2.2 r.2 :: run.1) ∧ r.1.status.isOk = true ∧
        r.2.arena.findVariable c.scope "x" = some (.int 1) ∧
        r.2.arena.bindingAt? rootScope "x" = some (.int 2))) = some true)
      (Environment.execution 36 "[ \"x\" ; x ] \"b\" ; 1 b 5 \"x\" ; 2 b") := by decide +kernel
  generalize Environment.execution 36 "[ \"x\" ; x ] \"b\" ; 1 b 5 \"x\" ; 2 b" = run
    at hsession hsource hfacts
  obtain ⟨hctx, heffect, hoffered, hnext⟩ := hfacts
  obtain ⟨m₁, m₂, hname, hvalue⟩ := Context.of_isOffered hoffered
  obtain ⟨⟨t', m'⟩, hstep, hnext⟩ := Option.map_eq_some_iff.mp hnext
  obtain ⟨hspawn, hok, hfound, hroot⟩ := of_decide_eq_true hnext
  exact ⟨_, _, _, c, m₁, m₂, t', m', hsession, hsource, hspawn, hctx, heffect, hname, hvalue, hstep, hok,
    hfound, hroot⟩

end ScopeStack
