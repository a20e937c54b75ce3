import ScopeStack.Proofs.Definitions
import ScopeStack.Proofs.Reclaiming

/-!
# What a definition writes

A definition looks around its scope for a binding to update, and not past the first body of a process.
If it finds none, or its scope is such a body itself, the scope gets the binding. Either way the cell
goes into one binding, and all else is as it was.

* `Arena.FirstBound`, `Arena.NearestOutside`: the binding that the search finds.
* `Arena.boundWithinProcess_eq_some_iff`, `Acyclic.definingScope_of_nearest`,
  `Acyclic.definingScope_self`: where a definition writes.
* `Arena.Writes`: one binding is written, and nothing else. `WellFormed.define`: the arena stays well
  formed.
* `Context.define_exact`: **a definition writes exactly one binding, and never past a body of a
  process.**
-/

namespace ScopeStack

open ScopeStack.Action

/-- A scope without its variables. -/
def Scope.unbound (s : Scope) : Scope := { s with bindings := {} }

namespace Arena

/-! ## 1. The search for a binding -/

/-- The scope is the body of a process. -/
def IsBody (a : Arena) (k : ScopeId) : Prop := ∃ s, a.get? k = some s ∧ s.spawned = true

/-- The first of these scopes that binds the variable, with no body of a process before it. -/
def FirstBound (a : Arena) (name : String) (ids : List ScopeId) (k : ScopeId) : Prop :=
  ∃ near far, ids = near ++ k :: far ∧ (a.bindingAt? k name).isSome = true ∧
    ∀ j ∈ near, a.bindingAt? j name = none ∧ ¬ a.IsBody j

/-- The nearest scope around `id` that binds the variable, no farther out than the nearest body of a
process around it. -/
def NearestOutside (a : Arena) (id : ScopeId) (name : String) (k : ScopeId) : Prop :=
  ∃ around, a.chain id = id :: around ∧ a.FirstBound name around k

variable {a b : Arena} {id k : ScopeId} {name : String} {cell : Cell} {s : Scope}

theorem bindingAt?_of_get? (hs : a.get? id = some s) (name : String) :
    a.bindingAt? id name = s.binding? name := by
  rw [bindingAt?, hs, Option.bind_some]

theorem isBody_iff (hs : a.get? id = some s) : a.IsBody id ↔ s.spawned = true := by
  simp [IsBody, hs]

theorem not_firstBound_nil : ¬ a.FirstBound name [] k := fun ⟨_, _, hids, _⟩ =>
  (List.append_ne_nil_of_right_ne_nil _ (List.cons_ne_nil _ _)) hids.symm

theorem firstBound_cons {j : ScopeId} {ids : List ScopeId} :
    a.FirstBound name (j :: ids) k ↔
      (k = j ∧ (a.bindingAt? j name).isSome = true) ∨
      (a.bindingAt? j name = none ∧ ¬ a.IsBody j ∧ a.FirstBound name ids k) := by
  constructor
  · rintro ⟨near, far, hids, hbound, hnear⟩
    cases near with
    | nil =>
      obtain ⟨rfl, -⟩ := List.cons.inj hids
      exact Or.inl ⟨rfl, hbound⟩
    | cons i near =>
      obtain ⟨rfl, rfl⟩ := List.cons.inj hids
      obtain ⟨hfree, hbody⟩ := hnear j List.mem_cons_self
      exact Or.inr ⟨hfree, hbody, near, far, rfl, hbound,
        fun i hi => hnear i (List.mem_cons_of_mem _ hi)⟩
  · rintro (⟨rfl, hbound⟩ | ⟨hfree, hbody, near, far, rfl, hbound, hnear⟩)
    · exact ⟨[], ids, rfl, hbound, fun _ hi => by cases hi⟩
    · exact ⟨j :: near, far, rfl, hbound, List.forall_mem_cons.mpr ⟨⟨hfree, hbody⟩, hnear⟩⟩

theorem boundWithinProcess_eq_some_iff {ids : List ScopeId}
    (hids : ∀ j ∈ ids, ∃ s, a.get? j = some s) :
    a.boundWithinProcess name ids = some k ↔ a.FirstBound name ids k := by
  induction ids with
  | nil => simp [boundWithinProcess, not_firstBound_nil]
  | cons j ids ih =>
    obtain ⟨⟨s, hs⟩, hrest⟩ := List.forall_mem_cons.mp hids
    rw [firstBound_cons, ← ih hrest, bindingAt?_of_get? hs, isBody_iff hs, boundWithinProcess, hs]
    dsimp only
    rw [Scope.binds_eq]
    cases s.binding? name with
    | some cell => simp [@eq_comm _ j k]
    | none =>
      rw [Option.isSome_none, if_neg Bool.false_ne_true]
      cases s.spawned <;> simp

/-- The search of a definition starts at the parent. -/
theorem Acyclic.nearestOutside_iff (hA : a.Acyclic) (hs : a.get? id = some s) :
    a.NearestOutside id name k ↔
      ∃ parent, s.parent = some parent ∧ a.boundWithinProcess name (a.chain parent) = some k := by
  unfold NearestOutside
  cases hparent : s.parent with
  | none =>
    rw [hA.chain_of_noParent hs hparent]
    constructor
    · rintro ⟨around, haround, hfirst⟩
      cases haround
      exact (not_firstBound_nil hfirst).elim
    · rintro ⟨parent, hp, -⟩
      cases hp
  | some parent =>
    have hsearch : a.boundWithinProcess name (a.chain parent) = some k ↔
        a.FirstBound name (a.chain parent) k :=
      boundWithinProcess_eq_some_iff fun _ hj => get?_of_mem_chain hj
    rw [hA.chain_of_parent hs hparent]
    constructor
    · rintro ⟨around, haround, hfirst⟩
      cases haround
      exact ⟨parent, rfl, hsearch.mpr hfirst⟩
    · rintro ⟨p, hp, hfound⟩
      cases hp
      exact ⟨_, rfl, hsearch.mp hfound⟩

/-- A definition updates the nearest binding around its scope. -/
theorem Acyclic.definingScope_of_nearest (hA : a.Acyclic) (hs : a.get? id = some s)
    (hbody : s.spawned = false) (hnear : a.NearestOutside id name k) :
    a.definingScope id s name = k := by
  obtain ⟨parent, hparent, hfound⟩ := (hA.nearestOutside_iff hs).mp hnear
  unfold definingScope
  rw [hparent, hbody]
  dsimp only
  rw [hfound, Option.getD_some]

/-- Where there is none, or the scope is the body of a process, it writes in the scope itself. -/
theorem Acyclic.definingScope_self (hA : a.Acyclic) (hs : a.get? id = some s)
    (hnone : s.spawned = true ∨ ∀ k, ¬ a.NearestOutside id name k) :
    a.definingScope id s name = id := by
  unfold definingScope
  split
  · rename_i parent hparent hbody
    rw [hbody] at hnone
    have hnone := hnone.resolve_left Bool.false_ne_true
    cases hfound : a.boundWithinProcess name (a.chain parent) with
    | none => rfl
    | some k => exact (hnone k ((hA.nearestOutside_iff hs).mpr ⟨parent, hparent, hfound⟩)).elim
  · rfl

/-! ## 2. One binding is written -/

/-- The cell has gone into one binding. All other bindings, and all else, are as they were. -/
structure Writes (a b : Arena) (k : ScopeId) (name : String) (cell : Cell) : Prop where
  written : b.bindingAt? k name = some cell
  others {j : ScopeId} {other : String} : j ≠ k ∨ other ≠ name →
    b.bindingAt? j other = a.bindingAt? j other
  unbound (j : ScopeId) : (b.get? j).map Scope.unbound = (a.get? j).map Scope.unbound
  known : b.known = a.known
  stackHeap : b.stackHeap = a.stackHeap
  lastScope : b.lastScope = a.lastScope
  lastStack : b.lastStack = a.lastStack

theorem writes_bind (hs : a.get? k = some s) (name : String) (cell : Cell) :
    a.Writes (a.modify k (·.bind name cell)) k name cell where
  written := by
    rw [bindingAt?, get?_modify, if_pos rfl, hs, Option.map_some, Option.bind_some,
      Scope.binding?_bind, if_pos rfl]
  others := bindingAt?_bind a k _ name _ cell
  unbound j := by
    rw [get?_modify]
    split
    · rename_i hj
      rw [hj, Option.map_map]
      rfl
    · rfl
  known := rfl
  stackHeap := rfl
  lastScope := rfl
  lastStack := rfl

/-- A definition writes in a scope that is there. -/
theorem Acyclic.exists_definingScope (hA : a.Acyclic) (hs : a.get? id = some s) (name : String) :
    ∃ t, a.get? (a.definingScope id s name) = some t := by
  unfold definingScope
  split
  · rename_i parent hparent hbody
    cases hfound : a.boundWithinProcess name (a.chain parent) with
    | none => exact ⟨s, hs⟩
    | some k =>
      obtain ⟨around, haround, near, far, hids, -⟩ :=
        (hA.nearestOutside_iff hs).mpr ⟨parent, hparent, hfound⟩
      have hk : k ∈ a.chain id := by
        rw [haround, hids]
        simp
      exact get?_of_mem_chain hk
  · exact ⟨s, hs⟩

/-- A definition that is not held back by a binding of its scope. -/
theorem define_eq_ok (hs : a.get? id = some s) {strict : Bool}
    (hfree : ¬ (strict = true ∧ s.binds name = true)) (cell : Cell) :
    a.define id name cell strict =
      .ok (a.modify (a.definingScope id s name) (·.bind name cell)) := by
  rw [define, get_eq_ok.mpr hs]
  simp only [Bind.bind, Except.bind, Pure.pure, Except.pure]
  rw [if_neg (by rwa [Bool.and_eq_true])]

theorem define_held_back (hs : a.get? id = some s) (hbound : s.binds name = true) (cell : Cell) :
    a.define id name cell true = .ok a := by
  rw [define, get_eq_ok.mpr hs]
  simp only [Bind.bind, Except.bind, Pure.pure, Except.pure]
  rw [if_pos (by rw [hbound]; rfl)]

/-! ## 3. Well-formed arenas -/

/-- Where the same scopes hang together in the same way, nothing is lost. -/
theorem Alike.wellFormed (hA : a.Alike b) (hW : a.WellFormed) : b.WellFormed := by
  have hacyclic := hA.acyclic hW.branching.acyclic
  have hchain := hA.chain_kept hW.branching.acyclic
  refine ⟨⟨hacyclic, fun {p k t} ht hk => ?_, fun {p k t u} hu hp ht => ?_⟩,
    fun {k p t} ht hp => ?_, fun {h k} hk => ?_, fun {h j k} hj hk hne => ?_⟩
  · obtain ⟨s, hs, -, hchildren, -⟩ := hA.get? ht
    obtain ⟨u, hu, hp⟩ := hW.branching.of_child hs (hchildren ▸ hk)
    obtain ⟨v, hv, hparent, -⟩ := hA.get?_of hu
    exact ⟨v, hv, hparent.trans hp⟩
  · obtain ⟨s, hs, hparent, -⟩ := hA.get? hu
    obtain ⟨r, hr, -, hchildren, -⟩ := hA.get? ht
    rw [hchildren]
    exact hW.branching.to_child hs (hparent ▸ hp) hr
  · obtain ⟨s, hs, hparent, -⟩ := hA.get? ht
    obtain ⟨u, hu⟩ := hW.parent hs (hparent ▸ hp)
    obtain ⟨v, hv, -⟩ := hA.get?_of hu
    exact ⟨v, hv⟩
  · rw [hA.known] at hk
    rw [hchain]
    exact hW.known_around hk
  · rw [hA.known] at hj ⊢
    rw [hchain] at hk
    exact hW.known_to_all hj hk hne

theorem WellFormed.define {strict : Bool} (hW : a.WellFormed)
    (hd : a.define id name cell strict = .ok b) : b.WellFormed := by
  rcases define_cases hd with rfl | ⟨s, -, rfl⟩
  · exact hW
  · exact (Still.modify a _ (·.bind name cell) fun _ => rfl).alike.wellFormed hW

end Arena

/-! ## 4. The theorem -/

theorem Context.define_run {c : Context} {m : Machine} {b : Arena} {name : String} {cell : Cell}
    {strict : Bool} (hd : m.arena.define c.scope name cell strict = .ok b) :
    (c.define name cell strict).run m = .ok () { m with arena := b } := by
  have hin : (inArena (·.define c.scope name cell strict)).run m = .ok b m := by
    show (ofExcept (m.arena.define c.scope name cell strict)).run m = _
    rw [hd]
    rfl
  unfold define
  rw [EStateM.run_bind, hin]
  rfl

/-- **A definition writes exactly one binding, and never past a body of a process.** In a well-formed
arena, let a scope define a variable. A strict definition changes nothing if the scope binds the
variable itself. Any other succeeds as well and writes the cell into one binding: into the nearest
binding around the scope that is no farther out than the nearest body of a process, if there is one and
the scope is no such body itself, and else into the scope's own. -/
theorem Context.define_exact (c : Context) {m : Machine} (hW : m.arena.WellFormed) {s : Scope}
    (hs : m.arena.get? c.scope = some s) (name : String) (cell : Cell) (strict : Bool) :
    (strict = true ∧ s.binds name = true →
      (c.define name cell strict).run m = .ok () m) ∧
    (¬ (strict = true ∧ s.binds name = true) →
      ∃ b, (c.define name cell strict).run m = .ok () { m with arena := b } ∧
        (∀ k, s.spawned = false → m.arena.NearestOutside c.scope name k →
          m.arena.Writes b k name cell) ∧
        (s.spawned = true ∨ (∀ k, ¬ m.arena.NearestOutside c.scope name k) →
          m.arena.Writes b c.scope name cell)) := by
  have hA := hW.branching.acyclic
  refine ⟨fun ⟨hstrict, hbound⟩ => ?_, fun hfree => ?_⟩
  · rw [hstrict]
    exact c.define_run (Arena.define_held_back hs hbound cell)
  · obtain ⟨t, ht⟩ := hA.exists_definingScope hs name
    have hwrites := Arena.writes_bind ht name cell
    refine ⟨_, c.define_run (Arena.define_eq_ok hs hfree cell), fun k hbody hnear => ?_,
      fun hnone => ?_⟩
    · rwa [hA.definingScope_of_nearest hs hbody hnear] at hwrites ⊢
    · rwa [hA.definingScope_self hs hnone] at hwrites ⊢

namespace Arena

/-- The top level, the body of a process in it, and a block in that. The top level binds `x`, the body
of the process `y`. -/
def bodyBetween : Arena :=
  let a := threeDeep.modify 1 (·.bind "x" (.int 1))
  a.modify 2 fun s => { s with spawned := true }.bind "y" (.int 2)

theorem bodyBetween_wellFormed : bodyBetween.WellFormed := by
  have hL : Lives ⟨fun _ => 5, fun _ => 7⟩ {} threeDeep :=
    (((Relation.ReflTransGen.refl.tail (.createRoot _ {})).tail
      (.createChild (by decide +kernel) true)).tail (.createChild (by decide +kernel) false))
  have hbound := (Alike.modify threeDeep 1 (·.bind "x" (.int 1)) fun s _ =>
    ⟨rfl, rfl, id, fun _ hk => Or.inl hk⟩).wellFormed hL.wellFormed
  exact (Alike.modify _ 2 (fun s => { s with spawned := true }.bind "y" (.int 2)) fun s _ =>
    ⟨rfl, rfl, id, fun _ hk => Or.inl hk⟩).wellFormed hbound

end Arena

/-- Inside the process a definition updates `y`, which its body binds, but not the `x` of the top
level. -/
theorem Context.define_exact_body : ∃ (c : Context) (b₁ b₂ : Arena), c.scope = 3 ∧
    (c.define "y" (.int 5) false).run { arena := Arena.bodyBetween } = .ok () { arena := b₁ } ∧
    Arena.bodyBetween.Writes b₁ 2 "y" (.int 5) ∧
    (c.define "x" (.int 5) false).run { arena := Arena.bodyBetween } = .ok () { arena := b₂ } ∧
    Arena.bodyBetween.Writes b₂ 3 "x" (.int 5) := by
  let c : Context := (Context.ofProcess 2 0).onScope 3
  have hW := Arena.bodyBetween_wellFormed
  have hs : ∃ s, Arena.bodyBetween.get? 3 = some s ∧ s.spawned = false := ⟨_, rfl, rfl⟩
  obtain ⟨s, hs, hbody⟩ := hs
  have hchain : Arena.bodyBetween.chain 3 = [3, 2, 1] := by decide +kernel
  have hy : Arena.bodyBetween.NearestOutside 3 "y" 2 :=
    ⟨[2, 1], hchain, [], [1], rfl, by decide +kernel, fun _ hj => by cases hj⟩
  have hx (k : ScopeId) : ¬ Arena.bodyBetween.NearestOutside 3 "x" k := by
    rintro ⟨around, haround, hfirst⟩
    cases hchain.symm.trans haround
    rcases Arena.firstBound_cons.mp hfirst with ⟨-, hbound⟩ | ⟨-, hno, -⟩
    · exact absurd hbound (by decide +kernel)
    · exact hno ⟨_, rfl, rfl⟩
  obtain ⟨b₁, hrun₁, hwrites₁, -⟩ :=
    (c.define_exact (m := { arena := Arena.bodyBetween }) hW hs "y" (.int 5) false).2 (by simp)
  obtain ⟨b₂, hrun₂, -, hwrites₂⟩ :=
    (c.define_exact (m := { arena := Arena.bodyBetween }) hW hs "x" (.int 5) false).2 (by simp)
  exact ⟨c, b₁, b₂, rfl, hrun₁, hwrites₁ 2 hbody hy, hrun₂, hwrites₂ (Or.inr hx)⟩

end ScopeStack
