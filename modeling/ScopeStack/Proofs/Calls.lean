import ScopeStack.Machine.Call
import ScopeStack.Proofs.Blocks

/-!
# Calls in progress

While a block is called its stack is listed with it, once for each call. So the blocks of the calls
in progress are never taken out.

* `Arena.InProgress`: **the lists of the scopes are the calls in progress, no more and no less**
  (`inProgress_iff`).
* `InProgress.enter`, `InProgress.leave`: a call begins and ends; `InProgress.of_calls`: everything
  else leaves the calls alone.
* `Arena.Follows`: what else a step does to the scopes: those that are called stay, with their code,
  a scope that has gone does not come back, and at most one block is opened or closed.
-/

namespace ScopeStack.Arena

/-! ## 1. Lists of calls -/

/-- The stacks on which a block is called. -/
def callsOn (cs : List Call) (id : ScopeId) : List StackId :=
  (cs.filter (·.block = id)).map (·.stack)

theorem callsOn_cons (call : Call) (cs : List Call) (id : ScopeId) :
    callsOn (call :: cs) id =
      if call.block = id then call.stack :: callsOn cs id else callsOn cs id := by
  rw [callsOn, List.filter_cons]
  by_cases h : call.block = id <;> simp [h, callsOn]

theorem mem_callsOn {cs : List Call} {call : Call} (h : call ∈ cs) :
    call.stack ∈ callsOn cs call.block :=
  List.mem_map.mpr ⟨call, List.mem_filter.mpr ⟨h, by simp⟩, rfl⟩

theorem callsOn_append (cs ds : List Call) (id : ScopeId) :
    callsOn (cs ++ ds) id = callsOn cs id ++ callsOn ds id := by
  rw [callsOn, List.filter_append, List.map_append]
  rfl

/-- The calls that are listed with a scope, if it is there. -/
def callsOf (a : Arena) (id : ScopeId) : List StackId := ((a.get? id).map (·.calls)).getD []

section Listed

variable {a b : Arena} {id : ScopeId} {s : Scope}

theorem callsOf_of_get? (h : a.get? id = some s) : a.callsOf id = s.calls := by
  rw [callsOf, h]
  rfl

theorem callsOf_of_none (h : a.get? id = none) : a.callsOf id = [] := by
  rw [callsOf, h]
  rfl

/-- A scope with calls is there. -/
theorem get?_of_callsOf (h : a.callsOf id ≠ []) : ∃ s, a.get? id = some s :=
  Option.ne_none_iff_exists'.mp fun hnone => h (callsOf_of_none hnone)

theorem callsOf_map {f : Scope → Scope} (h : b.get? id = (a.get? id).map f)
    (hf : ∀ s, (f s).calls = s.calls) : b.callsOf id = a.callsOf id := by
  rw [callsOf, callsOf, h, Option.map_map]
  exact congrArg (fun g => (Option.map g (a.get? id)).getD []) (funext hf)

theorem callsOf_modify (a : Arena) (k : ScopeId) {f : Scope → Scope}
    (hf : ∀ s, (f s).calls = s.calls) (id : ScopeId) : (a.modify k f).callsOf id = a.callsOf id := by
  by_cases hk : id = k
  · exact callsOf_map (by rw [get?_modify, if_pos hk, hk]) hf
  · rw [callsOf, callsOf, get?_modify, if_neg hk]

/-- The list of one scope changes. -/
theorem callsOf_setCalls (hs : a.get? id = some s) (g : List StackId → List StackId) (k : ScopeId) :
    (a.modify id fun s => { s with calls := g s.calls }).callsOf k =
      if k = id then g (a.callsOf k) else a.callsOf k := by
  by_cases hk : k = id
  · rw [if_pos hk, hk, callsOf_of_get? hs, callsOf, get?_modify, if_pos rfl, hs]
    rfl
  · rw [if_neg hk, callsOf, callsOf, get?_modify, if_neg hk]

theorem Grows.callsOf (hG : a.Grows b) (id : ScopeId) : b.callsOf id = a.callsOf id := by
  cases hs : a.get? id with
  | none => rw [callsOf_of_none hs, callsOf_of_none (hG.none hs)]
  | some s =>
    obtain ⟨t, ht, hts, -⟩ := hG.get? hs
    rw [callsOf_of_get? hs, callsOf_of_get? ht, hts]

/-- What is not called goes. -/
theorem Pruned.callsOf {top : ScopeId} (hP : a.Pruned top b) (hU : a.Unreferenced top)
    (id : ScopeId) : b.callsOf id = a.callsOf id := by
  cases hs : a.get? id with
  | none => rw [callsOf_of_none hs, callsOf_of_none (hP.absent hs)]
  | some s =>
    by_cases htop : top ∈ a.chain id
    · rw [callsOf_of_get? hs, (hU.idle hs htop).2, callsOf_of_none (hP.gone htop)]
    · obtain ⟨cs, hcs, -⟩ := hP.kept hs htop
      rw [callsOf_of_get? hs, callsOf_of_get? hcs]

/-- A block that comes is not called. -/
theorem Added.callsOf {parent : ScopeId} {shares : Bool} (hA : a.Added parent shares b)
    (hF : a.Forest) (id : ScopeId) : b.callsOf id = a.callsOf id := by
  have hget := hA.get? id
  by_cases hid : id = a.lastScope + 1
  · rw [if_pos hid] at hget
    rw [callsOf_of_get? hget, callsOf_of_none (hF.get?_of_last_lt (hid ▸ Nat.lt_succ_self _))]
    rfl
  · rw [if_neg hid] at hget
    exact callsOf_map hget fun _ => rfl

end Listed

/-- The calls that the scopes list are these. -/
structure InProgress (a : Arena) (cs : List Call) : Prop where
  live {call : Call} : call ∈ cs → ∃ s, a.get? call.block = some s
  calls {id : ScopeId} {s : Scope} : a.get? id = some s → s.calls.Perm (callsOn cs id)

namespace InProgress

variable {a b : Arena} {cs : List Call} (hC : a.InProgress cs)
include hC

theorem mem_calls {call : Call} (h : call ∈ cs) {s : Scope} (hs : a.get? call.block = some s) :
    call.stack ∈ s.calls :=
  (hC.calls hs).mem_iff.mpr (mem_callsOn h)

theorem callsOn_of_none {id : ScopeId} (h : a.get? id = none) : callsOn cs id = [] := by
  refine List.eq_nil_iff_forall_not_mem.mpr fun σ hσ => ?_
  obtain ⟨call, hm, -⟩ := List.mem_map.mp hσ
  obtain ⟨hm, he⟩ := List.mem_filter.mp hm
  obtain ⟨s, hs⟩ := hC.live hm
  rw [of_decide_eq_true he, h] at hs
  cases hs

/-- Whoever is called stays, whoever stays is called as before, and whoever comes is not called. -/
theorem of_calls
    (hof : ∀ k t, b.get? k = some t → (∃ s, a.get? k = some s ∧ t.calls = s.calls) ∨
      (a.get? k = none ∧ t.calls = []))
    (hkeep : ∀ k s, a.get? k = some s → s.calls ≠ [] → ∃ t, b.get? k = some t) :
    b.InProgress cs where
  live {call} h := by
    obtain ⟨s, hs⟩ := hC.live h
    exact hkeep _ s hs (List.ne_nil_of_mem (hC.mem_calls h hs))
  calls {k t} ht := by
    rcases hof k t ht with ⟨s, hs, hcalls⟩ | ⟨hnone, hcalls⟩
    · rw [hcalls]
      exact hC.calls hs
    · rw [hcalls, hC.callsOn_of_none hnone]

theorem still (hS : a.Still b) : b.InProgress cs := by
  refine hC.of_calls (fun k t ht => ?_) fun k s hs _ => ?_
  · obtain ⟨s, hs, he⟩ := hS.get? ht
    exact Or.inl ⟨s, hs, Scope.eq_of_core (·.calls) (fun _ => rfl) he⟩
  · obtain ⟨t, ht, -⟩ := hS.get?_of hs
    exact ⟨t, ht⟩

theorem modify (id : ScopeId) (f : Scope → Scope) (hf : ∀ s, (f s).calls = s.calls) :
    (a.modify id f).InProgress cs := by
  refine hC.of_calls (fun k t ht => Or.inl ?_) fun k s hs _ => ?_
  · obtain ⟨s, hs, ⟨-, rfl⟩ | ⟨-, rfl⟩⟩ := get?_modify_cases ht
    · exact ⟨t, hs, rfl⟩
    · exact ⟨s, hs, hf s⟩
  · rw [get?_modify]
    by_cases hk : k = id
    · rw [if_pos hk, ← hk, hs]
      exact ⟨_, rfl⟩
    · rw [if_neg hk]
      exact ⟨s, hs⟩

theorem makeKnown (block : ScopeId) (ids : List ScopeId) : (a.makeKnown block ids).InProgress cs :=
  ⟨hC.live, hC.calls⟩

theorem added {parent : ScopeId} {shares : Bool} (hA : a.Added parent shares b) (hF : a.Forest) :
    b.InProgress cs := by
  refine hC.of_calls (fun k t ht => ?_) fun k s hs _ => ⟨_, hA.get?_of hF hs⟩
  rcases hA.of_get? ht with ⟨rfl, rfl⟩ | ⟨s, hs, rfl⟩
  · exact Or.inr ⟨hF.get?_of_last_lt (Nat.lt_succ_self _), rfl⟩
  · exact Or.inl ⟨s, hs, rfl⟩

theorem pruned {top : ScopeId} (hP : a.Pruned top b) (hU : a.Unreferenced top) :
    b.InProgress cs := by
  refine hC.of_calls (fun k t ht => ?_) fun k s hs hcalls => ?_
  · obtain ⟨-, s, hs, hts, -⟩ := hP.of_get? ht
    rw [hts]
    exact Or.inl ⟨s, hs, rfl⟩
  · obtain ⟨cs, hcs, -⟩ := hP.kept hs fun h => hcalls (hU.idle hs h).2
    exact ⟨_, hcs⟩

/-- A call begins. -/
theorem enter (call : Call) {s : Scope} (hs : a.get? call.block = some s) :
    (a.modify call.block fun s => { s with calls := call.stack :: s.calls }).InProgress
      (call :: cs) where
  live {x} hx := by
    have hlive : ∃ t, a.get? x.block = some t := by
      rcases List.mem_cons.mp hx with rfl | hx
      · exact ⟨s, hs⟩
      · exact hC.live hx
    obtain ⟨t, ht⟩ := hlive
    rw [get?_modify]
    by_cases hk : x.block = call.block
    · rw [if_pos hk, hs]
      exact ⟨_, rfl⟩
    · rw [if_neg hk]
      exact ⟨t, ht⟩
  calls {k t} ht := by
    rw [callsOn_cons]
    obtain ⟨u, hu, ⟨hk, rfl⟩ | ⟨rfl, rfl⟩⟩ := get?_modify_cases ht
    · rw [if_neg (Ne.symm hk)]
      exact hC.calls hu
    · rw [if_pos rfl]
      exact (hC.calls hu).cons _

omit hC in
/-- A call ends. -/
theorem leave (call : Call) (hC : a.InProgress (call :: cs)) :
    (a.modify call.block fun s => { s with calls := s.calls.erase call.stack }).InProgress cs where
  live {x} hx := by
    obtain ⟨t, ht⟩ := hC.live (List.mem_cons_of_mem _ hx)
    rw [get?_modify]
    by_cases hk : x.block = call.block
    · rw [if_pos hk, ← hk, ht]
      exact ⟨_, rfl⟩
    · rw [if_neg hk]
      exact ⟨t, ht⟩
  calls {k t} ht := by
    obtain ⟨u, hu, ⟨hk, rfl⟩ | ⟨rfl, rfl⟩⟩ := get?_modify_cases ht
    · have h := hC.calls hu
      rwa [callsOn_cons, if_neg (Ne.symm hk)] at h
    · have h := hC.calls hu
      rw [callsOn_cons, if_pos rfl] at h
      have h' := h.erase call.stack
      rwa [List.erase_cons_head] at h'

theorem perm {cs' : List Call} (h : cs.Perm cs') : a.InProgress cs' where
  live hm := hC.live (h.mem_iff.mpr hm)
  calls hs := (hC.calls hs).trans ((h.filter _).map _)

theorem callsOf (id : ScopeId) : (a.callsOf id).Perm (callsOn cs id) := by
  cases hs : a.get? id with
  | none => rw [callsOf_of_none hs, hC.callsOn_of_none hs]
  | some s =>
    rw [callsOf_of_get? hs]
    exact hC.calls hs

end InProgress

/-- What is listed with a scope that is not there is nothing, so the block of a call is there. -/
theorem inProgress_iff {a : Arena} {cs : List Call} :
    a.InProgress cs ↔ ∀ id, (a.callsOf id).Perm (callsOn cs id) := by
  refine ⟨InProgress.callsOf, fun h => ⟨fun {call} hm => ?_, fun {id s} hs => ?_⟩⟩
  · exact get?_of_callsOf (List.ne_nil_of_mem ((h call.block).mem_iff.mpr (mem_callsOn hm)))
  · rw [← callsOf_of_get? hs]
    exact h id

/-! ## 2. One step -/

/-- A scope whose code is being run: the top level, or the block of a call. -/
def Runs (cs : List Call) (id : ScopeId) : Prop := id = rootScope ∨ ∃ call ∈ cs, call.block = id

/-- What a step does to scopes and open blocks. -/
structure Follows (cs : List Call) (a b : Arena) : Prop where
  carries {id : ScopeId} {s : Scope} : a.get? id = some s → Runs cs id →
    ∃ t, b.get? id = some t ∧ s.code.cells ⊆ t.code.cells
  lastScope : a.lastScope ≤ b.lastScope
  back {id : ScopeId} {t : Scope} : id ≤ a.lastScope → b.get? id = some t →
    ∃ s, a.get? id = some s
  opens : b.openBlocks = a.openBlocks ∨
    (∃ k t, b.openBlocks = k :: a.openBlocks ∧ b.get? k = some t) ∨
    ∃ k s t, a.openBlocks = k :: b.openBlocks ∧ a.get? k = some s ∧ b.get? k = some t

namespace Follows

variable {cs : List Call} {a b c : Arena}

theorem refl (cs : List Call) (a : Arena) : Follows cs a a :=
  ⟨fun {_ s} hs _ => ⟨s, hs, fun _ h => h⟩, Nat.le_refl _, fun {_ t} _ ht => ⟨t, ht⟩, Or.inl rfl⟩

/-- Steps in a row, of which only one opens or closes a block. -/
theorem trans (hT : a.Tree) (hab : Follows cs a b) (hbc : Follows cs b c)
    (h : b.openBlocks = a.openBlocks ∨ (c.openBlocks = b.openBlocks ∧
      ∀ k t, b.get? k = some t → ∃ u, c.get? k = some u)) : Follows cs a c where
  carries {id s} hs hr := by
    obtain ⟨t, ht, hst⟩ := hab.carries hs hr
    obtain ⟨u, hu, htu⟩ := hbc.carries ht hr
    exact ⟨u, hu, fun x hx => htu (hst hx)⟩
  lastScope := Nat.le_trans hab.lastScope hbc.lastScope
  back {id u} hle hu := by
    obtain ⟨t, ht⟩ := hbc.back (Nat.le_trans hle hab.lastScope) hu
    exact hab.back hle ht
  opens := by
    rcases h with h | ⟨h, hlive⟩
    · rcases hbc.opens with ho | ⟨k, t, ho, ht⟩ | ⟨k, s, t, ho, hs, ht⟩
      · exact Or.inl (ho.trans h)
      · exact Or.inr (Or.inl ⟨k, t, h ▸ ho, ht⟩)
      · rw [h] at ho
        obtain ⟨s', hs'⟩ := hab.back (hT.openBlock_le (ho ▸ List.mem_cons_self)).1 hs
        exact Or.inr (Or.inr ⟨k, s', t, ho, hs', ht⟩)
    · rcases hab.opens with ho | ⟨k, t, ho, ht⟩ | ⟨k, s, t, ho, hs, ht⟩
      · exact Or.inl (h.trans ho)
      · obtain ⟨u, hu⟩ := hlive k t ht
        exact Or.inr (Or.inl ⟨k, u, h.trans ho, hu⟩)
      · obtain ⟨u, hu⟩ := hlive k t ht
        exact Or.inr (Or.inr ⟨k, s, u, h.symm ▸ ho, hs, hu⟩)

/-- Nothing comes or goes. -/
theorem of_alike (hA : a.Alike b) (hopen : b.openBlocks = a.openBlocks)
    (hcode : ∀ k t s, b.get? k = some t → a.get? k = some s → s.code.cells ⊆ t.code.cells) :
    Follows cs a b where
  carries {id s} hs _ := by
    obtain ⟨t, ht, -⟩ := hA.get?_of hs
    exact ⟨t, ht, hcode id t s ht hs⟩
  lastScope := Nat.le_of_eq hA.lastScope.symm
  back _ ht := by
    obtain ⟨s, hs, -⟩ := hA.get? ht
    exact ⟨s, hs⟩
  opens := Or.inl hopen

theorem still (hS : a.Still b) : Follows cs a b := by
  refine of_alike hS.alike hS.openBlocks fun k t s ht hs => ?_
  obtain ⟨s', hs', he⟩ := hS.get? ht
  cases hs.symm.trans hs'
  rw [Scope.eq_of_core (·.code) (fun _ => rfl) he]
  exact fun _ h => h

/-- One scope changes, but not where it hangs nor what is open. -/
theorem modify (id : ScopeId) (f : Scope → Scope)
    (hlinks : ∀ s, (f s).parent = s.parent ∧ (f s).children = s.children ∧
      ((f s).compiling = true → s.compiling = true) ∧ (f s).compileStack = s.compileStack)
    (hcode : ∀ s, s.code.cells ⊆ (f s).code.cells) : Follows cs a (a.modify id f) := by
  refine of_alike (.modify a id f fun s _ => ?_) (openBlocks_modify id f fun s => (hlinks s).2.2.2)
    fun k t s ht hs => ?_
  · obtain ⟨hp, hc, hcomp, ho⟩ := hlinks s
    exact ⟨hp, hc, hcomp, fun k hk => Or.inl (ho ▸ hk)⟩
  · obtain ⟨u, hu, ⟨-, rfl⟩ | ⟨-, rfl⟩⟩ := get?_modify_cases ht
    · cases hs.symm.trans hu
      exact fun _ h => h
    · cases hs.symm.trans hu
      exact hcode s

/-- A block becomes known. -/
theorem makeKnown (block : ScopeId) (ids : List ScopeId) : Follows cs a (a.makeKnown block ids) :=
  ⟨fun {_ s} hs _ => ⟨s, hs, fun _ h => h⟩, Nat.le_refl _, fun {_ t} _ ht => ⟨t, ht⟩, Or.inl rfl⟩

/-- A block is opened or closed for the top level. -/
theorem modifyRoot (f : Scope → Scope) (hcode : ∀ s, (f s).code = s.code)
    (hopens : (∃ k t, (a.modify rootScope f).openBlocks = k :: a.openBlocks ∧
        (a.modify rootScope f).get? k = some t) ∨
      ∃ k s t, a.openBlocks = k :: (a.modify rootScope f).openBlocks ∧ a.get? k = some s ∧
        (a.modify rootScope f).get? k = some t) :
    Follows cs a (a.modify rootScope f) where
  carries {id s} hs _ := by
    rw [get?_modify]
    by_cases hid : id = rootScope
    · rw [if_pos hid, ← hid, hs]
      refine ⟨f s, rfl, ?_⟩
      rw [hcode]
      exact fun _ h => h
    · rw [if_neg hid]
      exact ⟨s, hs, fun _ h => h⟩
  lastScope := Nat.le_refl _
  back _ ht := by
    obtain ⟨s, hs, -⟩ := get?_modify_cases ht
    exact ⟨s, hs⟩
  opens := Or.inr hopens

/-- Something that nothing refers to is taken out. -/
theorem pruned {top : ScopeId} (hT : a.Tree) (hC : a.InProgress cs) (hP : a.Pruned top b)
    (hU : a.Unreferenced top) (hne : top ≠ rootScope) : Follows cs a b where
  carries {id s} hs hr := by
    have hid : top ∉ a.chain id := fun h => by
      rcases hr with rfl | ⟨call, hm, rfl⟩
      · rw [hT.chain_root] at h
        exact hne (List.mem_singleton.mp h)
      · have hcalls := hC.mem_calls hm hs
        rw [(hU.idle hs h).2] at hcalls
        cases hcalls
    obtain ⟨ks, hks, -⟩ := hP.kept hs hid
    exact ⟨_, hks, fun _ h => h⟩
  lastScope := Nat.le_of_eq hP.lastScope.symm
  back _ ht := by
    obtain ⟨-, s, hs, -⟩ := hP.of_get? ht
    exact ⟨s, hs⟩
  opens := Or.inl (hP.openBlocks hT hne)

/-- A block comes. -/
theorem added {parent : ScopeId} {shares : Bool} (hT : a.Tree) (hA : a.Added parent shares b) :
    Follows cs a b where
  carries hs _ := ⟨_, hA.get?_of hT.forest hs, fun _ h => h⟩
  lastScope := by
    rw [hA.lastScope]
    exact Nat.le_succ _
  back {id t} hle ht := by
    rcases hA.of_get? ht with ⟨rfl, -⟩ | ⟨s, hs, -⟩
    · exact absurd hle (Nat.not_succ_le_self _)
    · exact ⟨s, hs⟩
  opens := Or.inl (hA.openBlocks hT)

end Follows

end ScopeStack.Arena
