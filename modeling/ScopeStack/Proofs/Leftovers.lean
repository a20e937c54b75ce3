import ScopeStack.Proofs.Popped

/-!
# Blocks that control words leave behind

A control word of the top level lets go of the blocks that it has popped, however what it runs has ended.
It does not if it fails to get its operands: what it has popped by then stays. And of two blocks it lets
go of one first; that one stays if something refers to it then, even if that goes with the other one.

* `Pops`: cells have been taken from the stack of the top level. `ControlWord.plan_pops`: the blocks among
  them are operands.
* `Context.discardTransient_top`: **letting go of a block that was written at the top level takes it out,
  or something refers to it.** `Job.Harmless`: jobs that change nothing about that.
* `WordRun`: what a thread does until it comes back to what is behind a word. `Held`: how far it has got
  with a block; `Held.step`: one step of it, `Held.run`: all of them.
* `Thread.step_control`: the first step of a word, after which it `Holds` its operands.
* `Session.control_word_leaves`: **once a control word has returned, every block that it has popped is
  gone or referred to**, with these two exceptions (`Plan.Releases`).
-/

namespace ScopeStack

open ScopeStack.Action

variable {m m' : Machine} {k : ScopeId}

/-! ## 1. Operands -/

/-- What is on the stack of the top level. -/
def Arena.topCells (a : Arena) : List Cell :=
  ((a.get? rootScope).map fun r => a.stackCells r.stack).getD []

theorem Arena.topCells_eq {a : Arena} {r : Scope} (hr : a.get? rootScope = some r) :
    a.topCells = a.stackCells r.stack := by
  rw [topCells, hr]
  rfl

theorem Arena.topCells_pushCell {a : Arena} {r : Scope} (hr : a.get? rootScope = some r) (x : Cell) :
    (a.pushCell r.stack x).topCells = x :: a.topCells := by
  have hr' : (a.pushCell r.stack x).get? rootScope = some r := hr
  rw [topCells_eq hr', topCells_eq hr, stackCells_pushCell, if_pos rfl]

theorem Arena.topCells_popCell {a : Arena} {r : Scope} (hr : a.get? rootScope = some r) :
    (a.popCell r.stack).topCells = a.topCells.tail := by
  have hr' : (a.popCell r.stack).get? rootScope = some r := hr
  rw [topCells_eq hr', topCells_eq hr, stackCells_popCell, if_pos rfl]

/-- Tables that grow leave the stack of the top level alone. -/
theorem Arena.Grows.topCells {a b : Arena} (hG : a.Grows b) (hT : a.Tree) :
    b.topCells = a.topCells := by
  obtain ⟨r, hr, -⟩ := hT.root
  obtain ⟨s, hs, heq, -⟩ := hG.get? hr
  rw [Arena.topCells_eq hs, Arena.topCells_eq hr, hG.stackCells, heq]

/-- So does taking a block out. -/
theorem Arena.Pruned.topCells {a b : Arena} {top : ScopeId} (hP : a.Pruned top b) (hT : a.Tree)
    (hne : top ≠ rootScope) : b.topCells = a.topCells := by
  obtain ⟨r, hr, -⟩ := hT.root
  obtain ⟨cs, hcs, -⟩ := hP.kept hr fun hmem => hne (by
    rw [hT.chain_root] at hmem
    exact List.mem_singleton.mp hmem)
  rw [topCells_eq hr, topCells_eq hcs, hP.stackCells]

/-- A pop at the top level takes the top cell of its stack. -/
theorem Context.ends_pop_top {r : Scope} (hr : m.arena.get? rootScope = some r)
    {x : Cell} {rest : List Cell} (hcells : m.arena.stackCells r.stack = x :: rest)
    {Q : Value → Machine → Prop} {E : Failure → Machine → Prop} :
    Context.top.pop.Ends m Q E ↔
      (Context.top.resolveCell x).Ends { m with arena := m.arena.popCell r.stack } Q E := by
  have htop : Context.top.top? m.arena = .ok (some (r.stack, x)) := by
    show m.arena.ownTopUpTo (m.arena.size + 1) rootScope = _
    rw [Arena.ownTopUpTo, hr]
    dsimp only
    rw [hcells]
  unfold pop popCell topCell
  rw [bind_assoc, bind_assoc, ends_bind, ends_inArena_ok htop, ends_bind, ofOption, ends_pure,
    bind_assoc, ends_bind, ends_modifyArena, pure_bind]

/-- So it does if that cell does not resolve; where there is none it fails. -/
theorem Context.pop_top (hT : m.arena.Tree) :
    Context.top.pop.Ends m
      (fun v m' => ∃ x, m.arena.topCells = x :: m'.arena.topCells ∧ ∀ k, x = .block k → v = .block k)
      fun _ m' => ∃ pre, m.arena.topCells = pre ++ m'.arena.topCells := by
  obtain ⟨r, hr, hparent, -⟩ := hT.root
  cases hcells : m.arena.stackCells r.stack with
  | nil =>
    have htop : Context.top.top? m.arena = .ok none := by
      show m.arena.ownTopUpTo (m.arena.size + 1) rootScope = _
      rw [Arena.ownTopUpTo, hr]
      dsimp only
      rw [hcells]
      dsimp only
      rw [hparent]
    unfold pop popCell topCell
    rw [bind_assoc, bind_assoc, ends_bind, ends_inArena_ok htop, ends_bind, ends_ofOption]
    exact ⟨fun _ hx => (by cases hx), fun _ => ⟨[], rfl⟩⟩
  | cons x rest =>
    have hrest : (m.arena.popCell r.stack).topCells = rest := by
      rw [Arena.topCells_popCell hr, Arena.topCells_eq hr, hcells]
      rfl
    rw [ends_pop_top hr hcells, Arena.topCells_eq hr, hcells]
    refine (resolveCell_reads (P := fun n => n.arena.topCells = rest) .top x _ hrest).mono
      (fun v m' h => ?_) fun _ m' h => ?_
    · obtain ⟨hm', hv⟩ := h
      exact ⟨x, hm' ▸ rfl, hv⟩
    · exact ⟨[x], h ▸ rfl⟩

/-- Since the first machine some cells have been taken from the stack of the top level, and nothing else
has happened; the blocks among these cells are of some kind. -/
structure Pops (taken : ScopeId → Prop) (m m' : Machine) : Prop where
  stays : Stays False False m.arena m'
  cells : ∃ pre, m.arena.topCells = pre ++ m'.arena.topCells ∧ ∀ k, Cell.block k ∈ pre → taken k

namespace Pops

variable {m₀ : Machine} {taken taken' : ScopeId → Prop}

theorem refl (h : Stays False False m.arena m) : Pops taken m m :=
  ⟨h, [], rfl, fun _ hk => absurd hk List.not_mem_nil⟩

theorem mono (h : Pops taken m m') (hsub : ∀ k, taken k → taken' k) : Pops taken' m m' :=
  let ⟨pre, hpre, hk⟩ := h.cells
  ⟨h.stays, pre, hpre, fun k hm => hsub k (hk k hm)⟩

/-- Another value is taken. -/
theorem pop (h : Pops taken m₀ m) :
    Context.top.pop.Ends m (fun v m' => Pops (fun k => taken k ∨ v = .block k) m₀ m')
      fun _ m' => Pops (fun _ => True) m₀ m' := by
  obtain ⟨pre, hpre, hk⟩ := h.cells
  have hstays : Keeps (Stays False False m₀.arena) Context.top.pop (Known m₀.arena) :=
    Context.pop_keeps .top
  refine ((hstays m h.stays).and (Context.pop_top h.stays.steady.tree)).mono ?_ ?_
  · rintro v m' ⟨⟨hm', -⟩, x, hcells, hx⟩
    refine ⟨hm', pre ++ [x], by rw [hpre, hcells, List.append_assoc, List.singleton_append], ?_⟩
    intro k hmem
    rcases List.mem_append.mp hmem with hmem | hmem
    · exact Or.inl (hk k hmem)
    · exact Or.inr (hx k (List.mem_singleton.mp hmem).symm)
  · rintro f m' ⟨hm', more, hcells⟩
    exact ⟨hm', pre ++ more, by rw [hpre, hcells, List.append_assoc], fun _ _ => trivial⟩

theorem popRunnable (h : Pops taken m₀ m) :
    Context.top.popRunnable.Ends m (fun v m' => Pops (fun k => taken k ∨ v = .block k) m₀ m')
      fun _ m' => Pops (fun _ => True) m₀ m' := by
  refine h.pop.bind fun v m' hm' => ?_
  split
  · exact hm'
  · exact hm'.mono fun _ _ => trivial

/-- A value of another kind takes no block with it. -/
theorem popBool (h : Pops taken m₀ m) :
    Context.top.popBool.Ends m (fun _ m' => Pops taken m₀ m')
      fun _ m' => Pops (fun _ => True) m₀ m' := by
  refine h.pop.bind fun v m' hm' => ?_
  split
  · exact hm'.mono fun k hk => hk.resolve_right fun he => by cases he
  · exact hm'.mono fun _ _ => trivial

theorem popInt (h : Pops taken m₀ m) :
    Context.top.popInt.Ends m (fun _ m' => Pops taken m₀ m')
      fun _ m' => Pops (fun _ => True) m₀ m' := by
  refine h.pop.bind fun v m' hm' => ?_
  split
  · exact hm'.mono fun k hk => hk.resolve_right fun he => by cases he
  · exact hm'.mono fun _ _ => trivial

end Pops

/-- **The blocks that a control word of the top level takes from the stack are its operands.** -/
theorem ControlWord.plan_pops (h : Stays False False m.arena m) (w : ControlWord) :
    (w.plan .top).Ends m (fun p m' => Pops (fun k => .block k ∈ p.operands) m m')
      fun _ m' => Pops (fun _ => True) m m' := by
  have h₀ : Pops (fun _ => False) m m := .refl h
  have hone {v : Value} (k : ScopeId) (hk : False ∨ v = .block k) : Value.block k ∈ [v] :=
    List.mem_singleton.mpr (hk.resolve_left id).symm
  have htwo {u v : Value} (k : ScopeId) (hk : (False ∨ u = .block k) ∨ v = .block k) :
      Value.block k ∈ [u, v] :=
    hk.elim (fun hk => List.mem_cons.mpr (Or.inl (hk.resolve_left id).symm)) fun hk =>
      List.mem_cons_of_mem _ (List.mem_singleton.mpr hk.symm)
  cases w with
  | run => exact h₀.popRunnable.bind fun v m₁ h₁ => h₁.mono hone
  | branch =>
    refine h₀.popRunnable.bind fun top m₁ h₁ => h₁.pop.bind fun second m₂ h₂ => ?_
    split
    · exact h₂.mono fun k hk => hone k (hk.resolve_right fun he => by cases he)
    · split
      · exact h₂.mono fun _ _ => trivial
      · refine h₂.popBool.bind fun condition m₃ h₃ => ?_
        cases condition
        · exact h₃.mono fun k hk => (List.Perm.swap _ _ []).mem_iff.mp (htwo k hk)
        · exact h₃.mono htwo
  | branchElse =>
    exact h₀.popRunnable.bind fun v m₁ h₁ => h₁.popBool.bind fun _ m₂ h₂ =>
      h₂.popBool.bind fun _ m₃ h₃ => h₃.mono hone
  | otherwise | when | «unless» =>
    exact h₀.popRunnable.bind fun v m₁ h₁ => h₁.popBool.bind fun _ m₂ h₂ => h₂.mono hone
  | whileTrue =>
    exact h₀.popRunnable.bind fun body m₁ h₁ => h₁.popRunnable.bind fun condition m₂ h₂ =>
      h₂.mono htwo
  | times =>
    exact h₀.popInt.bind fun _ m₁ h₁ => h₁.popRunnable.bind fun v m₂ h₂ => h₂.mono hone
  | timesBy =>
    refine h₀.popInt.bind fun step m₁ h₁ => h₁.popInt.bind fun _ m₂ h₂ =>
      h₂.popRunnable.bind fun v m₃ h₃ => ?_
    split
    · exact h₃.mono hone
    · exact h₃.mono hone

/-! ## 2. Letting go at the top level -/

namespace Arena

variable {a b : Arena}

/-- What runs is referred to. -/
theorem isReferenced_of_running (hF : a.Forest) {s : Scope} (hs : a.get? k = some s)
    (hrun : s.running = true) : a.isReferenced k = true := by
  refine any_eq_true.mpr ⟨k, s, hs, ?_⟩
  have hself : (a.subtree k).contains k = true := (mem_subtree_iff hF).mpr (mem_chain_self hF hs)
  rw [keepsAlive, if_pos hself, hrun]
  rfl

/-- What is referred to is referred to after a push. -/
theorem isReferenced_pushCell (hF : a.Forest) (h : a.isReferenced k = true) (σ : StackId) (x : Cell) :
    (a.pushCell σ x).isReferenced k = true := by
  obtain ⟨j, s, hs, hkeep⟩ := any_eq_true.mp h
  refine any_eq_true.mpr ⟨j, s, hs, ?_⟩
  have hA : a.Alike (a.pushCell σ x) := (Still.modifyStack a σ _).alike
  have hsub (i : ScopeId) : ((a.pushCell σ x).subtree k).contains i = (a.subtree k).contains i := by
    refine Bool.eq_iff_iff.mpr ?_
    rw [← Std.TreeSet.mem_iff_contains, ← Std.TreeSet.mem_iff_contains, mem_subtree_iff hF,
      mem_subtree_iff (hA.forest hF), hA.chain_eq hF]
  have hrefers : refersTo ((a.pushCell σ x).subtree k) = refersTo (a.subtree k) := by
    funext cell
    cases cell with
    | block i => exact hsub i
    | bool | int | big | double | str | word => rfl
  unfold keepsAlive at hkeep ⊢
  rw [hsub, hrefers]
  rw [Bool.or_eq_true] at hkeep ⊢
  refine hkeep.imp_right fun hstacked => ?_
  unfold anyStacked at hstacked ⊢
  obtain ⟨τ, hτ, hany⟩ := List.any_eq_true.mp hstacked
  refine List.any_eq_true.mpr ⟨τ, hτ, ?_⟩
  rw [stackCells_pushCell]
  split
  · rename_i heq
    rw [List.any_cons, ← heq, hany, Bool.or_true]
  · exact hany

end Arena

/-- What survives that a scope is taken out survives letting go. -/
theorem prunable_of_pruned (Q : Arena → Prop)
    (hQ : ∀ {a b : Arena} {top : ScopeId}, a.Tree → top ≠ rootScope → a.Pruned top b → Q a → Q b) :
    Prunable fun m => m.arena.Tree ∧ Q m.arena where
  tree h := h.1
  discard {_ _ _ _} h hne _ hd :=
    have hP := Arena.discard_pruned h.1.forest hd
    ⟨hP.tree h.1 hne, hQ h.1 hne hP h.2⟩

namespace Context

/-- **What letting go of a block at the top level comes to**: nothing, if the block was not written there
or something refers to it, and otherwise it goes. It does not fail. -/
theorem discardTransient_top (hT : m.arena.Tree) (k : ScopeId) :
    (Context.top.discardTransient (.block k)).Ends m
      (fun pools m' =>
        (pools = [] ∧ m' = m ∧
          (m.arena.KnownUnder (some rootScope) k → m.arena.isReferenced k = true)) ∨
        (m.arena.isReferenced k = false ∧ k ≠ rootScope ∧
          ∃ b, m.arena.discard k = .ok (pools, b) ∧ m' = { m with arena := b }))
      fun _ _ => False := by
  obtain ⟨r, hr, hparent, -⟩ := hT.root
  unfold discardTransient
  dsimp only
  rw [ends_bind, show Context.top.scope = rootScope from rfl, ends_getScope_some hr, hparent,
    if_neg (by decide), ends_bind, ends_get]
  split
  · rename_i f hres
    refine Or.inl ⟨rfl, rfl, fun hk => ?_⟩
    obtain ⟨s, hs, -⟩ := hk.there
    rw [hT.resolveBlock_eq_ok hT.linked_root ⟨s, hs⟩ hk.known] at hres
    cases hres
  · rename_i block hres
    obtain ⟨rfl, ⟨s, hs, -⟩, -, hne, -⟩ := hT.of_resolveBlock hres
    rw [ends_bind, ends_getScope_some hs]
    split
    · rename_i hif
      refine Or.inl ⟨rfl, rfl, fun hk => ?_⟩
      obtain ⟨s', hs', hp⟩ := hk.there
      cases hs.symm.trans hs'
      rw [hp, Bool.or_eq_true, Bool.or_eq_true] at hif
      rcases hif with (hif | hif) | hif
      · simp at hif
      · exact Arena.isReferenced_of_running hT.forest hs hif
      · exact hif
    · rename_i hif
      rw [Bool.not_eq_true, Bool.or_eq_false_iff, Bool.or_eq_false_iff] at hif
      have hp : s.parent = some rootScope := by simpa using hif.1.1
      obtain ⟨⟨pools, b⟩, hd⟩ := Arena.discard_ok hs hp hr
      rw [hd]
      exact Or.inr ⟨hif.2, hne, b, rfl, rfl⟩

/-- Afterwards the block has gone, or it is referred to and nothing has happened. -/
theorem discardTransient_settles (hT : m.arena.Tree) (hk : m.arena.Accounts (some rootScope) k) :
    (Context.top.discardTransient (.block k)).Ends m
      (fun _ m' => m'.arena.get? k = none ∨ (m' = m ∧ m.arena.isReferenced k = true))
      fun _ _ => False := by
  refine (discardTransient_top hT k).mono (fun _ m' h => ?_) fun _ _ h => h
  rcases hk with hk | hgone
  · rcases h with ⟨-, rfl, hkept⟩ | ⟨-, -, b, hd, rfl⟩
    · exact Or.inr ⟨rfl, hkept hk⟩
    · obtain ⟨s, hs, -⟩ := hk.there
      exact Or.inl ((Arena.discard_pruned hT.forest hd).gone (Arena.mem_chain_self hT.forest hs))
  · rcases h with ⟨-, rfl, -⟩ | ⟨-, -, b, hd, rfl⟩
    · exact Or.inl hgone
    · exact Or.inl ((Arena.discard_pruned hT.forest hd).absent hgone)

theorem discardAll_append (c : Context) (vs ws : List Value) :
    c.discardAll (vs ++ ws) = do
      let pools ← c.discardAll vs
      let more ← c.discardAll ws
      return pools ++ more := by
  unfold discardAll
  simp only [List.mapM_append, bind_assoc, pure_bind, List.flatten_append]

theorem discardAll_single (c : Context) (v : Value) : c.discardAll [v] = c.discardTransient v := by
  unfold discardAll
  simp only [List.mapM_cons, List.mapM_nil, bind_assoc, pure_bind, List.flatten_cons,
    List.flatten_nil, List.append_nil, bind_pure]

/-- At the top level letting go does not fail. -/
theorem discardAll_top {P : Machine → Prop} (hP : Prunable P) (hm : P m) (vs : List Value) :
    (Context.top.discardAll vs).Ends m (fun _ m' => P m') fun _ _ => False := by
  have hone (v : Value) {m : Machine} (hm : P m) :
      (Context.top.discardTransient v).Ends m (fun _ m' => P m') fun _ _ => False := by
    have hkeeps := discardTransient_keeps hP .top v m hm
    cases v with
    | block k =>
      exact (hkeeps.and (discardTransient_top (hP.tree hm) k)).mono (fun _ _ h => h.1.1)
        fun _ _ h => h.2
    | bool | int | big | double | str | word => exact hm
  induction vs generalizing m with
  | nil => exact hm
  | cons v vs ih =>
    rw [← List.singleton_append, discardAll_append, discardAll_single]
    exact (hone v hm).bind fun _ _ h => (ih h).bind fun _ _ h => h

/-- What is let go of last has gone afterwards, or it is referred to. -/
theorem discardAll_last {P : Machine → Prop} (hP : Prunable P) (hm : P m)
    (hk : ∀ n, P n → n.arena.Accounts (some rootScope) k) (vs : List Value) :
    (Context.top.discardAll (vs ++ [.block k])).Ends m
      (fun _ m' => m'.arena.get? k = none ∨ m'.arena.isReferenced k = true) fun _ _ => False := by
  rw [discardAll_append, discardAll_single]
  refine (discardAll_top hP hm vs).bind fun _ m₁ h₁ => ?_
  refine (discardTransient_settles (hP.tree h₁) (hk m₁ h₁)).bind fun _ m₂ h₂ => ?_
  refine h₂.imp_right ?_
  rintro ⟨rfl, href⟩
  exact href

/-- What is let go of first goes, or it was referred to. -/
theorem discardAll_first (hT : m.arena.Tree) (hk : m.arena.Accounts (some rootScope) k)
    (vs : List Value) :
    (Context.top.discardAll (.block k :: vs)).Ends m
      (fun _ m' => m'.arena.get? k = none ∨ m.arena.isReferenced k = true) fun _ _ => False := by
  have hgone : Prunable fun n => n.arena.Tree ∧ n.arena.get? k = none :=
    prunable_of_pruned (fun a => a.get? k = none) fun _ _ hP => hP.absent
  have htree : Prunable fun n => n.arena.Tree ∧ True :=
    prunable_of_pruned (fun _ => True) fun _ _ _ => id
  rw [← List.singleton_append, discardAll_append, discardAll_single]
  have hfirst := (discardTransient_settles hT hk).and
    (discardTransient_keeps htree .top (.block k) m ⟨hT, trivial⟩)
  refine (hfirst.mono (fun _ _ h => h) fun _ _ h => h.1).bind ?_
  rintro _ m₁ ⟨h₁ | ⟨-, href⟩, ⟨hT₁, -⟩, -⟩
  · exact (discardAll_top hgone ⟨hT₁, h₁⟩ vs).bind fun _ _ h => Or.inl h.2
  · exact (discardAll_top htree ⟨hT₁, trivial⟩ vs).bind fun _ _ _ => Or.inr href

/-- Letting go leaves the stack of the top level alone. -/
theorem discardAll_topCells (hT : m.arena.Tree) (vs : List Value) :
    (Context.top.discardAll vs).Ends m
      (fun _ m' => m'.arena.topCells = m.arena.topCells) fun _ _ => False := by
  have hcells : Prunable fun n => n.arena.Tree ∧ n.arena.topCells = m.arena.topCells :=
    prunable_of_pruned (fun a => a.topCells = m.arena.topCells) fun hT hne hP h =>
      (hP.topCells hT hne).trans h
  exact (discardAll_top hcells ⟨hT, rfl⟩ vs).mono (fun _ _ h => h.2) fun _ _ h => h

end Context

/-! ## 3. Behind what has been run -/

/-- A job that may stand behind what a control word has run: it takes nothing out, and drops no reference. -/
def Job.Harmless : Job → Prop
  | .closePool _ | .awaitWorkers _ _ _ | .raise _ | .stamp _ | .push _ (.bool _) => True
  | _ => False

/-- Nothing has happened to the arena, or a boolean has been pushed. -/
def Arena.Nudged (a b : Arena) : Prop := b = a ∨ ∃ σ x, b = a.pushCell σ (.bool x)

theorem Arena.Nudged.isReferenced {a b : Arena} (h : a.Nudged b) (hF : a.Forest)
    (href : a.isReferenced k = true) : b.isReferenced k = true := by
  rcases h with rfl | ⟨σ, x, rfl⟩
  · exact href
  · exact isReferenced_pushCell hF href σ _

/-- Pushing a boolean, wherever it goes. -/
theorem Context.push_nudges (c : Context) (x : Bool) :
    (c.push (.bool x)).Ends m (fun _ m' => m.arena.Nudged m'.arena)
      fun _ m' => m.arena.Nudged m'.arena := by
  have hread {α β : Type} {read : Action α} {g : α → Action β} {n : Machine}
      (hn : n.arena = m.arena)
      (hreads : Keeps (fun n => n.arena = m.arena) read fun _ => True)
      (hg : ∀ v n', n'.arena = m.arena → (g v).Ends n' (fun _ m' => m.arena.Nudged m'.arena)
        fun _ m' => m.arena.Nudged m'.arena) :
      (read >>= g).Ends n (fun _ m' => m.arena.Nudged m'.arena)
        fun _ m' => m.arena.Nudged m'.arena :=
    ((hreads n hn).mono (fun _ _ h => h.1) fun _ _ h => Or.inl h).bind hg
  have hlocal (d : Context) {n : Machine} (hn : n.arena = m.arena) :
      (d.pushLocal (.bool x)).Ends n (fun _ m' => m.arena.Nudged m'.arena)
        fun _ m' => m.arena.Nudged m'.arena := by
    show (d.ownStack >>= fun σ => modifyArena (·.pushCell σ (.bool x))).Ends n _ _
    refine hread hn (ownStack_reads d) fun σ n₁ h₁ => Or.inr ⟨σ, x, ?_⟩
    rw [← h₁]
  refine hread rfl (pushTarget_reads c) fun target n hn => ?_
  cases target with
  | some pid => exact hread hn (ofPid_reads c pid) fun d n₁ h₁ => hlocal d h₁
  | none => exact hlocal c hn

namespace Job

/-- A harmless job leaves harmless ones. -/
def LeavesHarmless (a : Arena) (jobs : List Job) (m : Machine) : Prop :=
  a.Nudged m.arena ∧ ∀ j ∈ jobs, j.Harmless

theorem shutPool_harmless (id : PoolId) :
    (shutPool id).Ends m (LeavesHarmless m.arena) fun _ => LeavesHarmless m.arena [] :=
  ⟨Or.inl (Starts.arena_closePool m id), List.forall_mem_singleton.mpr trivial⟩

theorem closePools_harmless (pools : List PoolId) : ∀ j ∈ closePools pools, j.Harmless := by
  intro j hj
  obtain ⟨id, -, rfl⟩ := List.mem_map.mp hj
  trivial

theorem start_harmless {job : Job} (h : job.Harmless) :
    job.start.Ends m (LeavesHarmless m.arena) fun _ => LeavesHarmless m.arena [] := by
  have hnone {a : Arena} (ha : m.arena.Nudged a) {n : Machine} (hn : n.arena = a) :
      LeavesHarmless m.arena [] n := ⟨hn.symm ▸ ha, fun _ hj => absurd hj List.not_mem_nil⟩
  cases job with
  | closePool id => exact shutPool_harmless id
  | awaitWorkers | raise | stamp => exact hnone (Or.inl rfl) rfl
  | push c v =>
    cases v with
    | bool x =>
      refine ((c.push_nudges x).mono (fun _ _ h => h) fun _ _ h => hnone h rfl).bind fun _ _ h => ?_
      exact hnone h rfl
    | int | big | double | str | word | block => exact h.elim
  | _ => exact h.elim

theorem settle_harmless {job : Job} (h : job.Harmless) (f : Failure) :
    LeavesHarmless m.arena ((job.settle f).run m).1.2 ((job.settle f).run m).2 := by
  have hidle : LeavesHarmless m.arena [] m :=
    ⟨Or.inl rfl, fun _ hj => absurd hj List.not_mem_nil⟩
  cases job with
  | closePool id =>
    exact settle_closePool (R := LeavesHarmless m.arena) (shutPool_harmless id) f
  | awaitWorkers | raise | stamp | push => exact hidle
  | _ => exact h.elim

end Job

/-- A step of a harmless job. -/
theorem Thread.step_harmless {t t' : Thread} {job : Job} {rest : List Job}
    (hagenda : t.agenda = job :: rest) (hjob : job.Harmless) (hstep : t.step m = some (t', m')) :
    ∃ jobs, t'.agenda = jobs ++ rest ∧ Job.LeavesHarmless m.arena jobs m' := by
  obtain ⟨-, ⟨-, ⟨jobs, hrun, rfl⟩ | ⟨f, hrun, rfl⟩⟩ | ⟨f, -, rfl, rfl⟩⟩ :=
    Thread.step_cases hagenda hstep
  · exact ⟨jobs, rfl, (Job.start_harmless hjob).of_ok hrun⟩
  · exact ⟨[], rfl, (Job.start_harmless hjob).of_error hrun⟩
  · exact ⟨_, rfl, Job.settle_harmless hjob f⟩

/-! ## 4. Runs of a word -/

/-- The thread goes on from its first step on, and before none of its steps has it come back to what is
behind the word. The last event comes first. -/
inductive WordRun (after : List Job) (t₀ : Thread) (m₀ : Machine) :
    List Event → Thread → Machine → Prop where
  | start : WordRun after t₀ m₀ [] t₀ m₀
  | step {events : List Event} {t t' : Thread} {m m' : Machine} {front : List Job} :
      WordRun after t₀ m₀ events t m → t.agenda = front ++ after → front ≠ [] →
      t.step m = some (t', m') → WordRun after t₀ m₀ (.step t m m' :: events) t' m'
  | pass {events : List Event} {t : Thread} {m : Machine} (clock : Nat) (files : FileSource)
      (output : String) : WordRun after t₀ m₀ events t m →
      WordRun after t₀ m₀ events t { m with clock, files, output }

/-- How far a word has got with a block that it lets go of later. -/
inductive Held (after : List Job) (later : List Value) (k : ScopeId) (t : Thread) (m : Machine) :
    Prop where
  | gone : k ≤ m.arena.lastScope → m.arena.get? k = none → Held after later k t m
  /-- What stands in front is still to be run. -/
  | held {front back : List Job} : t.agenda = front ++ .discard .top later :: (back ++ after) →
      (∀ j ∈ back, j.Harmless) → m.arena.KnownUnder (some rootScope) k → Held after later k t m
  /-- The word has let go of it and it has stayed. -/
  | kept {back : List Job} : t.agenda = back ++ after → (∀ j ∈ back, j.Harmless) →
      m.arena.isReferenced k = true → Held after later k t m

/-- The step lets go of what a word has held, while something refers to the block. -/
def Event.Spares (after : List Job) (later : List Value) (k : ScopeId) : Event → Prop
  | step thread before _ => (∃ back : List Job, (∀ j ∈ back, j.Harmless) ∧
      thread.agenda = .discard .top later :: (back ++ after)) ∧ before.arena.isReferenced k = true
  | push _ => False

section Runs

variable {after : List Job} {later : List Value} {t₀ t t' : Thread} {m₀ : Machine}
  {events trace : List Event}

/-- What a word does belongs to the session. -/
theorem WordRun.session (h : WordRun after t₀ m₀ events t m) (h₀ : Session trace t₀ m₀) :
    Session (events ++ trace) t m := by
  induction h with
  | start => exact h₀
  | step _ _ _ hstep ih => exact ih.step hstep
  | pass clock files output _ ih => exact ih.pass clock files output

/-- A word that has failed at once does nothing more. -/
theorem WordRun.arena_eq (h : WordRun after t₀ m₀ events t m) (hback : t₀.agenda = after) :
    t = t₀ ∧ m.arena = m₀.arena := by
  induction h with
  | start => exact ⟨rfl, rfl⟩
  | step _ hfront hne _ ih =>
    rw [ih.1, hback] at hfront
    exact absurd (List.append_left_eq_self.mp hfront.symm) hne
  | pass _ _ _ _ ih => exact ih

/-- For some steps the agenda is longer than this. -/
def Thread.staysAbove (l : Nat) : Nat → Thread → Machine → Bool
  | 0, _, _ => true
  | n + 1, t, m => l < t.agenda.length &&
    match t.step m with
    | none => true
    | some (t', m') => t'.staysAbove l n m'

/-- As long as the agenda is longer than what is behind a word, the steps in a row are those of the word. -/
theorem WordRun.record
    (h : WordRun after t₀ m₀ events t m) (hsuffix : after <:+ t.agenda) {n : Nat}
    (hn : t.staysAbove after.length n m = true) :
    WordRun after t₀ m₀ ((t.record n m).1 ++ events) (t.record n m).2.1 (t.record n m).2.2 ∧
      after <:+ (t.record n m).2.1.agenda := by
  induction n generalizing t m events with
  | zero => exact ⟨h, hsuffix⟩
  | succ n ih =>
    rw [Thread.staysAbove, Bool.and_eq_true, decide_eq_true_eq] at hn
    rw [Thread.record]
    cases hstep : t.step m with
    | none => exact ⟨h, hsuffix⟩
    | some r =>
      obtain ⟨hlt, hn⟩ := hn
      rw [hstep] at hn
      obtain ⟨front, hfront⟩ := hsuffix
      cases front with
      | nil =>
        rw [← hfront] at hlt
        exact absurd hlt (Nat.lt_irrefl _)
      | cons job front =>
        obtain ⟨jobs, hagenda'⟩ := Thread.step_agenda hfront.symm hstep
        have hmore := ih (h.step hfront.symm (List.cons_ne_nil _ _) hstep)
          ⟨jobs ++ front, (hagenda'.trans (List.append_assoc _ _ _).symm).symm⟩ hn
        rwa [List.append_cons] at hmore

/-- **One step of a word**: it has got further with the block, or lets go of it before another one while
something refers to it. -/
theorem Held.step {front : List Job} (h : Held after later k t m)
    (hm : InOrder False False t.agenda m)
    (hlater : (∃ vs, later = vs ++ [.block k]) ∨ ∃ vs, later = .block k :: vs)
    (hfront : t.agenda = front ++ after) (hne : front ≠ []) (hstep : t.step m = some (t', m'))
    (hlast : m'.processes.last = m.processes.last) :
    Held after later k t' m' ∨
      ((∀ vs, later ≠ vs ++ [.block k]) ∧ Event.Spares after later k (.step t m m')) := by
  have hT := hm.steady.tree
  have hf := (hm.step hstep False.elim hlast).2
  cases h with
  | gone hle hgone => exact Or.inl (.gone (Nat.le_trans hle hf.lastScope) (hf.absent hle hgone))
  | @held inner back hagenda hback hk =>
    have hle : k ≤ m'.arena.lastScope := by
      obtain ⟨s, hs, -⟩ := hk.there
      exact Nat.le_trans (hT.forest.le_last hs) hf.lastScope
    cases inner with
    | nil =>
      have hP : Prunable (Accounting m.arena (Agenda.calls t.agenda) (some rootScope) k) :=
        (Accounting.forgetful hT).toPrunable
      have hacc : Accounting m.arena (Agenda.calls t.agenda) (some rootScope) k m :=
        ⟨hm.moved, Or.inl hk⟩
      rcases Thread.step_discard hagenda hstep with ⟨pools, hrun, hagenda'⟩ | ⟨f, hrun, -⟩
      · by_cases hl : ∃ vs, later = vs ++ [.block k]
        · obtain ⟨vs, rfl⟩ := hl
          have hends := Context.discardAll_last hP hacc (fun _ h => h.2) vs
          have hback' := List.forall_mem_append.mpr ⟨Job.closePools_harmless pools, hback⟩
          rw [← List.append_assoc] at hagenda'
          exact Or.inl ((hends.of_ok hrun).elim (.gone hle) (.kept hagenda' hback'))
        · obtain ⟨vs, rfl⟩ := hlater.resolve_left hl
          have hends := Context.discardAll_first hT (Or.inl hk) vs
          refine (hends.of_ok hrun).imp (.gone hle) fun href => ?_
          exact ⟨fun vs he => hl ⟨vs, he⟩, ⟨back, hback, hagenda⟩, href⟩
      · exact ((Context.discardAll_top hP hacc later).of_error hrun).elim
    | cons job inner =>
      obtain ⟨jobs, hagenda'⟩ := Thread.step_agenda hagenda hstep
      refine Or.inl ((Thread.step_known hm hstep hlast hk).elim (fun hk' => ?_) fun hgone => ?_)
      · exact .held (hagenda'.trans (List.append_assoc _ _ _).symm) hback hk'
      · exact .gone hle hgone.2
  | @kept back hagenda hback href =>
    cases back with
    | nil =>
      rw [hagenda] at hfront
      exact absurd (List.append_left_eq_self.mp hfront.symm) hne
    | cons job back =>
      have hjobs := List.forall_mem_cons.mp hback
      obtain ⟨jobs, hagenda', hnudged, hharmless⟩ := Thread.step_harmless hagenda hjobs.1 hstep
      refine Or.inl (.kept (hagenda'.trans (List.append_assoc _ _ _).symm)
        (List.forall_mem_append.mpr ⟨hharmless, hjobs.2⟩) (hnudged.isReferenced hT.forest href))

/-- **What a word has done with the block after any number of its steps.** -/
theorem Held.run (hrun : WordRun after t₀ m₀ events t m) (h₀ : Session trace t₀ m₀)
    (hspawn : SpawnFree (events ++ trace))
    (hlater : (∃ vs, later = vs ++ [.block k]) ∨ ∃ vs, later = .block k :: vs)
    (hheld : Held after later k t₀ m₀) :
    Held after later k t m ∨
      ((∀ vs, later ≠ vs ++ [.block k]) ∧ ∃ e ∈ events, e.Spares after later k) := by
  induction hrun with
  | start => exact Or.inl hheld
  | @step events t t' m m' front hrun hfront hne hstep ih =>
    rcases ih hspawn.of_cons with h | ⟨hl, e, he, hs⟩
    · have hm : InOrder False False t.agenda m :=
        (hrun.session h₀).inOrder hspawn.of_cons False.elim False.elim
      refine (h.step hm hlater hfront hne hstep (SpawnFree.last hspawn)).imp_right ?_
      rintro ⟨hl, hs⟩
      exact ⟨hl, _, List.mem_cons_self, hs⟩
    · exact Or.inr ⟨hl, e, List.mem_cons_of_mem _ he, hs⟩
  | pass clock files output _ ih =>
    refine (ih hspawn).imp_left fun h => ?_
    cases h with
    | gone hle hgone => exact .gone hle hgone
    | held hagenda hback hk => exact .held hagenda hback hk
    | kept hagenda hback href => exact .kept hagenda hback href

/-- Back behind the word, the block has gone or is referred to. -/
theorem Held.returned (h : Held after later k t m) (hagenda : t.agenda = after) :
    m.arena.get? k = none ∨ m.arena.isReferenced k = true := by
  cases h with
  | gone _ hgone => exact Or.inl hgone
  | @held front back hheld _ _ =>
    have hlen := congrArg List.length (hagenda.symm.trans hheld)
    simp only [List.length_append, List.length_cons] at hlen
    omega
  | kept _ _ href => exact Or.inr href

end Runs

/-! ## 5. Control words of the top level -/

/-- The code that comes behind the instruction which a job is about to carry out. -/
def Job.behind : Job → List Job
  | .code c (_ :: rest) => if rest.isEmpty then [] else [.code c rest]
  | _ => []

/-- What there is to do when the word that a thread is about to carry out has returned. If it fails at
once, the code behind it is never looked at. -/
def Thread.behind (t t₁ : Thread) : List Job :=
  match t.agenda with
  | [] => []
  | job :: rest => if t₁.status.isOk then job.behind ++ rest else rest

theorem Job.around_eq (job : Job) {jobs : List Job} (hne : jobs ≠ []) :
    ∃ stamps : List Job, (∀ j ∈ stamps, j.Harmless) ∧ job.around jobs = jobs ++ stamps ++ job.behind := by
  have hlocated (l : Option Location) : ∃ stamps : List Job, (∀ j ∈ stamps, j.Harmless) ∧
      located l jobs = jobs ++ stamps := by
    refine ⟨l.toList.map .stamp, fun j hj => ?_, if_neg ?_⟩
    · obtain ⟨l, -, rfl⟩ := List.mem_map.mp hj
      trivial
    · simpa using hne
  have hbare : ∃ stamps : List Job, (∀ j ∈ stamps, j.Harmless) ∧ jobs = jobs ++ stamps ++ [] :=
    ⟨[], fun _ hj => absurd hj List.not_mem_nil, by rw [List.append_nil, List.append_nil]⟩
  cases job with
  | token c t =>
    obtain ⟨stamps, hstamps, heq⟩ := hlocated t.location
    exact ⟨stamps, hstamps, heq.trans (List.append_nil _).symm⟩
  | code c is =>
    cases is with
    | nil => exact hbare
    | cons i is =>
      obtain ⟨stamps, hstamps, heq⟩ := hlocated i.location
      exact ⟨stamps, hstamps, congrArg (· ++ _) heq⟩
  | _ => exact hbare

namespace Plan

/-- What a plan runs comes first, then the word lets go; what is left is harmless. -/
theorem jobs_eq {c : Context} {p : Plan} (h : p.later ≠ []) :
    ∃ front back : List Job, p.jobs c = front ++ .discard c p.later :: back ∧
      ∀ j ∈ back, j.Harmless := by
  have hnil : ∀ j ∈ ([] : List Job), j.Harmless := fun _ hj => absurd hj List.not_mem_nil
  cases p with
  | once runnable wanted answer =>
    refine ⟨_, _, List.append_assoc _ _ _, fun j hj => ?_⟩
    obtain ⟨b, -, rfl⟩ := List.mem_map.mp hj
    trivial
  | either taken skipped => exact ⟨[.value c taken], [], rfl, hnil⟩
  | loop condition body => exact ⟨[.test c condition body], [], rfl, hnil⟩
  | count runnable limit step => exact ⟨[.count c runnable (some 0) limit step], [], rfl, hnil⟩
  | refuse runnable => exact absurd rfl h

theorem jobs_ne_nil {c : Context} (p : Plan) : p.jobs c ≠ [] := by
  cases p with
  | once runnable wanted answer => cases wanted <;> exact List.cons_ne_nil _ _
  | either | loop | count | refuse => exact List.cons_ne_nil _ _

/-- What a plan lets go of later are operands, of two the second one last. -/
theorem later_cases {p : Plan} (hk : .block k ∈ p.later) :
    (∃ vs, p.later = vs ++ [.block k]) ∨
      ∃ condition, p = .loop condition (.block k) ∧ condition ≠ .block k := by
  have hone {v : Value} (hv : Value.block k ∈ [v]) : ∃ vs, [v] = vs ++ [Value.block k] :=
    ⟨[], by rw [List.mem_singleton.mp hv]; rfl⟩
  cases p with
  | once | either | count => exact Or.inl (hone hk)
  | refuse => cases hk
  | loop condition body =>
    by_cases hc : condition = .block k
    · exact Or.inl ⟨[body], by rw [hc]; rfl⟩
    · rcases List.mem_cons.mp hk with rfl | hk
      · exact Or.inr ⟨condition, rfl, hc⟩
      · exact absurd (List.mem_singleton.mp hk).symm hc

/-- An operand is let go of later; or at once, and nothing is run, or the other one. -/
theorem operands_cases {p : Plan} (hk : .block k ∈ p.operands) :
    .block k ∈ p.later ∨ p = .refuse (.block k) ∨
      ∃ taken, p = .either taken (.block k) ∧ taken ≠ .block k := by
  cases p with
  | once | loop | count => exact Or.inl hk
  | refuse => exact Or.inr (Or.inl (congrArg _ (List.mem_singleton.mp hk).symm))
  | either taken skipped =>
    by_cases ht : taken = .block k
    · exact Or.inl (List.mem_singleton.mpr ht.symm)
    · rcases List.mem_cons.mp hk with rfl | hk
      · exact Or.inr (Or.inr ⟨taken, rfl, ht⟩)
      · exact absurd (List.mem_singleton.mp hk).symm ht

/-- What has become of a block among the operands after the first step of a word: the word holds it, or
has let go of it at once, and it has gone, or something refers to it. -/
def Holds (p : Plan) (after : List Job) (k : ScopeId) (t : Thread) (m : Machine) : Prop :=
  (.block k ∈ p.later ∧ Held after p.later k t m) ∨ Held after [.block k] k t m ∨
  ∃ taken, p = .either taken (.block k) ∧ taken ≠ .block k ∧ m.arena.isReferenced k = true

/-- What has become of it when the word has returned: it has gone, or something refers to it; or something
referred to it when the word let go of it before another block. -/
def Releases (p : Plan) (after : List Job) (events : List Event) (m₁ m' : Machine) (k : ScopeId) :
    Prop :=
  m'.arena.contains k = false ∨ m'.arena.isReferenced k = true ∨
  (∃ taken, p = .either taken (.block k) ∧ taken ≠ .block k ∧ m₁.arena.isReferenced k = true) ∨
  ∃ condition, p = .loop condition (.block k) ∧ condition ≠ .block k ∧
    ∃ e ∈ events, e.Spares after p.later k

variable {p : Plan} {after : List Job} {t₁ : Thread} {m₁ : Machine}

/-- Carrying out a plan, as far as the first step of the word goes. -/
theorem holds {a₀ : Arena} {cs : List Call} {pools : List PoolId} {stamps : List Job}
    (hT : a₀.Tree) (hle : k ≤ a₀.lastScope) (hacc : Accounting a₀ cs (some rootScope) k m)
    (hk : .block k ∈ p.operands) (hall : (Context.top.discardAll p.now).run m = .ok pools m₁)
    (hstamps : ∀ j ∈ stamps, j.Harmless)
    (hnext : t₁.agenda = Job.closePools pools ++ p.jobs .top ++ stamps ++ after) :
    p.Holds after k t₁ m₁ := by
  have hP : Prunable (Accounting a₀ cs (some rootScope) k) := (Accounting.forgetful hT).toPrunable
  obtain ⟨hmoved, hacc₁⟩ := (Context.discardAll_top hP hacc p.now).of_ok hall
  have hle₁ : k ≤ m₁.arena.lastScope := Nat.le_trans hle hmoved.follows.lastScope
  have hpools := Job.closePools_harmless pools
  have hnow (he : p.now = [.block k]) :
      m₁.arena.get? k = none ∨ m₁.arena.isReferenced k = true := by
    rw [he] at hall
    exact (Context.discardAll_last hP hacc (fun _ h => h.2) []).of_ok hall
  rcases p.operands_cases hk with hlater | rfl | ⟨taken, rfl, hne⟩
  · refine Or.inl ⟨hlater, hacc₁.elim (fun hk₁ => ?_) (.gone hle₁)⟩
    obtain ⟨front, back, hjobs, hback⟩ := p.jobs_eq (c := .top) (List.ne_nil_of_mem hlater)
    have hagenda : t₁.agenda = (Job.closePools pools ++ front) ++
        .discard .top p.later :: ((back ++ stamps) ++ after) := by
      rw [hnext, hjobs]
      simp only [List.append_assoc, List.cons_append]
    exact .held hagenda (List.forall_mem_append.mpr ⟨hback, hstamps⟩) hk₁
  · have hraise : ∀ j ∈ (refuse (.block k)).jobs .top, j.Harmless :=
      List.forall_mem_singleton.mpr trivial
    have hback := List.forall_mem_append.mpr ⟨List.forall_mem_append.mpr ⟨hpools, hraise⟩, hstamps⟩
    exact Or.inr (Or.inl ((hnow rfl).elim (.gone hle₁) (.kept hnext hback)))
  · exact Or.inr ((hnow rfl).imp (.gone hle₁) fun href => ⟨taken, rfl, hne, href⟩)

/-- When the word has returned. -/
theorem Holds.releases {t' : Thread} {events trace : List Event} (h : p.Holds after k t₁ m₁)
    (h₁ : Session trace t₁ m₁) (hspawn : SpawnFree (events ++ trace))
    (hrun : WordRun after t₁ m₁ events t' m') (hreturn : t'.agenda = after) :
    p.Releases after events m₁ m' k := by
  have hdone {later : List Value} (h : Held after later k t' m') : p.Releases after events m₁ m' k :=
    (h.returned hreturn).elim (fun hgone => Or.inl (Arena.contains_eq_false.mpr hgone))
      fun href => Or.inr (Or.inl href)
  rcases h with ⟨hk, hheld⟩ | hheld | heither
  · rcases later_cases hk with hlast | ⟨condition, rfl, hne⟩
    · refine (Held.run hrun h₁ hspawn (Or.inl hlast) hheld).elim hdone fun hspared => ?_
      obtain ⟨vs, hvs⟩ := hlast
      exact absurd hvs (hspared.1 vs)
    · refine (Held.run hrun h₁ hspawn (Or.inr ⟨_, rfl⟩) hheld).elim hdone fun hspared => ?_
      exact Or.inr (Or.inr (Or.inr ⟨condition, rfl, hne, hspared.2⟩))
  · refine (Held.run hrun h₁ hspawn (Or.inl ⟨[], rfl⟩) hheld).elim hdone fun hspared => ?_
    exact absurd rfl (hspared.1 [])
  · exact Or.inr (Or.inr (Or.inl heither))

end Plan

section Words

variable {t t₁ : Thread} {m₁ : Machine} {w : ControlWord} {job : Job} {rest : List Job}

theorem Thread.status_eq_ok (h : t.status.isOk = true) : t.status = .ok () := by
  cases hs : t.status with
  | ok => rfl
  | error f =>
    rw [hs] at h
    cases h

theorem Thread.isOk_of_effect? {e : Effect} (he : t.effect? m = some e) : t.status.isOk = true := by
  unfold effect? at he
  split at he
  · rename_i hstatus _
    rw [hstatus]
    rfl
  · cases he

/-- **The step that carries out a control word of the top level.** What is missing from the stack
afterwards it has popped. If it does not get its operands, that is all that has happened; otherwise it
holds them, or has let go of them. -/
theorem Thread.step_control (hm : InOrder False False t.agenda m) (hagenda : t.agenda = job :: rest)
    (hc : job.context? = some .top) (he : t.effect? m = some (.control w))
    (hstep : t.step m = some (t₁, m₁)) :
    ∃ pre, m.arena.topCells = pre ++ m₁.arena.topCells ∧
      ((t₁.status.isOk = false ∧ t₁.agenda = t.behind t₁ ∧ m.arena.Lasts m₁.arena) ∨
        (t₁.status.isOk = true ∧ t.behind t₁ <:+ t₁.agenda ∧
          ∃ p m₂ m₃, Gains m m₂ ∧ (w.plan .top).run m₂ = .ok p m₃ ∧
            ∀ k s, Cell.block k ∈ pre → m.arena.get? k = some s → s.parent = some rootScope →
              p.Holds (t.behind t₁) k t₁ m₁)) := by
  obtain ⟨c, m₂, hc', hg, hm₂, -, hrun⟩ := Thread.step_operation hm hagenda he hstep
  cases hc.symm.trans hc'
  have hT₂ := hm₂.steady.tree
  have hcells := hg.grows.topCells hm.steady.tree
  have hpops := w.plan_pops hm₂.stays
  rcases hrun with ⟨jobs, hrun, rfl⟩ | ⟨f, hrun, rfl⟩
  · obtain ⟨p, m₃, pools, hplan, hall, rfl⟩ := (w.perform_cases m₂).of_ok hrun
    have hpop₃ := hpops.of_ok hplan
    obtain ⟨pre, hpre, hblocks⟩ := hpop₃.cells
    have hsame := (Context.discardAll_topCells hpop₃.stays.steady.tree p.now).of_ok hall
    have hok := isOk_of_effect? he
    obtain ⟨stamps, hstamps, haround⟩ := job.around_eq
      (List.append_ne_nil_of_right_ne_nil (Job.closePools pools) (p.jobs_ne_nil (c := .top)))
    have hnext (t₁ : Thread) (ht₁ : t₁.status = t.status) :
        job.around (Job.closePools pools ++ p.jobs .top) ++ rest =
          Job.closePools pools ++ p.jobs .top ++ stamps ++ t.behind t₁ := by
      rw [haround, Thread.behind, hagenda, ht₁]
      simp only [hok, if_true, List.append_assoc]
    refine ⟨pre, by rw [← hcells, hpre, hsame],
      Or.inr ⟨hok, ⟨_, (hnext _ rfl).symm⟩, p, m₂, m₃, hg, hplan, ?_⟩⟩
    intro k s hk hs hp
    -- an operand has been resolved, so the block is known
    have hpop : Keeps (Stays False False m₂.arena) Context.top.pop (Known m₂.arena) :=
      Context.pop_keeps .top
    have hknown := ((w.plan_keeps hpop m₂ hm₂.stays).of_ok hplan).2.1 _ (hblocks k hk)
    obtain ⟨s₂, hs₂, hp₂⟩ := (Arena.Lasts.still hg.grows.still).get? hs
    have hk₃ : m₃.arena.KnownUnder (some rootScope) k :=
      (Arena.Lasts.still hpop₃.stays.still).knownUnder ⟨⟨s₂, hs₂, hp₂.trans hp⟩, (hknown k rfl).2⟩
    exact Plan.holds hT₂ (hT₂.forest.le_last hs₂) ⟨hpop₃.stays.moved hT₂ hm₂, Or.inl hk₃⟩
      (hblocks k hk) hall hstamps (hnext _ rfl)
  · rcases (w.perform_cases m₂).of_error hrun with hplan | ⟨p, m₃, hplan, hall⟩
    · have hpop₁ := hpops.of_error hplan
      obtain ⟨pre, hpre, -⟩ := hpop₁.cells
      refine ⟨pre, by rw [← hcells, hpre], Or.inl ⟨rfl, ?_, ?_⟩⟩
      · rw [Thread.behind, hagenda]
        rfl
      · exact (Arena.Lasts.still hg.grows.still).trans (.still hpop₁.stays.still)
    · have htree := (hpops.of_ok hplan).stays.steady.tree
      exact ((Context.discardAll_topCells htree p.now).of_error hall).elim

/-- **What a control word of the top level leaves behind**, when it has returned. What it has popped is
what is missing from the stack after its first step. If it has failed to get its operands, every block
that it has popped is still there. Otherwise every block among them that was written at the top level has
gone or is referred to; unless something referred to it when the word let go of it before the other
one. -/
theorem Session.control_word_leaves {trace events : List Event} {t' : Thread} (h : Session trace t m)
    (hspawn : SpawnFree (events ++ .step t m m₁ :: trace)) (hhead : t.agenda.head? = some job)
    (hc : job.context? = some .top) (he : t.effect? m = some (.control w))
    (hstep : t.step m = some (t₁, m₁)) (hrun : WordRun (t.behind t₁) t₁ m₁ events t' m')
    (hreturn : t'.agenda = t.behind t₁) :
    ∃ pre, m.arena.topCells = pre ++ m₁.arena.topCells ∧
      ((t₁.status.isOk = false ∧
          ∀ k, Cell.block k ∈ pre → m.arena.contains k = true → m'.arena.contains k = true) ∨
        (t₁.status.isOk = true ∧ ∃ p m₂ m₃, Gains m m₂ ∧ (w.plan .top).run m₂ = .ok p m₃ ∧
          ∀ k s, Cell.block k ∈ pre → m.arena.get? k = some s → s.parent = some rootScope →
            p.Releases (t.behind t₁) events m₁ m' k)) := by
  have hspawn₁ : SpawnFree (.step t m m₁ :: trace) := fun e he =>
    hspawn e (List.mem_append_right _ he)
  have hm : InOrder False False t.agenda m := h.inOrder hspawn₁.of_cons False.elim False.elim
  obtain ⟨rest, hagenda⟩ := List.head?_eq_some_iff.mp hhead
  obtain ⟨pre, hpre, ⟨hfail, hback, hlasts⟩ | ⟨hok, -, p, m₂, m₃, hg, hplan, hholds⟩⟩ :=
    Thread.step_control hm hagenda hc he hstep
  · refine ⟨pre, hpre, Or.inl ⟨hfail, fun k _ hk => ?_⟩⟩
    obtain ⟨s, hs⟩ := Arena.contains_iff.mp hk
    obtain ⟨s₁, hs₁, -⟩ := hlasts.get? hs
    exact Arena.contains_iff.mpr ⟨s₁, (hrun.arena_eq hback).2.symm ▸ hs₁⟩
  · refine ⟨pre, hpre, Or.inr ⟨hok, p, m₂, m₃, hg, hplan, fun k s hk hs hp => ?_⟩⟩
    exact (hholds k s hk hs hp).releases (h.step hstep) hspawn hrun hreturn

/-- `true [ 1 ] [ 2 ] if`: the word has let go of both blocks when it returns. -/
theorem Session.control_word_leaves_none : ∃ trace t m t₁ m₁ events t' m', ∃ p : Plan,
    Session trace t m ∧ t.effect? m = some (.control .branch) ∧ t.step m = some (t₁, m₁) ∧
    WordRun (t.behind t₁) t₁ m₁ events t' m' ∧ t'.agenda = t.behind t₁ ∧
    m.arena.contains 2 = true ∧ p.Releases (t.behind t₁) events m₁ m' 2 := by
  obtain ⟨hsession, -⟩ := Environment.execution_session 15 "true [ 1 ] [ 2 ] if"
  have hfacts : (fun run : List Event × Thread × Machine =>
      run.2.1.agenda.head?.bind Job.context? = some .top ∧
      run.2.1.effect? run.2.2 = some (.control .branch) ∧
      (run.2.2.arena.get? 2).map (·.parent) = some (some rootScope) ∧
      Cell.block 2 ∈ run.2.2.arena.topCells ∧
      (run.2.1.step run.2.2).map (fun r => decide (
        SpawnFree ((r.1.record 6 r.2).1 ++ .step run.2.1 run.2.2 r.2 :: run.1) ∧
        r.1.status.isOk = true ∧ r.2.arena.topCells = [] ∧
        r.1.staysAbove (run.2.1.behind r.1).length 6 r.2 = true ∧
        (r.1.record 6 r.2).2.1.agenda.length = (run.2.1.behind r.1).length)) = some true)
      (Environment.execution 15 "true [ 1 ] [ 2 ] if") := by decide +kernel
  generalize Environment.execution 15 "true [ 1 ] [ 2 ] if" = run at hsession hfacts
  obtain ⟨hctx, heffect, hparent, hmem, hnext⟩ := hfacts
  obtain ⟨⟨t₁, m₁⟩, hstep, hnext⟩ := Option.map_eq_some_iff.mp hnext
  obtain ⟨hspawn, hok, hempty, habove, hlength⟩ := of_decide_eq_true hnext
  obtain ⟨s, hs, hp⟩ := Option.map_eq_some_iff.mp hparent
  obtain ⟨job, hhead, hc⟩ := Option.bind_eq_some_iff.mp hctx
  have hspawn₁ : SpawnFree run.1 := fun e he =>
    hspawn e (List.mem_append_right _ (List.mem_cons_of_mem _ he))
  have hm : InOrder False False run.2.1.agenda run.2.2 :=
    hsession.inOrder hspawn₁ False.elim False.elim
  obtain ⟨rest, hagenda⟩ := List.head?_eq_some_iff.mp hhead
  have hsuffix : run.2.1.behind t₁ <:+ t₁.agenda := by
    obtain ⟨pre, -, ⟨hfail, -⟩ | ⟨-, hsuffix, -⟩⟩ := Thread.step_control hm hagenda hc heffect hstep
    · rw [hok] at hfail
      cases hfail
    · exact hsuffix
  obtain ⟨hrun, hsuffix'⟩ := WordRun.start.record hsuffix habove
  rw [List.append_nil] at hrun
  have hreturn := (hsuffix'.eq_of_length hlength.symm).symm
  obtain ⟨pre, hpre, ⟨hfail, -⟩ | ⟨-, p, m₂, m₃, -, -, hreleases⟩⟩ :=
    hsession.control_word_leaves hspawn hhead hc heffect hstep hrun hreturn
  · rw [hok] at hfail
    cases hfail
  · rw [hempty, List.append_nil] at hpre
    exact ⟨_, _, _, _, _, _, _, _, p, hsession, heffect, hstep, hrun, hreturn,
      Arena.contains_iff.mpr ⟨s, hs⟩, hreleases 2 s (hpre ▸ hmem) hs hp⟩

/-- **A control word that does not find its operands leaves behind what it has popped**: `[ 1 ] when` fails
because there is no boolean; the block is still there, and nothing refers to it. -/
theorem Session.popped_block_left : ∃ trace t m t₁ m₁, Session trace t m ∧ SourceOnly trace ∧
    SpawnFree (.step t m m₁ :: trace) ∧ t.agenda.head?.bind Job.context? = some .top ∧
    t.effect? m = some (.control .when) ∧ t.step m = some (t₁, m₁) ∧
    WordRun (t.behind t₁) t₁ m₁ [] t₁ m₁ ∧ t₁.agenda = t.behind t₁ ∧
    t₁.failure?.map (·.fault) = some .emptyStack ∧
    m.arena.topCells = Cell.block 2 :: m₁.arena.topCells ∧
    (m₁.arena.get? 2).bind (·.parent) = some rootScope ∧ m₁.arena.isReferenced 2 = false := by
  obtain ⟨hsession, hsource⟩ := Environment.execution_session 7 "[ 1 ] when"
  have hfacts : (fun run : List Event × Thread × Machine =>
      run.2.1.agenda.head?.bind Job.context? = some .top ∧
      run.2.1.effect? run.2.2 = some (.control .when) ∧
      (run.2.1.step run.2.2).map (fun r => decide (
        SpawnFree (.step run.2.1 run.2.2 r.2 :: run.1) ∧
        r.1.failure?.map (·.fault) = some .emptyStack ∧ r.1.status.isOk = false ∧
        run.2.2.arena.topCells = Cell.block 2 :: r.2.arena.topCells ∧
        (r.2.arena.get? 2).bind (·.parent) = some rootScope ∧
        r.2.arena.isReferenced 2 = false)) = some true)
      (Environment.execution 7 "[ 1 ] when") := by decide +kernel
  generalize Environment.execution 7 "[ 1 ] when" = run at hsession hsource hfacts
  obtain ⟨hctx, heffect, hnext⟩ := hfacts
  obtain ⟨⟨t₁, m₁⟩, hstep, hnext⟩ := Option.map_eq_some_iff.mp hnext
  obtain ⟨hspawn, hfault, hfailed, hcells, hparent, href⟩ := of_decide_eq_true hnext
  obtain ⟨job, hhead, hc⟩ := Option.bind_eq_some_iff.mp hctx
  obtain ⟨rest, hagenda⟩ := List.head?_eq_some_iff.mp hhead
  have hm : InOrder False False run.2.1.agenda run.2.2 :=
    hsession.inOrder hspawn.of_cons False.elim False.elim
  have hreturn : t₁.agenda = run.2.1.behind t₁ := by
    obtain ⟨pre, -, ⟨-, hback, -⟩ | ⟨hok, -⟩⟩ := Thread.step_control hm hagenda hc heffect hstep
    · exact hback
    · rw [hok] at hfailed
      cases hfailed
  exact ⟨_, _, _, _, _, hsession, hsource, hspawn, hctx, heffect, hstep, .start, hreturn, hfault, hcells,
    hparent, href⟩

end Words

end ScopeStack
