import ScopeStack.Proofs.Lookups

/-!
# The innermost stack as a list

Words that take the stack for a list read the innermost stack, change the list and write it back.
Reading looks every cell up, and writing interns every value once more, so the list that comes back is
the one that was written. Values without doubles go through this whole: what a cell of the scope stands
for stays so while other values are interned.

* `Context.Holding`: what is on the innermost stack. **Reading gives that and nothing else**
  (`Holding.of_outcome`, `Holding.stackValues`).
* `Lists`: a context has values on its innermost stack. `Lists.stackValues`, `Lists.setStackValues`,
  `Lists.pop`, `Lists.push`: **reading, writing, popping and pushing do to the list what they say.**
-/

namespace ScopeStack

open ScopeStack.Action

/-! ## 1. Cells and lists of values -/

namespace Arena

variable {a b : Arena} {k : ScopeId} {v : Value}

theorem Reads.reverse {cells : List Cell} {vs : List Value} (h : a.Reads k cells vs) :
    a.Reads k cells.reverse vs.reverse := by
  unfold Reads at h ⊢
  rw [List.map_reverse, List.map_reverse, h]

theorem Reads.append {cells more : List Cell} {vs ws : List Value} (h : a.Reads k cells vs)
    (hmore : a.Reads k more ws) : a.Reads k (cells ++ more) (vs ++ ws) := by
  unfold Reads at h hmore ⊢
  rw [List.map_append, List.map_append, h, hmore]

theorem Admits.modifyStack (h : a.Admits k v) (σ : StackId) (f : CellStack → CellStack) :
    (a.modifyStack σ f).Admits k v := by
  refine ⟨h.plain, h.cell.imp_left ?_⟩
  intro ⟨cell, hcell⟩
  exact ⟨cell, (valueOf_modifyStack ..).trans hcell⟩

theorem Admits.grows (h : a.Admits k v) (hG : a.Grows b)
    (hkept : ∀ cell w, a.valueOf k cell = .ok w → b.valueOf k cell = .ok w) : b.Admits k v := by
  refine ⟨h.plain, h.cell.imp ?_ ?_⟩
  · intro ⟨cell, hcell⟩
    exact ⟨cell, hkept cell v hcell⟩
  · intro ⟨⟨s, hs⟩, hno⟩
    obtain ⟨t, ht, -⟩ := hG.get? hs
    exact ⟨⟨t, ht⟩, hno⟩

end Arena

namespace Context

variable {c : Context} {m : Machine}

/-- **Values are interned one after another**: their cells stand for them, and all other cells stand for
what they stood for, wherever they are looked at. -/
theorem internValues_stored {vs : List Value} (hF : m.arena.Forest)
    (hvs : ∀ v ∈ vs, m.arena.Admits c.scope v) :
    (vs.mapM c.internValue).Ends m
      (fun cells m' => m' = { m with arena := m'.arena } ∧ m.arena.Grows m'.arena ∧
        (∀ k cell w, m.arena.valueOf k cell = .ok w → m'.arena.valueOf k cell = .ok w) ∧
        m'.arena.Reads c.scope cells vs)
      fun _ _ => False := by
  induction vs generalizing m with
  | nil => exact ⟨rfl, .refl _, fun _ _ _ h => h, rfl⟩
  | cons v vs ih =>
    rw [List.mapM_cons]
    refine (internValue_stored hF (hvs v List.mem_cons_self)).bind ?_
    intro cell m₁ ⟨hrest₁, hG₁, hkept₁, hcell⟩
    refine (ih (hG₁.still.alike.forest hF) fun w hw =>
      (hvs w (List.mem_cons_of_mem _ hw)).grows hG₁ (hkept₁ c.scope)).bind ?_
    intro cells m₂ ⟨hrest₂, hG₂, hkept₂, hcells⟩
    refine ⟨?_, hG₁.trans hG₂, fun k cell w hw => hkept₂ k cell w (hkept₁ k cell w hw),
      Arena.reads_cons.mpr ⟨v, vs, rfl, hkept₂ c.scope cell v hcell, hcells⟩⟩
    rw [hrest₂, hrest₁]

theorem resolveCells_stands (hT : m.arena.Tree) (c : Context) (cells : List Cell) :
    (cells.mapM c.resolveCell).Ends m (fun vs m' => m' = m ∧ m.arena.Reads c.scope cells vs)
      fun _ _ => True := by
  induction cells with
  | nil => exact ⟨rfl, rfl⟩
  | cons cell cells ih =>
    rw [List.mapM_cons]
    refine Ends.bind (resolveCell_stands hT c cell) ?_
    intro v m' ⟨he, hv⟩
    subst he
    refine Ends.bind ih ?_
    intro vs m'' ⟨he, hvs⟩
    subst he
    exact ⟨rfl, Arena.reads_cons.mpr ⟨v, vs, rfl, hv, hvs⟩⟩

theorem ends_resolveCells_of_reads {cells : List Cell} {vs : List Value}
    (h : m.arena.Reads c.scope cells vs) {Q : List Value → Machine → Prop}
    {E : Failure → Machine → Prop} : (cells.mapM c.resolveCell).Ends m Q E ↔ Q vs m := by
  induction cells generalizing vs Q with
  | nil =>
    rw [Arena.reads_nil.mp h]
    exact Iff.rfl
  | cons cell cells ih =>
    obtain ⟨v, ws, rfl, hv, hws⟩ := Arena.reads_cons.mp h
    rw [List.mapM_cons, ends_bind, ends_resolveCell_of_valueOf hv, ends_bind, ih hws]
    exact Iff.rfl

end Context

/-! ## 2. The innermost stack -/

/-- These values are on the innermost stack of the context, the bottom first. -/
structure Context.Holding (c : Context) (a : Arena) (σ : StackId) (vs : List Value) : Prop where
  owns : c.Owns a σ
  reads : a.Reads c.scope (a.stackCells σ) vs.reverse

namespace Context.Holding

variable {c : Context} {m : Machine} {σ : StackId} {vs : List Value}

/-- **The list that is read** is what the cells of the innermost stack stand for. -/
theorem of_outcome (hT : m.arena.Tree) (howns : c.Owns m.arena σ)
    (h : c.stackValues.outcome m = (.ok vs, m)) : c.Holding m.arena σ vs := by
  have hread : c.stackValues.Ends m
      (fun vs m' => m' = m ∧ m.arena.Reads c.scope (m.arena.stackCells σ).reverse vs)
      fun _ _ => True := by
    unfold Context.stackValues
    rw [ends_bind, howns.ends_ownStack, ends_bind, ends_get]
    exact resolveCells_stands hT c _
  rcases hread.outcome with ⟨ws, m', ho, -, hws⟩ | ⟨f, m', ho, -⟩
  · cases h.symm.trans ho
    have hcells := hws.reverse
    rw [List.reverse_reverse] at hcells
    exact ⟨howns, hcells⟩
  · cases h.symm.trans ho

/-- **What is there is read.** -/
theorem stackValues (h : c.Holding m.arena σ vs) : c.stackValues.run m = .ok vs m := by
  have hread := h.reads.reverse
  rw [List.reverse_reverse] at hread
  have hends : c.stackValues.Ends m (fun ws m' => ws = vs ∧ m' = m) fun _ _ => False := by
    unfold Context.stackValues
    rw [ends_bind, h.owns.ends_ownStack, ends_bind, ends_get, ends_resolveCells_of_reads hread]
    exact ⟨rfl, rfl⟩
  obtain ⟨ws, m', hrun, rfl, rfl⟩ := hends.run_eq_ok
  exact hrun

theorem outcome (h : c.Holding m.arena σ vs) : c.stackValues.outcome m = (.ok vs, m) := by
  rw [Action.outcome, h.stackValues]

end Context.Holding

/-- The context has these values on its innermost stack, the bottom first. They are some of the values
of a pool, each of which a cell of the scope can stand for. Pushes go to this process, if to any. -/
structure Lists (pool : List Value) (target : Option Pid) (p : ScopeId) (c : Context) (m : Machine)
    (vs : List Value) : Prop where
  starts : Starts m.arena p c
  session {r : Scope} : m.arena.get? p = some r → r.pushTarget = target
  cells {σ : StackId} {rest : List StackId} : c.stackChain m.arena = σ :: rest →
    m.arena.Reads c.scope (m.arena.stackCells σ) vs.reverse
  among {v : Value} : v ∈ vs → v ∈ pool
  admits {v : Value} : v ∈ pool → m.arena.Admits c.scope v

namespace Lists

variable {pool : List Value} {target : Option Pid} {p : ScopeId} {c : Context} {m : Machine}
  {v : Value} {vs ws : List Value}

/-- Where code may run, the list that is read is on the innermost stack. -/
theorem of_stackValues (hS : Starts m.arena p c)
    (hsession : ∀ r, m.arena.get? p = some r → r.pushTarget = target)
    (hvs : c.stackValues.outcome m = (.ok vs, m)) (hplain : ∀ v ∈ vs, v.isDouble = false) :
    Lists vs target p c m vs := by
  have hread {σ : StackId} {rest : List StackId} (hchain : c.stackChain m.arena = σ :: rest) :
      m.arena.Reads c.scope (m.arena.stackCells σ) vs.reverse := by
    obtain ⟨τ, others, hτ, howns⟩ := hS.exists_owns
    cases hchain.symm.trans hτ
    exact (Context.Holding.of_outcome hS.regular.tree howns hvs).reads
  refine ⟨hS, hsession _, hread, fun h => h, fun hv => ⟨hplain _ hv, Or.inl ?_⟩⟩
  obtain ⟨σ, rest, hchain, -⟩ := hS.exists_owns
  obtain ⟨cell, -, hcell⟩ := (hread hchain).exists_cell (List.mem_reverse.mpr hv)
  exact ⟨cell, hcell⟩

/-- The pool grows. -/
theorem add (hm : Lists pool target p c m vs) (others : List Value)
    (hothers : ∀ v ∈ others, m.arena.Admits c.scope v) :
    Lists (others ++ pool) target p c m vs :=
  ⟨hm.starts, hm.session, hm.cells, fun hv => List.mem_append_right _ (hm.among hv), fun hv =>
    (List.mem_append.mp hv).elim (hothers _) hm.admits⟩

/-- The innermost stack changes. -/
theorem modifyStack (hm : Lists pool target p c m vs) {σ : StackId} {rest : List StackId}
    (hchain : c.stackChain m.arena = σ :: rest) (f : CellStack → CellStack)
    (hcells : m.arena.Reads c.scope (f (m.arena.stack σ)).cells ws.reverse)
    (hamong : ∀ v ∈ ws, v ∈ pool) :
    Lists pool target p c { m with arena := m.arena.modifyStack σ f } ws where
  starts := (hm.starts.modifyStack σ f).1
  session := hm.session
  cells h := by
    rw [(hm.starts.modifyStack σ f).2] at h
    cases hchain.symm.trans h
    rw [Arena.stackCells, Arena.stack_modifyStack, if_pos rfl]
    exact hcells.mono fun cell _ w hw => (Arena.valueOf_modifyStack ..).trans hw
  among {v} := hamong v
  admits hv := (hm.admits hv).modifyStack σ f

/-- Payloads come. -/
theorem grows (hm : Lists pool target p c m vs) {b : Arena} (hG : m.arena.Grows b)
    (hkept : ∀ cell w, m.arena.valueOf c.scope cell = .ok w → b.valueOf c.scope cell = .ok w) :
    Lists pool target p c { m with arena := b } vs where
  starts := (hm.starts.grows hG).1
  session ht := by
    obtain ⟨s, hs, hpush⟩ := hG.pushTarget ht
    exact hpush.trans (hm.session hs)
  cells h := by
    rw [hm.starts.stackChain_drifts (hm.starts.regular.refills (.grows hG)) (.refills (.grows hG))] at h
    rw [hG.stackCells]
    exact (hm.cells h).mono fun cell _ w => hkept cell w
  among := hm.among
  admits hv := (hm.admits hv).grows hG hkept

theorem holding (hm : Lists pool target p c m vs) : ∃ σ, c.Holding m.arena σ vs := by
  obtain ⟨σ, rest, hchain, howns⟩ := hm.starts.exists_owns
  exact ⟨σ, howns, hm.cells hchain⟩

/-- **Reading gives the list.** -/
theorem stackValues (hm : Lists pool target p c m vs) : c.stackValues.run m = .ok vs m := by
  obtain ⟨σ, hheld⟩ := hm.holding
  exact hheld.stackValues

/-- A value of the pool is interned. -/
theorem internValue (hm : Lists pool target p c m vs) (hv : v ∈ pool) :
    (c.internValue v).Ends m (fun cell m' => Lists pool target p c m' vs ∧
      m'.arena.valueOf c.scope cell = .ok v) fun _ _ => False := by
  refine (hm.starts.internValue (hm.admits hv)).mono ?_ fun _ _ hno => hno
  intro cell m' ⟨hrest, hG, hkept, hcell⟩
  refine ⟨?_, hcell⟩
  rw [hrest]
  exact hm.grows hG hkept

theorem internValues (hm : Lists pool target p c m vs) (hws : ∀ v ∈ ws, v ∈ pool) :
    (ws.mapM c.internValue).Ends m (fun cells m' => Lists pool target p c m' vs ∧
      m'.arena.Reads c.scope cells ws) fun _ _ => False := by
  refine (Context.internValues_stored hm.starts.regular.tree.forest fun v hv =>
    hm.admits (hws v hv)).mono ?_ fun _ _ hno => hno
  intro cells m' ⟨hrest, hG, hkept, hcells⟩
  refine ⟨?_, hcells⟩
  rw [hrest]
  exact hm.grows hG (hkept c.scope)

/-- **Writing replaces the list.** -/
theorem setStackValues (hm : Lists pool target p c m vs) (hws : ∀ v ∈ ws, v ∈ pool) :
    (c.setStackValues ws).Ends m (fun _ m' => Lists pool target p c m' ws) fun _ _ => False := by
  unfold Context.setStackValues
  refine (hm.internValues hws).bind ?_
  intro cells m' ⟨hm', hcells⟩
  obtain ⟨σ, rest, hchain, howns⟩ := hm'.starts.exists_owns
  rw [ends_bind, howns.ends_ownStack, ends_modifyArena]
  refine hm'.modifyStack hchain _ ?_ hws
  rw [CellStack.cells_ofList]
  exact hcells.reverse

/-- **A pop takes the last of the list.** -/
theorem pop (hm : Lists pool target p c m (vs ++ [v])) :
    ∃ m', c.pop.run m = .ok v m' ∧ Lists pool target p c m' vs := by
  obtain ⟨σ, rest, hchain, -⟩ := hm.starts.exists_owns
  have hread := hm.cells hchain
  rw [List.reverse_append] at hread
  cases hcells : m.arena.stackCells σ with
  | nil =>
    rw [hcells, Arena.reads_nil] at hread
    cases hread
  | cons cell cells =>
    rw [hcells, Arena.reads_cons] at hread
    obtain ⟨w, ws, he, hv, hws⟩ := hread
    cases he
    have htop : m.arena.topOf? (σ :: rest) = some (σ, cell) := by
      rw [Arena.topOf?, hcells]
    have hm' : Lists pool target p c { m with arena := m.arena.popCell σ } vs := by
      refine hm.modifyStack hchain _ ?_ fun w hw => hm.among (List.mem_append_left _ hw)
      rw [CellStack.cells_pop]
      show m.arena.Reads c.scope (m.arena.stackCells σ).tail vs.reverse
      rw [hcells]
      exact hws
    exact ⟨_, hm.starts.pop_run (by rw [hchain, htop]) hv, hm'⟩

/-- **A push appends to the list**, if no push session is open. -/
theorem push (hm : Lists pool none p c m vs) (hv : v ∈ pool) :
    (c.push v).Ends m (fun _ m' => Lists pool none p c m' (vs ++ [v])) fun _ _ => False := by
  rw [hm.starts.ends_push fun _ => hm.session]
  unfold Context.pushLocal
  refine (hm.internValue hv).bind ?_
  intro cell m' ⟨hm', hcell⟩
  obtain ⟨σ, rest, hchain, howns⟩ := hm'.starts.exists_owns
  rw [ends_bind, howns.ends_ownStack, ends_modifyArena]
  refine hm'.modifyStack hchain _ ?_ fun w hw => ?_
  · rw [CellStack.cells_push, List.reverse_append]
    exact Arena.reads_cons.mpr ⟨v, vs.reverse, rfl, hcell, hm'.cells hchain⟩
  · rcases List.mem_append.mp hw with hw | hw
    · exact hm'.among hw
    · cases List.mem_singleton.mp hw
      exact hv

theorem outcome (hm : Lists pool target p c m vs) : c.stackValues.outcome m = (.ok vs, m) := by
  rw [Action.outcome, hm.stackValues]

end Lists

/-! ## 3. Stacks that can come about -/

/-- At the top level a value without doubles can be interned, if it is no block. -/
theorem Arena.Regular.admits {a : Arena} (hR : a.Regular) {v : Value} (hplain : v.isDouble = false)
    (hblock : ∀ h, v ≠ .block h) : a.Admits rootScope v := by
  obtain ⟨r, hr, -⟩ := hR.tree.root
  exact ⟨hplain, Or.inr ⟨⟨r, hr⟩, hblock⟩⟩

/-- An embedder can leave any values without doubles and blocks on the stack. -/
theorem Ensemble.exists_lists (vs : List Value) (hplain : ∀ v ∈ vs, v.isDouble = false)
    (hblock : ∀ v ∈ vs, ∀ h, v ≠ .block h) :
    ∃ w : Ensemble, w.Reachable ∧ Lists vs none rootScope .top w.machine vs := by
  have hw : Reachable { machine := (Environment.freshMachine {} fun _ => none).2 } :=
    .start {} (fun _ => none) .standard
  have hS := hw.starts (Or.inl rfl)
  have hm : Lists vs none rootScope .top (Environment.freshMachine {} fun _ => none).2 [] := by
    have hnil : Lists [] none rootScope .top (Environment.freshMachine {} fun _ => none).2 [] := by
      refine .of_stackValues hS (fun r hr => ?_) rfl nofun
      rw [Environment.get?_fresh_root] at hr
      cases hr
      rfl
    have hadd := hnil.add vs fun v hv =>
      hS.regular.admits (hplain v hv) (hblock v hv)
    rwa [List.append_nil] at hadd
  obtain ⟨_, m, hrun, hm'⟩ := (hm.setStackValues fun _ hv => hv).run_eq_ok
  have hset := hw.command (.setStack vs) rfl trivial
  rw [Action.outcome, show (Command.perform (.setStack vs)).run _ = _ from hrun] at hset
  exact ⟨_, hset, hm'⟩

end ScopeStack
