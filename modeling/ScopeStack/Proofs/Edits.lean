import ScopeStack.Proofs.Regular

/-!
# What code does to the arena

Whatever code a process runs, it changes the arena in a few ways only. What holds of all code is
proved of each of these ways once.

* `Placed`: a context in which code of a process runs; `Head`: the process does run.
* `Edit`: **one change that code in a context may make.** Changes that reach into another process are
  marked as such, and so are changes of a stack that is about to go.
* `Edits`: changes in a row, and where it is allowed changes of what scopes list as their calls. They
  keep the arena regular and whatever another context relies on (`Edits.regular_drifts`,
  `Placed.drifts`).
* `Edits.callsOf`: **where it is not allowed, no scope lists another call than before.**
* `Arena.Discreet`: no new names for the top level from code in a block, and no pool but for the process.
  `Edits.discreet`: **code is discreet.**
-/

namespace ScopeStack

/-! ## 1. Contexts -/

/-- The process runs: it is the top level, or a scope that is marked so. -/
def Head (a : Arena) (p : ScopeId) : Prop :=
  p = rootScope ∨ ∃ s, a.get? p = some s ∧ s.running = true

/-- Code of the process `p` may run here. The stacks in use are those of calls and of the process
itself, each once. -/
structure Placed (a : Arena) (p : ScopeId) (c : Context) : Prop where
  process : c.process = p
  scope_le : c.scope ≤ a.lastScope
  linked {s : Scope} : a.get? c.scope = some s → a.Linked c.scope
  stack_le {σ : StackId} : σ ∈ c.callStacks → σ ≤ a.lastStack
  nodup : c.callStacks.Nodup
  apart {k : ScopeId} {s : Scope} : a.get? k = some s → s.stack ∈ c.callStacks → k = p
  bare : c.callStacks = [] → c.scope = p ∧ c.base = some p
  base : c.base = none ∨ (c.base = some p ∧ ∀ s, a.get? p = some s → s.stack ∉ c.callStacks)

namespace Arena.Drifts

variable {a b : Arena} {p : ScopeId}

/-- A process that runs is not ended by others. -/
theorem head (hD : a.Drifts b) (hp : Head a p) : Head b p := by
  refine hp.imp_right fun ⟨s, hs, hrun⟩ => ?_
  obtain ⟨t, ht, hrun', -⟩ := hD.kept hs (Or.inr hrun)
  exact ⟨t, ht, hrun'.trans hrun⟩

end Arena.Drifts

theorem Head.get? {a : Arena} {p : ScopeId} (hT : a.Tree) (hp : Head a p) :
    ∃ s, a.get? p = some s ∧ (p = rootScope ∨ s.running = true) := by
  rcases hp with rfl | ⟨s, hs, hrun⟩
  · obtain ⟨s, hs, -⟩ := hT.root
    exact ⟨s, hs, Or.inl rfl⟩
  · exact ⟨s, hs, Or.inr hrun⟩

/-- **What others do does not concern a context.** -/
theorem Placed.drifts {a b : Arena} {p : ScopeId} {c : Context} (hT : a.Tree) (hD : a.Drifts b)
    (hp : Head a p) (hc : Placed a p c) : Placed b p c where
  process := hc.process
  scope_le := Nat.le_trans hc.scope_le hD.lastScope
  linked {t} ht := by
    rcases hD.of_get? ht with ⟨s, hs, -⟩ | ⟨hlt, -⟩
    · exact hD.linked (hc.linked hs) ht
    · exact absurd hc.scope_le (Nat.not_le_of_lt hlt)
  stack_le hσ := Nat.le_trans (hc.stack_le hσ) hD.lastStack
  nodup := hc.nodup
  apart {k t} ht hσ := by
    have hle := hc.stack_le hσ
    rcases hD.of_get? ht with ⟨s, hs, he | hlt⟩ | ⟨-, hlt⟩
    · exact hc.apart hs (he ▸ hσ)
    · exact absurd hle (Nat.not_le_of_lt hlt)
    · exact absurd hle (Nat.not_le_of_lt hlt)
  bare := hc.bare
  base := by
    refine hc.base.imp_right fun ⟨hb, hown⟩ => ⟨hb, fun t ht => ?_⟩
    obtain ⟨s, hs, hk⟩ := hp.get? hT
    obtain ⟨t', ht', -, hst⟩ := hD.kept hs hk
    cases ht.symm.trans ht'
    rw [hst]
    exact hown s hs

/-- The stack that pushes go to. -/
def Context.Owns (c : Context) (a : Arena) (σ : StackId) : Prop :=
  c.callStacks.head? = some σ ∨ (c.callStacks = [] ∧ ∃ s, a.get? c.scope = some s ∧ s.stack = σ)

/-! ## 2. Changes -/

/-- What the top level has names for, and what concerns pools. -/
def Scope.belongings (s : Scope) :
    OperationTable × Std.TreeMap String Cell × Option PoolId × Bool :=
  (s.operations, s.bindings, s.pool, s.running)

/-- The change suits code in the context `c`: in a block it gives the top level no new name, and no scope
gets a pool but that of the process. -/
structure Arena.Discreet (a : Arena) (c : Context) (b : Arena) : Prop where
  names {r t : Scope} : c.scope ≠ rootScope → a.get? rootScope = some r →
    b.get? rootScope = some t →
    t.operations = r.operations ∧ ∀ name, t.binds name = true → r.binds name = true
  pools {k : ScopeId} {t : Scope} : b.get? k = some t → t.pool ≠ none → k = c.process ∨
    ∃ s, a.get? k = some s ∧ s.pool ≠ none ∧ (s.running = true → t.running = true)

namespace Arena.Discreet

variable {a b d : Arena} {c : Context}

/-- Scopes that were there have the variables and operations they had, and no scope gets a pool. -/
theorem of_get? (h : ∀ k t, b.get? k = some t → (a.get? k = none ∧ t.pool = none) ∨
    ∃ s, a.get? k = some s ∧ t.operations = s.operations ∧ t.bindings = s.bindings ∧
      (t.pool = none ∨ (t.pool = s.pool ∧ (s.running = true → t.running = true)))) :
    a.Discreet c b where
  names {r t} _ hr ht := by
    rcases h rootScope t ht with ⟨hnone, -⟩ | ⟨s, hs, hops, hbindings, -⟩
    · rw [hr] at hnone
      cases hnone
    · cases hr.symm.trans hs
      refine ⟨hops, fun name hb => ?_⟩
      rw [Scope.binds, hbindings] at hb
      exact hb
  pools {k t} ht hpool := by
    rcases h k t ht with ⟨-, hnone⟩ | ⟨s, hs, -, -, hnone | ⟨hsame, hrun⟩⟩
    · exact absurd hnone hpool
    · exact absurd hnone hpool
    · exact Or.inr ⟨s, hs, hsame ▸ hpool, hrun⟩

/-- Scopes come without a pool, and keep what belongs to them. -/
theorem of_new (h : ∀ k t, b.get? k = some t → (a.get? k = none ∧ t.pool = none) ∨
    ∃ s, a.get? k = some s ∧ t.belongings = s.belongings) : a.Discreet c b :=
  of_get? fun k t ht => (h k t ht).imp_right fun ⟨s, hs, heq⟩ => by
    simp only [Scope.belongings, Prod.mk.injEq] at heq
    obtain ⟨hops, hbindings, hpool, hrun⟩ := heq
    exact ⟨s, hs, hops, hbindings, Or.inr ⟨hpool, hrun.trans⟩⟩

theorem of_belongings (h : ∀ k t, b.get? k = some t →
    ∃ s, a.get? k = some s ∧ t.belongings = s.belongings) : a.Discreet c b :=
  of_new fun k t ht => Or.inr (h k t ht)

theorem of_scopes (hget : ∀ k, b.get? k = a.get? k) : a.Discreet c b :=
  of_belongings fun k t ht => ⟨t, (hget k).symm.trans ht, rfl⟩

theorem of_map {f : ScopeId → Scope → Scope} (hget : ∀ k, b.get? k = (a.get? k).map (f k))
    (hf : ∀ k s, (f k s).belongings = s.belongings) : a.Discreet c b :=
  of_belongings fun k t ht => by
    rw [hget] at ht
    obtain ⟨s, hs, rfl⟩ := Option.map_eq_some_iff.mp ht
    exact ⟨s, hs, hf k s⟩

theorem modify (a : Arena) (id : ScopeId) {f : Scope → Scope}
    (hf : ∀ s, (f s).belongings = s.belongings) : a.Discreet c (a.modify id f) :=
  of_map (Arena.get?_modify_map a id · f) fun k s => by
    split
    · exact hf s
    · rfl

/-- A scope changes; if it is the top level, and code in a block changes it, it gets no new name. -/
theorem of_modify (a : Arena) (id : ScopeId) {f : Scope → Scope}
    (hpool : ∀ s, (f s).pool = s.pool ∧ (f s).running = s.running)
    (hnames : c.scope ≠ rootScope → ∀ s, id = rootScope → a.get? id = some s →
      (f s).operations = s.operations ∧ ∀ name, (f s).binds name = true → s.binds name = true) :
    a.Discreet c (a.modify id f) where
  names {r t} hc hr ht := by
    obtain ⟨s, hs, ⟨-, rfl⟩ | ⟨hid, rfl⟩⟩ := get?_modify_cases ht
    · cases hr.symm.trans hs
      exact ⟨rfl, fun _ h => h⟩
    · cases hr.symm.trans hs
      exact hnames hc r hid.symm (hid ▸ hr)
  pools {k t} ht hne := by
    obtain ⟨s, hs, ⟨-, rfl⟩ | ⟨-, rfl⟩⟩ := get?_modify_cases ht
    · exact Or.inr ⟨t, hs, hne, fun h => h⟩
    · exact Or.inr ⟨s, hs, (hpool s).1 ▸ hne, (hpool s).2.trans⟩

/-- The process gets a pool. -/
theorem ownPool (a : Arena) (id : PoolId) :
    a.Discreet c (a.modify c.process fun s => { s with pool := some id }) where
  names {r t} _ hr ht := by
    obtain ⟨s, hs, ⟨-, rfl⟩ | ⟨-, rfl⟩⟩ := get?_modify_cases ht <;> cases hr.symm.trans hs
    · exact ⟨rfl, fun _ h => h⟩
    · exact ⟨rfl, fun _ h => h⟩
  pools {k t} ht hne := by
    obtain ⟨s, hs, ⟨-, rfl⟩ | ⟨hk, -⟩⟩ := get?_modify_cases ht
    · exact Or.inr ⟨t, hs, hne, fun h => h⟩
    · exact Or.inl hk

theorem grows (hG : a.Grows b) : a.Discreet c b :=
  of_belongings fun k t ht => by
    obtain ⟨s, hs, -⟩ := hG.still.get? ht
    obtain ⟨t', ht', hts, -⟩ := hG.get? hs
    cases ht.symm.trans ht'
    exact ⟨s, hs, by rw [hts]; rfl⟩

theorem trans (hT : b.Tree) (hab : a.Discreet c b) (hbd : b.Discreet c d) : a.Discreet c d where
  names {r u} hc hr hu := by
    obtain ⟨t, ht, -⟩ := hT.root
    obtain ⟨hops, hbinds⟩ := hab.names hc hr ht
    obtain ⟨hops', hbinds'⟩ := hbd.names hc ht hu
    exact ⟨hops'.trans hops, fun name hb => hbinds name (hbinds' name hb)⟩
  pools {k u} hu hpool := by
    rcases hbd.pools hu hpool with hk | ⟨t, ht, hpool', hrun'⟩
    · exact Or.inl hk
    · refine (hab.pools ht hpool').imp_right ?_
      rintro ⟨s, hs, hpool'', hrun⟩
      exact ⟨s, hs, hpool'', fun h => hrun' (hrun h)⟩

end Arena.Discreet

/-- A push session of the process is open. -/
def Arena.InSession (a : Arena) (p : ScopeId) : Prop :=
  ∃ r, a.get? p = some r ∧ r.pushTarget ≠ none

/-- One change that code in the context `c` may make, in a job that started with the arena `a₀`. Only
where `talks` holds may it reach into other processes. The stacks that are `spare` are those of calls
that are over. -/
inductive Edit (a₀ : Arena) (talks : Prop) (spare : StackId → Prop) (c : Context) (a : Arena) :
    Arena → Prop where
  /-- Something is interned, defined, forgotten or compiled. -/
  | refill {b : Arena} : a.Refills b → (∀ k, b.callsOf k = a.callsOf k) → a.Discreet c b →
      Edit a₀ talks spare c a b
  /-- The innermost stack changes. -/
  | put {σ : StackId} (f : CellStack → CellStack) : c.Owns a σ →
      Edit a₀ talks spare c a (a.modifyStack σ f)
  /-- A cell is popped. -/
  | pop {σ : StackId} {cell : Cell} : c.top? a = .ok (some (σ, cell)) →
      Edit a₀ talks spare c a (a.popCell σ)
  /-- The stack of a call that is over changes, or goes. -/
  | spend {σ : StackId} (f : CellStack → CellStack) : spare σ →
      Edit a₀ talks spare c a (a.modifyStack σ f)
  | drop {σ : StackId} : spare σ → Edit a₀ talks spare c a (a.dropStack σ)
  /-- A call gets a stack. -/
  | newStack : Edit a₀ talks spare c a a.newStack.2
  /-- A block goes that nothing refers to. -/
  | prune {top : ScopeId} {b : Arena} : top ≠ rootScope → a.Unreferenced top → a.Pruned top b →
      Edit a₀ talks spare c a b
  /-- A block is opened in a scope that is gone. -/
  | stray {target : ScopeId} {shares : Bool} {b : Arena} : a.get? target = none →
      target ≤ a.lastScope → a.Added target shares b → Edit a₀ talks spare c a b
  /-- A block is opened. -/
  | opened {r s : Scope} {shares : Bool} {b : Arena} : a.get? c.process = some r →
      a.get? (r.compileStack.headD c.scope) = some s →
      a.Added (r.compileStack.headD c.scope) shares b →
      Edit a₀ talks spare c a (b.opening c.process)
  /-- A block is finished. -/
  | finished {r s : Scope} {block parent : ScopeId} : a.get? c.process = some r →
      r.compileStack.head? = some block → a.get? block = some s → s.parent = some parent →
      Edit a₀ talks spare c a (a.finish c.process block parent)
  /-- A block is finished and pushed onto the own stack of the scope it is in. -/
  | delivered {r s t : Scope} {block parent : ScopeId} (f : CellStack → CellStack) :
      a.get? c.process = some r → r.compileStack.head? = some block → a.get? block = some s →
      s.parent = some parent → a.get? parent = some t →
      Edit a₀ talks spare c a ((a.finish c.process block parent).modifyStack t.stack f)
  /-- The stack of another process changes, by a push session or by a word. -/
  | send {σ : StackId} (f : CellStack → CellStack) : talks ∨ a.InSession c.process →
      Edit a₀ talks spare c a (a.modifyStack σ f)
  /-- A push session is opened or closed. -/
  | session (target : Option Pid) : talks ∨ a.InSession c.process →
      Edit a₀ talks spare c a (a.modify c.process fun s => { s with pushTarget := target })
  /-- A block becomes a process. -/
  | claim {block : ScopeId} {s : Scope} (pid : Pid) : talks → a.get? block = some s →
      s.running = false → a.Linked block → block ≠ rootScope →
      Edit a₀ talks spare c a (a.claiming block pid)
  /-- A process that could not be started ends. -/
  | clear {block : ScopeId} : talks → block ≠ rootScope →
      (∀ s, a₀.get? block = some s → s.running = false) →
      Edit a₀ talks spare c a (a.modify block (·.cleared))

/-- Changes in a row. Only where `lists` holds a call is listed with its block, or taken off the list. -/
inductive Edits (lists talks : Prop) (spare : StackId → Prop) (c : Context) (a₀ : Arena) :
    Arena → Prop where
  | refl : Edits lists talks spare c a₀ a₀
  | step {a b : Arena} : Edits lists talks spare c a₀ a → Edit a₀ talks spare c a b →
      Edits lists talks spare c a₀ b
  | relist {a b : Arena} : lists → Edits lists talks spare c a₀ a → a.Refills b → a.Discreet c b →
      Edits lists talks spare c a₀ b

section Edit

variable {a₀ a b : Arena} {lists talks : Prop} {spare : StackId → Prop} {c : Context} {p : ScopeId}

/-- **A change keeps the arena regular and does not concern other contexts.** -/
theorem Edit.regular_drifts (h : Edit a₀ talks spare c a b) (hF : a₀.Forest) (hR : a.Regular)
    (hD : a₀.Drifts a) (hc : Placed a p c) : b.Regular ∧ a₀.Drifts b := by
  have hT := hR.tree
  have hscopes {b : Arena} (hget : ∀ k, b.get? k = a.get? k) (hknown : b.known = a.known)
      (hscope : b.lastScope = a.lastScope) (hstack : a.lastStack ≤ b.lastStack) :
      b.Regular ∧ a₀.Drifts b := by
    have hS : a.Still b := ⟨fun k => by rw [hget], hknown, hscope, hstack⟩
    refine ⟨hR.of_scopes hget hknown hscope hstack,
      hD.trans hF (.of_alike hS.alike hstack fun k s t hs ht => ?_)⟩
    rw [hget, hs] at ht
    cases ht
    exact ⟨rfl, rfl⟩
  have hstacks (σ : StackId) (f : CellStack → CellStack) :
      (a.modifyStack σ f).Regular ∧ a₀.Drifts (a.modifyStack σ f) :=
    hscopes (fun _ => rfl) rfl rfl (Nat.le_refl _)
  have htrans {b : Arena} (h : b.Regular ∧ a.Drifts b) : b.Regular ∧ a₀.Drifts b :=
    ⟨h.1, hD.trans hF h.2⟩
  cases h with
  | refill h _ _ => exact htrans ⟨hR.refills h, .refills h⟩
  | put f _ => exact hstacks _ f
  | pop _ => exact hstacks _ _
  | spend f _ => exact hstacks _ f
  | drop _ => exact hscopes (fun _ => rfl) rfl rfl (Nat.le_refl _)
  | newStack => exact hscopes (fun _ => rfl) rfl rfl (Nat.le_succ _)
  | prune hne hU hP =>
    refine htrans ⟨hR.pruned hP hne, Arena.Regular.drifts_pruned hT.forest hP hU fun hm => hne ?_⟩
    rw [hT.chain_root] at hm
    exact List.mem_singleton.mp hm
  | stray hnone hle hA =>
    refine htrans (hR.added hA hle fun s hs => ?_)
    rw [hnone] at hs
    cases hs
  | opened hr hs hA =>
    refine htrans (hR.opening hs ?_ hA)
    rename_i r s shares b
    cases ho : r.compileStack with
    | nil =>
      rw [ho] at hs
      exact hc.linked hs
    | cons k rest =>
      have hk : k ∈ r.compileStack := by
        rw [ho]
        exact List.mem_cons_self
      rw [ho] at hs
      exact hT.open_linked hr hk hs
  | finished hr hk hs hp => exact htrans (hR.finish hr hk hs hp)
  | delivered f hr hk hs hp ht =>
    obtain ⟨hR', hD'⟩ := hR.finish hr hk hs hp
    refine ⟨hR'.of_scopes (fun _ => rfl) rfl rfl (Nat.le_refl _), ?_⟩
    refine hD.trans hF (hD'.trans hT.forest (.of_alike (Arena.Still.modifyStack ..).alike
      (Nat.le_refl _) fun k s t hs ht => ?_))
    cases hs.symm.trans ht
    exact ⟨rfl, rfl⟩
  | send f _ => exact hstacks _ f
  | session target _ =>
    have hA : a.Alike (a.modify c.process fun s => { s with pushTarget := target }) :=
      .modify _ _ (fun s => { s with pushTarget := target }) fun s _ =>
        ⟨rfl, rfl, fun h => h, fun k hk => Or.inl hk⟩
    have hof {k : ScopeId} {s t : Scope} (hs : a.get? k = some s)
        (ht : (a.modify c.process fun s => { s with pushTarget := target }).get? k = some t) :
        t = s ∨ t = { s with pushTarget := target } := by
      obtain ⟨s', hs', ⟨-, he⟩ | ⟨-, he⟩⟩ := Arena.get?_modify_cases ht
      · cases hs.symm.trans hs'
        exact Or.inl he
      · cases hs.symm.trans hs'
        exact Or.inr he
    refine htrans ⟨hR.of_alike hA (fun id x t ht hx => ?_) (Nat.le_refl _) fun k s t hs ht => ?_,
      .of_alike hA (Nat.le_refl _) fun k s t hs ht => ?_⟩
    · obtain ⟨s, hs, -⟩ := hA.get? ht
      rcases hof hs ht with rfl | rfl
      · exact hR.bound id x t hs hx
      · exact hR.bound id x s hs hx
    · rcases hof hs ht with rfl | rfl <;> exact ⟨rfl, rfl, rfl, rfl, rfl⟩
    · rcases hof hs ht with rfl | rfl <;> exact ⟨rfl, rfl⟩
  | claim pid _ hs hrun hl hne => exact htrans (hR.claiming hs hrun hl hne pid)
  | clear _ hne hidle => exact ⟨hR.cleared _, hD.cleared hne hidle⟩

/-- A change that lists no call. -/
theorem Edit.callsOf (h : Edit a₀ talks spare c a b) (hF : a.Forest) (k : ScopeId) :
    b.callsOf k = a.callsOf k := by
  cases h with
  | refill _ hcalls _ => exact hcalls k
  | put | pop | spend | drop | newStack | send => rfl
  | prune _ hU hP => exact hP.callsOf hU k
  | stray _ _ hA => exact hA.callsOf hF k
  | opened _ _ hA =>
    exact (Arena.callsOf_map (Arena.get?_opening _ _ k) fun _ => rfl).trans (hA.callsOf hF k)
  | finished => exact Arena.callsOf_map (Arena.get?_finish a _ _ _ k) fun _ => rfl
  | delivered f =>
    rename_i r s t block parent _ _ _ _ _
    exact Arena.callsOf_map (Arena.get?_finish a c.process block parent k) fun _ => rfl
  | session target =>
    exact Arena.callsOf_modify _ _ (f := fun s => { s with pushTarget := target }) (fun _ => rfl) k
  | claim pid =>
    exact Arena.callsOf_modify a.newStack.2 _ (f := (·.claimed pid a.newStack.1)) (fun _ => rfl) k
  | clear => exact Arena.callsOf_modify _ _ (f := (·.cleared)) (fun _ => rfl) k

/-- A change is discreet. -/
theorem Edit.discreet (h : Edit a₀ talks spare c a b) (hF : a.Forest) : a.Discreet c b := by
  have hadded {target k : ScopeId} {shares : Bool} {b : Arena} {t : Scope}
      (hA : a.Added target shares b) (ht : b.get? k = some t) : (a.get? k = none ∧ t.pool = none) ∨
      ∃ s, a.get? k = some s ∧ t.belongings = s.belongings := by
    rcases hA.of_get? ht with ⟨rfl, rfl⟩ | ⟨s, hs, rfl⟩
    · exact Or.inl ⟨hF.get?_of_last_lt (Nat.lt_succ_self _), rfl⟩
    · exact Or.inr ⟨s, hs, rfl⟩
  cases h with
  | refill _ _ h => exact h
  | put | pop | spend | drop | newStack | send => exact .of_scopes fun _ => rfl
  | prune _ _ hP =>
    refine .of_belongings fun k t ht => ?_
    obtain ⟨-, s, hs, hts, -⟩ := hP.of_get? ht
    exact ⟨s, hs, by rw [hts]; rfl⟩
  | stray _ _ hA => exact .of_new fun k t ht => hadded hA ht
  | opened _ _ hA =>
    refine .of_new fun k t ht => ?_
    rw [Arena.get?_opening] at ht
    obtain ⟨u, hu, rfl⟩ := Option.map_eq_some_iff.mp ht
    show (a.get? k = none ∧ u.pool = none) ∨ ∃ s, a.get? k = some s ∧ u.belongings = s.belongings
    exact hadded hA hu
  | finished => exact .of_map (Arena.get?_finish a _ _ _) fun _ _ => rfl
  | delivered f =>
    rename_i r s t block parent _ _ _ _ _
    exact .of_map (Arena.get?_finish a c.process block parent) fun _ _ => rfl
  | session target => exact .modify _ _ (f := fun s => { s with pushTarget := target }) fun _ => rfl
  | claim pid =>
    rename_i block s _ _ _ _ _
    refine .of_get? fun k t ht => ?_
    rw [Arena.get?_claiming] at ht
    obtain ⟨s, hs, rfl⟩ := Option.map_eq_some_iff.mp ht
    refine Or.inr ⟨s, hs, ?_⟩
    split
    · exact ⟨rfl, rfl, Or.inr ⟨rfl, fun _ => rfl⟩⟩
    · exact ⟨rfl, rfl, Or.inr ⟨rfl, id⟩⟩
  | clear =>
    refine .of_get? fun k t ht => ?_
    obtain ⟨s, hs, ⟨-, rfl⟩ | ⟨-, rfl⟩⟩ := Arena.get?_modify_cases ht
    · exact Or.inr ⟨t, hs, rfl, rfl, Or.inr ⟨rfl, id⟩⟩
    · exact Or.inr ⟨s, hs, rfl, rfl, Or.inl rfl⟩

/-- **Changes in a row keep the arena regular, and what runs goes on.** -/
theorem Edits.regular_drifts (h : Edits lists talks spare c a₀ a) (hR : a₀.Regular) (hp : Head a₀ p)
    (hc : Placed a₀ p c) : a.Regular ∧ a₀.Drifts a := by
  have hF := hR.tree.forest
  induction h with
  | refl => exact ⟨hR, .refl a₀⟩
  | step _ he ih =>
    obtain ⟨hR', hD⟩ := ih
    exact he.regular_drifts hF hR' hD (hc.drifts hR.tree hD hp)
  | relist _ _ h _ ih => exact ⟨ih.1.refills h, ih.2.trans hF (.refills h)⟩

/-- **Code that begins and ends no call leaves the calls of every scope as they are.** -/
theorem Edits.callsOf (h : Edits False talks spare c a₀ a) (hR : a₀.Regular) (hp : Head a₀ p)
    (hc : Placed a₀ p c) (k : ScopeId) : a.callsOf k = a₀.callsOf k := by
  induction h with
  | refl => rfl
  | step hes he ih => exact (he.callsOf (hes.regular_drifts hR hp hc).1.tree.forest k).trans ih
  | relist h _ _ _ _ => exact h.elim

/-- **Code in a block gives the top level no new names, and no code makes a pool for another process.** -/
theorem Edits.discreet (h : Edits lists talks spare c a₀ a) (hR : a₀.Regular) (hp : Head a₀ p)
    (hc : Placed a₀ p c) : a₀.Discreet c a := by
  induction h with
  | refl => exact .of_scopes fun _ => rfl
  | step hes he ih =>
    have hT := (hes.regular_drifts hR hp hc).1.tree
    exact ih.trans hT (he.discreet hT.forest)
  | relist _ hes _ hd ih => exact ih.trans (hes.regular_drifts hR hp hc).1.tree hd

theorem Edits.listing (h : Edits False talks spare c a₀ a) : Edits True talks spare c a₀ a := by
  induction h with
  | refl => exact .refl
  | step _ he ih => exact .step ih he
  | relist h _ _ _ _ => exact h.elim

/-- Changes after a call has been taken off the list. -/
theorem Edits.after_relist {a₁ : Arena} (hlists : lists) (h₀ : a₀.Refills a₁)
    (hd : a₀.Discreet c a₁) (h : Edits lists talks spare c a₁ a) : Edits lists talks spare c a₀ a := by
  induction h with
  | refl => exact .relist hlists .refl h₀ hd
  | step _ he ih =>
    refine .step ih ?_
    cases he with
    | refill h hcalls hd => exact .refill h hcalls hd
    | put f h => exact .put f h
    | pop h => exact .pop h
    | spend f h => exact .spend f h
    | drop h => exact .drop h
    | newStack => exact .newStack
    | prune hne hU hP => exact .prune hne hU hP
    | stray hnone hle hA => exact .stray hnone hle hA
    | opened hr hs hA => exact .opened hr hs hA
    | finished hr hk hs hp => exact .finished hr hk hs hp
    | delivered f hr hk hs hp ht => exact .delivered f hr hk hs hp ht
    | send f h => exact .send f h
    | session target h => exact .session target h
    | claim pid ht hs hrun hl hne => exact .claim pid ht hs hrun hl hne
    | clear ht hne hidle =>
      refine .clear ht hne fun s hs => ?_
      obtain ⟨t, ht, he⟩ := h₀.get?_of hs
      exact (Scope.eq_of_outline (·.running) (fun _ => rfl) he).symm.trans (hidle t ht)
  | relist _ _ h hd ih => exact .relist hlists ih h hd

end Edit

end ScopeStack
