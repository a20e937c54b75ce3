import ScopeStack.Proofs.Plans
import ScopeStack.Proofs.Sessions

/-!
# What operations leave in the arena

An operation adds scopes, or changes what they contain, and takes none out; unless it lets go of blocks.
Forgetting a variable does, and so does a control word of the top level that can do without one of its
operands.

* `Arena.Lasts`: **every scope is still there, where it was, and what is known is known.** `Lasting`: the
  invariant, kept by the actions on values and blocks.
* `Effect.letsGo`: the operations that may take scopes out. `Effect.lasts`: **no other one does.**
* `Arena.KnownUnder`: a block is there, hangs from a scope, and is known to the top level.
  `Effect.accounts`: an operation leaves such a block as it is, or takes it out.
-/

namespace ScopeStack

open ScopeStack.Action

/-! ## 1. Scopes that stay -/

namespace Arena

/-- Every scope is still there, where it was, and what is known is known. -/
structure Lasts (a b : Arena) : Prop where
  get? {k : ScopeId} {s : Scope} : a.get? k = some s → ∃ t, b.get? k = some t ∧ t.parent = s.parent
  known {k j : ScopeId} : j ∈ a.scopesKnowing k → j ∈ b.scopesKnowing k

namespace Lasts

theorem refl (a : Arena) : a.Lasts a := ⟨fun {_ s} hs => ⟨s, hs, rfl⟩, fun h => h⟩

theorem trans {a b c : Arena} (hab : a.Lasts b) (hbc : b.Lasts c) : a.Lasts c where
  get? hs := by
    obtain ⟨t, ht, hp⟩ := hab.get? hs
    obtain ⟨u, hu, hq⟩ := hbc.get? ht
    exact ⟨u, hu, hq.trans hp⟩
  known h := hbc.known (hab.known h)

theorem of_alike {a b : Arena} (hA : a.Alike b) : a.Lasts b where
  get? hs := by
    obtain ⟨t, ht, hp, -⟩ := hA.get?_of hs
    exact ⟨t, ht, hp⟩
  known h := (hA.known _).symm ▸ h

theorem still {a b : Arena} (hS : a.Still b) : a.Lasts b := .of_alike hS.alike

theorem modify (a : Arena) (id : ScopeId) {f : Scope → Scope} (hf : ∀ s, (f s).parent = s.parent) :
    a.Lasts (a.modify id f) where
  get? {k s} hs := by
    rw [get?_modify]
    by_cases hk : k = id
    · rw [if_pos hk, ← hk, hs]
      exact ⟨f s, rfl, hf s⟩
    · rw [if_neg hk]
      exact ⟨s, hs, rfl⟩
  known h := h

theorem added {a b : Arena} (hF : a.Forest) {parent : ScopeId} {shares : Bool}
    (hA : a.Added parent shares b) : a.Lasts b where
  get? hs := ⟨_, hA.get?_of hF hs, rfl⟩
  known h := (hA.known _).symm ▸ h

theorem registerBlock (a : Arena) (block : ScopeId) : a.Lasts (a.registerBlock block).2 := by
  unfold Arena.registerBlock
  split
  · exact .refl a
  · split
    · exact .refl a
    · exact ⟨fun {_ s} hs => ⟨s, hs, rfl⟩, fun h =>
        (mem_scopesKnowing_makeKnown _ _ _ _ _).mpr (Or.inl h)⟩

theorem intern {α : Type} [BEq α] [Interned α] [GrowingTable α] (a : Arena) (hash : α → Handle)
    (id : ScopeId) (v : α) : a.Lasts (a.intern hash id v).2 := by
  unfold Arena.intern
  dsimp only
  split
  · exact .refl a
  · exact .still (insertAll_grows _ _ _ _).still

end Lasts

end Arena

/-- Since `a₀` no scope has been taken out. -/
def Lasting (a₀ : Arena) (m : Machine) : Prop := a₀.Lasts m.arena

variable {honest kept : Prop} {a₀ : Arena} {c : Context} {m m' : Machine}

theorem Stays.lasting (h : Stays honest kept a₀ m) : Lasting a₀ m := .still h.still

/-! ## 2. Actions that take nothing out -/

section Reading

variable {P : Machine → Prop}

theorem inArena_reads {α : Type} (f : Arena → Except Fault α) : Keeps P (inArena f) fun _ => True :=
  fun _ hm => ends_inArena.mpr ⟨fun _ _ => ⟨hm, trivial⟩, fun _ _ => hm⟩

theorem getScope_reads (id : ScopeId) : Keeps P (getScope id) fun _ => True := inArena_reads _

theorem ownStack_reads (c : Context) : Keeps P c.ownStack fun _ => True := by
  unfold Context.ownStack
  split
  · exact .pure trivial
  · exact (getScope_reads _).bind fun _ _ => .pure trivial

theorem pushTarget_reads (c : Context) : Keeps P c.pushTarget fun _ => True :=
  (getScope_reads _).bind fun _ _ => .pure trivial

theorem ofPid_reads (c : Context) (pid : Pid) : Keeps P (c.ofPid pid) fun _ => True :=
  Keeps.get_bind fun _ _ => (Keeps.ofExcept fun _ _ => trivial).bind fun _ (_ : True) =>
    .pure trivial

/-- The value of a block is the block. -/
theorem resolveCell_reads (c : Context) (cell : Cell) :
    Keeps P (c.resolveCell cell) fun v => ∀ k, cell = .block k → v = .block k := by
  cases cell with
  | bool | int => exact .pure fun _ h => (by cases h)
  | big | double | str | word =>
    exact (inArena_reads _).bind fun _ _ => .pure fun _ h => (by cases h)
  | block h =>
    refine (inArena_reads _).bind fun _ _ => .pure fun k he => ?_
    cases he
    rfl

end Reading

theorem modifyArena_lasting {f : Arena → Arena} (hf : ∀ a : Arena, a.Lasts (f a)) :
    Keeps (Lasting a₀) (modifyArena f) fun _ => True :=
  fun _ hm => ⟨Arena.Lasts.trans hm (hf _), trivial⟩

theorem modifyScope_lasting (id : ScopeId) {f : Scope → Scope} (hf : ∀ s, (f s).parent = s.parent) :
    Keeps (Lasting a₀) (modifyScope id f) fun _ => True :=
  modifyArena_lasting fun a => .modify a id hf

theorem modifyStack_lasting (σ : StackId) (f : CellStack → CellStack) :
    Keeps (Lasting a₀) (modifyArena (·.modifyStack σ f)) fun _ => True :=
  modifyArena_lasting fun a => .still (.modifyStack a σ f)

theorem changeArena_lasting {α : Type} {f : Arena → Except Fault α × Arena}
    (hf : ∀ a : Arena, a.Lasts (f a).2) : Keeps (Lasting a₀) (changeArena f) fun _ => True :=
  fun _ hm => ends_changeArena.mpr
    ⟨fun _ _ => ⟨Arena.Lasts.trans hm (hf _), trivial⟩, fun _ _ => Arena.Lasts.trans hm (hf _)⟩

namespace Context

theorem internPayload_lasting {α : Type} [BEq α] [Interned α] [Arena.GrowingTable α]
    (hash : ContentHash → α → Handle) (v : α) :
    Keeps (Lasting a₀) (internPayload hash c v) fun _ => True :=
  Keeps.get_bind fun _ _ => changeArena_lasting fun a => .intern a _ _ v

theorem internValue_lasting (v : Value) : Keeps (Lasting a₀) (c.internValue v) fun _ => True := by
  cases v with
  | bool | int | block => exact .pure trivial
  | big | double | str | word => exact (internPayload_lasting _ _).bind fun _ _ => .pure trivial

theorem pushLocal_lasting (v : Value) : Keeps (Lasting a₀) (c.pushLocal v) fun _ => True :=
  (internValue_lasting v).bind fun _ _ => (ownStack_reads c).bind fun σ _ => modifyStack_lasting σ _

theorem sendTo_lasting (pid : Pid) (v : Value) : Keeps (Lasting a₀) (c.sendTo pid v) fun _ => True :=
  (ofPid_reads c pid).bind fun _ _ => pushLocal_lasting v

theorem push_lasting (v : Value) : Keeps (Lasting a₀) (c.push v) fun _ => True := by
  refine (pushTarget_reads c).bind fun target _ => ?_
  cases target with
  | some pid => exact sendTo_lasting pid v
  | none => exact pushLocal_lasting v

theorem pushCell_lasting (cell : Cell) : Keeps (Lasting a₀) (c.pushCell cell) fun _ => True := by
  refine (pushTarget_reads c).bind fun target _ => ?_
  cases target with
  | some pid => exact (resolveCell_reads c cell).bind fun v _ => sendTo_lasting pid v
  | none => exact (ownStack_reads c).bind fun σ _ => modifyStack_lasting σ _

theorem compileAtom_lasting (a : Atom) : Keeps (Lasting a₀) (c.compileAtom a) fun _ => True := by
  cases a with
  | int | bool => exact .pure trivial
  | number n => cases n <;> exact (internPayload_lasting _ _).bind fun _ _ => .pure trivial
  | str | word => exact (internPayload_lasting _ _).bind fun _ _ => .pure trivial

theorem finishBlock_lasting (kind : BlockKind) (location : Location) :
    Keeps (Lasting a₀) (c.finishBlock kind location) fun _ => True := by
  refine (getScope_reads _).bind fun s _ => ?_
  refine (Keeps.ofOption fun _ _ => trivial).bind fun child (_ : True) => ?_
  refine (getScope_reads _).bind fun b _ => ?_
  dsimp only
  split
  · exact fun _ hm => hm
  · refine Keeps.bind (modifyScope_lasting _ fun _ => rfl) fun _ _ => ?_
    refine Keeps.bind (modifyScope_lasting _ fun _ => rfl) fun _ _ => ?_
    refine (getScope_reads _).bind fun _ _ => ?_
    refine (changeArena_lasting fun a => .registerBlock a child).bind fun _ _ => ?_
    refine (getScope_reads _).bind fun p _ => ?_
    split
    · exact Keeps.bind (modifyScope_lasting _ fun _ => rfl) fun _ _ => .pure trivial
    · exact .pure trivial

theorem closeBlock_lasting (kind : BlockKind) (location : Location) :
    Keeps (Lasting a₀) (c.closeBlock kind location) fun _ => True := by
  refine (finishBlock_lasting kind location).bind ?_
  rintro ⟨child, parent?⟩ -
  cases parent? with
  | none => exact .pure trivial
  | some parent => exact pushCell_lasting _

theorem sharedStacks_reads {P : Machine → Prop} : Keeps P c.sharedStacks fun _ => True := by
  unfold sharedStacks
  split
  · exact .pure trivial
  · exact (getScope_reads _).bind fun _ _ => .pure trivial

theorem callBlock_lasting (h : Handle) : Keeps (Lasting a₀) (c.callBlock h) Job.NothingDue := by
  have hprepare : Keeps (Lasting a₀) (c.prepareCall h) fun _ => True := by
    refine (inArena_reads _).bind fun block _ => (getScope_reads _).bind fun s _ => ?_
    dsimp only
    split
    · exact fun _ hm => hm
    split
    · exact sharedStacks_reads.bind fun _ _ => .pure trivial
    · refine Keeps.get_bind fun m hm => ?_
      intro m' _
      exact ⟨Arena.Lasts.trans hm (.still (.newStack _)), trivial⟩
  have henter (call : Call) : Keeps (Lasting a₀) (enterCall call) fun _ => True :=
    (getScope_reads _).bind fun _ _ => modifyScope_lasting _ fun _ => rfl
  have hbegin : Keeps (Lasting a₀) (c.beginCall h) fun _ => True :=
    hprepare.bind fun r _ => (henter r.2).bind fun _ _ => .pure trivial
  refine hbegin.bind fun r _ => .pure fun job hm => ?_
  rcases List.mem_cons.mp hm with rfl | hm
  · rfl
  · rw [List.mem_singleton.mp hm]
    rfl

theorem handBack_lasting (callee : Context) (call : Call) :
    Keeps (Lasting a₀) (c.handBack callee call) fun _ => True := by
  unfold handBack
  split
  · refine Keeps.get_bind fun m _ => ?_
    split
    · exact .pure trivial
    · exact (modifyStack_lasting _ _).bind fun _ _ =>
        (resolveCell_reads callee _).bind fun v _ => push_lasting v
  · exact .pure trivial

/-- A block that is opened is the only change. -/
theorem openBlock_lasts {cs : List Call} (hm : Moved honest kept m.arena cs m) (hc : Seated m.arena c)
    (kind : BlockKind) :
    (c.openBlock kind).Ends m (fun _ m' => m.arena.Lasts m'.arena) fun _ m' =>
      m.arena.Lasts m'.arena := by
  have hO := hm.steady.toOrderly
  obtain ⟨hle, -⟩ := target_linked hO hc
  unfold openBlock
  rw [ends_bind, compileTarget_ends hc.process hO.tree, ends_bind, ends_changeArena]
  obtain ⟨hA, -⟩ := Arena.createChild_added hle kind.shares
  generalize (m.arena.createChild _ kind.shares).2 = b at hA ⊢
  have hadded : Lasting m.arena { m with arena := b } := Arena.Lasts.added hO.tree.forest hA
  refine ⟨fun child _ => ?_, fun _ _ => hadded⟩
  have htail : Keeps (Lasting m.arena) (getScope c.process >>= fun _ =>
      modifyScope c.process fun s => { s with compileStack := child :: s.compileStack }) fun _ => True :=
    (getScope_reads _).bind fun _ _ => modifyScope_lasting _ fun _ => rfl
  exact (htail _ hadded).mono (fun _ _ h => h.1) fun _ _ h => h

end Context

theorem dropCallStack_lasting (call : Call) :
    Keeps (Lasting a₀) (dropCallStack call) fun _ => True := by
  unfold dropCallStack
  split
  · exact .pure trivial
  · exact modifyArena_lasting fun a => .still (.dropStack a _)

/-! ## 3. Operations -/

/-- May the operation take scopes out, in this context? -/
def Effect.letsGo (e : Effect) (c : Context) : Bool :=
  match e with
  | .scope .forget => true
  | .control w => w.letsGo && c.scope == rootScope
  | _ => false

/-- Below the top level nothing is let go of. -/
theorem Context.discardTransient_below (hT : a₀.Tree) (hc : Seated a₀ c) (hne : c.scope ≠ rootScope)
    (v : Value) : Keeps (Stays honest kept a₀) (c.discardTransient v) fun _ => True := by
  intro m hm
  cases v with
  | block h =>
    obtain ⟨s, hs⟩ := (hm.still.linked hc.linked).get?
    obtain ⟨p, hp⟩ := (hm.still.tree hT).root_ne_parent hs hne
    unfold discardTransient
    dsimp only
    rw [ends_bind, ends_getScope_some hs, hp]
    exact ⟨hm, trivial⟩
  | bool | int | big | double | str | word => exact ⟨hm, trivial⟩

/-- **An operation that does not let go takes nothing out**, unless it spawns a process. -/
theorem Effect.lasts {cs : List Call} (hm : Moved honest kept m.arena cs m) (hc : Seated m.arena c)
    {e : Effect} (he : e.letsGo c = false) :
    (e.perform c).Ends m (fun _ m' => m.arena.Lasts m'.arena ∨ LastIs 1 m')
      fun _ m' => m.arena.Lasts m'.arena ∨ LastIs 1 m' := by
  have hT := hm.steady.tree
  have H : Handles (Stays honest kept m.arena) (Known m.arena) c := hc.handles hT
  have hstay {α : Type} {x : Action α} {good : α → Prop}
      (h : Keeps (Stays honest kept m.arena) x good) :
      x.Ends m (fun _ m' => m.arena.Lasts m'.arena ∨ LastIs 1 m')
        fun _ m' => m.arena.Lasts m'.arena ∨ LastIs 1 m' :=
    (h m hm.stays).mono (fun _ _ h => Or.inl h.1.lasting) fun _ _ h => Or.inl h.lasting
  have hdone (jobs : List Job) : Keeps (Stays honest kept m.arena) (pure jobs) fun _ => True :=
    .pure trivial
  have hvalue {x : Action Unit} (h : Keeps (Stays honest kept m.arena) x fun _ => True) :
      (x >>= fun _ => (pure [] : Action (List Job))).Ends m
        (fun _ m' => m.arena.Lasts m'.arena ∨ LastIs 1 m')
        fun _ m' => m.arena.Lasts m'.arena ∨ LastIs 1 m' :=
    hstay (h.bind fun _ _ => hdone [])
  cases e with
  | output w => exact hvalue (w.keeps H)
  | stack w => exact hvalue (w.keeps H)
  | arith w => exact hvalue (w.keeps H)
  | compare w => exact hvalue (w.keeps H)
  | text w => exact hvalue (w.keeps H)
  | list w => exact hvalue (w.keeps H)
  | control w =>
    show (w.perform c).Ends m _ _
    rw [w.perform_eq]
    refine hstay ((w.plan_keeps H.pop).bind fun p hp => Plan.carryOut_keeps fun v hv => ?_)
    by_cases hroot : c.scope = rootScope
    · have hno : w.letsGo = false := by simpa [letsGo, hroot] using he
      rw [hp.2 hno] at hv
      cases hv
    · exact Context.discardTransient_below hT hc hroot v
  | scope w =>
    cases w with
    | define => exact hvalue (popDefinition_keeps hc false)
    | defineStrict => exact hvalue (popDefinition_keeps hc true)
    | forget => cases he
    | eval | load => exact hstay (H.popText.bind fun _ _ => hdone _)
  | process w =>
    by_cases hw : w = .spawn
    · subst hw
      show (popSpawn c >>= fun _ => (pure [] : Action (List Job))).Ends m _ _
      rw [ends_bind]
      exact (popSpawn_ends hc hm.stays).mono (fun _ _ h => h.imp_left Stays.lasting)
        fun _ _ h => h.imp_left Stays.lasting
    · exact hstay (ProcessWord.keeps H endPush_keeps stop_keeps w hw fun _ => converses hT hc)
  | host x => exact hstay (x.keeps H)

/-! ## 4. Blocks that are known -/

/-- The block is there, hangs from this scope, and is known to the top level. -/
structure Arena.KnownUnder (a : Arena) (p : Option ScopeId) (k : ScopeId) : Prop where
  there : ∃ s, a.get? k = some s ∧ s.parent = p
  known : rootScope ∈ a.scopesKnowing k

/-- The block is known, or it is not there. -/
def Arena.Accounts (p : Option ScopeId) (k : ScopeId) (a : Arena) : Prop :=
  a.KnownUnder p k ∨ a.get? k = none

section Known

variable {a b : Arena} {p : Option ScopeId} {k : ScopeId}

theorem known_block_iff : Known a (.block k) ↔ ∃ p, a.KnownUnder p k := by
  constructor
  · intro h
    obtain ⟨⟨s, hs⟩, hk⟩ := h k rfl
    exact ⟨s.parent, ⟨s, hs, rfl⟩, hk⟩
  · rintro ⟨p, ⟨s, hs, -⟩, hk⟩ h he
    cases he
    exact ⟨⟨s, hs⟩, hk⟩

theorem Arena.Lasts.knownUnder (hL : a.Lasts b) (h : a.KnownUnder p k) : b.KnownUnder p k := by
  obtain ⟨⟨s, hs, hp⟩, hk⟩ := h
  obtain ⟨t, ht, hq⟩ := hL.get? hs
  exact ⟨⟨t, ht, hq.trans hp⟩, hL.known hk⟩

theorem Arena.Still.absent (hS : a.Still b) (h : a.get? k = none) : b.get? k = none := by
  refine Option.eq_none_iff_forall_ne_some.mpr fun t ht => ?_
  obtain ⟨s, hs, -⟩ := hS.get? ht
  rw [h] at hs
  cases hs

/-- A scope that has gone is not there again: its id is not given twice. -/
theorem Arena.Follows.absent {cs : List Call} (hf : Follows cs a b) (hle : k ≤ a.lastScope)
    (h : a.get? k = none) : b.get? k = none := by
  refine Option.eq_none_iff_forall_ne_some.mpr fun t ht => ?_
  obtain ⟨s, hs⟩ := hf.back hle ht
  rw [h] at hs
  cases hs

theorem Arena.Still.accounts (hS : a.Still b) (h : a.Accounts p k) : b.Accounts p k :=
  h.imp (Lasts.still hS).knownUnder hS.absent

theorem Arena.Pruned.accounts {top : ScopeId} (hP : a.Pruned top b) (h : a.Accounts p k) :
    b.Accounts p k := by
  rcases h with ⟨⟨s, hs, hp⟩, hk⟩ | hgone
  · by_cases htop : top ∈ a.chain k
    · exact Or.inr (hP.gone htop)
    · obtain ⟨cs, hcs, -⟩ := hP.kept hs htop
      exact Or.inl ⟨⟨_, hcs, hp⟩, (hP.known htop).symm ▸ hk⟩
  · exact Or.inr (hP.absent hgone)

/-- Moved, and the block is known or not there. -/
def Accounting (a₀ : Arena) (cs : List Call) (p : Option ScopeId) (k : ScopeId) (m : Machine) : Prop :=
  Moved False False a₀ cs m ∧ m.arena.Accounts p k

variable {cs : List Call}

/-- What leaves the scopes where they are leaves a block known. -/
theorem Action.Keeps.accounting {α : Type} {x : Action α} {good : Arena → α → Prop} (hT : a₀.Tree)
    (h : ∀ a, Keeps (Stays False False a) x (good a)) :
    Keeps (Accounting a₀ cs p k) x fun _ => True :=
  fun m ⟨hm, hk⟩ => (h m.arena m hm.stays).mono
    (fun _ _ h => ⟨⟨h.1.moved hT hm, h.1.still.accounts hk⟩, trivial⟩)
    fun _ _ h => ⟨h.moved hT hm, h.still.accounts hk⟩

/-- **A block that goes is not there afterwards, and any other one is known as before.** -/
theorem Accounting.forgetful (hT : a₀.Tree) : Forgetful (Accounting a₀ cs p k) where
  tree hm := hm.1.steady.tree
  discard {m top pools b} hm hne hr hd :=
    ⟨(Moved.prunable hT).discard hm.1 hne hr hd,
      (Arena.discard_pruned hm.1.steady.tree.forest hd).accounts hm.2⟩
  bound hm hs hb := hm.1.steady.bound hs hb
  unbind owner name hm :=
    ⟨(Moved.forgetful hT fun h => h).unbind owner name hm.1,
      (Arena.Still.modify _ owner (·.unbind name) fun _ => rfl).accounts hm.2⟩
  erase {m} owner {f} hf hm := by
    have hcore (s : Scope) : (f s).core = s.core := by
      rw [hf s]
      rfl
    exact ⟨(Moved.forgetful hT fun h => h).erase owner hf hm.1,
      (Arena.Still.modify _ owner f hcore).accounts hm.2⟩

/-- **After an operation a block that was known is known, or it has been taken out.** -/
theorem Effect.accounts (hm : Moved False False m.arena cs m) (hc : Seated m.arena c) (e : Effect)
    (hk : m.arena.KnownUnder p k) :
    (e.perform c).Ends m (fun _ m' => m'.arena.Accounts p k ∨ LastIs 1 m')
      fun _ m' => m'.arena.Accounts p k ∨ LastIs 1 m' := by
  have hT := hm.steady.tree
  have hP : Forgetful (Accounting m.arena cs p k) := Accounting.forgetful hT
  have hpop : Keeps (Accounting m.arena cs p k) c.pop fun _ => True :=
    Keeps.accounting hT fun _ => Context.pop_keeps c
  have hkeep {good : List Job → Prop} {x : Action (List Job)}
      (h : Keeps (Accounting m.arena cs p k) x good) :
      x.Ends m (fun _ m' => m'.arena.Accounts p k ∨ LastIs 1 m')
        fun _ m' => m'.arena.Accounts p k ∨ LastIs 1 m' :=
    (h m ⟨hm, Or.inl hk⟩).mono (fun _ _ h => Or.inl h.1.2) fun _ _ h => Or.inl h.2
  have hlasts (he : e.letsGo c = false) : (e.perform c).Ends m
      (fun _ m' => m'.arena.Accounts p k ∨ LastIs 1 m')
      fun _ m' => m'.arena.Accounts p k ∨ LastIs 1 m' :=
    (Effect.lasts hm hc he).mono (fun _ _ h => h.imp_left fun h => Or.inl (h.knownUnder hk))
      fun _ _ h => h.imp_left fun h => Or.inl (h.knownUnder hk)
  cases e with
  | control w =>
    exact hkeep (w.keeps (Context.discardTransient_keeps hP.toPrunable c) hpop)
  | scope w =>
    cases w with
    | forget =>
      refine hkeep ((popText_keeps hpop).bind fun name _ => (?_ : Keeps _ _ fun _ => True))
      refine (Context.forget_keeps hP c name).bind fun r _ => ?_
      cases r with
      | some pools => exact .pure trivial
      | none => exact .fail _
    | define | defineStrict | eval | load => exact hlasts rfl
  | output | stack | arith | compare | text | list | process | host => exact hlasts rfl

end Known

end ScopeStack
