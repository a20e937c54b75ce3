import ScopeStack.Proofs.Views

/-!
# Tokens and the code that transcribes them

A token may be executed as it comes, or compiled and run later as an instruction of a block. For
literals and words that only work on values the two come to the same.

* `Effect.onValues`, `Atom.isStraight`: the words and literals in question.
* `Shows.beside`: **a token and its instruction do the same** where both are shown the same.
* `Transcribes`: code that says what some tokens say; tokens are compiled into such code
  (`Compiling.transcribes`).
* `Shows.runs_alike`: **tokens one after the other and the code that transcribes them end in the same
  way**, and what is shown afterwards is the same.
-/

namespace ScopeStack

open ScopeStack.Action

/-! ## 1. Words -/

/-- Does it only work on values? -/
def Effect.onValues : Effect → Bool
  | .output _ | .stack _ | .arith _ | .compare _ | .text _ | .list _ => true
  | .control _ | .scope _ | .process _ | .host _ => false

theorem Effect.agree {R : Machine → Machine → Prop} {good : Value → Prop} {c d : Context}
    (M : Mirrors R good c d) {e : Effect} (he : e.onValues = true) :
    Agree R (e.perform c) (e.perform d) (· = []) := by
  cases e with
  | output w => exact (w.agree M).bind fun _ _ => .pure rfl
  | stack w => exact (w.agree M).bind fun _ _ => .pure rfl
  | arith w => exact (w.agree M).bind fun _ _ => .pure rfl
  | compare w => exact (w.agree M).bind fun _ _ => .pure rfl
  | text w => exact (w.agree M).bind fun _ _ => .pure rfl
  | list w => exact (w.agree M).bind fun _ _ => .pure rfl
  | control | scope | process | host => cases he

/-- From the scope the name means what it means in a new environment. -/
def Arena.Offers (a : Arena) (k : ScopeId) (name : String) : Prop :=
  a.findVariable k name = none ∧ a.findOperation k name = Vocabulary.defaults.find? name

/-- At the top level names mean what the top level itself says. -/
theorem Arena.Tree.offers_root_iff {a : Arena} (hT : a.Tree) {r : Scope}
    (hr : a.get? rootScope = some r) {name : String} : a.Offers rootScope name ↔
      r.binding? name = none ∧ r.operations.find? name = Vocabulary.defaults.find? name := by
  have hsearch {α : Type} (f : Scope → Option α) : a.search rootScope f = f r := by
    rw [search_eq, hT.chain_root, List.findSome?_cons, hr, Option.bind_some, List.findSome?_nil]
    cases f r <;> rfl
  unfold Offers findVariable findOperation
  rw [hsearch, hsearch]

/-- A name that is no variable is carried out. -/
theorem Context.ends_runWord_offered {c : Context} {m : Machine} {name : String}
    (hname : m.arena.Offers c.scope name) {op : Operation}
    (hop : Vocabulary.defaults.find? name = some op) {Q : List Job → Machine → Prop}
    {E : Failure → Machine → Prop} :
    (c.runWord name).Ends m Q E ↔ (op.effect.perform c).Ends m Q E := by
  unfold runWord findVariable findOperation
  rw [ends_bind, ends_bind, ends_get, ends_pure, hname.1]
  dsimp only
  rw [ends_bind, ends_bind, ends_get, ends_pure, hname.2, hop, ends_bind, ofOption, ends_pure]

/-- The cell of a word runs its name. -/
theorem Atom.Is.ends_runCell {c : Context} {m : Machine} (hF : m.arena.Forest) {name : String}
    {cell : Cell} (h : (Atom.word name).Is m.arena.owning c.scope cell)
    {Q : List Job → Machine → Prop} {E : Failure → Machine → Prop} :
    (c.runCell cell).Ends m Q E ↔ (c.runWord name).Ends m Q E := by
  obtain ⟨handle, rfl, hname⟩ := h
  unfold Context.runCell Context.resolveText
  rw [ends_bind, ends_inArena, Arena.resolve_of_payloadAt hF hname]
  simp

/-- At the top level, without a block open, a token is interned, and its cell is run. -/
theorem Context.ends_compileToken_top {m : Machine} (hT : m.arena.Tree)
    (hopen : m.arena.openBlocks = []) {t : Token} {x : Atom} (ht : Literal.ofToken t = .atom x)
    {Q : List Job → Machine → Prop} {E : Failure → Machine → Prop}
    (h : ∀ cell m₁, m₁ = { m with arena := m₁.arena } → m.arena.Grows m₁.arena →
      x.Is m₁.arena.owning rootScope cell →
      (x.isDouble = false → ∀ k, m.arena.Echoes k → m₁.arena.Echoes k) →
      (Context.top.runCell cell).Ends m₁ Q E) :
    (Context.top.compileToken t).Ends m Q E := by
  unfold compileToken
  rw [ht]
  dsimp only
  rw [ends_bind, compileTarget_ends rfl hT, hopen]
  show (Context.top.compileAtom x >>= _).Ends m Q E
  refine Ends.bind ((compileAtom_is hT hT.linked_root fun n hn =>
    Literal.number_beq (hn ▸ ht)).mono (fun _ _ h => h) fun _ _ hno => hno.elim) ?_
  rintro cell m₁ ⟨hrest, hG, his, hechoes⟩
  obtain ⟨r, hr, -, hclosed⟩ := (hG.still.tree hT).root
  show (getScope rootScope >>= _).Ends m₁ Q E
  rw [ends_bind, ends_getScope_some hr, hclosed, if_neg (by decide)]
  exact h cell m₁ hrest hG his hechoes

/-! ## 2. A token and its instruction -/

/-- A literal other than a double, or the name of a word that comes with every environment and only
works on values. -/
def Atom.isStraight : Atom → Bool
  | .int _ | .bool _ | .str _ | .number (.big _) => true
  | .number (.double _) => false
  | .word name => (Vocabulary.defaults.find? name).any (·.effect.onValues)

theorem Atom.isDouble_of_isStraight {x : Atom} (hx : x.isStraight = true) : x.isDouble = false := by
  unfold isDouble
  split
  · cases hx
  · rfl

/-- The value of a literal. -/
def Atom.value? : Atom → Option Value
  | .int n => some (.int n)
  | .bool b => some (.bool b)
  | .number (.big n) => some (.big n)
  | .number (.double x) => some (.double x)
  | .str text => some (.str text)
  | .word _ => none

namespace Shows

variable {a : Arena} {c : Context} {σ : StackId} {m : Machine} {view : View}

section Cells

variable (hm : Shows a c σ m view) (hc : AtTop a c σ)
include hm hc

/-- The cell of a literal stands for its value. -/
theorem valueOf_literal {x : Atom} (hx : x.isStraight = true) {v : Value} (hv : x.value? = some v)
    {cell : Cell} (h : x.Is m.arena.owning c.scope cell) :
    m.arena.valueOf rootScope cell = .ok v ∧ v.isDouble = false := by
  have hE := hm.echoes hc.echoes
  have hT := hm.tree hc
  cases x with
  | int n =>
    cases hv
    rw [show cell = .int n from h]
    exact ⟨rfl, rfl⟩
  | bool b =>
    cases hv
    rw [show cell = .bool b from h]
    exact ⟨rfl, rfl⟩
  | number n =>
    cases n with
    | double y => cases hx
    | big n =>
      cases hv
      obtain ⟨handle, w, rfl, hw, he⟩ := h
      cases sharp_big n w he
      refine ⟨?_, rfl⟩
      rw [Arena.valueOf, hT.resolve_root.mpr (hE.numbers hw)]
      rfl
  | str text =>
    cases hv
    obtain ⟨handle, rfl, hw⟩ := h
    refine ⟨?_, rfl⟩
    rw [Arena.valueOf, hT.resolve_root.mpr (hE.texts hw)]
    rfl
  | word name => cases hv

/-- A literal is pushed. -/
theorem runCell_literal {x : Atom} (hx : x.isStraight = true) {v : Value} (hv : x.value? = some v)
    {cell : Cell} (h : x.Is m.arena.owning c.scope cell) :
    (c.runCell cell).Ends m (fun jobs m' => jobs = [] ∧ Shows a c σ m' (view.pushed v))
      fun _ _ => False := by
  obtain ⟨hcell, hplain⟩ := hm.valueOf_literal hc hx hv h
  have hpush : (c.pushCell cell >>= fun _ => (pure [] : Action (List Job))).Ends m
      (fun jobs m' => jobs = [] ∧ Shows a c σ m' (view.pushed v)) fun _ _ => False := by
    unfold Context.pushCell
    rw [ends_bind, ends_bind, hm.ends_pushTarget hc]
    dsimp only
    rw [ends_bind, hm.ends_ownStack hc, ends_modifyArena, ends_pure]
    exact ⟨rfl, hm.pushCell hc hcell hplain⟩
  cases cell with
  | bool | int | big | double | str | block => exact hpush
  | word handle =>
    cases x with
    | int | bool => cases h
    | number n => cases n <;> (obtain ⟨_, _, hno, -⟩ := h; cases hno)
    | str text => obtain ⟨_, hno, -⟩ := h; cases hno
    | word name => cases hv

/-- The cell of a word runs its name. -/
theorem ends_runCell_word {name : String} {cell : Cell}
    (h : (Atom.word name).Is m.arena.owning c.scope cell) {Q : List Job → Machine → Prop}
    {E : Failure → Machine → Prop} :
    (c.runCell cell).Ends m Q E ↔ (c.runWord name).Ends m Q E :=
  h.ends_runCell (hm.tree hc).forest

/-- A name that is no variable is carried out. -/
theorem ends_runWord {name : String} (hname : a.Offers c.scope name) {op : Operation}
    (hop : Vocabulary.defaults.find? name = some op) {Q : List Job → Machine → Prop}
    {E : Failure → Machine → Prop} :
    (c.runWord name).Ends m Q E ↔ (op.effect.perform c).Ends m Q E :=
  Context.ends_runWord_offered ⟨(hm.fills.search hc.tree (fun _ _ _ => rfl) _).trans hname.1,
    (hm.fills.search hc.tree (fun _ _ _ => rfl) _).trans hname.2⟩ hop

end Cells

/-- At the top level a token is interned, and its cell is run. -/
theorem compileToken (hm : Shows a .top σ m view) (hc : AtTop a .top σ)
    (hopen : a.openBlocks = []) {t : Token} {x : Atom} (ht : Literal.ofToken t = .atom x)
    (hx : x.isDouble = false) {Q : List Job → Machine → Prop} {E : Failure → Machine → Prop}
    (h : ∀ cell m₁, Shows a .top σ m₁ view → x.Is m₁.arena.owning rootScope cell →
      (Context.top.runCell cell).Ends m₁ Q E) :
    (Context.top.compileToken t).Ends m Q E := by
  refine Context.ends_compileToken_top (hm.tree hc) (hm.fills.still.openBlocks.trans hopen) ht ?_
  intro cell m₁ hrest hG his hechoes
  have hm₁ := hm.grows hc.tree hG (hechoes hx)
  rw [← hrest] at hm₁
  exact h cell m₁ hm₁ his

/-- **A token and its instruction do the same** where both are shown the same. -/
theorem beside {b : Arena} {d : Context} {τ : StackId} {n : Machine} (hm : Shows a .top σ m view)
    (hc : AtTop a .top σ) (hopen : a.openBlocks = []) (hn : Shows b d τ n view) (hd : AtTop b d τ)
    {t : Token} {x : Atom} (ht : Literal.ofToken t = .atom x) (hx : x.isStraight = true)
    (hnames : ∀ name, x = .word name → a.Offers rootScope name ∧ b.Offers d.scope name) {cell : Cell}
    (his : x.Is n.arena.owning d.scope cell) :
    Beside (Context.top.compileToken t) m (d.runCell cell) n
      (fun jobs jobs' m' n' => jobs = [] ∧ jobs' = [] ∧ Alongside a .top σ b d τ m' n')
      fun f e m' n' => e = f ∧ Alongside a .top σ b d τ m' n' := by
  refine hm.compileToken hc hopen ht (Atom.isDouble_of_isStraight hx) fun cell₁ m₁ hm₁ his₁ => ?_
  cases hv : x.value? with
  | some v =>
    refine (hm₁.runCell_literal hc hx hv his₁).mono ?_ fun _ _ hno => hno.elim
    rintro jobs m' ⟨rfl, hm'⟩
    refine (hn.runCell_literal hd hx hv his).mono ?_ fun _ _ h => h
    rintro jobs' n' ⟨rfl, hn'⟩
    exact ⟨rfl, rfl, _, hm', hn'⟩
  | none =>
    cases x with
    | int | bool | str => cases hv
    | number y => cases y <;> cases hv
    | word name =>
      obtain ⟨hname, hname'⟩ := hnames name rfl
      rw [Atom.isStraight, Option.any_eq_true] at hx
      obtain ⟨op, hop, he⟩ := hx
      rw [hm₁.ends_runCell_word hc his₁, hm₁.ends_runWord hc hname hop]
      simp only [hn.ends_runCell_word hd his, hn.ends_runWord hd hname' hop]
      refine (Effect.agree (hc.mirrors hd) he m₁ n ⟨view, hm₁, hn⟩).mono (fun jobs m' h => ?_)
        fun _ _ h => h
      refine h.mono ?_ fun _ _ h => h
      rintro _ n' ⟨rfl, hR, rfl⟩
      exact ⟨rfl, rfl, hR⟩

end Shows

/-! ## 3. Tokens and code -/

/-- The code has a cell for each of these tokens, in order and with their places. -/
def Transcribes (a : Arena) (k : ScopeId) : List Token → List Instruction → Prop
  | [], code => code = []
  | t :: ts, code => ∃ x cell more, code = ⟨some t.location, cell⟩ :: more ∧
      Literal.ofToken t = .atom x ∧ x.Is a.owning k cell ∧ Transcribes a k ts more

theorem Transcribes.mono {a b : Arena} {k : ScopeId} {ts : List Token} {code : List Instruction}
    (h : Transcribes a k ts code)
    (htexts : ∀ h v, a.payloadAt String k h = some v → b.payloadAt String k h = some v)
    (hnumbers : ∀ h v, a.payloadAt Number k h = some v → b.payloadAt Number k h = some v) :
    Transcribes b k ts code := by
  induction ts generalizing code with
  | nil => exact h
  | cons t ts ih =>
    obtain ⟨x, cell, more, hcode, ht, hx, hmore⟩ := h
    exact ⟨x, cell, more, hcode, ht, hx.mono htexts hnumbers, ih hmore⟩

/-- The token is a literal other than a double, or a word that only works on values. -/
def Token.isStraight (t : Token) : Bool :=
  match Literal.ofToken t with
  | .atom x => x.isStraight
  | _ => false

theorem Token.of_isStraight {t : Token} (h : t.isStraight = true) :
    ∃ x, Literal.ofToken t = .atom x ∧ x.isStraight = true := by
  unfold isStraight at h
  split at h
  · rename_i x hx
    exact ⟨x, hx, h⟩
  · cases h

/-- **Tokens become code that transcribes them**, and the tables of the block go on repeating those of
the top level. -/
theorem Compiling.transcribes {m : Machine} {f : Frame} {fs : List Frame}
    (hm : Compiling m (f :: fs)) (hE : m.arena.Echoes f.scope) {ts : List Token}
    (hts : ∀ t ∈ ts, t.isStraight = true) :
    ∃ m' code, Executes ts m m' ∧ Compiled m m' ∧
      Compiling m' ({ f with code := f.code ++ code } :: fs) ∧ m'.arena.Echoes f.scope ∧
      Transcribes m'.arena f.scope ts code := by
  induction ts generalizing m f with
  | nil => exact ⟨m, [], .nil m, .refl m, by simpa using hm, hE, rfl⟩
  | cons t ts ih =>
    obtain ⟨x, ht, hx⟩ := Token.of_isStraight (hts t List.mem_cons_self)
    obtain ⟨jobs, m₁, hrun, rfl, hcompiled, cell, his, hm₁, hechoes⟩ := (hm.atom ht).run_eq_ok
    obtain ⟨m₂, code, hexec, hcompiled', hm₂, hE₂, hcode⟩ := ih hm₁
      (hechoes (Atom.isDouble_of_isStraight hx) _ hE) fun t' ht' => hts t' (List.mem_cons_of_mem _ ht')
    refine ⟨m₂, ⟨some t.location, cell⟩ :: code, .trans (.single hm.running (.of_run hrun)) hexec,
      hcompiled.trans hcompiled', by simpa using hm₂, hE₂, x, cell, code, rfl, ht, ?_, hcode⟩
    exact his.mono (fun _ _ => hcompiled'.grown.texts) fun _ _ => hcompiled'.grown.numbers

/-! ## 4. Threads -/

/-- A job is started and ends well. -/
theorem Thread.step_started {job : Job} {jobs : List Job} {m m' : Machine}
    (hblocked : job.isBlocked none m = false) (hrun : job.start.run m = .ok jobs m')
    (rest : List Job) :
    ({ agenda := job :: rest } : Thread).step m = some ({ agenda := jobs ++ rest }, m') := by
  simp [step, isBlocked, perform, hblocked, hrun, Job.before_eq]

/-- What becomes of a job after a failure. -/
theorem Thread.step_settled {job : Job} {jobs : List Job} {m m' : Machine} {f : Failure}
    {status : Status} (hwait : job.outlastsFailure = false)
    (hrun : (job.settle f).run m = ((status, jobs), m')) (rest : List Job) :
    ({ status := .error f, agenda := job :: rest } : Thread).step m =
      some ({ status, agenda := jobs ++ rest }, m') := by
  simp [step, isBlocked, perform, hwait, hrun, Job.before_eq, Except.isOk, Except.toBool]

/-- In some steps the thread gets from here to there. -/
def Thread.Leads (t : Thread) (m : Machine) (t' : Thread) (m' : Machine) : Prop :=
  ∃ n, ∀ k, Thread.steps (n + k) t m = Thread.steps k t' m'

namespace Thread.Leads

variable {t t₁ t₂ t₃ : Thread} {m m' m₁ m₂ m₃ : Machine} {job : Job} {jobs rest : List Job}
  {f : Failure}

theorem refl (t : Thread) (m : Machine) : Leads t m t m := ⟨0, fun k => by rw [Nat.zero_add]⟩

theorem trans (h : Leads t₁ m₁ t₂ m₂) (h' : Leads t₂ m₂ t₃ m₃) : Leads t₁ m₁ t₃ m₃ := by
  obtain ⟨n, hn⟩ := h
  obtain ⟨n', hn'⟩ := h'
  exact ⟨n + n', fun k => by rw [Nat.add_assoc, hn, hn']⟩

theorem single (h : t.step m = some (t₁, m₁)) : Leads t m t₁ m₁ :=
  ⟨1, fun k => by rw [Nat.add_comm, Thread.steps_succ, h]⟩

/-- A job that is started and ends well. -/
theorem started (hblocked : job.isBlocked none m = false) (hrun : job.start.run m = .ok jobs m') :
    Leads { agenda := job :: rest } m { agenda := jobs ++ rest } m' :=
  single (Thread.step_started hblocked hrun rest)

/-- A job that is started and fails. -/
theorem failed (hblocked : job.isBlocked none m = false) (hrun : job.start.run m = .error f m') :
    Leads { agenda := job :: rest } m { status := .error f, agenda := rest } m' := by
  refine single ?_
  simp [Thread.step, Thread.isBlocked, Thread.perform, hblocked, hrun]

/-- A job after a failure. -/
theorem settled {status : Status} (hwait : job.outlastsFailure = false)
    (hrun : (job.settle f).run m = ((status, jobs), m')) :
    Leads { status := .error f, agenda := job :: rest } m { status, agenda := jobs ++ rest } m' :=
  single (Thread.step_settled hwait hrun rest)

/-- After a failure tokens are passed over. -/
theorem passed (f : Failure) (ts : List Token) (m : Machine) :
    Leads { status := .error f, agenda := ts.map (.token .top) } m
      { status := .error f, agenda := [] } m := by
  induction ts with
  | nil => exact refl _ m
  | cons t ts ih =>
    have hskip : Leads { status := .error f, agenda := (t :: ts).map (.token .top) } m
        { status := .error f, agenda := [] ++ ts.map (.token .top) } m := settled rfl rfl
    exact hskip.trans ih

end Thread.Leads

theorem Executes.leads {ts : List Token} {m m' : Machine} (h : Executes ts m m') (rest : List Job) :
    Thread.Leads { agenda := ts.map (.token .top) ++ rest } m { agenda := rest } m' :=
  ⟨ts.length, fun k => h rest k⟩

/-- What an instruction does in a process that is not told to stop. -/
theorem Job.ends_code {c : Context} {m : Machine} (hrun : c.isStopped m = false) {i : Instruction}
    {code : List Instruction} {Q : List Job → Machine → Prop} {E : Failure → Machine → Prop} :
    (Job.start (.code c (i :: code))).Ends m Q E ↔
      (c.runCell i.cell).Ends m
        (fun jobs m' => Q (Job.located i.location jobs ++ if code.isEmpty then [] else [.code c code]) m')
        fun f m' => E ((i.location.map f.orAt).getD f) m' := by
  show (c.checkRunning >>= fun _ => locating i.location (c.runCell i.cell) >>= fun jobs =>
    pure (Job.before (Job.located i.location jobs) _)).Ends m Q E ↔ _
  rw [ends_bind, Context.checkRunning, ends_bind, ends_get, hrun, if_neg (by decide), ends_pure,
    ends_bind, ends_locating]
  simp only [ends_pure, Job.before_eq]

/-- What is left to do of some code. -/
def Context.pending (c : Context) (code : List Instruction) : List Job :=
  if code.isEmpty then [] else [.code c code]

section Runs

variable {a b : Arena} {d : Context} {σ τ : StackId} {m n : Machine} {view : View}

/-- The jobs of a token and of its instruction. -/
theorem Shows.beside_jobs (hm : Shows a .top σ m view) (hc : AtTop a .top σ)
    (hopen : a.openBlocks = []) (hn : Shows b d τ n view) (hd : AtTop b d τ) {t : Token} {x : Atom}
    (ht : Literal.ofToken t = .atom x) (hx : x.isStraight = true)
    (hnames : ∀ name, x = .word name → a.Offers rootScope name ∧ b.Offers d.scope name) {cell : Cell}
    (his : x.Is n.arena.owning d.scope cell) (code : List Instruction) :
    Beside (Job.start (.token .top t)) m (Job.start (.code d (⟨some t.location, cell⟩ :: code))) n
      (fun jobs jobs' m' n' => jobs = [] ∧ jobs' = d.pending code ∧ Alongside a .top σ b d τ m' n')
      fun f e m' n' => e = f ∧ (∀ l, f.orAt l = f) ∧ Alongside a .top σ b d τ m' n' := by
  unfold Beside
  rw [Job.ends_token hm.running]
  simp only [Job.ends_code hn.running]
  refine (hm.beside hc hopen hn hd ht hx hnames his).mono (fun jobs m' h => ?_) fun f m' h => ?_
  · refine h.mono ?_ fun _ _ h => h
    rintro jobs' n' ⟨rfl, rfl, hR⟩
    exact ⟨rfl, rfl, hR⟩
  · refine h.mono (fun _ _ h => h) ?_
    rintro e n' ⟨rfl, hR⟩
    exact ⟨rfl, fun l => e.orAt_orAt t.location l, hR⟩

/-- **Tokens one after the other and the code that transcribes them end in the same way.** A failure
has its place. -/
theorem Shows.runs_alike (hc : AtTop a .top σ) (hopen : a.openBlocks = []) (hd : AtTop b d τ)
    {ts : List Token} {code : List Instruction} (hcode : Transcribes b d.scope ts code)
    (hts : ∀ t ∈ ts, t.isStraight = true)
    (hnames : ∀ t ∈ ts, ∀ name, Literal.ofToken t = .atom (.word name) →
      a.Offers rootScope name ∧ b.Offers d.scope name)
    (hm : Shows a .top σ m view) (hn : Shows b d τ n view) :
    ∃ status m' n', Thread.Leads { agenda := ts.map (.token .top) } m { status, agenda := [] } m' ∧
      (∀ rest, Thread.Leads { agenda := d.pending code ++ rest } n { status, agenda := rest } n') ∧
      Alongside a .top σ b d τ m' n' ∧ ∀ f, status = .error f → ∀ l, f.orAt l = f := by
  induction ts generalizing m n view code with
  | nil =>
    rw [show code = [] from hcode]
    exact ⟨.ok (), m, n, .refl _ m, fun rest => .refl _ n, ⟨view, hm, hn⟩, fun f hf => (by cases hf)⟩
  | cons t ts ih =>
    obtain ⟨x, cell, more, rfl, ht, his, hmore⟩ := hcode
    obtain ⟨x', ht', hx⟩ := Token.of_isStraight (hts t List.mem_cons_self)
    cases ht.symm.trans ht'
    have hbeside := hm.beside_jobs hc hopen hn hd ht hx
      (fun name hname => hnames t List.mem_cons_self name (hname ▸ ht))
      (his.mono (fun _ _ => hn.fills.texts) fun _ _ => hn.fills.numbers) more
    rcases hbeside.cases with ⟨_, _, m', n', hrun, hrun', rfl, rfl, view', hm', hn'⟩ |
      ⟨_, f, m', n', hrun, hrun', rfl, hplace, hR⟩
    · obtain ⟨status, m'', n'', hleads, hleads', hR, hplace⟩ := ih hmore
        (fun t' ht' => hts t' (List.mem_cons_of_mem _ ht'))
        (fun t' ht' => hnames t' (List.mem_cons_of_mem _ ht')) hm' hn'
      exact ⟨status, m'', n'', (Thread.Leads.started rfl hrun).trans hleads,
        fun rest => (Thread.Leads.started rfl hrun').trans (hleads' rest), hR, hplace⟩
    · exact ⟨.error f, m', n', (Thread.Leads.failed rfl hrun).trans (.passed f ts m'),
        fun rest => .failed rfl hrun', hR, fun f' hf l => (by cases hf; exact hplace l)⟩

end Runs

end ScopeStack
