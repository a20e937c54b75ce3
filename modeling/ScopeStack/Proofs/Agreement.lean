import ScopeStack.Proofs.Faithful
import ScopeStack.Proofs.Transcripts

/-!
# Executing tokens and running the block they make

Literals and words on values do the same when they are executed one by one at the top level and when
they are written as a block that is run at once.

* `Poised`: the top level shows a view and can go on. `Arena.Written`: a block has just been written
  there.
* `Poised.written`, `Poised.ran`, `Poised.entered`, `Poised.left`, `Poised.discarded`: the block comes,
  is taken, called, left and let go of, and what is seen of the top level is told by what its code does.
* `Evaluates`: how executing tokens ends, and what it leaves to be seen.
* `Ensemble.Reachable.evaluates_alike`: **tokens one by one, and the same tokens in a block that is run
  at once, leave the same values, the same output and the same failure.**
-/

namespace ScopeStack

open ScopeStack.Action

/-! ## 1. The top level between two tokens -/

/-- The top level, with the variables and operations of `r₀`, runs, no block and no push session is
open, and this is what is seen of it. -/
structure Poised (r₀ : Scope) (m : Machine) (view : View) : Prop where
  tree : m.arena.Tree
  root : ∃ r, m.arena.get? rootScope = some r ∧ r.fixed = r₀.fixed ∧ r.compileStack = []
  session : r₀.pushTarget = none
  running : Context.top.isStopped m = false
  cells : m.arena.Displays (m.arena.stackCells r₀.stack) view.values
  plain : ∀ v ∈ view.values, v.isDouble = false
  output : m.output = view.output

namespace Poised

variable {r₀ : Scope} {m : Machine} {view : View}

theorem atTop (hm : Poised r₀ m view) : AtTop m.arena .top r₀.stack where
  tree := hm.tree
  process := rfl
  halt := rfl
  linked := hm.tree.linked_root
  echoes := .root _
  chain := Or.inl hm.tree.chain_root
  root := by
    obtain ⟨r, hr, hfixed, -⟩ := hm.root
    exact ⟨r, hr, Scope.eq_of_fixed (·.stack) (fun _ => rfl) hfixed,
      (Scope.eq_of_fixed (·.pushTarget) (fun _ => rfl) hfixed).trans hm.session⟩
  callStacks := Or.inl ⟨rfl, rfl, rfl⟩

theorem shows (hm : Poised r₀ m view) : Shows m.arena .top r₀.stack m view :=
  ⟨.refl _, fun hk => hk, hm.running, hm.cells, hm.plain, hm.output⟩

theorem openBlocks (hm : Poised r₀ m view) : m.arena.openBlocks = [] := by
  obtain ⟨r, hr, -, hopen⟩ := hm.root
  rw [Arena.openBlocks_eq hr, hopen]

theorem compiling (hm : Poised r₀ m view) : Compiling m [] := by
  obtain ⟨r, hr, hfixed, hopen⟩ := hm.root
  exact ⟨hm.tree, hm.running, ⟨r, hr, (Scope.eq_of_fixed (·.pushTarget) (fun _ => rfl) hfixed).trans
    hm.session, hopen⟩, trivial⟩

/-- What is shown to a context at the top level is seen of the top level. -/
theorem of_shows {a : Arena} {c : Context} (hm : Shows a c r₀.stack m view)
    (hc : AtTop a c r₀.stack)
    (hroot : ∃ r, a.get? rootScope = some r ∧ r.fixed = r₀.fixed ∧ r.compileStack = [])
    (hsession : r₀.pushTarget = none) : Poised r₀ m view where
  tree := hm.tree hc
  root := by
    obtain ⟨r, hr, hfixed, hopen⟩ := hroot
    obtain ⟨t, ht, hts⟩ := hm.fills.get? hr
    rw [hts] at ht
    exact ⟨_, ht, hfixed, hopen⟩
  session := hsession
  running := by
    have hrunning := hm.running
    unfold Context.isStopped at hrunning
    rw [hc.halt] at hrunning
    exact hrunning
  cells := hm.cells
  plain := hm.plain
  output := hm.output

/-- The arena changes, but not what the top level has. -/
theorem carried (hm : Poised r₀ m view) {b : Arena} (hT : b.Tree)
    (hroot : ∀ r, m.arena.get? rootScope = some r →
      ∃ t, b.get? rootScope = some t ∧ t.fixed = r.fixed ∧ t.compileStack = r.compileStack ∧
        t.strings = r.strings ∧ t.numbers = r.numbers)
    (hcells : b.stackCells r₀.stack = m.arena.stackCells r₀.stack)
    (hblock : ∀ h, Cell.block h ∈ m.arena.stackCells r₀.stack → Known m.arena (.block h) →
      Known b (.block h)) : Poised r₀ { m with arena := b } view := by
  obtain ⟨r, hr, hfixed, hopen⟩ := hm.root
  obtain ⟨t, ht, htr, hopen', hstrings, hnumbers⟩ := hroot r hr
  refine ⟨hT, ⟨t, ht, htr.trans hfixed, hopen'.trans hopen⟩, hm.session, hm.running, ?_, hm.plain,
    hm.output⟩
  show b.Displays (b.stackCells r₀.stack) view.values
  rw [hcells]
  refine hm.cells.mono fun cell hmem v hv => ?_
  refine hm.tree.valueOf_mono hT (fun h x hx => ?_) (fun h x hx => ?_)
    (fun h he => hblock h (he ▸ hmem)) hv
  · rw [Arena.payloadAt_of_get? hr] at hx
    rw [Arena.payloadAt_of_get? ht]
    exact (congrArg (InternTable.get? · h) hstrings).trans hx
  · rw [Arena.payloadAt_of_get? hr] at hx
    rw [Arena.payloadAt_of_get? ht]
    exact (congrArg (InternTable.get? · h) hnumbers).trans hx

end Poised

/-! ## 2. A block that has just been written -/

namespace Arena

/-- The calls of the block that are in progress change. -/
def modifyCalls (a : Arena) (k : ScopeId) (g : List StackId → List StackId) : Arena :=
  a.modify k fun s => { s with calls := g s.calls }

/-- The block has been written at the top level, for the stack of its caller, and this is its code for
the tokens in it. It is known, it has no names of its own, its tables repeat those of the top level, and
nothing in it has processes of its own. -/
structure Written (a : Arena) (k : ScopeId) (ts : List Token) (code : List Instruction) : Prop where
  ne_root : k ≠ rootScope
  block : ∃ s, a.get? k = some s ∧ s.parent = some rootScope ∧ s.sharesStack = true ∧
    s.running = false ∧ s.code.toList = code ∧ (∀ name, s.binding? name = none) ∧
    ∀ name, s.operations.find? name = none
  known : rootScope ∈ a.scopesKnowing k
  echoes : a.Echoes k
  transcribes : Transcribes a k ts code
  idle {j : ScopeId} {t : Scope} : a.get? j = some t → k ≤ j → t.pool = none

namespace Written

variable {a b : Arena} {k : ScopeId} {ts : List Token} {code : List Instruction}

theorem resolveBlock (hW : a.Written k ts code) (hT : a.Tree) : a.resolveBlock rootScope k = .ok k := by
  obtain ⟨s, hs, -⟩ := hW.block
  exact hT.resolveBlock_eq_ok hT.linked_root ⟨s, hs⟩ hW.known

theorem chain (hW : a.Written k ts code) (hT : a.Tree) : a.chain k = [k, rootScope] := by
  obtain ⟨s, hs, hp, -⟩ := hW.block
  rw [chain_of_parent hT.forest hs hp, hT.chain_root]

theorem linked (hW : a.Written k ts code) (hT : a.Tree) : a.Linked k := by
  obtain ⟨s, hs, hp, -⟩ := hW.block
  refine ⟨s, hs, fun p hp' => ?_⟩
  cases hp.symm.trans hp'
  exact hT.linked_root.get?

/-- In the block names mean what they mean at the top level. -/
theorem offers (hW : a.Written k ts code) (hT : a.Tree) {name : String}
    (h : a.Offers rootScope name) : a.Offers k name := by
  obtain ⟨s, hs, -, -, -, -, hbinding, hoperation⟩ := hW.block
  have hsearch {α : Type} (f : Scope → Option α) (hf : f s = none) :
      a.search k f = a.search rootScope f := by
    rw [search_eq, search_eq, hW.chain hT, hT.chain_root, List.findSome?_cons, hs, Option.bind_some,
      hf]
  exact ⟨(hsearch _ (hbinding name)).trans h.1, (hsearch _ (hoperation name)).trans h.2⟩

theorem fills (hW : a.Written k ts code) (hF : a.Fills b) (hE : b.Echoes k) : b.Written k ts code where
  ne_root := hW.ne_root
  block := by
    obtain ⟨s, hs, h⟩ := hW.block
    obtain ⟨t, ht, hts⟩ := hF.get? hs
    rw [hts] at ht
    exact ⟨_, ht, h⟩
  known := by
    rw [hF.still.scopesKnowing]
    exact hW.known
  echoes := hE
  transcribes := hW.transcribes.mono (fun _ _ => hF.texts) fun _ _ => hF.numbers
  idle {j t} ht hj := by
    obtain ⟨s, hs, -⟩ := hF.still.get? ht
    obtain ⟨t', ht', hts⟩ := hF.get? hs
    cases ht.symm.trans ht'
    have hpool : s.pool = none := hW.idle hs hj
    rw [hts]
    exact hpool

/-- Calls of the block come and go. -/
theorem calls (hW : a.Written k ts code) (g : List StackId → List StackId) :
    (a.modifyCalls k g).Written k ts code where
  ne_root := hW.ne_root
  block := by
    obtain ⟨s, hs, h⟩ := hW.block
    rw [modifyCalls, get?_modify, if_pos rfl, hs]
    exact ⟨_, rfl, h⟩
  known := hW.known
  echoes := hW.echoes.modify _ _ (fun _ => rfl) fun _ => rfl
  transcribes := by
    refine hW.transcribes.mono (fun h v hv => ?_) fun h v hv => ?_
    · refine (payloadAt_modify a k _ ?_).trans hv
      exact fun _ => rfl
    · refine (payloadAt_modify a k _ ?_).trans hv
      exact fun _ => rfl
  idle {j t} ht hj := by
    obtain ⟨s, hs, ⟨-, rfl⟩ | ⟨-, rfl⟩⟩ := get?_modify_cases ht
    · exact hW.idle hs hj
    · have hpool : s.pool = none := hW.idle hs hj
      exact hpool

/-- The block can be let go of, and takes nothing with it that would have to be shut down. -/
theorem discard (hW : a.Written k ts code) (hT : a.Tree) : ∃ b, a.discard k = .ok ([], b) := by
  obtain ⟨s, hs, hp, -⟩ := hW.block
  obtain ⟨r, hr, -⟩ := hT.root
  obtain ⟨⟨pools, b⟩, hd⟩ := discard_ok hs hp hr
  cases hT.forest.discard_pools hd fun j t ht hchain => hW.idle ht (le_of_mem_chain hT.forest hchain)
  exact ⟨b, hd⟩

end Written

/-- A scope that is still to come has no payloads. -/
theorem Forest.echoes_new {a : Arena} (hF : a.Forest) : a.Echoes (a.lastScope + 1) := by
  have hnew : a.get? (a.lastScope + 1) = none := hF.get?_of_last_lt (Nat.lt_succ_self _)
  refine ⟨fun hx => ?_, fun hx => ?_⟩
  · rw [payloadAt_of_none hnew] at hx
    cases hx
  · rw [payloadAt_of_none hnew] at hx
    cases hx

/-- A finished block that has come while something was compiled. -/
theorem Extends.written {a b : Arena} (hE : a.Extends b) (hT : a.Tree) {f : Frame}
    (hf : b.Finished f rootScope) (hechoes : b.Echoes f.scope) (hnew : f.scope = a.lastScope + 1)
    (hkind : f.kind = .sharing) {ts : List Token} (hcode : Transcribes b f.scope ts f.code) :
    b.Written f.scope ts f.code := by
  -- whatever is as late as the block has come since
  have hlate {j : ScopeId} {t : Scope} (ht : b.get? j = some t) (hj : f.scope ≤ j) :
      ∃ p σ shares, t.fixed = (newBlock p σ shares).fixed := by
    rw [hnew] at hj
    exact hE.fixed_new hT.forest ht hj
  obtain ⟨s, hs, hp, hshares, -, hs', hknown⟩ := hf
  obtain ⟨p, σ, shares, hfixed⟩ := hlate hs (Nat.le_refl _)
  refine ⟨fun he => ?_, ⟨s, hs, hp, ?_, Scope.eq_of_fixed (·.running) (fun _ => rfl) hfixed, hs',
    fun name => Scope.eq_of_fixed (·.binding? name) (fun _ => rfl) hfixed,
    fun name => Scope.eq_of_fixed (·.operations.find? name) (fun _ => rfl) hfixed⟩, hknown, hechoes,
    hcode, fun {j t} ht hj => ?_⟩
  · exact absurd hT.root_le (he ▸ hnew ▸ Nat.not_succ_le_self _)
  · rw [hshares, hkind]
    rfl
  · obtain ⟨p, σ, shares, hfixed⟩ := hlate ht hj
    exact Scope.eq_of_fixed (·.pool) (fun _ => rfl) hfixed

end Arena

namespace Poised

variable {r₀ : Scope} {m : Machine} {view : View} {k : ScopeId} {ts : List Token}
  {code : List Instruction}

theorem calls (hm : Poised r₀ m view) (hk : k ≠ rootScope) (g : List StackId → List StackId) :
    Poised r₀ { m with arena := m.arena.modifyCalls k g } view := by
  have hA : m.arena.Alike (m.arena.modifyCalls k g) :=
    .modify _ _ _ fun s _ => ⟨rfl, rfl, fun h => h, fun j hj => Or.inl hj⟩
  refine hm.carried (hA.tree hm.tree) (fun r hr => ⟨r, ?_, rfl, rfl, rfl, rfl⟩) rfl
    fun h _ hknown j hj => ?_
  · rw [Arena.modifyCalls, Arena.get?_modify, if_neg hk.symm, hr]
  · obtain ⟨⟨s, hs⟩, hroot⟩ := hknown j hj
    obtain ⟨t, ht, -⟩ := hA.get?_of hs
    exact ⟨⟨t, ht⟩, hroot⟩

/-- **What nothing refers to goes, and what is seen of the top level stays.** -/
theorem pruned (hm : Poised r₀ m view) (hk : k ≠ rootScope) {b : Arena}
    (hP : m.arena.Pruned k b) (hU : m.arena.Unreferenced k) :
    Poised r₀ { m with arena := b } view := by
  have hroot : k ∉ m.arena.chain rootScope := by
    rw [hm.tree.chain_root]
    simpa using hk
  refine hm.carried (hP.tree hm.tree hk) (fun r hr => ?_) (hP.stackCells _) fun h hmem hknown => ?_
  · obtain ⟨cs, hcs, -⟩ := hP.kept hr hroot
    exact ⟨_, hcs, rfl, rfl, rfl, rfl⟩
  · rintro j hj
    cases hj
    obtain ⟨r, hr, hfixed, -⟩ := hm.root
    have hstack : r₀.stack ∈ r.allStacks := by
      rw [← Scope.eq_of_fixed (·.stack) (fun _ => rfl) hfixed]
      exact List.mem_cons_self
    have hstays : k ∉ m.arena.chain h := hU.unstacked hr hstack hmem
    obtain ⟨⟨s, hs⟩, hknown⟩ := hknown h rfl
    obtain ⟨cs, hcs, -⟩ := hP.kept hs hstays
    exact ⟨⟨_, hcs⟩, by rw [hP.known hstays]; exact hknown⟩

/-- Something has been compiled at the top level, and a block pushed. -/
theorem pushed (hm : Poised r₀ m view) {m' : Machine} (hE : m.arena.Extends m'.arena)
    (hm' : Compiling m' []) (hrest : m' = { m with arena := m'.arena })
    (hcells : m'.arena.stackCells r₀.stack = .block k :: m.arena.stackCells r₀.stack)
    (hk : m'.arena.resolveBlock rootScope k = .ok k) : Poised r₀ m' (view.pushed (.block k)) := by
  obtain ⟨r, hr, hfixed, -⟩ := hm.root
  obtain ⟨r', hr', hfixed', -⟩ := hE.get? hr
  obtain ⟨r'', hr'', -, hopen⟩ := hm'.root
  cases hr'.symm.trans hr''
  refine ⟨hm'.tree, ⟨r', hr', hfixed'.trans hfixed, hopen⟩, hm.session, hm'.running, ?_,
    fun v hv => ?_, ?_⟩
  · rw [hcells]
    refine Arena.displays_cons.mpr ⟨_, _, rfl, ?_, hm.cells.mono fun cell _ v hv => ?_⟩
    · rw [Arena.valueOf, hk]
      rfl
    · refine hm.tree.valueOf_mono hm'.tree (fun _ _ => hE.texts) (fun _ _ => hE.numbers)
        (fun h _ hknown j hj => ?_) hv
      obtain ⟨⟨s, hs⟩, hroot⟩ := hknown j hj
      obtain ⟨t, ht, -⟩ := hE.get? hs
      exact ⟨⟨t, ht⟩, hE.known hroot⟩
  · rcases List.mem_cons.mp hv with rfl | hv
    · rfl
    · exact hm.plain v hv
  · rw [hrest]
    exact hm.output

/-- **Tokens between delimiters become a block that transcribes them**, which is pushed. -/
theorem written (hm : Poised r₀ m view) (hσ : r₀.stack ≤ m.arena.lastStack)
    {opening closing : Token} (ho : Literal.ofToken opening = .blockOpen .sharing)
    (hc : Literal.ofToken closing = .blockClose .sharing) (hts : ∀ t ∈ ts, t.isStraight = true) :
    ∃ m' k code, Executes (opening :: ts ++ [closing]) m m' ∧
      Poised r₀ m' (view.pushed (.block k)) ∧ m'.arena.Written k ts code := by
  obtain ⟨r, hr, hfixed, -⟩ := hm.root
  obtain ⟨jobs, m₁, hrun₁, rfl, hcompiled₁, hm₁, hechoes₁⟩ := (hm.compiling.opened ho).run_eq_ok
  obtain ⟨m₂, code, hexec₂, hcompiled₂, hm₂, hE₂, hcode⟩ :=
    hm₁.transcribes (hechoes₁ _ (hm.tree.forest.echoes_new)) hts
  obtain ⟨jobs, m₃, hrun₃, rfl, hgrown₃, hrest₃, hfinished, hm₃, ⟨r₂, hr₂, hstacks₃⟩, hechoes₃⟩ :=
    (hm₂.closedLast hc).run_eq_ok
  have hcompiled := hcompiled₁.trans hcompiled₂
  have hgrown := hcompiled.grown.trans hgrown₃
  have hW : m₃.arena.Written (m.arena.lastScope + 1) ts code :=
    hgrown.written hm.tree hfinished (hechoes₃ _ hE₂) rfl rfl
      (hcode.mono (fun _ _ => hgrown₃.texts) fun _ _ => hgrown₃.numbers)
  refine ⟨m₃, m.arena.lastScope + 1, code, ?_, hm.pushed hgrown hm₃ ?_ ?_
    (hW.resolveBlock hm₃.tree), hW⟩
  · exact .trans (.trans (.single hm.running (.of_run hrun₁)) hexec₂)
      (.single hm₂.running (.of_run hrun₃))
  · rw [hrest₃, hcompiled.rest]
  · obtain ⟨r', hr', hfixed', -⟩ := hcompiled.grown.get? hr
    cases hr₂.symm.trans hr'
    have hstack : r₀.stack = r₂.stack :=
      (Scope.eq_of_fixed (·.stack) (fun _ => rfl) (hfixed'.trans hfixed)).symm
    rw [hstacks₃ _ (Nat.le_trans hσ hcompiled.grown.lastStack), if_pos hstack, hcompiled.stackCells hσ]

end Poised

/-! ## 3. The block is run -/

/-- Where the code of a block of the top level runs that shares the stack. -/
def Context.within (k : ScopeId) (σ : StackId) : Context :=
  { Context.top with scope := k, callStacks := [σ], base := none }

/-- The call of such a block. -/
def Call.within (k : ScopeId) (σ : StackId) : Call := ⟨k, σ, true⟩

/-- The call is over, however it has ended. -/
theorem Thread.Leads.left (k : ScopeId) (σ : StackId) (m : Machine) (status : Status)
    (rest : List Job) :
    Thread.Leads { status, agenda := .leave .top (.within k σ) (.within k σ) :: rest } m
      { status, agenda := rest }
      { m with arena := m.arena.modifyCalls k (·.erase σ) } := by
  have hstart : (Job.start (.leave .top (.within k σ) (.within k σ))).run m =
      .ok [] { m with arena := m.arena.modifyCalls k (·.erase σ) } := rfl
  cases status with
  | ok => exact .started rfl hstart
  | error f => exact .settled rfl rfl

/-- Values are let go of without anything to shut down, however running them has ended. -/
theorem Thread.Leads.discarded {m m' : Machine} {vs : List Value}
    (hrun : (Context.top.discardAll vs).run m = .ok [] m') (status : Status) (rest : List Job) :
    Thread.Leads { status, agenda := .discard .top vs :: rest } m { status, agenda := rest } m' :=
  .single (Thread.step_discarded hrun rfl)

/-- A failure that has its place keeps it. -/
theorem Thread.Leads.stamped {status : Status} (hplace : ∀ f, status = .error f → ∀ l, f.orAt l = f)
    (l : Location) (rest : List Job) (m : Machine) :
    Thread.Leads { status, agenda := .stamp l :: rest } m { status, agenda := rest } m := by
  cases status with
  | ok =>
    have hstart : (Job.start (.stamp l)).run m = .ok [] m := rfl
    exact .started rfl hstart
  | error f =>
    have hsettle : ((Job.stamp l).settle f).run m = ((.error f, []), m) := by
      show ((Except.error (f.orAt l), []), m) = _
      rw [hplace f rfl l]
    exact .settled rfl hsettle

/-- The root has the names it had, and those of the default operations that no variable hides. -/
theorem Poised.offers {r₀ : Scope} {m : Machine} {view : View} (hm : Poised r₀ m view) {name : String}
    (hbinding : r₀.binding? name = none)
    (hoperation : r₀.operations.find? name = Vocabulary.defaults.find? name) :
    m.arena.Offers rootScope name := by
  obtain ⟨r, hr, hfixed, -⟩ := hm.root
  exact (hm.tree.offers_root_iff hr).mpr
    ⟨(Scope.eq_of_fixed (·.binding? name) (fun _ => rfl) hfixed).trans hbinding,
      (Scope.eq_of_fixed (·.operations.find? name) (fun _ => rfl) hfixed).trans hoperation⟩

namespace Poised

variable {r₀ : Scope} {m : Machine} {view : View} {k : ScopeId} {ts : List Token}
  {code : List Instruction}

/-- **`!` takes the block.** -/
theorem ran (hm : Poised r₀ m (view.pushed (.block k))) (hoffers : m.arena.Offers rootScope "!")
    {run : Token} (ht : Literal.ofToken run = .atom (.word "!")) :
    (Job.start (.token .top run)).Ends m
      (fun jobs m' => jobs = runThenDiscard .top (.block k) true ++ [.stamp run.location] ∧
        Shows m.arena .top r₀.stack m' view) fun _ _ => False := by
  have hop : ∃ op, Vocabulary.defaults.find? "!" = some op ∧ op.effect = .control .run := by
    decide +kernel
  obtain ⟨op, hop, heffect⟩ := hop
  rw [Job.ends_token hm.running]
  refine hm.shows.compileToken hm.atTop hm.openBlocks ht rfl fun cell m₁ hm₁ his => ?_
  rw [hm₁.ends_runCell_word hm.atTop his, hm₁.ends_runWord hm.atTop hoffers hop, heffect]
  show (Context.top.popRunnable >>= fun v => pure (runThenDiscard .top v true)).Ends m₁ _ _
  unfold Context.popRunnable
  rw [ends_bind, ends_bind]
  refine (hm₁.pop hm.atTop).mono ?_ ?_
  · rintro v m' ⟨hv, hm'⟩
    cases hv
    exact ⟨rfl, hm'⟩
  · rintro f m' ⟨hf, -⟩
    cases hf

section Block

variable (hm : Poised r₀ m view) (hW : m.arena.Written k ts code)
include hm hW

/-- The block works at the top level. -/
theorem within : AtTop m.arena (.within k r₀.stack) r₀.stack where
  tree := hm.tree
  process := rfl
  halt := rfl
  linked := hW.linked hm.tree
  echoes := hW.echoes
  chain := Or.inr (hW.chain hm.tree)
  root := hm.atTop.root
  callStacks := Or.inr ⟨rfl, rfl⟩

omit hW in
theorem shows_within : Shows m.arena (.within k r₀.stack) r₀.stack m view :=
  ⟨.refl _, fun hk => hk, hm.running, hm.cells, hm.plain, hm.output⟩

/-- The block is called on the stack of the top level. -/
theorem called :
    (Job.start (.value .top (.block k))).run m =
      .ok [.body (.within k r₀.stack), .leave .top (.within k r₀.stack) (.within k r₀.stack)]
        { m with arena := m.arena.modifyCalls k (r₀.stack :: ·) } := by
  obtain ⟨r, hr, hstack, -⟩ := hm.atTop.root
  obtain ⟨r', hr', hparent, -⟩ := hm.tree.root
  cases hr.symm.trans hr'
  obtain ⟨s, hs, -, hshares, hidle, -⟩ := hW.block
  have hends : (Context.top.callBlock k).Ends m
      (fun jobs m' => jobs = [.body (.within k r₀.stack),
          .leave .top (.within k r₀.stack) (.within k r₀.stack)] ∧
        m' = { m with arena := m.arena.modifyCalls k (r₀.stack :: ·) })
      fun _ _ => False := by
    unfold Context.callBlock Context.beginCall Context.prepareCall Context.enterCall
    rw [ends_bind, ends_bind, ends_bind, ends_inArena_ok (hW.resolveBlock hm.tree), ends_bind,
      ends_getScope_some hs, hidle, if_neg (by decide)]
    dsimp only
    rw [hshares, if_pos rfl]
    show ((getScope rootScope >>= fun s => pure (s.stack, [s.stack],
      if s.spawned then none else s.parent)) >>= _).Ends m _ _
    rw [ends_bind, ends_bind, ends_getScope_some hr, ends_pure, ends_pure, hparent, ite_self, hstack]
    dsimp only
    rw [ends_bind, ends_bind, ends_getScope_some hs, ends_modifyScope, ends_pure, ends_pure]
    exact ⟨rfl, rfl⟩
  obtain ⟨jobs, m', hrun, rfl, rfl⟩ := hends.run_eq_ok
  exact hrun

/-- The body of the block is its code. -/
theorem started (rest : List Job) :
    Thread.Leads { agenda := .body (.within k r₀.stack) :: rest } m
      { agenda := (Context.within k r₀.stack).pending code ++ rest } m := by
  obtain ⟨s, hs, -, -, -, rfl, -⟩ := hW.block
  have hbody : (Job.start (.body (.within k r₀.stack))).Ends m
      (fun jobs m' => m' = m ∧ jobs = [.code (.within k r₀.stack) s.code.toList]) fun _ _ => False := by
    show (Context.checkRunning _ >>= fun _ => getScope k >>= fun s => pure [Job.code _ s.code.toList]).Ends
      m _ _
    rw [ends_bind, Context.checkRunning, ends_bind, ends_get, hm.shows_within.running,
      if_neg (by decide), ends_pure, ends_bind, ends_getScope_some hs]
    exact ⟨rfl, rfl⟩
  obtain ⟨jobs, m', hrun, rfl, rfl⟩ := hbody.run_eq_ok
  refine (Thread.Leads.started rfl hrun).trans ?_
  unfold Context.pending
  cases s.code.toList with
  | nil => exact .started rfl rfl
  | cons i code => exact .refl _ _

/-- **The block is let go of** if nothing has kept it, and what is seen of the top level stays. -/
theorem discarded : (Context.top.discardAll [.block k]).Ends m
    (fun pools m' => pools = [] ∧ Poised r₀ m' view) fun _ _ => False := by
  obtain ⟨r, hr, hparent, -⟩ := hm.tree.root
  obtain ⟨s, hs, hp, -, hidle, -⟩ := hW.block
  have hone : (Context.top.discardTransient (.block k)).Ends m
      (fun pools m' => pools = [] ∧ Poised r₀ m' view) fun _ _ => False := by
    unfold Context.discardTransient
    rw [show Context.top.scope = rootScope from rfl, ends_bind, ends_getScope_some hr, hparent,
      if_neg (by decide), ends_bind, ends_get]
    dsimp only
    rw [hW.resolveBlock hm.tree]
    dsimp only
    rw [ends_bind, ends_getScope_some hs, hp, hidle]
    split
    · exact ⟨rfl, hm⟩
    · rename_i hkept
      obtain ⟨b, hb⟩ := hW.discard hm.tree
      have hunreferenced : m.arena.isReferenced k = false := by simpa using hkept
      rw [hb]
      exact ⟨rfl, hm.pruned hW.ne_root (Arena.discard_pruned hm.tree.forest hb)
        (Arena.unreferenced_of_eq_false hm.tree.forest hunreferenced)⟩
  unfold Context.discardAll
  rw [ends_bind, List.mapM_cons, List.mapM_nil, ends_bind]
  refine hone.mono ?_ fun _ _ hno => hno
  rintro pools m' ⟨rfl, hm'⟩
  exact ⟨rfl, hm'⟩

/-- After the code of the block the call is over and the block goes; a failure that has its place
keeps it. -/
theorem ended {status : Status} (hplace : ∀ f, status = .error f → ∀ l, f.orAt l = f) (l : Location) :
    ∃ m', Thread.Leads { status, agenda := [.leave .top (.within k r₀.stack) (.within k r₀.stack),
        .discard .top [.block k], .stamp l] } m { status, agenda := [] } m' ∧ Poised r₀ m' view := by
  have hm₁ := hm.calls hW.ne_root (·.erase r₀.stack)
  have hW₁ := hW.calls (·.erase r₀.stack)
  obtain ⟨pools, m₂, hrun, rfl, hm₂⟩ := (hm₁.discarded hW₁).run_eq_ok
  exact ⟨m₂, (Thread.Leads.left k r₀.stack m status _).trans
    ((Thread.Leads.discarded hrun status _).trans (.stamped hplace l _ m₂)), hm₂⟩

end Block

/-- **Tokens one by one, and the same tokens in a block that is run at once, end in the same way**,
and the same is seen of the top level afterwards. -/
theorem ends_alike (hm : Poised r₀ m view) (hσ : r₀.stack ≤ m.arena.lastStack)
    {ts : List Token} (hts : ∀ t ∈ ts, t.isStraight = true)
    (hnames : ∀ t ∈ ts, ∀ name, Literal.ofToken t = .atom (.word name) → r₀.binding? name = none)
    (hrun : r₀.binding? "!" = none)
    (hoperations : ∀ name, r₀.operations.find? name = Vocabulary.defaults.find? name)
    {opening closing run : Token} (ho : Literal.ofToken opening = .blockOpen .sharing)
    (hc : Literal.ofToken closing = .blockClose .sharing)
    (ht : Literal.ofToken run = .atom (.word "!")) :
    ∃ status view' m' n',
      Thread.Leads { agenda := ts.map (.token .top) } m { status, agenda := [] } m' ∧
      Thread.Leads { agenda := (opening :: ts ++ [closing, run]).map (.token .top) } m
        { status, agenda := [] } n' ∧
      Poised r₀ m' view' ∧ Poised r₀ n' view' := by
  obtain ⟨m₁, k, code, hexec, hm₁, hW₁⟩ := hm.written hσ ho hc hts
  obtain ⟨_, m₂, hrun₂, rfl, hshows₂⟩ := (hm₁.ran (hm₁.offers hrun (hoperations "!")) ht).run_eq_ok
  have hm₂ : Poised r₀ m₂ view := .of_shows hshows₂ hm₁.atTop hm₁.root hm₁.session
  have hW₂ := hW₁.fills hshows₂.fills (hshows₂.echoes hW₁.echoes)
  have hm₃ := hm₂.calls hW₂.ne_root (r₀.stack :: ·)
  have hW₃ := hW₂.calls (r₀.stack :: ·)
  have hd := hm₃.within hW₃
  obtain ⟨status, m', n₄, hleads, hleads', ⟨view', hm', hn₄⟩, hplace⟩ :=
    Shows.runs_alike hm.atTop hm.openBlocks hd hW₃.transcribes hts (fun t ht' name hname => by
      have hbinding := hnames t ht' name hname
      exact ⟨hm.offers hbinding (hoperations name),
        hW₃.offers hm₃.tree (hm₃.offers hbinding (hoperations name))⟩) hm.shows hm₃.shows_within
  have hm₄ : Poised r₀ n₄ view' := .of_shows hn₄ hd hm₃.root hm₃.session
  have hW₄ := hW₃.fills hn₄.fills (hn₄.echoes hW₃.echoes)
  obtain ⟨n', hleads'', hn'⟩ := hm₄.ended hW₄ hplace run.location
  refine ⟨status, view', m', n', hleads, ?_, .of_shows hm' hm.atTop hm.root hm.session, hn'⟩
  have htokens : (opening :: ts ++ [closing, run]).map (Job.token .top) =
      (opening :: ts ++ [closing]).map (.token .top) ++ [.token .top run] := by simp
  rw [htokens]
  refine (hexec.leads _).trans (.trans (.started rfl hrun₂) (.trans (.started rfl (hm₂.called hW₂)) ?_))
  exact (hm₃.started hW₃ _).trans ((hleads' _).trans hleads'')

end Poised

/-! ## 4. What is left to be seen -/

/-- Executing the tokens one by one at the top level comes to an end with this status, after a failure
without the tokens that follow, and leaves these values on the stack, the bottom first, and this
output. -/
def Evaluates (ts : List Token) (m : Machine) (status : Status) (vs : List Value) (output : String) :
    Prop :=
  ∃ n m', Thread.steps n { agenda := ts.map (.token .top) } m = (0, { status, agenda := [] }, m') ∧
    (Context.top.stackValues.outcome m').1 = .ok vs ∧ m'.output = output

theorem Poised.evaluates {r₀ : Scope} {m m' : Machine} {view : View} {ts : List Token}
    {status : Status} (hm' : Poised r₀ m' view)
    (h : Thread.Leads { agenda := ts.map (.token .top) } m { status, agenda := [] } m') :
    Evaluates ts m status view.values.reverse view.output := by
  obtain ⟨n, hn⟩ := h
  refine ⟨n, m', hn 0, ?_, hm'.output⟩
  rcases (hm'.shows.stackValues hm'.atTop).outcome with ⟨vs, m'', ho, hvs, -⟩ | ⟨f, m'', -, hno, -⟩
  · rw [ho, hvs]
  · cases hno

/-- Cells that all stand for something stand for values. -/
theorem Arena.exists_displays {a : Arena} {p : Value → Prop} {cells : List Cell}
    (h : ∀ cell ∈ cells, ∃ v, a.valueOf rootScope cell = .ok v ∧ p v) :
    ∃ vs, a.Displays cells vs ∧ ∀ v ∈ vs, p v := by
  induction cells with
  | nil => exact ⟨[], displays_nil.mpr rfl, fun _ hv => absurd hv List.not_mem_nil⟩
  | cons cell cells ih =>
    obtain ⟨v, hv, hp⟩ := h cell List.mem_cons_self
    obtain ⟨vs, hvs, hps⟩ := ih fun c hc => h c (List.mem_cons_of_mem _ hc)
    refine ⟨v :: vs, displays_cons.mpr ⟨v, vs, rfl, hv, hvs⟩, fun w hw => ?_⟩
    rcases List.mem_cons.mp hw with rfl | hw
    · exact hp
    · exact hps w hw

namespace Ensemble

variable {w : Ensemble}

/-- At the top level of a running environment with the default operations, without a block open and
without a push session, and with values other than doubles on the stack: literals other than doubles
and words on values that no variable hides, executed one by one, and the same tokens written as a block
that is run at once, leave the same values on the stack and the same output, and both end well or both
fail with the same failure at the same place. -/
theorem Reachable.evaluates_alike (h : w.Reachable) {r : Scope}
    (hr : w.machine.arena.get? rootScope = some r) (hopen : r.compileStack = [])
    (hpush : r.pushTarget = none) (hrunning : Context.top.isStopped w.machine = false)
    (hoperations : ∀ name, r.operations.find? name = Vocabulary.defaults.find? name)
    (hstack : ∀ cell ∈ w.machine.arena.stackCells r.stack,
      ∃ v, Resolves w.machine rootScope cell v ∧ v.isDouble = false)
    {ts : List Token} (hts : ∀ t ∈ ts, t.isStraight = true)
    (hnames : ∀ t ∈ ts, ∀ name, Literal.ofToken t = .atom (.word name) → r.binding? name = none)
    (hname : r.binding? "!" = none) {opening closing run : Token}
    (ho : Literal.ofToken opening = .blockOpen .sharing)
    (hc : Literal.ofToken closing = .blockClose .sharing)
    (hrun : Literal.ofToken run = .atom (.word "!")) :
    ∃ status vs output, Evaluates ts w.machine status vs output ∧
      Evaluates (opening :: ts ++ [closing, run]) w.machine status vs output := by
  have hR := h.sound.regular
  obtain ⟨vs, hcells, hplain⟩ := Arena.exists_displays fun cell hcell => by
    obtain ⟨v, hv, hplain⟩ := hstack cell hcell
    exact ⟨v, resolves_iff.mp hv, hplain⟩
  have hm : Poised r w.machine ⟨vs, w.machine.output⟩ :=
    ⟨hR.tree, ⟨r, hr, rfl, hopen⟩, hpush, hrunning, hcells, hplain, rfl⟩
  obtain ⟨status, view, m, n, hleads, hleads', hm', hn'⟩ :=
    hm.ends_alike (hR.stack_le hr) hts hnames hname hoperations ho hc hrun
  exact ⟨status, view.values.reverse, view.output, hm'.evaluates hleads, hn'.evaluates hleads'⟩

/-- `3 dup . 0 /`, which fails, and `[ 3 dup . 0 / ] !` in a new environment. -/
theorem Reachable.evaluates_alike_failing :
    ∃ (ts : List Token) (opening closing run : Token) (status : Status) (vs : List Value)
      (output : String), ts.map (·.text) = ["3", "dup", ".", "0", "/"] ∧
      Evaluates ts (Environment.freshMachine {} fun _ => none).2 status vs output ∧
      Evaluates (opening :: ts ++ [closing, run]) (Environment.freshMachine {} fun _ => none).2 status
        vs output := by
  have hts : ∀ t ∈ [⟨⟨"", 1, 3⟩, .word, "3"⟩, ⟨⟨"", 1, 5⟩, .word, "dup"⟩, ⟨⟨"", 1, 9⟩, .word, "."⟩,
      ⟨⟨"", 1, 11⟩, .word, "0"⟩, ⟨⟨"", 1, 13⟩, .word, "/"⟩], Token.isStraight t = true := by
    decide +kernel
  have hopening : Literal.ofToken ⟨⟨"", 1, 1⟩, .word, "["⟩ = .blockOpen .sharing := rfl
  have hclosing : Literal.ofToken ⟨⟨"", 1, 15⟩, .word, "]"⟩ = .blockClose .sharing := rfl
  have hrun : Literal.ofToken ⟨⟨"", 1, 17⟩, .word, "!"⟩ = .atom (.word "!") := rfl
  obtain ⟨status, vs, output, hevaluates⟩ :=
    (Reachable.start {} (fun _ => none) .standard).evaluates_alike
      (Environment.get?_fresh {} (fun _ => none) rootScope) rfl rfl (by decide +kernel) (fun _ => rfl)
      (fun _ hcell => absurd hcell List.not_mem_nil) hts (fun _ _ _ _ => rfl) rfl hopening hclosing hrun
  exact ⟨_, _, _, _, status, vs, output, rfl, hevaluates⟩

end Ensemble

end ScopeStack
