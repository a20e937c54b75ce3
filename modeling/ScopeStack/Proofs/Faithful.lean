import ScopeStack.Proofs.Compilation
import ScopeStack.Proofs.Ensemble

/-!
# Compilation is faithful

A block that is written at the top level of a running environment becomes a value that says what was
written, token by token, and nothing else happens.

* `Delivers`: a block has been pushed that spells a script, and the rest is as it was.
* `Rejects`: a token fails as a close without its block, and nothing changes.
* `Ensemble.Reachable.compilation_faithful`: **a block of any depth is delivered, and at any point in
  it a close that does not match is rejected.**
-/

namespace ScopeStack

/-- Between these machines the block `k` has been pushed at the top level, where it is known. It is of
this kind and its code spells the script; no other stack, no variable and nothing else of the machine
has changed, and no block is open. -/
structure Delivers (m m' : Machine) (kind : BlockKind) (script : Script) (k : ScopeId) : Prop where
  pushed {r : Scope} : m.arena.get? rootScope = some r →
    m'.arena.stackCells r.stack = .block k :: m.arena.stackCells r.stack
  others {r : Scope} {σ : StackId} : m.arena.get? rootScope = some r → σ ≤ m.arena.lastStack →
    σ ≠ r.stack → m'.arena.stackCells σ = m.arena.stackCells σ
  bindings (id : ScopeId) (name : String) :
    (m'.arena.get? id).bind (·.binding? name) = (m.arena.get? id).bind (·.binding? name)
  machine : m' = { m with arena := m'.arena }
  closed : m'.arena.openBlocks = []
  resolves : m'.arena.resolveBlock rootScope k = .ok k
  block : ∃ s, m'.arena.get? k = some s ∧ s.parent = some rootScope ∧ s.sharesStack = kind.shares ∧
    s.compiling = false ∧ script.Spells m'.arena.resolving m'.arena k s.code.toList

/-- The token fails at the top level as a close without its block, and the machine stays as it is. -/
def Rejects (m : Machine) (t : Token) : Prop :=
  ∃ f : Failure, f.kind = .unbalancedBlock ∧ f.location = some t.location ∧
    Thread.steps 1 { agenda := [.token .top t] } m = (0, { status := .error f, agenda := [] }, m)

variable {m m' : Machine}

/-- A close that does not match what is open. -/
theorem Compiling.rejects {frames : List Frame} (hm : Compiling m frames) {t : Token}
    {kind : BlockKind} (ht : Literal.ofToken t = .blockClose kind)
    (hkind : (frames.map (·.kind)).head? ≠ some kind) : Rejects m t := by
  have hjob : (Job.start (.token .top t)).Ends m (fun _ _ => False)
      fun f m' => m' = m ∧ f.kind = .unbalancedBlock ∧ f.location = some t.location := by
    rw [Job.ends_token hm.running]
    refine (hm.unbalanced ht hkind).mono (fun _ _ h => h) ?_
    rintro f m' ⟨rfl, hf, hl⟩
    rw [Failure.orAt, hl]
    exact ⟨rfl, hf, rfl⟩
  unfold Action.Ends at hjob
  cases hrun : (Job.start (.token .top t)).run m with
  | ok jobs m' =>
    rw [hrun] at hjob
    exact hjob.elim
  | error f m' =>
    rw [hrun] at hjob
    obtain ⟨rfl, hf, hl⟩ := hjob
    refine ⟨f, hf, hl, ?_⟩
    rw [Thread.steps_succ]
    simp [Thread.step, Thread.isBlocked, Job.isBlocked, Thread.perform, hrun, Thread.steps]

/-- Where compiling has added something, variables are as they were. -/
theorem Arena.Extends.binding? {a b : Arena} (hE : a.Extends b) (id : ScopeId) (name : String) :
    (b.get? id).bind (·.binding? name) = (a.get? id).bind (·.binding? name) := by
  cases hs : a.get? id with
  | some s =>
    obtain ⟨t, ht, hfixed, -⟩ := hE.get? hs
    rw [ht]
    exact Scope.eq_of_fixed (·.binding? name) (fun _ => rfl) hfixed
  | none =>
    cases ht : b.get? id with
    | none => rfl
    | some t =>
      rcases hE.new ht with ⟨s, hs'⟩ | ⟨-, p, σ, shares, -, hfixed⟩
      · cases hs.symm.trans hs'
      · exact Scope.eq_of_fixed (·.binding? name) (fun _ => rfl) hfixed

/-- **The tokens of a block literal are executed one by one**: there is one block more, for these tokens,
which the top level knows and has pushed. -/
theorem Compiling.executes_block (hm : Compiling m []) {r : Scope}
    (hr : m.arena.get? rootScope = some r) {kind : BlockKind} {opening closing : Token}
    (ho : Literal.ofToken opening = .blockOpen kind)
    (hc : Literal.ofToken closing = .blockClose kind) (body : Script) :
    ∃ m', Executes (opening :: body.tokens ++ [closing]) m m' ∧ m.arena.Extends m'.arena ∧
      m' = { m with arena := m'.arena } ∧ Compiling m' [] ∧
      (∀ σ, σ ≤ m.arena.lastStack → m'.arena.stackCells σ =
        if σ = r.stack then .block (m.arena.lastScope + 1) :: m.arena.stackCells σ
        else m.arena.stackCells σ) ∧
      rootScope ∈ m'.arena.scopesKnowing (m.arena.lastScope + 1) ∧
      ∃ s, m'.arena.get? (m.arena.lastScope + 1) = some s ∧ s.parent = some rootScope ∧
        s.sharesStack = kind.shares ∧ s.compiling = false ∧
        body.Spells m'.arena.owning m'.arena (m.arena.lastScope + 1) s.code.toList := by
  obtain ⟨jobs, m₁, hrun₁, rfl, hcompiled₁, hm₁, -⟩ := (hm.opened ho).run_eq_ok
  obtain ⟨m₂, code, hexec₂, hcompiled₂, hm₂, hspells⟩ := body.compiles hm₁
  obtain ⟨jobs, m₃, hrun₃, rfl, hgrown₃, hrest₃, hfinished, hm₃, ⟨r₂, hr₂, hstacks₃⟩, -⟩ :=
    (hm₂.closedLast hc).run_eq_ok
  have hcompiled := hcompiled₁.trans hcompiled₂
  have hgrown := hcompiled.grown.trans hgrown₃
  obtain ⟨s, hs, hp, hshares, hclosed, hcode, hknown⟩ := hfinished
  have hstack : r₂.stack = r.stack := by
    obtain ⟨r', hr', hfixed, -⟩ := hcompiled.grown.get? hr
    cases hr₂.symm.trans hr'
    exact Scope.eq_of_fixed (·.stack) (fun _ => rfl) hfixed
  refine ⟨m₃, ?_, hgrown, ?_, hm₃, fun σ hσ => ?_, hknown, s, hs, hp, hshares, hclosed, ?_⟩
  · exact .trans (.trans (.single hm.running (.of_run hrun₁)) hexec₂)
      (.single hm₂.running (.of_run hrun₃))
  · rw [hrest₃, hcompiled.rest]
  · rw [hstacks₃ σ (Nat.le_trans hσ hcompiled.grown.lastStack), hcompiled.stackCells hσ, hstack]
  · rw [hcode]
    exact hgrown₃.spells hspells

/-- **A block is delivered.** -/
theorem Compiling.delivers (hm : Compiling m []) (hroot : ∀ r, m.arena.get? rootScope = some r →
      r.stack ≤ m.arena.lastStack) {kind : BlockKind} {opening closing : Token}
    (ho : Literal.ofToken opening = .blockOpen kind)
    (hc : Literal.ofToken closing = .blockClose kind) (body : Script) :
    ∃ m' k, Executes (opening :: body.tokens ++ [closing]) m m' ∧ Delivers m m' kind body k := by
  obtain ⟨r, hr, -⟩ := hm.root
  obtain ⟨m', hexec, hgrown, hrest, hm', hcells, hknown, s, hs, hp, hshares, hclosed, hspells⟩ :=
    hm.executes_block hr ho hc body
  have hlinked : m'.arena.Linked (m.arena.lastScope + 1) := by
    refine ⟨s, hs, fun p hp' => ?_⟩
    cases hp.symm.trans hp'
    exact hm'.target_live
  refine ⟨m', m.arena.lastScope + 1, hexec, fun {r'} hr' => ?_, fun {r' σ} hr' hσ hne => ?_,
    hgrown.binding?, hrest, ?_, hm'.tree.resolveBlock_eq_ok hm'.tree.linked_root ⟨s, hs⟩ hknown,
    s, hs, hp, hshares, hclosed, hspells.resolving hm'.tree hlinked⟩
  · cases hr.symm.trans hr'
    rw [hcells _ (hroot r hr), if_pos rfl]
  · cases hr.symm.trans hr'
    rw [hcells σ hσ, if_neg hne]
  · rw [hm'.openBlocks]
    rfl

namespace Ensemble

variable {w : Ensemble}

/-- At the top level of a running environment, without a block open and without a push session, the
tokens of a block with blocks inside to any depth all end well, and deliver the block; at any point of
them a close that does not match what is open then is rejected. -/
theorem Reachable.compilation_faithful (h : w.Reachable) {r : Scope}
    (hr : w.machine.arena.get? rootScope = some r) (hopen : r.compileStack = [])
    (hpush : r.pushTarget = none) (hrun : Context.top.isStopped w.machine = false)
    {kind : BlockKind} {opening closing : Token} (ho : Literal.ofToken opening = .blockOpen kind)
    (hc : Literal.ofToken closing = .blockClose kind) (body : Script) :
    (∃ m k, Thread.steps (opening :: body.tokens ++ [closing]).length
        { agenda := (opening :: body.tokens ++ [closing]).map (.token .top) } w.machine =
          (0, { agenda := [] }, m) ∧ Delivers w.machine m kind body k) ∧
    ∀ pre post t other, opening :: body.tokens ++ [closing] = pre ++ post →
      Literal.ofToken t = .blockClose other → (openKinds [] pre).head? ≠ some other →
      ∃ m, Thread.steps pre.length { agenda := pre.map (.token .top) } w.machine =
        (0, { agenda := [] }, m) ∧ Rejects m t := by
  have hR := h.sound.regular
  have hm : Compiling w.machine [] := ⟨hR.tree, hrun, ⟨r, hr, hpush, hopen⟩, trivial⟩
  have hsteps {ts : List Token} {m : Machine} (hexec : Executes ts w.machine m) :
      Thread.steps ts.length { agenda := ts.map (.token .top) } w.machine =
        (0, { agenda := [] }, m) := by
    have hend := hexec [] 0
    rwa [List.append_nil, Nat.add_zero] at hend
  refine ⟨?_, fun pre post t other hsplit ht hkind => ?_⟩
  · obtain ⟨m, k, hexec, hdelivers⟩ := hm.delivers (fun _ hs => hR.stack_le hs) ho hc body
    exact ⟨m, k, hsteps hexec, hdelivers⟩
  · have hall : Nests [] (opening :: body.tokens ++ [closing]) := by
      rw [List.cons_append, Nests, ho]
      refine body.nests_append ?_
      rw [Nests, hc]
      exact ⟨rfl, trivial⟩
    rw [hsplit] at hall
    obtain ⟨m, frames, hexec, hm', hkinds⟩ := hm.tracks hall.of_append
    exact ⟨m, hsteps hexec, hm'.rejects ht (hkinds ▸ hkind)⟩

/-- `[ "a" { dup } ]` in a new environment, and a `}` after its first token. -/
theorem Reachable.compilation_faithful_nested :
    ∃ (body : Script) (m m₁ : Machine) (k : ScopeId),
      body.tokens.map (·.text) = ["a", "\x7b", "dup", "\x7d"] ∧
      Delivers (Environment.freshMachine {} fun _ => none).2 m .sharing body k ∧
      Rejects m₁ ⟨⟨"", 1, 3⟩, .word, "\x7d"⟩ := by
  have hword : Literal.ofToken ⟨⟨"", 1, 9⟩, .word, "dup"⟩ = .atom (.word "dup") := rfl
  have hopening : Literal.ofToken ⟨⟨"", 1, 1⟩, .word, "["⟩ = .blockOpen .sharing := rfl
  have hclosing : Literal.ofToken ⟨⟨"", 1, 15⟩, .word, "]"⟩ = .blockClose .sharing := rfl
  obtain ⟨⟨m, k, -, hdelivers⟩, hrejects⟩ :=
    (Reachable.start {} (fun _ => none) .standard).compilation_faithful
      (Environment.get?_fresh {} (fun _ => none) rootScope) rfl rfl (by decide +kernel) hopening hclosing
      (.atom ⟨⟨"", 1, 3⟩, .double, "a"⟩ _ rfl (.block .isolated ⟨⟨"", 1, 7⟩, .word, "\x7b"⟩
        ⟨⟨"", 1, 13⟩, .word, "\x7d"⟩ rfl rfl (.atom _ _ hword .nil) .nil))
  obtain ⟨m₁, -, hclose⟩ := hrejects [_] _ ⟨⟨"", 1, 3⟩, .word, "\x7d"⟩ .isolated rfl rfl (by
    rw [openKinds, hopening]
    decide)
  exact ⟨_, m, m₁, k, rfl, hdelivers, hclose⟩

end Ensemble

end ScopeStack
