import ScopeStack.Proofs.Plans
import ScopeStack.Proofs.Quiet

/-!
# Chains of branches

`if`, `elif` and `else` each take a block and booleans, and tell the next word whether a branch has been
taken. One after the other they run the first block whose condition holds.

* `ControlWord.takes`: what such a word makes of its booleans; `ControlWord.plan_takes`: **it takes them
  and its block, and nothing else.**
* `Clause`, `Arm`, `BranchChain`: a chain as it is written. `Clause.reached`, `Clause.skipped`: one of its
  blocks is run next, or is not run and goes.
* `BranchChain.choice`: the first block whose condition holds. `Receptive.reaches`, `Receptive.passes`: by
  induction on the arms it is run, and those behind it go by.
* `Ensemble.Reachable.runs_one_branch`: **a chain runs that block and no other, and what is left behind is
  what the block has left.**
-/

namespace ScopeStack

open ScopeStack.Action

variable {m m' : Machine} {k : ScopeId} {S : List Cell} {B : BlockLiteral}

/-! ## 1. Words -/

/-- What a word of a chain makes of the booleans that it takes, the top one first: is its block wanted,
and what does it answer? -/
def ControlWord.takes : ControlWord → List Bool → Option (Bool × Option Bool)
  | .branch, [condition] => some (condition, some condition)
  | .branchElse, [condition, previous] => some (!previous && condition, some (previous || condition))
  | .otherwise, [previous] => some (!previous, none)
  | _, _ => none

/-- Booleans on a stack. -/
def boolCells (bs : List Bool) : List Cell := bs.map .bool

/-- **A word of a chain takes its block and its booleans**, and nothing else happens. -/
theorem ControlWord.plan_takes (hm : Compiling m []) (hk : m.arena.WrittenAs k B) {w : ControlWord}
    {bs : List Bool} {wanted : Bool} {answer : Option Bool} (hw : w.takes bs = some (wanted, answer))
    (hcells : m.arena.topCells = .block k :: boolCells bs ++ S) :
    (w.plan .top).Ends m (fun p m' => p = .once (.block k) wanted answer ∧ Onward m m' ∧
      m'.arena.topCells = S) fun _ _ => False := by
  have htop : Context.top.popRunnable.Ends m (fun v m' => v = .block k ∧ Onward m m' ∧
      m'.arena.topCells = boolCells bs ++ S) fun _ _ => False := hm.popRunnable hk hcells
  unfold takes at hw
  split at hw
  · cases hw
    refine htop.bind ?_
    rintro _ m₁ ⟨rfl, hon, hcells₁⟩
    refine (hon.compiling.pops (v := .bool _) hcells₁ fun _ _ => ⟨rfl, rfl⟩).bind ?_
    rintro _ m₂ ⟨rfl, hon₂, hcells₂⟩
    exact ⟨rfl, hon.trans hon₂, hcells₂⟩
  · cases hw
    refine htop.bind ?_
    rintro _ m₁ ⟨rfl, hon, hcells₁⟩
    refine (hon.compiling.popBool hcells₁).bind ?_
    rintro _ m₂ ⟨rfl, hon₂, hcells₂⟩
    refine (hon₂.compiling.popBool hcells₂).bind ?_
    rintro _ m₃ ⟨rfl, hon₃, hcells₃⟩
    exact ⟨rfl, hon.trans (hon₂.trans hon₃), hcells₃⟩
  · cases hw
    refine htop.bind ?_
    rintro _ m₁ ⟨rfl, hon, hcells₁⟩
    refine (hon.compiling.popBool hcells₁).bind ?_
    rintro _ m₂ ⟨rfl, hon₂, hcells₂⟩
    exact ⟨rfl, hon.trans hon₂, hcells₂⟩
  · cases hw

/-- The words of a chain, with their names. -/
inductive BranchWord : String → ControlWord → Prop where
  | ifTrue : BranchWord "if" .branch
  | elseIf : BranchWord "elif" .branchElse
  | otherwise : BranchWord "else" .otherwise

/-- These are the names of these words in a new environment. -/
theorem BranchWord.default {name : String} {w : ControlWord} (h : BranchWord name w) :
    ∃ op, Vocabulary.defaults.find? name = some op ∧ op.effect = .control w := by
  cases h <;> decide +kernel

/-- The top level can take a chain: it runs, no block and no push session is open, and the words of a
chain mean what they mean in a new environment. -/
structure Receptive (m : Machine) : Prop where
  compiling : Compiling m []
  stack_le {r : Scope} : m.arena.get? rootScope = some r → r.stack ≤ m.arena.lastStack
  offers {name : String} {w : ControlWord} : BranchWord name w → m.arena.Offers rootScope name

theorem Aside.receptive {lost : ScopeId → Prop} (h : Aside lost m m') (hm : Receptive m) :
    Receptive m' where
  compiling := h.compiling hm.compiling
  stack_le {t} ht := by
    obtain ⟨r, hr, -⟩ := hm.compiling.root
    obtain ⟨t', ht', hfixed, -⟩ := h.root hr
    cases ht.symm.trans ht'
    rw [Scope.eq_of_fixed (·.stack) (fun _ => rfl) hfixed]
    exact Nat.le_trans (hm.stack_le hr) h.lastStack
  offers hname := h.offers hm.compiling.tree (hm.offers hname)

theorem Receptive.onward (hm : Receptive m) (h : Onward m m') : Receptive m' :=
  (h.aside hm.compiling fun _ => False).receptive hm

/-- What a word of a chain leaves to be done, before what follows it: run the block if it is wanted, let
go of it, and push an answer if there is one. -/
def branchJobs (k : ScopeId) (wanted : Bool) (answer : Option Bool) (l : Location) : List Job :=
  runThenDiscard .top (.block k) wanted ++ answer.toList.map (fun b => .push .top (.bool b)) ++
    [.stamp l]

/-- **The token of a word of a chain** takes the block and the booleans, and leaves that to be done. -/
theorem Receptive.word (hm : Receptive m) {name : String} {w : ControlWord} (hname : BranchWord name w)
    {t : Token} (ht : Literal.ofToken t = .atom (.word name)) (hk : m.arena.WrittenAs k B)
    {bs : List Bool} {wanted : Bool} {answer : Option Bool} (hw : w.takes bs = some (wanted, answer))
    (hcells : m.arena.topCells = .block k :: boolCells bs ++ S) :
    (Job.token .top t).start.Ends m (fun jobs m' => jobs = branchJobs k wanted answer t.location ∧
      Onward m m' ∧ m'.arena.topCells = S) fun _ _ => False := by
  have hT := hm.compiling.tree
  rw [Job.ends_token hm.compiling.running]
  refine Context.ends_compileToken_top hT hm.compiling.openBlocks ht fun cell m₁ hrest hG his _ => ?_
  have hon := Onward.grows hm.compiling hrest hG
  have hT₁ := hon.compiling.tree
  obtain ⟨op, hop, heffect⟩ := hname.default
  have hcells₁ := (hG.topCells hT).trans hcells
  rw [his.ends_runCell hT₁.forest,
    Context.ends_runWord_offered ((hm.onward hon).offers hname) hop, heffect]
  show (w.perform .top).Ends m₁ _ _
  rw [w.perform_eq]
  refine (ControlWord.plan_takes hon.compiling (hk.grown hon.grown) hw hcells₁).bind ?_
  rintro _ m' ⟨rfl, hon', hcells'⟩
  rw [Plan.carryOut_once]
  exact ⟨by cases wanted <;> rfl, hon.trans hon', hcells'⟩

/-! ## 2. Clauses -/

/-- A word of a chain, with the block that is written in front of it. -/
structure Clause (name : String) where
  block : BlockLiteral
  word : Token
  isWord : Literal.ofToken word = .atom (.word name)

/-- Its tokens in order. -/
def Clause.tokens {name : String} (c : Clause name) : List Token := c.block.tokens ++ [c.word]

/-- A clause with its condition. -/
structure Arm (name : String) extends Clause name where
  condition : Token
  truth : Bool
  isCondition : Literal.ofToken condition = .atom (.bool truth)

/-- Its tokens in order, the condition first. -/
def Arm.tokens {name : String} (a : Arm name) : List Token := a.condition :: a.toClause.tokens

section Clauses

variable {name : String} {w : ControlWord} {wanted : Bool} {answer : Option Bool}
  {rest : List Job} {us : List Thread}

/-- **A clause is executed** up to what its word leaves to be done. -/
theorem Clause.reached (c : Clause name) (bs : List Bool) (hname : BranchWord name w) (hm : Receptive m)
    (hw : w.takes bs = some (wanted, answer)) (hcells : m.arena.topCells = boolCells bs ++ S)
    (hrest : Agenda.calls rest = []) :
    ∃ k m', Thread.Quiet { agenda := c.tokens.map (.token .top) ++ rest } m
        { agenda := branchJobs k wanted answer c.word.location ++ rest } m' ∧
      Onward m m' ∧ m'.arena.topCells = S ∧ m'.arena.WrittenAs k c.block := by
  obtain ⟨m₁, k, hexec, hon, hcells₁, hk⟩ :=
    hm.compiling.executes_literal (fun _ => hm.stack_le) c.block
  rw [hcells] at hcells₁
  obtain ⟨_, m', hrun, rfl, hon', hcells'⟩ :=
    ((hm.onward hon).word hname c.isWord hk hw hcells₁).run_eq_ok
  have hword := Thread.step_started rfl hrun rest
  have hcalls : Agenda.calls (branchJobs k wanted answer c.word.location ++ rest) = [] := by
    rw [Agenda.calls_append, hrest]
    cases wanted <;> cases answer <;> rfl
  refine ⟨k, m', ?_, hon.trans hon', hcells', hk.grown hon'.grown⟩
  rw [Clause.tokens, List.map_append, List.append_assoc]
  exact (hexec.quiet (.token .top c.word :: rest) hrest).step hword hcalls

/-- An answer is pushed. -/
theorem Compiling.answers (hm : Compiling m []) (answer : Option Bool) (l : Location) (rest : List Job)
    (hrest : Agenda.calls rest = []) :
    ∃ m', Thread.Quiet
        { agenda := answer.toList.map (fun b => .push .top (.bool b)) ++ .stamp l :: rest } m
        { agenda := rest } m' ∧
      Onward m m' ∧ m'.arena.topCells = boolCells answer.toList ++ m.arena.topCells := by
  have hstamp (m : Machine) : Thread.Quiet { agenda := .stamp l :: rest } m { agenda := rest } m :=
    .done rfl rfl rfl hrest
  cases answer with
  | none => exact ⟨m, hstamp m, .refl hm, rfl⟩
  | some b =>
    have hpush : (Job.push .top (.bool b)).start.Ends m (fun jobs m' => jobs = [] ∧ Onward m m' ∧
        m'.arena.topCells = .bool b :: m.arena.topCells) fun _ _ => False :=
      (hm.pushes_bool b).bind fun _ _ h => ⟨rfl, h⟩
    obtain ⟨_, m', hrun, rfl, hm'⟩ := hpush.run_eq_ok
    exact ⟨m', .trans (.done rfl hrun rfl hrest) (hstamp m'), hm'⟩

/-- **A clause whose block is not wanted** goes by, and answers. -/
theorem Clause.skipped (c : Clause name) (bs : List Bool) (hname : BranchWord name w) (hm : Receptive m)
    (hreach : Ensemble.Reachable ⟨m, { agenda := c.tokens.map (.token .top) ++ rest }, us⟩)
    (hw : w.takes bs = some (false, answer)) (hcells : m.arena.topCells = boolCells bs ++ S)
    (hrest : Agenda.calls rest = []) :
    ∃ m', Thread.Quiet { agenda := c.tokens.map (.token .top) ++ rest } m { agenda := rest } m' ∧
      Aside (fun _ => False) m m' ∧ m'.arena.topCells = boolCells answer.toList ++ S := by
  obtain ⟨k, m₁, hquiet₁, hon₁, hcells₁, hk⟩ := c.reached bs hname hm hw hcells hrest
  have hagenda : branchJobs k false answer c.word.location ++ rest = .discard .top [.block k] ::
      (answer.toList.map (fun b => .push .top (.bool b)) ++ .stamp c.word.location :: rest) :=
    List.append_assoc ..
  have hcalls := hquiet₁.calls
  rw [hagenda] at hquiet₁ hcalls
  obtain ⟨m₂, hquiet₂, haside, hcells₂⟩ :=
    (hquiet₁.reachable hreach).discards rfl (Agenda.calls_tail hcalls)
  have haside₁ := hon₁.aside hm.compiling fun _ => False
  have haside₂ := haside.of_writtenAs hon₁.compiling.tree.forest hk
  have hm₂ := haside₂.compiling hon₁.compiling
  obtain ⟨m₃, hquiet₃, hon₃, hcells₃⟩ := hm₂.answers answer c.word.location rest hrest
  have hF := hm.compiling.tree.forest
  refine ⟨m₃, hquiet₁.trans (hquiet₂.trans hquiet₃),
    haside₁.trans hF (haside₂.trans hon₁.compiling.tree.forest (hon₃.aside hm₂ _)), ?_⟩
  rw [hcells₃, hcells₂, hcells₁]

/-- The condition of an arm is pushed. -/
theorem Arm.begins (a : Arm name) (hm : Receptive m) (hrest : Agenda.calls rest = []) :
    ∃ m', Thread.Quiet { agenda := a.tokens.map (.token .top) ++ rest } m
        { agenda := a.toClause.tokens.map (.token .top) ++ rest } m' ∧
      Onward m m' ∧ m'.arena.topCells = .bool a.truth :: m.arena.topCells := by
  obtain ⟨m', hexec, hon, hcells⟩ := hm.compiling.executes_bool a.isCondition
  have hcalls : Agenda.calls (a.toClause.tokens.map (.token .top) ++ rest) = [] := by
    rw [Agenda.calls_append, Agenda.calls_tokens, hrest]
    rfl
  exact ⟨m', hexec.quiet _ hcalls, hon, hcells⟩

/-- **An arm is executed** up to what its word leaves to be done. -/
theorem Arm.reached (a : Arm name) (bs : List Bool) (hname : BranchWord name w) (hm : Receptive m)
    (hw : w.takes (a.truth :: bs) = some (wanted, answer))
    (hcells : m.arena.topCells = boolCells bs ++ S) (hrest : Agenda.calls rest = []) :
    ∃ k m', Thread.Quiet { agenda := a.tokens.map (.token .top) ++ rest } m
        { agenda := branchJobs k wanted answer a.word.location ++ rest } m' ∧
      Onward m m' ∧ m'.arena.topCells = S ∧ m'.arena.WrittenAs k a.block := by
  obtain ⟨m₁, hquiet₁, hon₁, hcells₁⟩ := a.begins hm hrest
  rw [hcells] at hcells₁
  obtain ⟨k, m', hquiet, hon, hcells', hk⟩ :=
    a.toClause.reached _ hname (hm.onward hon₁) hw hcells₁ hrest
  exact ⟨k, m', hquiet₁.trans hquiet, hon₁.trans hon, hcells', hk⟩

/-- **An arm whose block is not wanted** goes by, and answers. -/
theorem Arm.skipped (a : Arm name) (bs : List Bool) (hname : BranchWord name w) (hm : Receptive m)
    (hreach : Ensemble.Reachable ⟨m, { agenda := a.tokens.map (.token .top) ++ rest }, us⟩)
    (hw : w.takes (a.truth :: bs) = some (false, answer))
    (hcells : m.arena.topCells = boolCells bs ++ S) (hrest : Agenda.calls rest = []) :
    ∃ m', Thread.Quiet { agenda := a.tokens.map (.token .top) ++ rest } m { agenda := rest } m' ∧
      Aside (fun _ => False) m m' ∧ m'.arena.topCells = boolCells answer.toList ++ S := by
  obtain ⟨m₁, hquiet₁, hon₁, hcells₁⟩ := a.begins hm hrest
  rw [hcells] at hcells₁
  obtain ⟨m', hquiet, haside, hcells'⟩ := a.toClause.skipped _ hname (hm.onward hon₁)
    (hquiet₁.reachable hreach) hw hcells₁ hrest
  exact ⟨m', hquiet₁.trans hquiet,
    (hon₁.aside hm.compiling _).trans hm.compiling.tree.forest haside, hcells'⟩

end Clauses

/-! ## 3. Chains -/

/-- `c1 B1 if`, then `d1 E1 elif`, `d2 E2 elif` and so on, then `Z else`. -/
structure BranchChain where
  first : Arm "if"
  arms : List (Arm "elif")
  last : Clause "else"

/-- The tokens of the arms behind the first, and of the last clause. -/
def elseTokens (arms : List (Arm "elif")) (last : Clause "else") : List Token :=
  arms.flatMap (·.tokens) ++ last.tokens

theorem elseTokens_cons (arm : Arm "elif") (arms : List (Arm "elif")) (last : Clause "else") :
    (elseTokens (arm :: arms) last).map (Job.token .top) =
      arm.tokens.map (.token .top) ++ (elseTokens arms last).map (.token .top) := by
  rw [elseTokens, List.flatMap_cons, List.append_assoc, List.map_append]
  rfl

/-- The block of the first of these arms whose condition holds, or that of the last clause, with the word
that runs it. -/
def elseChoice (arms : List (Arm "elif")) (last : Clause "else") : BlockLiteral × Token :=
  match arms.find? (·.truth) with
  | some arm => (arm.block, arm.word)
  | none => (last.block, last.word)

namespace BranchChain

/-- Its tokens in order. -/
def tokens (chain : BranchChain) : List Token := chain.first.tokens ++ elseTokens chain.arms chain.last

/-- The first block whose condition holds, or the last block, with the word that runs it. -/
def choice (chain : BranchChain) : BlockLiteral × Token :=
  if chain.first.truth then (chain.first.block, chain.first.word)
  else elseChoice chain.arms chain.last

end BranchChain

/-- What is to be done when the block that has been chosen has run: it goes, and the rest of the chain
goes by. -/
inductive Remains (k : ScopeId) (l : Location) : List Job → Prop where
  | last : Remains k l [.discard .top [.block k], .stamp l]
  | more (arms : List (Arm "elif")) (last : Clause "else") :
      Remains k l (.discard .top [.block k] :: .push .top (.bool true) :: .stamp l ::
        (elseTokens arms last).map (.token .top))

variable {us : List Thread}

/-- **When a branch has been taken, the arms that follow go by**, and the last clause takes the answer. -/
theorem Receptive.passes (arms : List (Arm "elif")) (last : Clause "else") (hm : Receptive m)
    (hreach : Ensemble.Reachable ⟨m, { agenda := (elseTokens arms last).map (.token .top) }, us⟩)
    (hcells : m.arena.topCells = .bool true :: S) :
    ∃ m', Thread.Quiet { agenda := (elseTokens arms last).map (.token .top) } m { agenda := [] } m' ∧
      Aside (fun _ => False) m m' ∧ m'.arena.topCells = S := by
  induction arms generalizing m with
  | nil =>
    rw [← List.append_nil ((elseTokens [] last).map _)] at hreach ⊢
    exact last.skipped [true] .otherwise hm hreach rfl hcells rfl
  | cons arm arms ih =>
    rw [elseTokens_cons] at hreach ⊢
    obtain ⟨m₁, hquiet₁, haside₁, hcells₁⟩ := arm.skipped [true] .elseIf hm hreach rfl hcells
      (Agenda.calls_tokens .top _)
    obtain ⟨m₂, hquiet₂, haside₂, hcells₂⟩ :=
      ih (haside₁.receptive hm) (hquiet₁.reachable hreach) hcells₁
    exact ⟨m₂, hquiet₁.trans hquiet₂, haside₁.trans hm.compiling.tree.forest haside₂, hcells₂⟩

/-- **As long as no branch has been taken**, the arms whose conditions do not hold go by, and the block of
the first one whose condition holds, or of the last clause, is to be run. -/
theorem Receptive.reaches (arms : List (Arm "elif")) (last : Clause "else") (hm : Receptive m)
    (hreach : Ensemble.Reachable ⟨m, { agenda := (elseTokens arms last).map (.token .top) }, us⟩)
    (hcells : m.arena.topCells = .bool false :: S) :
    ∃ k m' after, Thread.Quiet { agenda := (elseTokens arms last).map (.token .top) } m
        { agenda := .value .top (.block k) :: after } m' ∧
      Aside (fun _ => False) m m' ∧ m'.arena.topCells = S ∧
      m'.arena.WrittenAs k (elseChoice arms last).1 ∧
      Remains k (elseChoice arms last).2.location after := by
  induction arms generalizing m with
  | nil =>
    have hnone : Agenda.calls [] = [] := rfl
    rw [← List.append_nil ((elseTokens [] last).map _)] at hreach ⊢
    obtain ⟨k, m', hquiet, hon, hcells', hk⟩ := last.reached [false] .otherwise hm rfl hcells hnone
    exact ⟨k, m', _, hquiet, hon.aside hm.compiling _, hcells', hk, .last⟩
  | cons arm arms ih =>
    rw [elseTokens_cons] at hreach ⊢
    have hrest := Agenda.calls_tokens .top (elseTokens arms last)
    cases htruth : arm.truth with
    | true =>
      obtain ⟨k, m', hquiet, hon, hcells', hk⟩ :=
        arm.reached [false] .elseIf hm (by rw [htruth]; rfl) hcells hrest
      rw [elseChoice, List.find?_cons_of_pos htruth]
      exact ⟨k, m', _, hquiet, hon.aside hm.compiling _, hcells', hk, .more arms last⟩
    | false =>
      obtain ⟨m₁, hquiet₁, haside₁, hcells₁⟩ :=
        arm.skipped [false] .elseIf hm hreach (by rw [htruth]; rfl) hcells hrest
      obtain ⟨k, m', after, hquiet₂, haside₂, hcells₂, hk, hafter⟩ :=
        ih (haside₁.receptive hm) (hquiet₁.reachable hreach) hcells₁
      rw [elseChoice, List.find?_cons_of_neg (by rw [htruth]; decide)]
      exact ⟨k, m', after, hquiet₁.trans hquiet₂, haside₁.trans hm.compiling.tree.forest haside₂,
        hcells₂, hk, hafter⟩

/-- **A chain is executed** up to the run of the block that is chosen. -/
theorem Receptive.chooses (chain : BranchChain) (hm : Receptive m)
    (hreach : Ensemble.Reachable ⟨m, { agenda := chain.tokens.map (.token .top) }, us⟩) :
    ∃ k m' after, Thread.Quiet { agenda := chain.tokens.map (.token .top) } m
        { agenda := .value .top (.block k) :: after } m' ∧
      Aside (fun _ => False) m m' ∧ m'.arena.topCells = m.arena.topCells ∧
      m'.arena.WrittenAs k chain.choice.1 ∧ Remains k chain.choice.2.location after := by
  have hrest := Agenda.calls_tokens .top (elseTokens chain.arms chain.last)
  rw [BranchChain.tokens, List.map_append] at hreach ⊢
  rw [BranchChain.choice]
  cases htruth : chain.first.truth with
  | true =>
    obtain ⟨k, m', hquiet, hon, hcells, hk⟩ :=
      chain.first.reached [] .ifTrue hm (by rw [htruth]; rfl) rfl hrest
    exact ⟨k, m', _, hquiet, hon.aside hm.compiling _, hcells, hk, .more chain.arms chain.last⟩
  | false =>
    obtain ⟨m₁, hquiet₁, haside₁, hcells₁⟩ :=
      chain.first.skipped [] .ifTrue hm hreach (by rw [htruth]; rfl) rfl hrest
    obtain ⟨k, m', after, hquiet₂, haside₂, hcells₂, hk, hafter⟩ :=
      (haside₁.receptive hm).reaches chain.arms chain.last (hquiet₁.reachable hreach) hcells₁
    exact ⟨k, m', after, hquiet₁.trans hquiet₂, haside₁.trans hm.compiling.tree.forest haside₂,
      hcells₂, hk, hafter⟩

/-- **When the block has run well**, it goes, and the rest of the chain goes by. -/
theorem Remains.ends {l : Location} {after : List Job} (h : Remains k l after) (hm : Receptive m)
    (hreach : Ensemble.Reachable ⟨m, { agenda := after }, us⟩) :
    ∃ m', Thread.Quiet { agenda := after } m { agenda := [] } m' ∧
      Aside (k ∈ m.arena.chain ·) m m' ∧ m'.arena.topCells = m.arena.topCells := by
  have hF := hm.compiling.tree.forest
  cases h with
  | last =>
    obtain ⟨m₁, hquiet₁, haside₁, hcells₁⟩ := hreach.discards (k := k) rfl rfl
    obtain ⟨m₂, hquiet₂, hon, hcells₂⟩ :=
      (haside₁.compiling hm.compiling).answers none l [] rfl
    exact ⟨m₂, hquiet₁.trans hquiet₂,
      haside₁.trans hF (hon.aside (haside₁.compiling hm.compiling) _), hcells₂.trans hcells₁⟩
  | more arms last =>
    have hrest := Agenda.calls_tokens .top (elseTokens arms last)
    obtain ⟨m₁, hquiet₁, haside₁, hcells₁⟩ := hreach.discards (k := k) rfl hrest
    obtain ⟨m₂, hquiet₂, hon, hcells₂⟩ :=
      (haside₁.compiling hm.compiling).answers (some true) l _ hrest
    have haside₂ := haside₁.trans hF (hon.aside (haside₁.compiling hm.compiling) _)
    have hquiet := hquiet₁.trans hquiet₂
    obtain ⟨m₃, hquiet₃, haside₃, hcells₃⟩ :=
      (haside₂.receptive hm).passes arms last (hquiet.reachable hreach) hcells₂
    exact ⟨m₃, hquiet.trans hquiet₃,
      haside₂.trans hF (haside₃.mono fun _ h => h.elim), hcells₃.trans hcells₁⟩

/-- **When it has failed**, it goes, the failure has a place, and nothing else is executed. -/
theorem Remains.fails {l : Location} {after : List Job} (h : Remains k l after) {f : Failure}
    (hreach : Ensemble.Reachable ⟨m, { status := .error f, agenda := after }, us⟩) :
    ∃ m', Thread.Quiet { status := .error f, agenda := after } m
        { status := .error (f.orAt l), agenda := [] } m' ∧
      Aside (k ∈ m.arena.chain ·) m m' ∧ m'.arena.topCells = m.arena.topCells := by
  -- what is behind the block does nothing but place the failure
  have hstamp (m' : Machine) (ts : List Token) : Thread.Quiet
      { status := .error f, agenda := .stamp l :: ts.map (.token .top) } m'
      { status := .error (f.orAt l), agenda := [] } m' := by
    exact .trans (.settled rfl rfl rfl (Agenda.calls_tokens .top ts)) (.passed (f.orAt l) ts m')
  cases h with
  | last =>
    obtain ⟨m', hquiet, haside, hcells⟩ := hreach.discards (k := k) rfl rfl
    exact ⟨m', hquiet.trans (hstamp m' []), haside, hcells⟩
  | more arms last =>
    have hrest := Agenda.calls_tokens .top (elseTokens arms last)
    obtain ⟨m', hquiet, haside, hcells⟩ := hreach.discards (k := k) rfl hrest
    exact ⟨m', hquiet.trans (.trans (.settled rfl rfl rfl hrest) (hstamp m' _)), haside, hcells⟩

/-! ## 4. Environments -/

/-- A step leaves the worker of a thread as it is. -/
theorem Thread.step_worker {t t' : Thread} (hstep : t.step m = some (t', m')) : t'.worker = t.worker := by
  obtain ⟨job, rest, hagenda⟩ := agenda_of_step hstep
  obtain ⟨-, ⟨-, ⟨jobs, -, rfl⟩ | ⟨f, -, rfl⟩⟩ | ⟨f, -, -, rfl⟩⟩ := step_cases hagenda hstep
  all_goals rfl

/-- Names that the top level does not get keep the words of a chain as they are. -/
theorem Arena.Names.offers {a b : Arena} (h : a.Names b) (hTa : a.Tree) (hTb : b.Tree) {name : String}
    (hname : a.Offers rootScope name) : b.Offers rootScope name := by
  obtain ⟨r, hr, -⟩ := hTa.root
  obtain ⟨t, ht, hoperations, hbinds⟩ := h r hr
  obtain ⟨hbinding, hoperation⟩ := (hTa.offers_root_iff hr).mp hname
  refine (hTb.offers_root_iff ht).mpr ⟨?_, hoperations ▸ hoperation⟩
  cases hcell : t.binding? name with
  | none => rfl
  | some cell =>
    have hbound := hbinds name (by rw [Scope.binds_eq, hcell]; rfl)
    rw [Scope.binds_eq, hbinding] at hbound
    cases hbound

/-- The word that writes a value is no number. -/
theorem Literal.ofToken_dot (l : Location) : Literal.ofToken ⟨l, .word, "."⟩ = .atom (.word ".") := by
  have hint : readMachineInt? "." = none := Option.isNone_iff_eq_none.mp (by decide +kernel)
  have hbig : readBigNumber? "." = none := Option.isNone_iff_eq_none.mp (by decide +kernel)
  show Literal.ofWord "." = _
  unfold Literal.ofWord
  rw [hint, hbig]
  rfl

namespace Ensemble

variable {w : Ensemble}

/-- The thread of the top level is no worker. -/
theorem Reachable.main_worker (h : w.Reachable) : w.main.worker = none := by
  induction h with
  | start | request => rfl
  | command _ _ _ _ ih | begin _ _ _ _ _ _ ih | other _ _ _ ih | retire _ _ _ ih | pass _ _ _ _ _ ih =>
    exact ih
  | step _ hstep ih => exact (Thread.step_worker hstep).trans ih

/-- Tokens are to be executed. -/
theorem Reachable.request_tokens (h : w.Reachable) (hidle : w.main.isDone = true) (ts : List Token) :
    Reachable ⟨w.machine, { agenda := ts.map (.token .top) }, w.others⟩ := by
  refine h.request _ hidle fun job hj => ?_
  obtain ⟨t, -, rfl⟩ := List.mem_map.mp hj
  exact fun d hd => (Option.some.inj hd).symm

theorem Reachable.receptive (h : w.Reachable) {r : Scope}
    (hr : w.machine.arena.get? rootScope = some r) (hopen : r.compileStack = [])
    (hpush : r.pushTarget = none) (hrun : Context.top.isStopped w.machine = false)
    (hoffers : ∀ {name c}, BranchWord name c → w.machine.arena.Offers rootScope name) :
    Receptive w.machine where
  compiling := ⟨h.sound.regular.tree, hrun, ⟨r, hr, hpush, hopen⟩, trivial⟩
  stack_le hs := h.sound.regular.stack_le hs
  offers := hoffers

/-- At the top level of a running environment, with no block open and no push session, where `if`, `elif`
and `else` are no variables and mean what they mean in a new environment, a chain of branches comes to the
run of one block, that of the first condition that holds, or the last one. Until then no block is called,
the stack is as it was, and so are the variables and the output; and the call of the block begins. Whatever
happens during the call, when it is over no block is called any more. If it has ended well, no block is
open, no push session and the process is not to stop, the chain ends well; the stack, the variables other
than those of scopes in the block that have gone, and the output are what the block has left. If it has
failed, so does the chain, with that failure, and nothing else is executed. -/
theorem Reachable.runs_one_branch (h : w.Reachable) (hidle : w.main.isDone = true) {r : Scope}
    (hr : w.machine.arena.get? rootScope = some r) (hopen : r.compileStack = [])
    (hpush : r.pushTarget = none) (hrun : Context.top.isStopped w.machine = false)
    (hwords : ∀ name w, BranchWord name w → r.binding? name = none ∧
      r.operations.find? name = Vocabulary.defaults.find? name) (chain : BranchChain) :
    ∃ k m after,
      Thread.Quiet { agenda := chain.tokens.map (.token .top) } w.machine
        { agenda := .value .top (.block k) :: after } m ∧
      Aside (fun _ => False) w.machine m ∧ m.arena.topCells = w.machine.arena.topCells ∧
      m.arena.WrittenAs k chain.choice.1 ∧
      (∃ callee call m₁, Thread.step { agenda := .value .top (.block k) :: after } m =
          some ({ agenda := .body callee :: .leave .top callee call :: after }, m₁) ∧
        callee.scope = k ∧ m₁.arena.topCells = w.machine.arena.topCells) ∧
      ∀ w₁, CallRun ⟨m, { agenda := after }, w.others⟩ .top k w₁ → w₁.main.agenda = after →
        (w₁.main.status = .ok () → Context.top.isStopped w₁.machine = false →
          (∀ s, w₁.machine.arena.get? rootScope = some s → s.compileStack = [] ∧ s.pushTarget = none) →
          ∃ m', Thread.Quiet w₁.main w₁.machine { agenda := [] } m' ∧
            Aside (k ∈ w₁.machine.arena.chain ·) w₁.machine m' ∧
            m'.arena.topCells = w₁.machine.arena.topCells) ∧
        ∀ f, w₁.main.status = .error f →
          ∃ m', Thread.Quiet w₁.main w₁.machine
              { status := .error (f.orAt chain.choice.2.location), agenda := [] } m' ∧
            Aside (k ∈ w₁.machine.arena.chain ·) w₁.machine m' ∧
            m'.arena.topCells = w₁.machine.arena.topCells := by
  have hm := h.receptive hr hopen hpush hrun fun hname =>
    (h.sound.regular.tree.offers_root_iff hr).mpr (hwords _ _ hname)
  have hreach := h.request_tokens hidle chain.tokens
  obtain ⟨k, m, after, hquiet, haside, hcells, hk, hafter⟩ := hm.chooses chain hreach
  have hm' := haside.receptive hm
  have hreach' : (calling ⟨m, { agenda := after }, w.others⟩ .top k).Reachable := hquiet.reachable hreach
  obtain ⟨_, m₁, hcall, callee, call, rfl, hscope, hcells₁⟩ :=
    (hk.callBlock hm'.compiling.tree fun _ => hm'.stack_le).run_eq_ok
  have hstart : (Job.value .top (.block k)).start.run m = _ := hcall
  refine ⟨k, m, after, hquiet, haside, hcells, hk,
    ⟨callee, call, m₁, Thread.step_started rfl hstart after, hscope, hcells₁.trans hcells⟩,
    fun w₁ hcallrun hreturn => ?_⟩
  obtain ⟨hreach₁, hnames, -⟩ := hcallrun.names hreach'
  obtain ⟨m₁, ⟨worker, status, agenda⟩, others⟩ := w₁
  cases (show agenda = after from hreturn)
  cases (show worker = none from hreach₁.main_worker)
  refine ⟨fun hok hrun₁ hsettled => ?_, fun f hfailed => ?_⟩
  · cases (show status = .ok () from hok)
    have hT₁ := hreach₁.sound.regular.tree
    obtain ⟨s, hs, -⟩ := hT₁.root
    obtain ⟨hopen₁, hpush₁⟩ := hsettled s hs
    have hm₁ := hreach₁.receptive hs hopen₁ hpush₁ hrun₁ fun hname =>
      hnames.offers hm'.compiling.tree hT₁ (hm'.offers hname)
    exact hafter.ends hm₁ hreach₁
  · cases (show status = .error f from hfailed)
    exact hafter.fails hreach₁

/-- `[ "text" . ]`, with its place in a line. -/
def writing (column : Nat) (text : String) : BlockLiteral where
  kind := .sharing
  opening := ⟨⟨"", 1, column⟩, .word, "["⟩
  closing := ⟨⟨"", 1, column + 8⟩, .word, "]"⟩
  opens := rfl
  closes := rfl
  body := .atom ⟨⟨"", 1, column + 2⟩, .double, text⟩ (.str text) rfl
    (.atom ⟨⟨"", 1, column + 6⟩, .word, "."⟩ (.word ".") (Literal.ofToken_dot _) .nil)

/-- `false [ "a" . ] if true [ "b" . ] elif [ "c" . ] else`. -/
def writingChain : BranchChain where
  first := ⟨⟨writing 7 "a", ⟨⟨"", 1, 17⟩, .word, "if"⟩, rfl⟩, ⟨⟨"", 1, 1⟩, .word, "false"⟩, false, rfl⟩
  arms := [⟨⟨writing 25 "b", ⟨⟨"", 1, 35⟩, .word, "elif"⟩, rfl⟩, ⟨⟨"", 1, 20⟩, .word, "true"⟩, true, rfl⟩]
  last := ⟨writing 40 "c", ⟨⟨"", 1, 50⟩, .word, "else"⟩, rfl⟩

/-- In a new environment the second block of this chain is run. What it writes is all that is written, and
nothing is left on the stack. -/
theorem Reachable.runs_one_branch_elif : ∃ (w w₁ : Ensemble) (k : ScopeId) (m m' : Machine)
    (after : List Job), w.Reachable ∧
    Thread.Quiet { agenda := writingChain.tokens.map (.token .top) } w.machine
      { agenda := .value .top (.block k) :: after } m ∧
    m.arena.WrittenAs k (writing 25 "b") ∧
    CallRun ⟨m, { agenda := after }, w.others⟩ .top k w₁ ∧ w₁.main.agenda = after ∧
    Thread.Quiet w₁.main w₁.machine { agenda := [] } m' ∧ m'.arena.topCells = [] ∧ m'.output = "b " := by
  have hw := Reachable.start {} (fun _ => none) .standard
  obtain ⟨k, m, after, hquiet, -, -, hk, ⟨callee, call, m₁, hcall, -⟩, hends⟩ :=
    hw.runs_one_branch rfl (Environment.get?_fresh {} (fun _ => none) rootScope) rfl rfl (by decide +kernel)
      (fun _ _ _ => ⟨rfl, rfl⟩) writingChain
  generalize hfresh : ({ machine := { (Environment.freshMachine {} fun _ => none).2 with
    hash := .standard } } : Ensemble) = w at hw hquiet hends
  -- after fifteen steps the call begins, which takes five
  obtain ⟨t₀, ht₀⟩ : ∃ t₀ : Thread, t₀ = { agenda := writingChain.tokens.map (.token .top) } := ⟨_, rfl⟩
  obtain ⟨run, hrun⟩ : ∃ run, run = t₀.steps 15 w.machine := ⟨_, rfl⟩
  have hstays : t₀.staysQuiet 15 w.machine = true := by
    rw [ht₀, ← hfresh]
    decide +kernel
  have hfacts : (run.2.1.step run.2.2).any (fun r =>
      !(Agenda.calls r.1.agenda).isEmpty && r.1.staysAbove (run.2.1.agenda.length - 1) 4 r.2 &&
      (fun ended : Nat × Thread × Machine =>
        decide (ended.2.1.agenda.length = run.2.1.agenda.length - 1) && ended.2.1.status.isOk &&
        !Context.top.isStopped ended.2.2 && decide (ended.2.2.arena.topCells = []) &&
        decide (ended.2.2.output = "b ") &&
        (ended.2.2.arena.get? rootScope).all fun s => s.compileStack.isEmpty && s.pushTarget.isNone)
        (r.1.steps 4 r.2)) = true := by
    rw [hrun, ht₀, ← hfresh]
    decide +kernel
  have hquiet' := hrun ▸ Thread.Quiet.of_staysQuiet hstays
  obtain ⟨left, t, n⟩ := run
  obtain ⟨⟨t₁, m₂⟩, hstep, hfacts⟩ := (Option.any_eq_true _ _).mp hfacts
  simp only [Bool.and_eq_true, Bool.not_eq_true', decide_eq_true_eq] at hfacts
  obtain ⟨⟨hbegins, habove⟩, ⟨⟨⟨⟨hlength, hok⟩, hgo⟩, hcells⟩, houtput⟩, hsettled⟩ := hfacts
  obtain ⟨rfl, rfl⟩ : t = { agenda := .value .top (.block k) :: after } ∧ n = m := by
    refine hquiet.unique (fun r hr => ?_) (ht₀ ▸ hquiet') fun r' hr' => ?_
    · cases hcall.symm.trans hr
      exact List.cons_ne_nil _ _
    · cases hstep.symm.trans hr'
      exact fun hnone => by rw [hnone] at hbegins; cases hbegins
  have hcall : CallRun ⟨n, { agenda := after }, w.others⟩ .top k ⟨m₂, t₁, w.others⟩ := .call hstep
  have hcallrun := hcall.steps habove
  have hidle : w.main.isDone = true := hfresh ▸ rfl
  have hcalling : (calling ⟨n, { agenda := after }, w.others⟩ .top k).Reachable :=
    hquiet.reachable (hw.request_tokens hidle writingChain.tokens)
  have hreturn : (t₁.steps 4 m₂).2.1.agenda = after := (hcallrun.names hcalling).2.2.over hlength
  have hstatus := Thread.status_eq_ok hok
  obtain ⟨m', hquiet₂, haside, hcells'⟩ := (hends _ hcallrun hreturn).1 hstatus hgo fun s hs => by
    rw [show (t₁.steps 4 m₂).2.2.arena.get? rootScope = _ from hs] at hsettled
    simpa using hsettled
  exact ⟨w, _, k, n, m', after, hw, hquiet, hk, hcallrun, hreturn, hquiet₂, hcells'.trans hcells,
    by rw [haside.machine]; exact houtput⟩

end Ensemble

end ScopeStack
