import ScopeStack.Job
import ScopeStack.Machine.Compile
import ScopeStack.Machine.Process
import ScopeStack.Machine.Variables
import ScopeStack.Word.Lists
import ScopeStack.Word.Values

/-!
# Words that run code, and what a name means

Control, scope and process words. A word pops what it needs and answers with jobs: the code it
runs, and what is to be done afterwards.

* `ControlWord.perform`, `ScopeWord.perform`, `ProcessWord.perform`, `HostAction.perform`.
* `Effect.perform`: the words of all families.
* `Context.callBlock`, `Context.runWord`, `Context.runValue`, `Context.runCell`: running a block, a
  name, a value, a cell.
-/

namespace ScopeStack

open ScopeStack.Action

/-! ## 1. Control -/

/-- Run a value if asked to, then let go of it. -/
def runThenDiscard (c : Context) (runnable : Value) (wanted : Bool) : List Job :=
  (if wanted then [Job.value c runnable] else []) ++ [.discard c [runnable]]

/-- Run a value for the counters `0`, `step`, `2 · step`, … below a limit, then let go of it. -/
def countedLoop (c : Context) (runnable : Value) (limit step : Int64) : List Job :=
  [.count c runnable (some 0) limit step, .discard c [runnable]]

/-- Run blocks. -/
def ControlWord.perform (c : Context) : ControlWord → Action (List Job)
  | .run => do
    let runnable ← c.popRunnable
    return runThenDiscard c runnable true
  | .branch => do
    let top ← c.popRunnable
    match ← c.pop with
    | .bool condition => return runThenDiscard c top condition ++ [.push c (.bool condition)]
    | second =>
      if !second.isRunnable then fail (.mismatch .boolean)
      let condition ← c.popBool
      let (taken, skipped) := if condition then (second, top) else (top, second)
      let pools ← c.discardTransient skipped
      return Job.closePools pools ++ runThenDiscard c taken true
  | .branchElse => do
    let runnable ← c.popRunnable
    let condition ← c.popBool
    let previous ← c.popBool
    return runThenDiscard c runnable (!previous && condition) ++
      [.push c (.bool (previous || condition))]
  | .otherwise => do
    let runnable ← c.popRunnable
    let previous ← c.popBool
    return runThenDiscard c runnable !previous
  | .when => do
    let runnable ← c.popRunnable
    let condition ← c.popBool
    return runThenDiscard c runnable condition
  | .unless => do
    let runnable ← c.popRunnable
    let condition ← c.popBool
    return runThenDiscard c runnable !condition
  | .whileTrue => do
    let body ← c.popRunnable
    let condition ← c.popRunnable
    return [.test c condition body, .discard c [body, condition]]
  | .times => do
    let limit ← c.popInt
    let runnable ← c.popRunnable
    return countedLoop c runnable limit 1
  | .timesBy => do
    let step ← c.popInt
    let limit ← c.popInt
    let runnable ← c.popRunnable
    if step.toInt ≤ 0 then
      let pools ← c.discardTransient runnable
      return Job.closePools pools ++ [.raise .stepNotPositive]
    return countedLoop c runnable limit step

/-! ## 2. Variables and source text -/

/-- Take a name and a value and bind the one to the other. -/
def popDefinition (c : Context) (strict : Bool) : Action Unit := do
  let name ← c.popText
  let value ← c.pop
  let cell ← c.internValue value
  c.define name cell strict

/-- Work on variables, or run source text. -/
def ScopeWord.perform (c : Context) : ScopeWord → Action (List Job)
  | .define => do
    popDefinition c false
    return []
  | .defineStrict => do
    popDefinition c true
    return []
  | .forget => do
    let name ← c.popText
    match ← c.forget name with
    | some pools => return Job.closePools pools
    | none => fail (.unknownVariable name)
  | .eval => do
    let text ← c.popText
    return [.source c (.ofText "<eval>" text)]
  | .load => do
    let path ← c.popText
    return [.load c path]

/-! ## 3. Processes -/

/-- Take the id of a process. -/
def popPid (c : Context) : Action Pid := return (← c.popInt).toInt

/-- Take a block and spawn it. -/
def popSpawn (c : Context) : Action Unit := do
  match ← c.pop with
  | .block h =>
    let pid ← c.spawn h
    c.push (.ofInt pid)
  | _ => fail (.mismatch .block)

/-- Work with processes. -/
def ProcessWord.perform (c : Context) : ProcessWord → Action (List Job)
  | .spawn => do
    popSpawn c
    return []
  | .self => do
    c.push (.ofInt (← c.pid))
    return []
  | .parent => do
    c.push (.ofInt (← c.parentPid))
    return []
  | .receive => do
    let size ← c.popNat
    return [.receive c size]
  | .send => do
    let pid ← popPid c
    let value ← c.pop
    c.sendTo pid value
    return []
  | .sendAll => do
    let pid ← popPid c
    c.sendAllTo pid
    return []
  | .take => do
    let pid ← popPid c
    c.push (← c.takeFrom pid)
    return []
  | .takeAll => do
    let pid ← popPid c
    c.takeAllFrom pid
    return []
  | .sendParent => do
    let pid ← c.parentPid
    let value ← c.pop
    c.sendTo pid value
    return []
  | .sendAllParent => do
    c.sendAllTo (← c.parentPid)
    return []
  | .takeParent => do
    c.push (← c.takeFrom (← c.parentPid))
    return []
  | .takeAllParent => do
    c.takeAllFrom (← c.parentPid)
    return []
  | .beginPush => do
    let pid ← popPid c
    c.beginPush pid
    return []
  | .endPush => do
    c.endPush
    return []
  | .quit => do
    return Job.closePools (← c.stop)
  | .sleep => do
    let milliseconds := (← c.popInt).toInt
    if milliseconds ≤ 0 then return []
    return [.sleep c ((← get).clock + milliseconds.toNat)]

/-! ## 4. What an embedder adds -/

/-- Carry out what an embedder has given a word to do. -/
def HostAction.perform (c : Context) : HostAction → Action (List Job)
  | .greet => do
    let name ← c.popText
    write s!"Hello {name}!"
    return []
  | .nameWord => do
    c.push (.word (← c.popText))
    return []
  | .fail text => Action.fail (.raised .runtime text)
  | .source text => return [.source c (.ofText "<op>" text)]
  | .nothing => return []

/-! ## 5. Running names and values -/

/-- Carry out an operation. -/
def Effect.perform (c : Context) : Effect → Action (List Job)
  | .output w => do
    w.perform c
    return []
  | .stack w => do
    w.perform c
    return []
  | .arith w => do
    w.perform c
    return []
  | .compare w => do
    w.perform c
    return []
  | .text w => do
    w.perform c
    return []
  | .list w => do
    w.perform c
    return []
  | .control w => w.perform c
  | .scope w => w.perform c
  | .process w => w.perform c
  | .host a => a.perform c

namespace Context

/-- Call a block. -/
def callBlock (c : Context) (h : Handle) : Action (List Job) := do
  let (callee, call) ← c.beginCall h
  return [.body callee, .leave c callee call]

/-- Run a name. A variable comes before an operation: a block is called, any other value pushed. -/
def runWord (c : Context) (name : String) : Action (List Job) := do
  match ← c.findVariable name with
  | some (.block h) => c.callBlock h
  | some cell =>
    c.pushCell cell
    return []
  | none =>
    let op ← ofOption (.unknownWord name) (← c.findOperation name)
    op.effect.perform c

/-- Run a block, or a word given by its name. -/
def runValue (c : Context) : Value → Action (List Job)
  | .block h => c.callBlock h
  | .word name | .str name => c.runWord name
  | _ => fail (.mismatch .runnable)

/-- Execute a cell of code: run a name, push anything else. -/
def runCell (c : Context) : Cell → Action (List Job)
  | .word h => do c.runWord (← c.resolveText h)
  | cell => do
    c.pushCell cell
    return []

/-- Compile a token into the innermost open block, or carry it out where none is open. -/
def compileToken (c : Context) (t : Token) : Action (List Job) := do
  match Literal.ofToken t with
  | .blockOpen kind =>
    c.openBlock kind
    return []
  | .blockClose kind =>
    c.closeBlock kind t.location
    return []
  | .atom a =>
    let target := c.switchTo (← c.compileTarget)
    let cell ← target.compileAtom a
    if (← getScope target.scope).compiling then
      modifyScope target.scope (·.append ⟨some t.location, cell⟩)
      return []
    else target.runCell cell

end Context

end ScopeStack
