import ScopeStack.Machine.Stack

/-!
# Calling blocks

A call of a sharing block works on the stack of its caller and falls through wherever the caller
would. A call of an isolated block gets a new stack, falls through to the caller, and hands its top
value back. While a call is in progress its stack is listed with the block, which keeps the block
in the arena.

* `Context.beginCall`, `Context.endCall`, `Context.handBack`: the two ends of a call. A call begins
  in two parts, `Context.prepareCall` and `Context.enterCall`.
* `Context.discardTransient`: a block written at the top level goes away once nothing needs it.
-/

namespace ScopeStack

/-- A call in progress: the block, the stack the call works on, and whose stack that is. -/
structure Call where
  block : ScopeId
  stack : StackId
  shares : Bool
deriving DecidableEq

namespace Context

open ScopeStack.Action

/-- The caller's own stack and what its pops fall through to, as a call that shares them sees
them. -/
@[inline] def sharedStacks (c : Context) : Action (StackId × List StackId × Option ScopeId) :=
  match c.callStacks with
  | stack :: rest => return (stack, stack :: rest, c.base)
  | [] => do
    let s ← getScope c.scope
    return (s.stack, [s.stack], if s.spawned then none else s.parent)

/-- Find a block that is to be called: where its code will run, and the call. -/
@[inline] def prepareCall (c : Context) (h : Handle) : Action (Context × Call) := do
  let block ← inArena (·.resolveBlock c.scope h)
  let s ← getScope block
  if s.running then fail (.blockBusy block s.pid)
  if s.sharesStack then
    let (stack, callStacks, base) ← c.sharedStacks
    return ({ c with scope := block, callStacks, base }, ⟨block, stack, true⟩)
  else
    let (stack, arena) := (← get).arena.newStack
    modifyArena fun _ => arena
    return ({ c with scope := block, callStacks := stack :: c.callStacks }, ⟨block, stack, false⟩)

/-- List a call with its block, which must still be there. -/
@[inline] def enterCall (call : Call) : Action Unit := do
  let _ ← getScope call.block
  modifyScope call.block fun s => { s with calls := call.stack :: s.calls }

/-- Start a call of a block: where the code of the block runs, and the call. -/
@[inline] def beginCall (c : Context) (h : Handle) : Action (Context × Call) := do
  let (callee, call) ← c.prepareCall h
  enterCall call
  return (callee, call)

/-- The block is no longer called on this stack. -/
@[inline] def endCall (call : Call) : Action Unit :=
  modifyScope call.block fun s => { s with calls := s.calls.erase call.stack }

/-- The top value of a finished isolated call goes to the caller. It is resolved where it was made
and interned again for the caller. -/
@[inline] def handBack (c callee : Context) (call : Call) : Action Unit := do
  if !call.shares then
    match (← get).arena.stackCells call.stack with
    | [] => return
    | cell :: _ =>
      modifyArena (·.popCell call.stack)
      c.push (← callee.resolveCell cell)

/-- Let go of a block that a control word has popped. Only the top level does, only with a block
written there, and only if nothing runs it or refers to it. Returns the pools of the scopes that
went. -/
def discardTransient (c : Context) : Value → Action (List PoolId)
  | .block h => do
    let s ← getScope c.scope
    if s.parent.isSome then return []
    let a := (← get).arena
    match a.resolveBlock c.scope h with
    | .error _ => return []
    | .ok block =>
      let b ← getScope block
      if b.parent != some c.scope || b.running || a.isReferenced block then return []
      let (pools, arena) ← ofExcept (a.discard block)
      modifyArena fun _ => arena
      return pools
  | _ => return []

/-- Let go of several values in turn. -/
def discardAll (c : Context) (vs : List Value) : Action (List PoolId) :=
  return (← vs.mapM c.discardTransient).flatten

end Context

end ScopeStack
