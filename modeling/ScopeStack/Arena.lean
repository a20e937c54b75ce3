import ScopeStack.CellStack
import ScopeStack.Failure
import ScopeStack.Scope

/-!
# The arena

The arena owns every scope and every stack. Scopes refer to one another by id, ids count up from
one and are never given twice, so a scope that has been discarded simply stops resolving.

* `Arena.chain`: a scope and its ancestors, innermost first; `Arena.search` looks for something from
  a scope outwards (`search_eq`).
* `Arena.intern`, `Arena.resolve`: payloads go into every table of the chain under one handle, and
  are found from any scope below. The content hash is the first choice of handle; a handle that
  any table of the chain holds for other content is passed over (`probe`).
* `Arena.registerBlock`, `Arena.resolveBlock`: a finished block is made known to all its ancestors,
  and is found from any scope below one that knows it.
* `Arena.subtree`, `Arena.isReferenced`, `Arena.discard`: taking scopes out again.
-/

namespace ScopeStack

/-- All scopes and all stacks. -/
structure Arena where
  scopes : Std.TreeMap ScopeId Scope := {}
  /-- The id given last to a scope. -/
  lastScope : ScopeId := 0
  /-- The finished blocks, each with the scopes that know it. -/
  known : Std.TreeMap ScopeId (List ScopeId) := {}
  stackHeap : Std.TreeMap StackId CellStack := {}
  /-- The id given last to a stack. -/
  lastStack : StackId := 0

namespace Arena

instance : Inhabited Arena := ⟨{}⟩

/-! ## 1. Scopes by id -/

/-- The scope of an id. -/
@[inline] def get? (a : Arena) (id : ScopeId) : Option Scope := a.scopes[id]?

/-- The scope of an id, which must be there. -/
@[inline] def get (a : Arena) (id : ScopeId) : Except Fault Scope :=
  match a.get? id with
  | some s => .ok s
  | none => .error (.scopeGone id)

def contains (a : Arena) (id : ScopeId) : Bool := a.scopes.contains id

def size (a : Arena) : Nat := a.scopes.size

def isEmpty (a : Arena) : Bool := a.scopes.isEmpty

/-- Change the scope of an id, if it is there. -/
@[inline] def modify (a : Arena) (id : ScopeId) (f : Scope → Scope) : Arena :=
  { a with scopes := a.scopes.modify id f }

theorem get?_modify (a : Arena) (id k : ScopeId) (f : Scope → Scope) :
    (a.modify id f).get? k = if k = id then (a.get? id).map f else a.get? k := by
  simp only [modify, get?, Std.TreeMap.getElem?_modify, Nat.compare_eq_eq]
  by_cases hk : k = id
  · simp [hk]
  · simp [hk, Ne.symm hk]

/-- All scopes with their ids, in ascending order. -/
def toList (a : Arena) : List (ScopeId × Scope) := a.scopes.toList

/-- Is there a scope of this kind? -/
@[inline] def any (a : Arena) (p : ScopeId → Scope → Bool) : Bool :=
  a.scopes.foldl (fun found id s => found || p id s) false

theorem any_eq (a : Arena) (p : ScopeId → Scope → Bool) :
    a.any p = a.toList.any fun (id, s) => p id s := by
  have h (l : List (ScopeId × Scope)) (b : Bool) :
      l.foldl (fun found e => found || p e.1 e.2) b = (b || l.any fun (id, s) => p id s) := by
    induction l generalizing b with
    | nil => simp
    | cons e l ih => simp [ih, Bool.or_assoc]
  simp [any, toList, Std.TreeMap.foldl_eq_foldl_toList, h]

/-! ## 2. Stacks by id -/

/-- The stack of an id. -/
@[inline] def stack (a : Arena) (id : StackId) : CellStack := a.stackHeap.getD id .empty

/-- The cells of a stack, the top first. -/
@[inline] def stackCells (a : Arena) (id : StackId) : List Cell := (a.stack id).cells

/-- Change a stack. -/
@[inline] def modifyStack (a : Arena) (id : StackId) (f : CellStack → CellStack) : Arena :=
  { a with
    stackHeap :=
      if a.stackHeap.contains id then a.stackHeap.modify id f
      else a.stackHeap.insert id (f .empty) }

/-- Replace the cells of a stack. -/
def setStack (a : Arena) (id : StackId) (cells : List Cell) : Arena :=
  a.modifyStack id fun _ => .ofList cells

/-- Put a cell on a stack. -/
@[inline] def pushCell (a : Arena) (id : StackId) (cell : Cell) : Arena :=
  a.modifyStack id (·.push cell)

/-- Take the top cell off a stack. -/
@[inline] def popCell (a : Arena) (id : StackId) : Arena := a.modifyStack id (·.pop)

/-- A new empty stack. -/
def newStack (a : Arena) : StackId × Arena :=
  let id := a.lastStack + 1
  (id, { a with lastStack := id, stackHeap := a.stackHeap.insert id .empty })

/-- Drop a stack that nothing refers to any more. -/
def dropStack (a : Arena) (id : StackId) : Arena :=
  { a with stackHeap := a.stackHeap.erase id }

theorem stack_modifyStack (a : Arena) (id k : StackId) (f : CellStack → CellStack) :
    (a.modifyStack id f).stack k = if k = id then f (a.stack id) else a.stack k := by
  unfold modifyStack stack
  by_cases hc : a.stackHeap.contains id = true
  · have hm : id ∈ a.stackHeap := hc
    rw [if_pos hc]
    by_cases hk : k = id
    · subst hk
      simp [hm, Std.TreeMap.getD_eq_getD_getElem?]
    · simp [Std.TreeMap.getD_modify, hk, Ne.symm hk]
  · have hm : id ∉ a.stackHeap := hc
    rw [if_neg hc]
    by_cases hk : k = id
    · subst hk
      simp [Std.TreeMap.getD_eq_fallback hm]
    · simp [Std.TreeMap.getD_insert, hk, Ne.symm hk]

theorem stackCells_setStack (a : Arena) (id k : StackId) (cells : List Cell) :
    (a.setStack id cells).stackCells k = if k = id then cells else a.stackCells k := by
  simp only [setStack, stackCells, stack_modifyStack]
  split <;> rfl

theorem stackCells_pushCell (a : Arena) (id k : StackId) (cell : Cell) :
    (a.pushCell id cell).stackCells k =
      if k = id then cell :: a.stackCells id else a.stackCells k := by
  simp only [pushCell, stackCells, stack_modifyStack]
  split <;> rfl

theorem stackCells_popCell (a : Arena) (id k : StackId) :
    (a.popCell id).stackCells k =
      if k = id then (a.stackCells id).tail else a.stackCells k := by
  simp only [popCell, stackCells, stack_modifyStack]
  split <;> rfl

/-- Changing a scope leaves the stacks alone. -/
@[simp] theorem stackCells_modify (a : Arena) (id : ScopeId) (k : StackId) (f : Scope → Scope) :
    (a.modify id f).stackCells k = a.stackCells k := rfl

/-- Changing a stack leaves the scopes alone. -/
@[simp] theorem get?_modifyStack (a : Arena) (id : StackId) (k : ScopeId)
    (f : CellStack → CellStack) : (a.modifyStack id f).get? k = a.get? k := rfl

/-! ## 3. Creating scopes -/

/-- Add a scope under a new id. `make` builds it from the id of its new stack. -/
def create (a : Arena) (make : StackId → Scope) : ScopeId × Arena :=
  let (stack, a) := a.newStack
  let id := a.lastScope + 1
  (id, { a with lastScope := id, scopes := a.scopes.insert id (make stack) })

/-- Create a scope without a parent. -/
def createRoot (a : Arena) (operations : OperationTable) : ScopeId × Arena :=
  a.create fun stack => { parent := none, stack, operations }

/-- Create a block that is still open. The scope is there afterwards even if the parent is not. -/
def createChild (a : Arena) (parent : ScopeId) (sharesStack : Bool) :
    Except Fault ScopeId × Arena :=
  let (id, a) := a.create fun stack =>
    { parent := some parent, stack, sharesStack, compiling := true }
  match a.get parent with
  | .ok _ => (.ok id, a.modify parent (·.addChild id))
  | .error e => (.error e, a)

/-! ## 4. The chain of a scope -/

/-- At most `n` scopes of a chain. -/
def chainUpTo (a : Arena) : Nat → ScopeId → List ScopeId
  | 0, _ => []
  | n + 1, id =>
    match a.get? id with
    | none => []
    | some s =>
      match s.parent with
      | none => [id]
      | some parent => id :: a.chainUpTo n parent

/-- A scope and all of its ancestors, innermost first. A chain without repetition is no longer
than the arena is large. -/
def chain (a : Arena) (id : ScopeId) : List ScopeId := a.chainUpTo a.size id

/-- The scope that heads the process of a scope, looked for at most `n` steps out. -/
def processRootUpTo (a : Arena) : Nat → ScopeId → Except Fault ScopeId
  | 0, id => .ok id
  | n + 1, id =>
    match a.get? id with
    | none => .error (.scopeGone id)
    | some s =>
      match s.parent, s.spawned with
      | some parent, false => a.processRootUpTo n parent
      | _, _ => .ok id

/-- The scope that heads the process this scope runs in. -/
def processRoot (a : Arena) (id : ScopeId) : Except Fault ScopeId :=
  a.processRootUpTo (a.size + 1) id

/-- What is found first from a scope outwards, in at most `n` scopes. -/
@[specialize]
def searchUpTo {α : Type} (a : Arena) (f : Scope → Option α) : Nat → ScopeId → Option α
  | 0, _ => none
  | n + 1, id =>
    match a.get? id with
    | none => none
    | some s =>
      match f s with
      | some x => some x
      | none =>
        match s.parent with
        | none => none
        | some parent => a.searchUpTo f n parent

/-- What is found first from a scope outwards. -/
@[inline] def search {α : Type} (a : Arena) (id : ScopeId) (f : Scope → Option α) : Option α :=
  a.searchUpTo f a.size id

/-- A search goes along the chain. -/
theorem search_eq {α : Type} (a : Arena) (id : ScopeId) (f : Scope → Option α) :
    a.search id f = (a.chain id).findSome? fun k => (a.get? k).bind f := by
  unfold search chain
  generalize a.size = n
  induction n generalizing id with
  | zero => rfl
  | succ n ih =>
    rw [searchUpTo, chainUpTo]
    cases hs : a.get? id with
    | none => rfl
    | some s =>
      cases hp : s.parent with
      | none => cases hf : f s <;> simp [hs, hp, hf]
      | some parent => cases hf : f s <;> simp [hs, hp, hf, ih]

/-! ## 5. Interning -/

/-- The number of handles. -/
def handleCount : Nat := 0x10000000000000000

/-- The handle after another, counting round. -/
def nextHandle (h : Handle) : Handle := (h + 1) % handleCount

/-- The first of the `n` handles from `h` on that is not taken. -/
def probe (taken : Handle → Bool) : Nat → Handle → Option Handle
  | 0, _ => none
  | n + 1, h => if taken h then probe taken n (nextHandle h) else some h

/-- What is found is not taken. -/
theorem probe_eq_some {taken : Handle → Bool} {n : Nat} {h k : Handle}
    (hp : probe taken n h = some k) : taken k = false := by
  induction n generalizing h with
  | zero => cases hp
  | succ n ih =>
    rw [probe] at hp
    split at hp
    · exact ih hp
    · cases hp
      simp_all

section Payloads

variable {α : Type} [BEq α] [Interned α]

/-- Does a table of these scopes hold other content under the handle? -/
def anyConflict (a : Arena) (ids : List ScopeId) (v : α) (h : Handle) : Bool :=
  ids.any fun id => (a.get? id).any fun s => (Interned.table s).conflicts h v

/-- Put a payload under a handle in the tables of these scopes. -/
def insertAll (a : Arena) (ids : List ScopeId) (h : Handle) (v : α) : Arena :=
  ids.foldl (fun a id => a.modify id (Interned.modifyTable (·.insert h v))) a

/-- A handle beyond all that the tables of these scopes hold. -/
def spareHandle (a : Arena) (ids : List ScopeId) (α : Type) [BEq α] [Interned α] : Handle :=
  ids.foldl (fun n id => max n ((a.get? id).elim 0 fun s => (Interned.table (α := α) s).bound))
    handleCount

/-- The handle under which a payload goes into the tables of these scopes. Every handle is looked at
before one comes up again; where other content holds them all, the payload gets one beyond. -/
def handleFor (a : Arena) (hash : α → Handle) (ids : List ScopeId) (v : α) : Handle :=
  (probe (a.anyConflict ids v) handleCount (hash v % handleCount)).getD (a.spareHandle ids α)

/-- A spare handle stands for nothing in the tables. -/
theorem get?_spareHandle {a : Arena} {ids : List ScopeId} {id : ScopeId} {s : Scope}
    (hid : id ∈ ids) (hs : a.get? id = some s) :
    (Interned.table (α := α) s).get? (a.spareHandle ids α) = none := by
  have hmax (l : List ScopeId) (n : Nat) (f : ScopeId → Nat) :
      n ≤ l.foldl (fun n id => max n (f id)) n ∧
        ∀ k ∈ l, f k ≤ l.foldl (fun n id => max n (f id)) n := by
    induction l generalizing n with
    | nil => simp
    | cons k l ih =>
      obtain ⟨hn, hl⟩ := ih (max n (f k))
      simp only [List.foldl_cons, List.forall_mem_cons]
      exact ⟨by omega, by omega, hl⟩
  have hle := (hmax ids handleCount fun id =>
    (a.get? id).elim 0 fun s => (Interned.table (α := α) s).bound).2 id hid
  rw [hs] at hle
  exact InternTable.get?_of_bound_le hle

/-- A payload gets a handle that no table of these scopes holds for other content. -/
theorem anyConflict_handleFor (a : Arena) (hash : α → Handle) (ids : List ScopeId) (v : α) :
    a.anyConflict ids v (a.handleFor hash ids v) = false := by
  unfold handleFor
  cases hp : probe (a.anyConflict ids v) handleCount (hash v % handleCount) with
  | some h => exact probe_eq_some hp
  | none =>
    simp only [anyConflict, Option.getD_none, List.any_eq_false, Option.any_eq_true]
    rintro id hid ⟨s, hs, hc⟩
    simp [InternTable.conflicts, get?_spareHandle hid hs] at hc

/-- Intern a payload in a scope and all of its ancestors, all under one handle. -/
def intern (a : Arena) (hash : α → Handle) (id : ScopeId) (v : α) : Except Fault Handle × Arena :=
  let ids := a.chain id
  if ids.isEmpty then (.error (.scopeGone id), a)
  else
    let h := a.handleFor hash ids v
    (.ok h, a.insertAll ids h v)

/-- Find a payload from a scope outwards. -/
def resolve (a : Arena) (α : Type) [BEq α] [Interned α] (id : ScopeId) (h : Handle) :
    Except Fault α :=
  match a.search id fun s => (Interned.table s).get? h with
  | some v => .ok v
  | none => .error (.notInterned h)

end Payloads

/-! ## 6. Blocks -/

/-- The scopes that know a block. -/
def scopesKnowing (a : Arena) (block : ScopeId) : List ScopeId := a.known.getD block []

/-- The blocks that a scope knows. -/
def blocksKnownTo (a : Arena) (id : ScopeId) : List ScopeId :=
  (a.known.toList.filter fun (_, scopes) => scopes.contains id).map (·.1)

/-- Make a block known to scopes. -/
def makeKnown (a : Arena) (block : ScopeId) (scopes : List ScopeId) : Arena :=
  let others := (a.scopesKnowing block).filter (!scopes.contains ·)
  { a with known := a.known.insert block (others ++ scopes) }

/-- Make a finished block known to all its ancestors. -/
def registerBlock (a : Arena) (block : ScopeId) : Except Fault Unit × Arena :=
  match a.get block with
  | .error e => (.error e, a)
  | .ok s =>
    match s.parent with
    | none => (.ok (), a)
    | some parent => (.ok (), a.makeKnown block (a.chain parent))

/-- Find the scope of a block from a scope outwards. -/
def resolveBlock (a : Arena) (id : ScopeId) (h : Handle) : Except Fault ScopeId :=
  let scopes := a.scopesKnowing h
  if a.contains h && (a.chain id).any (scopes.contains ·) then .ok h else .error (.notInterned h)

/-! ## 7. What refers to a scope -/

/-- Work through the scopes that are pending: each one that is there and new is found, and its
children become pending. -/
def subtreeFrom (a : Arena) : Nat → (pending : List ScopeId) → (found : ScopeSet) → ScopeSet
  | 0, _, found => found
  | _ + 1, [], found => found
  | n + 1, id :: pending, found =>
    match a.get? id with
    | none => a.subtreeFrom n pending found
    | some s =>
      if found.contains id then a.subtreeFrom n pending found
      else a.subtreeFrom n (s.children.toList ++ pending) (found.insert id)

/-- How often any scope occurs as a child. -/
def childCount (a : Arena) : Nat :=
  a.scopes.foldl (fun n _ s => n + s.children.size) 0

/-- A scope and all of its descendants. Each step takes one id off the pending ones, and every id
that ever becomes pending, but the first, is the child of a scope that is found once. -/
def subtree (a : Arena) (id : ScopeId) : ScopeSet :=
  a.subtreeFrom (a.childCount + 2) [id] {}

/-- Is the cell a block of this set? -/
def refersTo (ids : ScopeSet) : Cell → Bool
  | .block h => ids.contains h
  | _ => false

/-- Does a stack of the scope hold such a cell? -/
def anyStacked (a : Arena) (s : Scope) (p : Cell → Bool) : Bool :=
  s.allStacks.any fun stack => (a.stackCells stack).any p

/-- Does this scope keep a set of scopes alive? One inside the set does if it runs, as a process
or as a call; one outside does by its code and its variables; both do by their stacks. -/
def keepsAlive (a : Arena) (ids : ScopeSet) (id : ScopeId) (s : Scope) : Bool :=
  (if ids.contains id then s.running || !s.calls.isEmpty
    else s.code.any (refersTo ids) || s.boundCells.any (refersTo ids)) ||
  a.anyStacked s (refersTo ids)

/-- Does anything still need the scope or one of its descendants? -/
def isReferenced (a : Arena) (id : ScopeId) : Bool := a.any (a.keepsAlive (a.subtree id))

/-- Is the cell on a stack, in a variable or in compiled code of any scope? -/
def isCellInUse (a : Arena) (cell : Cell) : Bool :=
  a.any fun _ s =>
    s.boundCells.any (· == cell) || s.code.any (· == cell) || a.anyStacked s (· == cell)

/-! ## 8. Discarding scopes -/

/-- Scopes no longer know these blocks. -/
def makeUnknown (a : Arena) (blocks scopes : ScopeSet) : Arena :=
  let known := blocks.foldl
    (fun known block => known.alter block fun old =>
      match (old.getD []).filter (!scopes.contains ·) with
      | [] => none
      | rest => some rest)
    a.known
  { a with known }

/-- Take scopes out of the arena. -/
def removeAll (a : Arena) (ids : ScopeSet) : Arena :=
  { a with scopes := ids.foldl (·.erase ·) a.scopes }

/-- The pools that these scopes own. -/
def poolsOf (a : Arena) (ids : ScopeSet) : List PoolId :=
  ids.toList.filterMap fun id => (a.get? id).bind (·.pool)

/-- Take a scope and its descendants out of the arena; its ancestors no longer know them. Also
returns the pools they owned, which are to be shut down. -/
def discard (a : Arena) (id : ScopeId) : Except Fault (List PoolId × Arena) := do
  let s ← a.get id
  let ids := a.subtree id
  let pools := a.poolsOf ids
  match s.parent with
  | none => return (pools, (a.makeUnknown ids ids).removeAll ids)
  | some parent =>
    let _ ← a.get parent
    let a := a.makeUnknown ids (ids.insertMany (a.chain parent))
    let a := a.modify parent (·.removeChild id)
    return (pools, a.removeAll ids)

end Arena

end ScopeStack
