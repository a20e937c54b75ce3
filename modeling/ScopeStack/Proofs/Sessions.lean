import ScopeStack.Environment
import ScopeStack.Proofs.Steps

/-!
# Sessions of an environment

A session is what an embedder does with a new environment: it asks for source to be executed, a token
or a whole text at a time, pushes values, and lets time pass. The trace of a session says what has
happened, the last event first.

* `Session`: the sessions, and where they have got to: **every state between any two steps counts**,
  not only those between two requests.
* `Event.Spawns`, `Event.Forgets`: what is told apart about a step.
* `Session.inOrder`: **as long as no process has been spawned, the machine is in order.**
-/

namespace ScopeStack

/-! ## 1. What may happen -/

/-- An event of a session. -/
inductive Event where
  /-- The thread of the top level has taken a step. -/
  | step (thread : Thread) (before after : Machine)
  /-- The embedder has pushed a value. -/
  | push (v : Value)

namespace Event

/-- The step hands out a process id. -/
def Spawns : Event → Prop
  | step _ before after => after.processes.last ≠ before.processes.last
  | push _ => False

/-- The step carries out the word that forgets a variable. -/
def Forgets : Event → Prop
  | step thread before _ => thread.effect? before = some (.scope .forget)
  | push _ => False

end Event

/-- Source that an embedder may ask to be executed at the top level. -/
inductive Job.Request : Job → Prop where
  | token (t : Token) : Request (.token .top t)
  | source (cursor : Cursor) : Request (.source .top cursor)
  | load (path : String) : Request (.load .top path)
  | readInput (cursor : Cursor) : Request (.readInput .top cursor)

/-- The events so far, the last one first, what the thread of the top level has still to do, and the
machine. -/
inductive Session : List Event → Thread → Machine → Prop where
  /-- A new environment, with any pair of hash functions. -/
  | start (config : Config) (files : FileSource) (hash : ContentHash) :
      Session [] { agenda := [] } { (Environment.freshMachine config files).2 with hash }
  /-- Source is to be executed, after what was asked for before it has ended. -/
  | request {trace : List Event} {t : Thread} {m : Machine} {job : Job} :
      Session trace t m → t.isDone → job.Request → Session trace { agenda := [job] } m
  | step {trace : List Event} {t t' : Thread} {m m' : Machine} :
      Session trace t m → t.step m = some (t', m') → Session (.step t m m' :: trace) t' m'
  /-- A value is pushed, or the push fails. -/
  | push {trace : List Event} {t : Thread} {m : Machine} (v : Value) :
      Session trace t m → t.isDone → Session (.push v :: trace) t ((Context.top.push v).outcome m).2
  /-- Time passes, files are looked at, and the output is taken away. -/
  | pass {trace : List Event} {t : Thread} {m : Machine} (clock : Nat) (files : FileSource)
      (output : String) : Session trace t m → Session trace t { m with clock, files, output }

/-- No process has been spawned. -/
def SpawnFree (trace : List Event) : Prop := ∀ e ∈ trace, ¬ e.Spawns

/-- The word that forgets a variable has not been carried out. -/
def ForgetFree (trace : List Event) : Prop := ∀ e ∈ trace, ¬ e.Forgets

/-- The embedder has pushed nothing. -/
def SourceOnly (trace : List Event) : Prop := ∀ v, .push v ∉ trace

theorem SpawnFree.of_cons {e : Event} {trace : List Event} (h : SpawnFree (e :: trace)) :
    SpawnFree trace :=
  fun x hx => h x (List.mem_cons_of_mem _ hx)

theorem SpawnFree.last {trace : List Event} {t : Thread} {m m' : Machine}
    (h : SpawnFree (.step t m m' :: trace)) : m'.processes.last = m.processes.last :=
  Classical.byContradiction fun hne => h _ List.mem_cons_self hne

theorem ForgetFree.of_cons {e : Event} {trace : List Event} (h : ForgetFree (e :: trace)) :
    ForgetFree trace :=
  fun x hx => h x (List.mem_cons_of_mem _ hx)

theorem SourceOnly.of_cons {e : Event} {trace : List Event} (h : SourceOnly (e :: trace)) :
    SourceOnly trace :=
  fun v hv => h v (List.mem_cons_of_mem _ hv)

instance : DecidablePred Event.Spawns
  | .step _ before after => inferInstanceAs (Decidable (after.processes.last ≠ before.processes.last))
  | .push _ => inferInstanceAs (Decidable False)

instance : DecidablePred Event.Forgets
  | .step thread before _ =>
    inferInstanceAs (Decidable (thread.effect? before = some (.scope .forget)))
  | .push _ => inferInstanceAs (Decidable False)

instance (trace : List Event) : Decidable (SpawnFree trace) :=
  inferInstanceAs (Decidable (∀ e ∈ trace, ¬ e.Spawns))

instance (trace : List Event) : Decidable (ForgetFree trace) :=
  inferInstanceAs (Decidable (∀ e ∈ trace, ¬ e.Forgets))

/-- At most `n` steps, with their events. -/
def Thread.record : Nat → Thread → Machine → List Event × Thread × Machine
  | 0, t, m => ([], t, m)
  | n + 1, t, m =>
    match t.step m with
    | none => ([], t, m)
    | some (t', m') =>
      let (more, last) := record n t' m'
      (more ++ [.step t m m'], last)

/-- Steps in a row belong to the session. -/
theorem Session.record {trace : List Event} {t : Thread} {m : Machine} (h : Session trace t m)
    (n : Nat) : Session ((t.record n m).1 ++ trace) (t.record n m).2.1 (t.record n m).2.2 := by
  induction n generalizing trace t m with
  | zero => exact h
  | succ n ih =>
    rw [Thread.record]
    cases hstep : t.step m with
    | none => exact h
    | some r =>
      have hmore := ih (h.step hstep)
      rwa [List.append_cons] at hmore

/-- Steps only: nothing has been pushed. -/
theorem Thread.sourceOnly_record (n : Nat) (t : Thread) (m : Machine) :
    SourceOnly (t.record n m).1 := by
  induction n generalizing t m with
  | zero => exact fun _ h => absurd h List.not_mem_nil
  | succ n ih =>
    rw [record]
    cases t.step m with
    | none => exact fun _ h => absurd h List.not_mem_nil
    | some r =>
      intro v hv
      rcases List.mem_append.mp hv with hv | hv
      · exact ih r.1 r.2 v hv
      · cases List.mem_singleton.mp hv

/-- What a new environment makes of a text in at most `n` steps. -/
def Environment.execution (n : Nat) (text : String) : List Event × Thread × Machine :=
  Thread.record n { agenda := [.source .top (.ofText "<eval>" text)] }
    (freshMachine {} fun _ => none).2

theorem Environment.execution_session (n : Nat) (text : String) :
    Session (execution n text).1 (execution n text).2.1 (execution n text).2.2 ∧
      SourceOnly (execution n text).1 := by
  have h : Session [] { agenda := [] } (freshMachine {} fun _ => none).2 := .start _ _ .standard
  have hrun := (h.request rfl (.source (.ofText "<eval>" text))).record n
  rw [List.append_nil] at hrun
  exact ⟨hrun, Thread.sourceOnly_record _ _ _⟩

/-! ## 2. A new environment -/

namespace Environment

/-- The top level is the only scope. -/
theorem get?_fresh (config : Config) (files : FileSource) (id : ScopeId) :
    (freshMachine config files).2.arena.get? id = if id = rootScope then
      some { parent := none, stack := 1, operations := Vocabulary.defaults } else none := by
  show (({} : Std.TreeMap ScopeId Scope).insert 1
    ({ parent := none, stack := 1, operations := Vocabulary.defaults } : Scope))[id]? = _
  rw [Std.TreeMap.getElem?_insert]
  by_cases hid : id = rootScope
  · rw [if_pos hid, hid]
    rfl
  · have hne : ¬ compare 1 id = .eq := fun h => hid (Nat.compare_eq_eq.mp h).symm
    rw [if_neg hid, if_neg hne]
    rfl

/-- What there is is the top level, as it was made. -/
theorem of_get?_fresh {config : Config} {files : FileSource} {id : ScopeId} {s : Scope}
    (hs : (freshMachine config files).2.arena.get? id = some s) :
    id = rootScope ∧ s = { parent := none, stack := 1, operations := Vocabulary.defaults } := by
  rw [get?_fresh] at hs
  split at hs
  · rename_i hid
    exact ⟨hid, (Option.some.inj hs).symm⟩
  · cases hs

section Fresh

variable (config : Config) (files : FileSource)

theorem get?_fresh_root : (freshMachine config files).2.arena.get? rootScope =
    some { parent := none, stack := 1, operations := Vocabulary.defaults } := by
  rw [get?_fresh, if_pos rfl]

/-- Nothing is on any stack. -/
theorem stackCells_fresh (σ : StackId) : (freshMachine config files).2.arena.stackCells σ = [] := by
  show (({} : Arena).newStack.2).stackCells σ = []
  rw [Arena.stackCells_newStack]
  split
  · rfl
  · rfl

/-- Nothing has been interned. -/
theorem scopesKnowing_fresh (h : ScopeId) :
    (freshMachine config files).2.arena.scopesKnowing h = [] := rfl

/-- No scope refers to anything. -/
theorem not_holds_fresh {id : ScopeId} {cell : Cell} :
    ¬ (freshMachine config files).2.arena.Holds id cell := by
  rintro ⟨s, hs, hcell⟩
  rw [(of_get?_fresh hs).2] at hcell
  rcases hcell with hcode | hbound | ⟨σ, -, hm⟩
  · cases hcode
  · obtain ⟨name, hn⟩ := Scope.mem_boundCells.mp hbound
    cases hn
  · rw [stackCells_fresh] at hm
    cases hm

theorem fresh_linked {id : ScopeId} {s : Scope}
    (hs : (freshMachine config files).2.arena.get? id = some s) :
    (freshMachine config files).2.arena.Linked id := by
  refine ⟨s, hs, fun p hp => ?_⟩
  rw [(of_get?_fresh hs).2] at hp
  cases hp

theorem fresh_forest : (freshMachine config files).2.arena.Forest where
  le_last hs := Nat.le_of_eq (of_get?_fresh hs).1
  parent_lt hs hp := by
    rw [(of_get?_fresh hs).2] at hp
    cases hp
  of_child hs hk := by
    rw [(of_get?_fresh hs).2] at hk
    exact absurd hk Std.TreeSet.not_mem_emptyc
  to_child hs hp _ := by
    rw [(of_get?_fresh hs).2] at hp
    cases hp

theorem fresh_tree : (freshMachine config files).2.arena.Tree where
  forest := fresh_forest config files
  root := ⟨_, get?_fresh_root config files, rfl, rfl⟩
  noParent hs _ := (of_get?_fresh hs).1
  linked_of_child hs _ := fresh_linked config files hs
  open_le hs hk := by
    rw [(of_get?_fresh hs).2] at hk
    cases hk
  open_linked hs hk _ := by
    rw [(of_get?_fresh hs).2] at hk
    cases hk
  known_le hk := by
    rw [scopesKnowing_fresh] at hk
    cases hk
  known_linked hk _ := by
    rw [scopesKnowing_fresh] at hk
    cases hk

theorem fresh_orderly : (freshMachine config files).2.arena.Orderly where
  tree := fresh_tree config files
  opens := Arena.openBlocks_eq (get?_fresh_root config files) ▸ trivial
  called hs _ := by rw [(of_get?_fresh hs).2]
  stack_le hs hσ := by
    rw [(of_get?_fresh hs).2] at hσ
    exact Nat.le_of_eq (List.mem_singleton.mp hσ)
  uncalled hs hno := absurd (fresh_linked config files hs) hno
  alone hs hno _ _ := absurd (fresh_linked config files hs) hno

theorem fresh_steady (honest kept : Prop) :
    (freshMachine config files).2.arena.Steady honest kept where
  toOrderly := fresh_orderly config files
  bound hs hm := (not_holds_fresh config files ⟨_, hs, Or.inr (Or.inl hm)⟩).elim
  held_linked h := (not_holds_fresh config files h).elim
  backed h := (not_holds_fresh config files h).elim

/-- **A new environment is in order.** -/
theorem fresh_inOrder (honest kept : Prop) (hash : ContentHash) :
    InOrder honest kept [] { (freshMachine config files).2 with hash } where
  steady := fresh_steady config files honest kept
  calls := by
    refine ⟨fun hm => (by cases hm), fun {id s} hs => ?_⟩
    have hs : (freshMachine config files).2.arena.get? id = some s := hs
    rw [(of_get?_fresh hs).2]
    exact .nil
  processes := rfl
  fits := trivial
  code hm := by cases hm

end Fresh

end Environment

/-! ## 3. Sessions are in order -/

theorem Job.Request.fits {job : Job} (h : job.Request) : job.Fits [] := by
  cases h with
  | token | source | load | readInput =>
    exact ⟨fun he => (by cases he; exact Or.inl rfl), trivial⟩

/-- **As long as no process has been spawned, the machine is in order**: blocks that are held are
there unless the embedder has pushed something strange, and payloads are there unless something was
forgotten. -/
theorem Session.inOrder {honest kept : Prop} {trace : List Event} {t : Thread} {m : Machine}
    (h : Session trace t m) (hspawn : SpawnFree trace) (hhonest : honest → SourceOnly trace)
    (hkept : kept → ForgetFree trace) : InOrder honest kept t.agenda m := by
  induction h with
  | start config files hash => exact Environment.fresh_inOrder config files honest kept hash
  | @request trace t m job _ hdone hr ih =>
    have hnil : t.agenda = [] := List.isEmpty_iff.mp hdone
    have hm : InOrder honest kept [] m := hnil ▸ ih hspawn hhonest hkept
    refine hm.cons hr.fits ?_ fun d is he => ?_
    · cases hr <;> rfl
    · subst he
      cases hr
  | @step trace t t' m m' _ hstep ih =>
    have hm := ih (hspawn.of_cons) (fun hh => (hhonest hh).of_cons) fun hk => (hkept hk).of_cons
    have hforget : kept → t.effect? m ≠ some (.scope .forget) := fun hk =>
      hkept hk _ List.mem_cons_self
    exact (hm.step hstep hforget hspawn.last).1
  | @push trace t m v _ hdone ih =>
    have hnil : t.agenda = [] := List.isEmpty_iff.mp hdone
    have hm := ih hspawn.of_cons (fun hh => (hhonest hh).of_cons) fun hk => (hkept hk).of_cons
    rw [hnil] at hm ⊢
    exact (hm.push fun hh => absurd List.mem_cons_self (hhonest hh v)).1
  | @pass trace t m clock files output _ ih =>
    have hm := ih hspawn hhonest hkept
    have hmoved : Moved honest kept m.arena (Agenda.calls t.agenda)
        { m with clock, files, output } := hm.moved.congr rfl rfl
    exact hm.stepped hmoved.toStepped

/-- A push moves no scope. -/
theorem Session.still_of_push {trace : List Event} {t : Thread} {m : Machine} (h : Session trace t m)
    (hspawn : SpawnFree trace) (hdone : t.isDone) (v : Value) :
    m.arena.Still ((Context.top.push v).outcome m).2.arena := by
  have hm : InOrder False False t.agenda m := h.inOrder hspawn False.elim False.elim
  rw [List.isEmpty_iff.mp hdone] at hm
  exact (hm.push False.elim).2

end ScopeStack
