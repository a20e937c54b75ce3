import ScopeStack.PoolTrial
import ScopeStack.Proofs.Ledger

/-!
# Pools on trial

A trial asks a pool for one thing after another, and lets the workers go on in between. Each request is a
row of critical sections of a pool with its book, so all that holds of books holds of trials.

* `PoolTrial.Enters`: a trial and a book with the same pool, tasks and tokens.
* `PoolTrial.Follows`: a request is a row of critical sections. `PoolTrial.follows_submit`,
  `PoolTrial.follows_haltAll`, `PoolTrial.follows_awaitIdle`, `PoolTrial.follows_shutdown`.
* `PoolTrial.Reached.enters`: **every trial is a run of a pool with its book.**
* `PoolTrial.Reached.loses_none`: **a trial loses no task, and a shutdown asks all of them to stop.**
-/

namespace ScopeStack

open Relation

/-! ## 1. Rows of critical sections -/

namespace PoolLedger

variable {τ : Type}

/-- One critical section for each of some workers. -/
theorem steps_workers {f : WorkerPool (Ticket τ) → Nat → WorkerPool (Ticket τ)}
    (hf : ∀ (s : PoolLedger τ) (i : Nat), Step s { s with pool := f s.pool i }) (workers : List Nat)
    (s : PoolLedger τ) : ReflTransGen Step s { s with pool := workers.foldl f s.pool } := by
  induction workers generalizing s with
  | nil => exact .refl
  | cons i workers ih => exact .head (hf s i) (ih { s with pool := f s.pool i })

/-- Tokens are set one after the other. -/
theorem steps_halt (tokens : List HaltToken) (s : PoolLedger τ) :
    ReflTransGen Step s { s with halted := tokens.reverse ++ s.halted } := by
  induction tokens generalizing s with
  | nil => exact .refl
  | cons token tokens ih =>
    rw [List.reverse_cons, List.append_assoc]
    exact .head (.halt s token) (ih { s with halted := token :: s.halted })

/-- The workers go on round by round. -/
theorem steps_settle (done : Ticket τ → Bool) (n : Nat) (s : PoolLedger τ) :
    ReflTransGen Step s { s with pool := s.pool.settle done n } := by
  induction n generalizing s with
  | zero => exact .refl
  | succ n ih =>
    rw [WorkerPool.settle]
    split
    · exact .refl
    · exact (steps_workers .advance _ s).trans (ih _)

/-- The time of every waiting worker runs out. -/
theorem steps_timeOutAll (s : PoolLedger τ) :
    ReflTransGen Step s { s with pool := s.pool.timeOutAll } := by
  rw [WorkerPool.timeOutAll]
  exact steps_workers (fun s i => .wake s i true) (List.range s.pool.workers.size) s

end PoolLedger

/-! ## 2. Requests -/

namespace PoolTrial

variable {t t' t'' : PoolTrial} {s : PoolLedger Bool} {maxIdle : Nat}

/-- The book has what the trial has. -/
structure Enters (t : PoolTrial) (s : PoolLedger Bool) : Prop where
  pool : s.pool = t.pool
  offered : s.offered = t.offered
  accepted : s.accepted = t.accepted
  halted (token : HaltToken) : token ∈ s.halted ↔ token ∈ t.halted

/-- What happens to the trial is a row of critical sections. -/
def Follows (t t' : PoolTrial) : Prop :=
  ∀ s, t.Enters s → ∃ s', ReflTransGen PoolLedger.Step s s' ∧ t'.Enters s'

theorem Follows.trans (h : t.Follows t') (h' : t'.Follows t'') : t.Follows t'' := by
  intro s hs
  obtain ⟨s', hsteps, hs'⟩ := h s hs
  obtain ⟨s'', hsteps', hs''⟩ := h' s' hs'
  exact ⟨s'', hsteps.trans hsteps', hs''⟩

/-- Tokens that are set in the trial are set in the book. -/
theorem Enters.mem_insertMany {tokens tokens' : List HaltToken} (hs : t.Enters s)
    (hsame : ∀ token, token ∈ tokens' ↔ token ∈ tokens) (token : HaltToken) :
    token ∈ tokens' ++ s.halted ↔ token ∈ t.halted.insertMany tokens := by
  rw [List.mem_append, Std.TreeSet.mem_insertMany_list, List.contains_iff_mem, hsame, hs.halted, or_comm]

theorem follows_settled (t : PoolTrial) : t.Follows t.settled := by
  intro s hs
  refine ⟨_, PoolLedger.steps_settle t.isOver (2 * (t.pool.queue.length + t.pool.workers.size) + 2) s,
    ?_, hs.offered, hs.accepted, hs.halted⟩
  rw [hs.pool]
  rfl

theorem follows_submit (t : PoolTrial) (waits : Bool) : t.Follows (t.submit waits).2 := by
  refine Follows.trans (fun s hs => ?_) (follows_settled _)
  have hseen : ∀ token, t.halted.contains token = true → token ∈ s.halted := fun token h =>
    (hs.halted token).mpr h
  refine ⟨_, .single (.submit s 0 none t.offered waits hseen), ?_, congrArg (· + 1) hs.offered, ?_,
    hs.halted⟩
  · unfold PoolLedger.submit
    rw [hs.pool, hs.offered]
    rfl
  · unfold PoolLedger.submit
    rw [hs.pool, hs.offered, hs.accepted]
    rfl

theorem follows_haltAll (t : PoolTrial) : t.Follows t.haltAll := by
  refine Follows.trans (fun s hs => ?_) (follows_settled _)
  exact ⟨_, PoolLedger.steps_halt (t.accepted.map (·.token)) s, hs.pool, hs.offered, hs.accepted,
    hs.mem_insertMany fun _ => List.mem_reverse⟩

theorem follows_awaitIdle (t : PoolTrial) : t.Follows t.awaitIdle := by
  refine Follows.trans (fun s hs => ?_) (follows_settled _)
  exact ⟨_, s.steps_timeOutAll, congrArg (·.timeOutAll) hs.pool, hs.offered, hs.accepted, hs.halted⟩

theorem follows_shutdown (t : PoolTrial) : t.Follows t.shutdown.2 := by
  refine Follows.trans (fun s hs => ?_) (follows_settled _)
  refine ⟨_, .single (.shutdown s), ?_, hs.offered, hs.accepted, ?_⟩
  · unfold PoolLedger.shutdown
    rw [hs.pool]
    rfl
  · unfold PoolLedger.shutdown
    rw [hs.pool]
    exact hs.mem_insertMany fun _ => Iff.rfl

/-! ## 3. Trials -/

/-- What the trial of a new pool can become. -/
inductive Reached (maxIdle : Nat) : PoolTrial → Prop where
  | start : Reached maxIdle { pool := { maxIdle } }
  | submit {t : PoolTrial} (waits : Bool) : Reached maxIdle t → Reached maxIdle (t.submit waits).2
  | haltAll {t : PoolTrial} : Reached maxIdle t → Reached maxIdle t.haltAll
  | awaitIdle {t : PoolTrial} : Reached maxIdle t → Reached maxIdle t.awaitIdle
  | shutdown {t : PoolTrial} : Reached maxIdle t → Reached maxIdle t.shutdown.2

/-- **Every trial is a run of a pool with its book.** -/
theorem Reached.enters (h : t.Reached maxIdle) : ∃ s, PoolLedger.Reachable maxIdle s ∧ t.Enters s := by
  have hfollow {t t' : PoolTrial} (hfollows : t.Follows t')
      (ih : ∃ s, PoolLedger.Reachable maxIdle s ∧ t.Enters s) :
      ∃ s, PoolLedger.Reachable maxIdle s ∧ t'.Enters s := by
    obtain ⟨s, hr, hs⟩ := ih
    obtain ⟨s', hsteps, hs'⟩ := hfollows s hs
    exact ⟨s', hr.trans hsteps, hs'⟩
  induction h with
  | start => exact ⟨.opened maxIdle, .refl, rfl, rfl, rfl, fun _ => by simp [PoolLedger.opened]⟩
  | submit waits _ ih => exact hfollow (follows_submit _ waits) ih
  | haltAll _ ih => exact hfollow (follows_haltAll _) ih
  | awaitIdle _ ih => exact hfollow (follows_awaitIdle _) ih
  | shutdown _ ih => exact hfollow (follows_shutdown _) ih

/-- **A trial loses no task, and a shutdown asks all of them to stop.** The accepted tasks are those that
are queued, run by a worker or have counted themselves, each of them once. -/
theorem Reached.loses_none (h : t.Reached maxIdle) :
    (t.pool.queue ++ t.pool.running ++ t.pool.finished).Perm t.accepted ∧ t.accepted.Nodup ∧
    t.pool.queue.length + t.pool.running.length + t.count = t.accepted.length ∧
    (t.pool.shutDown = true → ∀ asked ∈ t.askedToStop, asked = true) := by
  obtain ⟨s, hr, hs⟩ := h.enters
  have hS := hr.sound
  have hentered := hS.entered
  have hdistinct := hS.distinct
  rw [hs.pool, hs.accepted] at hentered
  rw [hs.accepted] at hdistinct
  refine ⟨hentered, hdistinct, ?_, fun hshut asked hasked => ?_⟩
  · rw [count, ← List.length_append, ← List.length_append]
    exact hentered.length_eq
  · obtain ⟨ticket, hticket, rfl⟩ := List.mem_map.mp hasked
    have haccepted : ticket ∈ s.accepted := hs.accepted ▸ List.mem_reverse.mp hticket
    exact (hs.halted _).mp (hr.covered.shut (hs.pool ▸ hshut) ticket haccepted)

end PoolTrial

end ScopeStack
