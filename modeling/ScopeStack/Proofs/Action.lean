import ScopeStack.Machine

/-!
# How actions end

An action ends well or fails, and either way leaves a machine. Statements about actions are made of
two parts: what holds if it ends well and what holds if it fails.

* `Action.Ends`: how an action ends from one machine. One equation for each way of building actions.
* `Action.Keeps`: **whatever machine an action starts from, it keeps an invariant of machines, also
  where it fails, and gives a result of some kind.** `Keeps.bind` puts actions together.
* `Action.Agree`: **two actions end in the same way from machines that belong together**, and leave
  machines that belong together. Keeping an invariant is agreeing with oneself (`keeps_iff_agree`).
-/

namespace ScopeStack.Action

variable {α β : Type}

/-! ## 1. Endings -/

/-- From this machine the action ends well with `Q`, or fails with `E`. -/
def Ends (x : Action α) (m : Machine) (Q : α → Machine → Prop) (E : Failure → Machine → Prop) :
    Prop :=
  match x.run m with
  | .ok v m' => Q v m'
  | .error f m' => E f m'

variable {m : Machine} {Q : α → Machine → Prop} {E : Failure → Machine → Prop}

theorem Ends.mono {x : Action α} {Q' : α → Machine → Prop} {E' : Failure → Machine → Prop}
    (h : x.Ends m Q E) (hQ : ∀ v m', Q v m' → Q' v m') (hE : ∀ f m', E f m' → E' f m') :
    x.Ends m Q' E' := by
  unfold Ends at h ⊢
  split at h
  · exact hQ _ _ h
  · exact hE _ _ h

theorem Ends.and {x : Action α} {Q' : α → Machine → Prop} {E' : Failure → Machine → Prop}
    (h : x.Ends m Q E) (h' : x.Ends m Q' E') :
    x.Ends m (fun v m' => Q v m' ∧ Q' v m') fun f m' => E f m' ∧ E' f m' := by
  unfold Ends at h h' ⊢
  cases hx : x.run m with
  | ok v m' =>
    rw [hx] at h h'
    exact ⟨h, h'⟩
  | error f m' =>
    rw [hx] at h h'
    exact ⟨h, h'⟩

/-- Where an action ends well, this is what it gives. -/
theorem Ends.attained {x : Action α} (h : x.Ends m Q E) :
    x.Ends m (fun v m' => x.run m = .ok v m' ∧ Q v m') E := by
  unfold Ends at h ⊢
  cases hx : x.run m with
  | ok v m' =>
    rw [hx] at h
    exact ⟨rfl, h⟩
  | error f m' =>
    rw [hx] at h
    exact h

/-- The two ways in which an action ends. -/
theorem Ends.outcome {x : Action α} (h : x.Ends m Q E) :
    (∃ v m', x.outcome m = (.ok v, m') ∧ Q v m') ∨
    ∃ f m', x.outcome m = (.error f, m') ∧ E f m' := by
  unfold Ends at h
  unfold Action.outcome
  cases hx : x.run m with
  | ok v m' =>
    rw [hx] at h
    exact Or.inl ⟨v, m', rfl, h⟩
  | error f m' =>
    rw [hx] at h
    exact Or.inr ⟨f, m', rfl, h⟩

/-- What cannot fail ends well. -/
theorem Ends.run_eq_ok {x : Action α} (h : x.Ends m Q fun _ _ => False) :
    ∃ v m', x.run m = .ok v m' ∧ Q v m' := by
  unfold Ends at h
  cases hx : x.run m with
  | ok v m' =>
    rw [hx] at h
    exact ⟨v, m', rfl, h⟩
  | error f m' =>
    rw [hx] at h
    exact h.elim

/-- What cannot end well fails. -/
theorem Ends.run_eq_error {x : Action α} (h : x.Ends m (fun _ _ => False) E) :
    ∃ f m', x.run m = .error f m' ∧ E f m' := by
  unfold Ends at h
  cases hx : x.run m with
  | ok v m' =>
    rw [hx] at h
    exact h.elim
  | error f m' =>
    rw [hx] at h
    exact ⟨f, m', rfl, h⟩

theorem ends_trivial (x : Action α) (m : Machine) :
    x.Ends m (fun _ _ => True) fun _ _ => True := by
  unfold Ends
  split <;> trivial

/-- How an action ends that has been run. -/
theorem Ends.of_run {x : Action α} {v : α} {m' : Machine} (h : x.run m = .ok v m')
    {E : Failure → Machine → Prop} : x.Ends m (fun w n => w = v ∧ n = m') E := by
  rw [Ends, h]
  exact ⟨rfl, rfl⟩

theorem Ends.of_ok {x : Action α} {v : α} {m' : Machine} (h : x.Ends m Q E)
    (hrun : x.run m = .ok v m') : Q v m' := by
  rw [Ends, hrun] at h
  exact h

theorem Ends.of_error {x : Action α} {f : Failure} {m' : Machine} (h : x.Ends m Q E)
    (hrun : x.run m = .error f m') : E f m' := by
  rw [Ends, hrun] at h
  exact h

@[simp] theorem ends_pure {v : α} : (pure v : Action α).Ends m Q E ↔ Q v m := Iff.rfl

@[simp] theorem ends_fail {f : Fault} : (fail f : Action α).Ends m Q E ↔ E ⟨f, none⟩ m := Iff.rfl

theorem ends_bind {x : Action α} {f : α → Action β} {Q : β → Machine → Prop} :
    (x >>= f).Ends m Q E ↔ x.Ends m (fun v m' => (f v).Ends m' Q E) E := by
  simp only [Ends, EStateM.run, bind, EStateM.bind]
  cases x m <;> rfl

theorem Ends.bind {x : Action α} {f : α → Action β} {Q : β → Machine → Prop}
    {R : α → Machine → Prop} (hx : x.Ends m R E) (hf : ∀ v m', R v m' → (f v).Ends m' Q E) :
    (x >>= f).Ends m Q E :=
  ends_bind.mpr (hx.mono hf fun _ _ h => h)

/-- What comes behind an action that has been run goes on from there. -/
theorem ends_bind_of_run {x : Action α} {f : α → Action β} {v : α} {m' : Machine}
    {Q : β → Machine → Prop} (hrun : x.run m = .ok v m') :
    (x >>= f).Ends m Q E ↔ (f v).Ends m' Q E := by
  rw [ends_bind, Ends, hrun]

@[simp] theorem ends_get {Q : Machine → Machine → Prop} :
    (get : Action Machine).Ends m Q E ↔ Q m m := Iff.rfl

@[simp] theorem ends_set {m' : Machine} {Q : PUnit → Machine → Prop} :
    (set m' : Action PUnit).Ends m Q E ↔ Q ⟨⟩ m' := Iff.rfl

@[simp] theorem ends_modifyArena {f : Arena → Arena} {Q : Unit → Machine → Prop} :
    (modifyArena f).Ends m Q E ↔ Q () { m with arena := f m.arena } := Iff.rfl

@[simp] theorem ends_modifyScope {id : ScopeId} {f : Scope → Scope} {Q : Unit → Machine → Prop} :
    (modifyScope id f).Ends m Q E ↔ Q () { m with arena := m.arena.modify id f } := Iff.rfl

theorem ends_ofExcept {r : Except Fault α} :
    (ofExcept r).Ends m Q E ↔ (∀ v, r = .ok v → Q v m) ∧ ∀ f, r = .error f → E ⟨f, none⟩ m := by
  cases r <;> simp [ofExcept]

theorem ends_ofOption {f : Fault} {r : Option α} :
    (ofOption f r).Ends m Q E ↔ (∀ v, r = some v → Q v m) ∧ (r = none → E ⟨f, none⟩ m) := by
  cases r <;> simp [ofOption]

theorem ends_inArena {f : Arena → Except Fault α} :
    (inArena f).Ends m Q E ↔
      (∀ v, f m.arena = .ok v → Q v m) ∧ ∀ e, f m.arena = .error e → E ⟨e, none⟩ m := by
  rw [inArena, ends_bind, ends_get, ends_ofExcept]

theorem ends_inArena_ok {f : Arena → Except Fault α} {v : α} (h : f m.arena = .ok v) :
    (inArena f).Ends m Q E ↔ Q v m := by
  rw [ends_inArena, h]
  simp

theorem ends_changeArena {f : Arena → Except Fault α × Arena} :
    (changeArena f).Ends m Q E ↔
      (∀ v, (f m.arena).1 = .ok v → Q v { m with arena := (f m.arena).2 }) ∧
      ∀ e, (f m.arena).1 = .error e → E ⟨e, none⟩ { m with arena := (f m.arena).2 } := by
  rw [changeArena, ends_bind]
  exact ends_ofExcept

theorem ends_getScope {id : ScopeId} {Q : Scope → Machine → Prop} :
    (getScope id).Ends m Q E ↔
      (∀ s, m.arena.get? id = some s → Q s m) ∧
      (m.arena.get? id = none → E ⟨.scopeGone id, none⟩ m) := by
  rw [getScope, ends_inArena, Arena.get]
  cases m.arena.get? id <;> simp

/-- A scope that is there. -/
theorem ends_getScope_some {id : ScopeId} {s : Scope} (hs : m.arena.get? id = some s)
    {Q : Scope → Machine → Prop} : (getScope id).Ends m Q E ↔ Q s m := by
  rw [ends_getScope, hs]
  simp

theorem ends_tryCatch {x : Action α} {h : Failure → Action α} :
    (tryCatch x h).Ends m Q E ↔ x.Ends m Q fun f m' => (h f).Ends m' Q E := by
  unfold Ends EStateM.run
  simp only [tryCatch, tryCatchThe, MonadExcept.tryCatch, MonadExceptOf.tryCatch]
  delta EStateM.tryCatch
  cases hx : x m with
  | ok v m' => rfl
  | error f m' => rfl

/-- Saying where a failure happened changes nothing but the failure. -/
theorem ends_locating {l : Option Location} {x : Action α} :
    (locating l x).Ends m Q E ↔ x.Ends m Q fun f m' => E ((l.map f.orAt).getD f) m' := by
  rw [locating, ends_tryCatch]
  exact Iff.rfl

/-! ## 2. Invariants -/

/-- The action keeps the invariant, also where it fails, and gives a good result. -/
def Keeps (P : Machine → Prop) (x : Action α) (good : α → Prop) : Prop :=
  ∀ m, P m → x.Ends m (fun v m' => P m' ∧ good v) fun _ m' => P m'

namespace Keeps

variable {P : Machine → Prop} {good : α → Prop} {fine : β → Prop}

theorem pure {v : α} (h : good v) : Keeps P (pure v) good := fun _ hP => ⟨hP, h⟩

theorem fail (f : Fault) : Keeps P (fail f : Action α) good := fun _ hP => hP

theorem bind {x : Action α} {f : α → Action β} (hx : Keeps P x good)
    (hf : ∀ v, good v → Keeps P (f v) fine) : Keeps P (x >>= f) fine :=
  fun m hP => (hx m hP).bind fun v m' h => hf v h.2 m' h.1

/-- Reading the machine. -/
theorem get_bind {f : Machine → Action β} (hf : ∀ m, P m → Keeps P (f m) fine) :
    Keeps P (get >>= f) fine :=
  fun m hP => ends_bind.mpr (hf m hP m hP)

theorem ofExcept {r : Except Fault α} (h : ∀ v, r = .ok v → good v) :
    Keeps P (ofExcept r) good :=
  fun _ hP => ends_ofExcept.mpr ⟨fun v hv => ⟨hP, h v hv⟩, fun _ _ => hP⟩

theorem ofOption {f : Fault} {r : Option α} (h : ∀ v, r = some v → good v) :
    Keeps P (ofOption f r) good :=
  fun _ hP => ends_ofOption.mpr ⟨fun v hv => ⟨hP, h v hv⟩, fun _ => hP⟩

theorem mapM {f : α → Action β} {xs : List α} (hf : ∀ x ∈ xs, Keeps P (f x) fine) :
    Keeps P (xs.mapM f) fun ys => ∀ y ∈ ys, fine y := by
  induction xs with
  | nil => exact pure fun _ h => absurd h List.not_mem_nil
  | cons x xs ih =>
    rw [List.mapM_cons]
    refine bind (hf x List.mem_cons_self) fun y hy => ?_
    refine bind (ih fun x' hx' => hf x' (List.mem_cons_of_mem _ hx')) fun ys hys => ?_
    refine pure fun z hz => ?_
    rcases List.mem_cons.mp hz with rfl | hz
    · exact hy
    · exact hys z hz

end Keeps

/-! ## 3. Actions side by side -/

/-- From these machines both actions end well with `Q`, or both fail with `E`. -/
def Beside (x : Action α) (m : Machine) (y : Action β) (n : Machine)
    (Q : α → β → Machine → Machine → Prop) (E : Failure → Failure → Machine → Machine → Prop) : Prop :=
  x.Ends m (fun v m' => y.Ends n (Q v · m' ·) fun _ _ => False)
    fun f m' => y.Ends n (fun _ _ => False) (E f · m' ·)

/-- The two ways in which two actions end beside each other. -/
theorem Beside.cases {x : Action α} {y : Action β} {n : Machine}
    {Q : α → β → Machine → Machine → Prop} {E : Failure → Failure → Machine → Machine → Prop}
    (h : Beside x m y n Q E) :
    (∃ v w m' n', x.run m = .ok v m' ∧ y.run n = .ok w n' ∧ Q v w m' n') ∨
    ∃ f e m' n', x.run m = .error f m' ∧ y.run n = .error e n' ∧ E f e m' n' := by
  unfold Beside Ends at h
  cases hx : x.run m with
  | ok v m' =>
    simp only [hx] at h
    cases hy : y.run n with
    | ok w n' =>
      rw [hy] at h
      exact Or.inl ⟨v, w, m', n', rfl, rfl, h⟩
    | error e n' =>
      rw [hy] at h
      exact h.elim
  | error f m' =>
    simp only [hx] at h
    cases hy : y.run n with
    | ok w n' =>
      rw [hy] at h
      exact h.elim
    | error e n' =>
      rw [hy] at h
      exact Or.inr ⟨f, e, m', n', rfl, rfl, h⟩

/-- From machines that belong together both actions end well with the same good result or both fail
in the same way, and the machines that they leave belong together. -/
def Agree (R : Machine → Machine → Prop) (x y : Action α) (good : α → Prop) : Prop :=
  ∀ m n, R m n → Beside x m y n (fun v w m' n' => w = v ∧ R m' n' ∧ good v)
    fun f e m' n' => e = f ∧ R m' n'

/-- The same machine twice, with an invariant. -/
def Only (P : Machine → Prop) (m n : Machine) : Prop := n = m ∧ P m

/-- **An action keeps an invariant exactly if it agrees with itself.** -/
theorem keeps_iff_agree {P : Machine → Prop} {x : Action α} {good : α → Prop} :
    Keeps P x good ↔ Agree (Only P) x x good := by
  constructor
  · rintro h m n ⟨rfl, hP⟩
    have hx := h n hP
    unfold Beside Ends
    unfold Ends at hx
    cases hrun : x.run n with
    | ok v m' =>
      rw [hrun] at hx
      exact ⟨rfl, ⟨rfl, hx.1⟩, hx.2⟩
    | error f m' =>
      rw [hrun] at hx
      exact ⟨rfl, rfl, hx⟩
  · intro h m hP
    have hx := h m m ⟨rfl, hP⟩
    unfold Beside Ends at hx
    unfold Ends
    cases hrun : x.run m with
    | ok v m' =>
      simp only [hrun] at hx
      exact ⟨hx.2.1.2, hx.2.2⟩
    | error f m' =>
      simp only [hrun] at hx
      exact hx.2.2

namespace Agree

variable {R : Machine → Machine → Prop} {good : α → Prop} {fine : β → Prop}

theorem pure {v : α} (h : good v) : Agree R (pure v) (pure v) good := fun _ _ hR => ⟨rfl, hR, h⟩

theorem fail (f : Fault) : Agree R (fail f : Action α) (fail f) good := fun _ _ hR => ⟨rfl, hR⟩

theorem bind {x y : Action α} {f g : α → Action β} (hx : Agree R x y good)
    (hf : ∀ v, good v → Agree R (f v) (g v) fine) : Agree R (x >>= f) (y >>= g) fine := by
  intro m n hR
  refine ends_bind.mpr ((hx m n hR).mono (fun v m' h => ?_) fun e m' h => ?_)
  · obtain ⟨w, n', hrun, rfl, hR', hv⟩ := h.run_eq_ok
    -- what comes after the second action goes on from the machine that it has left
    have hgo {Q : β → Machine → Prop} {E : Failure → Machine → Prop} (hg : (g w).Ends n' Q E) :
        (y >>= g).Ends n Q E := by
      rw [ends_bind, Ends, hrun]
      exact hg
    exact (hf w hv m' n' hR').mono (fun _ _ => hgo) fun _ _ => hgo
  · exact ends_bind.mpr (h.mono (fun _ _ hno => hno.elim) fun _ _ h => h)

theorem ofExcept {r : Except Fault α} (h : ∀ v, r = .ok v → good v) :
    Agree R (ofExcept r) (ofExcept r) good := by
  cases r with
  | ok v => exact pure (h v rfl)
  | error f => exact fail f

theorem ofOption {f : Fault} {r : Option α} (h : ∀ v, r = some v → good v) :
    Agree R (ofOption f r) (ofOption f r) good := by
  cases r with
  | some v => exact pure (h v rfl)
  | none => exact fail f

end Agree

end ScopeStack.Action
