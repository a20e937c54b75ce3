import ScopeStack.Proofs.Balance

/-!
# Where jobs run

A job runs in the scope of its process, or in a block that is being called until some job behind it ends
the call. So for as long as something is to be done, the scope to do it in is there.

* `Sheltered`, `Agenda.Homed`: each job has such a scope. `Job.Nests.homed`: so have the jobs that a step
  puts in front of others, and `Thread.Homed.step`: **a step keeps it that way.**
* `Ensemble.Reachable.scope_there`: **wherever a job is to run, the scope is there.**
* `Ensemble.Reachable.discardTransient_runs`: so letting go of a value does not fail.
-/

namespace ScopeStack

open ScopeStack.Action

variable {p : ScopeId} {c : Context} {m m' : Machine} {rest : List Job}

/-! ## 1. Agendas -/

/-- The scope heads the process, or is a block that is called until a job of this agenda ends the call. -/
def Sheltered (p : ScopeId) (rest : List Job) (k : ScopeId) : Prop :=
  k = p ∨ ∃ call ∈ Agenda.calls rest, call.block = k

theorem Sheltered.mono {rest' : List Job} {k : ScopeId} (h : Sheltered p rest k)
    (hsub : Agenda.calls rest ⊆ Agenda.calls rest') : Sheltered p rest' k :=
  h.imp_right fun ⟨call, hm, hk⟩ => ⟨call, hsub hm, hk⟩

/-- Each job runs in such a scope, if it runs in any. -/
def Agenda.Homed (p : ScopeId) : List Job → Prop
  | [] => True
  | job :: rest => (∀ c, job.context? = some c → Sheltered p rest c.scope) ∧ Homed p rest

namespace Agenda

theorem Homed.mem {agenda : List Job} (h : Homed p agenda) {job : Job} (hj : job ∈ agenda)
    (hc : job.context? = some c) : Sheltered p agenda c.scope := by
  induction agenda with
  | nil => cases hj
  | cons x rest ih =>
    rcases List.mem_cons.mp hj with rfl | hj
    · exact (h.1 c hc).mono (calls_cons_subset job rest)
    · exact (ih h.2 hj).mono (calls_cons_subset x rest)

/-- Jobs that run in the scope of the process itself. -/
theorem Homed.of_scope {agenda : List Job}
    (h : ∀ job ∈ agenda, ∀ c, job.context? = some c → c.scope = p) : Homed p agenda := by
  induction agenda with
  | nil => trivial
  | cons job rest ih =>
    exact ⟨fun c hc => Or.inl (h job List.mem_cons_self c hc),
      ih fun x hx => h x (List.mem_cons_of_mem _ hx)⟩

end Agenda

namespace Job

/-- **What is put in front of other jobs finds its scope**: that of the job that was there, or that of a
call. -/
theorem Nests.homed {jobs : List Job} (h : Nests c jobs) (hc : Sheltered p rest c.scope)
    (hrest : Agenda.Homed p rest) : Agenda.Homed p (jobs ++ rest) := by
  have hmore (more : List Job) : Agenda.calls rest ⊆ Agenda.calls (more ++ rest) := by
    rw [Agenda.calls_append]
    exact List.subset_append_right _ _
  induction h with
  | nil => exact hrest
  | here hjob hjobs ih =>
    rename_i job jobs
    refine ⟨fun d hd => ?_, ih⟩
    have hdc : d = c := by
      cases job with
      | leave | finish => exact hjob.elim
      | _ => exact hjob d hd
    exact hdc ▸ hc.mono (hmore jobs)
  | call hblock _ hjobs ih =>
    rename_i callee call jobs _
    refine ⟨fun d hd => ?_, fun d hd => ?_, ih⟩
    · cases hd
      exact Or.inr ⟨call, List.mem_cons_self, hblock.symm⟩
    · cases hd
      exact hc.mono (hmore jobs)

theorem Nests.not_finish {jobs : List Job} (h : Nests c jobs) {pid : Pid} : .finish p pid ∉ jobs := by
  induction h with
  | nil => exact List.not_mem_nil
  | here hjob hjobs ih =>
    rename_i job jobs
    intro hm
    rcases List.mem_cons.mp hm with rfl | hm
    · exact hjob
    · exact ih hm
  | call _ _ _ ih =>
    intro hm
    rcases List.mem_cons.mp hm with he | hm
    · cases he
    · rcases List.mem_cons.mp hm with he | hm
      · cases he
      · exact ih hm

end Job

/-! ## 2. Threads -/

namespace Thread

/-- The jobs of a thread find their scopes: in the process that it is to end, or else at the top level. -/
def Homed (t : Thread) : Prop :=
  (∃ p, t.Heads p ∧ Agenda.Homed p t.agenda) ∨
    (∀ p, ¬ t.Heads p) ∧ Agenda.Homed rootScope t.agenda

/-- A step of a process, other than its last. -/
theorem step_nests {t t' : Thread} {job : Job} (hR : m.arena.Regular) (hp : Head m.arena p)
    (hagenda : t.agenda = job :: rest) (hjob : Jobs.Placed m.arena p [job])
    (hstep : t.step m = some (t', m')) (h : Agenda.Homed p t.agenda) :
    Agenda.Homed p t'.agenda ∧ ∀ q pid, Job.finish q pid ∈ t'.agenda → .finish q pid ∈ rest := by
  obtain ⟨hctx, hfin⟩ := hjob job List.mem_cons_self
  rw [hagenda] at h
  obtain ⟨c, hS, hc, hshelter⟩ : ∃ c, Starts m.arena p c ∧
      (∀ d, job.context? = some d → d = c) ∧ Sheltered p rest c.scope := by
    cases hjob : job.context? with
    | none => exact ⟨_, ⟨hR, hp, .ofProcess hR hp 0⟩, fun d hd => (by cases hd), Or.inl rfl⟩
    | some c =>
      exact ⟨c, ⟨hR, hp, hctx c hjob⟩, fun d hd => (Option.some.inj hd).symm, h.1 c hjob⟩
  obtain ⟨jobs, heq, hran⟩ := step_ran hS hagenda hc hfin (fun _ _ _ => trivial) hstep
  rw [heq]
  exact ⟨hran.nests.homed hshelter h.2, fun q pid hm =>
    (List.mem_append.mp hm).resolve_left hran.nests.not_finish⟩

/-- **A step of a thread leaves it jobs that find their scopes.** -/
theorem Homed.step {t t' : Thread} (h : t.Homed) (hR : m.arena.Regular) (ht : t.Sound m.arena)
    (hstep : t.step m = some (t', m')) : t'.Homed := by
  cases ht with
  | live heq hs hrun hjobs =>
    rename_i q pid s jobs
    have hfinish : Job.finish q pid ∈ t.agenda := by
      rw [heq]
      exact List.mem_append_right _ List.mem_cons_self
    have honly {p : ScopeId} (hp : t.Heads p) : p = q := by
      obtain ⟨pid', hm⟩ := hp
      rw [heq] at hm
      rcases List.mem_append.mp hm with hm | hm
      · exact absurd rfl ((hjobs _ hm).2 p pid')
      · cases List.mem_singleton.mp hm
        rfl
    have hhome : Agenda.Homed q t.agenda := by
      rcases h with ⟨p, hp, hhome⟩ | ⟨hnone, -⟩
      · exact honly hp ▸ hhome
      · exact absurd ⟨pid, hfinish⟩ (hnone q)
    cases jobs with
    | nil =>
      -- the process ends, and has only its pools to shut down
      obtain ⟨-, pools, heq'⟩ := step_finish heq hstep
      have hpools (job : Job) (hj : job ∈ t'.agenda) : ∃ id, job = .closePool id := by
        rw [heq', List.append_nil] at hj
        obtain ⟨id, -, rfl⟩ := List.mem_map.mp hj
        exact ⟨id, rfl⟩
      refine Or.inr ⟨fun p ⟨pid, hm⟩ => ?_, .of_scope fun job hj c hc => ?_⟩
      · obtain ⟨id, he⟩ := hpools _ hm
        cases he
      · obtain ⟨id, rfl⟩ := hpools job hj
        cases hc
    | cons job jobs =>
      obtain ⟨jobs', heq'⟩ := step_agenda heq hstep
      obtain ⟨hhome', -⟩ := step_nests hR (Or.inr ⟨s, hs, hrun⟩) heq hjobs.head hstep hhome
      refine Or.inl ⟨q, ⟨pid, ?_⟩, hhome'⟩
      rw [heq']
      exact List.mem_append_right _ (List.mem_append_right _ List.mem_cons_self)
  | serving hjobs =>
    obtain ⟨job, rest, hagenda⟩ := agenda_of_step hstep
    have hnone := not_heads hjobs
    have hhome : Agenda.Homed rootScope t.agenda :=
      (h.resolve_left fun ⟨p, hp, _⟩ => hnone p hp).2
    rw [hagenda] at hjobs
    obtain ⟨hhome', hfinish⟩ := step_nests hR (Or.inl rfl) hagenda hjobs.head hstep hhome
    refine Or.inr ⟨fun p ⟨pid, hm⟩ => hnone p ⟨pid, ?_⟩, hhome'⟩
    rw [hagenda]
    exact List.mem_cons_of_mem _ (hfinish p pid hm)

end Thread

/-! ## 3. Environments -/

namespace Ensemble

variable {w : Ensemble}

/-- The threads of an environment. -/
def threads (w : Ensemble) : List Thread := w.main :: w.others

theorem Sound.threads (h : w.Sound) {t : Thread} (ht : t ∈ w.threads) : t.Sound w.machine.arena := by
  rcases List.mem_cons.mp ht with rfl | ht
  · exact .serving h.main
  · exact h.others t ht

/-- Some threads are still there, and another one has jobs that find their scopes. -/
theorem homed_replace {front back : List Thread} {t t' : Thread}
    (h : ∀ u ∈ front ++ t :: back, u.Homed) (ht : t'.Homed) : ∀ u ∈ front ++ t' :: back, u.Homed := by
  intro u hu
  rcases List.mem_append.mp hu with hu | hu
  · exact h u (List.mem_append_left _ hu)
  · rcases List.mem_cons.mp hu with rfl | hu
    · exact ht
    · exact h u (List.mem_append_right _ (List.mem_cons_of_mem _ hu))

/-- **The jobs of all threads find their scopes.** -/
theorem Reachable.homed (h : w.Reachable) : ∀ t ∈ w.threads, t.Homed := by
  have hidle (agenda : List Job) (htop : ∀ job ∈ agenda, job.In .top) :
      ({ agenda } : Thread).Homed := by
    refine Or.inr ⟨fun p ⟨pid, hm⟩ => htop _ hm, .of_scope fun job hj c hc => ?_⟩
    have hin := htop job hj
    cases job with
    | leave | finish => exact hin.elim
    | _ => exact congrArg Context.scope (hin c hc)
  induction h with
  | start =>
    intro t ht
    cases List.mem_singleton.mp ht
    exact hidle [] fun job hj => absurd hj List.not_mem_nil
  | command _ _ _ _ ih => exact ih
  | request agenda _ _ hjobs ih =>
    exact List.forall_mem_cons.mpr ⟨hidle agenda hjobs, (List.forall_mem_cons.mp ih).2⟩
  | step hw hstep ih =>
    obtain ⟨hmain, hothers⟩ := List.forall_mem_cons.mp ih
    exact List.forall_mem_cons.mpr
      ⟨hmain.step hw.sound.regular (.serving hw.sound.main) hstep, hothers⟩
  | begin worker halt _ _ _ _ ih =>
    rename_i w p s _ _ _ _
    obtain ⟨hmain, hothers⟩ := List.forall_mem_cons.mp ih
    refine List.forall_mem_cons.mpr ⟨hmain, List.forall_mem_cons.mpr ⟨Or.inl ⟨p, ⟨s.pid, ?_⟩, ?_⟩,
      hothers⟩⟩
    · exact List.mem_cons_of_mem _ (List.mem_cons_of_mem _ List.mem_cons_self)
    · exact ⟨fun c hc => by cases hc; exact Or.inl rfl, fun c hc => (by cases hc),
        fun c hc => (by cases hc), trivial⟩
  | other hw hothers hstep ih =>
    rename_i w front back t t' m
    obtain ⟨hmain, hall⟩ := List.forall_mem_cons.mp ih
    have ht : t ∈ w.others := hothers ▸ List.mem_append_right _ List.mem_cons_self
    rw [hothers] at hall
    refine List.forall_mem_cons.mpr ⟨hmain, homed_replace hall ?_⟩
    exact (ih t (List.mem_cons_of_mem _ ht)).step hw.sound.regular (hw.sound.others t ht) hstep
  | retire _ hothers _ ih =>
    obtain ⟨hmain, hall⟩ := List.forall_mem_cons.mp ih
    rw [hothers] at hall
    exact List.forall_mem_cons.mpr ⟨hmain, fun u hu => hall u
      (((List.sublist_cons_self _ _).append_left _).subset hu)⟩
  | pass _ _ _ _ _ ih => exact ih

theorem mem_calls {t : Thread} (ht : t ∈ w.threads) : Agenda.calls t.agenda ⊆ w.calls := by
  intro call hcall
  rcases List.mem_cons.mp ht with rfl | ht
  · exact List.mem_append_left _ hcall
  · exact List.mem_append_right _ (List.mem_flatMap.mpr ⟨t, ht, hcall⟩)

/-- **Wherever a job is to run, the scope is there.** -/
theorem Reachable.scope_there (hw : w.Reachable) (hc : w.Hosts c) :
    ∃ s, w.machine.arena.get? c.scope = some s := by
  obtain ⟨r, hr, -⟩ := hw.sound.regular.tree.root
  rcases hc with rfl | ⟨t, ht, job, hj, hctx⟩
  · exact ⟨r, hr⟩
  obtain ⟨p, hp, hshelter⟩ : ∃ p, (p = rootScope ∨ t.Heads p) ∧ Sheltered p t.agenda c.scope := by
    rcases hw.homed t ht with ⟨p, hp, hhome⟩ | ⟨-, hhome⟩
    · exact ⟨p, Or.inr hp, hhome.mem hj hctx⟩
    · exact ⟨rootScope, Or.inl rfl, hhome.mem hj hctx⟩
  rcases hshelter with heq | ⟨call, hcall, heq⟩
  · rw [heq]
    rcases hp with rfl | hp
    · exact ⟨r, hr⟩
    · cases hw.sound.threads ht with
      | live hagenda hs _ hjobs =>
        obtain ⟨pid, hm⟩ := hp
        rw [hagenda] at hm
        rcases List.mem_append.mp hm with hm | hm
        · exact absurd rfl ((hjobs _ hm).2 p pid)
        · cases List.mem_singleton.mp hm
          exact ⟨_, hs⟩
      | serving hjobs => exact absurd hp (Thread.not_heads hjobs p)
  · rw [← heq]
    exact hw.inProgress.live (mem_calls ht hcall)

end Ensemble

/-! ## 4. Letting go -/

/-- Where the scope is there, letting go of a value does not fail. -/
theorem Context.discardTransient_ends (hT : m.arena.Tree) {s : Scope}
    (hs : m.arena.get? c.scope = some s) (v : Value) :
    (c.discardTransient v).Ends m (fun _ _ => True) fun _ _ => False := by
  cases v with
  | block h =>
    unfold discardTransient
    dsimp only
    rw [ends_bind, ends_getScope_some hs]
    split
    · trivial
    rename_i hroot
    rw [ends_bind, ends_get]
    split
    · trivial
    · rename_i block hres
      obtain ⟨rfl, ⟨b, hb, -⟩, -⟩ := hT.of_resolveBlock hres
      rw [ends_bind, ends_getScope_some hb]
      split
      · trivial
      · rename_i hif
        rw [Bool.not_eq_true, Bool.or_eq_false_iff, Bool.or_eq_false_iff] at hif
        have hp : b.parent = some c.scope := by simpa using hif.1.1
        obtain ⟨⟨pools, a⟩, hd⟩ := Arena.discard_ok hb hp hs
        rw [hd]
        trivial
  | bool | int | big | double | str | word => trivial

/-- **Where a job is to run, letting go of a value does not fail.** -/
theorem Ensemble.Reachable.discardTransient_runs {w : Ensemble} (hw : w.Reachable) (hc : w.Hosts c)
    (v : Value) : ∃ pools m', (c.discardTransient v).run w.machine = .ok pools m' := by
  obtain ⟨s, hs⟩ := hw.scope_there hc
  obtain ⟨pools, m', hrun, -⟩ :=
    (Context.discardTransient_ends hw.sound.regular.tree hs v).run_eq_ok
  exact ⟨pools, m', hrun⟩

end ScopeStack
