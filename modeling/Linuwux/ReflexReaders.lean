/-
`ReflexReaders.lean` -- what a thread that only reads `State` can see.

`State::routing` reads the routing word through `stable`, and `route_syscall` filters
some of the transient values and reads three more words afterwards. Both readers have
a window. While a promotion is under way the word is PromotingDualDispatch, `stable`
calls that Unregistered, and a process that was seen registered is seen unregistered
again; `route_syscall` itself lets that value through, so the dual convention can be
read before the ids that go with it. And while the first handler is being registered the
word is RegisteringResumeTarget, which `route_syscall` also lets through, so the handler
can be read before its convention.

The results below are about every run that keeps out of the windows, and the
interleavings after them are the shortest that do not.
-/
import Linuwux.ReflexInvariant

set_option autoImplicit false

namespace Linuwux.Reflex

open Threads (Outcome Program Config)

variable {T : Type} [DecidableEq T]

/-! ## `State::routing` and `has_registered_target_process` -/

/-- A `State::routing()` that returned ResumeTarget or DualDispatch. -/
def Event.registered : Event → Bool
  | .saw .ResumeTarget | .saw .DualDispatch => true
  | _ => false

/-- In the order of the trace: once a `State::routing()` has returned ResumeTarget or
DualDispatch none returns Unregistered, and once `has_registered_target_process()` has
returned true it does not return false. -/
def RegistrationKept (tr : List (T × Event)) : Prop :=
  tr.Pairwise (fun e e' => e.2.registered = true → e'.2 ≠ .saw .Unregistered)
    ∧ tr.Pairwise fun e e' =>
      e.2 = .returned .has_registered_target_process (.flag true) →
        e'.2 ≠ .returned .has_registered_target_process (.flag false)

/-- Some `State::routing()` of the trace returned ResumeTarget or DualDispatch. -/
def SeenRegistered (tr : List (T × Event)) : Prop := ∃ e ∈ tr, e.2.registered = true

/-- Once the process has been seen registered, the step does not load the routing word
for a `State::routing()` while a promotion holds it. -/
def OutsidePromotion (tr : List (T × Event)) (c : Config T State Thread) (x : T × Choice) :
    Prop :=
  SeenRegistered tr → (c.loc x.1).observes = true → c.mem.routing ≠ .PromotingDualDispatch

/-- A REGISTER_TARGET_PID that starts here carries a nonzero RDX. -/
def NonzeroPid (x : T × Choice) : Prop :=
  x.2.call.leaf = .register_target_pid → x.2.call.argument ≠ 0

instance (tr : List (T × Event)) : Decidable (SeenRegistered tr) :=
  inferInstanceAs (Decidable (∃ e ∈ tr, _))

instance (tr : List (T × Event)) (c : Config T State Thread) (x : T × Choice) :
    Decidable (OutsidePromotion tr c x) :=
  inferInstanceAs (Decidable (_ → _ → _))

instance (x : T × Choice) : Decidable (NonzeroPid x) := inferInstanceAs (Decidable (_ → _))

instance (tr : List (T × Event)) : Decidable (RegistrationKept tr) :=
  inferInstanceAs (Decidable (_ ∧ _))

theorem Event.registered_iff {e : Event} :
    e.registered = true ↔ ∃ r, e = .saw r ∧ r ≠ .Unregistered := by
  constructor
  · intro h
    unfold Event.registered at h
    split at h
    · exact ⟨_, rfl, nofun⟩
    · exact ⟨_, rfl, nofun⟩
    · cases h
  · rintro ⟨r, rfl, hr⟩
    cases r with
    | Unregistered => exact absurd rfl hr
    | ResumeTarget => rfl
    | DualDispatch => rfl

theorem registered_of_stable {r : RoutingState} (h : r.stable ≠ .Unregistered) :
    r.registered = true := by
  cases r <;> simp_all [RoutingState.stable, RoutingState.registered]

/-- A registered word reads as unregistered exactly during a promotion. -/
theorem stable_eq_unregistered_iff {r : RoutingState} (h : r.registered = true) :
    r.stable = .Unregistered ↔ r = .PromotingDualDispatch := by
  cases r <;> simp_all [RoutingState.stable, RoutingState.registered]

theorem observes_saw (x : Choice) (s : State) {th : Thread} (h : th.observes = true) :
    .saw s.routing.stable ∈ (thread_step x s th).events := by
  unfold Thread.observes at h
  split at h
  all_goals first
    | exact List.mem_cons_self ..
    | cases h

/-- The two answers of `has_registered_target_process()`. -/
theorem has_answer {x : Choice} {s : State} {pc : Pc} {b : Bool}
    (hc : pc.of_call .has_registered_target_process)
    (h : .returned .has_registered_target_process (.flag b)
      ∈ (access x s .has_registered_target_process pc).events) :
    (s.target_pid = 0 ∧ b = false)
      ∨ (pc = .has_routing ∧ b = (s.routing.stable != .Unregistered)) := by
  cases pc with
  | has_pid =>
    simp only [access] at h
    split at h <;> simp_all [go, ret]
  | has_routing =>
    right
    simpa [access, observe, ret] using h
  | _ => simp [Pc.of_call, Call.leaf, Call.is_resume, Call.is_dual] at hc

/-- The pid word only changes under a REGISTER_TARGET_PID. -/
theorem target_pid_apply {s : State} {call : Call} {pc : Pc} {w : Write} {th : Thread}
    (hw : Writes s call pc w th) :
    (w.apply s).target_pid = s.target_pid
      ∨ pc = .pid_store ∧ (w.apply s).target_pid = call.argument := by
  cases hw with
  | pid_store => exact Or.inr ⟨rfl, rfl⟩
  | dual_store h =>
    subst h
    exact Or.inl (dual_write_frame call.leaf call.argument s).2.2.2.1
  | _ => exact Or.inl rfl

/-- What the trace so far tells about the words: nothing that was seen registered has
gone back. -/
structure Seen (tr : List (T × Event)) (c : Config T State Thread) : Prop where
  inv : Inv c
  pid : ∀ t call pc, c.loc t = .running call pc → call.leaf = .register_target_pid →
    call.argument ≠ 0
  loaded : ∀ t call, c.loc t = .running call .has_routing → c.mem.target_pid ≠ 0
  routing : SeenRegistered tr → c.mem.routing.registered = true
  target : (∃ e ∈ tr, e.2 = .returned .has_registered_target_process (.flag true)) →
    SeenRegistered tr ∧ c.mem.target_pid ≠ 0

theorem Seen.target_pid_step {tr : List (T × Event)} {c : Config T State Thread}
    (h : Seen tr c) (x : T × Choice) (hz : c.mem.target_pid ≠ 0) :
    (Threads.step (program T) c x).mem.target_pid ≠ 0 := by
  rw [Threads.step_mem]
  have hmem : ∀ s', (thread_step x.2 c.mem (c.loc x.1)).mem = s' →
      ((program T) x.1 x.2 c.mem (c.loc x.1)).mem = s' := fun _ h => h
  rcases thread_step_effect x.2 c.mem (c.loc x.1) with ⟨hm, -⟩ | ⟨call, pc, w, hth, hw, hm, -⟩
  · rwa [hmem _ hm]
  · rw [hmem _ hm]
    rcases target_pid_apply hw with he | ⟨rfl, he⟩
    · rwa [he]
    · rw [he]
      have hc := h.inv.pc_of_call hth
      exact h.pid x.1 call _ hth hc

/-- Only a load that found a nonzero pid goes on to the routing word. -/
theorem has_routing_access {x : Choice} {s : State} {call call' : Call} {pc : Pc}
    (h : (access x s call pc).loc = .running call' .has_routing) : s.target_pid ≠ 0 := by
  cases pc <;> simp only [access, observe, wait_step, cas_routing] at h
  all_goals repeat' split at h
  all_goals simp_all [go, put, ret, put_ret]

theorem enter_loc_has_routing {s : State} {call call' : Call} :
    (enter s call).loc ≠ .running call' .has_routing := by
  unfold enter
  repeat' split
  all_goals simp

omit [DecidableEq T] in
/-- A registered word that was seen in the trace, or is seen by this step, was there before
the step. -/
theorem Seen.registered_step {tr : List (T × Event)} {c : Config T State Thread}
    (h : Seen tr c) {x : T × Choice}
    (hs : SeenRegistered (tr ++ Threads.events (program T) c x)) :
    c.mem.routing.registered = true := by
  obtain ⟨⟨u, e⟩, he, hr⟩ := hs
  rcases List.mem_append.mp he with he | he
  · exact h.routing ⟨_, he, hr⟩
  · obtain ⟨r, rfl, hne⟩ := Event.registered_iff.mp hr
    exact registered_of_stable ((saw_step he).1 ▸ hne)

theorem Seen.loaded_step {tr : List (T × Event)} {c : Config T State Thread} (h : Seen tr c)
    (x : T × Choice) {t : T} {call : Call}
    (ht : (Threads.step (program T) c x).loc t = .running call .has_routing) :
    (Threads.step (program T) c x).mem.target_pid ≠ 0 := by
  apply h.target_pid_step x
  by_cases htx : t = x.1
  · subst htx
    rw [Threads.step_loc_self] at ht
    simp only [program] at ht
    cases hl : c.loc x.1 with
    | idle =>
      rw [hl] at ht
      exact absurd ht enter_loc_has_routing
    | running call' pc' =>
      rw [hl] at ht
      exact has_routing_access ht
  · rw [Threads.step_loc_of_ne _ _ _ htx] at ht
    exact h.loaded t call ht

/-- A `has_registered_target_process()` that answers true has just seen a registered word, and
had loaded a nonzero pid before. -/
theorem Seen.target_step {tr : List (T × Event)} {c : Config T State Thread} (h : Seen tr c)
    {x : T × Choice} {u : T}
    (he : (u, Event.returned .has_registered_target_process (.flag true))
      ∈ Threads.events (program T) c x) :
    SeenRegistered (tr ++ Threads.events (program T) c x)
      ∧ (Threads.step (program T) c x).mem.target_pid ≠ 0 := by
  obtain ⟨rfl, ⟨-, act, ha⟩ | ⟨pc, hpc, hev⟩⟩ := returned_step he
  · cases ha
  · have hc := h.inv.pc_of_call hpc
    rcases has_answer hc hev with ⟨-, hb⟩ | ⟨rfl, hb⟩
    · cases hb
    · have hsaw : (x.1, Event.saw c.mem.routing.stable) ∈ Threads.events (program T) c x := by
        refine List.mem_map.mpr ⟨_, ?_, rfl⟩
        exact observes_saw x.2 c.mem (by rw [hpc]; rfl)
      refine ⟨⟨_, List.mem_append_right _ hsaw, ?_⟩,
        h.target_pid_step x (h.loaded x.1 _ hpc)⟩
      exact Event.registered_iff.mpr ⟨_, rfl, by simpa using hb.symm⟩

theorem Seen.step {tr : List (T × Event)} {c : Config T State Thread} (h : Seen tr c)
    {x : T × Choice} (hx : NonzeroPid x) :
    Seen (tr ++ Threads.events (program T) c x) (Threads.step (program T) c x) := by
  have hrely := thread_step_rely x.2 (h.inv.loc x.1) false nofun
  refine ⟨h.inv.step x, fun t call pc ht hl => ?_, fun t call ht => h.loaded_step x ht,
    fun hs => hrely.registered (h.registered_step hs), ?_⟩
  · by_cases htx : t = x.1
    · subst htx
      rcases running_step (h.inv.call x.1) ht with ⟨-, rfl⟩ | ⟨pc', hpc'⟩
      · exact hx hl
      · exact h.pid x.1 call pc' hpc' hl
    · rw [Threads.step_loc_of_ne _ _ _ htx] at ht
      exact h.pid t call pc ht hl
  · rintro ⟨⟨u, e⟩, he, hr⟩
    simp only at hr
    subst hr
    rcases List.mem_append.mp he with he | he
    · obtain ⟨⟨e', he', hs⟩, hz⟩ := h.target ⟨_, he, rfl⟩
      exact ⟨⟨e', List.mem_append_left _ he', hs⟩, h.target_pid_step x hz⟩
    · exact h.target_step he

theorem seen_run {s : List (T × Choice)} (hs : ∀ x ∈ s, NonzeroPid x) :
    Seen (Threads.trace (program T) (start T) s) (Threads.run (program T) (start T) s) := by
  refine Threads.run_induct_choices (program T) (Q := NonzeroPid) ?_
    (fun tr d x hx h => h.step hx) hs
  refine ⟨inv_start, nofun, nofun, ?_, ?_⟩
  · rintro ⟨e, he, -⟩
    cases he
  · rintro ⟨e, he, -⟩
    cases he

omit [DecidableEq T] in
/-- Adding the events of a step keeps the order of observations exactly when the step is
outside a promotion. -/
theorem Seen.kept_step {tr : List (T × Event)} {c : Config T State Thread} (h : Seen tr c)
    (x : T × Choice) :
    RegistrationKept (tr ++ Threads.events (program T) c x) ↔
      RegistrationKept tr ∧ OutsidePromotion tr c x := by
  unfold RegistrationKept OutsidePromotion
  simp only [List.pairwise_append]
  constructor
  · rintro ⟨⟨h1, -, hx⟩, h2, -, -⟩
    refine ⟨⟨h1, h2⟩, fun hs ho hp => ?_⟩
    obtain ⟨e, he, hr⟩ := hs
    refine hx e he (x.1, .saw c.mem.routing.stable) (List.mem_map.mpr ⟨_, ?_, rfl⟩) hr ?_
    · exact observes_saw x.2 c.mem ho
    · rw [hp]
      rfl
  · rintro ⟨⟨h1, h2⟩, hout⟩
    -- The step shows one value of the routing word and at most one answer.
    have hsaw : SeenRegistered tr → ∀ e ∈ Threads.events (program T) c x,
        e.2 ≠ .saw .Unregistered := by
      rintro hs ⟨u, e⟩ he rfl
      obtain ⟨hst, ho⟩ := saw_step he
      exact hout hs ho ((stable_eq_unregistered_iff (h.routing hs)).mp hst.symm)
    have hhas : ∀ b u, (u, Event.returned .has_registered_target_process (.flag b))
        ∈ Threads.events (program T) c x → (c.mem.target_pid = 0 ∧ b = false)
          ∨ ((c.loc x.1).observes = true ∧ b = (c.mem.routing.stable != .Unregistered)
            ∧ c.mem.target_pid ≠ 0) := by
      intro b u he
      obtain ⟨rfl, ⟨-, act, ha⟩ | ⟨pc, hpc, hev⟩⟩ := returned_step he
      · cases ha
      · have hc := h.inv.pc_of_call hpc
        rcases has_answer hc hev with hz | ⟨rfl, hb⟩
        · exact Or.inl hz
        · exact Or.inr ⟨by rw [hpc]; rfl, hb, h.loaded x.1 _ hpc⟩
    -- Both orders: within the events of the step, then from the old trace to the step.
    refine ⟨⟨h1, List.pairwise_of_forall_mem_list ?_, ?_⟩,
      ⟨h2, List.pairwise_of_forall_mem_list ?_, ?_⟩⟩
    · rintro ⟨u, e⟩ he ⟨u', e'⟩ he' hreg rfl
      obtain ⟨r, rfl, hr⟩ := Event.registered_iff.mp hreg
      exact hr ((saw_step he).1.trans (saw_step he').1.symm)
    · intro e he e' he' hr
      exact hsaw ⟨e, he, hr⟩ e' he'
    · rintro ⟨u, e⟩ he ⟨u', e'⟩ he' rfl rfl
      rcases hhas _ _ he with ⟨-, hb⟩ | ⟨-, hb, hz⟩
      · cases hb
      · rcases hhas _ _ he' with ⟨hz', -⟩ | ⟨-, hb', -⟩
        · exact hz hz'
        · cases hb.trans hb'.symm
    · rintro ⟨u, e⟩ he ⟨u', e'⟩ he' rfl rfl
      obtain ⟨hs, hz⟩ := h.target ⟨_, he, rfl⟩
      rcases hhas _ _ he' with ⟨hz', -⟩ | ⟨ho, hb, -⟩
      · exact hz hz'
      · have hst : c.mem.routing.stable = .Unregistered := by simpa using hb.symm
        exact hout hs ho ((stable_eq_unregistered_iff (h.routing hs)).mp hst)

/-- **Registration is never seen to regress, except across a promotion.** In a run whose
REGISTER_TARGET_PID leaves carry nonzero pids, what the readers see of the registration is
monotone if and only if no `State::routing()` that follows a registered one loads the
routing word while it is PromotingDualDispatch. -/
theorem registration_kept_iff (s : List (T × Choice)) (hs : ∀ x ∈ s, NonzeroPid x) :
    RegistrationKept (Threads.trace (program T) (start T) s) ↔
      Threads.AllSteps (program T) OutsidePromotion (start T) s := by
  -- On the schedule from the right: each step keeps the order exactly when it is outside.
  induction s using List.reverseRecOn with
  | nil => simp [RegistrationKept, Threads.trace, Threads.AllSteps, Threads.AllStepsFrom]
  | append_singleton s x ih =>
    have hpre : ∀ y ∈ s, NonzeroPid y := fun y hy => hs y (by simp [hy])
    rw [Threads.trace_concat, Threads.allSteps_concat, (seen_run hpre).kept_step x, ih hpre]

/-- A handler and a pid are registered, and two observers look. -/
def registered_run : List (ℕ × Choice) :=
  steps false 0 8 (.handle_cpuid REGISTER_RESUME_HANDLER 0x1000 0)
    ++ steps false 0 5 (.handle_cpuid REGISTER_TARGET_PID 0 0x150)
    ++ steps false 1 2 .routing ++ steps false 1 3 .has_registered_target_process

/-- Then thread 2 starts a promotion, and thread 1 looks again before it is finished. -/
def promotion_run : List (ℕ × Choice) :=
  registered_run
    ++ steps false 2 3 (.handle_cpuid REGISTER_SYSTEM_SYSCALL_ID 0xffe 0)
    ++ steps false 1 2 .routing ++ steps false 1 3 .has_registered_target_process

theorem registered_run_kept :
    (∀ x ∈ registered_run, NonzeroPid x)
      ∧ RegistrationKept (Threads.trace (program ℕ) (start ℕ) registered_run) :=
  ⟨by decide, (registration_kept_iff registered_run (by decide)).mpr (by decide)⟩

/-- Thread 1 sees the registered process unregistered. -/
theorem promotion_run_regresses :
    (∀ x ∈ promotion_run, NonzeroPid x)
      ∧ (1, Event.returned .has_registered_target_process (.flag true))
          ∈ Threads.trace (program ℕ) (start ℕ) promotion_run
      ∧ ¬RegistrationKept (Threads.trace (program ℕ) (start ℕ) promotion_run) := by
  decide

/-! ## `route_syscall` against the registrations -/

/-- A dual-dispatch leaf returns, its registration stored. -/
def Event.handles_dual : Event → Bool
  | .returned call (.action .Consumed) => call.is_dual
  | _ => false

/-- A dual-dispatch leaf has been handled. -/
def DualHandled (tr : List (T × Event)) : Prop := ∃ e ∈ tr, e.2.handles_dual = true

instance (tr : List (T × Event)) : Decidable (DualHandled tr) :=
  inferInstanceAs (Decidable (∃ e ∈ tr, _))

/-- Every route returned in the trace leaves RAX alone, and one returned before a dual leaf
has been handled is for a selector with a user RCX. -/
def RoutesWhole (tr : List (T × Event)) : Prop :=
  ∀ pre u n r10 rcx r,
    pre ++ [(u, Event.returned (.route_syscall n r10 rcx) (.route (some r)))] <+: tr →
      r.rax_is_resume = false
        ∧ (¬DualHandled pre → (n = 0x13371337 ∨ n = 0x13371338) ∧ rcx ≤ 0x7fffffffffff)

/-- The thread is about to load the convention in `route_syscall`. -/
def Thread.loads_convention : Thread → Bool
  | .running _ .route_convention => true
  | _ => false

/-- The step does not load the convention for a `route_syscall` while a first registration
holds the routing word and has not stored its convention. -/
def OutsideRegistration (_ : List (T × Event)) (c : Config T State Thread) (x : T × Choice) :
    Prop :=
  (c.loc x.1).loads_convention = true →
    ¬(c.mem.routing = .RegisteringResumeTarget ∧ c.mem.syscall_convention = .ResumeReplay)

/-- The thread is about to load the system id in `route_syscall`, for a syscall whose low
half is the id that nobody has registered, with the arguments of a system call. -/
def Thread.loads_system_id : Thread → Bool
  | .running call .route_system_id =>
    call.number.toUInt32 = U32_MAX ∧ call.r10 = 0 ∧ call.rcx ≤ USER_RCX_MAX
  | _ => false

/-- The step does not compare such a syscall before a dual leaf has been handled. -/
def OutsideActivation (tr : List (T × Event)) (c : Config T State Thread) (x : T × Choice) :
    Prop :=
  (c.loc x.1).loads_system_id = true → DualHandled tr

/-- The step reads no word before the words that go with it. -/
def OutsideWindows (tr : List (T × Event)) (c : Config T State Thread) (x : T × Choice) : Prop :=
  OutsideRegistration tr c x ∧ OutsideActivation tr c x

instance (tr : List (T × Event)) (c : Config T State Thread) (x : T × Choice) :
    Decidable (OutsideRegistration tr c x) :=
  inferInstanceAs (Decidable (_ → _))

instance (tr : List (T × Event)) (c : Config T State Thread) (x : T × Choice) :
    Decidable (OutsideActivation tr c x) :=
  inferInstanceAs (Decidable (_ → _))

instance (tr : List (T × Event)) (c : Config T State Thread) (x : T × Choice) :
    Decidable (OutsideWindows tr c x) :=
  inferInstanceAs (Decidable (_ ∧ _))

/-- The routing word is past the filter of `route_syscall`, now and from now on. -/
def RoutingState.unfiltered (r : RoutingState) : Bool :=
  r.registered || r = .RegisteringResumeTarget

theorem Forward.unfiltered {r r' : RoutingState} (h : Forward r r') (hr : r.unfiltered = true) :
    r'.unfiltered = true := by
  cases h <;> first | exact hr | rfl

/-- What a `route_syscall` under way has learnt. -/
def Pc.Reading (tr : List (T × Event)) (s : State) (call : Call) : Pc → Prop
  | .route_convention => s.routing.unfiltered = true
  | .route_resume b =>
    b = false ∧ (call.number = 0x13371337 ∨ call.number = 0x13371338)
      ∧ call.rcx ≤ 0x7fffffffffff
  | .route_system_target | .route_attributes_target => DualHandled tr
  | .route_attributes_id => DualHandled tr ∨ call.number.toUInt32 ≠ U32_MAX
  | _ => True

/-- The invariant under a legacy presentation. -/
structure Whole (tr : List (T × Event)) (c : Config T State Thread) : Prop where
  inv : Inv c
  convention : c.mem.routing.registered = true → c.mem.syscall_convention ≠ .ResumeReplay
  publish : ∀ t call, c.loc t = .running call .rrt_publish →
    c.mem.syscall_convention = .SelectorDispatch
  ids : DualHandled tr
    ∨ c.mem.dispatch.system_id = U32_MAX ∧ c.mem.dispatch.attributes_id = U32_MAX
  reading : ∀ t call pc, c.loc t = .running call pc → pc.Reading tr c.mem call

omit [DecidableEq T] in
theorem DualHandled.append {tr : List (T × Event)} (h : DualHandled tr)
    (tr' : List (T × Event)) : DualHandled (tr ++ tr') := by
  obtain ⟨e, hm, hd⟩ := h
  exact ⟨e, List.mem_append_left _ hm, hd⟩

/-- The convention moves away from ResumeReplay before the word is published. -/
theorem convention_apply {s : State} {call : Call} {pc : Pc} {w : Write} {th : Thread}
    (hw : Writes s call pc w th) (hp : pc.Ok s)
    (hc : s.routing.registered = true → s.syscall_convention ≠ .ResumeReplay)
    (hpub : pc = .rrt_publish → s.syscall_convention = .SelectorDispatch)
    (hr : (w.apply s).routing.registered = true) :
    (w.apply s).syscall_convention ≠ .ResumeReplay := by
  cases hw with
  | rrt_cas h | add_cas_unregistered h => cases hr
  | add_cas_resume h => exact hc (by rw [h]; rfl)
  | rrt_publish => simp [Write.apply, hpub rfl]
  | add_publish => simp [Write.apply, hp.2]
  | rrt_selector | add_convention => simp [Write.apply]
  | dual_store h =>
    subst h
    obtain ⟨h1, h2, -⟩ := dual_write_frame call.leaf call.argument s
    rw [h2]
    rw [h1] at hr
    exact hc hr
  | _ => exact hc hr

/-- Only a dual leaf stores an id. -/
theorem ids_apply {s : State} {call : Call} {pc : Pc} {w : Write} {th : Thread}
    (hw : Writes s call pc w th) (hpc : pc ≠ .dual_store) :
    (w.apply s).dispatch.system_id = s.dispatch.system_id
      ∧ (w.apply s).dispatch.attributes_id = s.dispatch.attributes_id := by
  cases hw with
  | dual_store h => exact absurd rfl hpc
  | _ => exact ⟨rfl, rfl⟩

/-- The one way to `rrt_publish` without a convention is a modern presentation. -/
theorem publish_access {x : Choice} {s : State} {call call' : Call} {pc : Pc}
    (hx : x.host.legacy_presentation_active = true)
    (h : (access x s call pc).loc = .running call' .rrt_publish) :
    (access x s call pc).mem.syscall_convention = .SelectorDispatch := by
  cases pc <;> simp only [access, observe, wait_step, cas_routing] at h ⊢
  all_goals repeat' split at h
  all_goals simp_all [go, put, ret, put_ret, Write.apply]

omit [DecidableEq T] in
/-- What an access of `route_syscall` learns. -/
theorem reading_access {tr tr' : List (T × Event)} {x : Choice} {s : State} {call call' : Call}
    {pc pc' : Pc} (hr : pc.Reading tr s call)
    (hc : s.routing.registered = true → s.syscall_convention ≠ .ResumeReplay)
    (hids : DualHandled tr
      ∨ s.dispatch.system_id = U32_MAX ∧ s.dispatch.attributes_id = U32_MAX)
    (hout : pc = .route_convention →
      ¬(s.routing = .RegisteringResumeTarget ∧ s.syscall_convention = .ResumeReplay))
    (hpromotion : pc = .route_system_id → call.number.toUInt32 = U32_MAX → call.r10 = 0 →
      call.rcx ≤ USER_RCX_MAX → DualHandled tr)
    (h : (access x s call pc).loc = .running call' pc') :
    pc'.Reading (tr ++ tr') (access x s call pc).mem call' := by
  cases pc with
  | route_routing =>
    -- What gets past the filter is a registered word or RegisteringResumeTarget.
    simp only [access] at h ⊢
    split at h
    · cases h
    · rename_i hn
      cases h
      rw [if_neg hn]
      simp only [go, Pc.Reading]
      cases hs : s.routing <;> simp_all [RoutingState.unfiltered, RoutingState.registered]
  | route_convention =>
    have hout := hout rfl
    simp only [Pc.Reading] at hr
    simp only [access] at h ⊢
    cases hcv : s.syscall_convention with
    | ResumeReplay =>
      -- The half-done registration, which `hout` excludes.
      simp_all [RoutingState.unfiltered]
    | SelectorDispatch =>
      rw [hcv] at h
      simp only at h
      split at h
      · cases h
      · rename_i hn
        cases h
        simp only [SINGLE_DISPATCH_SELECTORS, USER_RCX_MAX] at hn
        simp only [Pc.Reading]
        grind
    | DualDispatch =>
      rw [hcv] at h
      simp only at h
      split at h
      · cases h
      · cases h
        trivial
  | route_system_id =>
    simp only [access] at h
    split at h
    · rename_i hid
      split at h
      · cases h
      · rename_i hargs
        cases h
        rw [not_or, not_not] at hargs
        refine DualHandled.append ?_ tr'
        rcases hids with hhandled | ⟨hsystem, -⟩
        · exact hhandled
        · exact hpromotion rfl (hid.trans hsystem) hargs.1 (UInt64.not_lt.mp hargs.2)
    · rename_i hid
      cases h
      rcases hids with hhandled | ⟨hsystem, -⟩
      · exact Or.inl (hhandled.append tr')
      · rw [hsystem] at hid
        exact Or.inr hid
  | route_attributes_id =>
    simp only [access] at h
    split at h
    · rename_i hid
      cases h
      refine DualHandled.append ?_ tr'
      rcases hids with hhandled | ⟨-, hattributes⟩
      · exact hhandled
      · exact hr.resolve_right (not_not.mpr (hid.1.trans hattributes))
    · cases h
  | _ =>
    simp only [access, observe, wait_step, cas_routing] at h
    repeat' split at h
    all_goals cases h
    all_goals trivial

/-- The routes of `route_syscall`, and where they come from. -/
theorem route_answer {x : Choice} {s : State} {call : Call} {pc : Pc} {r : SyscallRoute}
    (h : .returned call (.route (some r)) ∈ (access x s call pc).events) :
    pc = .route_resume r.rax_is_resume
      ∨ (pc = .route_system_target ∨ pc = .route_attributes_target) ∧ r.rax_is_resume = false := by
  have hto : ∀ {v b}, some r = State.route_to v b → r.rax_is_resume = b := by
    intro v b hv
    unfold State.route_to at hv
    split at hv
    · rw [Option.some.inj hv]
    · cases hv
  cases pc with
  | route_resume b =>
    simp only [access, ret, List.mem_singleton, Event.returned.injEq, Answer.route.injEq] at h
    exact Or.inl (by rw [hto h.2])
  | route_system_target | route_attributes_target =>
    simp only [access, ret, List.mem_singleton, Event.returned.injEq, Answer.route.injEq] at h
    exact Or.inr ⟨by simp, hto h.2⟩
  | _ =>
    simp only [access, observe, wait_step, cas_routing] at h
    repeat' split at h
    all_goals simp [go, put, ret, put_ret] at h

section Step

variable {tr : List (T × Event)} {c : Config T State Thread}

theorem Whole.convention_step (h : Whole tr c) (x : T × Choice) :
    (Threads.step (program T) c x).mem.routing.registered = true →
      (Threads.step (program T) c x).mem.syscall_convention ≠ .ResumeReplay := by
  rw [Threads.step_mem]
  simp only [program]
  rcases thread_step_effect x.2 c.mem (c.loc x.1) with ⟨hm, -⟩ | ⟨call, pc, w, hth, hw, hm, -⟩
  · rw [hm]
    exact h.convention
  · rw [hm]
    have hok := h.inv.pc_ok hth
    refine convention_apply hw hok h.convention fun hp => ?_
    subst hp
    exact h.publish x.1 call hth

theorem Whole.publish_step (h : Whole tr c) {x : T × Choice}
    (hx : x.2.host.legacy_presentation_active = true) {t : T} {call : Call}
    (ht : (Threads.step (program T) c x).loc t = .running call .rrt_publish) :
    (Threads.step (program T) c x).mem.syscall_convention = .SelectorDispatch := by
  by_cases htx : t = x.1
  · subst htx
    rw [Threads.step_loc_self] at ht
    rw [Threads.step_mem]
    simp only [program] at ht ⊢
    cases hl : c.loc x.1 with
    | idle =>
      rw [hl] at ht
      simp only [thread_step, enter] at ht
      repeat' split at ht
      all_goals simp at ht
    | running call' pc' =>
      rw [hl] at ht
      exact publish_access hx ht
  · -- Its thread owns the routing word, and nobody else touches the convention meanwhile.
    rw [Threads.step_loc_of_ne _ c x htx] at ht
    rw [((h.inv.rely x htx).kept (by rw [ht]; rfl)).2.1]
    exact h.publish t call ht

/-- The step that stores the first id is the one that handles its leaf. -/
theorem Whole.ids_step (h : Whole tr c) (x : T × Choice) :
    DualHandled (tr ++ Threads.events (program T) c x)
      ∨ (Threads.step (program T) c x).mem.dispatch.system_id = U32_MAX
        ∧ (Threads.step (program T) c x).mem.dispatch.attributes_id = U32_MAX := by
  rcases h.ids with hhandled | hids
  · exact Or.inl (hhandled.append _)
  · rw [Threads.step_mem]
    simp only [program]
    rcases thread_step_effect x.2 c.mem (c.loc x.1) with ⟨hm, -⟩ | ⟨call, pc, w, hth, hw, hm, -⟩
    · rw [hm]
      exact Or.inr hids
    · by_cases hpc : pc = .dual_store
      · subst hpc
        have hdual : call.is_dual = true := h.inv.pc_of_call hth
        refine Or.inl ⟨(x.1, .returned call (.action .Consumed)), ?_, hdual⟩
        refine List.mem_append_right _ (List.mem_map_of_mem ?_)
        rw [program, hth]
        exact List.mem_cons_of_mem _ List.mem_cons_self
      · obtain ⟨hsystem, hattributes⟩ := ids_apply hw hpc
        rw [hm, hsystem, hattributes]
        exact Or.inr hids

theorem Whole.reading_step (h : Whole tr c) {x : T × Choice} (hout : OutsideWindows tr c x)
    {t : T} {call : Call} {pc : Pc}
    (ht : (Threads.step (program T) c x).loc t = .running call pc) :
    pc.Reading (tr ++ Threads.events (program T) c x) (Threads.step (program T) c x).mem call := by
  by_cases htx : t = x.1
  · subst htx
    rw [Threads.step_loc_self] at ht
    rw [Threads.step_mem]
    simp only [program] at ht ⊢
    cases hl : c.loc x.1 with
    | idle =>
      rw [hl] at ht
      simp only [thread_step, enter] at ht
      repeat' split at ht
      all_goals cases ht
      all_goals trivial
    | running call' pc' =>
      rw [hl] at ht
      refine reading_access (h.reading x.1 call' pc' hl) h.convention h.ids ?_ ?_ ht
      · rintro rfl
        exact hout.1 (by rw [hl]; rfl)
      · rintro rfl hnumber hr10 hrcx
        refine hout.2 ?_
        rw [hl]
        exact decide_eq_true ⟨hnumber, hr10, hrcx⟩
  · -- What a reader has learnt stays true: the word only moves forward, the trace only grows.
    rw [Threads.step_loc_of_ne _ c x htx] at ht
    have hr := h.reading t call pc ht
    cases pc with
    | route_convention => exact (h.inv.forward x).unfiltered hr
    | route_system_target | route_attributes_target => exact DualHandled.append hr _
    | route_attributes_id => exact hr.imp_left fun hhandled => hhandled.append _
    | _ => exact hr

theorem Whole.step (h : Whole tr c) {x : T × Choice} (hout : OutsideWindows tr c x)
    (hx : x.2.host.legacy_presentation_active = true) :
    Whole (tr ++ Threads.events (program T) c x) (Threads.step (program T) c x) where
  inv := h.inv.step x
  convention := h.convention_step x
  publish _ _ ht := h.publish_step hx ht
  ids := h.ids_step x
  reading _ _ _ ht := h.reading_step hout ht

omit [DecidableEq T] in
theorem Whole.routes_step (h : Whole tr c) (x : T × Choice) (hr : RoutesWhole tr) :
    RoutesWhole (tr ++ Threads.events (program T) c x) := by
  intro pre u n r10 rcx r hp
  rcases Threads.prefix_concat_append hp with hp | ⟨he, l, rfl⟩
  · exact hr pre u n r10 rcx r hp
  · obtain ⟨rfl, ⟨-, act, ha⟩ | ⟨pc, hpc, hev⟩⟩ := returned_step he
    · cases ha
    · have hread := h.reading x.1 _ pc hpc
      rcases route_answer hev with rfl | ⟨rfl | rfl, hrax⟩
      · exact ⟨hread.1, fun _ => hread.2⟩
      · exact ⟨hrax, fun hn => absurd (DualHandled.append hread l) hn⟩
      · exact ⟨hrax, fun hn => absurd (DualHandled.append hread l) hn⟩

end Step

/-- **No caller sees a registration half done.** Under a legacy presentation, in every run
in which no `route_syscall` loads the convention between a first registration's
compare-exchange and its store of the convention, and none takes the unregistered id for a
registered one before a dual leaf has been handled, no route asks for RAX to resume, and
before a dual leaf has been handled only the two selectors with a user RCX are routed. -/
theorem routes_whole (s : List (T × Choice))
    (hleg : ∀ x ∈ s, x.2.host.legacy_presentation_active = true)
    (hout : Threads.AllSteps (program T) OutsideWindows (start T) s) :
    RoutesWhole (Threads.trace (program T) (start T) s) := by
  refine (Threads.run_induct_of (program T) (Q := fun x => _)
    (I := fun tr d => Whole tr d ∧ RoutesWhole tr)
    ⟨⟨inv_start, nofun, nofun, Or.inr ⟨rfl, rfl⟩, nofun⟩, ?_⟩
    (fun tr d x hc hx h => ⟨h.1.step hc hx, h.1.routes_step x h.2⟩) hout hleg).2
  intro pre u n r10 rcx r hp
  simp at hp

/-- A selector is routed after the registration is published. -/
def published_run : List (ℕ × Choice) :=
  steps true 0 9 (.handle_cpuid REGISTER_RESUME_HANDLER 0x1000 0)
    ++ steps true 1 4 (.route_syscall 0x13371337 0 0)

/-- Thread 1 routes a syscall after thread 0 has stored its handler and before it has
stored the convention. -/
def half_registered_run : List (ℕ × Choice) :=
  steps true 0 6 (.handle_cpuid REGISTER_RESUME_HANDLER 0x1000 0)
    ++ steps true 1 4 (.route_syscall 0x55 0 0)

theorem published_run_whole :
    (1, Event.returned (.route_syscall 0x13371337 0 0) (.route (some ⟨0x1000, false⟩)))
        ∈ Threads.trace (program ℕ) (start ℕ) published_run
      ∧ RoutesWhole (Threads.trace (program ℕ) (start ℕ) published_run) :=
  ⟨by decide, routes_whole published_run (by decide) (by decide)⟩

/-- Syscall 0x55 is routed, with RAX to resume, although the presentation is legacy. -/
theorem half_registered_run_routes :
    (∀ x ∈ half_registered_run, x.2.host.legacy_presentation_active = true)
      ∧ ¬RoutesWhole (Threads.trace (program ℕ) (start ℕ) half_registered_run) := by
  refine ⟨by decide, fun h => ?_⟩
  have hroute := h (Threads.trace (program ℕ) (start ℕ) half_registered_run).dropLast 1 0x55 0 0
    ⟨0x1000, true⟩ (by decide)
  exact absurd hroute.1 (by decide)

/-- Thread 1 routes a syscall after thread 0 has stored the dual convention and before it has
stored an id. -/
def half_promoted_run : List (ℕ × Choice) :=
  steps true 0 9 (.handle_cpuid REGISTER_RESUME_HANDLER 0x1000 0)
    ++ steps true 0 7 (.handle_cpuid REGISTER_SYSTEM_SYSCALL_ID 0x55 0)
    ++ steps true 1 5 (.route_syscall 0xffffffff 0 0)

/-- Syscall 0xffffffff is routed although no dual leaf has been handled. -/
theorem half_promoted_run_routes :
    Threads.AllSteps (program ℕ) OutsideRegistration (start ℕ) half_promoted_run
      ∧ ¬RoutesWhole (Threads.trace (program ℕ) (start ℕ) half_promoted_run) := by
  refine ⟨by decide, fun h => ?_⟩
  have hroute := h (Threads.trace (program ℕ) (start ℕ) half_promoted_run).dropLast 1 0xffffffff
    0 0 ⟨0x1000, false⟩ (by decide)
  exact absurd (hroute.2 (by decide)).1 (by decide)

end Linuwux.Reflex
