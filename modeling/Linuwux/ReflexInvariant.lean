/-
`ReflexInvariant.lean` -- what holds of `State` in every interleaving.

Six independent atomics are written by two transitions that a compare-exchange on the
routing word guards, and by plain stores after them. The invariant has three parts:
the routing word bounds what the other words can hold ([`MemOk`]), a call inside
`State` has learnt something from the routing word it loaded and relies on it later
([`Pc.Ok`]), and a transient value of the routing word has exactly one owner.

Each part is shown for one step from the list of writes in `ReflexThreads.lean`, and
what the *other* threads rely on is a relation between the words before and after a
step ([`Rely`]), so no proof here looks at two program points at once.
-/
import Linuwux.ReflexThreads

set_option autoImplicit false

namespace Linuwux.Reflex

open Threads (Outcome Program Config)

/-! ## The invariant -/

/-- The routing word is past a completed registration. -/
def RoutingState.registered : RoutingState → Bool
  | .ResumeTarget | .PromotingDualDispatch | .DualDispatch => true
  | .Unregistered | .RegisteringResumeTarget | .RegisteringDualDispatch => false

/-- The call has taken the routing word to RegisteringResumeTarget. -/
def Pc.registering : Pc → Bool
  | .rrt_target | .rrt_legacy | .rrt_selector | .rrt_publish => true
  | _ => false

/-- The call has taken the routing word to RegisteringDualDispatch or
PromotingDualDispatch. -/
def Pc.activating : Pc → Bool
  | .add_target | .add_system _ | .add_copy _ | .add_convention | .add_publish => true
  | _ => false

/-- The call owns the transient value the routing word holds. -/
def Thread.owner : Thread → Bool
  | .idle => false
  | .running _ pc => pc.registering || pc.activating

/-- What the routing word says about the other words. -/
def MemOk (s : State) : Prop :=
  match s.routing with
  | .Unregistered =>
    s.syscall_convention = .ResumeReplay ∧ s.resume_target = 0 ∧ s.target_pid = 0
      ∧ s.dispatch = .new
  | .RegisteringResumeTarget =>
    s.syscall_convention ≠ .DualDispatch ∧ s.target_pid = 0 ∧ s.dispatch = .new
  | .ResumeTarget => s.syscall_convention ≠ .DualDispatch ∧ s.dispatch = .new
  | .RegisteringDualDispatch =>
    s.syscall_convention ≠ .SelectorDispatch ∧ s.resume_target = 0 ∧ s.target_pid = 0
      ∧ s.dispatch = .new
  | .PromotingDualDispatch =>
    s.dispatch.system_id = U32_MAX ∧ s.dispatch.attributes_target = 0
      ∧ s.dispatch.attributes_id = U32_MAX
  | .DualDispatch => s.syscall_convention = .DualDispatch

/-- The routing word a call in the second half of `activate_dual_dispatch` has set. -/
def Activating (s : State) : Prop :=
  s.routing = .RegisteringDualDispatch ∨ s.routing = .PromotingDualDispatch

/-- What a call inside `State` may assume at its program point. -/
def Pc.Ok (s : State) : Pc → Prop
  | .rrt_system | .dual_store => s.routing = .DualDispatch
  | .rrt_recipe | .rrt_patch _ | .rrt_resume | .pid_store | .pid_recipe | .pid_patch _ =>
    s.routing.registered = true
  | .rrt_target | .rrt_legacy | .rrt_selector =>
    s.routing = .RegisteringResumeTarget ∧ s.syscall_convention = .ResumeReplay
  | .rrt_publish => s.routing = .RegisteringResumeTarget
  | .add_target =>
    Activating s ∧ s.syscall_convention ≠ .DualDispatch ∧ s.dispatch.system_target = 0
  -- From an unregistered word there is no handler to inherit.
  | .add_system target | .add_copy target =>
    Activating s ∧ (s.routing = .RegisteringDualDispatch → target = 0)
      ∧ s.syscall_convention ≠ .DualDispatch ∧ s.dispatch.system_target = 0
  | .add_convention => Activating s ∧ s.syscall_convention ≠ .DualDispatch
  | .add_publish => Activating s ∧ s.syscall_convention = .DualDispatch
  | _ => True

def Thread.Ok (s : State) : Thread → Prop
  | .idle => True
  | .running _ pc => pc.Ok s

/-- The invariant of every reachable configuration. -/
structure Inv {T : Type} (c : Config T State Thread) : Prop where
  mem : MemOk c.mem
  loc : ∀ t, (c.loc t).Ok c.mem
  call : ∀ t, (c.loc t).OfCall
  unique : ∀ t u, (c.loc t).owner = true → (c.loc u).owner = true → t = u
  owned : c.mem.routing.transient = true → ∃ t, (c.loc t).owner = true

/-! ## One step -/

/-- A step is quiet, or it is one of the listed writes. -/
theorem thread_step_effect (x : Choice) (s : State) (th : Thread) :
    ((thread_step x s th).mem = s ∧ writes_of (thread_step x s th).events = [])
      ∨ ∃ call pc w, th = .running call pc ∧ Writes s call pc w (thread_step x s th).loc
          ∧ (thread_step x s th).mem = w.apply s
          ∧ writes_of (thread_step x s th).events = [w] := by
  cases th with
  | idle => exact Or.inl ⟨enter_mem s x.call, enter_writes s x.call⟩
  | running call pc =>
    cases access_effect x s call pc with
    | quiet hm he => exact Or.inl ⟨hm, he⟩
    | wrote w hw hm he => exact Or.inr ⟨call, pc, w, rfl, hw, hm, he⟩

/-- Every write keeps what holds of the words: one case per write, each with what its thread may
assume there. -/
theorem memOk_apply {s : State} {call : Call} {pc : Pc} {w : Write} {th : Thread}
    (hw : Writes s call pc w th) (hm : MemOk s) (hp : pc.Ok s) : MemOk (w.apply s) := by
  unfold MemOk at hm ⊢
  cases hw with
  | arm_identity | rrh_identity h => exact hm
  | rrt_system => simp_all [Pc.Ok, Write.apply]
  | rrt_resume =>
    -- The word may have moved on since it was loaded, but no further back than registered.
    simp only [Pc.Ok, Write.apply] at hp ⊢
    cases hr : s.routing <;> simp_all [RoutingState.registered]
  | rrt_cas h => simp_all [Write.apply]
  | rrt_target => simp_all [Pc.Ok, Write.apply]
  | rrt_selector => simp_all [Pc.Ok, Write.apply]
  | rrt_publish => simp_all [Pc.Ok, Write.apply]
  | add_cas_unregistered h => simp_all [Write.apply]
  | add_cas_resume h => simp_all [Write.apply, DispatchRegistrations.new]
  | add_copy target =>
    obtain ⟨hr | hr, ht, -, -⟩ := hp
    · simp_all [Write.apply, DispatchRegistrations.new]
    · simp_all [Write.apply]
  | add_convention =>
    obtain ⟨hr | hr, -⟩ := hp <;> simp_all [Write.apply]
  | add_publish => exact hp.2
  | dual_store h =>
    subst h
    obtain ⟨hr, hc, -⟩ := dual_write_frame call.leaf call.argument s
    simp only [Pc.Ok] at hp
    simp_all
  | pid_store =>
    simp only [Pc.Ok, Write.apply] at hp ⊢
    cases hr : s.routing <;> simp_all [RoutingState.registered]

/-- Every access leads to a program point whose assumption holds. -/
theorem access_loc_ok (x : Choice) {s : State} {call : Call} {pc : Pc} (hm : MemOk s)
    (hp : pc.Ok s) : (access x s call pc).loc.Ok (access x s call pc).mem := by
  cases pc with
  | rrt_load =>
    simp only [access]
    split <;> simp_all [go, Thread.Ok, Pc.Ok, RoutingState.registered]
  | add_load =>
    simp only [access]
    split <;> simp_all [go, Thread.Ok, Pc.Ok]
  | rrt_cas =>
    simp only [access, cas_routing]
    split
    · unfold MemOk at hm
      simp_all [put, Write.apply, Thread.Ok, Pc.Ok]
    · trivial
  | add_cas_unregistered =>
    simp only [access, cas_routing]
    split
    · unfold MemOk at hm
      simp_all [put, Write.apply, Thread.Ok, Pc.Ok, Activating, DispatchRegistrations.new]
    · trivial
  | add_cas_resume =>
    simp only [access, cas_routing]
    split
    · unfold MemOk at hm
      simp_all [put, Write.apply, Thread.Ok, Pc.Ok, Activating, DispatchRegistrations.new]
    · trivial
  | add_target =>
    -- From an unregistered state there is no handler to hand over: the copy is a zero.
    obtain ⟨ha, hc, hs⟩ := hp
    refine ⟨ha, fun (hr : s.routing = _) => ?_, hc, hs⟩
    unfold MemOk at hm
    rw [hr] at hm
    exact hm.2.1
  | pid_routing =>
    simp only [access, observe]
    split
    · trivial
    · cases hr : s.routing <;> simp_all [go, Thread.Ok, Pc.Ok, RoutingState.stable,
        RoutingState.registered]
  | _ =>
    simp only [access, observe, wait_step]
    repeat' split
    all_goals simp_all [go, put, ret, put_ret, Write.apply, Thread.Ok, Pc.Ok, Activating]

/-- A call that begins assumes nothing. -/
theorem enter_loc_ok (s : State) (call : Call) : (enter s call).loc.Ok (enter s call).mem := by
  unfold enter
  repeat' split
  all_goals trivial

/-- What one step of a thread does to the words, as another thread sees it. `held`
says that the other thread owns the transient routing word. -/
structure Rely (s s' : State) (held : Bool) : Prop where
  dual : s.routing = .DualDispatch → s'.routing = .DualDispatch
  registered : s.routing.registered = true → s'.routing.registered = true
  kept : held = true → s'.routing = s.routing ∧ s'.syscall_convention = s.syscall_convention
    ∧ s'.dispatch.system_target = s.dispatch.system_target

/-- A step that writes nothing disturbs nobody. -/
theorem Rely.refl (s : State) (held : Bool) : Rely s s held :=
  ⟨id, id, fun _ => ⟨rfl, rfl, rfl⟩⟩

/-- What a thread may assume survives a step of another thread. -/
theorem Thread.Ok.rely {s s' : State} {th : Thread} (h : th.Ok s) (hr : Rely s s' th.owner) :
    th.Ok s' := by
  obtain ⟨hd, hg, hk⟩ := hr
  cases th with
  | idle => trivial
  | running call pc =>
    cases pc <;> simp_all [Thread.Ok, Pc.Ok, Thread.owner, Pc.registering, Pc.activating,
      Activating]

/-- An owner's routing word is transient. -/
theorem Thread.Ok.transient {s : State} {th : Thread} (h : th.Ok s) (ho : th.owner = true) :
    s.routing.transient = true := by
  cases th with
  | idle => cases ho
  | running call pc =>
    cases pc <;> simp only [Thread.owner, Pc.registering, Pc.activating, Bool.or_false,
      Bool.false_eq_true] at ho
    case rrt_publish => rw [h]; rfl
    case rrt_target | rrt_legacy | rrt_selector => rw [h.1]; rfl
    all_goals rcases h.1 with hr | hr <;> rw [hr] <;> rfl

/-- While somebody else owns the routing word, a write touches neither it nor the
convention nor the inherited handler. -/
theorem rely_apply {s : State} {call : Call} {pc : Pc} {w : Write} {th : Thread}
    (hw : Writes s call pc w th) (hp : pc.Ok s) {held : Bool}
    (hh : held = true → (Thread.running call pc).owner = false ∧ s.routing.transient = true) :
    Rely s (w.apply s) held := by
  -- Two reasons why nobody else can be the owner: the word is stable, or the writer is.
  have hfree : ∀ {r : RoutingState}, r.transient = false → s.routing = r → held = false := by
    intro r hr hs
    cases held with
    | false => rfl
    | true => rw [hs] at hh; rw [(hh rfl).2] at hr; cases hr
  have hown : (Thread.running call pc).owner = true → held = false := by
    intro ho
    cases held with
    | false => rfl
    | true => rw [(hh rfl).1] at ho; cases ho
  cases hw with
  | arm_identity | rrh_identity h | rrt_resume | pid_store =>
    exact ⟨id, id, fun _ => ⟨rfl, rfl, rfl⟩⟩
  | rrt_system => exact ⟨id, id, by simp [hfree rfl hp]⟩
  | dual_store h =>
    subst h
    obtain ⟨hr, hc, -, -, hs⟩ := dual_write_frame call.leaf call.argument s
    exact ⟨fun h => hr.trans h, fun h => by rw [hr]; exact h, fun _ => ⟨hr, hc, hs⟩⟩
  | rrt_cas h | add_cas_unregistered h =>
    exact ⟨by simp [h], by simp [h, RoutingState.registered], by simp [hfree rfl h]⟩
  | add_cas_resume h => exact ⟨by simp [h], fun _ => rfl, by simp [hfree rfl h]⟩
  | rrt_target | rrt_selector | add_copy target | add_convention =>
    exact ⟨id, id, by simp [hown rfl]⟩
  | rrt_publish =>
    simp only [Pc.Ok] at hp
    exact ⟨by simp [hp], fun _ => rfl, by simp [hown rfl]⟩
  | add_publish => exact ⟨fun _ => rfl, fun _ => rfl, by simp [hown rfl]⟩

/-- Ownership is taken by the compare-exchange that makes the word transient and
given up by the store that makes it stable again. -/
theorem access_owner (x : Choice) {s : State} {call : Call} {pc : Pc} (hp : pc.Ok s) :
    ((access x s call pc).loc.owner = true →
        (Thread.running call pc).owner = true ∨ s.routing.transient = false)
      ∧ ((access x s call pc).mem.routing.transient = true →
        (access x s call pc).loc.owner = true
          ∨ (Thread.running call pc).owner = false ∧ s.routing.transient = true) := by
  cases pc
  -- Only a compare-exchange makes an owner; a failed one changes nothing.
  case rrt_cas | add_cas_unregistered | add_cas_resume =>
    simp only [access, cas_routing]
    split
    · simp_all [put, Write.apply, Thread.owner, Pc.registering, Pc.activating,
        RoutingState.transient]
    · simp [go, Thread.owner, Pc.registering, Pc.activating]
  case dual_store =>
    obtain ⟨hr, -⟩ := dual_write_frame call.leaf call.argument s
    simp [access, put_ret, hr, Thread.owner, Pc.registering, Pc.activating]
  all_goals
    simp only [access, observe, wait_step]
    repeat' split
    all_goals simp [go, put, ret, put_ret, Write.apply, Thread.owner, Pc.registering,
      Pc.activating, RoutingState.transient]

/-- A call that begins owns nothing. -/
theorem enter_owner (s : State) (call : Call) : (enter s call).loc.owner = false := by
  unfold enter
  repeat' split
  all_goals rfl

/-- A step keeps what holds of the words and leaves its thread where it may be. -/
theorem thread_step_ok (x : Choice) {s : State} {th : Thread} (hm : MemOk s) (ht : th.Ok s) :
    MemOk (thread_step x s th).mem ∧ (thread_step x s th).loc.Ok (thread_step x s th).mem := by
  refine ⟨?_, ?_⟩
  · rcases thread_step_effect x s th with ⟨h, -⟩ | ⟨call, pc, w, rfl, hw, h, -⟩
    · rwa [h]
    · rw [h]
      exact memOk_apply hw hm ht
  · cases th with
    | idle => exact enter_loc_ok s x.call
    | running call pc => exact access_loc_ok x hm ht

/-- A thread stays within the code of its call. -/
theorem thread_step_of_call (x : Choice) (s : State) {th : Thread} (h : th.OfCall) :
    (thread_step x s th).loc.OfCall := by
  cases th with
  | idle => exact enter_of_call s x.call
  | running call pc =>
    rcases access_of_call x s h with hi | ⟨pc', hr, hc⟩
    · simp only [thread_step, hi]
      trivial
    · simp only [thread_step, hr]
      exact hc

/-- A step disturbs no other thread, least of all the owner of the routing word. -/
theorem thread_step_rely (x : Choice) {s : State} {th : Thread} (ht : th.Ok s) (held : Bool)
    (hh : held = true → th.owner = false ∧ s.routing.transient = true) :
    Rely s (thread_step x s th).mem held := by
  rcases thread_step_effect x s th with ⟨h, -⟩ | ⟨call, pc, w, rfl, hw, h, -⟩
  · rw [h]
    exact Rely.refl s held
  · rw [h]
    exact rely_apply hw ht hh

/-- An owner was one before, or found the word stable; and a transient word has an owner. -/
theorem thread_step_owner (x : Choice) {s : State} {th : Thread} (ht : th.Ok s) :
    ((thread_step x s th).loc.owner = true → th.owner = true ∨ s.routing.transient = false)
      ∧ ((thread_step x s th).mem.routing.transient = true →
        (thread_step x s th).loc.owner = true
          ∨ th.owner = false ∧ s.routing.transient = true) := by
  cases th with
  | idle =>
    simp only [thread_step, enter_owner, enter_mem]
    exact ⟨nofun, fun h => Or.inr ⟨rfl, h⟩⟩
  | running call pc => exact access_owner x ht

/-! ## Every run -/

section Runs

variable {T : Type}

/-- At the start nothing is registered and nobody is under way. -/
theorem inv_start : Inv (start T) where
  mem := ⟨rfl, rfl, rfl, rfl⟩
  loc _ := trivial
  call _ := trivial
  unique _ _ h := nomatch h
  owned h := nomatch h

/-- What the call under way in a thread may assume. -/
theorem Inv.pc_ok {c : Config T State Thread} (h : Inv c) {u : T} {call : Call} {pc : Pc}
    (hl : c.loc u = .running call pc) : pc.Ok c.mem := by
  have hok := h.loc u
  rwa [hl] at hok

/-- The program point of a thread belongs to its call. -/
theorem Inv.pc_of_call {c : Config T State Thread} (h : Inv c) {u : T} {call : Call} {pc : Pc}
    (hl : c.loc u = .running call pc) : pc.of_call call := by
  have hcall := h.call u
  rwa [hl] at hcall

variable [DecidableEq T]

/-- What any other thread relies on across a step. -/
theorem Inv.rely {c : Config T State Thread} (h : Inv c) (x : T × Choice) {u : T}
    (hu : u ≠ x.1) : Rely c.mem (Threads.step (program T) c x).mem (c.loc u).owner := by
  refine thread_step_rely x.2 (h.loc x.1) _ fun ho => ⟨?_, (h.loc u).transient ho⟩
  by_contra hx
  exact hu (h.unique u x.1 ho (by simpa using hx))

/-- The invariant survives every step: the thread itself by what its step leaves, the others by
what they may rely on, and at most one owner because the word was stable when it was taken. -/
theorem Inv.step {c : Config T State Thread} (h : Inv c) (x : T × Choice) :
    Inv (Threads.step (program T) c x) := by
  obtain ⟨hmem, hself⟩ := thread_step_ok x.2 h.mem (h.loc x.1)
  obtain ⟨htake, hkeep⟩ := thread_step_owner x.2 (h.loc x.1)
  have hother : ∀ {u}, u ≠ x.1 → (Threads.step (program T) c x).loc u = c.loc u :=
    fun hu => Threads.step_loc_of_ne _ c x hu
  have hnew : (Threads.step (program T) c x).loc x.1 = (thread_step x.2 c.mem (c.loc x.1)).loc :=
    Threads.step_loc_self _ c x
  -- A second owner would have found the word transient already.
  have hlone : ∀ {u}, u ≠ x.1 → (thread_step x.2 c.mem (c.loc x.1)).loc.owner = true →
      (c.loc u).owner = true → False := by
    intro u hu ho hou
    rcases htake ho with h1 | h1
    · exact hu (h.unique u x.1 hou h1)
    · rw [(h.loc u).transient hou] at h1
      cases h1
  refine ⟨hmem, fun u => ?_, fun u => ?_, fun t u ht hu => ?_, fun htr => ?_⟩
  · by_cases hu : u = x.1
    · subst hu
      rw [hnew]
      exact hself
    · rw [hother hu]
      exact (h.loc u).rely (h.rely x hu)
  · by_cases hu : u = x.1
    · subst hu
      rw [hnew]
      exact thread_step_of_call x.2 c.mem (h.call x.1)
    · rw [hother hu]
      exact h.call u
  · by_cases hxt : t = x.1 <;> by_cases hxu : u = x.1
    · exact hxt.trans hxu.symm
    · subst hxt
      rw [hother hxu] at hu
      rw [hnew] at ht
      exact (hlone hxu ht hu).elim
    · subst hxu
      rw [hother hxt] at ht
      rw [hnew] at hu
      exact (hlone hxt hu ht).elim
    · rw [hother hxt] at ht
      rw [hother hxu] at hu
      exact h.unique t u ht hu
  · rcases hkeep htr with ho | ⟨hno, hold⟩
    · exact ⟨x.1, hnew ▸ ho⟩
    · obtain ⟨u, hu⟩ := h.owned hold
      have hux : u ≠ x.1 := by
        rintro rfl
        rw [hno] at hu
        cases hu
      exact ⟨u, by rw [hother hux]; exact hu⟩

/-- **The invariant holds in every reachable configuration.** -/
theorem inv_run (s : List (T × Choice)) : Inv (Threads.run (program T) (start T) s) :=
  Threads.run_invariant _ inv_start (fun _ x h => h.step x) s

/-! ## The writes of a run -/

theorem mem_writes_of {w : Write} {es : List Event} : .wrote w ∈ es ↔ w ∈ writes_of es := by
  unfold writes_of
  rw [List.mem_filterMap]
  constructor
  · exact fun h => ⟨_, h, rfl⟩
  · rintro ⟨e, he, hw⟩
    cases e <;> simp_all

/-- A write in the trace is one of the listed ones, made at its program point. -/
theorem wrote_step {c : Config T State Thread} {x : T × Choice} {u : T} {w : Write}
    (h : (u, Event.wrote w) ∈ Threads.events (program T) c x) :
    ∃ call pc th, c.loc x.1 = .running call pc ∧ Writes c.mem call pc w th
      ∧ (Threads.step (program T) c x).loc x.1 = th
      ∧ (Threads.step (program T) c x).mem = w.apply c.mem := by
  obtain ⟨e, he, heq⟩ := List.mem_map.mp h
  obtain ⟨rfl, rfl⟩ := Prod.mk.inj heq
  have hw := mem_writes_of.mp he
  rw [Threads.step_loc_self]
  rcases thread_step_effect x.2 c.mem (c.loc x.1) with ⟨-, hq⟩ | ⟨call, pc, w', hth, hws, hm, hq⟩
  · have : writes_of ((program T) x.1 x.2 c.mem (c.loc x.1)).events = [] := hq
    rw [this] at hw
    cases hw
  · have : writes_of ((program T) x.1 x.2 c.mem (c.loc x.1)).events = [w'] := hq
    rw [this, List.mem_singleton] at hw
    subst hw
    exact ⟨call, pc, _, hth, hws, rfl, hm⟩

/-! ## The events of a step -/

/-- The thread is about to load the routing word for a `State::routing()`. -/
def Thread.observes : Thread → Bool
  | .running _ .arm_routing | .running _ .rrh_routing | .running _ .pid_routing
  | .running _ .routing_load | .running _ .has_routing | .running _ .unarmed_routing => true
  | _ => false

/-- What beginning a call shows: that it has begun, and the answer if that is all of it. -/
theorem enter_events {s : State} {call : Call} {e : Event} (h : e ∈ (enter s call).events) :
    e = .began call ∨ ∃ a, e = .returned call (.action a) := by
  unfold enter at h
  repeat' split at h
  all_goals simp at h
  all_goals grind

/-- An outcome that shows writes, and the answer of its call if the call ends. -/
def Quiet (call : Call) (o : Outcome State Thread Event) : Prop :=
  ∀ e ∈ o.events, (∃ w, e = .wrote w) ∨ ∃ a, e = .returned call a ∧ o.loc = .idle

/-- An access that only moves on shows nothing. -/
theorem quiet_go (s : State) (call : Call) (pc : Pc) : Quiet call (go s call pc) := by
  intro e he
  cases he

/-- A write shows the write. -/
theorem quiet_put (s : State) (w : Write) (call : Call) (pc : Pc) :
    Quiet call (put s w call pc) := by
  intro e he
  exact .inl ⟨w, List.mem_singleton.mp he⟩

/-- A return shows the answer. -/
theorem quiet_ret (s : State) (call : Call) (a : Answer) : Quiet call (ret s call a) := by
  intro e he
  exact .inr ⟨a, List.mem_singleton.mp he, rfl⟩

/-- A write with which the call returns shows both. -/
theorem quiet_put_ret (s : State) (w : Write) (call : Call) (a : Answer) :
    Quiet call (put_ret s w call a) := by
  intro e he
  rcases List.mem_cons.mp he with rfl | he
  · exact .inl ⟨w, rfl⟩
  · exact .inr ⟨a, List.mem_singleton.mp he, rfl⟩

/-- Only an observing access shows what it saw of the routing word. -/
theorem quiet_access (x : Choice) (s : State) (call : Call) (pc : Pc)
    (h : (Thread.running call pc).observes = false) : Quiet call (access x s call pc) := by
  cases pc
  all_goals simp only [access, wait_step, cas_routing]
  all_goals repeat' split
  all_goals first
    | exact quiet_go _ _ _
    | exact quiet_put _ _ _ _
    | exact quiet_ret _ _ _
    | exact quiet_put_ret _ _ _ _
    | cases h

/-- The other accesses load the routing word first, and go on with its stable value. -/
theorem observing_access (x : Choice) (s : State) (call : Call) (pc : Pc)
    (h : (Thread.running call pc).observes = true) :
    ∃ k, access x s call pc = observe s k ∧ Quiet call (k s.routing.stable) := by
  cases pc
  all_goals first
    | exact absurd h Bool.false_ne_true
    | simp only [access]
  all_goals refine ⟨_, rfl, ?_⟩
  all_goals repeat' split
  all_goals first
    | exact quiet_go _ _ _
    | exact quiet_put _ _ _ _
    | exact quiet_ret _ _ _

/-- What an access shows: a write, the stable value of the routing word it loaded for
a `State::routing()`, or the answer of its own call. -/
theorem access_events (x : Choice) (s : State) (call : Call) (pc : Pc) :
    ∀ e ∈ (access x s call pc).events, (∃ w, e = .wrote w)
      ∨ (e = .saw s.routing.stable ∧ (Thread.running call pc).observes = true)
      ∨ ∃ a, e = .returned call a ∧ (access x s call pc).loc = .idle := by
  intro e he
  cases hobs : (Thread.running call pc).observes with
  | false =>
    rcases quiet_access x s call pc hobs e he with hw | ha
    · exact .inl hw
    · exact .inr (.inr ha)
  | true =>
    obtain ⟨k, heq, hk⟩ := observing_access x s call pc hobs
    rw [heq] at he ⊢
    rcases List.mem_cons.mp he with rfl | he
    · exact .inr (.inl ⟨rfl, rfl⟩)
    · rcases hk e he with hw | ha
      · exact .inl hw
      · exact .inr (.inr ha)

omit [DecidableEq T] in
/-- What a thread sees of the routing word is what is in it. -/
theorem saw_step {c : Config T State Thread} {x : T × Choice} {u : T} {r : Routing}
    (h : (u, Event.saw r) ∈ Threads.events (program T) c x) :
    r = c.mem.routing.stable ∧ (c.loc x.1).observes = true := by
  obtain ⟨e, he, heq⟩ := List.mem_map.mp h
  obtain ⟨rfl, rfl⟩ := Prod.mk.inj heq
  simp only [program] at he
  cases hl : c.loc x.1 with
  | idle =>
    rw [hl] at he
    rcases enter_events he with h | ⟨a, h⟩ <;> cases h
  | running call pc =>
    rw [hl] at he
    rcases access_events x.2 c.mem call pc _ he with ⟨w, h⟩ | ⟨h, ho⟩ | ⟨a, h, -⟩
    · cases h
    · exact ⟨Event.saw.inj h, ho⟩
    · cases h

omit [DecidableEq T] in
/-- An answer in the trace comes from a leaf that needs no access, or from the last
access of its call. -/
theorem returned_step {c : Config T State Thread} {x : T × Choice} {u : T} {call : Call}
    {a : Answer} (h : (u, Event.returned call a) ∈ Threads.events (program T) c x) :
    u = x.1 ∧ ((c.loc x.1 = .idle ∧ ∃ act, a = .action act)
      ∨ ∃ pc, c.loc x.1 = .running call pc
          ∧ .returned call a ∈ (access x.2 c.mem call pc).events) := by
  obtain ⟨e, he, heq⟩ := List.mem_map.mp h
  obtain ⟨rfl, rfl⟩ := Prod.mk.inj heq
  simp only [program] at he
  refine ⟨rfl, ?_⟩
  cases hl : c.loc x.1 with
  | idle =>
    rw [hl] at he
    rcases enter_events he with h | ⟨act, h⟩
    · cases h
    · exact Or.inl ⟨rfl, act, (Event.returned.inj h).2⟩
  | running call' pc =>
    rw [hl] at he
    rcases access_events x.2 c.mem call' pc _ he with ⟨w, h⟩ | ⟨h, -⟩ | ⟨a', h, -⟩
    · cases h
    · cases h
    · obtain ⟨rfl, -⟩ := Event.returned.inj h
      exact Or.inr ⟨pc, rfl, he⟩

/-- A thread that goes on was already inside the call, or has just begun it. -/
theorem running_step {c : Config T State Thread} {x : T × Choice} (hc : (c.loc x.1).OfCall)
    {call : Call} {pc : Pc}
    (h : (Threads.step (program T) c x).loc x.1 = .running call pc) :
    (c.loc x.1 = .idle ∧ call = x.2.call) ∨ ∃ pc', c.loc x.1 = .running call pc' := by
  rw [Threads.step_loc_self] at h
  simp only [program] at h
  cases hl : c.loc x.1 with
  | idle =>
    rw [hl] at h
    simp only [thread_step, enter] at h
    repeat' split at h
    all_goals simp_all
  | running call' pc' =>
    rw [hl] at h hc
    rcases access_of_call x.2 c.mem hc with hi | ⟨pc'', hr, -⟩
    · rw [thread_step, hi] at h
      cases h
    · rw [thread_step, hr] at h
      cases h
      exact Or.inr ⟨pc', rfl⟩

/-- An idle thread that is in a call after the step has just begun it. -/
theorem began_step {c : Config T State Thread} {x : T × Choice} (hi : c.loc x.1 = .idle)
    {call : Call} {pc : Pc} (h : (Threads.step (program T) c x).loc x.1 = .running call pc) :
    (x.1, .began call) ∈ Threads.events (program T) c x := by
  rw [Threads.step_loc_self] at h
  simp only [program, hi] at h
  refine List.mem_map.mpr ⟨_, ?_, rfl⟩
  simp only [program, hi]
  simp only [thread_step, enter] at h ⊢
  repeat' split at h
  all_goals simp_all

/-- `n` steps of thread `t`, which makes `call` when it is idle, under a host that patches
and whose presentation is legacy or modern. -/
def steps (legacy : Bool) (t : T) (n : ℕ) (call : Call) : List (T × Choice) :=
  List.replicate n (t, ⟨call, false, ⟨legacy, .Selector, true⟩⟩)

/-! ## What the invariant says -/

/-- The moves of the routing word. -/
inductive Forward : RoutingState → RoutingState → Prop
  | stay (r : RoutingState) : Forward r r
  | register : Forward .Unregistered .RegisteringResumeTarget
  | registered : Forward .RegisteringResumeTarget .ResumeTarget
  | promote : Forward .ResumeTarget .PromotingDualDispatch
  | promoted : Forward .PromotingDualDispatch .DualDispatch
  | activate : Forward .Unregistered .RegisteringDualDispatch
  | activated : Forward .RegisteringDualDispatch .DualDispatch

/-- A write moves the routing word forward, if at all. -/
theorem forward_apply {s : State} {call : Call} {pc : Pc} {w : Write} {th : Thread}
    (hw : Writes s call pc w th) (hp : pc.Ok s) : Forward s.routing (w.apply s).routing := by
  cases hw with
  | rrt_cas h | add_cas_unregistered h | add_cas_resume h =>
    rw [h]
    constructor
  | rrt_publish =>
    simp only [Pc.Ok] at hp
    rw [hp]
    exact .registered
  | add_publish =>
    rcases hp.1 with hr | hr <;> rw [hr]
    · exact .activated
    · exact .promoted
  | dual_store h =>
    subst h
    rw [(dual_write_frame call.leaf call.argument s).1]
    exact .stay _
  | _ => exact .stay _

/-- No step takes the routing word back. -/
theorem Inv.forward {c : Config T State Thread} (h : Inv c) (x : T × Choice) :
    Forward c.mem.routing (Threads.step (program T) c x).mem.routing := by
  have hok := h.loc x.1
  rw [Threads.step_mem]
  rcases thread_step_effect x.2 c.mem (c.loc x.1) with ⟨hm, -⟩ | ⟨call, pc, w, hth, hw, hm, -⟩
  · exact (congrArg (Forward c.mem.routing) (congrArg State.routing hm)).mpr (.stay _)
  · rw [hth] at hok
    exact (congrArg (Forward c.mem.routing) (congrArg State.routing hm)).mpr
      (forward_apply hw hok)

/-- The call under way in a thread is the one that set the routing word to `r`. -/
def Thread.owns (r : RoutingState) : Thread → Bool
  | .idle => false
  | .running _ pc =>
    match r with
    | .RegisteringResumeTarget => pc.registering
    | .RegisteringDualDispatch | .PromotingDualDispatch => pc.activating
    | .Unregistered | .ResumeTarget | .DualDispatch => false

/-- The thread that owns a transient word is the one at a program point that goes with it. -/
theorem Thread.Ok.owns_iff {s : State} {th : Thread} (h : th.Ok s) :
    th.owns s.routing = true ↔ th.owner = true := by
  cases th with
  | idle => rfl
  | running call pc =>
    cases hr : s.routing <;> cases pc <;>
      simp_all [Thread.Ok, Pc.Ok, Thread.owns, Thread.owner, Pc.registering, Pc.activating,
        Activating]

/-- Once past a registration, nobody is left who could store `SelectorDispatch`. -/
theorem Inv.selector_not_stored {c : Config T State Thread} (h : Inv c)
    (hr : c.mem.routing.registered = true) (s : List (T × Choice)) (u : T) :
    (u, Event.wrote (.syscall_convention .SelectorDispatch)) ∉ Threads.trace (program T) c s := by
  refine (Threads.run_induct (program T)
    (I := fun tr d => (Inv d ∧ d.mem.routing.registered = true)
      ∧ (u, Event.wrote (.syscall_convention .SelectorDispatch)) ∉ tr)
    ⟨⟨h, hr⟩, by simp⟩ ?_ s).2
  rintro tr d x ⟨⟨hd, hdr⟩, htr⟩
  refine ⟨⟨hd.step x, (thread_step_rely x.2 (hd.loc x.1) false nofun).registered hdr⟩,
    ?_⟩
  rw [List.mem_append, not_or]
  refine ⟨htr, fun he => ?_⟩
  obtain ⟨call, pc, th, hth, hw, -⟩ := wrote_step he
  have hok := hd.pc_ok hth
  cases hw with
  | rrt_selector =>
    -- Its thread would own RegisteringResumeTarget, which is not a registered word.
    rw [hok.1] at hdr
    cases hdr
  | dual_store h =>
    have hreg := dual_write_registers call.leaf call.argument
    rw [← h] at hreg
    cases hreg

/-- A dispatch registration in the trace means dual dispatch is active. -/
theorem dual_of_registers_dispatch (s : List (T × Choice)) :
    (∃ u w, (u, Event.wrote w) ∈ Threads.trace (program T) (start T) s
        ∧ w.registers_dispatch = true) →
      (Threads.run (program T) (start T) s).mem.routing = .DualDispatch := by
  refine (Threads.run_induct (program T)
    (I := fun tr d => Inv d ∧ ((∃ u w, (u, Event.wrote w) ∈ tr ∧ w.registers_dispatch = true) →
      d.mem.routing = .DualDispatch)) ⟨inv_start, by simp⟩ ?_ s).2
  rintro tr d x ⟨hd, htr⟩
  refine ⟨hd.step x, ?_⟩
  rintro ⟨u, w, hm, hw⟩
  have hrely := thread_step_rely x.2 (hd.loc x.1) false nofun
  rcases List.mem_append.mp hm with hm | hm
  · exact hrely.dual (htr ⟨u, w, hm, hw⟩)
  · obtain ⟨call, pc, th, hth, hws, -⟩ := wrote_step hm
    have hok := hd.pc_ok hth
    refine hrely.dual ?_
    cases hws with
    | dual_store _ => exact hok
    | _ => cases hw

/-- **`State` in every interleaving.** At every point of every run: the routing word
only moves forward; a transient value has exactly one owner, and nobody else
moves the word on; an unregistered state is untouched; the dual-dispatch word implies the
convention; `SelectorDispatch` is never stored once the word has been ResumeTarget; and a
dispatch registration implies dual dispatch. -/
theorem state_invariant (s : List (T × Choice)) :
    let c := Threads.run (program T) (start T) s
    (∀ x, Forward c.mem.routing (Threads.step (program T) c x).mem.routing)
      ∧ (c.mem.routing.transient = true →
        ∃! t, (c.loc t).owns c.mem.routing = true)
      ∧ (∀ t x, (c.loc t).owns c.mem.routing = true → x.1 ≠ t →
        (Threads.step (program T) c x).mem.routing = c.mem.routing)
      ∧ (c.mem.routing = .Unregistered →
        c.mem.resume_target = 0 ∧ c.mem.dispatch.system_target = 0
          ∧ c.mem.dispatch.attributes_target = 0 ∧ c.mem.target_pid = 0
          ∧ c.mem.dispatch.system_id = U32_MAX ∧ c.mem.dispatch.attributes_id = U32_MAX
          ∧ c.mem.syscall_convention = .ResumeReplay)
      ∧ (c.mem.routing = .DualDispatch → c.mem.syscall_convention = .DualDispatch)
      ∧ (c.mem.routing = .ResumeTarget → ∀ s' u,
        (u, Event.wrote (.syscall_convention .SelectorDispatch))
          ∉ Threads.trace (program T) c s')
      ∧ ((∃ u w, (u, Event.wrote w) ∈ Threads.trace (program T) (start T) s
            ∧ w.registers_dispatch = true)
          ∨ c.mem.dispatch.system_id ≠ U32_MAX ∨ c.mem.dispatch.attributes_id ≠ U32_MAX
          ∨ c.mem.dispatch.attributes_target ≠ 0 →
        c.mem.routing = .DualDispatch) := by
  intro c
  have h : Inv c := inv_run s
  refine ⟨h.forward, fun htr => ?_, fun t x ho hne => ?_, fun hr => ?_, fun hr => ?_,
    fun hr s' u => h.selector_not_stored (by rw [hr]; rfl) s' u, fun hreg => ?_⟩
  · obtain ⟨t, ht⟩ := h.owned htr
    exact ⟨t, (h.loc t).owns_iff.mpr ht,
      fun u hu => h.unique u t ((h.loc u).owns_iff.mp hu) ht⟩
  · exact ((h.rely x (Ne.symm hne)).kept ((h.loc t).owns_iff.mp ho)).1
  · have hm := h.mem
    unfold MemOk at hm
    rw [hr] at hm
    obtain ⟨h1, h2, h3, h4⟩ := hm
    rw [h4]
    exact ⟨h2, rfl, rfl, h3, rfl, rfl, h1⟩
  · have hm := h.mem
    unfold MemOk at hm
    rwa [hr] at hm
  · rcases hreg with hw | hval
    · exact dual_of_registers_dispatch s hw
    · have hm := h.mem
      unfold MemOk at hm
      cases hr : c.mem.routing <;> simp_all [DispatchRegistrations.new]

end Runs

end Linuwux.Reflex
