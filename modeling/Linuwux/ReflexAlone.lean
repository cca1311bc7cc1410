/-
`ReflexAlone.lean` -- the two models of `State` agree.

`ReflexState.lean` computes a call in one go and `ReflexThreads.lean` takes it one access at a
time. A call during which no other thread moves, and whose weak compare-exchange does not fail
spuriously, ends with the answer and the words that `ReflexState.lean` computes.

What `ReflexHistory.lean` says about a handshake is therefore about runs of the threads, those
in which one leaf comes after the other.
-/
import Linuwux.ReflexHistory
import Linuwux.ReflexThreads

set_option autoImplicit false

namespace Linuwux.Reflex

open Threads (Outcome Config Leads steps)

/-- What a call answers and the words it leaves, in one go. -/
def State.perform (s : State) (host : HostReply) : Call → Answer × State
  | .handle_cpuid leaf rcx rdx =>
    let (action, s', _) := s.handle_cpuid leaf rcx rdx host
    (.action action, s')
  | .routing => (.routing s.routing_public, s)
  | .has_registered_target_process => (.flag s.has_registered_target_process, s)
  | .resume_identity_unarmed => (.flag s.resume_identity_unarmed, s)
  | .route_syscall number r10 rcx => (.route (s.route_syscall number r10 rcx), s)

section Alone

variable {T : Type} [DecidableEq T] {t : T} {x : Choice} {s s' : State} {th : Thread} {a : Answer}

/-- Thread `t`, alone at `th`, returns `a` and leaves the words `s'`. -/
def Finishes (t : T) (x : Choice) (s : State) (th : Thread) (a : Answer) (s' : State) : Prop :=
  ∃ n es, Leads (program T) (Threads.alone .idle t s th) (steps t n x)
    ((es ++ [Event.returned x.call a]).map (Prod.mk t)) (Threads.alone .idle t s' .idle)

theorem Finishes.next (o : Outcome State Thread Event) (h : thread_step x s th = o)
    (hrest : Finishes t x o.mem o.loc a s') : Finishes t x s th a s' := by
  obtain ⟨n, es, hl⟩ := hrest
  obtain ⟨es', n', hl'⟩ := Threads.Completes.ends_next (program T) h ⟨es, n, hl⟩
  exact ⟨n', es', hl'⟩

theorem Finishes.last (es : List Event)
    (h : thread_step x s th = ⟨s', .idle, es ++ [Event.returned x.call a]⟩) :
    Finishes t x s th a s' := by
  obtain ⟨es', n, hl⟩ := Threads.Completes.ends_last (program T) es h
  exact ⟨n, es', hl⟩

/-- Nobody else will publish the word, so a wait runs out. -/
theorem Finishes.wait {again : Pc} {wait : ℕ → Pc} (ht : s.routing.transient = true)
    (hwait : ∀ n, access x s x.call (wait n) = wait_step s x.call n again wait) (n : ℕ) :
    Finishes t x s (.running x.call (wait n)) (.action .Native) s := by
  have hstep : thread_step x s (.running x.call (wait n))
      = if n + 1 < TRANSITION_WAIT_LIMIT then go s x.call (wait (n + 1))
        else ret s x.call (.action .Native) := by
    simp only [thread_step, hwait, wait_step, ht, Bool.not_true, Bool.false_eq_true, if_false]
  by_cases hn : n + 1 < TRANSITION_WAIT_LIMIT
  · rw [if_pos hn] at hstep
    exact .next _ hstep (Finishes.wait ht hwait (n + 1))
  · rw [if_neg hn] at hstep
    exact .last [] hstep
termination_by TRANSITION_WAIT_LIMIT - n

/-- `register_resume_target`. -/
theorem register_resume_target_alone (hx : x.spurious = false) :
    Finishes t x s (.running x.call .rrt_load)
      (.action (if (s.register_resume_target x.call.argument x.host).1 then .Consumed else .Native))
      (s.register_resume_target x.call.argument x.host).2.1 := by
  obtain ⟨call, spurious, legacy, selector, patch⟩ := x
  obtain ⟨routing, identity, pid, convention, target, dispatch⟩ := s
  subst hx
  cases routing with
  | DualDispatch => exact .next _ rfl (.last [_] rfl)
  | ResumeTarget =>
    refine .next _ rfl (.next _ rfl ?_)
    cases patch with
    | true => exact .next _ rfl (.last [_] rfl)
    | false => exact .last [] rfl
  | Unregistered =>
    -- load, compare-exchange, target, presentation
    refine .next _ rfl (.next _ rfl (.next _ rfl ?_))
    cases legacy with
    | true => exact .next _ rfl (.next _ rfl (.last [_] rfl))
    | false => exact .next _ rfl (.last [_] rfl)
  | RegisteringResumeTarget | RegisteringDualDispatch | PromotingDualDispatch =>
    exact .next _ rfl (.wait rfl (fun _ => rfl) 0)

/-- The write of a dual leaf is the store of `register_dual`. -/
theorem dual_write_apply {leaf : Leaf} {argument : UInt64}
    (hl : leaf = .register_system_syscall_id ∨ leaf = .register_attributes_handler
      ∨ leaf = .register_attributes_syscall_id) (s : State) :
    (dual_write leaf argument).apply s = s.register_dual leaf argument := by
  rcases hl with rfl | rfl | rfl <;> rfl

/-- `activate_dual_dispatch` once it has taken the routing word. -/
theorem enter_dual_dispatch_alone {f : State → State}
    (hstore : ∀ s, Finishes t x s (.running x.call .dual_store) a (f s)) (s : State) :
    Finishes t x s (.running x.call .add_target) a (f s.enter_dual_dispatch) := by
  refine .next (go s x.call (.add_system s.resume_target)) rfl ?_
  by_cases h0 : s.dispatch.system_target = 0
  · -- The handler is inherited.
    have henter : s.enter_dual_dispatch = { s with
        routing := .DualDispatch
        syscall_convention := .DualDispatch
        dispatch := { s.dispatch with system_target := s.resume_target } } := by
      rw [State.enter_dual_dispatch, if_pos h0]
    refine .next (go s x.call (.add_copy s.resume_target)) ?_ ?_
    · simp only [thread_step, access, go, h0, if_true]
    · rw [henter]
      exact .next _ rfl (.next _ rfl (.next _ rfl (hstore _)))
  · have henter : s.enter_dual_dispatch = { s with
        routing := .DualDispatch
        syscall_convention := .DualDispatch } := by
      rw [State.enter_dual_dispatch, if_neg h0]
    refine .next (go s x.call .add_convention) ?_ ?_
    · simp only [thread_step, access, go, h0, if_false]
    · rw [henter]
      exact .next _ rfl (.next _ rfl (hstore _))

/-- A dual leaf from `activate_dual_dispatch` on. -/
theorem handle_dual_alone {leaf : UInt32} {rcx rdx : UInt64} (hx : x.spurious = false)
    (hc : x.call = .handle_cpuid leaf rcx rdx)
    (hl : Leaf.decode leaf = .register_system_syscall_id
      ∨ Leaf.decode leaf = .register_attributes_handler
      ∨ Leaf.decode leaf = .register_attributes_syscall_id) :
    Finishes t x s (.running x.call .add_load)
      (.action (s.handle_dual leaf (cpuid_argument leaf rcx rdx)).1)
      (s.handle_dual leaf (cpuid_argument leaf rcx rdx)).2.1 := by
  obtain ⟨call, spurious, host⟩ := x
  subst hx
  subst hc
  have hstore : ∀ s : State, Finishes t ⟨.handle_cpuid leaf rcx rdx, false, host⟩ s
      (.running (.handle_cpuid leaf rcx rdx) .dual_store) (.action .Consumed)
      (s.register_dual (Leaf.decode leaf) (cpuid_argument leaf rcx rdx)) := by
    intro s
    rw [← dual_write_apply hl]
    exact .last [_] rfl
  obtain ⟨routing, identity, pid, convention, target, dispatch⟩ := s
  cases routing with
  | DualDispatch => exact .next _ rfl (hstore _)
  | Unregistered | ResumeTarget =>
    exact .next _ rfl (.next _ rfl (enter_dual_dispatch_alone hstore _))
  | RegisteringResumeTarget | RegisteringDualDispatch | PromotingDualDispatch =>
    exact .next _ rfl (.wait rfl (fun _ => rfl) 0)

/-- `handle_cpuid`. -/
theorem handle_cpuid_alone {leaf : UInt32} {rcx rdx : UInt64} (hx : x.spurious = false)
    (hc : x.call = .handle_cpuid leaf rcx rdx) :
    Finishes t x s .idle (.action (s.handle_cpuid leaf rcx rdx x.host).1)
      (s.handle_cpuid leaf rcx rdx x.host).2.1 := by
  have hdual := handle_dual_alone (t := t) (s := s) hx hc
  have hregister : ∀ s₁ : State, Finishes t x s₁ (.running x.call .rrt_load) _ _ := fun _ =>
    register_resume_target_alone hx
  obtain ⟨call, spurious, legacy, selector, patch⟩ := x
  subst hx
  subst hc
  -- The first step goes to the program point `pc` of the arm.
  have hbegin : ∀ pc, enter s (.handle_cpuid leaf rcx rdx)
      = ⟨s, .running (.handle_cpuid leaf rcx rdx) pc, [.began (.handle_cpuid leaf rcx rdx)]⟩ →
      ∀ {a s'}, Finishes t ⟨.handle_cpuid leaf rcx rdx, false, legacy, selector, patch⟩ s
        (.running (.handle_cpuid leaf rcx rdx) pc) a s' →
      Finishes t ⟨.handle_cpuid leaf rcx rdx, false, legacy, selector, patch⟩ s .idle a s' :=
    fun pc he _ _ h => .next _ he h
  unfold State.handle_cpuid
  cases hl : Leaf.decode leaf with
  | arm_target_cr3 =>
    refine hbegin .arm_identity (by simp only [enter, hl]) (.next _ rfl ?_)
    obtain ⟨routing, identity, pid, convention, target, dispatch⟩ := s
    cases routing <;> exact .last [_] rfl
  | client_session_marker | set_time | other =>
    exact .last [.began (.handle_cpuid leaf rcx rdx)] (by simp [thread_step, enter, hl])
  | register_resume_handler =>
    refine hbegin .rrh_identity (by simp only [enter, hl]) ?_
    obtain ⟨routing, identity, pid, convention, target, dispatch⟩ := s
    cases identity <;> exact .next _ rfl (.next _ rfl (hregister _))
  | register_target_pid =>
    refine hbegin .pid_routing (by simp only [enter, hl]) ?_
    obtain ⟨routing, identity, pid, convention, target, dispatch⟩ := s
    cases routing with
    | ResumeTarget | DualDispatch =>
      refine .next _ rfl (.next _ rfl (.next _ rfl ?_))
      cases patch <;> exact .last [] rfl
    | _ => exact .last [_] rfl
  | register_system_syscall_id | register_attributes_handler | register_attributes_syscall_id =>
    exact hbegin .add_load (by simp only [enter, hl]) (hdual (by simp [hl]))

/-- `route_syscall`. -/
theorem route_syscall_alone {number rcx : UInt64} {r10 : Int64}
    (hc : x.call = .route_syscall number r10 rcx) :
    Finishes t x s .idle (.route (s.route_syscall number r10 rcx)) s := by
  obtain ⟨call, spurious, host⟩ := x
  subst hc
  refine .next _ rfl ?_
  unfold State.route_syscall
  by_cases hr : s.routing = .Unregistered ∨ s.routing = .RegisteringDualDispatch
  · rw [if_pos hr]
    exact .last [] (if_pos hr)
  rw [if_neg hr]
  refine .next (go s _ .route_convention) (if_neg hr) ?_
  obtain ⟨routing, identity, pid, convention, target, dispatch⟩ := s
  cases convention with
  | ResumeReplay => exact .next _ rfl (.last [] rfl)
  | SelectorDispatch =>
    by_cases hn : number ∉ SINGLE_DISPATCH_SELECTORS ∨ rcx > USER_RCX_MAX
    · rw [if_pos hn]
      exact .last [] (if_pos hn)
    · rw [if_neg hn]
      exact .next (go _ _ (.route_resume false)) (if_neg hn) (.last [] rfl)
  | DualDispatch =>
    by_cases hb : number = DISPATCH_BYPASS_SYSCALL
    · rw [if_pos hb]
      exact .last [] (if_pos hb)
    rw [if_neg hb]
    refine .next (go _ _ .route_system_id) (if_neg hb) ?_
    by_cases hs : number.toUInt32 = dispatch.system_id
    · rw [if_pos hs]
      by_cases hz : r10 ≠ 0 ∨ rcx > USER_RCX_MAX
      · rw [if_pos hz]
        exact .last [] ((if_pos hs).trans (if_pos hz))
      · rw [if_neg hz]
        exact .next (go _ _ .route_system_target) ((if_pos hs).trans (if_neg hz)) (.last [] rfl)
    · rw [if_neg hs]
      refine .next (go _ _ .route_attributes_id) (if_neg hs) ?_
      by_cases ha : number.toUInt32 = dispatch.attributes_id ∧ rcx ≤ USER_RCX_MAX
      · rw [if_pos ha]
        exact .next (go _ _ .route_attributes_target) (if_pos ha) (.last [] rfl)
      · rw [if_neg ha]
        exact .last [] (if_neg ha)

/-- **Refinement.** A call that is not interleaved answers, and leaves the words, as
`ReflexState.lean` has it. -/
theorem call_alone (t : T) (s : State) (hx : x.spurious = false) :
    Finishes t x s .idle (s.perform x.host x.call).1 (s.perform x.host x.call).2 := by
  cases hc : x.call with
  | handle_cpuid leaf rcx rdx => exact handle_cpuid_alone hx hc
  | route_syscall number r10 rcx => exact route_syscall_alone hc
  | routing =>
    obtain ⟨call, spurious, host⟩ := x
    subst hc
    exact .next _ rfl (.last [_] rfl)
  | has_registered_target_process =>
    obtain ⟨call, spurious, host⟩ := x
    subst hc
    refine .next _ rfl ?_
    have hflag : s.has_registered_target_process
        = if s.target_pid = 0 then false else s.routing_public != .Unregistered := by
      unfold State.has_registered_target_process
      split <;> simp_all
    simp only [State.perform, hflag]
    by_cases h0 : s.target_pid = 0
    · rw [if_pos h0]
      exact .last [] (if_pos h0)
    · rw [if_neg h0]
      exact .next (go s _ .has_routing) (if_neg h0) (.last [_] rfl)
  | resume_identity_unarmed =>
    obtain ⟨call, spurious, host⟩ := x
    subst hc
    refine .next _ rfl ?_
    obtain ⟨routing, identity, pid, convention, target, dispatch⟩ := s
    cases routing with
    | DualDispatch => exact .last [_] rfl
    | _ => exact .next _ rfl (.last [] rfl)

/-- Every handshake of `ReflexHistory.lean` is a run of the threads. -/
theorem history_alone (t : T) (h : List Control) :
    ∃ s tr, Leads (program T) (start T) s tr ⟨State.after h, fun _ => .idle⟩ := by
  have hidle : ∀ s : State, Threads.alone Thread.idle t s .idle = ⟨s, fun _ => .idle⟩ := by
    intro s
    simp [Threads.alone]
  induction h with
  | nil => exact ⟨[], [], rfl, rfl⟩
  | cons c older ih =>
    obtain ⟨s, tr, hrun⟩ := ih
    obtain ⟨n, es, hcall⟩ := call_alone t (State.after older)
      (x := ⟨.handle_cpuid c.leaf c.rcx c.rdx, false, c.host⟩) rfl
    rw [hidle, hidle] at hcall
    exact ⟨_, _, hrun.trans (program T) hcall⟩

end Alone

end Linuwux.Reflex
