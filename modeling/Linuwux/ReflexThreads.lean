/-
`ReflexThreads.lean` -- `protocol/reflex/state.rs` one atomic access at a time.

`REFLEX_STATE` is a static: CPUID traps and SIGSYS traps of any thread call into it
at once. Here a thread is idle or inside one call of `State`, at a program point
([`Pc`]) named after the Rust function and the access it is about to make, and one
step makes that access. What a Rust local holds across an access is a field of the
program point; what a parameter holds is read off the call.

A step that writes shows the write, a completed `State::routing()` shows what it
returned, and the first and last step of a call show the call and its answer. The
host's answers, a spurious failure of `compare_exchange_weak` and the call an idle
thread makes next are the scheduler's choice. `wait_for_transition` counts its loads,
so a time-out is a run like any other.
-/
import Linuwux.Threads
import Linuwux.ReflexState

set_option autoImplicit false

namespace Linuwux.Reflex

open Threads (Outcome Program Config)

/-! ## Calls and what they show -/

/-- The calls other modules make on `State`. -/
inductive Call where
  | handle_cpuid (leaf : UInt32) (rcx rdx : UInt64)
  | routing
  | has_registered_target_process
  | resume_identity_unarmed
  | route_syscall (number : UInt64) (r10 : Int64) (rcx : UInt64)
  deriving DecidableEq, Repr

namespace Call

/-- The arm of `handle_cpuid` a call takes. -/
def leaf : Call → Leaf
  | .handle_cpuid leaf _ _ => Leaf.decode leaf
  | _ => .other

/-- `argument` of `handle_cpuid`. -/
def argument : Call → UInt64
  | .handle_cpuid leaf rcx rdx => cpuid_argument leaf rcx rdx
  | _ => 0

def number : Call → UInt64
  | .route_syscall number _ _ => number
  | _ => 0

def r10 : Call → Int64
  | .route_syscall _ r10 _ => r10
  | _ => 0

def rcx : Call → UInt64
  | .route_syscall _ _ rcx => rcx
  | _ => 0

/-- The call is a dual-dispatch leaf. -/
def is_dual (c : Call) : Bool :=
  c.leaf = .register_system_syscall_id || c.leaf = .register_attributes_handler ||
    c.leaf = .register_attributes_syscall_id

/-- The call is REGISTER_RESUME_HANDLER. -/
def is_resume (c : Call) : Bool := c.leaf = .register_resume_handler

end Call

/-- What a call returns. -/
inductive Answer where
  | action (a : Action)
  | routing (r : Routing)
  | flag (b : Bool)
  | route (r : Option SyscallRoute)
  deriving DecidableEq, Repr

/-- A write to one word of `State`. -/
inductive Write where
  | routing (v : RoutingState)
  | identity (v : IdentityState)
  | target_pid (v : UInt64)
  | syscall_convention (v : SyscallConvention)
  | resume_target (v : UInt64)
  | system_target (v : UInt64)
  | system_id (v : UInt32)
  | attributes_target (v : UInt64)
  | attributes_id (v : UInt32)
  deriving DecidableEq, Repr

def Write.apply (s : State) : Write → State
  | .routing v => { s with routing := v }
  | .identity v => { s with identity := v }
  | .target_pid v => { s with target_pid := v }
  | .syscall_convention v => { s with syscall_convention := v }
  | .resume_target v => { s with resume_target := v }
  | .system_target v => { s with dispatch := { s.dispatch with system_target := v } }
  | .system_id v => { s with dispatch := { s.dispatch with system_id := v } }
  | .attributes_target v => { s with dispatch := { s.dispatch with attributes_target := v } }
  | .attributes_id v => { s with dispatch := { s.dispatch with attributes_id := v } }

inductive Event where
  | began (call : Call)
  | saw (r : Routing)
  | wrote (w : Write)
  | returned (call : Call) (answer : Answer)
  deriving DecidableEq, Repr

/-- What the scheduler chooses for one step: the call an idle thread makes,
whether a weak compare-exchange fails spuriously, and the host's answers. -/
structure Choice where
  call : Call
  spurious : Bool
  host : HostReply
  deriving DecidableEq, Repr

/-! ## Program points -/

/-- The access a call is about to make. The prefixes are `arm` for ARM_TARGET_CR3,
`rrh` for REGISTER_RESUME_HANDLER, `rrt` for `register_resume_target`, `add` for
`activate_dual_dispatch`, `dual` for the store of a dual leaf, `pid` for
REGISTER_TARGET_PID, and the names of the queries. -/
inductive Pc where
  | arm_identity
  | arm_routing
  | rrh_identity
  | rrh_routing
  | rrt_load
  | rrt_system
  | rrt_recipe
  | rrt_patch (recipe : KuserRecipe)
  | rrt_resume
  | rrt_cas
  | rrt_wait (n : ℕ)
  | rrt_target
  | rrt_legacy
  | rrt_selector
  | rrt_publish
  | add_load
  | add_cas_unregistered
  | add_cas_resume
  | add_wait (n : ℕ)
  | add_target
  | add_system (target : UInt64)
  | add_copy (target : UInt64)
  | add_convention
  | add_publish
  | dual_store
  | pid_routing
  | pid_store
  | pid_recipe
  | pid_patch (recipe : KuserRecipe)
  | routing_load
  | has_pid
  | has_routing
  | unarmed_routing
  | unarmed_target
  | route_routing
  | route_convention
  | route_resume (rax_is_resume : Bool)
  | route_system_id
  | route_system_target
  | route_attributes_id
  | route_attributes_target
  deriving Repr

/-- A thread between calls, or inside one. -/
inductive Thread where
  | idle
  | running (call : Call) (pc : Pc)
  deriving Repr

instance : (th : Thread) → Decidable (th = .idle)
  | .idle => isTrue rfl
  | .running _ _ => isFalse nofun

/-! ## The step -/

/-- Go on without a write. -/
def go (s : State) (call : Call) (pc : Pc) : Outcome State Thread Event :=
  ⟨s, .running call pc, []⟩

/-- Write one word and go on. -/
def put (s : State) (w : Write) (call : Call) (pc : Pc) : Outcome State Thread Event :=
  ⟨w.apply s, .running call pc, [.wrote w]⟩

/-- Return without a write. -/
def ret (s : State) (call : Call) (a : Answer) : Outcome State Thread Event :=
  ⟨s, .idle, [.returned call a]⟩

/-- Write one word and return. -/
def put_ret (s : State) (w : Write) (call : Call) (a : Answer) : Outcome State Thread Event :=
  ⟨w.apply s, .idle, [.wrote w, .returned call a]⟩

/-- `self.routing()`: load, take the stable value, and continue with it. -/
def observe (s : State) (k : Routing → Outcome State Thread Event) :
    Outcome State Thread Event :=
  { k s.routing.stable with events := .saw s.routing.stable :: (k s.routing.stable).events }

/-- One weak compare-exchange on the routing word. -/
def cas_routing (x : Choice) (s : State) (old new : RoutingState) (call : Call) (ok err : Pc) :
    Outcome State Thread Event :=
  if s.routing = old ∧ x.spurious = false then put s (.routing new) call ok else go s call err

/-- One load of `wait_for_transition`, the `n`-th. -/
def wait_step (s : State) (call : Call) (n : ℕ) (again : Pc) (wait : ℕ → Pc) :
    Outcome State Thread Event :=
  if !s.routing.transient then go s call again
  else if n + 1 < TRANSITION_WAIT_LIMIT then go s call (wait (n + 1))
  else ret s call (.action .Native)

/-- The write of a dual leaf once dual dispatch is active. -/
def dual_write (leaf : Leaf) (argument : UInt64) : Write :=
  match leaf with
  | .register_attributes_handler => .attributes_target argument
  | .register_attributes_syscall_id => .attributes_id argument.toUInt32
  | _ => .system_id argument.toUInt32

/-- A dual leaf's write is confined to its own registration. -/
theorem dual_write_frame (leaf : Leaf) (argument : UInt64) (s : State) :
    ((dual_write leaf argument).apply s).routing = s.routing
      ∧ ((dual_write leaf argument).apply s).syscall_convention = s.syscall_convention
      ∧ ((dual_write leaf argument).apply s).resume_target = s.resume_target
      ∧ ((dual_write leaf argument).apply s).target_pid = s.target_pid
      ∧ ((dual_write leaf argument).apply s).dispatch.system_target
          = s.dispatch.system_target := by
  unfold dual_write
  split <;> exact ⟨rfl, rfl, rfl, rfl, rfl⟩

/-- The write registers a dispatch id or the attributes target. -/
def Write.registers_dispatch : Write → Bool
  | .system_id _ | .attributes_target _ | .attributes_id _ => true
  | _ => false

theorem dual_write_registers (leaf : Leaf) (argument : UInt64) :
    (dual_write leaf argument).registers_dispatch = true := by
  unfold dual_write
  split <;> rfl

/-- The first step of a call: everything before its first access to `State`. -/
def enter (s : State) (call : Call) : Outcome State Thread Event :=
  let start (pc : Pc) : Outcome State Thread Event := ⟨s, .running call pc, [.began call]⟩
  let done (a : Action) : Outcome State Thread Event :=
    ⟨s, .idle, [.began call, .returned call (.action a)]⟩
  match call with
  | .handle_cpuid leaf _ _ =>
    match Leaf.decode leaf with
    | .arm_target_cr3 => start .arm_identity
    | .client_session_marker => done .Native
    | .register_resume_handler => start .rrh_identity
    | .set_time => done .Consumed
    | .register_target_pid => start .pid_routing
    | .register_system_syscall_id
    | .register_attributes_handler
    | .register_attributes_syscall_id => start .add_load
    | .other => done .Native
  | .routing => start .routing_load
  | .has_registered_target_process => start .has_pid
  | .resume_identity_unarmed => start .unarmed_routing
  | .route_syscall _ _ _ => start .route_routing

/-- The access at a program point. -/
def access (x : Choice) (s : State) (call : Call) : Pc → Outcome State Thread Event
  | .arm_identity => put s (.identity .Process) call .arm_routing
  | .arm_routing => observe s fun r =>
    ret s call (.action (if r = .ResumeTarget then .Native else .Consumed))
  | .rrh_identity =>
    if s.identity = .Unobserved then put s (.identity .DebugRegisterThread) call .rrh_routing
    else go s call .rrh_routing
  | .rrh_routing => observe s fun _ => go s call .rrt_load
  | .rrt_load =>
    match s.routing with
    | .DualDispatch => go s call .rrt_system
    | .ResumeTarget => go s call .rrt_recipe
    | .Unregistered => go s call .rrt_cas
    | .RegisteringResumeTarget | .RegisteringDualDispatch | .PromotingDualDispatch =>
      go s call (.rrt_wait 0)
  | .rrt_system => put_ret s (.system_target call.argument) call (.action .Consumed)
  | .rrt_recipe => go s call (.rrt_patch (State.recipe_of s.syscall_convention x.host))
  -- The callback is a step of its own: the routing word can move between the load above and
  -- the store below, which does not look at it again.
  | .rrt_patch _ =>
    if x.host.patch_kuser then go s call .rrt_resume else ret s call (.action .Native)
  | .rrt_resume => put_ret s (.resume_target call.argument) call (.action .Consumed)
  | .rrt_cas =>
    cas_routing x s .Unregistered .RegisteringResumeTarget call .rrt_target .rrt_load
  | .rrt_wait n => wait_step s call n .rrt_load .rrt_wait
  -- The first registration: handler, convention and routing word, one store each.
  | .rrt_target => put s (.resume_target call.argument) call .rrt_legacy
  | .rrt_legacy =>
    go s call (if x.host.legacy_presentation_active then .rrt_selector else .rrt_publish)
  | .rrt_selector => put s (.syscall_convention .SelectorDispatch) call .rrt_publish
  | .rrt_publish => put_ret s (.routing .ResumeTarget) call (.action .Consumed)
  | .add_load =>
    match s.routing with
    | .DualDispatch => go s call .dual_store
    | .Unregistered => go s call .add_cas_unregistered
    | .ResumeTarget => go s call .add_cas_resume
    | .RegisteringResumeTarget | .RegisteringDualDispatch | .PromotingDualDispatch =>
      go s call (.add_wait 0)
  | .add_cas_unregistered =>
    cas_routing x s .Unregistered .RegisteringDualDispatch call .add_target .add_load
  | .add_cas_resume =>
    cas_routing x s .ResumeTarget .PromotingDualDispatch call .add_target .add_load
  | .add_wait n => wait_step s call n .add_load .add_wait
  -- The compare-exchange has been won: read the handler, hand it over unless the dispatch
  -- registrations have one, and publish.
  | .add_target => go s call (.add_system s.resume_target)
  | .add_system target =>
    go s call (if s.dispatch.system_target = 0 then .add_copy target else .add_convention)
  | .add_copy target => put s (.system_target target) call .add_convention
  | .add_convention => put s (.syscall_convention .DualDispatch) call .add_publish
  | .add_publish => put s (.routing .DualDispatch) call .dual_store
  | .dual_store => put_ret s (dual_write call.leaf call.argument) call (.action .Consumed)
  | .pid_routing => observe s fun r =>
    if r = .Unregistered then ret s call (.action .Native) else go s call .pid_store
  -- A failed patch does not take the pid back.
  | .pid_store => put s (.target_pid call.argument) call .pid_recipe
  | .pid_recipe => go s call (.pid_patch (State.recipe_of s.syscall_convention x.host))
  | .pid_patch _ => ret s call (.action (if x.host.patch_kuser then .Consumed else .Native))
  | .routing_load => observe s fun r => ret s call (.routing r)
  -- `&&` does not load the routing word when there is no pid.
  | .has_pid =>
    if s.target_pid = 0 then ret s call (.flag false) else go s call .has_routing
  | .has_routing => observe s fun r => ret s call (.flag (r != .Unregistered))
  | .unarmed_routing => observe s fun r =>
    if r = .DualDispatch then ret s call (.flag false) else go s call .unarmed_target
  | .unarmed_target => ret s call (.flag (s.resume_target == 0))
  | .route_routing =>
    if s.routing = .Unregistered ∨ s.routing = .RegisteringDualDispatch then
      ret s call (.route none)
    else go s call .route_convention
  | .route_convention =>
    match s.syscall_convention with
    | .ResumeReplay => go s call (.route_resume true)
    | .SelectorDispatch =>
      if call.number ∉ SINGLE_DISPATCH_SELECTORS ∨ call.rcx > USER_RCX_MAX then
        ret s call (.route none)
      else go s call (.route_resume false)
    | .DualDispatch =>
      if call.number = DISPATCH_BYPASS_SYSCALL then ret s call (.route none)
      else go s call .route_system_id
  | .route_resume rax_is_resume =>
    ret s call (.route (State.route_to s.resume_target rax_is_resume))
  | .route_system_id =>
    if call.number.toUInt32 = s.dispatch.system_id then
      if call.r10 ≠ 0 ∨ call.rcx > USER_RCX_MAX then ret s call (.route none)
      else go s call .route_system_target
    else go s call .route_attributes_id
  | .route_system_target =>
    ret s call (.route (State.route_to s.dispatch.system_target false))
  | .route_attributes_id =>
    if call.number.toUInt32 = s.dispatch.attributes_id ∧ call.rcx ≤ USER_RCX_MAX then
      go s call .route_attributes_target
    else ret s call (.route none)
  | .route_attributes_target =>
    ret s call (.route (State.route_to s.dispatch.attributes_target false))

/-- One step of a thread. -/
def thread_step (x : Choice) (s : State) : Thread → Outcome State Thread Event
  | .idle => enter s x.call
  | .running call pc => access x s call pc

/-- The program every thread runs. -/
def program (T : Type) : Program T Choice State Thread Event := fun _ => thread_step

/-- No call under way. -/
def start (T : Type) : Config T State Thread := ⟨.new, fun _ => .idle⟩

/-! ## What a step writes

All that a step does to the words, said once: it writes nothing, or it is one of the
fifteen writes below. Everything the other threads can notice is in this list. -/

/-- The writing steps: program point and guard before, the write, and the thread
after. -/
inductive Writes (s : State) (call : Call) : Pc → Write → Thread → Prop
  | arm_identity : Writes s call .arm_identity (.identity .Process) (.running call .arm_routing)
  | rrh_identity (h : s.identity = .Unobserved) :
    Writes s call .rrh_identity (.identity .DebugRegisterThread) (.running call .rrh_routing)
  | rrt_system : Writes s call .rrt_system (.system_target call.argument) .idle
  | rrt_resume : Writes s call .rrt_resume (.resume_target call.argument) .idle
  | rrt_cas (h : s.routing = .Unregistered) :
    Writes s call .rrt_cas (.routing .RegisteringResumeTarget) (.running call .rrt_target)
  | rrt_target :
    Writes s call .rrt_target (.resume_target call.argument) (.running call .rrt_legacy)
  | rrt_selector :
    Writes s call .rrt_selector (.syscall_convention .SelectorDispatch) (.running call .rrt_publish)
  | rrt_publish : Writes s call .rrt_publish (.routing .ResumeTarget) .idle
  | add_cas_unregistered (h : s.routing = .Unregistered) :
    Writes s call .add_cas_unregistered (.routing .RegisteringDualDispatch)
      (.running call .add_target)
  | add_cas_resume (h : s.routing = .ResumeTarget) :
    Writes s call .add_cas_resume (.routing .PromotingDualDispatch) (.running call .add_target)
  | add_copy (target : UInt64) :
    Writes s call (.add_copy target) (.system_target target) (.running call .add_convention)
  | add_convention :
    Writes s call .add_convention (.syscall_convention .DualDispatch) (.running call .add_publish)
  | add_publish :
    Writes s call .add_publish (.routing .DualDispatch) (.running call .dual_store)
  | dual_store {w : Write} (h : w = dual_write call.leaf call.argument) :
    Writes s call .dual_store w .idle
  | pid_store : Writes s call .pid_store (.target_pid call.argument) (.running call .pid_recipe)

/-- The writes among a list of events. -/
def writes_of (events : List Event) : List Write :=
  events.filterMap fun
    | .wrote w => some w
    | _ => none

theorem enter_mem (s : State) (call : Call) : (enter s call).mem = s := by
  unfold enter
  repeat' split
  all_goals rfl

theorem enter_writes (s : State) (call : Call) : writes_of (enter s call).events = [] := by
  unfold enter
  repeat' split
  all_goals rfl

/-- What an access can do to the words. -/
inductive Effect (s : State) (call : Call) (pc : Pc) (o : Outcome State Thread Event) : Prop
  | quiet (hm : o.mem = s) (he : writes_of o.events = [])
  | wrote (w : Write) (hw : Writes s call pc w o.loc) (hm : o.mem = w.apply s)
      (he : writes_of o.events = [w])

/-- **Inversion.** An access writes nothing and keeps the words, or makes one of the
listed writes. -/
theorem access_effect (x : Choice) (s : State) (call : Call) (pc : Pc) :
    Effect s call pc (access x s call pc) := by
  cases pc with
  | arm_identity => exact .wrote _ .arm_identity rfl rfl
  | rrh_identity =>
    simp only [access]
    split
    · exact .wrote _ (.rrh_identity ‹_›) rfl rfl
    · exact .quiet rfl rfl
  | rrt_system => exact .wrote _ .rrt_system rfl rfl
  | rrt_resume => exact .wrote _ .rrt_resume rfl rfl
  | rrt_cas =>
    simp only [access, cas_routing]
    split
    · exact .wrote _ (.rrt_cas (‹_ ∧ _›).1) rfl rfl
    · exact .quiet rfl rfl
  | rrt_target => exact .wrote _ .rrt_target rfl rfl
  | rrt_selector => exact .wrote _ .rrt_selector rfl rfl
  | rrt_publish => exact .wrote _ .rrt_publish rfl rfl
  | add_cas_unregistered =>
    simp only [access, cas_routing]
    split
    · exact .wrote _ (.add_cas_unregistered (‹_ ∧ _›).1) rfl rfl
    · exact .quiet rfl rfl
  | add_cas_resume =>
    simp only [access, cas_routing]
    split
    · exact .wrote _ (.add_cas_resume (‹_ ∧ _›).1) rfl rfl
    · exact .quiet rfl rfl
  | add_copy target => exact .wrote _ (.add_copy target) rfl rfl
  | add_convention => exact .wrote _ .add_convention rfl rfl
  | add_publish => exact .wrote _ .add_publish rfl rfl
  | dual_store => exact .wrote _ (.dual_store rfl) rfl rfl
  | pid_store => exact .wrote _ .pid_store rfl rfl
  | _ =>
    simp only [access, observe, wait_step]
    repeat' split
    all_goals exact .quiet rfl rfl

/-! ## Which call is where

A program point belongs to one kind of call. This is bookkeeping, and it does not
depend on the words. -/

/-- The kind of call that reaches a program point. -/
def Pc.of_call (call : Call) : Pc → Prop
  | .arm_identity | .arm_routing => call.leaf = .arm_target_cr3
  | .rrh_identity | .rrh_routing | .rrt_load | .rrt_system | .rrt_recipe | .rrt_patch _
  | .rrt_resume | .rrt_cas | .rrt_wait _ | .rrt_target | .rrt_legacy | .rrt_selector
  | .rrt_publish => call.is_resume = true
  | .add_load | .add_cas_unregistered | .add_cas_resume | .add_wait _ | .add_target
  | .add_system _ | .add_copy _ | .add_convention | .add_publish | .dual_store =>
    call.is_dual = true
  | .pid_routing | .pid_store | .pid_recipe | .pid_patch _ => call.leaf = .register_target_pid
  | .routing_load => call = .routing
  | .has_pid | .has_routing => call = .has_registered_target_process
  | .unarmed_routing | .unarmed_target => call = .resume_identity_unarmed
  | .route_routing | .route_convention | .route_resume _ | .route_system_id
  | .route_system_target | .route_attributes_id | .route_attributes_target =>
    call = .route_syscall call.number call.r10 call.rcx

def Thread.OfCall : Thread → Prop
  | .idle => True
  | .running call pc => pc.of_call call

theorem enter_of_call (s : State) (call : Call) : (enter s call).loc.OfCall := by
  unfold enter
  repeat' split
  all_goals simp_all [Thread.OfCall, Pc.of_call, Call.leaf, Call.is_resume, Call.is_dual,
    Call.number, Call.r10, Call.rcx]

/-- A call stays the same call until it returns. -/
theorem access_of_call (x : Choice) (s : State) {call : Call} {pc : Pc} (h : pc.of_call call) :
    (access x s call pc).loc = .idle
      ∨ ∃ pc', (access x s call pc).loc = .running call pc' ∧ pc'.of_call call := by
  cases pc
  all_goals
    simp only [access, observe, wait_step, cas_routing]
    repeat' split
    all_goals first
      | exact Or.inl rfl
      | exact Or.inr ⟨_, rfl, h⟩

end Linuwux.Reflex
