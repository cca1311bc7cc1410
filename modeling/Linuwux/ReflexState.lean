/-
`ReflexState.lean` -- `protocol/reflex/control.rs` and `protocol/reflex/state.rs`
as a caller that runs alone sees them.

The words of `State` are plain record fields here and every function is the
function of those words that the Rust computes between two calls of anybody
else; `ReflexThreads.lean` takes the same functions apart into their atomic
loads, stores and compare-exchanges, and `ReflexAlone.lean` shows that a call
which is not interleaved with another one does what this file says.

Three things of the source are spelled differently:

* the `#[repr(u32)]` enums are inductive types, not words. Every store of the
  source writes `self as u32`, so the `unreachable!` arms of the three `load`
  functions are never reached and have no counterpart;
* a `Host` is what it answers during one call ([`HostReply`]) together with the
  list of calls made on it ([`HostCall`]), in order and with their arguments and
  texts. One `handle_cpuid` makes at most one call of each fallible or asking
  method, so one answer of each kind per call loses nothing;
* `compare_exchange_weak` succeeds. A spurious failure repeats the iteration of
  the surrounding `loop` and changes nothing.
-/
import Mathlib.Data.Nat.Notation
import Mathlib.Logic.Basic

set_option autoImplicit false

namespace Linuwux.Reflex

/-! ## `control.rs` -/

def ARM_TARGET_CR3 : UInt32 := 0x69696969
def REGISTER_RESUME_HANDLER : UInt32 := 0x00336933
def SET_TIME : UInt32 := 0x00336967
def REGISTER_SYSTEM_SYSCALL_ID : UInt32 := 0x00336943
def REGISTER_ATTRIBUTES_HANDLER : UInt32 := 0x00336934
def REGISTER_ATTRIBUTES_SYSCALL_ID : UInt32 := 0x00336944
def CLIENT_SESSION_MARKER : UInt32 := 0x00693369
def REGISTER_TARGET_PID : UInt32 := 0x1337
def SYSCALL_BYPASS_MAGIC : UInt64 := 0x1337133713371337

def SINGLE_DISPATCH_SELECTORS : List UInt64 := [0x13371337, 0x13371338]
def USER_RCX_MAX : UInt64 := 0x7fffffffffff
def DISPATCH_BYPASS_SYSCALL : UInt64 := 0x7fffffffffff

/-- `u32::MAX`, the id a dispatch slot holds until one is registered. -/
def U32_MAX : UInt32 := 0xffffffff

def TRANSITION_WAIT_LIMIT : ℕ := 4096

/-- The arms of `match leaf` in `State::handle_cpuid`. -/
inductive Leaf where
  | arm_target_cr3
  | client_session_marker
  | register_resume_handler
  | set_time
  | register_target_pid
  | register_system_syscall_id
  | register_attributes_handler
  | register_attributes_syscall_id
  | other
  deriving DecidableEq, Repr

/-- Which arm a leaf number takes. -/
def Leaf.decode (leaf : UInt32) : Leaf :=
  if leaf = ARM_TARGET_CR3 then .arm_target_cr3
  else if leaf = CLIENT_SESSION_MARKER then .client_session_marker
  else if leaf = REGISTER_RESUME_HANDLER then .register_resume_handler
  else if leaf = SET_TIME then .set_time
  else if leaf = REGISTER_TARGET_PID then .register_target_pid
  else if leaf = REGISTER_SYSTEM_SYSCALL_ID then .register_system_syscall_id
  else if leaf = REGISTER_ATTRIBUTES_HANDLER then .register_attributes_handler
  else if leaf = REGISTER_ATTRIBUTES_SYSCALL_ID then .register_attributes_syscall_id
  else .other

/-- The leaf number of an arm; the wildcard arm has none. -/
def Leaf.number : Leaf → Option UInt32
  | .arm_target_cr3 => some ARM_TARGET_CR3
  | .client_session_marker => some CLIENT_SESSION_MARKER
  | .register_resume_handler => some REGISTER_RESUME_HANDLER
  | .set_time => some SET_TIME
  | .register_target_pid => some REGISTER_TARGET_PID
  | .register_system_syscall_id => some REGISTER_SYSTEM_SYSCALL_ID
  | .register_attributes_handler => some REGISTER_ATTRIBUTES_HANDLER
  | .register_attributes_syscall_id => some REGISTER_ATTRIBUTES_SYSCALL_ID
  | .other => none

theorem Leaf.number_of_decode {leaf : UInt32} {l : Leaf} (h : Leaf.decode leaf = l)
    (hl : l ≠ .other) : l.number = some leaf := by
  subst h
  revert hl
  unfold Leaf.decode
  repeat' split
  all_goals simp_all [Leaf.number]

/-- The arms are the numbers: no two of them clash. -/
theorem Leaf.decode_of_number {leaf : UInt32} {l : Leaf} (h : l.number = some leaf) :
    Leaf.decode leaf = l := by
  cases l <;> simp only [Leaf.number, Option.some.injEq, reduceCtorEq] at h <;> subst h <;> decide

@[simp] theorem decode_register_resume_handler (leaf : UInt32) :
    Leaf.decode leaf = .register_resume_handler ↔ leaf = REGISTER_RESUME_HANDLER :=
  ⟨fun h => (Option.some.inj (Leaf.number_of_decode h nofun)).symm,
    fun h => Leaf.decode_of_number (congrArg some h.symm)⟩

@[simp] theorem decode_register_target_pid (leaf : UInt32) :
    Leaf.decode leaf = .register_target_pid ↔ leaf = REGISTER_TARGET_PID :=
  ⟨fun h => (Option.some.inj (Leaf.number_of_decode h nofun)).symm,
    fun h => Leaf.decode_of_number (congrArg some h.symm)⟩

def cpuid_argument (leaf : UInt32) (rcx rdx : UInt64) : UInt64 :=
  if leaf = REGISTER_TARGET_PID then rdx else rcx

/-! ## The words -/

inductive Routing where
  | Unregistered
  | ResumeTarget
  | DualDispatch
  deriving DecidableEq, Repr

inductive IdentityScope where
  | Unobserved
  | Process
  | DebugRegisterThread
  deriving DecidableEq, Repr

inductive IdentityState where
  | Unobserved
  | Process
  | DebugRegisterThread
  deriving DecidableEq, Repr

/-- `IdentityState::public`. -/
def IdentityState.to_public : IdentityState → IdentityScope
  | .Unobserved => .Unobserved
  | .Process => .Process
  | .DebugRegisterThread => .DebugRegisterThread

inductive SyscallConvention where
  | ResumeReplay
  | SelectorDispatch
  | DualDispatch
  deriving DecidableEq, Repr

inductive RoutingState where
  | Unregistered
  | ResumeTarget
  | DualDispatch
  | RegisteringResumeTarget
  | RegisteringDualDispatch
  | PromotingDualDispatch
  deriving DecidableEq, Repr

def RoutingState.stable : RoutingState → Routing
  | .ResumeTarget => .ResumeTarget
  | .DualDispatch => .DualDispatch
  | .Unregistered
  | .RegisteringResumeTarget
  | .RegisteringDualDispatch
  | .PromotingDualDispatch => .Unregistered

/-- The three values `wait_for_transition` waits out. -/
def RoutingState.transient : RoutingState → Bool
  | .RegisteringResumeTarget
  | .RegisteringDualDispatch
  | .PromotingDualDispatch => true
  | .Unregistered
  | .ResumeTarget
  | .DualDispatch => false

inductive Action where
  | Native
  | Consumed
  deriving DecidableEq, Repr

structure SyscallRoute where
  target : UInt64
  rax_is_resume : Bool
  deriving DecidableEq, Repr

/-- `kuser::Recipe`. -/
inductive KuserRecipe where
  | Resume
  | Selector
  | Dispatch
  deriving DecidableEq, Repr

structure DispatchRegistrations where
  system_target : UInt64
  system_id : UInt32
  attributes_target : UInt64
  attributes_id : UInt32
  deriving DecidableEq, Repr

def DispatchRegistrations.new : DispatchRegistrations where
  system_target := 0
  system_id := U32_MAX
  attributes_target := 0
  attributes_id := U32_MAX

structure State where
  routing : RoutingState
  identity : IdentityState
  target_pid : UInt64
  syscall_convention : SyscallConvention
  resume_target : UInt64
  dispatch : DispatchRegistrations
  deriving DecidableEq, Repr

def State.new : State where
  routing := .Unregistered
  identity := .Unobserved
  target_pid := 0
  syscall_convention := .ResumeReplay
  resume_target := 0
  dispatch := .new

/-! ## The host -/

/-- What a `Host` answers during one call. -/
structure HostReply where
  legacy_presentation_active : Bool
  selector_kuser_recipe : KuserRecipe
  patch_kuser : Bool
  deriving DecidableEq, Repr

/-- The calls `State` makes on its host. -/
inductive HostCall where
  | set_offset (filetime : UInt64)
  | select_legacy_presentation
  | legacy_presentation_active
  | selector_kuser_recipe
  | patch_kuser (recipe : KuserRecipe)
  | set_hwprofile_guid
  | yield_thread
  | log (message : String)
  | log_hex (label : String) (value : UInt64)
  deriving DecidableEq, Repr

namespace State

/-! ## Queries -/

/-- `State::routing`: transient words read as `Unregistered`. -/
def routing_public (s : State) : Routing := s.routing.stable

def identity_scope (s : State) : IdentityScope := s.identity.to_public

/-- `State::target_pid`. -/
def target_pid_registered (s : State) : Option UInt64 :=
  if s.target_pid ≠ 0 then some s.target_pid else none

def has_registered_target_process (s : State) : Bool :=
  s.target_pid != 0 && s.routing_public != .Unregistered

def resume_identity_unarmed (s : State) : Bool :=
  s.routing_public != .DualDispatch && s.resume_target == 0

/-- The recipe a convention asks for; `SelectorDispatch` leaves it to the host. -/
def recipe_of (convention : SyscallConvention) (host : HostReply) : KuserRecipe :=
  match convention with
  | .ResumeReplay => .Resume
  | .SelectorDispatch => host.selector_kuser_recipe
  | .DualDispatch => .Dispatch

def kuser_recipe (s : State) (host : HostReply) : KuserRecipe × List HostCall :=
  (recipe_of s.syscall_convention host,
    if s.syscall_convention = .SelectorDispatch then [.selector_kuser_recipe] else [])

/-- The end of `route_syscall`: a zero target is no route. -/
def route_to (selected : UInt64) (rax_is_resume : Bool) : Option SyscallRoute :=
  if selected ≠ 0 then some ⟨selected, rax_is_resume⟩ else none

def route_syscall (s : State) (number : UInt64) (r10 : Int64) (rcx : UInt64) :
    Option SyscallRoute :=
  -- The other two transient words are let through: a promotion keeps the old convention until
  -- it stores the new one, and a first registration is routed while its words are being stored.
  if s.routing = .Unregistered ∨ s.routing = .RegisteringDualDispatch then none
  else
    match s.syscall_convention with
    | .ResumeReplay => route_to s.resume_target true
    | .SelectorDispatch =>
      if number ∉ SINGLE_DISPATCH_SELECTORS ∨ rcx > USER_RCX_MAX then none
      else route_to s.resume_target false
    | .DualDispatch =>
      if number = DISPATCH_BYPASS_SYSCALL then none
      -- An unset id is the word `u32::MAX`, which a number can have as its low half.
      else if number.toUInt32 = s.dispatch.system_id then
        if r10 ≠ 0 ∨ rcx > USER_RCX_MAX then none
        else route_to s.dispatch.system_target false
      else if number.toUInt32 = s.dispatch.attributes_id ∧ rcx ≤ USER_RCX_MAX then
        route_to s.dispatch.attributes_target false
      else none

/-! ## Transitions -/

/-- `for _ in 0..n { if !transient { return true } yield }`, then `false`. -/
def wait_loop (s : State) : ℕ → Bool × List HostCall
  | 0 => (false, [])
  | n + 1 =>
    if !s.routing.transient then (true, [])
    else ((s.wait_loop n).1, .yield_thread :: (s.wait_loop n).2)

def wait_for_transition (s : State) : Bool × List HostCall := s.wait_loop TRANSITION_WAIT_LIMIT

/-- The end of `activate_dual_dispatch`, once the compare-exchange has taken
the routing word. -/
def enter_dual_dispatch (s : State) : State :=
  { s with
    routing := .DualDispatch
    syscall_convention := .DualDispatch
    dispatch :=
      { s.dispatch with
        system_target :=
          if s.dispatch.system_target = 0 then s.resume_target else s.dispatch.system_target } }

/-- `activate_dual_dispatch`. A lone caller that finds a transient word cannot
see it change, so its wait runs out. -/
def activate_dual_dispatch (s : State) : Bool × State × List HostCall :=
  match s.routing with
  | .DualDispatch => (true, s, [])
  | .Unregistered | .ResumeTarget =>
    (true, s.enter_dual_dispatch,
      [.select_legacy_presentation,
        .log "reflex CPU presentation=legacy dual-dispatch",
        .log "reflex routing=dual-dispatch active"])
  | .RegisteringResumeTarget | .RegisteringDualDispatch | .PromotingDualDispatch =>
    (false, s, s.wait_for_transition.2)

def register_resume_target (s : State) (target : UInt64) (host : HostReply) :
    Bool × State × List HostCall :=
  match s.routing with
  | .DualDispatch =>
    (true, { s with dispatch := { s.dispatch with system_target := target } }, [])
  | .ResumeTarget =>
    -- Patched first: a failure has stored nothing.
    if host.patch_kuser then
      (true, { s with resume_target := target },
        (s.kuser_recipe host).2 ++
          [.patch_kuser (s.kuser_recipe host).1,
            .log "reflex routing=resume-target registered",
            .log_hex "reflex resume handler=" target])
    else
      (false, s,
        (s.kuser_recipe host).2 ++
          [.patch_kuser (s.kuser_recipe host).1, .log "reflex KUSER patch failed"])
  | .Unregistered =>
    (true,
      { s with
        routing := .ResumeTarget
        resume_target := target
        syscall_convention :=
          if host.legacy_presentation_active then .SelectorDispatch
          else s.syscall_convention },
      [.legacy_presentation_active,
        .log "reflex routing=resume-target registered",
        .log_hex "reflex resume handler=" target])
  | .RegisteringResumeTarget | .RegisteringDualDispatch | .PromotingDualDispatch =>
    (false, s, s.wait_for_transition.2)

/-- The store a dual-dispatch leaf makes after `activate_dual_dispatch`. -/
def register_dual (s : State) (leaf : Leaf) (argument : UInt64) : State :=
  match leaf with
  | .register_system_syscall_id =>
    { s with dispatch := { s.dispatch with system_id := argument.toUInt32 } }
  | .register_attributes_handler =>
    { s with dispatch := { s.dispatch with attributes_target := argument } }
  | .register_attributes_syscall_id =>
    { s with dispatch := { s.dispatch with attributes_id := argument.toUInt32 } }
  | _ => s

def log_control (leaf : UInt32) (argument : UInt64) : List HostCall :=
  [.log_hex "reflex control leaf=" leaf.toUInt64, .log_hex "reflex control argument=" argument]

/-- The compare-exchange of REGISTER_RESUME_HANDLER on the identity word. -/
def infer_identity (s : State) : State × List HostCall :=
  if s.identity = .Unobserved then
    ({ s with identity := .DebugRegisterThread },
      [.log "reflex debug-register thread identity inferred"])
  else (s, [])

/-- The log line REGISTER_TARGET_PID writes for its recipe. -/
def recipe_text : KuserRecipe → String
  | .Dispatch => "reflex KUSER recipe=dispatch"
  | .Selector => "reflex KUSER recipe=selector"
  | .Resume => "reflex KUSER recipe=resume"

/-- One dual-dispatch leaf: activate, then store. -/
def handle_dual (s : State) (leaf : UInt32) (argument : UInt64) :
    Action × State × List HostCall :=
  match s.activate_dual_dispatch with
  | (false, s', calls) => (.Native, s', log_control leaf argument ++ calls)
  | (true, s', calls) =>
    (.Consumed, s'.register_dual (Leaf.decode leaf) argument, log_control leaf argument ++ calls)

def handle_cpuid (s : State) (leaf : UInt32) (rcx rdx : UInt64) (host : HostReply) :
    Action × State × List HostCall :=
  let argument := cpuid_argument leaf rcx rdx
  match Leaf.decode leaf with
  | .arm_target_cr3 =>
    let s' := { s with identity := .Process }
    if s'.routing_public = .ResumeTarget then (.Native, s', log_control leaf argument)
    else (.Consumed, s', log_control leaf argument ++ [.log "reflex CR3 identity armed"])
  | .client_session_marker => (.Native, s, log_control leaf argument)
  | .register_resume_handler =>
    -- The identity is a word of its own, and is set even when the registration fails.
    let (s₁, inferred) := s.infer_identity
    let routed :=
      if s₁.routing_public = .Unregistered then [.log "reflex routing=resume-target inferred"]
      else []
    let (registered, s₂, calls) := s₁.register_resume_target argument host
    (if registered then .Consumed else .Native, s₂,
      log_control leaf argument ++ inferred ++ [.set_hwprofile_guid] ++ routed ++ calls)
  | .set_time => (.Consumed, s, log_control leaf argument ++ [.set_offset (argument <<< 32)])
  | .register_target_pid =>
    if s.routing_public = .Unregistered then (.Native, s, [])
    else
      -- Stored first: a patch that fails below leaves the pid behind.
      let s' := { s with target_pid := argument }
      let (recipe, asked) := s'.kuser_recipe host
      let calls :=
        [.log_hex "reflex target pid=" argument] ++ asked ++
          [.log (recipe_text recipe), .patch_kuser recipe]
      if host.patch_kuser then (.Consumed, s', calls ++ [.log "reflex KUSER patch ready"])
      else (.Native, s', calls ++ [.log "reflex KUSER patch failed"])
  | .register_system_syscall_id
  | .register_attributes_handler
  | .register_attributes_syscall_id => s.handle_dual leaf argument
  | .other => (.Native, s, [])

end State

end Linuwux.Reflex
