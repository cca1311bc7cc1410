/-
`ReflexHistory.lean` -- what a handshake, taken as a whole, makes of a syscall.

`State` is six words that eight leaves update through two transition helpers.
Here the control leaves are handled one at a time and the state they lead to is
read off the list of them: `route_syscall_after` gives every route as a function
of the leaves and of what the host answered, with no word of `State` left in it,
and `native_leaves_registrations_iff` says exactly which handshakes keep the promise
that a leaf answered `Native` has registered nothing.

Histories are listed **newest first**, so that "the last registered id" is the
first one found and a leaf is judged against the list behind it.
-/
import Linuwux.ReflexState
import Mathlib.Data.List.Infix

set_option autoImplicit false

namespace Linuwux.Reflex

/-- One control leaf as `handle_cpuid` receives it, with the host's answers. -/
structure Control where
  leaf : UInt32
  rcx : UInt64
  rdx : UInt64
  host : HostReply
  deriving DecidableEq, Repr

namespace State

/-- The state after a history, newest leaf first. -/
def after : List Control → State
  | [] => .new
  | c :: older => ((after older).handle_cpuid c.leaf c.rcx c.rdx c.host).2.1

/-- The answer to a leaf that arrives after `older`. -/
def answer (older : List Control) (c : Control) : Action :=
  ((after older).handle_cpuid c.leaf c.rcx c.rdx c.host).1

end State

/-! ## The history as the registrations it holds -/

/-- The three leaves that activate dual dispatch. -/
def Control.is_dual (c : Control) : Bool :=
  c.leaf = REGISTER_SYSTEM_SYSCALL_ID || c.leaf = REGISTER_ATTRIBUTES_HANDLER ||
    c.leaf = REGISTER_ATTRIBUTES_SYSCALL_ID

def Control.is_resume (c : Control) : Bool := c.leaf = REGISTER_RESUME_HANDLER

/-- REGISTER_RESUME_HANDLER is accepted when it is the first one, when a dual
leaf came before it, and otherwise when `patch_kuser` returned true. -/
def Control.accepted (older : List Control) (c : Control) : Bool :=
  c.is_resume && (!older.any Control.is_resume || older.any Control.is_dual || c.host.patch_kuser)

/-- The RCX of the last accepted REGISTER_RESUME_HANDLER, 0 if there is none. -/
def handler : List Control → UInt64
  | [] => 0
  | c :: older => if c.accepted older then c.rcx else handler older

/-- The RCX of the last leaf numbered `leaf`. -/
def last_rcx (leaf : UInt32) (h : List Control) : Option UInt64 :=
  (h.find? fun c => c.leaf = leaf).map Control.rcx

def last_system_id (h : List Control) : UInt32 :=
  ((last_rcx REGISTER_SYSTEM_SYSCALL_ID h).map UInt64.toUInt32).getD U32_MAX

def last_attributes_id (h : List Control) : UInt32 :=
  ((last_rcx REGISTER_ATTRIBUTES_SYSCALL_ID h).map UInt64.toUInt32).getD U32_MAX

def last_attributes_target (h : List Control) : UInt64 :=
  (last_rcx REGISTER_ATTRIBUTES_HANDLER h).getD 0

/-- The first REGISTER_RESUME_HANDLER of the handshake. -/
def first_resume (h : List Control) : Option Control := h.reverse.find? Control.is_resume

/-- The route of a syscall as a function of the history. -/
def history_route (h : List Control) (number : UInt64) (r10 : Int64) (rcx : UInt64) :
    Option SyscallRoute :=
  -- Dual dispatch, whatever the order in which its leaves and the handler came.
  if h.any Control.is_dual then
    if number = 0x7fffffffffff then none
    else if number.toUInt32 = last_system_id h then
      if r10 = 0 ∧ rcx ≤ 0x7fffffffffff ∧ handler h ≠ 0 then some ⟨handler h, false⟩ else none
    else if number.toUInt32 = last_attributes_id h ∧ rcx ≤ 0x7fffffffffff
        ∧ last_attributes_target h ≠ 0 then
      some ⟨last_attributes_target h, false⟩
    else none
  else
    match first_resume h with
    | none => none
    | some first =>
      -- The convention is chosen once, by the first registration.
      if first.host.legacy_presentation_active then
        if handler h ≠ 0 ∧ (number = 0x13371337 ∨ number = 0x13371338)
            ∧ rcx ≤ 0x7fffffffffff then
          some ⟨handler h, false⟩
        else none
      else if handler h ≠ 0 then some ⟨handler h, true⟩
      else none

/-! ## The words are the registrations -/

/-- What the words of `State` are after a history. Before the first dual leaf the
handler lives in `resume_target`, afterwards in `system_target`. -/
structure Describes (h : List Control) (s : State) : Prop where
  routing : s.routing =
    if h.any Control.is_dual then .DualDispatch
    else if h.any Control.is_resume then .ResumeTarget else .Unregistered
  convention : s.syscall_convention =
    if h.any Control.is_dual then .DualDispatch
    else if ((first_resume h).map fun c => c.host.legacy_presentation_active) = some true then
      .SelectorDispatch
    else .ResumeReplay
  resume_target : h.any Control.is_dual = false → s.resume_target = handler h
  system_target : s.dispatch.system_target = if h.any Control.is_dual then handler h else 0
  system_id : s.dispatch.system_id = last_system_id h
  attributes_target : s.dispatch.attributes_target = last_attributes_target h
  attributes_id : s.dispatch.attributes_id = last_attributes_id h

theorem first_resume_cons (c : Control) (h : List Control) :
    first_resume (c :: h) = (first_resume h).or (if c.is_resume then some c else none) := by
  unfold first_resume
  rw [List.reverse_cons, List.find?_append]
  cases hc : c.is_resume <;> simp [hc]

theorem first_resume_isSome (h : List Control) :
    (first_resume h).isSome = h.any Control.is_resume := by
  rw [Bool.eq_iff_iff, first_resume, List.find?_isSome]
  simp

theorem last_rcx_cons (leaf : UInt32) (c : Control) (h : List Control) :
    last_rcx leaf (c :: h) = if c.leaf = leaf then some c.rcx else last_rcx leaf h := by
  unfold last_rcx
  rw [List.find?_cons]
  by_cases hc : c.leaf = leaf <;> simp [hc]

/-- A leaf that is neither a resume handler nor a dual leaf adds nothing to the
history's registrations. -/
theorem describes_neutral {h : List Control} {c : Control} {s s' : State} (hs : Describes h s)
    (hd : c.is_dual = false) (hr : c.is_resume = false)
    (hrt : s'.routing = s.routing) (hcv : s'.syscall_convention = s.syscall_convention)
    (hrs : s'.resume_target = s.resume_target) (hdp : s'.dispatch = s.dispatch) :
    Describes (c :: h) s' := by
  have hl := hd
  simp only [Control.is_dual, Bool.or_eq_false_iff, decide_eq_false_iff_not] at hl
  obtain ⟨⟨hl1, hl2⟩, hl3⟩ := hl
  constructor
  · simp [hrt, hs.routing, hd, hr]
  · simp [hcv, hs.convention, hd, hr, first_resume_cons]
  · simpa [hrs, hd, handler, Control.accepted, hr] using hs.resume_target
  · simp [hdp, hs.system_target, hd, handler, Control.accepted, hr]
  · simp [hdp, hs.system_id, last_system_id, last_rcx_cons, hl1]
  · simp [hdp, hs.attributes_target, last_attributes_target, last_rcx_cons, hl2]
  · simp [hdp, hs.attributes_id, last_attributes_id, last_rcx_cons, hl3]

/-- The identity word takes no part in the description. -/
theorem Describes.infer_identity {h : List Control} {s : State} (hs : Describes h s) :
    Describes h s.infer_identity.1 := by
  unfold State.infer_identity
  split
  · exact ⟨hs.1, hs.2, hs.3, hs.4, hs.5, hs.6, hs.7⟩
  · exact hs

/-- REGISTER_RESUME_HANDLER moves the handler to its RCX when it is accepted, and
the first one of the handshake also fixes the convention. -/
theorem describes_resume {h : List Control} {c : Control} {s : State} (hs : Describes h s)
    (hc : c.leaf = REGISTER_RESUME_HANDLER) :
    Describes (c :: h) (s.register_resume_target c.rcx c.host).2.1 := by
  have hr : c.is_resume = true := by simp [Control.is_resume, hc]
  have hd : c.is_dual = false := by simp only [Control.is_dual, hc]; decide
  have hids : last_system_id (c :: h) = last_system_id h
      ∧ last_attributes_target (c :: h) = last_attributes_target h
      ∧ last_attributes_id (c :: h) = last_attributes_id h := by
    simp only [last_system_id, last_attributes_target, last_attributes_id, last_rcx_cons, hc]
    exact ⟨rfl, rfl, rfl⟩
  have hsome := first_resume_isSome h
  have hrt := hs.routing
  cases hdual : h.any Control.is_dual with
  | true =>
    simp only [hdual, if_true] at hrt
    have hacc : c.accepted h = true := by simp [Control.accepted, hr, hdual]
    unfold State.register_resume_target
    rw [hrt]
    refine ⟨?_, ?_, ?_, ?_, ?_, ?_, ?_⟩
    · simp [hd, hdual]
    · simp [hs.convention, hd, hdual]
    · simp [hd, hdual]
    · simp [hd, hdual, handler, hacc]
    · simp [hids, hs.system_id]
    · simp [hids, hs.attributes_target]
    · simp [hids, hs.attributes_id]
  | false =>
    have hst := hs.system_target
    simp only [hdual, Bool.false_eq_true, if_false] at hrt hst
    cases hres : h.any Control.is_resume with
    | true =>
      -- Between the first registration and the first dual leaf: the KUSER patch decides.
      simp only [hres, if_true] at hrt
      obtain ⟨first, hfirst⟩ := Option.isSome_iff_exists.mp (hsome.trans hres)
      have hcv := hs.convention
      simp only [hdual, hfirst, Option.map_some, Option.some.injEq] at hcv
      have hacc : c.accepted h = c.host.patch_kuser := by
        simp [Control.accepted, hr, hdual, hres]
      unfold State.register_resume_target
      rw [hrt]
      cases hp : c.host.patch_kuser with
      | true =>
        refine ⟨?_, ?_, ?_, ?_, ?_, ?_, ?_⟩
        · simp [hd, hdual, hr]
        · simp [hcv, hd, hdual, first_resume_cons, hfirst]
        · simp [handler, hacc, hp]
        · simp [hst, hd, hdual]
        · simp [hids, hs.system_id]
        · simp [hids, hs.attributes_target]
        · simp [hids, hs.attributes_id]
      | false =>
        refine ⟨?_, ?_, ?_, ?_, ?_, ?_, ?_⟩
        · simp [hrt, hd, hdual, hr]
        · simp [hcv, hd, hdual, first_resume_cons, hfirst]
        · simp [handler, hacc, hp, hs.resume_target hdual]
        · simp [hst, hd, hdual]
        · simp [hids, hs.system_id]
        · simp [hids, hs.attributes_target]
        · simp [hids, hs.attributes_id]
    | false =>
      simp only [hres, Bool.false_eq_true, if_false] at hrt
      have hnone : first_resume h = none := by
        rw [← Option.isSome_eq_false_iff.trans Option.isNone_iff_eq_none, hsome, hres]
      have hcv := hs.convention
      simp only [hdual, hnone, Option.map_none] at hcv
      have hacc : c.accepted h = true := by simp [Control.accepted, hr, hres]
      unfold State.register_resume_target
      rw [hrt]
      refine ⟨?_, ?_, ?_, ?_, ?_, ?_, ?_⟩
      · simp [hd, hdual, hr]
      · simp [hcv, hd, hdual, first_resume_cons, hnone, hr]
      · simp [handler, hacc]
      · simp [hst, hd, hdual]
      · simp [hids, hs.system_id]
      · simp [hids, hs.attributes_target]
      · simp [hids, hs.attributes_id]

/-- `activate_dual_dispatch` after a history succeeds and hands the handler over
to `system_target`. -/
theorem describes_activate {h : List Control} {s : State} (hs : Describes h s) :
    s.activate_dual_dispatch.1 = true
      ∧ s.activate_dual_dispatch.2.1.routing = .DualDispatch
      ∧ s.activate_dual_dispatch.2.1.syscall_convention = .DualDispatch
      ∧ s.activate_dual_dispatch.2.1.dispatch =
          { s.dispatch with system_target := handler h } := by
  have hrt := hs.routing
  have hcv := hs.convention
  have hst := hs.system_target
  unfold State.activate_dual_dispatch
  cases hdual : h.any Control.is_dual with
  | true =>
    -- It is active already, and the handler is where it belongs.
    simp only [hdual, if_true] at hrt hcv hst
    rw [hrt]
    exact ⟨rfl, hrt, hcv, by rw [← hst]⟩
  | false =>
    -- `system_target` is still zero, so what it takes over is `resume_target`.
    have hrs := hs.resume_target hdual
    simp only [hdual, Bool.false_eq_true, if_false] at hrt hst
    cases hres : h.any Control.is_resume <;> simp only [hres, if_true, Bool.false_eq_true,
      if_false] at hrt <;> rw [hrt] <;> simp [State.enter_dual_dispatch, hst, hrs]

/-- A dual leaf activates dual dispatch and stores its own registration. -/
theorem describes_dual {h : List Control} {c : Control} {s : State} (hs : Describes h s)
    (hc : c.is_dual = true) :
    Describes (c :: h) (s.handle_dual c.leaf c.rcx).2.1 := by
  obtain ⟨hok, hrt, hcv, hdp⟩ := describes_activate hs
  have hr : c.is_resume = false := by
    simp only [Control.is_dual, Bool.or_eq_true, decide_eq_true_eq] at hc
    simp only [Control.is_resume]
    rcases hc with (hc | hc) | hc <;> rw [hc] <;> decide
  have hacc : c.accepted h = false := by simp [Control.accepted, hr]
  unfold State.handle_dual
  rcases hact : s.activate_dual_dispatch with ⟨ok, s', calls⟩
  rw [hact] at hok hrt hcv hdp
  simp only at hok hrt hcv hdp
  subst hok
  have hsid := hs.system_id
  have hat := hs.attributes_target
  have haid := hs.attributes_id
  have hc' := hc
  simp only [Control.is_dual, Bool.or_eq_true, decide_eq_true_eq] at hc'
  -- The three leaves differ in the one registration they store.
  rcases hc' with (hl | hl) | hl <;>
  · simp only [hl, State.register_dual, show Leaf.decode REGISTER_SYSTEM_SYSCALL_ID =
        .register_system_syscall_id by decide, show Leaf.decode REGISTER_ATTRIBUTES_HANDLER =
        .register_attributes_handler by decide, show Leaf.decode REGISTER_ATTRIBUTES_SYSCALL_ID =
        .register_attributes_syscall_id by decide]
    refine ⟨?_, ?_, ?_, ?_, ?_, ?_, ?_⟩
    · simp [hrt, hc]
    · simp [hcv, hc]
    · simp [hc]
    · simp [hdp, hc, handler, hacc]
    · simp [hdp, hsid, last_system_id, last_rcx_cons, hl, REGISTER_SYSTEM_SYSCALL_ID,
        REGISTER_ATTRIBUTES_HANDLER, REGISTER_ATTRIBUTES_SYSCALL_ID]
    · simp [hdp, hat, last_attributes_target, last_rcx_cons, hl, REGISTER_SYSTEM_SYSCALL_ID,
        REGISTER_ATTRIBUTES_HANDLER, REGISTER_ATTRIBUTES_SYSCALL_ID]
    · simp [hdp, haid, last_attributes_id, last_rcx_cons, hl, REGISTER_SYSTEM_SYSCALL_ID,
        REGISTER_ATTRIBUTES_HANDLER, REGISTER_ATTRIBUTES_SYSCALL_ID]

/-- A leaf that is no resume handler and no dual leaf leaves every word the
description reads. -/
theorem handle_cpuid_neutral (s : State) (c : Control) (hd : c.is_dual = false)
    (hr : c.is_resume = false) :
    let s' := (s.handle_cpuid c.leaf c.rcx c.rdx c.host).2.1
    s'.routing = s.routing ∧ s'.syscall_convention = s.syscall_convention
      ∧ s'.resume_target = s.resume_target ∧ s'.dispatch = s.dispatch := by
  simp only [Control.is_dual, Bool.or_eq_false_iff, decide_eq_false_iff_not] at hd
  simp only [Control.is_resume, decide_eq_false_iff_not] at hr
  obtain ⟨⟨hd1, hd2⟩, hd3⟩ := hd
  unfold State.handle_cpuid
  cases hl : Leaf.decode c.leaf with
  | register_resume_handler => exact absurd ((decode_register_resume_handler _).mp hl) hr
  | register_system_syscall_id =>
    exact absurd (Option.some.inj (Leaf.number_of_decode hl nofun)).symm hd1
  | register_attributes_handler =>
    exact absurd (Option.some.inj (Leaf.number_of_decode hl nofun)).symm hd2
  | register_attributes_syscall_id =>
    exact absurd (Option.some.inj (Leaf.number_of_decode hl nofun)).symm hd3
  | arm_target_cr3 => dsimp only; split <;> exact ⟨rfl, rfl, rfl, rfl⟩
  | register_target_pid =>
    dsimp only
    split
    · exact ⟨rfl, rfl, rfl, rfl⟩
    · split <;> exact ⟨rfl, rfl, rfl, rfl⟩
  | client_session_marker => exact ⟨rfl, rfl, rfl, rfl⟩
  | set_time => exact ⟨rfl, rfl, rfl, rfl⟩
  | other => exact ⟨rfl, rfl, rfl, rfl⟩

theorem handle_cpuid_resume (s : State) {c : Control} (hc : c.leaf = REGISTER_RESUME_HANDLER) :
    (s.handle_cpuid c.leaf c.rcx c.rdx c.host).2.1
      = (s.infer_identity.1.register_resume_target c.rcx c.host).2.1 := by
  have harg : cpuid_argument REGISTER_RESUME_HANDLER c.rcx c.rdx = c.rcx := by
    unfold cpuid_argument
    exact if_neg (by decide)
  unfold State.handle_cpuid
  rw [hc, (decode_register_resume_handler _).mpr rfl, harg]

theorem handle_cpuid_dual (s : State) {c : Control} (hc : c.is_dual = true) :
    s.handle_cpuid c.leaf c.rcx c.rdx c.host = s.handle_dual c.leaf c.rcx := by
  simp only [Control.is_dual, Bool.or_eq_true, decide_eq_true_eq] at hc
  unfold State.handle_cpuid cpuid_argument
  rcases hc with (hc | hc) | hc <;> rw [hc] <;> rfl

/-- **The description holds after every history.** -/
theorem describes_after (h : List Control) : Describes h (State.after h) := by
  -- On the history, newest leaf first, so that the last leaf is the one the step is about.
  induction h with
  | nil => exact ⟨rfl, rfl, fun _ => rfl, rfl, rfl, rfl, rfl⟩
  | cons c older ih =>
    rw [State.after]
    cases hr : c.is_resume with
    | true =>
      have hc : c.leaf = REGISTER_RESUME_HANDLER := by simpa [Control.is_resume] using hr
      rw [handle_cpuid_resume _ hc]
      exact describes_resume ih.infer_identity hc
    | false =>
      cases hd : c.is_dual with
      | true =>
        rw [handle_cpuid_dual _ hd]
        exact describes_dual ih hd
      | false =>
        obtain ⟨h1, h2, h3, h4⟩ := handle_cpuid_neutral (State.after older) c hd hr
        exact describes_neutral ih hd hr h1 h2 h3 h4

/-! ## The route of a whole handshake -/

/-- **Every route is a function of the history.** -/
theorem route_syscall_after (h : List Control) (number : UInt64) (r10 : Int64) (rcx : UInt64) :
    (State.after h).route_syscall number r10 rcx = history_route h number r10 rcx := by
  have hs := describes_after h
  have hrt := hs.routing
  have hcv := hs.convention
  unfold State.route_syscall history_route State.route_to
  cases hdual : h.any Control.is_dual with
  | true =>
    have hst := hs.system_target
    simp only [hdual, if_true] at hrt hcv hst
    simp only [hrt, hcv, hst, hs.system_id, hs.attributes_id, hs.attributes_target,
      DISPATCH_BYPASS_SYSCALL, USER_RCX_MAX]
    grind
  | false =>
    have hrs := hs.resume_target hdual
    have hsome := first_resume_isSome h
    simp only [hdual, Bool.false_eq_true, if_false] at hrt hcv
    cases hfirst : first_resume h with
    | none =>
      rw [hfirst, Option.isSome_none] at hsome
      simp [hrt, ← hsome]
    | some first =>
      rw [hfirst, Option.isSome_some] at hsome
      simp only [hfirst, Option.map_some, Option.some.injEq] at hcv
      simp only [← hsome, if_true] at hrt
      simp only [hrt, hcv, hrs, SINGLE_DISPATCH_SELECTORS, USER_RCX_MAX]
      grind

/-! ## Leaves answered `Native`

A leaf that failed should have registered nothing. The five REGISTER_* leaves
have their failure exits at different points among their stores:
`register_resume_target` asks for the KUSER patch before it stores the handler,
REGISTER_TARGET_PID stores the pid first. -/

/-- The words a registration writes. -/
def State.registrations (s : State) :
    RoutingState × SyscallConvention × UInt64 × UInt64 × DispatchRegistrations :=
  (s.routing, s.syscall_convention, s.resume_target, s.target_pid, s.dispatch)

/-- The five REGISTER_* leaves. -/
def Control.registers (c : Control) : Bool :=
  c.is_resume || c.leaf = REGISTER_TARGET_PID || c.is_dual

/-- If `s` answers the registration `c` with `Native`, it is left as it was. -/
def NativeKeeps (s : State) (c : Control) : Prop :=
  c.registers = true → (s.handle_cpuid c.leaf c.rcx c.rdx c.host).1 = .Native →
    (s.handle_cpuid c.leaf c.rcx c.rdx c.host).2.1.registrations = s.registrations

/-- `c` is not a REGISTER_TARGET_PID that finds the process registered, carries
another pid than the one stored, and whose KUSER patch fails. -/
def PidPatched (s : State) (c : Control) : Prop :=
  ¬(c.leaf = REGISTER_TARGET_PID ∧ s.routing_public ≠ .Unregistered
    ∧ c.host.patch_kuser = false ∧ c.rdx ≠ s.target_pid)

/-- Some REGISTER_TARGET_PID with nonzero RDX was answered `Consumed`. -/
def PidConsumed (h : List Control) : Prop :=
  ∃ c older, c :: older <:+ h ∧ c.leaf = REGISTER_TARGET_PID ∧ c.rdx ≠ 0
    ∧ State.answer older c = .Consumed

/-- At every point of the handshake, a registered target process was registered
by a consumed REGISTER_TARGET_PID. -/
def RegisteredByConsumed (h : List Control) : Prop :=
  ∀ h', h' <:+ h → (State.after h').has_registered_target_process = true → PidConsumed h'

theorem register_resume_target_native {s : State} {target : UInt64} {host : HostReply}
    (h : (s.register_resume_target target host).1 = false) :
    (s.register_resume_target target host).2.1 = s := by
  unfold State.register_resume_target at h ⊢
  split at h
  · cases h
  · split at h
    · cases h
    · rename_i hp
      simp [hp]
  · cases h
  · rfl
  · rfl
  · rfl

theorem handle_dual_native {s : State} {leaf : UInt32} {argument : UInt64}
    (h : (s.handle_dual leaf argument).1 = .Native) :
    (s.handle_dual leaf argument).2.1 = s := by
  unfold State.handle_dual State.activate_dual_dispatch at h ⊢
  cases hr : s.routing <;> simp_all

/-- A single call keeps its promise exactly when it is not that REGISTER_TARGET_PID.
`s` is any content of the words, so the transition a dual leaf or a resume handler
waits out in vain is among them. -/
theorem nativeKeeps_iff (s : State) (c : Control) : NativeKeeps s c ↔ PidPatched s c := by
  unfold NativeKeeps PidPatched
  cases hr : c.is_resume with
  | true =>
    have hc : c.leaf = REGISTER_RESUME_HANDLER := by simpa [Control.is_resume] using hr
    have hne : c.leaf ≠ REGISTER_TARGET_PID := by rw [hc]; decide
    -- A refused handler has stored nothing but the identity, which is no registration.
    refine iff_of_true (fun _ hn => ?_) (fun h => hne h.1)
    rw [handle_cpuid_resume s hc]
    have hfail : (s.infer_identity.1.register_resume_target c.rcx c.host).1 = false := by
      unfold State.handle_cpuid cpuid_argument at hn
      rw [(decode_register_resume_handler _).mpr hc, if_neg hne] at hn
      simpa using hn
    rw [register_resume_target_native hfail]
    unfold State.infer_identity
    split <;> rfl
  | false =>
    cases hd : c.is_dual with
    | true =>
      have hne : c.leaf ≠ REGISTER_TARGET_PID := by
        simp only [Control.is_dual, Bool.or_eq_true, decide_eq_true_eq] at hd
        rcases hd with (hd | hd) | hd <;> rw [hd] <;> decide
      refine iff_of_true (fun _ hn => ?_) (fun h => hne h.1)
      rw [handle_cpuid_dual s hd] at hn ⊢
      rw [handle_dual_native hn]
    | false =>
      -- The one leaf with two ways to be answered `Native`, before and after its store.
      by_cases hc : c.leaf = REGISTER_TARGET_PID
      · have hreg : c.registers = true := by simp [Control.registers, hc]
        unfold State.handle_cpuid cpuid_argument
        rw [(decode_register_target_pid _).mpr hc, if_pos hc]
        dsimp only
        by_cases hu : s.routing_public = .Unregistered
        · simp [hu]
        · cases hp : c.host.patch_kuser <;> simp [hu, hc, hreg, State.registrations]
      · refine iff_of_true (fun hreg => ?_) (fun h => hc h.1)
        simp [Control.registers, hr, hd, hc] at hreg

/-- The stored pid moves only under a REGISTER_TARGET_PID, to its RDX. -/
theorem target_pid_after_cons (c : Control) (older : List Control) :
    (State.after (c :: older)).target_pid = (State.after older).target_pid
      ∨ c.leaf = REGISTER_TARGET_PID ∧ (State.after older).routing_public ≠ .Unregistered
        ∧ (State.after (c :: older)).target_pid = c.rdx
        ∧ (c.host.patch_kuser = true → State.answer older c = .Consumed) := by
  rw [State.after, State.answer]
  cases hl : Leaf.decode c.leaf with
  | register_target_pid =>
    have hc := (decode_register_target_pid _).mp hl
    unfold State.handle_cpuid cpuid_argument
    rw [hl, if_pos hc]
    dsimp only
    by_cases hu : (State.after older).routing_public = .Unregistered
    · simp [hu]
    · refine Or.inr ⟨hc, hu, ?_⟩
      cases hp : c.host.patch_kuser <;> simp [hu]
  | arm_target_cr3 =>
    left
    unfold State.handle_cpuid
    rw [hl]
    dsimp only
    split <;> rfl
  | register_resume_handler =>
    left
    rw [handle_cpuid_resume _ ((decode_register_resume_handler _).mp hl)]
    unfold State.register_resume_target State.infer_identity
    grind
  | client_session_marker | set_time | other =>
    left
    unfold State.handle_cpuid
    rw [hl]
  | register_system_syscall_id | register_attributes_handler | register_attributes_syscall_id =>
    left
    unfold State.handle_cpuid State.handle_dual State.activate_dual_dispatch State.register_dual
    rw [hl]
    cases hr : (State.after older).routing <;> simp [State.enter_dual_dispatch]

theorem PidConsumed.cons {h : List Control} (hk : PidConsumed h) (c : Control) :
    PidConsumed (c :: h) := by
  obtain ⟨d, older, hs, hd⟩ := hk
  exact ⟨d, older, hs.trans (List.suffix_cons c h), hd⟩

/-- Without such a failed REGISTER_TARGET_PID, a nonzero pid was consumed. -/
theorem pidConsumed_of_target_pid {h : List Control}
    (hp : ∀ c older, c :: older <:+ h → PidPatched (State.after older) c)
    (hpid : (State.after h).target_pid ≠ 0) : PidConsumed h := by
  induction h with
  | nil => exact absurd rfl hpid
  | cons c older ih =>
    have hold := ih fun d o ho => hp d o (ho.trans (List.suffix_cons c older))
    rcases target_pid_after_cons c older with heq | ⟨hc, hreg, heq, hcon⟩
    · exact (hold (heq ▸ hpid)).cons c
    · by_cases hrdx : c.rdx = (State.after older).target_pid
      · exact (hold (hrdx ▸ heq ▸ hpid)).cons c
      · have hpatch : c.host.patch_kuser = true := by
          by_contra hf
          exact hp c older (List.suffix_refl _) ⟨hc, hreg, by simpa using hf, hrdx⟩
        exact ⟨c, older, List.suffix_refl _, hc, heq ▸ hpid, hcon hpatch⟩

/-- **When a failed registration registers nothing.** A handshake has its target
process registered by a consumed leaf only, and every REGISTER_* leaf it answers
`Native` leaves the registrations alone, if and only if no REGISTER_TARGET_PID of it
replaces the pid and then fails its KUSER patch; the same condition decides
it for a single call on arbitrary words. -/
theorem native_leaves_registrations_iff (h : List Control) (s : State) (c : Control) :
    ((RegisteredByConsumed h ∧ ∀ c older, c :: older <:+ h → NativeKeeps (State.after older) c)
        ↔ ∀ c older, c :: older <:+ h → PidPatched (State.after older) c)
      ∧ (NativeKeeps s c ↔ PidPatched s c) := by
  refine ⟨⟨fun hk c older hc => (nativeKeeps_iff _ c).mp (hk.2 c older hc), fun hp => ⟨?_, ?_⟩⟩,
    nativeKeeps_iff s c⟩
  · intro h' hh' hreg
    refine pidConsumed_of_target_pid (fun c older hc => hp c older (hc.trans hh')) ?_
    intro hzero
    simp [State.has_registered_target_process, hzero] at hreg
  · intro c older hc
    exact (nativeKeeps_iff _ c).mpr (hp c older hc)

/-- `336933` with a handler, then `1337` with pid 0x150 whose KUSER patch fails. -/
def failed_pid : List Control :=
  [⟨REGISTER_TARGET_PID, 0, 0x150, ⟨false, .Selector, false⟩⟩,
    ⟨REGISTER_RESUME_HANDLER, 0x1000, 0, ⟨false, .Selector, true⟩⟩]

/-- The pid stays behind: the process counts as registered although no
REGISTER_TARGET_PID was consumed, and the failed leaf has changed a word. -/
theorem failed_pid_registers :
    ¬RegisteredByConsumed failed_pid
      ∧ ¬∀ c older, c :: older <:+ failed_pid → NativeKeeps (State.after older) c := by
  constructor
  · intro h
    obtain ⟨c, older, hs, hc, -, hcon⟩ := h failed_pid (List.suffix_refl _) (by decide)
    simp only [failed_pid, List.suffix_cons_iff, List.cons.injEq, List.suffix_nil, reduceCtorEq,
      or_false] at hs
    rcases hs with ⟨rfl, rfl⟩ | ⟨rfl, rfl⟩
    · exact absurd hcon (by decide)
    · exact absurd hc (by decide)
  · intro h
    exact absurd (h _ _ (List.suffix_refl _) (by decide) (by decide)) (by decide)

end Linuwux.Reflex
