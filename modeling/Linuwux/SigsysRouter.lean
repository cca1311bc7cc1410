/-
`SigsysRouter.lean` -- `redirect` of `runtime/src/syscall/sigsys_router.rs`, with the code it
calls in `win32u_zero_list.rs`.

A trapped syscall comes with the frame of the signal: 23 general registers and 16 XMM
registers, all of which the thread gets back when the handler returns. `redirect` consumes the
thread's marker before it knows what to do, and then restores a replayed call, lets a bypass
through, hands the call to Reflex, or leaves it to Wine.

[`redirect_effect`] goes through these cases: what becomes of the frame in each, and that no
marker is left when the call goes to Wine.
-/
import Linuwux.MarkerCalls
import Linuwux.ProcMem

set_option autoImplicit false

namespace Linuwux.SigsysRouter

open Markers (Table Xmm SavedContext is_bypass marker_slot)
open ProcMem (Memory checked_add read_u32 read_u64)

/-! ## The frame -/

/-- The indices of `gregs`. -/
inductive Greg where
  | r8 | r9 | r10 | r11 | r12 | r13 | r14 | r15
  | rdi | rsi | rbp | rbx | rdx | rax | rcx | rsp | rip
  | efl | csgsfs | err | trapno | oldmask | cr2
  deriving DecidableEq, Repr

/-- The general registers, and the XMM registers where there is a floating-point state. -/
structure Frame where
  gregs : Greg → UInt64
  xmm : Option (Fin 16 → Xmm)

def Frame.set_greg (f : Frame) (r : Greg) (value : UInt64) : Frame :=
  { f with gregs := Function.update f.gregs r value }

def Frame.set_xmm (f : Frame) (i : Fin 16) (value : Xmm) : Frame :=
  { f with xmm := f.xmm.map fun xmm => Function.update xmm i value }

/-! ## What `redirect` works on -/

def SYS_SECCOMP : Int32 := 1

def SYS_USER_DISPATCH : Int32 := 2

def STATUS_BUFFER_TOO_SMALL : UInt64 := 0xc0000023

def RESOLVE_ATTEMPT_LIMIT : UInt32 := 16

/-- The state of the process that a trap reads and changes. -/
structure Router where
  markers : Table
  reflex : Reflex.State
  memory : Memory
  writable : UInt64 → Bool
  WINDOW_LIST_SERVICE : UInt32
  RESOLVE_ATTEMPTS : UInt32

/-- A trap: its thread and `si_code`, the service number that export discovery in `win32u.dll`
would find, and what the unixlib repair makes of the memory. -/
structure Trap where
  tid : UInt64
  si_code : Int32
  discovered : Option UInt32
  repair : Memory → Memory

/-! ## The window-list probe -/

def window_list_service (w : Router) (t : Trap) : Option UInt32 × Router :=
  if w.WINDOW_LIST_SERVICE ≠ 0 then (some w.WINDOW_LIST_SERVICE, w)
  else
    let attempt := w.RESOLVE_ATTEMPTS
    let w := { w with RESOLVE_ATTEMPTS := attempt + 1 }
    if attempt ≥ RESOLVE_ATTEMPT_LIMIT then (none, w)
    else
      match t.discovered.filter (· ≠ 0) with
      | some number => (some number, { w with WINDOW_LIST_SERVICE := number })
      | none => (none, w)

/-- `complete_zero_capacity`: the memory with the size written, if the call is the probe. -/
def complete_zero_capacity (w : Router) (f : Frame) (service : UInt32) : Option Memory := do
  guard (f.gregs .rax = service.toUInt64)
  let rsp := f.gregs .rsp
  -- The stack arguments of the call: its capacity, its buffer, and where it stores the size.
  let count ← (checked_add rsp 0x30).bind (read_u32 w.memory)
  let buffer ← (checked_add rsp 0x38).bind (read_u64 w.memory)
  let size ← (checked_add rsp 0x40).bind (read_u64 w.memory)
  guard (count = 0 ∧ buffer = 0 ∧ size ≠ 0)
  ProcMem.write_u32 w.memory w.writable size 1

def maybe_complete_bypass (w : Router) (t : Trap) (f : Frame) : Bool × Frame × Router :=
  if f.gregs .rax &&& 0xf000 ≠ 0x1000 then (false, f, w)
  else
    match window_list_service w t with
    | (none, w) => (false, f, w)
    | (some service, w) =>
      match complete_zero_capacity w f service with
      | none => (false, f, w)
      | some memory => (true, f.set_greg .rax STATUS_BUFFER_TOO_SMALL, { w with memory })

/-! ## `redirect` -/

/-- The two bytes at an address. A raw read: the thread was executing there. -/
def instruction_at (m : Memory) (address : UInt64) : List UInt8 :=
  [(m address).getD 0, (m (address + 1)).getD 0]

def syscall_resume (m : Memory) (rip rcx : UInt64) : UInt64 :=
  if instruction_at m rip = [0x0f, 0x05] then rip + 2 else rcx

/-- `reflex_route_syscall`. -/
def reflex_route_syscall (w : Router) (f : Frame) : Option Reflex.SyscallRoute :=
  w.reflex.route_syscall (f.gregs .rax) (f.gregs .r10).toInt64 (f.gregs .rcx)

/-- `is_registered_target_process`; a registered process has its unixlib exports repaired. -/
def is_registered_target_process (w : Router) (t : Trap) : Bool × Router :=
  if w.reflex.has_registered_target_process then (true, { w with memory := t.repair w.memory })
  else (false, w)

/-- The low four bytes of `xmm4` replaced by the selector. -/
def with_selector (xmm4 : Xmm) (selector : UInt32) : Xmm := fun i =>
  if i.val < 4 then .ofNat (selector.toNat / 0x100 ^ i.val) else xmm4 i

/-- The writes at the end of `redirect`, in their order. -/
def redirect_to (w : Router) (f : Frame) (xmm : Fin 16 → Xmm) (route : Reflex.SyscallRoute) :
    Frame :=
  -- `syscall` has kept the flags of the caller in R11; an `int 2e` would not have touched them.
  let f := f.set_greg .efl (f.gregs .r11)
  let f := f.set_xmm 4 (with_selector (xmm 4) (f.gregs .rax).toUInt32)
  let rcx := f.gregs .rcx
  let rax := if route.rax_is_resume then syscall_resume w.memory (f.gregs .rip) rcx else rcx
  ((f.set_greg .rax rax).set_greg .rcx route.target).set_greg .rip route.target

/-- `redirect` for a call that is not replayed and not a bypass; `bridged` says whether
`consume` returned `Route`. -/
def redirect_route (w : Router) (t : Trap) (f : Frame) (xmm : Fin 16 → Xmm) (bridged : Bool) :
    Bool × Frame × Router :=
  let (registered, w) := if bridged then (false, w) else is_registered_target_process w t
  if !bridged && !registered then (false, f, w)
  else
    -- A bridged call that Reflex declines has had its marker saved to, so it is cancelled.
    match reflex_route_syscall w f with
    | none =>
      (false, f, if bridged then
        { w with markers := Markers.cancel w.markers t.tid (f.gregs .rsp) (f.gregs .rip) } else w)
    | some route => (true, redirect_to w f xmm route, w)

/-- `redirect` for a bypass. -/
def redirect_bypass (w : Router) (t : Trap) (f : Frame) (bridged : Bool) :
    Bool × Frame × Router :=
  let w := if bridged then
    { w with markers := Markers.cancel w.markers t.tid (f.gregs .rsp) (f.gregs .rip) } else w
  let f := f.set_xmm 5 fun _ => 0
  if t.si_code = SYS_USER_DISPATCH then maybe_complete_bypass w t f else (false, f, w)

/-- `redirect`: whether the call is handled, the frame and the state when it returns. -/
def redirect (w : Router) (t : Trap) (f : Frame) : Bool × Frame × Router :=
  match f.xmm with
  | none => (false, f, w)
  | some xmm =>
    if t.si_code ≠ SYS_SECCOMP ∧ t.si_code ≠ SYS_USER_DISPATCH then (false, f, w)
    else
      -- The marker is consumed before it is known what becomes of the call.
      let (bridged, markers) := Markers.consume w.markers t.tid (f.gregs .rsp) (f.gregs .rip)
        ⟨xmm 4, xmm 5, f.gregs .r11, f.gregs .efl⟩
      let w := { w with markers }
      match bridged with
      | some (.replay saved) =>
        (false, (((f.set_xmm 4 saved.xmm4).set_xmm 5 saved.xmm5).set_greg .r11 saved.r11).set_greg
          .efl saved.eflags, w)
      | some .route =>
        if is_bypass (xmm 5) then redirect_bypass w t f true else redirect_route w t f xmm true
      | none =>
        if is_bypass (xmm 5) then redirect_bypass w t f false else redirect_route w t f xmm false

/-! ## What `consume` finds -/

/-- A marker for the trap, in this phase. -/
def Marked (w : Router) (t : Trap) (gregs : Greg → UInt64) (phase : UInt64) (i : Markers.Index) :
    Prop :=
  w.markers.Matches t.tid (gregs .rsp) (gregs .rip) i ∧ (w.markers.markers i).phase = phase

/-- No marker for the trap. -/
def Unmarked (markers : Table) (t : Trap) (gregs : Greg → UInt64) : Prop :=
  ∀ i, ¬markers.Matches t.tid (gregs .rsp) (gregs .rip) i

section Consume

variable {w : Router} (hok : w.markers.Ok) {t : Trap} (hidle : w.markers.Idle t.tid)
  (gregs : Greg → UInt64) (context : SavedContext)
include hok hidle

theorem consume_replay {i : Markers.Index} (hi : Marked w t gregs 1 i) :
    Markers.consume w.markers t.tid (gregs .rsp) (gregs .rip) context
      = (some (.replay (.of_words (w.markers.markers i).words)), w.markers.released i) := by
  rw [hok.consume hidle context hi.1, if_neg (by rw [hi.2]; decide), if_pos hi.2]

theorem consume_route {i : Markers.Index} (hi : Marked w t gregs 0 i) :
    Markers.consume w.markers t.tid (gregs .rsp) (gregs .rip) context
      = (some .route, w.markers.saving i 1 context.word) := by
  rw [hok.consume hidle context hi.1, if_pos hi.2]

/-- A marker in neither phase is dropped like one that was replayed. -/
theorem consume_unmarked (h0 : ∀ i, ¬Marked w t gregs 0 i) (h1 : ∀ i, ¬Marked w t gregs 1 i) :
    ∃ markers, Markers.consume w.markers t.tid (gregs .rsp) (gregs .rip) context = (none, markers)
      ∧ Unmarked markers t gregs := by
  by_cases hmatch : ∃ i, w.markers.Matches t.tid (gregs .rsp) (gregs .rip) i
  · obtain ⟨i, hi⟩ := hmatch
    refine ⟨w.markers.released i, ?_, hok.released_not_matches hi⟩
    rw [hok.consume hidle context hi, if_neg fun h => h0 i ⟨hi, h⟩, if_neg fun h => h1 i ⟨hi, h⟩]
  · have hnone := not_exists.mp hmatch
    exact ⟨w.markers, hok.consume_none hidle context hnone, hnone⟩

/-- `cancel` after `consume` has saved to the marker. -/
theorem cancel_route {i : Markers.Index} (hi : Marked w t gregs 0 i) :
    Unmarked (Markers.cancel (w.markers.saving i 1 context.word) t.tid (gregs .rsp) (gregs .rip))
      t gregs := by
  -- Saving keeps the key of the marker, so `cancel` finds it again.
  have hsaved := hok.saving i 1 context.word
  have hmatch : (w.markers.saving i 1 context.word).Matches _ _ _ i :=
    Table.saving_matches.mpr hi.1
  rw [hsaved.cancel (hidle.saving i 1 context.word) hmatch]
  exact hsaved.released_not_matches hmatch

end Consume

/-! ## The probe -/

/-- The trap is a window-list probe that is answered here, by storing 1 to the caller's size. -/
structure CompletedProbe (w : Router) (t : Trap) (gregs : Greg → UInt64) (memory : Memory) :
    Prop where
  si_code : t.si_code = SYS_USER_DISPATCH
  win32u : gregs .rax &&& 0xf000 = 0x1000
  service : (window_list_service w t).1.map UInt32.toUInt64 = some (gregs .rax)
  count : (checked_add (gregs .rsp) 0x30).bind (read_u32 w.memory) = some 0
  buffer : (checked_add (gregs .rsp) 0x38).bind (read_u64 w.memory) = some 0
  size : ∃ size, (checked_add (gregs .rsp) 0x40).bind (read_u64 w.memory) = some size
    ∧ size ≠ 0 ∧ ProcMem.write_u32 w.memory w.writable size 1 = some memory

theorem window_list_service_frame (w : Router) (t : Trap) :
    (window_list_service w t).2.markers = w.markers
      ∧ (window_list_service w t).2.memory = w.memory
      ∧ (window_list_service w t).2.writable = w.writable := by
  unfold window_list_service
  split
  · exact ⟨rfl, rfl, rfl⟩
  · dsimp only
    split
    · exact ⟨rfl, rfl, rfl⟩
    · split
      · exact ⟨rfl, rfl, rfl⟩
      · exact ⟨rfl, rfl, rfl⟩

/-- The service does not depend on the markers. -/
theorem window_list_service_markers (w : Router) (t : Trap) (markers : Table) :
    (window_list_service { w with markers } t).1 = (window_list_service w t).1 := by
  unfold window_list_service
  split
  · rfl
  · dsimp only
    split
    · rfl
    · split
      · rfl
      · rfl

theorem complete_zero_capacity_eq_some {w : Router} {f : Frame} {service : UInt32}
    {memory : Memory} :
    complete_zero_capacity w f service = some memory
      ↔ f.gregs .rax = service.toUInt64
        ∧ (checked_add (f.gregs .rsp) 0x30).bind (read_u32 w.memory) = some 0
        ∧ (checked_add (f.gregs .rsp) 0x38).bind (read_u64 w.memory) = some 0
        ∧ ∃ size, (checked_add (f.gregs .rsp) 0x40).bind (read_u64 w.memory) = some size
          ∧ size ≠ 0 ∧ ProcMem.write_u32 w.memory w.writable size 1 = some memory := by
  unfold complete_zero_capacity
  simp only [Option.bind_eq_bind, Option.bind_eq_some_iff, Option.guard_eq_some']
  constructor
  · rintro ⟨-, hrax, count, hcount, buffer, hbuffer, size, hsize, -, ⟨rfl, rfl, hne⟩, hwrite⟩
    exact ⟨hrax, hcount, hbuffer, size, hsize, hne, hwrite⟩
  · rintro ⟨hrax, hcount, hbuffer, size, hsize, hne, hwrite⟩
    exact ⟨(), hrax, 0, hcount, 0, hbuffer, size, hsize, (), ⟨rfl, rfl, hne⟩, hwrite⟩

/-! ## The four frames -/

section Frames

variable (gregs : Greg → UInt64) (xmm : Fin 16 → Xmm)

/-- The saved registers are back. -/
def restored (saved : SavedContext) : Frame where
  gregs
    | .r11 => saved.r11
    | .efl => saved.eflags
    | r => gregs r
  xmm := some fun i => if i = 4 then saved.xmm4 else if i = 5 then saved.xmm5 else xmm i

/-- `xmm5` is zero. -/
def bypassed : Frame where
  gregs := gregs
  xmm := some fun i => if i = 5 then fun _ => 0 else xmm i

/-- `xmm5` is zero and the call has returned. -/
def completed : Frame where
  gregs
    | .rax => STATUS_BUFFER_TOO_SMALL
    | r => gregs r
  xmm := (bypassed gregs xmm).xmm

/-- The thread goes on in Reflex. -/
def routed (target rax : UInt64) : Frame where
  gregs
    | .rip => target
    | .rcx => target
    | .rax => rax
    | .efl => gregs .r11
    | r => gregs r
  xmm := some fun i => if i = 4 then with_selector (xmm 4) (gregs .rax).toUInt32 else xmm i

theorem set_xmm_eq (value : Xmm) (i : Fin 16) :
    Frame.set_xmm ⟨gregs, some xmm⟩ i value
      = ⟨gregs, some fun j => if j = i then value else xmm j⟩ := by
  refine congrArg (fun xmm => Frame.mk gregs (some xmm)) (funext fun j => ?_)
  exact Function.update_apply xmm i value j

/-- Only the low four bytes of `xmm4` change, and they hold the selector. -/
theorem with_selector_spec (xmm4 : Xmm) (selector : UInt32) :
    (∀ i : Fin 16, 4 ≤ i.val → with_selector xmm4 selector i = xmm4 i)
      ∧ (with_selector xmm4 selector 0).toNat + (with_selector xmm4 selector 1).toNat * 0x100
        + (with_selector xmm4 selector 2).toNat * 0x10000
        + (with_selector xmm4 selector 3).toNat * 0x1000000 = selector.toNat := by
  refine ⟨fun i hi => if_neg (by omega), ?_⟩
  have hlt := selector.toNat_lt
  have hbyte : ∀ i : Fin 16, i.val < 4 →
      (with_selector xmm4 selector i).toNat = selector.toNat / 0x100 ^ i.val % 0x100 := by
    intro i hi
    rw [with_selector, if_pos hi, UInt8.toNat_ofNat']
  rw [hbyte 0 (by decide), hbyte 1 (by decide), hbyte 2 (by decide), hbyte 3 (by decide)]
  change _ / 0x1 % _ + _ / 0x100 % _ * _ + _ / 0x10000 % _ * _ + _ / 0x1000000 % _ * _ = _
  omega

end Frames

/-! ## The exits -/

/-- What Reflex decides about the call. -/
def route_of (w : Router) (gregs : Greg → UInt64) : Option Reflex.SyscallRoute :=
  w.reflex.route_syscall (gregs .rax) (gregs .r10).toInt64 (gregs .rcx)

section Exits

variable (w : Router) (t : Trap) (gregs : Greg → UInt64) (xmm : Fin 16 → Xmm)

theorem set_rax_bypassed :
    (bypassed gregs xmm).set_greg .rax STATUS_BUFFER_TOO_SMALL = completed gregs xmm := by
  refine congrArg (fun gregs' => Frame.mk gregs' (bypassed gregs xmm).xmm) (funext fun r => ?_)
  cases r <;> rfl

theorem set_restored (saved : SavedContext) :
    (((Frame.set_xmm ⟨gregs, some xmm⟩ 4 saved.xmm4).set_xmm 5 saved.xmm5).set_greg .r11
      saved.r11).set_greg .efl saved.eflags = restored gregs xmm saved := by
  rw [set_xmm_eq, set_xmm_eq]
  unfold restored Frame.set_greg
  congr 1
  · funext r
    cases r <;> rfl
  · refine congrArg some (funext fun i => ?_)
    by_cases h4 : i = 4
    · rw [h4]
      rfl
    · rw [if_neg h4, if_neg h4]

theorem redirect_to_eq (route : Reflex.SyscallRoute) :
    redirect_to w ⟨gregs, some xmm⟩ xmm route
      = routed gregs xmm route.target (if route.rax_is_resume then
          syscall_resume w.memory (gregs .rip) (gregs .rcx) else gregs .rcx) := by
  unfold redirect_to routed
  dsimp only [Frame.set_greg]
  rw [set_xmm_eq]
  congr 1
  funext r
  cases r <;> rfl

theorem completedProbe_markers {markers : Table} {memory : Memory} :
    CompletedProbe { w with markers } t gregs memory ↔ CompletedProbe w t gregs memory := by
  have hservice := window_list_service_markers w t markers
  constructor
  · rintro ⟨hcode, hwin32u, hsame, hcount, hbuffer, hsize⟩
    rw [hservice] at hsame
    exact ⟨hcode, hwin32u, hsame, hcount, hbuffer, hsize⟩
  · rintro ⟨hcode, hwin32u, hsame, hcount, hbuffer, hsize⟩
    rw [← hservice] at hsame
    exact ⟨hcode, hwin32u, hsame, hcount, hbuffer, hsize⟩

/-- After a bypass: the probe is answered, or nothing more is done. -/
theorem maybe_complete_bypass_effect (hcode : t.si_code = SYS_USER_DISPATCH) :
    ∃ handled f' w', maybe_complete_bypass w t (bypassed gregs xmm) = (handled, f', w')
      ∧ w'.markers = w.markers
      ∧ ((∃ memory, CompletedProbe w t gregs memory
            ∧ handled = true ∧ f' = completed gregs xmm ∧ w'.memory = memory)
        ∨ (∀ memory, ¬CompletedProbe w t gregs memory)
            ∧ handled = false ∧ f' = bypassed gregs xmm ∧ w'.memory = w.memory) := by
  obtain ⟨hmarkers, hmemory, hwritable⟩ := window_list_service_frame w t
  unfold maybe_complete_bypass
  split
  · rename_i hrange
    exact ⟨_, _, _, rfl, rfl, Or.inr ⟨fun _ hp => hrange hp.win32u, rfl, rfl, rfl⟩⟩
  · rename_i hrange
    have hwin32u : gregs .rax &&& 0xf000 = 0x1000 := not_not.mp hrange
    cases hservice : window_list_service w t with
    | mk found w₁ =>
      rw [hservice] at hmarkers hmemory hwritable
      dsimp only at hmarkers hmemory hwritable
      cases found with
      | none =>
        refine ⟨_, _, _, rfl, hmarkers, Or.inr ⟨fun _ hp => ?_, rfl, rfl, hmemory⟩⟩
        have hsame := hp.service
        rw [hservice] at hsame
        cases hsame
      | some service =>
        dsimp only
        cases hdone : complete_zero_capacity w₁ (bypassed gregs xmm) service with
        | none =>
          refine ⟨_, _, _, rfl, hmarkers, Or.inr ⟨fun memory hp => ?_, rfl, rfl, hmemory⟩⟩
          have hsame := hp.service
          rw [hservice] at hsame
          obtain ⟨size, hsize⟩ := hp.size
          have hsome := (complete_zero_capacity_eq_some (f := bypassed gregs xmm)).mpr
            ⟨(Option.some.inj hsame).symm, hp.count, hp.buffer, size, hsize⟩
          -- The attempt counter has moved since `w`, but nothing that the probe reads.
          rw [complete_zero_capacity, hmemory, hwritable] at hdone
          rw [complete_zero_capacity, hdone] at hsome
          cases hsome
        | some memory =>
          obtain ⟨hrax, hcount, hbuffer, hsize⟩ := complete_zero_capacity_eq_some.mp hdone
          rw [hmemory] at hcount hbuffer
          simp only [hmemory, hwritable] at hsize
          refine ⟨_, _, _, rfl, hmarkers, Or.inl ⟨memory, ⟨hcode, hwin32u, ?_, hcount, hbuffer,
            hsize⟩, rfl, set_rax_bypassed gregs xmm, rfl⟩⟩
          rw [hservice]
          exact congrArg some hrax.symm

theorem redirect_bypass_effect (bridged : Bool) :
    ∃ handled f' w', redirect_bypass w t ⟨gregs, some xmm⟩ bridged = (handled, f', w')
      ∧ w'.markers = (if bridged then
          Markers.cancel w.markers t.tid (gregs .rsp) (gregs .rip) else w.markers)
      ∧ ((∃ memory, CompletedProbe w t gregs memory
            ∧ handled = true ∧ f' = completed gregs xmm ∧ w'.memory = memory)
        ∨ (∀ memory, ¬CompletedProbe w t gregs memory)
            ∧ handled = false ∧ f' = bypassed gregs xmm ∧ w'.memory = w.memory) := by
  unfold redirect_bypass
  rw [set_xmm_eq]
  dsimp only
  by_cases hcode : t.si_code = SYS_USER_DISPATCH
  · rw [if_pos hcode]
    cases bridged with
    | false => exact maybe_complete_bypass_effect w t gregs xmm hcode
    | true =>
      obtain ⟨handled, f', w', heq, hmarkers, hdone⟩ := maybe_complete_bypass_effect
        { w with markers := Markers.cancel w.markers t.tid (gregs .rsp) (gregs .rip) } t gregs xmm
        hcode
      simp only [completedProbe_markers] at hdone
      exact ⟨handled, f', w', heq, hmarkers, hdone⟩
  · rw [if_neg hcode]
    have hno : ∀ memory, ¬CompletedProbe w t gregs memory := fun _ hp => hcode hp.si_code
    cases bridged with
    | false => exact ⟨_, _, _, rfl, rfl, Or.inr ⟨hno, rfl, rfl, rfl⟩⟩
    | true => exact ⟨_, _, _, rfl, rfl, Or.inr ⟨hno, rfl, rfl, rfl⟩⟩

theorem redirect_route_bridged :
    redirect_route w t ⟨gregs, some xmm⟩ xmm true
      = match route_of w gregs with
        | none => (false, ⟨gregs, some xmm⟩,
            { w with markers := Markers.cancel w.markers t.tid (gregs .rsp) (gregs .rip) })
        | some route => (true, redirect_to w ⟨gregs, some xmm⟩ xmm route, w) :=
  rfl

theorem redirect_route_unregistered (h : w.reflex.has_registered_target_process = false) :
    redirect_route w t ⟨gregs, some xmm⟩ xmm false = (false, ⟨gregs, some xmm⟩, w) := by
  have hreg : is_registered_target_process w t = (false, w) := by
    rw [is_registered_target_process, h]
    rfl
  unfold redirect_route
  rw [hreg]
  rfl

/-- The repair writes memory before the route is taken. -/
theorem redirect_route_registered (h : w.reflex.has_registered_target_process = true) :
    redirect_route w t ⟨gregs, some xmm⟩ xmm false
      = match route_of w gregs with
        | none => (false, ⟨gregs, some xmm⟩, { w with memory := t.repair w.memory })
        | some route => (true,
            redirect_to { w with memory := t.repair w.memory } ⟨gregs, some xmm⟩ xmm route,
            { w with memory := t.repair w.memory }) := by
  have hreg : is_registered_target_process w t = (true, { w with memory := t.repair w.memory }) :=
    if_pos h
  unfold redirect_route
  rw [hreg]
  rfl

/-- A call that is neither replayed nor a bypass: it goes to Wine as it is, or on to Reflex. -/
theorem redirect_route_effect (bridged : Bool) :
    ∃ handled f' w', redirect_route w t ⟨gregs, some xmm⟩ xmm bridged = (handled, f', w')
      ∧ ((bridged = false ∧ w.reflex.has_registered_target_process = false
              ∨ route_of w gregs = none)
          ∧ handled = false ∧ f' = ⟨gregs, some xmm⟩
          ∧ w'.markers = (if bridged then
              Markers.cancel w.markers t.tid (gregs .rsp) (gregs .rip) else w.markers)
        ∨ (bridged = true ∨ w.reflex.has_registered_target_process = true)
          ∧ ∃ route, route_of w gregs = some route ∧ handled = true
            ∧ f' = routed gregs xmm route.target (if route.rax_is_resume then
                syscall_resume w'.memory (gregs .rip) (gregs .rcx) else gregs .rcx)
            ∧ w'.markers = w.markers) := by
  cases bridged with
  | true =>
    cases hroute : route_of w gregs with
    | none =>
      have heq := redirect_route_bridged w t gregs xmm
      rw [hroute] at heq
      exact ⟨_, _, _, heq, Or.inl ⟨Or.inr rfl, rfl, rfl, rfl⟩⟩
    | some route =>
      have heq := redirect_route_bridged w t gregs xmm
      rw [hroute] at heq
      exact ⟨_, _, _, heq, Or.inr ⟨Or.inl rfl, route, rfl, rfl,
        redirect_to_eq w gregs xmm route, rfl⟩⟩
  | false =>
    cases hreg : w.reflex.has_registered_target_process with
    | false =>
      have heq := redirect_route_unregistered w t gregs xmm hreg
      exact ⟨_, _, _, heq, Or.inl ⟨Or.inl ⟨rfl, rfl⟩, rfl, rfl, rfl⟩⟩
    | true =>
      have heq := redirect_route_registered w t gregs xmm hreg
      cases hroute : route_of w gregs with
      | none =>
        rw [hroute] at heq
        exact ⟨_, _, _, heq, Or.inl ⟨Or.inr rfl, rfl, rfl, rfl⟩⟩
      | some route =>
        rw [hroute] at heq
        exact ⟨_, _, _, heq, Or.inr ⟨Or.inr rfl, route, rfl, rfl,
          redirect_to_eq { w with memory := t.repair w.memory } gregs xmm route, rfl⟩⟩

end Exits

/-! ## `redirect` as a whole -/

section Redirect

variable (w : Router) (t : Trap) (gregs : Greg → UInt64) (xmm : Fin 16 → Xmm)

/-- What `redirect` may return: the call is replayed, is a bypass, goes to Wine, or goes to
Reflex. The conditions exclude each other. -/
def Effect (handled : Bool) (f' : Frame) (w' : Router) : Prop :=
  (∃ i, Marked w t gregs 1 i ∧ handled = false
    ∧ f' = restored gregs xmm (.of_words (w.markers.markers i).words))
  ∨ (∀ i, ¬Marked w t gregs 1 i) ∧ is_bypass (xmm 5) = true
    ∧ ((∃ memory, CompletedProbe w t gregs memory
          ∧ handled = true ∧ f' = completed gregs xmm ∧ w'.memory = memory)
      ∨ (∀ memory, ¬CompletedProbe w t gregs memory)
          ∧ handled = false ∧ f' = bypassed gregs xmm ∧ w'.memory = w.memory)
  ∨ (∀ i, ¬Marked w t gregs 1 i) ∧ is_bypass (xmm 5) = false
    ∧ ((∀ i, ¬Marked w t gregs 0 i) ∧ w.reflex.has_registered_target_process = false
      ∨ route_of w gregs = none)
    ∧ handled = false ∧ f' = ⟨gregs, some xmm⟩
  ∨ (∀ i, ¬Marked w t gregs 1 i) ∧ is_bypass (xmm 5) = false
    ∧ ((∃ i, Marked w t gregs 0 i) ∨ w.reflex.has_registered_target_process = true)
    ∧ ∃ route, route_of w gregs = some route ∧ handled = true
      ∧ f' = routed gregs xmm route.target (if route.rax_is_resume then
          syscall_resume w'.memory (gregs .rip) (gregs .rcx) else gregs .rcx)
      ∧ ∀ i, Marked w t gregs 0 i → w'.markers.markers i = { w.markers.markers i with
          phase := 1
          words := SavedContext.word ⟨xmm 4, xmm 5, gregs .r11, gregs .efl⟩ }

variable {w t gregs xmm}

/-- From `consume` on, for a call that is not replayed. The marker that was saved to is gone
after `cancel`. -/
theorem redirect_consumed (bridged : Bool) (markers : Table)
    (h1 : ∀ i, ¬Marked w t gregs 1 i) (hbridged : bridged = true ↔ ∃ i, Marked w t gregs 0 i)
    (hgone : Unmarked (if bridged then
      Markers.cancel markers t.tid (gregs .rsp) (gregs .rip) else markers) t gregs)
    (hsaved : ∀ i, Marked w t gregs 0 i → markers.markers i = { w.markers.markers i with
      phase := 1
      words := SavedContext.word ⟨xmm 4, xmm 5, gregs .r11, gregs .efl⟩ }) :
    ∃ handled f' w',
      (if is_bypass (xmm 5) then redirect_bypass { w with markers } t ⟨gregs, some xmm⟩ bridged
        else redirect_route { w with markers } t ⟨gregs, some xmm⟩ xmm bridged)
          = (handled, f', w')
      ∧ Effect w t gregs xmm handled f' w'
      ∧ (handled = false → Unmarked w'.markers t gregs) := by
  cases hbypass : is_bypass (xmm 5) with
  | true =>
    obtain ⟨handled, f', w', heq, hmarkers, hdone⟩ :=
      redirect_bypass_effect { w with markers } t gregs xmm bridged
    simp only [completedProbe_markers] at hdone
    refine ⟨handled, f', w', heq, Or.inr (Or.inl ⟨h1, hbypass, hdone⟩), fun _ => ?_⟩
    rw [hmarkers]
    exact hgone
  | false =>
    obtain ⟨handled, f', w', heq, hrest⟩ :=
      redirect_route_effect { w with markers } t gregs xmm bridged
    refine ⟨handled, f', w', heq, Or.inr (Or.inr ?_), fun hhandled => ?_⟩
    · rcases hrest with ⟨hcond, hhandled, hf, -⟩ | ⟨hcond, route, hroute, hhandled, hf, hmarkers⟩
      · refine Or.inl ⟨h1, hbypass, hcond.imp_left fun hc => ⟨?_, hc.2⟩, hhandled, hf⟩
        have hnot := mt hbridged.mpr (by rw [hc.1]; exact Bool.false_ne_true)
        exact not_exists.mp hnot
      · refine Or.inr ⟨h1, hbypass, hcond.imp_left hbridged.mp, route, hroute, hhandled, hf, ?_⟩
        rw [hmarkers]
        exact hsaved
    · rcases hrest with ⟨-, -, -, hmarkers⟩ | ⟨-, route, -, htrue, -⟩
      · rw [hmarkers]
        exact hgone
      · rw [htrue] at hhandled
        cases hhandled

/-- For a frame with a floating-point state: what becomes of it, and that a call handed to Wine
leaves no marker. -/
theorem redirect_effect (w : Router) (t : Trap) (gregs : Greg → UInt64) (xmm : Fin 16 → Xmm)
    (hok : w.markers.Ok) (hidle : w.markers.Idle t.tid)
    (hcode : t.si_code = SYS_SECCOMP ∨ t.si_code = SYS_USER_DISPATCH) :
    ∃ handled f' w', redirect w t ⟨gregs, some xmm⟩ = (handled, f', w')
      ∧ Effect w t gregs xmm handled f' w'
      ∧ (handled = false → Unmarked w'.markers t gregs) := by
  have hcode' : ¬(t.si_code ≠ SYS_SECCOMP ∧ t.si_code ≠ SYS_USER_DISPATCH) :=
    fun h => hcode.elim h.1 h.2
  unfold redirect
  dsimp only
  rw [if_neg hcode']
  by_cases h1 : ∃ i, Marked w t gregs 1 i
  · obtain ⟨i, hi⟩ := h1
    rw [consume_replay hok hidle gregs _ hi]
    dsimp only
    rw [set_restored]
    exact ⟨_, _, _, rfl, Or.inl ⟨i, hi, rfl, rfl⟩, fun _ => hok.released_not_matches hi.1⟩
  · have h1 := not_exists.mp h1
    by_cases h0 : ∃ i, Marked w t gregs 0 i
    · obtain ⟨i, hi⟩ := h0
      rw [consume_route hok hidle gregs _ hi]
      refine redirect_consumed true _ h1 (iff_of_true rfl ⟨i, hi⟩)
        (cancel_route hok hidle gregs _ hi) fun j hj => ?_
      rw [hok.matches_unique hj.1 hi.1, w.markers.saving_markers, if_pos rfl]
    · have h0 := not_exists.mp h0
      obtain ⟨markers, heq, hgone⟩ := consume_unmarked hok hidle gregs
        ⟨xmm 4, xmm 5, gregs .r11, gregs .efl⟩ h0 h1
      rw [heq]
      refine redirect_consumed false markers h1 ?_ hgone fun i hi => absurd hi (h0 i)
      exact iff_of_false Bool.false_ne_true fun ⟨i, hi⟩ => h0 i hi

end Redirect

/-- Thread 7 comes back to the raw syscall it was sent to, having passed Reflex: its marker is in
phase 1. -/
def replaying : Router where
  markers := (Table.new.armed (marker_slot 0x7008) 7 0x7008 0x100014).saving
    (marker_slot 0x7008) 1
    (SavedContext.word ⟨fun _ => 4, fun _ => 5, 0x246, 0x202⟩)
  reflex := .new
  memory := fun _ => none
  writable := fun _ => false
  WINDOW_LIST_SERVICE := 0
  RESOLVE_ATTEMPTS := 0

theorem replaying_ok : replaying.markers.Ok := by
  have harmed : (Table.new.armed (marker_slot 0x7008) 7 0x7008 0x100014).Ok :=
    Markers.ok_new.armed rfl (by decide) (by decide) (by decide) (by decide)
      fun j hj => absurd hj (by decide : (0 : UInt64) ≠ 0x7008)
  exact harmed.saving _ _ _

theorem replaying_idle (tid : UInt64) : replaying.markers.Idle tid :=
  ((Markers.idle_new tid).armed _ (by decide)).saving _ _ _

def replaying_gregs : Greg → UInt64
  | .rsp => 0x7008
  | .rip => 0x100014
  | .r11 => 0x346
  | _ => 0

/-- The replay gets back what the first trap saved, and the marker is gone. -/
theorem replaying_restored :
    ∃ f' w', redirect replaying ⟨7, SYS_SECCOMP, none, id⟩ ⟨replaying_gregs, some fun _ _ => 0⟩
        = (false, f', w')
      ∧ f' = restored replaying_gregs (fun _ _ => 0) ⟨fun _ => 4, fun _ => 5, 0x246, 0x202⟩
      ∧ Unmarked w'.markers ⟨7, SYS_SECCOMP, none, id⟩ replaying_gregs := by
  obtain ⟨handled, f', w', heq, heffect, hgone⟩ := redirect_effect replaying
    ⟨7, SYS_SECCOMP, none, id⟩ replaying_gregs (fun _ _ => 0) replaying_ok (replaying_idle 7)
    (Or.inl rfl)
  have hmarked : Marked replaying ⟨7, SYS_SECCOMP, none, id⟩ replaying_gregs 1
      (marker_slot 0x7008) :=
    ⟨⟨by decide, rfl, rfl, rfl⟩, rfl⟩
  rcases heffect with ⟨i, hi, rfl, rfl⟩ | ⟨hno, -⟩ | ⟨hno, -⟩ | ⟨hno, -⟩
  · refine ⟨_, w', heq, ?_, hgone rfl⟩
    rw [replaying_ok.matches_unique hi.1 hmarked.1]
    exact congrArg (restored _ _) (SavedContext.of_words_word _)
  · exact absurd hmarked (hno _)
  · exact absurd hmarked (hno _)
  · exact absurd hmarked (hno _)

end Linuwux.SigsysRouter
