/-
`DispatcherTarget.lean` -- `dispatcher_target` of `runtime/src/syscall/kuser_dispatch.rs`.

Called by the bridge for every call through Wine's dispatcher slot, it retires the markers its
thread has left at this depth or below, and decides where the bridge jumps: to Wine's
dispatcher, or to a raw syscall instruction for which it then has armed a marker. The raw
address is tagged in bit 63.

[`dispatcher_target_markers`] says what the markers of all threads are when it returns.
-/
import Linuwux.MarkerCalls
import Linuwux.RawSyscall
import Linuwux.LateHooks

set_option autoImplicit false

namespace Linuwux.DispatcherTarget

open IatScan (Process)
open LateHooks (Scanner maybe_scan_main_image_iat)
open Markers (Table Marker RAW_TARGET_TAG U64_MAX marker_slot)
open ProcMem (Memory read_u64 saturating_add)

/-- What `dispatcher_target` keeps between calls. -/
structure Dispatcher where
  original_dispatcher : UInt64
  scanner : Scanner
  reflex_image_start : UInt64
  reflex_image_end : UInt64
  markers : Table

def is_reflex_address (d : Dispatcher) (address : UInt64) : Bool :=
  d.reflex_image_start ≠ 0 ∧ d.reflex_image_start ≤ address ∧ address < d.reflex_image_end

/-- The caller of the stub, as `dispatcher_target` finds it. -/
def stub_caller (memory : Memory) (entry_rsp : UInt64) : UInt64 :=
  (read_u64 memory (saturating_add entry_rsp 8)).getD 0

/-- `dispatcher_target` on thread `tid`. The IAT scan sees the process as it is on entry;
`memory` is what the reads after the unixlib repair see, which touches no marker. -/
def dispatcher_target (d : Dispatcher) (tid : UInt64) (process : Process) (memory : Memory)
    (return_address service _r10 _process_handle _xmm5 entry_rsp : UInt64) :
    Option (UInt64 × Dispatcher) :=
  let original := d.original_dispatcher
  let d := { d with
    scanner := maybe_scan_main_image_iat d.scanner ⟨process, d.reflex_image_start⟩ }
  let trap_rsp := saturating_add entry_rsp 8
  let d := { d with
    markers := if Markers.has_active_markers d.markers then
      Markers.retire_markers d.markers tid trap_rsp else d.markers }
  let stub_match := StubSet.matches_iat_stub d.scanner.stubs return_address
  if original = 0 ∨ !stub_match then some (original, d)
  else
    let caller_is_reflex_image := is_reflex_address d (stub_caller memory entry_rsp)
    if caller_is_reflex_image then some (original, d)
    else
      (RawSyscall.find_syscall memory return_address service).bind fun raw =>
        if !Markers.should_replay_raw ⟨true, true, caller_is_reflex_image, raw.isSome⟩ then
          some (original, d)
        else
          -- `raw` is there: the evidence says so.
          raw.bind fun raw =>
            let trap_rip := saturating_add raw 2
            let (remembered, markers) := Markers.remember_marker d.markers tid trap_rsp trap_rip
            if !remembered then some (original, { d with markers := markers })
            else some (raw ||| RAW_TARGET_TAG, { d with markers := markers })

/-! ## The raw syscall -/

/-- `find_syscall` indexes nothing out of range, and what it finds ends before the return
address. -/
theorem find_syscall_spec (m : Memory) (return_address service : UInt64) (windows : List ℕ)
    (hw : ∀ w ∈ windows, w ≤ 0x80) :
    ∃ found, RawSyscall.find_syscall_in m return_address service windows = some found
      ∧ ∀ raw, found = some raw → raw.toNat + 2 ≤ return_address.toNat := by
  induction windows with
  | nil => exact ⟨none, rfl, nofun⟩
  | cons window windows ih =>
    have ih := ih fun w hmem => hw w (List.mem_cons_of_mem _ hmem)
    have hwindow := hw window List.mem_cons_self
    rw [RawSyscall.find_syscall_in]
    split
    · exact ih
    · rename_i hlt
      dsimp only
      split
      · exact ih
      · rename_i bytes hread
        obtain ⟨-, -, hlen, -⟩ := ProcMem.read_memory_eq_some.mp hread
        obtain ⟨result, hresult, hspec⟩ := RawSyscall.find_raw_syscall_instruction_spec bytes
          (return_address - .ofNat window) service
        rw [hresult, Option.bind_some]
        cases result with
        | none => exact ih
        | some address =>
          refine ⟨some address, rfl, ?_⟩
          rintro raw ⟨⟩
          obtain ⟨p, hp, haddress⟩ := (hspec address).mp rfl
          -- The opcode is within the window, which ends at the return address.
          have hfit := hp.1.1.length
          have hofNat : (UInt64.ofNat window).toNat = window := by
            rw [UInt64.toNat_ofNat']
            omega
          have hstart : (return_address - UInt64.ofNat window).toNat
              = return_address.toNat - window := by
            rw [UInt64.toNat_sub_of_le, hofNat]
            rw [UInt64.le_iff_toNat_le, hofNat]
            omega
          omega

/-- The search ends, and what it finds lies before the return address. -/
theorem find_syscall_total (m : Memory) (return_address service : UInt64) :
    ∃ found, RawSyscall.find_syscall m return_address service = some found
      ∧ ∀ raw, found = some raw → raw.toNat + 2 ≤ return_address.toNat :=
  find_syscall_spec m return_address service [0x80, 0x40, 0x20] (by decide)

/-! ## The markers that stay -/

/-- The markers of `tid` above a depth. -/
def kept (m : Table) (tid depth : UInt64) (i : Markers.Index) : Option Marker :=
  (m.marker_of tid i).filter fun k => depth < k.stack

/-- An empty table has nothing to retire. -/
theorem if_active_retire (m : Table) (tid stack : UInt64) :
    (if Markers.has_active_markers m then Markers.retire_markers m tid stack else m)
      = Markers.retire_markers m tid stack := by
  split
  · rfl
  · rename_i h
    unfold Markers.retire_markers
    rw [if_pos (Or.inr (by simpa using h))]

section Markers

variable {m : Table} (h : m.Ok) {tid stack : UInt64}
include h

/-- Retiring leaves a thread the markers above the depth. -/
theorem retired_marker_of_self (i : Markers.Index) :
    (Markers.retire_markers m tid stack).marker_of tid i = kept m tid stack i := by
  have hat := (h.retire_markers tid stack).2 i
  unfold kept Table.marker_of
  rw [hat]
  by_cases hr : (m.markers i).Retired tid stack
  · rw [if_pos hr, if_neg fun hz => hz.1.1 rfl, if_pos ⟨hr.1, hr.2.1⟩, Option.filter_some,
      if_neg (by simpa using hr.2.2)]
  · rw [if_neg hr]
    split
    · rename_i hm
      have hgt : stack < (m.markers i).stack :=
        UInt64.not_le.mp fun hle => hr ⟨hm.1, hm.2, hle⟩
      rw [Option.filter_some, if_pos (by simpa using hgt)]
    · rfl

/-- And it leaves the other threads all of theirs. -/
theorem retired_marker_of_ne {u : UInt64} (hu : u ≠ tid) (i : Markers.Index) :
    (Markers.retire_markers m tid stack).marker_of u i = m.marker_of u i := by
  have hat := (h.retire_markers tid stack).2 i
  unfold Table.marker_of
  rw [hat]
  by_cases hr : (m.markers i).Retired tid stack
  · rw [if_pos hr, if_neg fun hz => hz.1.1 rfl, if_neg fun hz => hu (hz.2.symm.trans hr.2.1)]
  · rw [if_neg hr]

/-- A thread has no marker at a depth it has retired. -/
theorem retired_gone (j : Markers.Index)
    (hj : ((Markers.retire_markers m tid stack).markers j).stack = stack) (hst : stack ≠ 0)
    (hmax : stack ≠ U64_MAX) :
    ((Markers.retire_markers m tid stack).markers j).tid ≠ tid := by
  have hat := (h.retire_markers tid stack).2 j
  rw [hat] at hj ⊢
  by_cases hr : (m.markers j).Retired tid stack
  · rw [if_pos hr] at hj
    exact absurd hj.symm hst
  · rw [if_neg hr] at hj ⊢
    intro htid
    have hp : (m.markers j).published := ⟨by rwa [hj], by rwa [hj]⟩
    exact hr ⟨hp, htid, by rw [hj]; exact UInt64.le_refl _⟩

omit h in
/-- Arming gives the thread this marker, and changes no other. -/
theorem armed_marker_of {i : Markers.Index} {rip : UInt64} (hfree : (m.markers i).stack = 0)
    (hst : stack ≠ 0) (hmax : stack ≠ U64_MAX) (u : UInt64) (j : Markers.Index) :
    (m.armed i tid stack rip).marker_of u j
      = if j = i ∧ u = tid then some { m.markers i with stack, tid, rip, phase := 0 }
        else m.marker_of u j := by
  unfold Table.marker_of
  rw [m.armed_markers]
  by_cases hj : j = i
  · subst hj
    rw [if_pos rfl, if_neg fun hz : (m.markers j).published ∧ _ => hz.1.1 hfree]
    by_cases hu : u = tid
    · rw [if_pos ⟨⟨hst, hmax⟩, hu.symm⟩, if_pos ⟨rfl, hu⟩]
    · rw [if_neg fun hz => hu hz.2.symm, if_neg fun hz => hu hz.2]
  · have hother : ¬(j = i ∧ u = tid) := fun hz => hj hz.1
    rw [if_neg hj, if_neg hother]

end Markers

/-- A marker at the depth itself is not kept. -/
theorem kept_stack_ne {m : Table} {tid depth : UInt64} {i : Markers.Index} {k : Marker}
    (hk : kept m tid depth i = some k) : k.stack ≠ depth := by
  have hgt := (Option.filter_eq_some_iff.mp hk).2
  rw [decide_eq_true_eq] at hgt
  rintro rfl
  exact UInt64.lt_irrefl _ hgt

/-! ## What a call does -/

/-- A tagged target has the tag. -/
theorem tag_of_tagged (raw : UInt64) : (raw ||| RAW_TARGET_TAG) &&& RAW_TARGET_TAG ≠ 0 := by
  intro h
  have hbit : ((raw ||| RAW_TARGET_TAG) &&& RAW_TARGET_TAG).toBitVec.getLsbD 63 = false := by
    rw [h]
    rfl
  rw [UInt64.toBitVec_and, UInt64.toBitVec_or, BitVec.getLsbD_and, BitVec.getLsbD_or] at hbit
  have htag : RAW_TARGET_TAG.toBitVec.getLsbD 63 = true := by decide
  rw [htag, Bool.or_true] at hbit
  cases hbit

/-- The depth of a call with a user-space stack pointer. -/
theorem trap_rsp_user {entry_rsp : UInt64} (huser : entry_rsp < 0x800000000000) :
    saturating_add entry_rsp 8 = entry_rsp + 8
      ∧ (saturating_add entry_rsp 8).toNat = entry_rsp.toNat + 8 := by
  have hlt := UInt64.lt_iff_toNat_lt.mp huser
  change _ < 0x800000000000 at hlt
  constructor
  · unfold saturating_add
    rw [if_pos (by omega)]
    rfl
  · rw [ProcMem.saturating_add_toNat]
    omega

section Call

variable (d : Dispatcher) (tid : UInt64) (process : Process) (memory : Memory)
  (return_address service r10 process_handle xmm5 entry_rsp : UInt64)

/-- The scanner has found the stub that returns to `return_address`. -/
def stub_matched : Bool :=
  StubSet.matches_iat_stub
    (maybe_scan_main_image_iat d.scanner ⟨process, d.reflex_image_start⟩).stubs return_address

/-- No marker can be armed: every slot is taken by a marker that stays, the stub is unknown,
its caller is in Reflex's image, or there is no raw syscall for the service. -/
def Unarmable : Prop :=
  (∀ i, (d.markers.markers i).stack ≠ 0
      ∧ ¬(d.markers.markers i).Retired tid (saturating_add entry_rsp 8))
    ∨ stub_matched d process return_address = false
    ∨ is_reflex_address d (stub_caller memory entry_rsp) = true
    ∨ RawSyscall.find_syscall memory return_address service = some none

variable {d tid entry_rsp}

/-- The result is Wine's dispatcher and the markers are the retired ones, or it is a raw
syscall and a free slot has been armed besides. -/
theorem dispatcher_target_cases (hok : d.markers.Ok) (htid : tid ≠ 0)
    (hst : saturating_add entry_rsp 8 ≠ 0) (hmax : saturating_add entry_rsp 8 ≠ U64_MAX) :
    let retired := Markers.retire_markers d.markers tid (saturating_add entry_rsp 8)
    ∃ target d', dispatcher_target d tid process memory return_address service r10
        process_handle xmm5 entry_rsp = some (target, d')
      ∧ ((target = d.original_dispatcher ∧ d'.markers = retired)
        ∨ ¬Unarmable d tid process memory return_address service entry_rsp
          ∧ ∃ raw i, raw.toNat + 2 ≤ return_address.toNat ∧ (retired.markers i).stack = 0
            ∧ RawSyscall.find_syscall memory return_address service = some (some raw)
            ∧ target = raw ||| RAW_TARGET_TAG
            ∧ d'.markers
              = retired.armed i tid (saturating_add entry_rsp 8) (saturating_add raw 2)
            ∧ d'.markers.Ok) := by
  intro retired
  obtain ⟨hretired, hat⟩ := hok.retire_markers tid (saturating_add entry_rsp 8)
  unfold dispatcher_target
  dsimp only
  rw [if_active_retire]
  split
  · exact ⟨_, _, rfl, Or.inl ⟨rfl, rfl⟩⟩
  · rename_i hmatch
    obtain ⟨-, hstub⟩ := not_or.mp hmatch
    split
    · exact ⟨_, _, rfl, Or.inl ⟨rfl, rfl⟩⟩
    · rename_i hcaller
      obtain ⟨found, hfound, hraw⟩ := find_syscall_total memory return_address service
      rw [hfound, Option.bind_some]
      split
      · exact ⟨_, _, rfl, Or.inl ⟨rfl, rfl⟩⟩
      · rename_i hreplay
        cases found with
        | none => simp [Markers.should_replay_raw] at hreplay
        | some raw =>
          have hle := hraw raw rfl
          -- `remember_marker` refuses a zero key.
          have hrip : saturating_add raw 2 ≠ 0 := by
            intro h0
            have hnat := ProcMem.saturating_add_toNat raw 2
            have hlt := return_address.toNat_lt
            rw [h0] at hnat
            change 0 = _ at hnat
            omega
          rcases hretired.remember_marker htid hst hmax hrip
              (fun j hj => retired_gone hok j hj hst hmax) with
            ⟨hfull, hremember⟩ | ⟨i, hfree, hremember, harmed⟩
          · rw [Option.bind_some, hremember]
            exact ⟨_, _, rfl, Or.inl ⟨rfl, rfl⟩⟩
          · rw [Option.bind_some, hremember]
            refine ⟨_, _, rfl, Or.inr ⟨?_, raw, i, hle, hfree, rfl, rfl, rfl, harmed⟩⟩
            -- The armed slot was free or retired; the rest was checked on the way.
            rintro (hfull | hno | hreflex | hnone)
            · rw [hat i, if_neg (hfull i).2] at hfree
              exact (hfull i).1 hfree
            · exact hstub (by simpa [stub_matched] using hno)
            · exact hcaller hreflex
            · rw [hfound] at hnone
              cases hnone

end Call

/-- **The markers after `dispatcher_target`.** With a user-space stack pointer the call
returns. The thread then has the markers it had above `entry_rsp + 8`, and one at that depth for
the raw syscall exactly if that is what was returned, tagged; the other threads have what they
had; and where no marker can be armed, Wine's dispatcher is returned. -/
theorem dispatcher_target_markers (d : Dispatcher) (tid : UInt64) (process : Process)
    (memory : Memory) (return_address service r10 process_handle xmm5 entry_rsp : UInt64)
    (hok : d.markers.Ok) (htid : tid ≠ 0) (huser : entry_rsp < 0x800000000000) :
    ∃ target d', dispatcher_target d tid process memory return_address service r10
        process_handle xmm5 entry_rsp = some (target, d')
      ∧ d'.markers.Ok
      ∧ (∀ u, u ≠ tid → ∀ i, d'.markers.marker_of u i = d.markers.marker_of u i)
      ∧ ((target = d.original_dispatcher
          ∧ ∀ i, d'.markers.marker_of tid i = kept d.markers tid (entry_rsp + 8) i)
        ∨ ∃ raw i k, RawSyscall.find_syscall memory return_address service = some (some raw)
          ∧ target = raw ||| RAW_TARGET_TAG
          ∧ kept d.markers tid (entry_rsp + 8) i = none ∧ d'.markers.marker_of tid i = some k
          ∧ k.tid = tid ∧ k.stack = entry_rsp + 8 ∧ k.rip.toNat = raw.toNat + 2 ∧ k.phase = 0
          ∧ ∀ j, j ≠ i → d'.markers.marker_of tid j = kept d.markers tid (entry_rsp + 8) j)
      ∧ (d.original_dispatcher &&& RAW_TARGET_TAG = 0 →
        (target &&& RAW_TARGET_TAG ≠ 0
          ↔ ∃ i k, d'.markers.marker_of tid i = some k ∧ k.stack = entry_rsp + 8))
      ∧ (Unarmable d tid process memory return_address service entry_rsp →
        target = d.original_dispatcher) := by
  obtain ⟨htrap, hnat⟩ := trap_rsp_user huser
  have hst : saturating_add entry_rsp 8 ≠ 0 := by
    intro h0
    rw [h0] at hnat
    change 0 = _ at hnat
    omega
  have hmax : saturating_add entry_rsp 8 ≠ U64_MAX := by
    intro h0
    have hlt := UInt64.lt_iff_toNat_lt.mp huser
    rw [h0] at hnat
    change 0xffffffffffffffff = _ at hnat
    change _ < 0x800000000000 at hlt
    omega
  obtain ⟨target, d', hcall, hcases⟩ := dispatcher_target_cases process memory return_address
    service r10 process_handle xmm5 hok htid hst hmax
  refine ⟨target, d', hcall, ?_⟩
  rw [← htrap]
  rcases hcases with ⟨htarget, hmarkers⟩ | ⟨harmable, raw, i, hle, hfree, hraw, htarget, hmarkers,
    hok'⟩
  · -- Wine's dispatcher: the markers of the thread are the ones that stay.
    have hself : ∀ i, d'.markers.marker_of tid i
        = kept d.markers tid (saturating_add entry_rsp 8) i := by
      intro i
      rw [hmarkers, retired_marker_of_self hok]
    refine ⟨hmarkers ▸ (hok.retire_markers tid _).1, fun u hu i => ?_, Or.inl ⟨htarget, hself⟩,
      fun huntagged => ?_, fun _ => htarget⟩
    · rw [hmarkers, retired_marker_of_ne hok hu]
    · rw [htarget]
      refine ⟨fun htag => absurd huntagged htag, ?_⟩
      rintro ⟨i, k, hk, hstack⟩
      rw [hself i] at hk
      exact absurd hstack (kept_stack_ne hk)
  · -- A raw syscall: its marker is the one more.
    have hself : ∀ j, d'.markers.marker_of tid j = if j = i
        then some { (Markers.retire_markers d.markers tid
          (saturating_add entry_rsp 8)).markers i with
            stack := saturating_add entry_rsp 8, tid := tid, rip := saturating_add raw 2,
            phase := 0 }
        else kept d.markers tid (saturating_add entry_rsp 8) j := by
      intro j
      rw [hmarkers, armed_marker_of hfree hst hmax, retired_marker_of_self hok]
      simp only [and_true]
    have hrip : (saturating_add raw 2).toNat = raw.toNat + 2 := by
      have hlt := return_address.toNat_lt
      rw [ProcMem.saturating_add_toNat]
      omega
    have hnone : kept d.markers tid (saturating_add entry_rsp 8) i = none := by
      rw [← retired_marker_of_self hok]
      exact if_neg fun hz => hz.1.1 hfree
    refine ⟨hok', fun u hu j => ?_, Or.inr ⟨raw, i, _, hraw, htarget, hnone,
      (hself i).trans (if_pos rfl), rfl, rfl, hrip, rfl, fun j hj => (hself j).trans (if_neg hj)⟩,
      fun _ => ?_, fun hun => absurd hun harmable⟩
    · rw [hmarkers, armed_marker_of hfree hst hmax, if_neg fun hz => hu hz.2,
        retired_marker_of_ne hok hu]
    · rw [htarget]
      exact ⟨fun _ => ⟨i, _, (hself i).trans (if_pos rfl), rfl⟩, fun _ => tag_of_tagged raw⟩

/-! ### A raw syscall that is replayed -/

/-- A stub of service `0x19` at `0x100000`, its syscall 18 bytes in, and a stack that is in no call
of Reflex. -/
def stub_memory : Memory := fun address =>
  if 0xff000 ≤ address ∧ address < 0x101000 then
    some (([0x4c, 0x8b, 0xd1, 0xb8, 0x19, 0, 0, 0, 0x90, 0x90, 0x90, 0x90, 0x90, 0x90, 0x90, 0x90,
      0x90, 0x90, 0x0f, 0x05] : List UInt8).getD (address.toNat - 0x100000) 0x90)
  else if 0x6000 ≤ address ∧ address < 0x8000 then some 0x11
  else none

/-- The stub is known, and thread 7 has left a marker at depth `0x6008`. -/
def marked : Dispatcher where
  original_dispatcher := 0x7f0000001000
  scanner := ⟨(StubSet.remember_stub .new 0x100000).2, 0, false⟩
  reflex_image_start := 0x500000
  reflex_image_end := 0x600000
  markers := Table.new.armed (marker_slot 0x6008) 7 0x6008 0x200014

theorem marked_ok : marked.markers.Ok :=
  Markers.ok_new.armed rfl (by decide) (by decide) (by decide) (by decide)
    fun j hj => absurd hj (by decide : (0 : UInt64) ≠ 0x6008)

/-- Thread 7 calls from a shallower depth: its marker is retired, and the one it has then is for
the raw syscall that is returned. -/
theorem marked_retired :
    (∃ k, marked.markers.marker_of 7 (marker_slot 0x6008) = some k ∧ k.stack = 0x6008) ∧
    ∃ d', dispatcher_target marked 7 ⟨none, fun _ => none⟩ stub_memory 0x10001f 0x19 0 0 0 0x7000
        = some (0x100012 ||| RAW_TARGET_TAG, d')
      ∧ (∃ i k, d'.markers.marker_of 7 i = some k ∧ k.stack = 0x7008 ∧ k.rip.toNat = 0x100014)
      ∧ ∀ i k, d'.markers.marker_of 7 i = some k → k.stack = 0x7008 := by
  obtain ⟨target, d', hcall, -, -, hmarkers, -, -⟩ := dispatcher_target_markers marked 7
    ⟨none, fun _ => none⟩ stub_memory 0x10001f 0x19 0 0 0 0x7000 marked_ok (by decide) (by decide)
  have hcomputed : (dispatcher_target marked 7 ⟨none, fun _ => none⟩ stub_memory 0x10001f 0x19 0 0
      0 0x7000).map Prod.fst = some (0x100012 ||| RAW_TARGET_TAG) := by decide +kernel
  rw [hcall, Option.map_some, Option.some.injEq] at hcomputed
  dsimp only at hcomputed
  subst hcomputed
  have hold : ∀ i, kept marked.markers 7 (0x7000 + 8) i = none := by decide +kernel
  rcases hmarkers with ⟨htarget, -⟩ | ⟨raw, i, k, hraw, htarget, -, hk, -, hstack, hrip, -, hothers⟩
  · exact absurd htarget (by decide)
  · have hfound : RawSyscall.find_syscall stub_memory 0x10001f 0x19 = some (some 0x100012) := by
      decide +kernel
    obtain rfl : raw = 0x100012 := Option.some.inj (Option.some.inj (hraw.symm.trans hfound))
    refine ⟨⟨_, rfl, rfl⟩, d', hcall, ⟨i, k, hk, hstack, hrip⟩, fun j k' hk' => ?_⟩
    by_cases hj : j = i
    · rw [hj, hk] at hk'
      rw [← Option.some.inj hk']
      exact hstack
    · rw [hothers j hj, hold j] at hk'
      cases hk'

end Linuwux.DispatcherTarget
