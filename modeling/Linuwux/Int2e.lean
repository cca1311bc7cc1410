/-
`Int2e.lean` -- `runtime/src/syscall/int2e.rs`: the instructions it looks for and the code it
builds.

Linux has no `int 2e`. Windows' thunks have a `syscall; ret` right before it, which is looked
for in memory; for other sites a page with the three instructions of [`trampoline_code_eq`] is
built, which make the same call and come back behind the site.
-/
import Linuwux.ProcMem
import Mathlib.Tactic.IntervalCases

set_option autoImplicit false

namespace Linuwux.Int2e

open ProcMem (Memory checked_add read_memory)

def INT2E_INSTRUCTION : List UInt8 := [0xcd, 0x2e]

def SYSCALL_INSTRUCTION : List UInt8 := [0x0f, 0x05]

def TRAMPOLINE_CAPACITY : ℕ := 16384

def TRAMPOLINE_LENGTH : ℕ := 26

def DIRECT_SYSCALL_THUNK : List UInt8 := [0x0f, 0x05, 0xc3]

def TEST_ZERO_CLEAR_FLAGS : UInt64 := 0x881

def TEST_ZERO_SET_FLAGS : UInt64 := 0x44

/-- `linuwux::kuser::PAGE_SIZE`. -/
def PAGE_SIZE : UInt64 := 0x1000

def next_instruction (rip : UInt64) : Option UInt64 := checked_add rip INT2E_INSTRUCTION.length

/-- `u64::checked_sub`. -/
def checked_sub (a : UInt64) (n : ℕ) : Option UInt64 :=
  if n ≤ a.toNat then some (a - .ofNat n) else none

def preceding_direct_syscall (m : Memory) (rip : UInt64) : Option UInt64 :=
  match checked_sub rip DIRECT_SYSCALL_THUNK.length with
  | none => none
  | some start =>
    if read_memory m start 3 = some DIRECT_SYSCALL_THUNK then some start else none

def direct_path_eflags (eflags : UInt64) : UInt64 :=
  (eflags &&& ~~~TEST_ZERO_CLEAR_FLAGS) ||| TEST_ZERO_SET_FLAGS

/-! ## The trampoline -/

/-- `u64::to_le_bytes`. -/
def to_le_bytes (value : UInt64) : List UInt8 :=
  (List.range 8).map fun i => .ofNat (value.toNat / 0x100 ^ i)

/-- The array `code` of `build_private_trampoline`. -/
def trampoline_code (next : UInt64) : List UInt8 :=
  let code := List.replicate TRAMPOLINE_LENGTH 0
  let code := Scans.overwrite code 0 SYSCALL_INSTRUCTION
  let code := Scans.overwrite code 2 [0x48, 0xb9]
  let code := Scans.overwrite code 4 (to_le_bytes next)
  let code := Scans.overwrite code 12 [0xff, 0x25, 0, 0, 0, 0]
  Scans.overwrite code 18 (to_le_bytes next)

inductive Instr where
  | syscall
  | movabs_rcx (value : UInt64)
  | jmp (target : UInt64)
  deriving DecidableEq, Repr

/-- How an instruction stands in memory; the operand of the jump follows it. -/
def Instr.encode : Instr → List UInt8
  | .syscall => [0x0f, 0x05]
  | .movabs_rcx value => [0x48, 0xb9] ++ to_le_bytes value
  | .jmp target => [0xff, 0x25, 0, 0, 0, 0] ++ to_le_bytes target

theorem next_instruction_eq_some {rip next : UInt64} :
    next_instruction rip = some next ↔ next.toNat = rip.toNat + 2 :=
  ProcMem.checked_add_eq_some

/-- Two bytes that can be read. -/
theorem read_memory_two {m : Memory} {address : UInt64} {b b' : UInt8} :
    read_memory m address 2 = some [b, b']
      ↔ address ≠ 0 ∧ address.toNat + 1 < 2 ^ 64 ∧ m address = some b
        ∧ m (address + 1) = some b' := by
  have haddress := address.toNat_lt
  have hbyte : m.byte address.toNat = m address := by
    unfold Memory.byte
    rw [if_pos haddress, UInt64.ofNat_toNat]
  have hsecond : address.toNat + 1 < 2 ^ 64 → m.byte (address.toNat + 1) = m (address + 1) := by
    intro h
    unfold Memory.byte
    rw [if_pos h, UInt64.ofNat_add, UInt64.ofNat_toNat]
    rfl
  rw [ProcMem.read_memory_eq_some]
  constructor
  · rintro ⟨hne, -, -, hbytes⟩
    have h0 := hbytes 0 (by decide)
    have h1 := hbytes 1 (by decide)
    have hlt : address.toNat + 1 < 2 ^ 64 := by
      by_contra hge
      rw [Memory.byte, if_neg hge] at h1
      cases h1
    rw [hsecond hlt] at h1
    exact ⟨hne, hlt, hbyte.symm.trans h0.symm, h1.symm⟩
  · rintro ⟨hne, hlt, h0, h1⟩
    refine ⟨hne, by decide, rfl, fun i hi => ?_⟩
    interval_cases i
    · exact (hbyte.trans h0).symm
    · exact ((hsecond hlt).trans h1).symm

end Linuwux.Int2e
