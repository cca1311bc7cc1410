/-
`ThunkRuns.lean` -- a thread in a Windows syscall thunk, and in a private trampoline.

`pe_stub_layout.rs` gives the thunks of a module the tail they have on Windows, `int 2e; ret`, and
`skip_int2e_fault` takes a thread that faults there back to the `syscall` it has jumped over. What
that amounts to can only be said where the bytes are executed: here they are decoded and run, with
the faults given to the handler.

The flag `SystemCall` then makes no difference to a program. Nothing is said about what the rest
of the program and the kernel do between two thunks, only that they do the same where registers
and memory are the same ([`Twin`]).
-/
import Linuwux.Int2eFault
import Linuwux.ThunkTails
import Linuwux.X86
import Mathlib.Logic.Relation

set_option autoImplicit false

namespace Linuwux.ThunkRuns

open Int2e (Gregs REG_RIP REG_EFL REG_TRAPNO Process Kernel skip_int2e_fault direct_path_eflags)
open ProcMem (Memory read_memory)
open ThunkTails (Thunk THUNK_LEN BRANCH_OFFSET THUNK_HEAD THUNK_BRANCH WINDOWS_TAIL
  rewrite_syscall_thunk_tails)
open Trampolines (Mem)

/-! ## Instructions -/

def REG_R10 : ℕ := 2

def REG_R11 : ℕ := 3

def REG_RAX : ℕ := 13

def REG_RCX : ℕ := 14

def REG_CSGSFS : ℕ := 18

def REG_ERR : ℕ := 19

/-- What stands in a thunk up to its `syscall`, and in a trampoline. -/
inductive Instr where
  | mov_r10_rcx
  | mov_eax (imm : UInt32)
  | test_byte (address : UInt64) (imm : UInt8)
  | jne (rel : UInt64)
  | syscall
  | int2e
  | movabs_rcx (imm : UInt64)
  /-- `jmp [rip + disp]` -/
  | jmp_mem (disp : UInt64)
  deriving DecidableEq, Repr

/-- A number of so many bytes, sign-extended. -/
def signed (bytes : List UInt8) : UInt64 :=
  let n := Scans.from_le_bytes bytes
  if 2 * n < 0x100 ^ bytes.length then .ofNat n else .ofNat (2 ^ 64 - 0x100 ^ bytes.length + n)

/-- The first instruction of some bytes, and its length. -/
def decode : List UInt8 → Option (Instr × ℕ)
  | 0x4c :: 0x8b :: 0xd1 :: _ => some (.mov_r10_rcx, 3)
  | 0xb8 :: a :: b :: c :: d :: _ =>
    some (.mov_eax (.ofNat (Scans.from_le_bytes [a, b, c, d])), 5)
  | 0xf6 :: 0x04 :: 0x25 :: a :: b :: c :: d :: imm :: _ =>
    some (.test_byte (signed [a, b, c, d]) imm, 8)
  | 0x75 :: rel :: _ => some (.jne (signed [rel]), 2)
  | 0x0f :: 0x05 :: _ => some (.syscall, 2)
  | 0xcd :: 0x2e :: _ => some (.int2e, 2)
  | 0x48 :: 0xb9 :: a :: b :: c :: d :: e :: f :: g :: h :: _ =>
    some (.movabs_rcx (ProcMem.u64_from_le_bytes [a, b, c, d, e, f, g, h]), 10)
  | 0xff :: 0x25 :: a :: b :: c :: d :: _ => some (.jmp_mem (signed [a, b, c, d]), 6)
  | _ => none

/-- The bytes from an address on, up to the first that cannot be read. -/
def fetch (m : Memory) (address : ℕ) : ℕ → List UInt8
  | 0 => []
  | n + 1 =>
    match m.byte address with
    | none => []
    | some b => b :: fetch m (address + 1) n

/-! ## Flags -/

/-- CF, PF, AF, ZF, SF and OF. -/
def STATUS_FLAGS : UInt64 := 0x8d5

def PARITY_FLAG : UInt64 := 0x4

def ADJUST_FLAG : UInt64 := 0x10

def ZERO_FLAG : UInt64 := 0x40

def SIGN_FLAG : UInt64 := 0x80

/-- The processor sets it in the flags it saves for a fault. -/
def RESUME_FLAG : UInt64 := 0x10000

/-- Whether an even number of bits is set. -/
def parity (b : UInt8) : Bool := ((List.range 8).countP fun i => b.toNat.testBit i) % 2 == 0

/-- EFLAGS after `test` with this result; AF is undefined. -/
def test_eflags (eflags : UInt64) (result : UInt8) (undefined : UInt64) : UInt64 :=
  (eflags &&& ~~~STATUS_FLAGS) ||| ((if parity result then PARITY_FLAG else 0)
    ||| (if result = 0 then ZERO_FLAG else 0) ||| (if result ≥ 0x80 then SIGN_FLAG else 0)
    ||| undefined &&& ADJUST_FLAG)

/-! ## A thread -/

inductive Outcome where
  | running (gregs : Gregs)
  | at_syscall
  | fault
  | stuck

/-- An instruction, with `next` behind it. `undefined` is what the processor does where the
architecture leaves it open. -/
def exec (undefined : Gregs → UInt64) (m : Memory) (g : Gregs) (next : UInt64) : Instr → Outcome
  | .mov_r10_rcx => .running (Function.update (Function.update g REG_R10 (g REG_RCX)) REG_RIP next)
  | .mov_eax imm =>
    .running (Function.update (Function.update g REG_RAX imm.toUInt64) REG_RIP next)
  | .test_byte address imm =>
    match m address with
    | none => .stuck
    | some b =>
      let eflags := test_eflags (g REG_EFL) (b &&& imm) (undefined g)
      .running (Function.update (Function.update g REG_EFL eflags) REG_RIP next)
  | .jne rel =>
    .running (Function.update g REG_RIP (if g REG_EFL &&& ZERO_FLAG = 0 then next + rel else next))
  | .syscall => .at_syscall
  | .int2e => .fault
  | .movabs_rcx imm => .running (Function.update (Function.update g REG_RCX imm) REG_RIP next)
  | .jmp_mem disp =>
    match ProcMem.read_u64 m (next + disp) with
    | none => .stuck
    | some target => .running (Function.update g REG_RIP target)

/-- The next instruction, executed. -/
def step (undefined : Gregs → UInt64) (m : Memory) (g : Gregs) : Outcome :=
  match decode (fetch m (g REG_RIP).toNat 15) with
  | none => .stuck
  | some (i, len) => exec undefined m g (g REG_RIP + .ofNat len) i

/-- The signal context of `int 2e`, a general protection fault with the selector error code of
the missing gate. -/
def fault_context (g : Gregs) : Gregs :=
  Function.update (Function.update (Function.update g REG_TRAPNO 13) REG_ERR 0x172) REG_EFL
    (g REG_EFL ||| RESUME_FLAG)

/-- A thread, its process, and what the kernel answers at its next fault. -/
structure State where
  kernel : Kernel
  process : Process
  mem : Mem
  gregs : Gregs

/-- How a thread gets to the system. -/
inductive Stop where
  /-- At a `syscall`, after so many faults. -/
  | system (faults : ℕ) (s : State)
  | lost

/-- A thread up to its next `syscall`. -/
def enter (undefined : Gregs → UInt64) (faults : ℕ) : ℕ → State → Stop
  | 0, _ => .lost
  | n + 1, s =>
    match step undefined s.process.memory s.gregs with
    | .running gregs => enter undefined faults n { s with gregs := gregs }
    | .at_syscall => .system faults s
    | .fault =>
      let left := skip_int2e_fault s.kernel s.process s.mem (fault_context s.gregs)
      if left.handled then
        enter undefined (faults + 1) n
          { s with process := left.process, mem := left.mem, gregs := left.gregs }
      else .lost
    | .stuck => .lost

/-- The calls of a program: `rest` is everything from a `syscall` to the head of the next
thunk. -/
def calls (undefined : Gregs → UInt64) (rest : State → Option State) : ℕ → State → List Stop
  | 0, _ => []
  | n + 1, s =>
    match enter undefined 0 6 s with
    | .lost => [.lost]
    | .system faults s =>
      .system faults s :: match rest s with
        | none => []
        | some s => calls undefined rest n s

/-! ## Decoding -/

theorem fetch_eq {m : Memory} {address n : ℕ} (bytes : List UInt8)
    (h : ∀ i < bytes.length, m.byte (address + i) = bytes[i]?) (hn : bytes.length ≤ n) :
    fetch m address n = bytes ++ fetch m (address + bytes.length) (n - bytes.length) := by
  induction bytes generalizing address n with
  | nil => rfl
  | cons b bytes ih =>
    cases n with
    | zero => exact absurd hn (Nat.not_succ_le_zero _)
    | succ n =>
      have hfirst : m.byte address = some b := h 0 (Nat.succ_pos _)
      have hrest : ∀ i < bytes.length, m.byte (address + 1 + i) = bytes[i]? := fun i hi => by
        rw [Nat.add_assoc, Nat.add_comm 1]
        exact h (i + 1) (Nat.succ_lt_succ hi)
      rw [fetch, hfirst]
      dsimp only
      rw [ih hrest (Nat.le_of_succ_le_succ hn), List.cons_append, List.length_cons,
        Nat.add_assoc, Nat.add_comm 1, Nat.add_sub_add_right]

section Decoding

variable {m : Memory} {head : UInt64} {bytes : List UInt8} {len k : ℕ}
  (hread : read_memory m head len = some bytes)
include hread

/-- Inside bytes that can be read, addresses do not wrap. -/
theorem toNat_within (hk : k < len) : (head + .ofNat k).toNat = head.toNat + k := by
  obtain ⟨-, -, hlen, hbytes⟩ := ProcMem.read_memory_eq_some.mp hread
  have hlt : head.toNat + k < 2 ^ 64 := by
    by_contra hge
    have hat := hbytes k hk
    rw [Memory.byte, if_neg hge, List.getElem?_eq_none_iff] at hat
    omega
  rw [UInt64.toNat_add, UInt64.toNat_ofNat']
  omega

/-- An instruction that stands at offset `k` of the bytes. -/
theorem decode_within (part : List UInt8) {i : Instr} {l : ℕ} (hne : part ≠ [])
    (hpart : Scans.slice bytes k (k + part.length) = part) (hfits : k + part.length ≤ len)
    (hlen : part.length ≤ 15) (hdecode : ∀ rest, decode (part ++ rest) = some (i, l)) :
    decode (fetch m (head + .ofNat k).toNat 15) = some (i, l) := by
  have hpos : 0 < part.length := List.length_pos_iff.mpr hne
  have hnat := toNat_within hread (k := k) (by omega)
  obtain ⟨-, -, -, hbytes⟩ := ProcMem.read_memory_eq_some.mp hread
  rw [fetch_eq part (fun j hj => ?_) hlen]
  · exact hdecode _
  · rw [hnat, Nat.add_assoc, ← hbytes (k + j) (by omega)]
    have hslice := Scans.getElem?_slice bytes k (k + part.length) j
    rw [hpart, if_pos (by omega)] at hslice
    exact hslice.symm

end Decoding

/-- The bytes of a thunk, but for its service number. -/
def thunk_bytes (service : List UInt8) : List UInt8 :=
  THUNK_HEAD ++ service ++ THUNK_BRANCH ++ WINDOWS_TAIL

/-- The service number of a thunk. -/
def service_bytes (b : List UInt8) (o : ℕ) : List UInt8 :=
  Scans.slice b (o + ThunkTails.SERVICE_OFFSET) (o + ThunkTails.BRANCH_OFFSET)

/-- What the rewriting makes of a thunk. -/
theorem rewritten_thunk {b : List UInt8} {o : ℕ} (h : Thunk b 0 o) :
    (service_bytes b o).length = 4
      ∧ Scans.slice (rewrite_syscall_thunk_tails b).1 o (o + THUNK_LEN)
        = thunk_bytes (service_bytes b o) := by
  obtain ⟨hr, -⟩ := ThunkTails.rewrite_spec b
  obtain ⟨hfits, hhead, hbranch⟩ := h.matches
  have hlen := hr.length
  simp only [THUNK_LEN, ThunkTails.SERVICE_OFFSET, ThunkTails.BRANCH_OFFSET,
    ThunkTails.TAIL_OFFSET] at hfits hhead hbranch
  have hservice : (service_bytes b o).length = 4 := by
    refine (Scans.length_slice ?_).trans ?_
    · simp only [ThunkTails.BRANCH_OFFSET]
      omega
    · simp only [ThunkTails.BRANCH_OFFSET, ThunkTails.SERVICE_OFFSET]
      omega
  have hsignature : Scans.slice b o (o + ThunkTails.TAIL_OFFSET)
      = THUNK_HEAD ++ service_bytes b o ++ THUNK_BRANCH := by
    rw [← hhead, ← hbranch]
    unfold service_bytes
    simp only [ThunkTails.SERVICE_OFFSET, ThunkTails.BRANCH_OFFSET, ThunkTails.TAIL_OFFSET]
    rw [Scans.slice_append (by omega) (by omega) (by omega),
      Scans.slice_append (by omega) (by omega) (by omega)]
  refine ⟨hservice, ?_⟩
  unfold thunk_bytes
  rw [← hsignature, ← hr.signature h, ← hr.tails o h]
  unfold ThunkTails.tail
  simp only [THUNK_LEN, ThunkTails.TAIL_OFFSET]
  exact (Scans.slice_append (by omega) (by omega) (by omega)).symm

/-! ## A thunk -/

/-- `SystemCall` of KUSER_SHARED_DATA, which the branch of a thunk tests. -/
def SYSTEM_CALL : UInt64 := 0x7ffe0308

/-- The thread is at the head of thunk `o` of a file whose tails have been rewritten. -/
structure AtThunk (b : List UInt8) (o : ℕ) (s : State) : Prop where
  selected : Thunk b 0 o
  shown : read_memory s.process.memory (s.gregs REG_RIP) THUNK_LEN
    = some (Scans.slice (rewrite_syscall_thunk_tails b).1 o (o + THUNK_LEN))
  readable : (s.process.memory SYSTEM_CALL).isSome

def service_number (b : List UInt8) (o : ℕ) : UInt32 :=
  .ofNat (Scans.from_le_bytes (service_bytes b o))

/-- The registers behind the `test` of a thunk. -/
def tested (undefined : Gregs → UInt64) (service : UInt32) (flag : UInt8) (g : Gregs) : Gregs :=
  let g₁ := Function.update (Function.update g REG_R10 (g REG_RCX)) REG_RIP (g REG_RIP + .ofNat 3)
  let g₂ := Function.update (Function.update g₁ REG_RAX service.toUInt64) REG_RIP
    (g₁ REG_RIP + .ofNat 5)
  let eflags := test_eflags (g₂ REG_EFL) (flag &&& 1) (undefined g₂)
  Function.update (Function.update g₂ REG_EFL eflags) REG_RIP (g₂ REG_RIP + .ofNat 8)

/-- The bytes of the thunk from its test on. -/
def BRANCH_AND_TAIL : List UInt8 := THUNK_BRANCH ++ WINDOWS_TAIL

section Thunk

variable (undefined : Gregs → UInt64) {faults n : ℕ} {s : State}

variable {undefined} in
theorem step_of_decode {m : Memory} {g : Gregs} {i : Instr} {l : ℕ}
    (h : decode (fetch m (g REG_RIP).toNat 15) = some (i, l)) :
    step undefined m g = exec undefined m g (g REG_RIP + .ofNat l) i := by
  rw [step, h]

variable {undefined} in
theorem enter_running {g : Gregs} (h : step undefined s.process.memory s.gregs = .running g) :
    enter undefined faults (n + 1) s = enter undefined faults n { s with gregs := g } := by
  rw [enter, h]

variable {undefined} in
theorem enter_at_syscall (h : step undefined s.process.memory s.gregs = .at_syscall) :
    enter undefined faults (n + 1) s = .system faults s := by
  rw [enter, h]

variable {b : List UInt8} {o : ℕ} (h : AtThunk b o s)
include h

theorem AtThunk.read : read_memory s.process.memory (s.gregs REG_RIP) THUNK_LEN
    = some (thunk_bytes (service_bytes b o)) := by
  rw [h.shown, (rewritten_thunk h.selected).2]

/-- Some bytes of the thunk. -/
theorem AtThunk.bytes {front part back : List UInt8}
    (hbytes : thunk_bytes (service_bytes b o) = front ++ part ++ back) :
    front.length + part.length ≤ THUNK_LEN
      ∧ Scans.slice (thunk_bytes (service_bytes b o)) front.length (front.length + part.length)
        = part := by
  obtain ⟨-, -, htotal, -⟩ := ProcMem.read_memory_eq_some.mp h.read
  have hfits := congrArg List.length hbytes
  rw [htotal, List.length_append, List.length_append] at hfits
  refine ⟨by omega, ?_⟩
  rw [hbytes]
  unfold Scans.slice
  rw [List.take_append_of_le_length (by rw [List.length_append]),
    List.take_of_length_le (by rw [List.length_append]), List.drop_left]

/-- The instruction at an offset of the thunk. -/
theorem AtThunk.step {g : Gregs} {l : ℕ} {i : Instr} (front part back : List UInt8)
    (hg : g REG_RIP = s.gregs REG_RIP + .ofNat front.length)
    (hbytes : thunk_bytes (service_bytes b o) = front ++ part ++ back) (hne : part ≠ [])
    (hlen : part.length ≤ 15) (hdecode : ∀ rest, decode (part ++ rest) = some (i, l)) :
    ThunkRuns.step undefined s.process.memory g
      = exec undefined s.process.memory g (g REG_RIP + .ofNat l) i := by
  obtain ⟨hfits, hpart⟩ := h.bytes hbytes
  refine step_of_decode ?_
  rw [hg]
  exact decode_within h.read _ hne hpart hfits hlen hdecode

/-- Up to the branch, whatever the flag is. -/
theorem AtThunk.enter_tested {flag : UInt8} (hflag : s.process.memory SYSTEM_CALL = some flag) :
    enter undefined faults (n + 3) s = enter undefined faults n
      { s with gregs := tested undefined (service_number b o) flag s.gregs } := by
  obtain ⟨hservice, -⟩ := rewritten_thunk h.selected
  unfold service_number
  match hbytes : service_bytes b o, hservice with
  | [x, y, z, w], _ =>
    have hthunk : thunk_bytes (service_bytes b o)
        = THUNK_HEAD ++ [x, y, z, w] ++ BRANCH_AND_TAIL := by
      rw [hbytes]
      rfl
    let g₁ := Function.update (Function.update s.gregs REG_R10 (s.gregs REG_RCX)) REG_RIP
      (s.gregs REG_RIP + .ofNat 3)
    let g₂ := Function.update (Function.update g₁ REG_RAX
      (UInt32.ofNat (Scans.from_le_bytes [x, y, z, w])).toUInt64) REG_RIP
      (g₁ REG_RIP + .ofNat 5)
    have hmov := h.step undefined (g := s.gregs) [] [0x4c, 0x8b, 0xd1]
      (0xb8 :: [x, y, z, w] ++ BRANCH_AND_TAIL) (UInt64.add_zero _).symm hthunk nofun
      (by decide) fun rest => rfl
    have hservice := h.step undefined (g := g₁) [0x4c, 0x8b, 0xd1]
      (0xb8 :: [x, y, z, w]) BRANCH_AND_TAIL rfl hthunk nofun (by simp) fun rest => rfl
    have htest := h.step undefined (g := g₂) (THUNK_HEAD ++ [x, y, z, w])
      [0xf6, 0x04, 0x25, 0x08, 0x03, 0xfe, 0x7f, 0x01]
      ([0x75, 0x03, 0x0f, 0x05, 0xc3] ++ WINDOWS_TAIL) (X86.add_ofNat _ 3 5) hthunk nofun
      (by decide) fun rest => rfl
    have hexec : exec undefined s.process.memory g₂ (g₂ REG_RIP + .ofNat 8)
        (.test_byte SYSTEM_CALL 1) = .running (tested undefined
          (.ofNat (Scans.from_le_bytes [x, y, z, w])) flag s.gregs) := by
      unfold exec
      dsimp only
      rw [hflag]
      rfl
    rw [enter_running (g := g₁) hmov, enter_running (s := { s with gregs := g₁ }) hservice,
      enter_running (s := { s with gregs := g₂ }) (htest.trans hexec)]

/-- The bytes of the thunk from its test on, divided. -/
theorem AtThunk.behind {k n : ℕ} (hn : k + n ≤ BRANCH_AND_TAIL.length) :
    ∃ front back, thunk_bytes (service_bytes b o)
        = front ++ (BRANCH_AND_TAIL.drop k).take n ++ back
      ∧ front.length = BRANCH_OFFSET + k ∧ ((BRANCH_AND_TAIL.drop k).take n).length = n := by
  obtain ⟨hservice, -⟩ := rewritten_thunk h.selected
  refine ⟨THUNK_HEAD ++ service_bytes b o ++ BRANCH_AND_TAIL.take k,
    (BRANCH_AND_TAIL.drop k).drop n, ?_, ?_, ?_⟩
  · rw [List.append_assoc, List.take_append_drop, List.append_assoc, List.take_append_drop,
      thunk_bytes, BRANCH_AND_TAIL, List.append_assoc _ THUNK_BRANCH]
  · rw [List.length_append, List.length_append, hservice, List.length_take,
      Nat.min_eq_left (by omega)]
    rfl
  · rw [List.length_take, List.length_drop]
    omega

/-- The instructions of the thunk that are behind its test. -/
theorem AtThunk.step_behind {g : Gregs} {l : ℕ} {i : Instr} (k : ℕ)
    (hg : g REG_RIP = s.gregs REG_RIP + .ofNat (BRANCH_OFFSET + k))
    (hk : k + 2 ≤ BRANCH_AND_TAIL.length)
    (hdecode : ∀ rest, decode ((BRANCH_AND_TAIL.drop k).take 2 ++ rest) = some (i, l)) :
    ThunkRuns.step undefined s.process.memory g
      = exec undefined s.process.memory g (g REG_RIP + .ofNat l) i := by
  obtain ⟨front, back, hbytes, hfront, hlen⟩ := h.behind hk
  refine h.step undefined front ((BRANCH_AND_TAIL.drop k).take 2) back ?_ hbytes ?_ ?_ hdecode
  · rw [hg, hfront]
  · intro hnil
    rw [hnil] at hlen
    cases hlen
  · rw [hlen]
    decide

theorem AtThunk.read_behind {k n : ℕ} (hn : k + n ≤ BRANCH_AND_TAIL.length) (hpos : n ≠ 0) :
    read_memory s.process.memory (s.gregs REG_RIP + .ofNat (BRANCH_OFFSET + k)) n
      = some ((BRANCH_AND_TAIL.drop k).take n) := by
  obtain ⟨front, back, hbytes, hfront, hlen⟩ := h.behind hn
  obtain ⟨hfits, hslice⟩ := h.bytes hbytes
  rw [hfront, hlen] at hfits hslice
  rw [ProcMem.read_memory_part h.read hpos hfits (toNat_within h.read (by omega)), hslice]

/-! ### The branch -/

omit h in
theorem tested_rip (service : UInt32) (flag : UInt8) (g : Gregs) :
    tested undefined service flag g REG_RIP = g REG_RIP + .ofNat 0x10 := by
  unfold tested
  simp only [Function.update_self, X86.add_ofNat]

omit h in
/-- ZF says what `test` has found. -/
theorem test_eflags_zero (eflags undefined : UInt64) :
    test_eflags eflags 0 undefined &&& ZERO_FLAG ≠ 0
      ∧ test_eflags eflags 1 undefined &&& ZERO_FLAG = 0 := by
  have hparity : parity 0 = true ∧ parity 1 = false := by decide
  constructor
  · intro heq
    have hbit := X86.bit_of_and_eq heq 6
    unfold test_eflags at hbit
    rw [hparity.1, if_pos rfl, if_pos rfl, if_neg (by decide)] at hbit
    simp only [X86.bit_and, X86.bit_or, X86.bit_zero] at hbit
    have hzero : X86.bit ZERO_FLAG 6 = true := by decide
    simp [hzero] at hbit
  · unfold test_eflags
    rw [hparity.2, if_neg Bool.false_ne_true, if_neg (by decide), if_neg (by decide)]
    refine X86.eq_of_bits fun i hi => ?_
    have hstatus := X86.bit_of_and_eq (by decide : STATUS_FLAGS &&& ZERO_FLAG = ZERO_FLAG) i
    have hadjust := X86.bit_of_and_eq (by decide : ADJUST_FLAG &&& ZERO_FLAG = 0) i
    simp only [X86.bit_and, X86.bit_or, X86.bit_not _ hi, X86.bit_zero] at *
    grind

/-- The registers at the `syscall` of the thunk, the thread having come there on its own. -/
def direct (undefined : Gregs → UInt64) (service : UInt32) (flag : UInt8) (g : Gregs) : Gregs :=
  Function.update (tested undefined service flag g) REG_RIP (g REG_RIP + .ofNat 0x12)

/-- `SystemCall` is clear. -/
theorem AtThunk.enter_clear {flag : UInt8} (hflag : s.process.memory SYSTEM_CALL = some flag)
    (hclear : flag &&& 1 = 0) : enter undefined faults 6 s = .system faults
      { s with gregs := direct undefined (service_number b o) flag s.gregs } := by
  have hrip := tested_rip undefined (service_number b o) flag s.gregs
  have hjne := h.step_behind undefined 8 hrip (by decide) fun rest => rfl
  have hzero : ¬ tested undefined (service_number b o) flag s.gregs REG_EFL &&& ZERO_FLAG = 0 := by
    unfold tested
    rw [Function.update_of_ne (by decide), Function.update_self, hclear]
    exact (test_eflags_zero _ _).1
  have hexec : exec undefined s.process.memory (tested undefined (service_number b o) flag s.gregs)
      (tested undefined (service_number b o) flag s.gregs REG_RIP + .ofNat 2) (.jne 3)
      = .running (direct undefined (service_number b o) flag s.gregs) := by
    unfold exec direct
    dsimp only
    rw [if_neg hzero, hrip, X86.add_ofNat]
  have hsyscall := h.step_behind undefined
    (g := direct undefined (service_number b o) flag s.gregs) 10 (Function.update_self ..)
    (by decide) fun rest => rfl
  let t := tested undefined (service_number b o) flag s.gregs
  rw [h.enter_tested undefined hflag,
    enter_running (s := { s with gregs := t }) (hjne.trans hexec)]
  exact enter_at_syscall hsyscall

/-- The handler takes a thread at the `int 2e` of the thunk back to its `syscall`. -/
theorem AtThunk.rewinds {g : Gregs} (htrap : g REG_TRAPNO = 13)
    (hrip : g REG_RIP = s.gregs REG_RIP + .ofNat 0x15) :
    skip_int2e_fault s.kernel s.process s.mem g
      = ⟨true, Function.update (Function.update g REG_EFL (direct_path_eflags (g REG_EFL))) REG_RIP
        (s.gregs REG_RIP + .ofNat 0x12), s.process, s.mem⟩ := by
  have hint2e : read_memory s.process.memory (g REG_RIP) 2 = some Int2e.INT2E_INSTRUCTION := by
    rw [hrip]
    exact h.read_behind (k := 13) (by decide) (by decide)
  have hdirect : read_memory s.process.memory (s.gregs REG_RIP + .ofNat 0x12) 3
      = some Int2e.DIRECT_SYSCALL_THUNK := h.read_behind (k := 10) (by decide) (by decide)
  have hpreceding : Int2e.preceding_direct_syscall s.process.memory (g REG_RIP)
      = some (s.gregs REG_RIP + .ofNat 0x12) := by
    have hnat := toNat_within h.read (k := 0x15) (by decide)
    have hsub : s.gregs REG_RIP + UInt64.ofNat 0x15 - UInt64.ofNat 3
        = s.gregs REG_RIP + .ofNat 0x12 := by grind
    have hchecked : Int2e.checked_sub (g REG_RIP) Int2e.DIRECT_SYSCALL_THUNK.length
        = some (s.gregs REG_RIP + .ofNat 0x12) := by
      refine (if_pos ?_).trans (congrArg some ?_)
      · rw [hrip, hnat]
        exact Nat.le_add_left_of_le (by decide)
      · rw [hrip]
        exact hsub
    unfold Int2e.preceding_direct_syscall
    rw [hchecked]
    exact if_pos hdirect
  unfold skip_int2e_fault
  rw [if_neg (not_not.mpr htrap), if_neg (not_not.mpr hint2e), hpreceding]

/-- The registers at the `syscall` of the thunk, the thread having been taken back to it. -/
def rewound (undefined : Gregs → UInt64) (service : UInt32) (flag : UInt8) (g : Gregs) : Gregs :=
  let context := fault_context
    (Function.update (tested undefined service flag g) REG_RIP (g REG_RIP + .ofNat 0x15))
  Function.update (Function.update context REG_EFL (direct_path_eflags (context REG_EFL))) REG_RIP
    (g REG_RIP + .ofNat 0x12)

/-- `SystemCall` is set. -/
theorem AtThunk.enter_set {flag : UInt8} (hflag : s.process.memory SYSTEM_CALL = some flag)
    (hset : flag &&& 1 = 1) : enter undefined faults 6 s = .system (faults + 1)
      { s with gregs := rewound undefined (service_number b o) flag s.gregs } := by
  let t := tested undefined (service_number b o) flag s.gregs
  let u := Function.update t REG_RIP (s.gregs REG_RIP + .ofNat 0x15)
  let r := rewound undefined (service_number b o) flag s.gregs
  have hrip : t REG_RIP = s.gregs REG_RIP + .ofNat 0x10 := tested_rip ..
  have hjne := h.step_behind undefined 8 hrip (by decide) fun rest => rfl
  have hzero : t REG_EFL &&& ZERO_FLAG = 0 := by
    unfold t tested
    rw [Function.update_of_ne (by decide), Function.update_self, hset]
    exact (test_eflags_zero _ _).2
  have hexec : exec undefined s.process.memory t (t REG_RIP + .ofNat 2) (.jne 3)
      = .running u := by
    unfold exec u
    dsimp only
    rw [if_pos hzero, hrip, X86.add_ofNat]
    exact congrArg (fun rip => Outcome.running (Function.update t REG_RIP rip))
      (X86.add_ofNat _ 0x12 3)
  have hint2e := h.step_behind undefined (g := u) 13 (Function.update_self ..) (by decide)
    fun rest => rfl
  have hhandled := h.rewinds (g := fault_context u) rfl rfl
  have hsyscall := h.step_behind undefined (g := r) 10 rfl (by decide) fun rest => rfl
  rw [h.enter_tested undefined hflag,
    enter_running (s := { s with gregs := t }) (hjne.trans hexec), enter, hint2e]
  unfold exec
  dsimp only
  rw [hhandled, if_pos rfl]
  exact enter_at_syscall hsyscall

end Thunk

/-! ## The flag makes no difference -/

/-- The registers that the `syscall` of a thunk is reached with, but for the flags. -/
def entered (service : UInt32) (g : Gregs) (reg : ℕ) : UInt64 :=
  if reg = REG_RIP then g REG_RIP + .ofNat 0x12
  else if reg = REG_RAX then service.toUInt64
  else if reg = REG_R10 then g REG_RCX
  else g reg

section Registers

variable (undefined : Gregs → UInt64) (service : UInt32) (flag : UInt8) (g : Gregs) {reg : ℕ}

theorem tested_of_ne (hrip : reg ≠ REG_RIP) (hefl : reg ≠ REG_EFL) :
    tested undefined service flag g reg = entered service g reg := by
  unfold tested entered
  simp only [Function.update_apply, if_neg hrip, if_neg hefl]

theorem direct_of_ne (hefl : reg ≠ REG_EFL) :
    direct undefined service flag g reg = entered service g reg := by
  unfold direct
  by_cases hrip : reg = REG_RIP
  · rw [hrip, Function.update_self, entered, if_pos rfl]
  · rw [Function.update_of_ne hrip, tested_of_ne undefined service flag g hrip hefl]

theorem rewound_of_ne (hreg : reg ≤ REG_CSGSFS) (hefl : reg ≠ REG_EFL) :
    rewound undefined service flag g reg = entered service g reg := by
  have hhigh : reg ≠ REG_TRAPNO ∧ reg ≠ REG_ERR := by
    unfold REG_CSGSFS at hreg
    unfold REG_TRAPNO REG_ERR
    omega
  unfold rewound fault_context
  by_cases hrip : reg = REG_RIP
  · rw [hrip, Function.update_self, entered, if_pos rfl]
  · rw [Function.update_of_ne hrip, Function.update_of_ne hefl, Function.update_of_ne hefl,
      Function.update_of_ne hhigh.2, Function.update_of_ne hhigh.1, Function.update_of_ne hrip,
      tested_of_ne undefined service flag g hrip hefl]

theorem direct_eflags : ∃ x, direct undefined service flag g REG_EFL
    = test_eflags (g REG_EFL) (flag &&& 1) x := ⟨_, rfl⟩

theorem rewound_eflags : ∃ x, rewound undefined service flag g REG_EFL
    = direct_path_eflags (test_eflags (g REG_EFL) (flag &&& 1) x ||| RESUME_FLAG) := ⟨_, rfl⟩

end Registers

/-- AF, which `test` leaves undefined, and RF, which is set in the flags that a fault saves. -/
def UNSEEN_FLAGS : UInt64 := 0x10010

/-- The flags of the direct path are what the handler makes of those of the other one. -/
theorem eflags_agree {e e' : UInt64} (he : e &&& ~~~UNSEEN_FLAGS = e' &&& ~~~UNSEEN_FLAGS)
    (undefined undefined' : UInt64) :
    test_eflags e 0 undefined &&& ~~~UNSEEN_FLAGS
      = direct_path_eflags (test_eflags e' 1 undefined' ||| RESUME_FLAG) &&& ~~~UNSEEN_FLAGS := by
  have hparity : parity 0 = true ∧ parity 1 = false := by decide
  unfold test_eflags direct_path_eflags
  rw [hparity.1, hparity.2, if_pos rfl, if_pos rfl, if_neg (by decide), if_neg Bool.false_ne_true,
    if_neg (by decide), if_neg (by decide)]
  refine X86.eq_of_bits fun i hi => ?_
  have he := X86.bit_of_and_eq he i
  have hset := X86.bit_of_and_eq
    (by decide : Int2e.TEST_ZERO_SET_FLAGS &&& (PARITY_FLAG ||| ZERO_FLAG)
      = PARITY_FLAG ||| ZERO_FLAG) i
  have hset' := X86.bit_of_and_eq
    (by decide : Int2e.TEST_ZERO_SET_FLAGS &&& (PARITY_FLAG ||| ZERO_FLAG)
      = Int2e.TEST_ZERO_SET_FLAGS) i
  have hclear := X86.bit_of_and_eq
    (by decide : Int2e.TEST_ZERO_CLEAR_FLAGS &&& STATUS_FLAGS = Int2e.TEST_ZERO_CLEAR_FLAGS) i
  have hadjust := X86.bit_of_and_eq (by decide : ADJUST_FLAG &&& UNSEEN_FLAGS = ADJUST_FLAG) i
  have hresume := X86.bit_of_and_eq (by decide : RESUME_FLAG &&& UNSEEN_FLAGS = RESUME_FLAG) i
  simp only [X86.bit_and, X86.bit_or, X86.bit_not _ hi, X86.bit_zero] at *
  grind

/-- The same thread of the same process, with `SystemCall` clear and set. -/
structure Twin (s s' : State) : Prop where
  kernel : s.kernel = s'.kernel
  mem : s.mem = s'.mem
  protection : s.process.protection = s'.process.protection
  bytes : ∀ address ≠ SYSTEM_CALL, s.process.bytes address = s'.process.bytes address
  clear : s.process.bytes SYSTEM_CALL &&& 1 = 0
  set : s'.process.bytes SYSTEM_CALL &&& 1 = 1
  registers : ∀ reg ≤ REG_CSGSFS, reg ≠ REG_EFL → s.gregs reg = s'.gregs reg
  eflags : s.gregs REG_EFL &&& ~~~UNSEEN_FLAGS = s'.gregs REG_EFL &&& ~~~UNSEEN_FLAGS

theorem AtThunk.flag {b : List UInt8} {o : ℕ} {s : State} (h : AtThunk b o s) :
    s.process.memory SYSTEM_CALL = some (s.process.bytes SYSTEM_CALL) := by
  obtain ⟨flag, hflag⟩ := Option.isSome_iff_exists.mp h.readable
  rw [hflag, (Int2e.Process.memory_eq_some.mp hflag).2]

section Twins

variable (undefined undefined' : Gregs → UInt64) {s s' : State}

/-- One call: with the flag set there is one fault more, and nothing else. -/
theorem enter_twins {b : List UInt8} {o : ℕ} (hs : AtThunk b o s) (hs' : AtThunk b o s')
    (h : Twin s s') : ∃ t t', enter undefined 0 6 s = .system 0 t
      ∧ enter undefined' 0 6 s' = .system 1 t' ∧ Twin t t' := by
  refine ⟨_, _, hs.enter_clear undefined hs.flag h.clear,
    hs'.enter_set undefined' hs'.flag h.set, ⟨h.kernel, h.mem, h.protection, h.bytes, h.clear,
      h.set, fun reg hreg hefl => ?_, ?_⟩⟩
  · dsimp only
    rw [direct_of_ne _ _ _ _ hefl, rewound_of_ne _ _ _ _ hreg hefl]
    unfold entered
    rw [h.registers REG_RIP (by decide) (by decide), h.registers REG_RCX (by decide) (by decide),
      h.registers reg hreg hefl]
  · obtain ⟨x, hx⟩ := direct_eflags undefined (service_number b o)
      (s.process.bytes SYSTEM_CALL) s.gregs
    obtain ⟨y, hy⟩ := rewound_eflags undefined' (service_number b o)
      (s'.process.bytes SYSTEM_CALL) s'.gregs
    dsimp only
    rw [hx, hy, h.clear, h.set]
    exact eflags_agree h.eflags x y

/-- Twins at the head of one thunk. -/
def TwinThunks (s s' : State) : Prop :=
  Twin s s' ∧ ∃ b o, AtThunk b o s ∧ AtThunk b o s'

/-- **The flag makes no difference.** Two threads of a program call the system through rewritten
thunks, the one in a process where `SystemCall` is clear and the other where it is set. If what is
outside of the thunks does not tell twins apart, they make the same calls with the same registers,
one after the other, and with the flag set each costs one fault. -/
theorem system_call_flag_makes_no_difference {rest rest' : State → Option State}
    (hrest : ∀ t t', Twin t t' → Option.Rel TwinThunks (rest t) (rest' t'))
    (h : TwinThunks s s') (n : ℕ) :
    List.Forall₂ (fun stop stop' => ∃ t t', stop = .system 0 t ∧ stop' = .system 1 t' ∧ Twin t t')
      (calls undefined rest n s) (calls undefined' rest' n s') := by
  induction n generalizing s s' with
  | zero => exact .nil
  | succ n ih =>
    obtain ⟨htwin, b, o, hs, hs'⟩ := h
    obtain ⟨t, t', hstop, hstop', ht⟩ := enter_twins undefined undefined' hs hs' htwin
    rw [calls, calls, hstop, hstop']
    refine .cons ⟨t, t', rfl, rfl, ht⟩ ?_
    have hnext := hrest t t' ht
    cases hr : rest t with
    | none =>
      rw [hr] at hnext
      cases hr' : rest' t' with
      | none => exact .nil
      | some s' =>
        rw [hr'] at hnext
        cases hnext
    | some s =>
      rw [hr] at hnext
      cases hr' : rest' t' with
      | none =>
        rw [hr'] at hnext
        cases hnext
      | some s' =>
        rw [hr'] at hnext
        cases hnext with
        | some hpair => exact ih hpair

end Twins

section Example

/-- One thunk, as a file has it. -/
def one_thunk : List UInt8 :=
  THUNK_HEAD ++ [0x10, 0, 0, 0] ++ THUNK_BRANCH ++ List.replicate 11 0xcc

/-- A thread at the thunk, loaded at 0x400000. -/
def at_one_thunk (flag : UInt8) : State where
  kernel := ⟨⟨none, false, false, false⟩, none, false⟩
  process := ⟨fun a => if a = SYSTEM_CALL then flag
    else (rewrite_syscall_thunk_tails one_thunk).1.getD (a - 0x400000).toNat 0,
    fun _ => some ⟨true, false, true⟩⟩
  mem := .new
  gregs := fun reg => if reg = REG_RIP then 0x400000 else 0

theorem at_one_thunk_spec (flag : UInt8) (hflag : flag = 0 ∨ flag = 1) :
    AtThunk one_thunk 0 (at_one_thunk flag) where
  selected := (Scans.selected_take ThunkTails.thunk_pos ⟨by decide, rfl, rfl⟩ 0).mpr (Or.inl rfl)
  shown := by
    rcases hflag with rfl | rfl
    · decide +kernel
    · decide +kernel
  readable := rfl

theorem twin_thunks_example : TwinThunks (at_one_thunk 0) (at_one_thunk 1) := by
  refine ⟨⟨rfl, rfl, rfl, fun a ha => ?_, by decide, by decide, fun _ _ _ => rfl, rfl⟩, one_thunk,
    0, at_one_thunk_spec 0 (Or.inl rfl), at_one_thunk_spec 1 (Or.inr rfl)⟩
  exact (if_neg ha).trans (if_neg ha).symm

/-- Each of two calls of one service. -/
theorem system_call_flag_makes_no_difference_twice : List.Forall₂
    (fun stop stop' => ∃ t t', stop = .system 0 t ∧ stop' = .system 1 t' ∧ Twin t t')
    (calls (fun _ => 0) (fun _ => some (at_one_thunk 0)) 2 (at_one_thunk 0))
    (calls (fun _ => 0) (fun _ => some (at_one_thunk 1)) 2 (at_one_thunk 1)) :=
  system_call_flag_makes_no_difference (fun _ => 0) (fun _ => 0)
    (fun _ _ _ => .some twin_thunks_example) twin_thunks_example 2

end Example

/-! ## A private trampoline -/

/-- What the pages of the trampolines show. -/
def pages_memory (m : Mem) : Memory := fun address =>
  (m.pages (Int2e.page_of address)).bind fun page =>
    if page.executable then page.code[(address - Int2e.page_of address).toNat]? else none

/-- A `syscall`, where `kernel` is what the kernel makes of the registers. -/
def system_call (kernel : Gregs → Gregs) (g : Gregs) : Gregs :=
  let next := g REG_RIP + 2
  Function.update (Function.update (Function.update (kernel g) REG_RIP next) REG_RCX next) REG_R11
    (g REG_EFL)

/-- The kernel does not look where a call comes from. -/
def Blind (kernel : Gregs → Gregs) : Prop :=
  ∀ g g', (∀ reg ≠ REG_RIP, g reg = g' reg) → ∀ reg ≠ REG_RIP, kernel g reg = kernel g' reg

/-- `step`s from one context to another, none of them a `syscall`. -/
def Reaches (undefined : Gregs → UInt64) (m : Memory) : Gregs → Gregs → Prop :=
  Relation.ReflTransGen fun g g' => step undefined m g = .running g'

/-- Where the bytes at a target are those of a trampoline, a thread sent there makes the call and
has the registers that a `syscall` at the site leaves. -/
def Emulates (m : Memory) (site target : UInt64) : Prop :=
  ∀ (undefined : Gregs → UInt64) (kernel : Gregs → Gregs) (g : Gregs), Blind kernel →
    g REG_RIP = site →
      step undefined m (Function.update g REG_RIP target) = .at_syscall
        ∧ Reaches undefined m (system_call kernel (Function.update g REG_RIP target))
          (system_call kernel g)

section Trampoline

variable {m : Memory} {site next target : UInt64}

theorem u64_le_bytes (value : UInt64) :
    ProcMem.u64_from_le_bytes (Int2e.to_le_bytes value) = value := by
  have hlt : value.toNat < 0x100 ^ 8 := value.toNat_lt
  unfold ProcMem.u64_from_le_bytes Int2e.to_le_bytes
  rw [Scans.from_le_bytes_digits, Nat.mod_eq_of_lt hlt, UInt64.ofNat_toNat]

theorem decode_movabs (value : UInt64) (rest : List UInt8) :
    decode ([0x48, 0xb9] ++ Int2e.to_le_bytes value ++ rest) = some (.movabs_rcx value, 10) := by
  have hvalue := u64_le_bytes value
  have hlen : (Int2e.to_le_bytes value).length = 8 := rfl
  generalize Int2e.to_le_bytes value = bytes at hvalue hlen
  match bytes, hlen with
  | [a, b, c, d, e, f, g, h], _ => exact congrArg (fun v => some (Instr.movabs_rcx v, 10)) hvalue

/-- What the trampoline leaves is what the `syscall` leaves. -/
theorem trampoline_registers {kernel : Gregs → Gregs} (hblind : Blind kernel) {g : Gregs}
    (hnext : Int2e.next_instruction (g REG_RIP) = some next) (rip : UInt64) :
    let called := system_call kernel (Function.update g REG_RIP target)
    Function.update (Function.update (Function.update called REG_RCX next) REG_RIP rip) REG_RIP next
      = system_call kernel g := by
  have hnext : next = g REG_RIP + 2 := by
    rw [← UInt64.toNat_inj, Int2e.next_instruction_eq_some.mp hnext, UInt64.toNat_add]
    have hlt := next.toNat_lt
    rw [Int2e.next_instruction_eq_some.mp hnext] at hlt
    exact (Nat.mod_eq_of_lt hlt).symm
  funext reg
  unfold system_call
  by_cases hrip : reg = REG_RIP
  · subst hrip
    rw [Function.update_self, Function.update_of_ne (by decide), Function.update_of_ne (by decide),
      Function.update_self, hnext]
  · have hkernel := hblind (Function.update g REG_RIP target) g
      (fun reg hne => Function.update_of_ne hne ..) reg hrip
    simp only [Function.update_apply, if_neg hrip, hnext]
    by_cases hr11 : reg = REG_R11
    · rw [if_pos hr11, if_pos hr11, if_neg (by rw [hr11]; decide), if_neg (by decide)]
    · rw [if_neg hr11, if_neg hr11]
      by_cases hrcx : reg = REG_RCX
      · rw [if_pos hrcx, if_pos hrcx]
      · rw [if_neg hrcx, if_neg hrcx, if_neg hrcx, hkernel]

theorem emulates_of_read (hnext : Int2e.next_instruction site = some next)
    (hread : read_memory m target Int2e.TRAMPOLINE_LENGTH = some (Int2e.trampoline_code next)) :
    Emulates m site target := by
  intro undefined kernel g hblind hsite
  let called := system_call kernel (Function.update g REG_RIP target)
  let moved := Function.update (Function.update called REG_RCX next) REG_RIP (target + .ofNat 12)
  have hrip : called REG_RIP = target + .ofNat 2 := rfl
  have hsyscall : decode (fetch m (target + .ofNat 0).toNat 15) = some (.syscall, 2) :=
    decode_within hread [0x0f, 0x05] nofun rfl (by decide) (by decide) fun rest => rfl
  have hmovabs : decode (fetch m (called REG_RIP).toNat 15) = some (.movabs_rcx next, 10) :=
    decode_within hread ([0x48, 0xb9] ++ Int2e.to_le_bytes next) nofun rfl
      (Nat.le_of_ble_eq_true rfl) (Nat.le_of_ble_eq_true rfl) (decode_movabs next)
  have hjmp : decode (fetch m (moved REG_RIP).toNat 15) = some (.jmp_mem 0, 6) :=
    decode_within hread [0xff, 0x25, 0, 0, 0, 0] nofun rfl (by decide) (by decide)
      fun rest => rfl
  have hoperand : ProcMem.read_u64 m (moved REG_RIP + .ofNat 6 + 0) = some next := by
    have haddress : moved REG_RIP + UInt64.ofNat 6 + 0 = target + .ofNat 18 :=
      (UInt64.add_zero _).trans (X86.add_ofNat target 12 6)
    rw [haddress]
    unfold ProcMem.read_u64
    rw [ProcMem.read_memory_part hread (by decide) (by decide) (toNat_within hread (by decide))]
    exact congrArg some (u64_le_bytes next)
  refine ⟨?_, .head (b := moved) ?_ (.single ?_)⟩
  · have hfirst : target + UInt64.ofNat 0 = target := UInt64.add_zero _
    rw [hfirst] at hsyscall
    exact step_of_decode (g := Function.update g REG_RIP target) hsyscall
  · rw [step_of_decode hmovabs, hrip, X86.add_ofNat]
    exact rfl
  · rw [step_of_decode hjmp]
    unfold exec
    dsimp only
    rw [hoperand]
    subst hsite
    exact congrArg Outcome.running (trampoline_registers hblind hnext _)

end Trampoline

/-! ### Trampolines among threads -/

section Threads

variable {T : Type*} [DecidableEq T]

omit [DecidableEq T] in
/-- A step maps a page only where `mmap` gives it. -/
theorem pages_after (t : T) (a : Trampolines.Choice) (m : Mem) (pc : Trampolines.Pc) {page : UInt64}
    (h : ((Trampolines.program T t a m pc).mem.pages page).isSome) :
    (m.pages page).isSome ∨ page % Int2e.PAGE_SIZE = 0 := by
  have hkept : ∀ own q, (Function.update m.pages own ((m.pages own).map q) page).isSome →
      (m.pages page).isSome := fun own q hsome => by
    by_cases hpage : page = own
    · rwa [hpage, Function.update_self, Option.isSome_map, ← hpage] at hsome
    · rwa [Function.update_of_ne hpage] at hsome
  have hdropped : ∀ own, (Function.update m.pages own none page).isSome →
      (m.pages page).isSome := fun own hsome => by
    by_cases hpage : page = own
    · rw [hpage, Function.update_self] at hsome
      cases hsome
    · rwa [Function.update_of_ne hpage] at hsome
  unfold Trampolines.program at h
  cases pc with
  | map s index =>
    dsimp only at h
    cases hmap : m.mmap a.mapped with
    | none =>
      rw [hmap] at h
      exact Or.inl h
    | some fresh =>
      rw [hmap] at h
      by_cases hpage : page = fresh
      · rw [hpage]
        exact Or.inr ((Trampolines.mmap_eq_some m).mp hmap).2.2.1
      · dsimp only at h
        rw [Function.update_of_ne hpage] at h
        exact Or.inl h
  | write s index own => exact Or.inl (hkept own _ h)
  | protect s index own =>
    dsimp only at h
    split at h
    · exact Or.inl (hkept own _ h)
    · exact Or.inl h
  | discard s own | unmap s own existing => exact Or.inl (hdropped own h)
  | start site | load_site s offset | claim s offset | load_target s index | check s index
  | publish s index own =>
    dsimp only at h
    repeat' split at h
    all_goals exact Or.inl h
  | idle | done call => exact Or.inl h

theorem pages_aligned (T : Type*) [DecidableEq T] (s : List (T × Trampolines.Choice))
    (page : UInt64) :
    ((Threads.run (Trampolines.program T) (Trampolines.start T) s).mem.pages page).isSome →
      page % Int2e.PAGE_SIZE = 0 := by
  refine Threads.run_invariant (Trampolines.program T)
    (I := fun c => (c.mem.pages page).isSome → page % Int2e.PAGE_SIZE = 0)
    (fun h => by cases h) (fun c x ih h => ?_) s
  exact (pages_after x.1 x.2 c.mem (c.loc x.1) h).elim ih id

/-- The code of a page, read where it is mapped. -/
theorem read_page {m : Mem} {page : UInt64} {code : List UInt8}
    (hpage : m.pages page = some ⟨code, true⟩) (hne : page ≠ 0)
    (haligned : page % Int2e.PAGE_SIZE = 0) (hpos : code ≠ []) (hlen : code.length ≤ 0x1000) :
    read_memory (pages_memory m) page code.length = some code := by
  have hmod : page.toNat % 4096 = 0 := by
    have hnat := congrArg UInt64.toNat haligned
    rwa [UInt64.toNat_mod] at hnat
  have hlt := page.toNat_lt
  refine ProcMem.read_memory_eq_some.mpr ⟨hne, List.length_pos_iff.mpr hpos |>.ne', rfl,
    fun i hi => ?_⟩
  have hat : (UInt64.ofNat (page.toNat + i)).toNat = page.toNat + i := by
    rw [UInt64.toNat_ofNat']
    omega
  have hof : Int2e.page_of (.ofNat (page.toNat + i)) = page := by
    rw [← UInt64.toNat_inj, Int2e.page_of_toNat, hat]
    omega
  have hoffset : (UInt64.ofNat (page.toNat + i) - page).toNat = i := by
    rw [UInt64.toNat_sub_of_le _ _ (UInt64.le_iff_toNat_le.mpr (by omega)), hat]
    omega
  unfold Memory.byte pages_memory
  rw [if_pos (by omega), hof, hpage, Option.bind_some, if_pos rfl, hoffset]

/-- **Trampolines do what they stand for.** However the faults of any threads interleave and
whatever fails: a thread that is sent to a trampoline, now or later, makes the call with the
registers it has faulted with, and goes on behind its `int 2e` with those that a `syscall` there
would have left. -/
theorem trampolines_emulate (T : Type*) [DecidableEq T] (s : List (T × Trampolines.Choice))
    (hsites : ∀ x ∈ s, x.2.site ≠ 0) (t : T) (site target : UInt64)
    (h : (t, .returned site (some target))
      ∈ Threads.trace (Trampolines.program T) (Trampolines.start T) s) :
    Emulates (pages_memory (Threads.run (Trampolines.program T) (Trampolines.start T) s).mem) site
      target := by
  have hinv := Trampolines.inv_run hsites
  obtain ⟨-, htarget, index, rfl, rfl⟩ := hinv.returned t site target h
  obtain ⟨-, next, hnext, hpage⟩ := hinv.finished index htarget
  have haligned := pages_aligned T s _ (by rw [hpage]; rfl)
  exact emulates_of_read hnext (read_page hpage htarget haligned nofun (Nat.le_of_ble_eq_true rfl))

/-- The first fault of a thread. -/
theorem trampolines_emulate_one_fault : Emulates
    (pages_memory (Threads.run (Trampolines.program Unit) (Trampolines.start Unit)
      (Threads.steps () 11 ⟨0x400000, true, some 0x10000, true⟩)).mem) 0x400000 0x10000 :=
  trampolines_emulate Unit (Threads.steps () 11 ⟨0x400000, true, some 0x10000, true⟩) (by decide) ()
    0x400000 0x10000 (by decide +kernel)

end Threads

end Linuwux.ThunkRuns
