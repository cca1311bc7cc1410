/-
`X86.lean` -- enough of an x86-64 core to run a trampoline.

A trampoline saves the registers, calls a function on another stack, restores the registers and
jumps away. For that a machine needs byte-addressed memory, general and XMM registers, the flags
as `pushfq` and `popfq` show them to user code, and a few dozen instructions. The text of a
program is a list of instructions and labels, and what is left to execute is a suffix of it, so a
straight stretch is executed by structural recursion.

Addresses wrap. Nothing is said about how far from the ends of the address space a stack has to
be: what a frame needs is that its own parts do not overlap, and a frame is much shorter than
the address space. All reasoning about a frame is about the offsets from its lowest byte
([`Memory.offset`]).

What the machine leaves to its surroundings is in [`Env`]: the called function, what other threads
do meanwhile, and the flags an arithmetic instruction leaves, which here may be any.
-/
import Mathlib.Data.UInt
import Mathlib.Logic.Function.Basic
import Mathlib.Logic.Function.Iterate
import Mathlib.Data.List.Basic

set_option autoImplicit false

namespace Linuwux.X86

/-! ## Memory -/

abbrev Memory := UInt64 → UInt8

/-- How far an address is above a base. -/
def offset (base x : UInt64) : ℕ := (x - base).toNat

/-- Bytes to be stored. -/
structure Store where
  address : UInt64
  length : ℕ
  byte : ℕ → UInt8

def Store.Covers (w : Store) (x : UInt64) : Prop := offset w.address x < w.length

instance (w : Store) (x : UInt64) : Decidable (w.Covers x) := inferInstanceAs (Decidable (_ < _))

def Memory.store (m : Memory) (w : Store) : Memory := fun x =>
  if w.Covers x then w.byte (offset w.address x) else m x

def byte_of (value : UInt64) (i : ℕ) : UInt8 := .ofNat (value.toNat / 0x100 ^ i)

/-- A word, little-endian. -/
def Store.word (address value : UInt64) : Store := ⟨address, 8, byte_of value⟩

def Store.dword (address : UInt64) (value : UInt32) : Store := ⟨address, 4, byte_of value.toUInt64⟩

/-- An XMM register. -/
abbrev Xmm := Fin 16 → UInt8

def xmm_byte (x : Xmm) (i : ℕ) : UInt8 := x ⟨i % 16, Nat.mod_lt i (by decide)⟩

def Store.xmm (address : UInt64) (value : Xmm) : Store := ⟨address, 16, xmm_byte value⟩

/-- The number whose bytes start at an address. -/
def Memory.number (m : Memory) (address : UInt64) : ℕ → ℕ
  | 0 => 0
  | n + 1 => (m address).toNat + 0x100 * Memory.number m (address + 1) n

def Memory.load64 (m : Memory) (address : UInt64) : UInt64 := .ofNat (m.number address 8)

def Memory.load32 (m : Memory) (address : UInt64) : UInt32 := .ofNat (m.number address 4)

def Memory.load_xmm (m : Memory) (address : UInt64) : Xmm := fun i => m (address + .ofNat i.val)

/-! ### Offsets -/

/-- An address is found again by its offset. -/
theorem offset_add (base : UInt64) {d : ℕ} (h : d < 2 ^ 64) :
    offset base (base + .ofNat d) = d := by
  have hcancel : base + UInt64.ofNat d - base = .ofNat d := by grind
  rw [offset, hcancel, UInt64.toNat_ofNat', Nat.mod_eq_of_lt h]

theorem add_offset (base x : UInt64) : base + .ofNat (offset base x) = x := by
  rw [offset, UInt64.ofNat_toNat]
  grind

theorem add_ofNat (base : UInt64) (d e : ℕ) :
    base + .ofNat d + .ofNat e = base + .ofNat (d + e) := by
  rw [UInt64.ofNat_add]
  grind

/-- Moving the base up. -/
theorem offset_base {base x : UInt64} {d : ℕ} (h : d < 2 ^ 64) :
    offset (base + .ofNat d) x = (2 ^ 64 - d + offset base x) % 2 ^ 64 := by
  have hsub : x - (base + UInt64.ofNat d) = x - base - .ofNat d := by grind
  rw [offset, offset, hsub, UInt64.toNat_sub, UInt64.toNat_ofNat', Nat.mod_eq_of_lt h]

/-- What a store above a base covers, in offsets. -/
theorem covers_iff {base x : UInt64} {d n : ℕ} {w : Store} (hw : w.address = base + .ofNat d)
    (hn : w.length = n) (h : d + n ≤ 2 ^ 64) :
    w.Covers x ↔ d ≤ offset base x ∧ offset base x < d + n := by
  have hx : offset base x < 2 ^ 64 := UInt64.toNat_lt _
  unfold Store.Covers
  by_cases hd : d < 2 ^ 64
  · rw [hw, offset_base hd]
    omega
  · omega

/-! ### Loads and stores -/

/-- A number is made of its bytes. -/
theorem Memory.number_congr {m m' : Memory} {base : UInt64} {d n : ℕ}
    (h : ∀ i < n, m (base + .ofNat (d + i)) = m' (base + .ofNat (d + i))) :
    m.number (base + .ofNat d) n = m'.number (base + .ofNat d) n := by
  induction n generalizing d with
  | zero => rfl
  | succ n ih =>
    have hone : base + UInt64.ofNat d + 1 = base + .ofNat (d + 1) := add_ofNat base d 1
    have hfirst : m (base + .ofNat d) = m' (base + .ofNat d) := h 0 (by omega)
    rw [Memory.number, Memory.number, hone, hfirst, ih]
    intro i hi
    have hnext := h (i + 1) (by omega)
    rwa [Nat.add_comm i 1, ← Nat.add_assoc] at hnext

/-- A value read where it has just been stored. -/
theorem Memory.number_bytes {m : Memory} {address : UInt64} (value : UInt64) (k : ℕ) {n : ℕ}
    (h : ∀ i < n, m (address + .ofNat i) = byte_of value (k + i)) :
    m.number address n = value.toNat / 0x100 ^ k % 0x100 ^ n := by
  induction n generalizing address k with
  | zero => rw [Memory.number, pow_zero, Nat.mod_one]
  | succ n ih =>
    have hfirst := h 0 (by omega)
    rw [show address + UInt64.ofNat 0 = address by grind] at hfirst
    rw [Memory.number, hfirst, ih (k + 1), byte_of, UInt8.toNat_ofNat', Nat.add_zero,
      Nat.pow_succ 0x100 n, Nat.mul_comm _ 0x100, Nat.mod_mul, Nat.div_div_eq_div_mul,
      ← Nat.pow_succ]
    intro i hi
    have hnext := h (i + 1) (by omega)
    rw [Nat.add_comm i 1, ← Nat.add_assoc] at hnext
    rw [← hnext, Nat.add_comm 1 i, UInt64.ofNat_add]
    congr 1
    grind

theorem Memory.load64_congr {m m' : Memory} {base : UInt64} {d : ℕ}
    (h : ∀ i < 8, m (base + .ofNat (d + i)) = m' (base + .ofNat (d + i))) :
    m.load64 (base + .ofNat d) = m'.load64 (base + .ofNat d) :=
  congrArg UInt64.ofNat (Memory.number_congr h)

theorem Memory.load_xmm_congr {m m' : Memory} {base : UInt64} {d : ℕ}
    (h : ∀ i < 16, m (base + .ofNat (d + i)) = m' (base + .ofNat (d + i))) :
    m.load_xmm (base + .ofNat d) = m'.load_xmm (base + .ofNat d) := by
  funext i
  unfold Memory.load_xmm
  rw [add_ofNat]
  exact h i.val i.isLt

/-- Several stores, one after the other. -/
def Memory.stores (m : Memory) (ws : List Store) : Memory := ws.foldl Memory.store m

/-- Stores leave the bytes alone that none of them covers. -/
theorem Memory.stores_of_not_covers {m : Memory} {ws : List Store} {x : UInt64}
    (h : ∀ w ∈ ws, ¬w.Covers x) : m.stores ws x = m x := by
  induction ws generalizing m with
  | nil => rfl
  | cons w ws ih =>
    have hrest := ih (m := m.store w) fun v hv => h v (List.mem_cons_of_mem w hv)
    exact hrest.trans (if_neg (h w List.mem_cons_self))

/-- Stores that do not overlap all stay. -/
theorem Memory.stores_of_covers {m : Memory} {ws : List Store} {w : Store} {x : UInt64}
    (hapart : ws.Pairwise fun v w => ∀ x, v.Covers x → ¬w.Covers x) (hw : w ∈ ws)
    (hx : w.Covers x) : m.stores ws x = w.byte (offset w.address x) := by
  induction ws generalizing m with
  | nil => exact absurd hw List.not_mem_nil
  | cons v ws ih =>
    obtain ⟨hv, hrest⟩ := List.pairwise_cons.mp hapart
    rcases List.mem_cons.mp hw with rfl | hw
    · have hlater := Memory.stores_of_not_covers (m := m.store w) fun u hu => hv u hu x hx
      exact hlater.trans (if_pos hx)
    · exact ih hrest hw

/-- A store covers the bytes behind its address, each at its offset. -/
theorem covers_add {w : Store} {i : ℕ} (h : i < w.length) (hlen : w.length ≤ 2 ^ 64) :
    w.Covers (w.address + .ofNat i) ∧ offset w.address (w.address + .ofNat i) = i := by
  have hoff := offset_add w.address (d := i) (by omega)
  exact ⟨by rwa [Store.Covers, hoff], hoff⟩

/-- Stores whose offsets from a base do not overlap. -/
theorem pairwise_apart {base : UInt64} {ws : List Store}
    (hbound : ∀ w ∈ ws, offset base w.address + w.length ≤ 2 ^ 64)
    (h : ws.Pairwise fun v w => offset base v.address + v.length ≤ offset base w.address
      ∨ offset base w.address + w.length ≤ offset base v.address) :
    ws.Pairwise fun v w => ∀ x, v.Covers x → ¬w.Covers x := by
  refine List.Pairwise.imp_of_mem (fun {v w} hv hw hvw x hcv hcw => ?_) h
  rw [covers_iff (add_offset base v.address).symm rfl (hbound v hv)] at hcv
  rw [covers_iff (add_offset base w.address).symm rfl (hbound w hw)] at hcw
  omega

section Stored

variable {m : Memory} {ws : List Store} {address : UInt64}
  (hapart : ws.Pairwise fun v w => ∀ x, v.Covers x → ¬w.Covers x)
include hapart

/-- A word stored by one of several stores that are apart is loaded again. -/
theorem Memory.load64_stores {value : UInt64} (hw : .word address value ∈ ws) :
    (m.stores ws).load64 address = value := by
  have hlt : value.toNat < 0x100 ^ 8 := value.toNat_lt
  unfold Memory.load64
  rw [Memory.number_bytes value 0, pow_zero, Nat.div_one,
    Nat.mod_eq_of_lt hlt, UInt64.ofNat_toNat]
  intro i hi
  obtain ⟨hcov, hoff⟩ := covers_add (w := .word address value) hi (by decide : 8 ≤ 2 ^ 64)
  have hbyte := Memory.stores_of_covers (m := m) hapart hw hcov
  rw [hoff] at hbyte
  rw [Nat.zero_add]
  exact hbyte

/-- The same of a vector register. -/
theorem Memory.load_xmm_stores {value : Xmm} (hw : .xmm address value ∈ ws) :
    (m.stores ws).load_xmm address = value := by
  funext i
  obtain ⟨hcov, hoff⟩ := covers_add (w := .xmm address value) i.isLt
    (by decide : 16 ≤ 2 ^ 64)
  have hbyte := Memory.stores_of_covers (m := m) hapart hw hcov
  rw [hoff] at hbyte
  refine hbyte.trans (congrArg value (Fin.ext ?_))
  exact Nat.mod_eq_of_lt i.isLt

end Stored

/-- A word read right after it was stored. -/
theorem Memory.load64_store (m : Memory) (address value : UInt64) :
    (m.store (.word address value)).load64 address = value := by
  have hapart : [Store.word address value].Pairwise fun v w => ∀ x, v.Covers x → ¬w.Covers x :=
    List.pairwise_singleton _ _
  exact Memory.load64_stores hapart List.mem_cons_self

/-- A dword read right after it was stored. -/
theorem Memory.load32_store (m : Memory) (address : UInt64) (value : UInt32) :
    (m.store (.dword address value)).load32 address = value := by
  have hlt : value.toNat < 0x100 ^ 4 := value.toNat_lt
  unfold Memory.load32
  rw [Memory.number_bytes value.toUInt64 0, pow_zero, Nat.div_one,
    UInt32.toNat_toUInt64, Nat.mod_eq_of_lt hlt, UInt32.ofNat_toNat]
  intro i hi
  obtain ⟨hcov, hoff⟩ := covers_add (w := .dword address value) hi (by decide : 4 ≤ 2 ^ 64)
  rw [Nat.zero_add]
  exact (if_pos hcov).trans (congrArg (byte_of value.toUInt64) hoff)

/-- A word that a store does not touch. -/
theorem Memory.load64_store_apart (m : Memory) {base : UInt64} {d e n : ℕ} {w : Store}
    (hw : w.address = base + .ofNat e) (hn : w.length = n) (he : e + n ≤ 2 ^ 64)
    (hd : d + 8 ≤ 2 ^ 64) (h : d + 8 ≤ e ∨ e + n ≤ d) :
    (m.store w).load64 (base + .ofNat d) = m.load64 (base + .ofNat d) := by
  refine Memory.load64_congr fun i hi => if_neg ?_
  rw [covers_iff hw hn he, offset_add base (by omega)]
  omega

/-- A store elsewhere does not change a word. -/
theorem Memory.load32_store_apart (m : Memory) {address : UInt64} {w : Store}
    (h : ∀ i < 4, ¬w.Covers (address + .ofNat i)) :
    (m.store w).load32 address = m.load32 address := by
  have hzero : address = address + UInt64.ofNat 0 := by grind
  have hnumber : (m.store w).number (address + .ofNat 0) 4 = m.number (address + .ofNat 0) 4 :=
    Memory.number_congr fun i hi => by
      rw [Nat.zero_add]
      exact if_neg (h i hi)
  rw [← hzero] at hnumber
  exact congrArg UInt32.ofNat hnumber

/-- The low word of an XMM register. -/
def low_word (x : Xmm) : UInt64 :=
  let byte (i : ℕ) : ℕ := (xmm_byte x i).toNat
  .ofNat (byte 0 + 0x100 * (byte 1 + 0x100 * (byte 2 + 0x100 * (byte 3
    + 0x100 * (byte 4 + 0x100 * (byte 5 + 0x100 * (byte 6 + 0x100 * byte 7)))))))

theorem Memory.load64_eq_low_word (m : Memory) (address : UInt64) :
    m.load64 address = low_word (m.load_xmm address) := by
  have hnext : ∀ i : ℕ, address + UInt64.ofNat i + 1 = address + .ofNat (i + 1) := fun i =>
    add_ofNat address i 1
  have hzero : m.number address 8 = m.number (address + .ofNat 0) 8 :=
    congrArg (m.number · 8) (by grind)
  unfold Memory.load64 low_word Memory.load_xmm
  rw [hzero]
  simp only [Memory.number, hnext, Nat.mul_zero, Nat.add_zero]
  rfl

/-! ## Bits -/

def bit (v : UInt64) (i : ℕ) : Bool := v.toBitVec.getLsbD i

theorem bit_zero (i : ℕ) : bit 0 i = false := by
  simp [bit]

theorem bit_and (a b : UInt64) (i : ℕ) : bit (a &&& b) i = (bit a i && bit b i) := by
  simp [bit]

theorem bit_or (a b : UInt64) (i : ℕ) : bit (a ||| b) i = (bit a i || bit b i) := by
  simp [bit]

theorem bit_not (a : UInt64) {i : ℕ} (h : i < 64) : bit (~~~a) i = !bit a i := by
  simp [bit, h]

/-- A word is its bits. -/
theorem eq_of_bits {a b : UInt64} (h : ∀ i < 64, bit a i = bit b i) : a = b :=
  UInt64.toBitVec_inj.mp (BitVec.eq_of_getLsbD_eq h)

theorem bit_of_and_eq {a b c : UInt64} (h : a &&& b = c) (i : ℕ) :
    (bit a i && bit b i) = bit c i := by
  rw [← bit_and, h]

/-! ## Flags -/

/-- The flags that user code writes: CF, PF, AF, ZF, SF, TF, DF, OF, NT, AC and ID. -/
def USER_FLAGS : UInt64 := 0x244dd5

/-- What `pushfq` stores of the flags: not RF and VM. -/
def PUSHED_FLAGS : UInt64 := 0xfcffff

/-- RF and VM. -/
def CLEAR_FLAGS : UInt64 := 0x30000

/-- RFLAGS between two instructions of user code in 64-bit mode, where RF and VM are clear. -/
structure Rflags where
  val : UInt64
  clear : val &&& CLEAR_FLAGS = 0

theorem Rflags.ext {f g : Rflags} (h : f.val = g.val) : f = g := by
  cases f
  cases g
  cases h
  rfl

/-- A write by user code leaves the other flags as they are. -/
def Rflags.write (f : Rflags) (image : UInt64) : Rflags where
  val := f.val &&& ~~~USER_FLAGS ||| image &&& USER_FLAGS
  clear := by
    refine eq_of_bits fun i hi => ?_
    have hf := bit_of_and_eq f.clear i
    have hu := bit_of_and_eq (by decide : USER_FLAGS &&& CLEAR_FLAGS = 0) i
    simp only [bit_and, bit_or, bit_not _ hi, bit_zero] at *
    grind

def Rflags.carry (f : Rflags) : Bool := bit f.val 0

/-- What `pushfq` stores. -/
def Rflags.image (f : Rflags) : UInt64 := f.val &&& PUSHED_FLAGS

/-- The flags that user code does not write. -/
def Rflags.system (f : Rflags) : UInt64 := f.val &&& ~~~USER_FLAGS

/-- `popfq` leaves the system flags alone. -/
theorem Rflags.write_system (f : Rflags) (image : UInt64) : (f.write image).system = f.system := by
  refine eq_of_bits fun i hi => ?_
  simp only [Rflags.system, Rflags.write, bit_and, bit_or, bit_not _ hi]
  grind

theorem Rflags.write_carry (f : Rflags) (image : UInt64) :
    (f.write image).carry = bit image 0 := by
  have huser : bit USER_FLAGS 0 = true := by decide
  simp [Rflags.carry, Rflags.write, bit_and, bit_or, bit_not, huser]

/-- What `popfq` leaves after `pushfq`, where flags were cleared and set in between. -/
theorem Rflags.write_image_changed {f g : Rflags} (h : f.system = g.system) {clear set : UInt64}
    (hclear : clear &&& USER_FLAGS = clear) (hset : set &&& USER_FLAGS = set) :
    (f.write (g.image &&& ~~~clear ||| set)).val = g.val &&& ~~~clear ||| set := by
  refine eq_of_bits fun i hi => ?_
  have hsystem := bit_of_and_eq h i
  have hpushed := bit_of_and_eq (by decide : USER_FLAGS &&& PUSHED_FLAGS = USER_FLAGS) i
  have hclear := bit_of_and_eq hclear i
  have hset := bit_of_and_eq hset i
  simp only [Rflags.system, Rflags.write, Rflags.image, bit_and, bit_or, bit_not _ hi] at *
  grind

/-- `popfq` brings back what `pushfq` has stored. -/
theorem Rflags.write_image {f g : Rflags} (h : f.system = g.system) : f.write g.image = g := by
  refine Rflags.ext (eq_of_bits fun i hi => ?_)
  have hsystem := bit_of_and_eq h i
  have hpushed := bit_of_and_eq (by decide : USER_FLAGS &&& PUSHED_FLAGS = USER_FLAGS) i
  simp only [Rflags.system, Rflags.write, Rflags.image, bit_and, bit_or, bit_not _ hi] at *
  grind

/-! ## The machine -/

inductive Reg where
  | rax | rbx | rcx | rdx | rsi | rdi | rbp | rsp
  | r8 | r9 | r10 | r11 | r12 | r13 | r14 | r15
  deriving DecidableEq, Repr

inductive XmmReg where
  | xmm0 | xmm1 | xmm2 | xmm3 | xmm4 | xmm5 | xmm6 | xmm7
  | xmm8 | xmm9 | xmm10 | xmm11 | xmm12 | xmm13 | xmm14 | xmm15
  deriving DecidableEq, Repr

/-- What a function sees when it is called. -/
structure Cpu where
  gpr : Reg → UInt64
  xmm : XmmReg → Xmm
  flags : Rflags
  gs : UInt64
  mem : Memory

/-- The machine, with what it has stored and the calls it has made. -/
structure State extends Cpu where
  written : List (UInt64 × ℕ)
  calls : List Cpu
  pauses : ℕ

/-- A memory operand `[base + disp]`. -/
structure Operand where
  base : Reg
  disp : UInt64
  deriving DecidableEq

inductive Instr where
  | lea (dst : Reg) (src : Operand)
  | lea_symbol (dst : Reg)
  | mov (dst src : Reg)
  | load (dst : Reg) (src : Operand)
  | load_gs (dst : Reg) (disp : UInt64)
  | store (dst : Operand) (src : Reg)
  | store_dword (dst : Operand) (imm : UInt32)
  | movdqu_store (dst : Operand) (src : XmmReg)
  | movdqu_load (dst : XmmReg) (src : Operand)
  | push (src : Reg)
  | push_mem (src : Operand)
  | pushfq
  | popfq
  | shr (dst : Reg) (count : UInt64)
  | shl (dst : Reg) (count : UInt64)
  | and_dword (dst : Reg) (imm : UInt32)
  | add (dst src : Reg)
  | and_mem (dst : Operand) (imm : UInt64)
  | or_mem (dst : Operand) (imm : UInt64)
  | bt (src : Operand) (index : ℕ)
  | btr (dst : Operand) (index : ℕ)
  | lock_bts_dword (dst : Operand) (index : ℕ)
  | pause
  | call
  | label (name : ℕ)
  | jnc (name : ℕ)
  | jmp (name : ℕ)
  | jmp_mem (src : Operand)
  deriving DecidableEq

/-- What the machine does not decide. -/
structure Env where
  /-- What `lea r, [rip + symbol]` gives. -/
  symbol : UInt64
  /-- The called function, from its first instruction to its return. -/
  target : Cpu → Cpu
  /-- The address after the `call`. -/
  return_address : UInt64
  /-- What the other threads do to memory during a `pause`. -/
  pause : ℕ → Memory → Memory
  /-- The flags after an instruction that sets them. -/
  status : Cpu → UInt64

namespace State

variable (s : State)

def address (m : Operand) : UInt64 := s.gpr m.base + m.disp

def set (r : Reg) (value : UInt64) : State := { s with gpr := Function.update s.gpr r value }

/-- Store to memory, and keep account of it. -/
def write (w : Store) : State :=
  { s with mem := s.mem.store w, written := s.written ++ [(w.address, w.length)] }

def set_xmm (i : XmmReg) (value : Xmm) : State :=
  { s with xmm := Function.update s.xmm i value }

def set_flags (image : UInt64) : State := { s with flags := s.flags.write image }

/-- Flags where the carry is a given bit. -/
def set_carry (status : UInt64) (carry : Bool) : State :=
  s.set_flags (status &&& ~~~1 ||| if carry then 1 else 0)

def push (value : UInt64) : State :=
  (s.write (.word (s.gpr .rsp - 8) value)).set .rsp (s.gpr .rsp - 8)

end State

/-- A bit of a word cleared or set. -/
def mask (index : ℕ) : UInt64 := .ofNat (2 ^ index)

def mask32 (index : ℕ) : UInt32 := .ofNat (2 ^ index)

/-- An instruction that is not a jump. -/
def Instr.exec (env : Env) (s : State) : Instr → State
  | .lea dst src => s.set dst (s.address src)
  | .lea_symbol dst => s.set dst env.symbol
  | .mov dst src => s.set dst (s.gpr src)
  | .load dst src => s.set dst (s.mem.load64 (s.address src))
  | .load_gs dst disp => s.set dst (s.mem.load64 (s.gs + disp))
  | .store dst src => s.write (.word (s.address dst) (s.gpr src))
  | .store_dword dst imm => s.write (.dword (s.address dst) imm)
  | .movdqu_store dst src => s.write (.xmm (s.address dst) (s.xmm src))
  | .movdqu_load dst src => s.set_xmm dst (s.mem.load_xmm (s.address src))
  | .push src => s.push (s.gpr src)
  | .push_mem src => s.push (s.mem.load64 (s.address src))
  | .pushfq => s.push s.flags.image
  | .popfq => (s.set_flags (s.mem.load64 (s.gpr .rsp))).set .rsp (s.gpr .rsp + 8)
  | .shr dst count => (s.set dst (s.gpr dst >>> count)).set_flags (env.status s.toCpu)
  | .shl dst count => (s.set dst (s.gpr dst <<< count)).set_flags (env.status s.toCpu)
  | .and_dword dst imm =>
    -- A 32-bit result clears the upper half of the register.
    (s.set dst ((s.gpr dst).toUInt32 &&& imm).toUInt64).set_flags (env.status s.toCpu)
  | .add dst src => (s.set dst (s.gpr dst + s.gpr src)).set_flags (env.status s.toCpu)
  | .and_mem dst imm =>
    (s.write (.word (s.address dst) (s.mem.load64 (s.address dst) &&& imm))).set_flags
      (env.status s.toCpu)
  | .or_mem dst imm =>
    (s.write (.word (s.address dst) (s.mem.load64 (s.address dst) ||| imm))).set_flags
      (env.status s.toCpu)
  | .bt src index =>
    s.set_carry (env.status s.toCpu) (bit (s.mem.load64 (s.address src)) index)
  | .btr dst index =>
    let value := s.mem.load64 (s.address dst)
    (s.write (.word (s.address dst) (value &&& ~~~mask index))).set_carry (env.status s.toCpu)
      (bit value index)
  | .lock_bts_dword dst index =>
    let value := s.mem.load32 (s.address dst)
    (s.write (.dword (s.address dst) (value ||| mask32 index))).set_carry (env.status s.toCpu)
      (bit value.toUInt64 index)
  | .pause => { s with mem := env.pause s.pauses s.mem, pauses := s.pauses + 1 }
  | .call =>
    let called := s.push env.return_address
    { called with toCpu := env.target called.toCpu, calls := s.calls ++ [called.toCpu] }
  | .label _ | .jnc _ | .jmp _ | .jmp_mem _ => s

/-- Either there is text left to execute, or the machine has jumped away. -/
inductive Status where
  | running (text : List Instr) (s : State)
  | left (target : UInt64) (s : State)

/-- The text from a label on. -/
def from_label (name : ℕ) : List Instr → List Instr
  | [] => []
  | .label name' :: text => if name' = name then text else from_label name text
  | _ :: text => from_label name text

def next (env : Env) (code : List Instr) : Status → Status
  | .left target s => .left target s
  | .running [] s => .running [] s
  | .running (.jnc name :: text) s =>
    if s.flags.carry then .running text s else .running (from_label name code) s
  | .running (.jmp name :: _) s => .running (from_label name code) s
  | .running (.jmp_mem src :: _) s => .left (s.mem.load64 (s.address src)) s
  | .running (i :: text) s => .running text (i.exec env s)

/-- The machine gets from one status to another. -/
def Leads (env : Env) (code : List Instr) (a b : Status) : Prop :=
  ∃ n, (next env code)^[n] a = b

/-! ## Runs -/

section Runs

variable {env : Env} {code : List Instr} {a b c : Status}

theorem Leads.refl (env : Env) (code : List Instr) (a : Status) : Leads env code a a := ⟨0, rfl⟩

theorem Leads.trans (h : Leads env code a b) (h' : Leads env code b c) : Leads env code a c := by
  obtain ⟨n, rfl⟩ := h
  obtain ⟨n', rfl⟩ := h'
  exact ⟨n' + n, Function.iterate_add_apply _ n' n a⟩

theorem Leads.of_next (h : next env code a = b) : Leads env code a b := ⟨1, h⟩

/-- Neither a jump nor a conditional jump. -/
def Instr.straight : Instr → Bool
  | .jnc _ | .jmp _ | .jmp_mem _ => false
  | _ => true

/-- A straight instruction goes on with the one behind it. -/
theorem next_straight (env : Env) (code : List Instr) {i : Instr} (h : i.straight = true)
    (text : List Instr) (s : State) :
    next env code (.running (i :: text) s) = .running text (i.exec env s) := by
  cases i with
  | jnc name => cases h
  | jmp name => cases h
  | jmp_mem src => cases h
  | _ => rfl

/-- A stretch without jumps. -/
theorem leads_straight (env : Env) (code : List Instr) (part : List Instr)
    (h : ∀ i ∈ part, i.straight = true) (text : List Instr) (s : State) :
    Leads env code (.running (part ++ text) s) (.running text (part.foldl (Instr.exec env) s)) := by
  induction part generalizing s with
  | nil => exact .refl _ _ _
  | cons i part ih =>
    have hnext := next_straight env code (h i List.mem_cons_self) (part ++ text) s
    exact (Leads.of_next hnext).trans (ih (fun j hj => h j (List.mem_cons_of_mem i hj)) _)

end Runs

/-! ## Saving and restoring -/

/-- Several stores, accounted for. -/
def State.writes (s : State) (ws : List Store) : State :=
  { s with
    mem := s.mem.stores ws
    written := s.written ++ ws.map fun w => (w.address, w.length) }

theorem State.writes_nil (s : State) : s.writes [] = s := by
  unfold State.writes
  rw [List.map_nil, List.append_nil]
  rfl

theorem State.write_writes (s : State) (w : Store) (ws : List Store) :
    (s.write w).writes ws = s.writes (w :: ws) := by
  unfold State.writes State.write
  rw [List.map_cons, List.append_assoc, List.singleton_append]
  rfl

/-- Two lists of stores are one. -/
theorem State.writes_writes (s : State) (ws ws' : List Store) :
    (s.writes ws).writes ws' = s.writes (ws ++ ws') := by
  have hmem : (s.mem.stores ws).stores ws' = s.mem.stores (ws ++ ws') := List.foldl_append.symm
  unfold State.writes
  rw [List.map_append, ← List.append_assoc, ← hmem]

theorem State.writes_write (s : State) (ws : List Store) (w : Store) :
    (s.writes ws).write w = s.writes (ws ++ [w]) := by
  rw [← State.writes_writes, ← State.write_writes, State.writes_nil]

theorem State.set_set (s : State) (r : Reg) (v v' : UInt64) :
    (s.set r v).set r v' = s.set r v' := by
  unfold State.set
  rw [Function.update_idem]

theorem State.set_writes (s : State) (r : Reg) (v : UInt64) (ws : List Store) :
    (s.set r v).writes ws = (s.writes ws).set r v := rfl

theorem State.set_gpr_self (s : State) (r : Reg) (v : UInt64) : (s.set r v).gpr r = v := by
  simp [State.set]

/-- The other registers are kept. -/
theorem State.set_gpr_of_ne (s : State) {r r' : Reg} (v : UInt64) (h : r' ≠ r) :
    (s.set r v).gpr r' = s.gpr r' := by
  simp [State.set, h]

/-- Setting a register sets nothing else. -/
theorem State.set_frame (s : State) (r : Reg) (v : UInt64) :
    (s.set r v).xmm = s.xmm ∧ (s.set r v).flags = s.flags ∧ (s.set r v).mem = s.mem
      ∧ (s.set r v).written = s.written := by
  cases s
  exact ⟨rfl, rfl, rfl, rfl⟩

theorem State.set_xmm_xmm_self (s : State) (i : XmmReg) (x : Xmm) : (s.set_xmm i x).xmm i = x := by
  simp [State.set_xmm]

theorem State.set_xmm_xmm_of_ne (s : State) {i j : XmmReg} (x : Xmm) (h : j ≠ i) :
    (s.set_xmm i x).xmm j = s.xmm j := by
  simp [State.set_xmm, h]

theorem State.set_self (s : State) (r : Reg) : s.set r (s.gpr r) = s := by
  unfold State.set
  rw [Function.update_eq_self]

theorem State.set_carry_carry (s : State) (status : UInt64) (carry : Bool) :
    (s.set_carry status carry).flags.carry = carry := by
  have hone : bit 1 0 = true := by decide
  refine (Rflags.write_carry _ _).trans ?_
  rw [bit_or, bit_and, bit_not _ (by decide), hone]
  cases carry <;> simp [bit_zero, hone]

/-- Setting flags sets nothing else. -/
theorem State.set_flags_frame (s : State) (image : UInt64) :
    (s.set_flags image).gpr = s.gpr ∧ (s.set_flags image).xmm = s.xmm
      ∧ (s.set_flags image).mem = s.mem ∧ (s.set_flags image).written = s.written
      ∧ (s.set_flags image).calls = s.calls ∧ (s.set_flags image).pauses = s.pauses := by
  cases s
  exact ⟨rfl, rfl, rfl, rfl, rfl, rfl⟩

/-- A store that also sets the flags, as `btr` and `and` do, leaves the registers alone. -/
theorem State.write_set_flags_frame (s : State) (w : Store) (image : UInt64) :
    ((s.write w).set_flags image).gpr = s.gpr
      ∧ ((s.write w).set_flags image).calls = s.calls := by
  cases s
  exact ⟨rfl, rfl⟩

theorem State.set_carry_system (s : State) (status : UInt64) (carry : Bool) :
    (s.set_carry status carry).flags.system = s.flags.system :=
  Rflags.write_system _ _

section Blocks

variable (env : Env)

/-- Other threads change only memory. -/
theorem exec_pause_frame (s : State) :
    (Instr.pause.exec env s).gpr = s.gpr ∧ (Instr.pause.exec env s).flags = s.flags
      ∧ (Instr.pause.exec env s).mem = env.pause s.pauses s.mem
      ∧ (Instr.pause.exec env s).written = s.written ∧ (Instr.pause.exec env s).calls = s.calls
      ∧ (Instr.pause.exec env s).pauses = s.pauses + 1 := by
  cases s
  exact ⟨rfl, rfl, rfl, rfl, rfl, rfl⟩

/-- `movdqu [r + disp], xmm` for several registers. -/
theorem exec_movdqu_stores (r : Reg) (l : List (XmmReg × UInt64)) (s : State) :
    (l.map fun p => Instr.movdqu_store ⟨r, p.2⟩ p.1).foldl (Instr.exec env) s
      = s.writes (l.map fun p => .xmm (s.gpr r + p.2) (s.xmm p.1)) := by
  induction l generalizing s with
  | nil => exact s.writes_nil.symm
  | cons p l ih =>
    rw [List.map_cons, List.foldl_cons, ih]
    exact s.write_writes _ _

/-- The stores of several pushes. -/
def pushed (gpr : Reg → UInt64) (rsp : UInt64) : List Reg → List Store
  | [] => []
  | r :: l => .word (rsp - 8) (gpr r) :: pushed gpr (rsp - 8) l

/-- Where several pushes end up when the last of them is at `d`. -/
def push_offsets (d : ℕ) : List Reg → List (Reg × ℕ)
  | [] => []
  | r :: l => (r, d + 8 * l.length) :: push_offsets d l

/-- What pushes store, by the offset of each register. -/
theorem pushed_eq (gpr : Reg → UInt64) (base : UInt64) (d : ℕ) (l : List Reg) :
    pushed gpr (base + .ofNat (d + 8 * l.length)) l
      = (push_offsets d l).map fun p => .word (base + .ofNat p.2) (gpr p.1) := by
  induction l with
  | nil => rfl
  | cons r l ih =>
    have hrsp : base + UInt64.ofNat (d + 8 * (r :: l).length) - 8
        = base + .ofNat (d + 8 * l.length) := by
      rw [List.length_cons, Nat.mul_succ, ← Nat.add_assoc, UInt64.ofNat_add _ 8]
      grind
    rw [pushed, hrsp, ih]
    rfl

/-- Only the registers that are pushed matter. -/
theorem pushed_congr {gpr gpr' : Reg → UInt64} (rsp : UInt64) {l : List Reg}
    (h : ∀ r ∈ l, gpr r = gpr' r) : pushed gpr rsp l = pushed gpr' rsp l := by
  induction l generalizing rsp with
  | nil => rfl
  | cons r l ih =>
    rw [pushed, pushed, h r List.mem_cons_self, ih _ fun r' hr => h r' (List.mem_cons_of_mem r hr)]

/-- Pushes store the registers downwards and leave RSP below them. -/
theorem exec_pushes (l : List Reg) (h : .rsp ∉ l) (s : State) :
    (l.map Instr.push).foldl (Instr.exec env) s
      = (s.writes (pushed s.gpr (s.gpr .rsp) l)).set .rsp (s.gpr .rsp - 8 * .ofNat l.length) := by
  induction l generalizing s with
  | nil =>
    have hzero : s.gpr .rsp - 8 * UInt64.ofNat 0 = s.gpr .rsp := by grind
    rw [List.length_nil, hzero, pushed, s.writes_nil, s.set_self]
    rfl
  | cons r l ih =>
    have hl : Reg.rsp ∉ l := fun hmem => h (List.mem_cons_of_mem r hmem)
    have hlength : s.gpr .rsp - 8 - 8 * UInt64.ofNat l.length
        = s.gpr .rsp - 8 * .ofNat (l.length + 1) := by
      rw [UInt64.ofNat_add]
      grind
    have hexec : (Instr.push r).exec env s
        = (s.write (.word (s.gpr .rsp - 8) (s.gpr r))).set .rsp (s.gpr .rsp - 8) := rfl
    -- The registers still to be pushed are as they were: `rsp` is not one of them.
    have hsame : ∀ r' ∈ l, ((s.write (.word (s.gpr .rsp - 8) (s.gpr r))).set .rsp
        (s.gpr .rsp - 8)).gpr r' = s.gpr r' :=
      fun r' hr' => State.set_gpr_of_ne _ _ fun heq => hl (heq ▸ hr')
    rw [List.map_cons, List.foldl_cons, hexec, ih hl, State.set_gpr_self, pushed_congr _ hsame,
      hlength, State.set_writes, State.set_set, State.write_writes]
    rfl

/-- `popfq` right after a push. -/
theorem exec_popfq_push (s : State) (value : UInt64) :
    Instr.popfq.exec env (s.push value)
      = (s.write (.word (s.gpr .rsp - 8) value)).set_flags value := by
  let t := s.write (.word (s.gpr .rsp - 8) value)
  have hload : t.mem.load64 (s.gpr .rsp - 8) = value := Memory.load64_store _ _ _
  have hrsp : (s.push value).gpr .rsp = s.gpr .rsp - 8 := State.set_gpr_self _ _ _
  have hback : s.gpr .rsp - 8 + 8 = s.gpr .rsp := by grind
  have hexec : Instr.popfq.exec env (s.push value)
      = ((t.set_flags (t.mem.load64 ((s.push value).gpr .rsp))).set .rsp (s.gpr .rsp - 8)).set .rsp
        ((s.push value).gpr .rsp + 8) := rfl
  rw [hexec, hrsp, hload, hback, State.set_set]
  exact (t.set_flags value).set_self .rsp

/-- `mov dst, [rsp + disp]` for several registers, where each gets the value it should have. -/
theorem exec_loads (saved : Reg → UInt64) (l : List (Reg × UInt64)) (s : State)
    (h : ∀ p ∈ l, p.1 ≠ .rsp ∧ s.mem.load64 (s.gpr .rsp + p.2) = saved p.1) :
    (l.map fun p => Instr.load p.1 ⟨.rsp, p.2⟩).foldl (Instr.exec env) s
      = { s with gpr := fun r => if r ∈ l.map Prod.fst then saved r else s.gpr r } := by
  induction l generalizing s with
  | nil => simp
  | cons p l ih =>
    obtain ⟨hne, hvalue⟩ := h p List.mem_cons_self
    -- The loads do not touch `rsp`, so the later operands are where they were.
    have hrsp : (s.set p.1 (saved p.1)).gpr .rsp = s.gpr .rsp := s.set_gpr_of_ne _ hne.symm
    have hexec : (Instr.load p.1 ⟨.rsp, p.2⟩).exec env s = s.set p.1 (saved p.1) :=
      congrArg (s.set p.1) hvalue
    rw [List.map_cons, List.foldl_cons, hexec, ih]
    · refine congrArg (fun gpr => { s with gpr := gpr }) (funext fun r => ?_)
      by_cases hr : r = p.1
      · have hmem : p.1 ∈ (p :: l).map Prod.fst := List.mem_cons_self
        rw [hr, s.set_gpr_self, ite_self, if_pos hmem]
      · have hmem : r ∈ (p :: l).map Prod.fst ↔ r ∈ l.map Prod.fst := by
          rw [List.map_cons, List.mem_cons, or_iff_right hr]
        rw [s.set_gpr_of_ne _ hr]
        exact if_congr hmem.symm rfl rfl
    · intro q hq
      rw [hrsp]
      exact h q (List.mem_cons_of_mem p hq)

/-- A row of loads restores the registers of the row. -/
theorem exec_movdqu_loads (saved : XmmReg → Xmm) (l : List (XmmReg × UInt64)) (s : State)
    (h : ∀ p ∈ l, s.mem.load_xmm (s.gpr .rsp + p.2) = saved p.1) :
    (l.map fun p => Instr.movdqu_load p.1 ⟨.rsp, p.2⟩).foldl (Instr.exec env) s
      = { s with xmm := fun i => if i ∈ l.map Prod.fst then saved i else s.xmm i } := by
  induction l generalizing s with
  | nil => simp
  | cons p l ih =>
    have hexec : (Instr.movdqu_load p.1 ⟨.rsp, p.2⟩).exec env s
        = s.set_xmm p.1 (saved p.1) :=
      congrArg (s.set_xmm p.1) (h p List.mem_cons_self)
    rw [List.map_cons, List.foldl_cons, hexec, ih (s.set_xmm p.1 (saved p.1)) fun q hq =>
      h q (List.mem_cons_of_mem p hq)]
    refine congrArg (fun xmm => { s with xmm := xmm }) (funext fun i => ?_)
    by_cases hi : i = p.1
    · have hmem : p.1 ∈ (p :: l).map Prod.fst := List.mem_cons_self
      rw [hi, s.set_xmm_xmm_self, ite_self, if_pos hmem]
    · have hmem : i ∈ (p :: l).map Prod.fst ↔ i ∈ l.map Prod.fst := by
        rw [List.map_cons, List.mem_cons, or_iff_right hi]
      rw [s.set_xmm_xmm_of_ne _ hi]
      exact if_congr hmem.symm rfl rfl

end Blocks

end Linuwux.X86
