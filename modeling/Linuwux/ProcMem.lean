/-
`ProcMem.lean` -- `runtime/src/procmem.rs`: the process reads and writes its own memory.

`process_vm_readv` copies a range or reports that it could not, so memory is a partial map
from addresses to bytes and a read is all or nothing. A range that runs over the end of the
address space cannot be read.

`read_u64s` reads a block of words at once and falls back to single reads where the block is
not readable as a whole; [`read_u64s_eq`] says that the fallback is what it always amounts
to.
-/
import Linuwux.Scans

set_option autoImplicit false

namespace Linuwux.ProcMem

open Scans (slice)

/-- The readable bytes of the process. -/
abbrev Memory := UInt64 → Option UInt8

/-- The byte at an address, if it is one. -/
def Memory.byte (m : Memory) (n : ℕ) : Option UInt8 := if n < 2 ^ 64 then m (.ofNat n) else none

/-- `u64::checked_add`. -/
def checked_add (a : UInt64) (n : ℕ) : Option UInt64 :=
  if a.toNat + n < 2 ^ 64 then some (a + .ofNat n) else none

/-- `u64::saturating_add`. -/
def saturating_add (a : UInt64) (n : ℕ) : UInt64 :=
  if a.toNat + n < 2 ^ 64 then a + .ofNat n else 0xffffffffffffffff

theorem saturating_add_toNat (a : UInt64) (n : ℕ) :
    (saturating_add a n).toNat = min (a.toNat + n) (2 ^ 64 - 1) := by
  unfold saturating_add
  split
  · rw [UInt64.toNat_add, UInt64.toNat_ofNat']
    omega
  · change 0xffffffffffffffff = _
    omega

theorem checked_add_eq_some {a r : UInt64} {n : ℕ} :
    checked_add a n = some r ↔ r.toNat = a.toNat + n := by
  unfold checked_add
  split
  · rename_i h
    have hsum : (a + UInt64.ofNat n).toNat = a.toNat + n := by
      rw [UInt64.toNat_add, UInt64.toNat_ofNat']
      omega
    rw [Option.some.injEq, ← UInt64.toNat_inj, hsum, eq_comm]
  · rename_i h
    refine ⟨nofun, fun hr => ?_⟩
    have hlt := r.toNat_lt
    omega

/-- An address with its low bits cleared is rounded down. -/
theorem and_high_mask_toNat {mask : UInt64} {k : ℕ} (hmask : mask.toNat = 2 ^ 64 - 2 ^ k)
    (hlow : ∀ i < 64, (2 ^ 64 - 2 ^ k).testBit i = decide (k ≤ i)) (a : UInt64) :
    (a &&& mask).toNat = a.toNat / 2 ^ k * 2 ^ k := by
  have hlt := a.toNat_lt
  have hhigh : ∀ {n i : ℕ}, n < 2 ^ 64 → 64 ≤ i → n.testBit i = false := fun hn hi =>
    Nat.testBit_lt_two_pow (hn.trans_le (Nat.pow_le_pow_right (by decide) hi))
  rw [UInt64.toNat_and, hmask]
  apply Nat.eq_of_testBit_eq
  intro i
  rw [Nat.testBit_and, Nat.testBit_mul_two_pow, Nat.testBit_div_two_pow]
  rcases Nat.lt_or_ge i 64 with hi | hi
  · rw [hlow i hi]
    by_cases hk : k ≤ i
    · rw [Nat.sub_add_cancel hk, Bool.and_comm]
    · rw [decide_eq_false hk, Bool.and_false, Bool.false_and]
  · rw [hhigh hlt hi, Bool.false_and]
    by_cases hk : k ≤ i
    · rw [Nat.sub_add_cancel hk, hhigh hlt hi, Bool.and_false]
    · rw [decide_eq_false hk, Bool.false_and]

/-! ## Reading -/

/-- `read_memory` of `len` bytes. -/
def read_memory (m : Memory) (address : UInt64) (len : ℕ) : Option (List UInt8) :=
  if address = 0 ∨ len = 0 then none else (List.range' address.toNat len).mapM m.byte

def read_u16 (m : Memory) (address : UInt64) : Option UInt16 :=
  (read_memory m address 2).map fun bytes => .ofNat (Scans.from_le_bytes bytes)

def read_u32 (m : Memory) (address : UInt64) : Option UInt32 :=
  (read_memory m address 4).map fun bytes => .ofNat (Scans.from_le_bytes bytes)

/-- `u64::from_le_bytes`. -/
def u64_from_le_bytes (bytes : List UInt8) : UInt64 := .ofNat (Scans.from_le_bytes bytes)

def read_u64 (m : Memory) (address : UInt64) : Option UInt64 :=
  (read_memory m address 8).map u64_from_le_bytes

/-- Value `index` of a block, read on its own. -/
def word_at (m : Memory) (address : UInt64) (index : ℕ) : Option UInt64 :=
  (checked_add address (index * 8)).bind (read_u64 m)

/-- The loop of single reads in `read_u64s`, from `index` on. -/
def read_singly (m : Memory) (address : UInt64) : ℕ → ℕ → List UInt64
  | 0, _ => []
  | count + 1, index =>
    match word_at m address index with
    | some value => value :: read_singly m address count (index + 1)
    | none => []

/-- `read_u64s`: the leading values it has read. -/
def read_u64s (m : Memory) (address : UInt64) (count : ℕ) : List UInt64 :=
  let count := min count 64
  match read_memory m address (count * 8) with
  | some bytes =>
    (List.range count).map fun i => u64_from_le_bytes (slice bytes (i * 8) (i * 8 + 8))
  | none => read_singly m address count 0

/-- A read gives the bytes of the range, all of them. -/
theorem read_memory_eq_some {m : Memory} {address : UInt64} {len : ℕ} {bytes : List UInt8} :
    read_memory m address len = some bytes
      ↔ address ≠ 0 ∧ len ≠ 0 ∧ bytes.length = len
        ∧ ∀ i, i < len → bytes[i]? = m.byte (address.toNat + i) := by
  unfold read_memory
  split
  · rename_i h
    refine ⟨nofun, fun ⟨ha, hl, _⟩ => ?_⟩
    exact absurd h (not_or.mpr ⟨ha, hl⟩)
  · rename_i h
    rw [Scans.mapM_range_eq_some]
    exact ⟨fun hb => ⟨fun ha => h (Or.inl ha), fun hl => h (Or.inr hl), hb⟩,
      fun hb => ⟨hb.2.2.1, hb.2.2.2⟩⟩

/-- The addresses of a range. -/
def range (address : UInt64) (len : ℕ) : Set UInt64 :=
  {a | address ≤ a ∧ a.toNat < address.toNat + len}

theorem mem_range {address : UInt64} {len i : ℕ} (h : address.toNat + i < 2 ^ 64) (hi : i < len) :
    UInt64.ofNat (address.toNat + i) ∈ range address len := by
  have hat : (UInt64.ofNat (address.toNat + i)).toNat = address.toNat + i := by
    rw [UInt64.toNat_ofNat', Nat.mod_eq_of_lt h]
  refine ⟨UInt64.le_iff_toNat_le.mpr ?_, ?_⟩
  · rw [hat]
    omega
  · rw [hat]
    omega

/-- A read depends on the bytes of its range. -/
theorem read_memory_congr {m m' : Memory} {address : UInt64} {len : ℕ}
    (h : Set.EqOn m' m (range address len)) :
    read_memory m' address len = read_memory m address len := by
  have hbyte : ∀ i, i < len → m'.byte (address.toNat + i) = m.byte (address.toNat + i) := by
    intro i hi
    unfold Memory.byte
    split
    · exact h (mem_range ‹_› hi)
    · rfl
  ext1 bytes
  rw [read_memory_eq_some, read_memory_eq_some]
  refine and_congr_right fun _ => and_congr_right fun _ => and_congr_right fun _ =>
    forall₂_congr fun i hi => ?_
  rw [hbyte i hi]

/-- A part of a readable range is readable. -/
theorem read_memory_part {m : Memory} {address at_ : UInt64} {len i n : ℕ} {bytes : List UInt8}
    (h : read_memory m address len = some bytes) (hn : n ≠ 0) (hi : i + n ≤ len)
    (hat : at_.toNat = address.toNat + i) :
    read_memory m at_ n = some (slice bytes i (i + n)) := by
  obtain ⟨ha, -, hlen, hbytes⟩ := read_memory_eq_some.mp h
  refine read_memory_eq_some.mpr ⟨?_, hn, ?_, fun j hj => ?_⟩
  · rintro rfl
    apply ha
    apply UInt64.toNat_inj.mp
    change 0 = address.toNat + i at hat
    change address.toNat = 0
    omega
  · rw [Scans.length_slice (by omega)]
    omega
  · rw [Scans.getElem?_slice, if_pos (by omega), hbytes (i + j) (by omega), hat, Nat.add_assoc]

/-- What is readable does not run over the end of the address space. -/
theorem read_memory_fits {m : Memory} {address : UInt64} {len : ℕ} {bytes : List UInt8}
    (h : read_memory m address len = some bytes) : address.toNat + len ≤ 2 ^ 64 := by
  obtain ⟨-, hlen, hlength, hbytes⟩ := read_memory_eq_some.mp h
  by_contra hover
  have hlast := hbytes (len - 1) (by omega)
  rw [Memory.byte, if_neg (by omega), List.getElem?_eq_none_iff] at hlast
  omega

/-- No word is readable at the end of the address space. -/
theorem read_u64_eq_none {m : Memory} {address : UInt64} (h : 2 ^ 64 ≤ address.toNat + 7) :
    read_u64 m address = none := by
  unfold read_u64
  rw [Option.map_eq_none_iff]
  cases hr : read_memory m address 8 with
  | none => rfl
  | some bytes =>
    obtain ⟨-, -, hlen, hbytes⟩ := read_memory_eq_some.mp hr
    have hlast := hbytes 7 (by omega)
    rw [Memory.byte, if_neg (by omega), List.getElem?_eq_none_iff] at hlast
    omega

/-- A word of a block behind a saturated address is not readable, and neither is one that is
read at the saturated sum. -/
theorem word_at_saturating (m : Memory) (a : UInt64) (offset index : ℕ) :
    word_at m (saturating_add a offset) index
      = read_u64 m (saturating_add a (offset + index * 8)) := by
  have hoff := saturating_add_toNat a offset
  have hall := saturating_add_toNat a (offset + index * 8)
  unfold word_at
  by_cases hfit : a.toNat + (offset + index * 8) < 2 ^ 64
  · have hsum : (saturating_add a (offset + index * 8)).toNat
        = (saturating_add a offset).toNat + index * 8 := by omega
    rw [checked_add_eq_some.mpr hsum, Option.bind_some]
  · rw [read_u64_eq_none (by omega), Option.bind_eq_none_iff]
    intro r hr
    have hr := checked_add_eq_some.mp hr
    have hlt := r.toNat_lt
    exact read_u64_eq_none (by omega)

/-- The single reads of a readable block give its words. -/
theorem word_at_of_block {m : Memory} {address : UInt64} {count index : ℕ} {bytes : List UInt8}
    (h : read_memory m address (count * 8) = some bytes) (hi : index < count) :
    word_at m address index
      = some (u64_from_le_bytes (slice bytes (index * 8) (index * 8 + 8))) := by
  obtain ⟨-, -, hlen, hbytes⟩ := read_memory_eq_some.mp h
  have hlt : address.toNat + index * 8 < 2 ^ 64 := by
    by_contra hge
    have hat := hbytes (index * 8) (by omega)
    rw [Memory.byte, if_neg hge, List.getElem?_eq_none_iff] at hat
    omega
  have hsum : (address + UInt64.ofNat (index * 8)).toNat = address.toNat + index * 8 := by
    rw [UInt64.toNat_add, UInt64.toNat_ofNat']
    omega
  unfold word_at
  rw [checked_add_eq_some.mpr hsum, Option.bind_some, read_u64,
    read_memory_part h (by omega) (by omega) hsum, Option.map_some]

/-- Where the first words are all readable, they are what is read singly. -/
theorem read_singly_of_all {m : Memory} {address : UInt64} {f : ℕ → UInt64} {count index : ℕ}
    (h : ∀ i, index ≤ i → i < index + count → word_at m address i = some (f i)) :
    read_singly m address count index = (List.range' index count).map f := by
  induction count generalizing index with
  | zero => rfl
  | succ count ih =>
    rw [read_singly, h index (Nat.le_refl _) (by omega), List.range'_succ, List.map_cons,
      ih fun i hlo hhi => h i (by omega) (by omega)]

/-- Up to its end the list of single reads is the words of the block, and it ends at the
first that is not readable. -/
theorem getElem?_read_singly {m : Memory} {address : UInt64} {count start index : ℕ}
    (hi : index < count) (hle : index ≤ (read_singly m address count start).length) :
    (read_singly m address count start)[index]? = word_at m address (start + index) := by
  induction count generalizing start index with
  | zero => exact absurd hi (Nat.not_lt_zero _)
  | succ count ih =>
    rw [read_singly] at hle ⊢
    cases hw : word_at m address start with
    | none =>
      rw [hw] at hle
      obtain rfl : index = 0 := Nat.le_zero.mp hle
      exact hw.symm
    | some value =>
      rw [hw] at hle
      cases index with
      | zero => exact hw.symm
      | succ index =>
        rw [List.getElem?_cons_succ, ih (by omega) (Nat.le_of_succ_le_succ hle), Nat.add_assoc,
          Nat.add_comm 1]

/-- **A block read is single reads.** -/
theorem read_u64s_eq (m : Memory) (address : UInt64) (count : ℕ) :
    read_u64s m address count = read_singly m address (min count 64) 0 := by
  unfold read_u64s
  dsimp only
  split
  · rename_i bytes h
    rw [read_singly_of_all fun i _ hi => word_at_of_block h (by omega), List.range_eq_range']
  · rfl

/-! ## Writing -/

/-- `write_memory`: all bytes, or none where one of them is not writable. -/
def write_memory (m : Memory) (writable : UInt64 → Bool) (address : UInt64) (bytes : List UInt8) :
    Option Memory :=
  if address.toNat + bytes.length ≤ 2 ^ 64
      ∧ (List.range bytes.length).all fun i => writable (address + .ofNat i) then
    some fun a => if address ≤ a ∧ a.toNat < address.toNat + bytes.length
      then bytes[a.toNat - address.toNat]? else m a
  else none

def write_u32 (m : Memory) (writable : UInt64 → Bool) (address : UInt64) (value : UInt32) :
    Option Memory :=
  write_memory m writable address
    ((List.range 4).map fun i => .ofNat (value.toNat / 0x100 ^ i))

def write_u64 (m : Memory) (writable : UInt64 → Bool) (address value : UInt64) : Option Memory :=
  write_memory m writable address
    ((List.range 8).map fun i => .ofNat (value.toNat / 0x100 ^ i))

section Write

variable {m m' : Memory} {writable : UInt64 → Bool} {address value : UInt64} {bytes : List UInt8}

/-- A write leaves the bytes outside of its range alone. -/
theorem write_memory_outside (h : write_memory m writable address bytes = some m') {a : UInt64}
    (ha : a ∉ range address bytes.length) : m' a = m a := by
  unfold write_memory at h
  split at h
  · obtain rfl := Option.some.inj h
    exact if_neg ha
  · cases h

/-- What is written is read. -/
theorem read_memory_written (h : write_memory m writable address bytes = some m')
    (h₀ : address ≠ 0) (hne : bytes ≠ []) :
    read_memory m' address bytes.length = some bytes := by
  unfold write_memory at h
  split at h
  · rename_i hfits
    obtain rfl := Option.some.inj h
    refine read_memory_eq_some.mpr
      ⟨h₀, fun hlen => hne (List.length_eq_zero_iff.mp hlen), rfl, fun i hi => ?_⟩
    have hlt : address.toNat + i < 2 ^ 64 := by omega
    have hat : (UInt64.ofNat (address.toNat + i)).toNat = address.toNat + i := by
      rw [UInt64.toNat_ofNat', Nat.mod_eq_of_lt hlt]
    have hin := mem_range hlt hi
    rw [Memory.byte, if_pos hlt, if_pos ⟨hin.1, hin.2⟩, hat, Nat.add_sub_cancel_left]
  · cases h

theorem write_u64_outside (h : write_u64 m writable address value = some m') :
    Set.EqOn m' m (range address 8)ᶜ := fun a ha => write_memory_outside h (by
  rwa [List.length_map, List.length_range])

theorem read_u64_written (h : write_u64 m writable address value = some m') (h₀ : address ≠ 0) :
    read_u64 m' address = some value := by
  have hread := read_memory_written h h₀ (by simp)
  rw [List.length_map, List.length_range] at hread
  have hvalue : value.toNat % 0x100 ^ 8 = value.toNat := Nat.mod_eq_of_lt value.toNat_lt
  rw [read_u64, hread, Option.map_some, u64_from_le_bytes, Scans.from_le_bytes_digits, hvalue]
  exact congrArg some UInt64.ofNat_toNat

/-- Whether a write succeeds is a matter of the address. -/
theorem write_u64_isSome (m m' : Memory) (writable : UInt64 → Bool)
    (address value value' : UInt64) :
    (write_u64 m writable address value).isSome
      = (write_u64 m' writable address value').isSome := by
  unfold write_u64 write_memory
  simp only [List.length_map, List.length_range]
  split <;> rfl

end Write

end Linuwux.ProcMem
