/-
`PeExport.lean` -- `export_service` of `runtime/src/syscall/pe_export.rs`.

It finds the service number of a system call in the image of a DLL: it looks the name up in the
export table, and reads the number off the first instructions of the function. A name is read into
32 bytes and compared as far as that; since the name that is looked for is shorter, this makes no
difference ([`compare_take`]), and the search is the one of [`Bisection`].

[`Image`] is an image as a linker makes it, with everything that is read in place.
-/
import Linuwux.Bisection
import Linuwux.LibC
import Linuwux.ProcMem
import Mathlib.Data.List.TakeWhile

set_option autoImplicit false

namespace Linuwux.PeExport

open LibC (b_str)
open ProcMem (Memory checked_add read_memory read_u16 read_u32)
open Scans (slice from_le_bytes)

def PE_HEADER_LIMIT : UInt32 := 0x1000

def EXPORT_LIMIT : UInt32 := 4096

/-! ## The code -/

/-- `offset`. -/
def offset (base : UInt64) (amount : ℕ) : Option UInt64 := checked_add base amount

def rva (base : UInt64) (image_size value : UInt32) : Option UInt64 :=
  if value < image_size then offset base value.toNat else none

/-- `u32::checked_mul`, `u32::checked_add`: the RVA of an entry of a table. -/
def slot (table : UInt32) (index width : ℕ) : Option UInt32 :=
  if index * width < 2 ^ 32 then
    if table.toNat + index * width < 2 ^ 32 then some (table + .ofNat (index * width)) else none
  else none

/-- What `export_service` reads from the headers and the export directory. -/
structure Exports where
  image_size : UInt32
  function_count : UInt32
  name_count : UInt32
  functions : UInt32
  names : UInt32
  ordinals : UInt32
  deriving DecidableEq

/-- `export_service` up to the search. -/
def exports (m : Memory) (base : UInt64) : Option Exports := do
  let dos ← read_memory m base 0x40
  if dos.take 2 ≠ [0x4d, 0x5a] then none else
  let pe_offset : UInt32 := .ofNat (from_le_bytes (slice dos 0x3c 0x40))
  if PE_HEADER_LIMIT < pe_offset then none else
  let pe ← offset base pe_offset.toNat
  let signature ← read_memory m pe 4
  if signature ≠ [0x50, 0x45, 0, 0] then none else
  let optional ← offset pe 24
  let magic ← (offset optional 0).bind (read_u16 m)
  if magic ≠ 0x20b then none else
  let image_size ← (offset optional 56).bind (read_u32 m)
  let export_rva ← (offset optional 112).bind (read_u32 m)
  let directory ← rva base image_size export_rva
  let function_count ← (offset directory 0x14).bind (read_u32 m)
  let name_count ← (offset directory 0x18).bind (read_u32 m)
  let functions ← (offset directory 0x1c).bind (read_u32 m)
  let names ← (offset directory 0x20).bind (read_u32 m)
  let ordinals ← (offset directory 0x24).bind (read_u32 m)
  if name_count = 0 ∨ EXPORT_LIMIT < name_count ∨ EXPORT_LIMIT < function_count then none
  else some ⟨image_size, function_count, name_count, functions, names, ordinals⟩

/-- The name of entry `mid`, as far as it is compared. -/
def candidate (m : Memory) (base : UInt64) (e : Exports) (mid : ℕ) : Option (List UInt8) := do
  let name_slot ← (slot e.names mid 4).bind (rva base e.image_size)
  let name_rva ← read_u32 m name_slot
  let name_address ← rva base e.image_size name_rva
  let bytes ← read_memory m name_address 32
  -- Without a zero in the 32 bytes the name goes on, and is compared as far as it was read.
  some (bytes.takeWhile fun byte => byte ≠ 0)

/-- The service number of entry `mid`. -/
def entry_service (m : Memory) (base : UInt64) (e : Exports) (mid : ℕ) : Option UInt32 := do
  let ordinal_slot ← (slot e.ordinals mid 2).bind (rva base e.image_size)
  let ordinal ← read_u16 m ordinal_slot
  -- The ordinal is an index into the functions.
  if e.function_count.toNat ≤ ordinal.toNat then none else
  let function_slot ← (slot e.functions ordinal.toNat 4).bind (rva base e.image_size)
  let function_rva ← read_u32 m function_slot
  let function ← rva base e.image_size function_rva
  let head ← read_memory m function 8
  -- `mov r10, rcx; mov eax, imm32`
  if head.take 4 ≠ [0x4c, 0x8b, 0xd1, 0xb8] then none
  else some (.ofNat (from_le_bytes (slice head 4 8)))

/-- The loop. `low` and `high` are at most `name_count`, so they are numbers here. -/
def lookup (m : Memory) (base : UInt64) (e : Exports) (export_name : List UInt8) (low high : ℕ) :
    Option UInt32 :=
  if low < high then
    match candidate m base e (low + (high - low) / 2) with
    | none => none
    | some name =>
      match compare name export_name with
      | .lt => lookup m base e export_name (low + (high - low) / 2 + 1) high
      | .gt => lookup m base e export_name low (low + (high - low) / 2)
      | .eq => entry_service m base e (low + (high - low) / 2)
  else none
termination_by high - low

def export_service (m : Memory) (base : UInt64) (export_name : List UInt8) : Option UInt32 :=
  (exports m base).bind fun e => lookup m base e export_name 0 e.name_count.toNat

/-! ## Images -/

/-- The bytes at an RVA. -/
def Holds (m : Memory) (base : UInt64) (at_ : ℕ) (bytes : List UInt8) : Prop :=
  ∀ i < bytes.length, bytes[i]? = m.byte (base.toNat + at_ + i)

/-- The value in the `width` bytes at an RVA. -/
def Value (m : Memory) (base : UInt64) (at_ width value : ℕ) : Prop :=
  ∃ bytes, bytes.length = width ∧ Holds m base at_ bytes ∧ from_le_bytes bytes = value

/-- A readable image with an export table, as it is in memory at `base`. -/
structure Image (m : Memory) (base : UInt64) where
  dos : List UInt8
  pe_offset : UInt32
  export_rva : UInt32
  table : Exports
  name : ℕ → List UInt8
  name_rva : ℕ → UInt32
  ordinal : ℕ → UInt16
  function_rva : ℕ → UInt32
  head : ℕ → List UInt8
  mapped : base ≠ 0
  -- the headers
  dos_length : dos.length = 0x40
  dos_at : Holds m base 0 dos
  dos_signature : dos.take 2 = [0x4d, 0x5a]
  pe_offset_eq : from_le_bytes (slice dos 0x3c 0x40) = pe_offset.toNat
  pe_offset_le : pe_offset ≤ PE_HEADER_LIMIT
  signature : Holds m base pe_offset.toNat [0x50, 0x45, 0, 0]
  magic : Value m base (pe_offset.toNat + 24) 2 0x20b
  image_size : Value m base (pe_offset.toNat + 24 + 56) 4 table.image_size.toNat
  export_value : Value m base (pe_offset.toNat + 24 + 112) 4 export_rva.toNat
  export_inside : export_rva < table.image_size
  -- the export directory
  function_count : Value m base (export_rva.toNat + 0x14) 4 table.function_count.toNat
  name_count : Value m base (export_rva.toNat + 0x18) 4 table.name_count.toNat
  functions : Value m base (export_rva.toNat + 0x1c) 4 table.functions.toNat
  names : Value m base (export_rva.toNat + 0x20) 4 table.names.toNat
  ordinals : Value m base (export_rva.toNat + 0x24) 4 table.ordinals.toNat
  some_names : table.name_count ≠ 0
  name_count_le : table.name_count ≤ EXPORT_LIMIT
  function_count_le : table.function_count ≤ EXPORT_LIMIT
  -- the names
  name_slot_inside : ∀ i < table.name_count.toNat,
    table.names.toNat + i * 4 < table.image_size.toNat
  name_slot : ∀ i < table.name_count.toNat,
    Value m base (table.names.toNat + i * 4) 4 (name_rva i).toNat
  name_inside : ∀ i < table.name_count.toNat, name_rva i < table.image_size
  name_at : ∀ i < table.name_count.toNat, Holds m base (name_rva i).toNat (name i ++ [0])
  name_nonzero : ∀ i < table.name_count.toNat, 0 ∉ name i
  name_readable : ∀ i < table.name_count.toNat,
    ∃ bytes, bytes.length = 32 ∧ Holds m base (name_rva i).toNat bytes
  sorted : ∀ i j, i < j → j < table.name_count.toNat → compare (name i) (name j) = .lt
  -- the ordinals
  ordinal_slot_inside : ∀ i < table.name_count.toNat,
    table.ordinals.toNat + i * 2 < table.image_size.toNat
  ordinal_slot : ∀ i < table.name_count.toNat,
    Value m base (table.ordinals.toNat + i * 2) 2 (ordinal i).toNat
  -- the functions
  function_slot_inside : ∀ i < table.function_count.toNat,
    table.functions.toNat + i * 4 < table.image_size.toNat
  function_slot : ∀ i < table.function_count.toNat,
    Value m base (table.functions.toNat + i * 4) 4 (function_rva i).toNat
  function_inside : ∀ i < table.function_count.toNat, function_rva i < table.image_size
  head_length : ∀ i < table.function_count.toNat, (head i).length = 8
  head_at : ∀ i < table.function_count.toNat, Holds m base (function_rva i).toNat (head i)

variable {m : Memory} {base : UInt64}

/-- The first entry of the name table with this name. -/
def Image.scan (image : Image m base) (export_name : List UInt8) : Option ℕ :=
  (List.range image.table.name_count.toNat).find? fun i => image.name i = export_name

/-- `mov r10, rcx; mov eax, imm32`. -/
def service_of_head (head : List UInt8) : Option UInt32 :=
  if head.take 4 = [0x4c, 0x8b, 0xd1, 0xb8] then some (.ofNat (from_le_bytes (slice head 4 8)))
  else none

/-- The service number of an entry of the name table. -/
def Image.service_at (image : Image m base) (i : ℕ) : Option UInt32 :=
  if (image.ordinal i).toNat < image.table.function_count.toNat then
    service_of_head (image.head (image.ordinal i).toNat)
  else none

def Image.service (image : Image m base) (export_name : List UInt8) : Option UInt32 :=
  (image.scan export_name).bind image.service_at

/-! ## Reading an image -/

variable {at_ : ℕ} {address : UInt64}

theorem offset_eq_some {a b : UInt64} {n : ℕ} : offset a n = some b ↔ b.toNat = a.toNat + n :=
  ProcMem.checked_add_eq_some

theorem exists_offset {a : UInt64} {n : ℕ} (h : a.toNat + n < 2 ^ 64) :
    ∃ b, offset a n = some b ∧ b.toNat = a.toNat + n := by
  have hnat : (UInt64.ofNat (a.toNat + n)).toNat = a.toNat + n := UInt64.toNat_ofNat_of_lt' h
  exact ⟨_, offset_eq_some.mpr hnat, hnat⟩

theorem Holds.fits {bytes : List UInt8} (h : Holds m base at_ bytes) (hne : bytes ≠ []) :
    base.toNat + at_ < 2 ^ 64 := by
  have hlen := List.length_pos_iff.mpr hne
  have hfirst := h 0 hlen
  rw [List.getElem?_eq_getElem hlen] at hfirst
  unfold Memory.byte at hfirst
  split at hfirst
  · assumption
  · cases hfirst

/-- What an RVA holds is read there. -/
theorem Holds.read {bytes : List UInt8} (h : Holds m base at_ bytes) (hne : bytes ≠ [])
    (hbase : base ≠ 0) (ha : address.toNat = base.toNat + at_) :
    read_memory m address bytes.length = some bytes := by
  refine ProcMem.read_memory_eq_some.mpr ⟨?_, ?_, rfl, fun i hi => ?_⟩
  · rintro rfl
    have hpos : base.toNat ≠ 0 := fun hzero => hbase (UInt64.toNat_inj.mp hzero)
    rw [UInt64.toNat_zero] at ha
    omega
  · exact fun hzero => hne (List.length_eq_zero_iff.mp hzero)
  · rw [h i hi, ha]

theorem Value.fits {width value : ℕ} (h : Value m base at_ width value) (hw : width ≠ 0) :
    base.toNat + at_ < 2 ^ 64 := by
  obtain ⟨bytes, hlen, hholds, -⟩ := h
  refine hholds.fits fun hnil => hw ?_
  rw [← hlen, hnil, List.length_nil]

theorem Value.read_u16 {value : UInt16} (h : Value m base at_ 2 value.toNat) (hbase : base ≠ 0)
    (ha : address.toNat = base.toNat + at_) : read_u16 m address = some value := by
  obtain ⟨bytes, hlen, hholds, hvalue⟩ := h
  have hread := hholds.read (List.ne_nil_of_length_eq_add_one hlen) hbase ha
  rw [hlen] at hread
  unfold ProcMem.read_u16
  rw [hread, Option.map_some, hvalue, UInt16.ofNat_toNat]

theorem Value.read_u32 {value : UInt32} (h : Value m base at_ 4 value.toNat) (hbase : base ≠ 0)
    (ha : address.toNat = base.toNat + at_) : read_u32 m address = some value := by
  obtain ⟨bytes, hlen, hholds, hvalue⟩ := h
  have hread := hholds.read (List.ne_nil_of_length_eq_add_one hlen) hbase ha
  rw [hlen] at hread
  unfold ProcMem.read_u32
  rw [hread, Option.map_some, hvalue, UInt32.ofNat_toNat]

/-- A field of a structure at an address. -/
theorem Value.field_u32 {value : UInt32} {k : ℕ} (h : Value m base (at_ + k) 4 value.toNat)
    (hbase : base ≠ 0) (ha : address.toNat = base.toNat + at_) :
    (offset address k).bind (ProcMem.read_u32 m) = some value := by
  have hfits := h.fits (by decide)
  obtain ⟨field, hfield, hnat⟩ := exists_offset (a := address) (n := k) (by omega)
  rw [hfield, Option.bind_some]
  exact h.read_u32 hbase (by omega)

theorem exists_rva {image_size value : UInt32} (hinside : value < image_size)
    (hfits : base.toNat + value.toNat < 2 ^ 64) :
    ∃ a, rva base image_size value = some a ∧ a.toNat = base.toNat + value.toNat := by
  unfold rva
  rw [if_pos hinside]
  exact exists_offset hfits

/-- An entry of a table. -/
theorem exists_slot {image_size table : UInt32} {i width : ℕ}
    (hinside : table.toNat + i * width < image_size.toNat)
    (hfits : base.toNat + (table.toNat + i * width) < 2 ^ 64) :
    ∃ a, (slot table i width).bind (rva base image_size) = some a
      ∧ a.toNat = base.toNat + (table.toNat + i * width) := by
  have hlt := image_size.toNat_lt
  have hindex : i * width < 2 ^ 32 := by omega
  have hsum : table.toNat + i * width < 2 ^ 32 := by omega
  have hnat : (table + UInt32.ofNat (i * width)).toNat = table.toNat + i * width := by
    rw [UInt32.toNat_add, UInt32.toNat_ofNat_of_lt' hindex, Nat.mod_eq_of_lt hsum]
  unfold slot
  rw [if_pos hindex, if_pos hsum, Option.bind_some, ← hnat]
  refine exists_rva ?_ ?_
  · rwa [UInt32.lt_iff_toNat_lt, hnat]
  · rwa [hnat]

/-! ## Names -/

/-- A list cut at a length that is longer than the other list compares like the whole list. -/
theorem compare_take {α : Type*} [Ord α] (xs ys : List α) {n : ℕ} (h : ys.length < n) :
    compare (xs.take n) ys = compare xs ys := by
  induction ys generalizing xs n with
  | nil =>
    cases xs with
    | nil => rw [List.take_nil]
    | cons x xs =>
      obtain ⟨k, rfl⟩ := Nat.exists_eq_succ_of_ne_zero (Nat.ne_of_gt h)
      rw [List.take_succ_cons, List.compare_cons_nil, List.compare_cons_nil]
  | cons y ys ih =>
    obtain ⟨k, rfl⟩ := Nat.exists_eq_succ_of_ne_zero (Nat.ne_zero_of_lt h)
    cases xs with
    | nil => rw [List.take_nil]
    | cons x xs =>
      rw [List.take_succ_cons, List.compare_cons_cons, List.compare_cons_cons,
        ih xs (Nat.lt_of_succ_lt_succ h)]

/-- What one RVA holds agrees as far as both go. -/
theorem Holds.take_eq {xs ys : List UInt8} (hx : Holds m base at_ xs) (hy : Holds m base at_ ys) :
    xs.take ys.length = ys.take xs.length := by
  apply List.ext_getElem?
  intro i
  rw [List.getElem?_take, List.getElem?_take]
  by_cases hboth : i < xs.length ∧ i < ys.length
  · rw [if_pos hboth.2, if_pos hboth.1, hx i hboth.1, hy i hboth.2]
  · have hnone : xs.length ≤ i ∨ ys.length ≤ i := by omega
    rcases hnone with hxs | hys
    · rw [List.getElem?_eq_none hxs, if_neg (Nat.not_lt.mpr hxs), ite_self]
    · rw [List.getElem?_eq_none hys, if_neg (Nat.not_lt.mpr hys), ite_self]

/-- 32 bytes from the start of a name on, up to the first zero. -/
theorem takeWhile_nonzero {name bytes : List UInt8} (hname : Holds m base at_ (name ++ [0]))
    (hnonzero : 0 ∉ name) (hbytes : Holds m base at_ bytes) :
    (bytes.takeWhile fun byte => byte ≠ 0) = name.take bytes.length := by
  have hpos : ∀ byte ∈ name, decide (byte ≠ 0) = true := by
    intro byte hmem
    exact decide_eq_true fun hzero => hnonzero (hzero ▸ hmem)
  have hagree := hname.take_eq hbytes
  rw [List.length_append, List.length_singleton] at hagree
  rcases Nat.lt_or_ge name.length bytes.length with hends | hlong
  · -- The zero has been read.
    rw [List.take_of_length_le (by rw [List.length_append]; exact hends)] at hagree
    rw [← List.take_append_drop (name.length + 1) bytes, ← hagree, List.append_assoc,
      List.takeWhile_append_of_pos hpos, List.singleton_append,
      List.takeWhile_cons_of_neg (by decide), List.append_nil]
    refine (List.take_of_length_le ?_).symm
    rw [List.length_append]
    omega
  · have hcut : bytes.take (name.length + 1) = bytes := List.take_of_length_le (by omega)
    rw [List.take_append_of_le_length hlong, hcut] at hagree
    rw [hagree, List.takeWhile_eq_self_iff, ← hagree]
    exact fun byte hmem => hpos byte (List.mem_of_mem_take hmem)

/-! ## The image is read -/

namespace Image

variable (image : Image m base)

theorem exports_eq : exports m base = some image.table := by
  have hbase := image.mapped
  have hdos : read_memory m base image.dos.length = some image.dos :=
    image.dos_at.read (List.ne_nil_of_length_eq_add_one image.dos_length) hbase rfl
  have hpe_offset : UInt32.ofNat (from_le_bytes (slice image.dos 0x3c 0x40)) = image.pe_offset := by
    rw [image.pe_offset_eq, UInt32.ofNat_toNat]
  have hpe_le : ¬ PE_HEADER_LIMIT < image.pe_offset := UInt32.not_lt.mpr image.pe_offset_le
  rw [image.dos_length] at hdos
  -- The headers.
  obtain ⟨pe, hpe, hpe_nat⟩ := exists_offset (image.signature.fits (by decide))
  have hsignature : read_memory m pe 4 = some [0x50, 0x45, 0, 0] :=
    image.signature.read (by decide) hbase hpe_nat
  have hmagic := image.magic
  have hmagic_fits := hmagic.fits (by decide)
  obtain ⟨optional, hoptional, hoptional_nat⟩ := exists_offset (a := pe) (n := 24) (by omega)
  rw [hpe_nat, Nat.add_assoc] at hoptional_nat
  have hmagic_read : (offset optional 0).bind (ProcMem.read_u16 m) = some 0x20b := by
    rw [offset_eq_some.mpr (Nat.add_zero _).symm, Option.bind_some]
    exact hmagic.read_u16 hbase hoptional_nat
  -- The export directory.
  have hcount_fits := image.function_count.fits (by decide)
  have hdirectory_fits : base.toNat + image.export_rva.toNat < 2 ^ 64 := by omega
  obtain ⟨directory, hdirectory, hdirectory_nat⟩ :=
    exists_rva image.export_inside hdirectory_fits
  unfold exports
  simp only [hdos, image.dos_signature, hpe_offset, hpe_le, hpe, hsignature, hoptional,
    hmagic_read, image.image_size.field_u32 hbase hoptional_nat,
    image.export_value.field_u32 hbase hoptional_nat, hdirectory,
    image.function_count.field_u32 hbase hdirectory_nat,
    image.name_count.field_u32 hbase hdirectory_nat, image.functions.field_u32 hbase hdirectory_nat,
    image.names.field_u32 hbase hdirectory_nat, image.ordinals.field_u32 hbase hdirectory_nat,
    image.some_names, UInt32.not_lt.mpr image.name_count_le,
    UInt32.not_lt.mpr image.function_count_le, Option.bind_eq_bind, Option.bind_some, ne_eq,
    not_true_eq_false, if_false, or_false]

/-- What is compared of a name is the name, or 32 bytes of it. -/
theorem candidate_eq {i : ℕ} (hi : i < image.table.name_count.toNat) :
    candidate m base image.table i = some ((image.name i).take 32) := by
  have hbase := image.mapped
  have hslot := image.name_slot i hi
  obtain ⟨name_slot, hname_slot, hslot_nat⟩ :=
    exists_slot (image.name_slot_inside i hi) (hslot.fits (by decide))
  obtain ⟨bytes, hlen, hholds⟩ := image.name_readable i hi
  have hne : bytes ≠ [] := List.ne_nil_of_length_eq_add_one hlen
  obtain ⟨name_address, hname_address, hname_nat⟩ :=
    exists_rva (image.name_inside i hi) (hholds.fits hne)
  have hread := hholds.read hne hbase hname_nat
  rw [hlen] at hread
  unfold candidate
  rw [hname_slot]
  simp only [Option.bind_eq_bind, Option.bind_some, hslot.read_u32 hbase hslot_nat, hname_address,
    hread, takeWhile_nonzero (image.name_at i hi) (image.name_nonzero i hi) hholds, hlen]

theorem entry_service_eq {i : ℕ} (hi : i < image.table.name_count.toNat) :
    entry_service m base image.table i = image.service_at i := by
  have hbase := image.mapped
  have hslot := image.ordinal_slot i hi
  obtain ⟨ordinal_slot, hordinal_slot, hslot_nat⟩ :=
    exists_slot (image.ordinal_slot_inside i hi) (hslot.fits (by decide))
  unfold entry_service service_at
  rw [hordinal_slot]
  simp only [Option.bind_eq_bind, Option.bind_some, hslot.read_u16 hbase hslot_nat]
  by_cases hj : (image.ordinal i).toNat < image.table.function_count.toNat
  · rw [if_neg (Nat.not_le.mpr hj), if_pos hj]
    have hfunction := image.function_slot _ hj
    obtain ⟨function_slot, hfunction_slot, hfunction_nat⟩ :=
      exists_slot (image.function_slot_inside _ hj) (hfunction.fits (by decide))
    have hhead := image.head_at _ hj
    have hlen := image.head_length _ hj
    have hne := List.ne_nil_of_length_eq_add_one hlen
    obtain ⟨function, hfunction_rva, hhead_nat⟩ :=
      exists_rva (image.function_inside _ hj) (hhead.fits hne)
    have hread := hhead.read hne hbase hhead_nat
    rw [hlen] at hread
    unfold service_of_head
    simp only [hfunction_slot, hfunction.read_u32 hbase hfunction_nat, hfunction_rva, hread,
      Option.bind_some, ne_eq, ite_not]
  · rw [if_pos (Nat.le_of_not_lt hj), if_neg hj]

/-- **The loop** is a binary search in the names, followed by the entry's service. -/
theorem lookup_eq {export_name : List UInt8} (h : export_name.length < 32) {low high : ℕ}
    (hhigh : high ≤ image.table.name_count.toNat) :
    lookup m base image.table export_name low high
      = (Bisection.search (fun i => compare (image.name i) export_name) low high).bind
          image.service_at := by
  fun_induction Bisection.search (fun i => compare (image.name i) export_name) low high with
  | case1 low high hlt hprobe ih =>
    -- The entry in the middle is before the name.
    rw [lookup, if_pos hlt, image.candidate_eq (by omega)]
    simp only [compare_take _ _ h, hprobe, ih hhigh]
  | case2 low high hlt hprobe ih =>
    -- It is behind the name.
    rw [lookup, if_pos hlt, image.candidate_eq (by omega)]
    simp only [compare_take _ _ h, hprobe, ih (by omega)]
  | case3 low high hlt hprobe =>
    -- It has the name.
    have hmid : low + (high - low) / 2 < image.table.name_count.toNat := by omega
    rw [lookup, if_pos hlt, image.candidate_eq hmid]
    simp only [compare_take _ _ h, hprobe, image.entry_service_eq hmid, Option.bind_some]
  | case4 low high hge =>
    rw [lookup, if_neg hge, Option.bind_none]

/-- The names are sorted, so the search finds what a scan finds. -/
theorem search_eq_scan (export_name : List UInt8) :
    Bisection.search (fun i => compare (image.name i) export_name) 0 image.table.name_count.toNat
      = image.scan export_name := by
  rw [Bisection.search_eq_find (Bisection.ordered_of_sorted image.sorted export_name)]
  unfold scan
  simp only [Std.compare_eq_iff_eq]

end Image

/-- **`export_service` is a scan of the export table.** In every image it returns the service number
of the entry with the name, if there is one and its function is a system call, and else `None`. -/
theorem export_service_spec (image : Image m base) {export_name : List UInt8}
    (h : export_name.length < 32) :
    export_service m base export_name = image.service export_name := by
  unfold export_service Image.service
  rw [image.exports_eq, Option.bind_some, image.lookup_eq h (Nat.le_refl _), image.search_eq_scan]

/-! ### An image with two exports -/

/-- What is in the image, by its RVA; the rest is zero. -/
def sections : List (ℕ × List UInt8) :=
  [(0, [0x4d, 0x5a]), (0x3c, [0x80]), (0x80, [0x50, 0x45]), (0x98, [0x0b, 0x02]), (0xd1, [0x10]),
    (0x109, [0x02]), (0x214, [1]), (0x218, [2]), (0x21d, [0x03]), (0x220, [0x40, 0x03]),
    (0x224, [0x60, 0x03]), (0x301, [0x04]), (0x340, [0x80, 0x03, 0, 0, 0xc0, 0x03]), (0x362, [1]),
    (0x380, b_str "NtUserBuildHwndList"),
    (0x3c0, b_str "NtUserBuildHwndListOfEveryDesktopWindow"),
    (0x400, [0x4c, 0x8b, 0xd1, 0xb8, 0x5a, 0x13])]

def image_byte (n : ℕ) : UInt8 :=
  (sections.findSome? fun (start, bytes) => if start ≤ n then bytes[n - start]? else none).getD 0

def image_memory : Memory := fun address =>
  if 0x10000 ≤ address.toNat ∧ address.toNat < 0x11000 then
    some (image_byte (address.toNat - 0x10000))
  else none

theorem holds_of_mapM {bytes : List UInt8}
    (h : (List.range' (base.toNat + at_) bytes.length).mapM m.byte = some bytes) :
    Holds m base at_ bytes :=
  (Scans.mapM_range_eq_some.mp h).2

theorem value_of_mapM {width value : ℕ}
    (h : ((List.range' (base.toNat + at_) width).mapM m.byte).map from_le_bytes = some value) :
    Value m base at_ width value := by
  obtain ⟨bytes, hbytes, hvalue⟩ := Option.map_eq_some_iff.mp h
  obtain ⟨hlen, hholds⟩ := Scans.mapM_range_eq_some.mp hbytes
  subst hlen
  exact ⟨bytes, rfl, hholds, hvalue⟩

theorem readable_of_mapM {width : ℕ}
    (h : ((List.range' (base.toNat + at_) width).mapM m.byte).isSome) :
    ∃ bytes, bytes.length = width ∧ Holds m base at_ bytes := by
  obtain ⟨value, hvalue⟩ := Option.isSome_iff_exists.mp h
  obtain ⟨bytes, hlen, hholds, -⟩ := value_of_mapM (congrArg (Option.map from_le_bytes) hvalue)
  exact ⟨bytes, hlen, hholds⟩

def two_exports : Image image_memory 0x10000 where
  dos := (List.range 0x40).map image_byte
  pe_offset := 0x80
  export_rva := 0x200
  table := ⟨0x1000, 1, 2, 0x300, 0x340, 0x360⟩
  name i := if i = 0 then b_str "NtUserBuildHwndList"
    else b_str "NtUserBuildHwndListOfEveryDesktopWindow"
  name_rva i := if i = 0 then 0x380 else 0x3c0
  ordinal i := .ofNat i
  function_rva _ := 0x400
  head _ := [0x4c, 0x8b, 0xd1, 0xb8, 0x5a, 0x13, 0, 0]
  mapped := by decide
  dos_length := by decide
  dos_at := holds_of_mapM (by decide +kernel)
  dos_signature := by decide +kernel
  pe_offset_eq := by decide +kernel
  pe_offset_le := by decide
  signature := holds_of_mapM (by decide +kernel)
  magic := value_of_mapM (by decide +kernel)
  image_size := value_of_mapM (by decide +kernel)
  export_value := value_of_mapM (by decide +kernel)
  export_inside := by decide
  function_count := value_of_mapM (by decide +kernel)
  name_count := value_of_mapM (by decide +kernel)
  functions := value_of_mapM (by decide +kernel)
  names := value_of_mapM (by decide +kernel)
  ordinals := value_of_mapM (by decide +kernel)
  some_names := by decide
  name_count_le := by decide
  function_count_le := by decide
  name_slot_inside := by decide +kernel
  name_slot i hi := value_of_mapM (by revert i; decide +kernel)
  name_inside := by decide +kernel
  name_at i hi := holds_of_mapM (by revert i; decide +kernel)
  name_nonzero := by decide +kernel
  name_readable i hi := readable_of_mapM (by revert i; decide +kernel)
  sorted i j hij hj := by revert i; revert j; decide +kernel
  ordinal_slot_inside := by decide +kernel
  ordinal_slot i hi := value_of_mapM (by revert i; decide +kernel)
  function_slot_inside := by decide +kernel
  function_slot i hi := value_of_mapM (by revert i; decide +kernel)
  function_inside := by decide +kernel
  head_length _ _ := rfl
  head_at i hi := holds_of_mapM (by revert i; decide +kernel)

/-- A name that is longer than what is compared of it is not taken for its beginning. -/
theorem two_exports_service :
    export_service image_memory 0x10000 (b_str "NtUserBuildHwndList") = some 0x135a := by
  rw [export_service_spec two_exports (by decide +kernel)]
  decide +kernel

end Linuwux.PeExport
