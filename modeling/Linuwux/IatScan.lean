/-
`IatScan.lean` -- the scan of the main image's IAT in `runtime/src/syscall/kuser_dispatch.rs`.

Reflex hooks imports by writing trampolines and pointing IAT entries at them. The scan walks
the import descriptors of the main PE image and stores the destination of every trampoline it
finds in the stub set. It is repeated, on a schedule that gets sparser, until it has found
one.

The lookup table and the IAT are read 64 entries at a time. The first half of the file says
that this is reading them one by one: [`thunk_loop_eq`]. So a scan is a fold of
`remember_stub` over a list that the memory alone determines, [`iat_destinations`]. The
second half is about the scans of a whole run.
-/
import Linuwux.ProcMem
import Linuwux.StubSet

set_option autoImplicit false

namespace Linuwux.IatScan

open ProcMem (Memory read_memory read_u32 read_u64 read_u64s saturating_add)

/-! ## Trampolines -/

/-- `jmp [rip+2]`, the destination behind it. -/
def TRAMPOLINE_HEAD : List UInt8 := [0xff, 0x25, 0x02, 0, 0, 0, 0, 0]

def decode_trampoline (bytes : List UInt8) : Option UInt64 :=
  if bytes.take 8 = TRAMPOLINE_HEAD then some (ProcMem.u64_from_le_bytes (bytes.drop 8)) else none

def trampoline_destination (m : Memory) (slot : UInt64) : Option UInt64 :=
  (read_memory m slot 16).bind decode_trampoline

/-! ## The thunks of one import -/

def IAT_THUNK_CHUNK : ℕ := 64

/-- The thunks of an import at most. -/
def max_thunks (image_size lookup_rva : UInt32) : ℕ :=
  min ((image_size.toNat - lookup_rva.toNat) / 8) 65536

/-- The address of entry `thunk` of the table at `rva`. -/
def entry_address (image_base : UInt64) (rva : UInt32) (thunk : ℕ) : UInt64 :=
  saturating_add (saturating_add image_base rva.toNat) (thunk * 8)

section Thunks

variable {S : Type*} (m : Memory) (remember_stub : S → UInt64 → Bool × S)

/-- A destination is passed to `remember_stub`, and `found` counts it if it is new. -/
def pass (acc : ℕ × S) (destination : UInt64) : ℕ × S :=
  let (new, s) := remember_stub acc.2 destination
  (if new then acc.1 + 1 else acc.1, s)

/-- What the loops do with the value of an IAT entry. -/
def visit (acc : ℕ × S) (value : UInt64) : ℕ × S :=
  match trampoline_destination m value with
  | some destination => pass remember_stub acc destination
  | none => acc

/-- The inner loop over one chunk, with `n` entries to go; true means `break 'thunks`. -/
def chunk_loop (imports values : List UInt64) : ℕ → ℕ → ℕ × S → Bool × (ℕ × S)
  | 0, _, acc => (false, acc)
  | n + 1, index, acc =>
    -- Only the entries that were read are in the lists.
    match imports[index]?, values[index]? with
    | some lookup, some value =>
      if lookup = 0 ∨ value = 0 then (true, acc)
      else chunk_loop imports values n (index + 1) (visit m remember_stub acc value)
    | _, _ => (true, acc)

variable (image_base : UInt64) (lookup_rva iat_rva : UInt32)

/-- The loop `'thunks`, from entry `thunk` on. -/
def thunk_loop (max_thunks thunk : ℕ) (acc : ℕ × S) : ℕ × S :=
  if thunk < max_thunks then
    let count := min (max_thunks - thunk) IAT_THUNK_CHUNK
    let imports := read_u64s m (entry_address image_base lookup_rva thunk) count
    let values := read_u64s m (entry_address image_base iat_rva thunk) count
    match chunk_loop m remember_stub imports values count 0 acc with
    | (true, acc) => acc
    | (false, acc) => thunk_loop max_thunks (thunk + count) acc
  else acc
termination_by max_thunks - thunk
decreasing_by
  simp only [IAT_THUNK_CHUNK]
  omega

/-- The destinations of the trampolines in the IAT, reading both tables one entry at a time
and stopping at the first entry of either that is unreadable or zero. -/
def thunk_destinations : ℕ → ℕ → List UInt64
  | 0, _ => []
  | n + 1, thunk =>
    match read_u64 m (entry_address image_base lookup_rva thunk),
      read_u64 m (entry_address image_base iat_rva thunk) with
    | some lookup, some value =>
      if lookup = 0 ∨ value = 0 then []
      else (trampoline_destination m value).toList ++ thunk_destinations n (thunk + 1)
    | _, _ => []

end Thunks

/-! ## Chunks are single reads -/

section Chunks

variable {S : Type*} {m : Memory} {remember_stub : S → UInt64 → Bool × S}
  {image_base : UInt64} {lookup_rva iat_rva : UInt32}

theorem visit_eq (acc : ℕ × S) (value : UInt64) :
    visit m remember_stub acc value
      = (trampoline_destination m value).toList.foldl (pass remember_stub) acc := by
  unfold visit
  cases trampoline_destination m value with
  | none => rfl
  | some destination => rfl

/-- Entry `index` of a chunk is entry `thunk + index` of the table, while all before it were
read. -/
theorem chunk_entry {rva : UInt32} {thunk count index : ℕ} (hcount : count ≤ IAT_THUNK_CHUNK)
    (hi : index < count)
    (hle : index ≤ (read_u64s m (entry_address image_base rva thunk) count).length) :
    (read_u64s m (entry_address image_base rva thunk) count)[index]?
      = read_u64 m (entry_address image_base rva (thunk + index)) := by
  have hmin : min count 64 = count := Nat.min_eq_left hcount
  rw [ProcMem.read_u64s_eq, hmin] at hle ⊢
  rw [ProcMem.getElem?_read_singly hi hle, Nat.zero_add, entry_address,
    ProcMem.word_at_saturating, entry_address, Nat.add_mul]

variable (m remember_stub image_base lookup_rva iat_rva) in
/-- A chunk passes on what single reads do, and goes on to the next one if they do. -/
theorem chunk_loop_eq (thunk : ℕ) {count : ℕ} (hcount : count ≤ IAT_THUNK_CHUNK) (rest : ℕ) :
    let imports := read_u64s m (entry_address image_base lookup_rva thunk) count
    let values := read_u64s m (entry_address image_base iat_rva thunk) count
    ∀ n index acc, index + n = count → index ≤ imports.length → index ≤ values.length →
      (thunk_destinations m image_base lookup_rva iat_rva (n + rest) (thunk + index)).foldl
          (pass remember_stub) acc
        = match chunk_loop m remember_stub imports values n index acc with
          | (true, acc) => acc
          | (false, acc) =>
            (thunk_destinations m image_base lookup_rva iat_rva rest (thunk + count)).foldl
              (pass remember_stub) acc := by
  intro imports values n
  induction n with
  | zero =>
    intro index acc hsum _ _
    rw [chunk_loop, Nat.zero_add, ← hsum, Nat.add_zero]
  | succ n ih =>
    intro index acc hsum himports hvalues
    have hlookup : imports[index]? = _ := chunk_entry hcount (by omega) himports
    have hvalue : values[index]? = _ := chunk_entry hcount (by omega) hvalues
    rw [chunk_loop, hlookup, hvalue, Nat.add_right_comm, thunk_destinations]
    cases hl : read_u64 m (entry_address image_base lookup_rva (thunk + index)) with
    | none => rfl
    | some lookup =>
      cases hv : read_u64 m (entry_address image_base iat_rva (thunk + index)) with
      | none => rfl
      | some value =>
        dsimp only
        by_cases hzero : lookup = 0 ∨ value = 0
        · rw [if_pos hzero, if_pos hzero]
          rfl
        · rw [if_neg hzero, if_neg hzero, List.foldl_append, ← visit_eq, Nat.add_assoc]
          refine ih (index + 1) _ (by omega) ?_ ?_
          · rw [hl] at hlookup
            obtain ⟨hlt, -⟩ := List.getElem?_eq_some_iff.mp hlookup
            exact hlt
          · rw [hv] at hvalue
            obtain ⟨hlt, -⟩ := List.getElem?_eq_some_iff.mp hvalue
            exact hlt

/-- **The thunk loop is single reads.** -/
theorem thunk_loop_eq (max_thunks thunk : ℕ) (acc : ℕ × S) :
    thunk_loop m remember_stub image_base lookup_rva iat_rva max_thunks thunk acc
      = (thunk_destinations m image_base lookup_rva iat_rva (max_thunks - thunk) thunk).foldl
        (pass remember_stub) acc := by
  induction hleft : max_thunks - thunk using Nat.strong_induction_on generalizing thunk acc with
  | _ left ih =>
    rw [thunk_loop]
    split
    · rename_i hlt
      dsimp only
      generalize hcount : min (max_thunks - thunk) IAT_THUNK_CHUNK = count
      have hpos : 0 < count := by
        simp only [IAT_THUNK_CHUNK] at hcount
        omega
      have hchunk : count ≤ IAT_THUNK_CHUNK := by omega
      -- The entries that are left are this chunk and the ones behind it.
      have hsplit : left = count + (left - count) := by omega
      have hstep := chunk_loop_eq m remember_stub image_base lookup_rva iat_rva thunk hchunk
        (left - count) count 0 acc (Nat.zero_add _) (Nat.zero_le _) (Nat.zero_le _)
      rw [Nat.add_zero, ← hsplit] at hstep
      rw [hstep]
      split
      · rfl
      · rename_i acc' _
        exact ih (left - count) (by omega) (thunk + count) acc' (by omega)
    · have hzero : left = 0 := by omega
      rw [hzero]
      rfl

/-- `remember_stub` with a record of what it was passed. -/
def logged (remember_stub : S → UInt64 → Bool × S) (s : List UInt64 × S) (destination : UInt64) :
    Bool × (List UInt64 × S) :=
  let (new, stubs) := remember_stub s.2 destination
  (new, (s.1 ++ [destination], stubs))

theorem foldl_logged (destinations log : List UInt64) (acc : ℕ × S) :
    destinations.foldl (pass (logged remember_stub)) (acc.1, (log, acc.2))
      = ((destinations.foldl (pass remember_stub) acc).1,
        (log ++ destinations, (destinations.foldl (pass remember_stub) acc).2)) := by
  induction destinations generalizing log acc with
  | nil => rw [List.append_nil]; rfl
  | cons destination destinations ih =>
    rw [List.foldl_cons, List.foldl_cons, List.append_cons]
    exact ih (log ++ [destination]) (pass remember_stub acc destination)

/-- **Chunks change nothing.** In any memory, the chunked loop passes to `remember_stub`, in
order, the destinations that reading both tables one entry at a time gives, and it counts what
calls with these destinations count. -/
theorem chunked_thunks_are_single_reads (m : Memory) (remember_stub : S → UInt64 → Bool × S)
    (image_base : UInt64) (image_size lookup_rva iat_rva : UInt32) (s : S) :
    let max_thunks := max_thunks image_size lookup_rva
    let destinations := thunk_destinations m image_base lookup_rva iat_rva max_thunks 0
    let one_by_one := destinations.foldl (pass remember_stub) (0, s)
    thunk_loop m remember_stub image_base lookup_rva iat_rva max_thunks 0 (0, s) = one_by_one
      ∧ thunk_loop m (logged remember_stub) image_base lookup_rva iat_rva max_thunks 0 (0, ([], s))
        = (one_by_one.1, (destinations, one_by_one.2)) := by
  intro max_thunks destinations one_by_one
  rw [thunk_loop_eq, thunk_loop_eq, Nat.sub_zero]
  exact ⟨rfl, foldl_logged destinations [] (0, s)⟩

end Chunks

/-! ## The main image -/

def TEB_PEB_OFFSET : ℕ := 0x60

def PEB_IMAGE_BASE_OFFSET : ℕ := 0x10

/-- What a scan sees of its process: the GS base, if `arch_prctl` gives it, and the memory. -/
structure Process where
  gs_base : Option UInt64
  memory : Memory

/-- The headers of the main image: its base and size, and where its import descriptors are. -/
def main_image (p : Process) : Option (UInt64 × UInt32 × UInt32) := do
  let gs_base ← p.gs_base
  guard (gs_base ≠ 0)
  let peb ← read_u64 p.memory (saturating_add gs_base TEB_PEB_OFFSET)
  let image_base ← read_u64 p.memory (saturating_add peb PEB_IMAGE_BASE_OFFSET)
  guard (image_base ≠ 0)
  let mz ← read_u32 p.memory image_base
  guard (mz.toUInt16 = 0x5a4d)
  let pe_offset ← read_u32 p.memory (saturating_add image_base 0x3c)
  guard (pe_offset ≤ 0x1000)
  let pe_signature ← read_u32 p.memory (saturating_add image_base pe_offset.toNat)
  -- `PE` and two zeros.
  guard (pe_signature = 0x4550)
  let optional := saturating_add (saturating_add image_base pe_offset.toNat) 24
  let magic ← read_u32 p.memory optional
  guard (magic.toUInt16 = 0x20b)
  let image_size ← read_u32 p.memory (saturating_add optional 56)
  let import_rva ← read_u32 p.memory (saturating_add optional 120)
  guard (image_size ≠ 0 ∧ import_rva ≠ 0 ∧ import_rva < image_size)
  return (image_base, image_size, import_rva)

/-- What a descriptor says of its import: where the IAT and the lookup table are. -/
inductive Descriptor where
  | missing
  | skipped
  | tables (lookup_rva iat_rva : UInt32)

/-- The descriptor at an address; the last of the table has no name. -/
def descriptor_at (m : Memory) (image_size : UInt32) (descriptor : UInt64) : Descriptor :=
  match read_u32 m (saturating_add descriptor 12) with
  | none => .missing
  | some name_rva =>
    if name_rva = 0 then .missing
    else
      match read_u32 m (saturating_add descriptor 16), read_u32 m descriptor with
      | some iat_rva, some original_thunk_rva =>
        let lookup_rva := if original_thunk_rva = 0 then iat_rva else original_thunk_rva
        if iat_rva = 0 ∨ iat_rva ≥ image_size then .skipped
        else if lookup_rva ≥ image_size then .skipped
        else .tables lookup_rva iat_rva
      | _, _ => .missing

section Descriptors

variable {S : Type*} (m : Memory) (remember_stub : S → UInt64 → Bool × S)
  (image_base : UInt64) (image_size import_rva : UInt32)

def descriptor_address (index : ℕ) : UInt64 :=
  saturating_add (saturating_add image_base import_rva.toNat) (index * 20)

/-- The loop over the import descriptors, with `n` to go. -/
def descriptor_loop : ℕ → ℕ → ℕ × S → ℕ × S
  | 0, _, acc => acc
  | n + 1, index, acc =>
    match descriptor_at m image_size (descriptor_address image_base import_rva index) with
    | .missing => acc
    | .skipped => descriptor_loop n (index + 1) acc
    | .tables lookup_rva iat_rva =>
      descriptor_loop n (index + 1)
        (thunk_loop m remember_stub image_base lookup_rva iat_rva
          (max_thunks image_size lookup_rva) 0 acc)

/-- The trampolines of the imports from descriptor `index` on. -/
def descriptor_destinations : ℕ → ℕ → List UInt64
  | 0, _ => []
  | n + 1, index =>
    match descriptor_at m image_size (descriptor_address image_base import_rva index) with
    | .missing => []
    | .skipped => descriptor_destinations n (index + 1)
    | .tables lookup_rva iat_rva =>
      thunk_destinations m image_base lookup_rva iat_rva (max_thunks image_size lookup_rva) 0
        ++ descriptor_destinations n (index + 1)

variable {m remember_stub image_base image_size import_rva} in
theorem descriptor_loop_eq (n index : ℕ) (acc : ℕ × S) :
    descriptor_loop m remember_stub image_base image_size import_rva n index acc
      = (descriptor_destinations m image_base image_size import_rva n index).foldl
        (pass remember_stub) acc := by
  induction n generalizing index acc with
  | zero => rfl
  | succ n ih =>
    unfold descriptor_loop descriptor_destinations
    cases descriptor_at m image_size (descriptor_address image_base import_rva index) with
    | missing => rfl
    | skipped => exact ih (index + 1) acc
    | tables lookup_rva iat_rva =>
      dsimp only
      rw [ih, thunk_loop_eq, Nat.sub_zero, List.foldl_append]

end Descriptors

def max_descriptors (image_size import_rva : UInt32) : ℕ :=
  min ((image_size.toNat - import_rva.toNat) / 20) 4096

/-- `scan_main_image_iat_locked`: the number found, and the stub set. -/
def scan_main_image_iat_locked {S : Type*} (p : Process)
    (remember_stub : S → UInt64 → Bool × S) (s : S) : ℕ × S :=
  match main_image p with
  | none => (0, s)
  | some (image_base, image_size, import_rva) =>
    descriptor_loop p.memory remember_stub image_base image_size import_rva
      (max_descriptors image_size import_rva) 0 (0, s)

/-- The trampoline destinations in the IAT of the main image. -/
def iat_destinations (p : Process) : List UInt64 :=
  match main_image p with
  | none => []
  | some (image_base, image_size, import_rva) =>
    descriptor_destinations p.memory image_base image_size import_rva
      (max_descriptors image_size import_rva) 0

theorem scan_locked_eq {S : Type*} (p : Process) (remember_stub : S → UInt64 → Bool × S) (s : S) :
    scan_main_image_iat_locked p remember_stub s
      = (iat_destinations p).foldl (pass remember_stub) (0, s) := by
  unfold scan_main_image_iat_locked iat_destinations
  cases main_image p with
  | none => rfl
  | some image => exact descriptor_loop_eq _ _ _

end Linuwux.IatScan
