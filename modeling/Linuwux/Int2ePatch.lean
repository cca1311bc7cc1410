/-
`Int2ePatch.lean` -- `patch_to_syscall` of `runtime/src/syscall/int2e.rs`.

The bytes of a page are changed between two calls of `mprotect`, and the protection to go back to
is not what the page had but what `executable_mapping_protection` makes of a line of
`/proc/self/maps`: read and execute. So a page that was writable too comes back without that, and
a second `mprotect` that fails leaves the bytes changed though the call returns false.
[`careful_iff`] says that these are the two ways in which the call is not careful.
-/
import Linuwux.Int2e
import Linuwux.Maps

set_option autoImplicit false

namespace Linuwux.Int2e

open ProcMem (Memory checked_add saturating_add read_memory)

/-! ## The process -/

structure Protection where
  read : Bool
  write : Bool
  exec : Bool
  deriving DecidableEq, Repr

/-- `address & !(page_size - 1)`. -/
def page_of (address : UInt64) : UInt64 := address &&& ~~~(PAGE_SIZE - 1)

/-- The bytes of the process and the protections of its pages; none is a page that is not
mapped. -/
structure Process where
  bytes : UInt64 → UInt8
  protection : UInt64 → Option Protection

/-- What `process_vm_readv` can read. -/
def Process.memory (p : Process) : Memory := fun address =>
  if (p.protection (page_of address)).any Protection.read then some (p.bytes address) else none

/-- What the kernel and `PageGuard::acquire` answer during a call. -/
structure Answers where
  /-- `/proc/self/maps`. -/
  maps : Option (List UInt8)
  guard : Bool
  /-- The first `mprotect`. -/
  unprotects : Bool
  /-- The second one. -/
  restores : Bool

/-- `mprotect` of one page, if it succeeds. -/
def Process.mprotect (p : Process) (page : UInt64) (protection : Protection) : Process :=
  { p with protection := Function.update p.protection page (some protection) }

/-- `lock cmpxchg` of a two-byte word; the word that was there. -/
def Process.cmpxchg (p : Process) (address : UInt64) (expected replacement : List UInt8) :
    List UInt8 × Process :=
  let observed := [p.bytes address, p.bytes (address + 1)]
  if observed = expected then
    (observed, { p with
      bytes := Function.update (Function.update p.bytes address (replacement.getD 0 0))
        (address + 1) (replacement.getD 1 0) })
  else (observed, p)

/-! ## The call -/

def executable_mapping_protection (maps : Option (List UInt8)) (page : UInt64) (page_size : ℕ) :
    Option Protection :=
  match checked_add page page_size with
  | none => none
  | some stop =>
    if Maps.find_line maps fun line =>
      match Maps.parse line with
      | none => false
      | some mapping => mapping.start ≤ page ∧ mapping.stop ≥ stop
          ∧ mapping.permissions.length = 4 ∧ mapping.permissions[0]? = some 0x72
          ∧ mapping.permissions[2]? = some 0x78
    then some ⟨true, false, true⟩ else none

/-- The checks before the first `mprotect`, up to the guard; the protection to restore. -/
def may_patch (k : Answers) (p : Process) (address : UInt64) : Option Protection :=
  if read_memory p.memory address 2 ≠ some INT2E_INSTRUCTION then none
  else
    match checked_add address 1 with
    | none => none
    | some second_byte =>
      if second_byte ≥ saturating_add (page_of address) PAGE_SIZE.toNat then none
      else
        match executable_mapping_protection k.maps (page_of address) PAGE_SIZE.toNat with
        | none => none
        | some original_protection => if k.guard then some original_protection else none

def patch_to_syscall (k : Answers) (p : Process) (address : UInt64) : Bool × Process :=
  match may_patch k p address with
  | none => (false, p)
  | some original_protection =>
    if !k.unprotects then (false, p)
    else
      let p := p.mprotect (page_of address) ⟨true, true, true⟩
      let (observed, p) := p.cmpxchg address INT2E_INSTRUCTION SYSCALL_INSTRUCTION
      let patched := observed = INT2E_INSTRUCTION
      let p := if k.restores then p.mprotect (page_of address) original_protection else p
      if ¬ k.restores ∨ ¬ patched then (false, p)
      else (read_memory p.memory address 2 = some SYSCALL_INSTRUCTION, p)

/-! ## Pages -/

theorem page_of_toNat (address : UInt64) :
    (page_of address).toNat = address.toNat / 4096 * 4096 :=
  ProcMem.and_high_mask_toNat (k := 12) (by decide) (by decide) address

/-- The check of the second byte keeps the instruction in one page. -/
theorem page_of_second {address second_byte : UInt64}
    (hadd : checked_add address 1 = some second_byte)
    (hlt : ¬ second_byte ≥ saturating_add (page_of address) PAGE_SIZE.toNat) :
    page_of (address + 1) = page_of address ∧ address.toNat + 2 < 2 ^ 64 := by
  have hsecond := ProcMem.checked_add_eq_some.mp hadd
  have hsat := ProcMem.saturating_add_toNat (page_of address) PAGE_SIZE.toNat
  have hpage := page_of_toNat address
  have hsize : PAGE_SIZE.toNat = 4096 := by decide
  have hbound := second_byte.toNat_lt
  have hnext : (address + 1).toNat = address.toNat + 1 := by
    rw [UInt64.toNat_add]
    change (address.toNat + 1) % 2 ^ 64 = _
    omega
  rw [ge_iff_le, UInt64.le_iff_toNat_le, hsat, hpage, hsize, hsecond] at hlt
  rw [← UInt64.toNat_inj, page_of_toNat, hpage, hnext]
  constructor
  · omega
  · omega

/-! ## What a call does -/

/-- The process with the two bytes of a `syscall` at the address. -/
def Process.patched (p : Process) (address : UInt64) : Process :=
  { p with bytes := Function.update (Function.update p.bytes address 0x0f) (address + 1) 0x05 }

section Call

variable {k : Answers} {p : Process} {address : UInt64}

theorem executable_mapping_protection_eq {maps : Option (List UInt8)} {page : UInt64}
    {page_size : ℕ} {protection : Protection}
    (h : executable_mapping_protection maps page page_size = some protection) :
    protection = ⟨true, false, true⟩ := by
  unfold executable_mapping_protection at h
  cases hadd : checked_add page page_size with
  | none =>
    rw [hadd] at h
    cases h
  | some stop =>
    rw [hadd] at h
    dsimp only at h
    rw [Option.ite_none_right_eq_some] at h
    exact (Option.some.inj h.2).symm

/-- What the checks have found where they all pass. -/
theorem may_patch_eq_some {protection : Protection} (h : may_patch k p address = some protection) :
    protection = ⟨true, false, true⟩ ∧ read_memory p.memory address 2 = some INT2E_INSTRUCTION
      ∧ page_of (address + 1) = page_of address ∧ address.toNat + 2 < 2 ^ 64 := by
  unfold may_patch at h
  by_cases hread : read_memory p.memory address 2 = some INT2E_INSTRUCTION
  · rw [if_neg (not_not.mpr hread)] at h
    cases hadd : checked_add address 1 with
    | none =>
      rw [hadd] at h
      cases h
    | some second_byte =>
      rw [hadd] at h
      dsimp only at h
      rw [Option.ite_none_left_eq_some] at h
      obtain ⟨hlt, h⟩ := h
      cases hmapping : executable_mapping_protection k.maps (page_of address) PAGE_SIZE.toNat with
      | none =>
        rw [hmapping] at h
        cases h
      | some original =>
        rw [hmapping] at h
        dsimp only at h
        rw [Option.ite_none_right_eq_some] at h
        cases h.2
        exact ⟨executable_mapping_protection_eq hmapping, hread, page_of_second hadd hlt⟩
  · rw [if_pos hread] at h
    cases h

theorem Process.memory_eq_some {a : UInt64} {b : UInt8} :
    p.memory a = some b ↔ (p.protection (page_of a)).any Protection.read ∧ p.bytes a = b := by
  unfold Process.memory
  rw [Option.ite_none_right_eq_some, Option.some_inj]

/-- A call that is stopped before the first `mprotect` has succeeded changes nothing. -/
theorem patch_stopped (h : may_patch k p address = none ∨ k.unprotects = false) :
    patch_to_syscall k p address = (false, p) := by
  unfold patch_to_syscall
  cases hmay : may_patch k p address with
  | none => rfl
  | some original =>
    rcases h with h | h
    · rw [hmay] at h
      cases h
    · rw [h]
      rfl

/-- The compare-exchange is won: the bytes are those that were read. -/
theorem cmpxchg_int2e (hread : read_memory p.memory address 2 = some INT2E_INSTRUCTION)
    (protection : Protection) :
    (p.mprotect (page_of address) protection).cmpxchg address INT2E_INSTRUCTION SYSCALL_INSTRUCTION
      = (INT2E_INSTRUCTION, (p.patched address).mprotect (page_of address) protection) := by
  obtain ⟨-, -, h0, h1⟩ := read_memory_two.mp hread
  have hobserved : [p.bytes address, p.bytes (address + 1)] = INT2E_INSTRUCTION := by
    rw [(Process.memory_eq_some.mp h0).2, (Process.memory_eq_some.mp h1).2]
    rfl
  unfold Process.cmpxchg Process.mprotect
  dsimp only
  rw [if_pos hobserved, hobserved]
  rfl

theorem ne_next (hread : read_memory p.memory address 2 = some INT2E_INSTRUCTION) :
    address ≠ address + 1 := by
  obtain ⟨-, hlt, -, -⟩ := read_memory_two.mp hread
  intro heq
  have hnat := congrArg UInt64.toNat heq
  rw [UInt64.toNat_add] at hnat
  change address.toNat = (address.toNat + 1) % 2 ^ 64 at hnat
  omega

/-- A patched instruction in a page that can be read. -/
theorem read_patched (hread : read_memory p.memory address 2 = some INT2E_INSTRUCTION)
    (hpage : page_of (address + 1) = page_of address) :
    read_memory ((p.patched address).mprotect (page_of address) ⟨true, false, true⟩).memory
      address 2 = some SYSCALL_INSTRUCTION := by
  obtain ⟨hne, hlt, -, -⟩ := read_memory_two.mp hread
  refine read_memory_two.mpr ⟨hne, hlt, Process.memory_eq_some.mpr ⟨?_, ?_⟩,
    Process.memory_eq_some.mpr ⟨?_, ?_⟩⟩
  · change (Function.update p.protection (page_of address) _ (page_of address)).any _ = true
    rw [Function.update_self]
    rfl
  · exact (Function.update_of_ne (ne_next hread) ..).trans (Function.update_self ..)
  · change (Function.update p.protection (page_of address) _ (page_of (address + 1))).any _ = true
    rw [hpage, Function.update_self]
    rfl
  · exact Function.update_self ..

/-- A call whose first `mprotect` succeeds patches the bytes; it returns true and makes the page
read and execute if the second one succeeds, and else leaves it writable and returns false. -/
theorem patch_reached {protection : Protection} (h : may_patch k p address = some protection)
    (hunprotects : k.unprotects = true) :
    patch_to_syscall k p address = if k.restores
      then (true, (p.patched address).mprotect (page_of address) ⟨true, false, true⟩)
      else (false, (p.patched address).mprotect (page_of address) ⟨true, true, true⟩) := by
  obtain ⟨rfl, hread, hpage, -⟩ := may_patch_eq_some h
  have hmprotect : ((p.patched address).mprotect (page_of address) ⟨true, true, true⟩).mprotect
      (page_of address) ⟨true, false, true⟩
      = (p.patched address).mprotect (page_of address) ⟨true, false, true⟩ := by
    unfold Process.mprotect
    rw [Function.update_idem]
  unfold patch_to_syscall
  rw [h]
  dsimp only
  rw [hunprotects, cmpxchg_int2e hread]
  cases k.restores with
  | false => rfl
  | true =>
    simp only [Bool.not_true, Bool.false_eq_true, if_false, if_true, not_true_eq_false,
      or_self, hmprotect, read_patched hread hpage, decide_true]

/-- Either a call changes nothing and returns false, or the first `mprotect` has succeeded. -/
theorem patch_cases (k : Answers) (p : Process) (address : UInt64) :
    patch_to_syscall k p address = (false, p)
    ∨ ∃ protection, may_patch k p address = some protection ∧ k.unprotects = true := by
  cases hmay : may_patch k p address with
  | none => exact Or.inl (patch_stopped (Or.inl hmay))
  | some protection =>
    cases hunprotects : k.unprotects with
    | false => exact Or.inl (patch_stopped (Or.inr hunprotects))
    | true => exact Or.inr ⟨protection, rfl, rfl⟩

/-- A call that returns true has patched the bytes. -/
theorem patch_true (h : (patch_to_syscall k p address).1 = true) :
    (patch_to_syscall k p address).2.bytes address = 0x0f
      ∧ (patch_to_syscall k p address).2.bytes (address + 1) = 0x05 := by
  rcases patch_cases k p address with hcall | ⟨_, hmay, hunprotects⟩
  · rw [hcall] at h
    cases h
  · obtain ⟨-, hread, -, -⟩ := may_patch_eq_some hmay
    have hcall := patch_reached hmay hunprotects
    cases hrestores : k.restores with
    | false =>
      rw [hrestores, if_neg Bool.false_ne_true] at hcall
      rw [hcall] at h
      cases h
    | true =>
      rw [hrestores, if_pos rfl] at hcall
      rw [hcall]
      exact ⟨(Function.update_of_ne (ne_next hread) ..).trans (Function.update_self ..),
        Function.update_self ..⟩

/-- A call for the last instruction of the address space changes nothing. -/
theorem patch_at_end (h : next_instruction address = none) :
    patch_to_syscall k p address = (false, p) := by
  rcases patch_cases k p address with hcall | ⟨_, hmay, -⟩
  · exact hcall
  · obtain ⟨-, -, -, hlt⟩ := may_patch_eq_some hmay
    have hlen : INT2E_INSTRUCTION.length = 2 := rfl
    unfold next_instruction checked_add at h
    rw [hlen, if_pos hlt] at h
    cases h

/-! ## Careful calls -/

variable (k p address)

/-- What is asked of a call: the protection of the page is as it was if `mprotect` succeeds, no
other byte changes, and a call that returns false has not changed the two. -/
structure Careful : Prop where
  protection : k.unprotects = true → k.restores = true →
    (patch_to_syscall k p address).2.protection (page_of address) = p.protection (page_of address)
  other_bytes : ∀ a, a ≠ address → a ≠ address + 1 →
    (patch_to_syscall k p address).2.bytes a = p.bytes a
  failure : (patch_to_syscall k p address).1 = false →
    (patch_to_syscall k p address).2.bytes address = p.bytes address
      ∧ (patch_to_syscall k p address).2.bytes (address + 1) = p.bytes (address + 1)

theorem careful_of_unchanged (h : patch_to_syscall k p address = (false, p)) :
    Careful k p address := by
  refine ⟨fun _ _ => ?_, fun a _ _ => ?_, fun _ => ?_⟩
  · rw [h]
  · rw [h]
  · rw [h]
    exact ⟨rfl, rfl⟩

/-- **When a call is careful.** Whatever the bytes, mappings and protections are: if it gets so
far as to make the page writable, the page has to have been read and execute before, and the
`mprotect` that makes it so again has to succeed. -/
theorem careful_iff : Careful k p address ↔
    ∀ protection, may_patch k p address = some protection → k.unprotects = true →
      k.restores = true ∧ p.protection (page_of address) = some ⟨true, false, true⟩ := by
  constructor
  · intro h protection hmay hunprotects
    have hcall := patch_reached hmay hunprotects
    obtain ⟨-, hread, -⟩ := may_patch_eq_some hmay
    cases hrestores : k.restores with
    | true =>
      rw [hrestores, if_pos rfl] at hcall
      have hsame := h.protection hunprotects hrestores
      rw [hcall] at hsame
      exact ⟨rfl, hsame.symm.trans (Function.update_self ..)⟩
    | false =>
      -- The second byte is 05 now.
      rw [hrestores, if_neg Bool.false_ne_true] at hcall
      have hfailure := (h.failure (by rw [hcall])).2
      obtain ⟨-, -, -, h1⟩ := read_memory_two.mp hread
      rw [hcall, (Process.memory_eq_some.mp h1).2] at hfailure
      have hpatched : (p.patched address).bytes (address + 1) = 0x05 := Function.update_self ..
      exact absurd (hpatched.symm.trans hfailure) (by decide)
  · intro h
    rcases patch_cases k p address
      with hcall | ⟨protection, hmay, hunprotects⟩
    · exact careful_of_unchanged k p address hcall
    · obtain ⟨hrestores, hprotection⟩ := h protection hmay hunprotects
      have hcall := patch_reached hmay hunprotects
      rw [hrestores, if_pos rfl] at hcall
      refine ⟨fun _ _ => ?_, fun a ha ha' => ?_, fun hfalse => ?_⟩
      · rw [hcall, hprotection]
        exact Function.update_self ..
      · rw [hcall]
        exact (Function.update_of_ne ha' ..).trans (Function.update_of_ne ha ..)
      · rw [hcall] at hfalse
        cases hfalse

end Call

/-- A page with an `int 2e` at its start. -/
def int2e_page (protection : Protection) : Process where
  bytes := fun address => if address = 0x400000 then 0xcd else 0x2e
  protection := fun page => if page = 0x400000 then some protection else none

/-- A page that is writable too loses that; and where the second `mprotect` fails, the call
returns false with the bytes changed. -/
theorem careless_calls :
    ¬ Careful ⟨some (LibC.b_str "400000-401000 rwxp 00000000 00:00 0 \n"), true, true, true⟩
        (int2e_page ⟨true, true, true⟩) 0x400000
      ∧ ¬ Careful ⟨some (LibC.b_str "400000-401000 r-xp 00000000 00:00 0 \n"), true, true, false⟩
        (int2e_page ⟨true, false, true⟩) 0x400000 := by
  constructor
  · intro h
    exact absurd (h.protection rfl rfl) (by decide +kernel)
  · intro h
    exact absurd (h.failure (by decide +kernel)) (by decide +kernel)

end Linuwux.Int2e
