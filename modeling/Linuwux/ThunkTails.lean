/-
`ThunkTails.lean` -- the thunk rewriting of `runtime/src/syscall/pe_stub_layout.rs`.

`rewrite_syscall_thunk_tails` goes over the bytes of a PE file once and replaces the last 11
bytes of each syscall thunk it finds; `count_pending_thunk_tails` makes the same scan without
writing, and `rewrite_pe_view` decides on its count whether a mapped view is replaced at all.
The first scan changes the buffer it reads, so that the two agree is not a matter of course.

What carries both is the selection of `Scans.lean`: a thunk is 0x20 bytes wide, its signature
the first 0x15 of them, and what is written lies behind the signature of a selected thunk and
before anything the scan still looks at.
-/
import Linuwux.Scans

set_option autoImplicit false

namespace Linuwux.ThunkTails

open Scans (slice overwrite Selected)

/-! ## The thunk -/

def THUNK_LEN : ℕ := 0x20

def SERVICE_OFFSET : ℕ := 4

def BRANCH_OFFSET : ℕ := 8

def TAIL_OFFSET : ℕ := 0x15

/-- `mov r10, rcx; mov eax, imm32`. -/
def THUNK_HEAD : List UInt8 := [0x4c, 0x8b, 0xd1, 0xb8]

/-- `test byte [0x7ffe0308], 1; jne +3; syscall; ret`. -/
def THUNK_BRANCH : List UInt8 :=
  [0xf6, 0x04, 0x25, 0x08, 0x03, 0xfe, 0x7f, 0x01, 0x75, 0x03, 0x0f, 0x05, 0xc3]

/-- `int 2e; ret; nop dword [rax + rax]`. -/
def WINDOWS_TAIL : List UInt8 :=
  [0xcd, 0x2e, 0xc3, 0x0f, 0x1f, 0x84, 0x00, 0x00, 0x00, 0x00, 0x00]

def is_syscall_thunk_head (bytes : List UInt8) : Bool :=
  bytes.length ≥ THUNK_LEN && bytes.take SERVICE_OFFSET == THUNK_HEAD
    && slice bytes BRANCH_OFFSET TAIL_OFFSET == THUNK_BRANCH

/-! ## The two scans -/

theorem length_overwrite_tail {buffer : List UInt8} {offset : ℕ}
    (h : offset + THUNK_LEN ≤ buffer.length) :
    (overwrite buffer (offset + TAIL_OFFSET) WINDOWS_TAIL).length = buffer.length :=
  Scans.length_overwrite (by
    change offset + 0x15 + 11 ≤ _
    change offset + 0x20 ≤ _ at h
    omega)

/-- The loop of `rewrite_syscall_thunk_tails`: the buffer as it is left, and `rewritten`. -/
def rewrite_loop (buffer : List UInt8) (offset rewritten : ℕ) : List UInt8 × ℕ :=
  if h : offset + THUNK_LEN ≤ buffer.length then
    if is_syscall_thunk_head (buffer.drop offset) then
      if slice buffer (offset + TAIL_OFFSET) (offset + THUNK_LEN) ≠ WINDOWS_TAIL then
        rewrite_loop (overwrite buffer (offset + TAIL_OFFSET) WINDOWS_TAIL) (offset + THUNK_LEN)
          (rewritten + 1)
      else rewrite_loop buffer (offset + THUNK_LEN) rewritten
    else rewrite_loop buffer (offset + 1) rewritten
  else (buffer, rewritten)
termination_by buffer.length - offset
decreasing_by
  · rw [length_overwrite_tail h]
    simp only [THUNK_LEN] at h ⊢
    omega
  · simp only [THUNK_LEN] at h ⊢
    omega
  · simp only [THUNK_LEN] at h
    omega

def rewrite_syscall_thunk_tails (buffer : List UInt8) : List UInt8 × ℕ := rewrite_loop buffer 0 0

/-- The loop of `count_pending_thunk_tails`. -/
def count_loop (buffer : List UInt8) (offset pending : ℕ) : ℕ :=
  if offset + THUNK_LEN ≤ buffer.length then
    if is_syscall_thunk_head (buffer.drop offset) then
      count_loop buffer (offset + THUNK_LEN)
        (if slice buffer (offset + TAIL_OFFSET) (offset + THUNK_LEN) ≠ WINDOWS_TAIL
          then pending + 1 else pending)
    else count_loop buffer (offset + 1) pending
  else pending
termination_by buffer.length - offset
decreasing_by
  all_goals simp only [THUNK_LEN] at *; omega

def count_pending_thunk_tails (buffer : List UInt8) : ℕ := count_loop buffer 0 0

/-! ## Whole-file views -/

def looks_like_pe_file (buffer : List UInt8) : Bool :=
  if buffer.length < 0x40 ∨ buffer.take 2 ≠ [0x4d, 0x5a] then false
  else
    let pe_offset := Scans.from_le_bytes (slice buffer 0x3c 0x40)
    Scans.slice? buffer pe_offset (pe_offset + 4) == some [0x50, 0x45, 0, 0]

/-- `rewrite_pe_view`: the bytes the view shows when it returns, and the count. `copy` is what
the private mapping of the file shows; there is none where `mmap` does not give it. -/
def rewrite_pe_view (view : List UInt8) (scan_length : ℕ) (copy : Option (List UInt8)) :
    List UInt8 × ℕ :=
  let bytes := view.take scan_length
  if !looks_like_pe_file bytes || count_pending_thunk_tails bytes == 0 then (view, 0)
  else
    match copy with
    | none => (view, 0)
    | some view =>
      let (bytes, rewritten) := rewrite_syscall_thunk_tails (view.take scan_length)
      (bytes ++ view.drop scan_length, rewritten)

/-! ## What the scans see -/

/-- A complete thunk signature at `o`, with room for the tail. -/
def ThunkAt (b : List UInt8) (o : ℕ) : Prop :=
  o + THUNK_LEN ≤ b.length ∧ slice b o (o + SERVICE_OFFSET) = THUNK_HEAD
    ∧ slice b (o + BRANCH_OFFSET) (o + TAIL_OFFSET) = THUNK_BRANCH

/-- The tail of the thunk at `o`. -/
def tail (b : List UInt8) (o : ℕ) : List UInt8 := slice b (o + TAIL_OFFSET) (o + THUNK_LEN)

/-- The thunk at `o` is selected by the scan from `k` on. -/
abbrev Thunk (b : List UInt8) (k o : ℕ) : Prop := Selected (ThunkAt b) THUNK_LEN k o

/-- Byte `i` is in the tail of a selected thunk. -/
def InTail (b : List UInt8) (k i : ℕ) : Prop :=
  ∃ o, Thunk b k o ∧ o + TAIL_OFFSET ≤ i ∧ i < o + THUNK_LEN

theorem is_syscall_thunk_head_iff (b : List UInt8) {o : ℕ} (h : o + THUNK_LEN ≤ b.length) :
    is_syscall_thunk_head (b.drop o) = true ↔ ThunkAt b o := by
  have htake : (b.drop o).take SERVICE_OFFSET = slice b o (o + SERVICE_OFFSET) :=
    (Scans.slice_drop b o 0 SERVICE_OFFSET).trans (by rw [Nat.add_zero])
  have hlen : (b.drop o).length ≥ THUNK_LEN := by
    rw [List.length_drop]
    omega
  unfold is_syscall_thunk_head ThunkAt
  rw [htake, Scans.slice_drop]
  simp only [hlen, decide_true, Bool.true_and, Bool.and_eq_true, beq_iff_eq, h, true_and]

theorem ThunkAt.lt {b : List UInt8} {o : ℕ} (h : ThunkAt b o) : o < b.length := by
  have hlen := h.1
  simp only [THUNK_LEN] at hlen
  omega

/-- The signature is all that counts. -/
theorem thunkAt_congr {b b' : List UInt8} {o : ℕ} (hlen : b.length = b'.length)
    (h : ∀ i, o ≤ i → i < o + TAIL_OFFSET → b[i]? = b'[i]?) : ThunkAt b o ↔ ThunkAt b' o := by
  have hhead : slice b o (o + SERVICE_OFFSET) = slice b' o (o + SERVICE_OFFSET) := by
    refine Scans.slice_congr fun i hi hj => h i hi ?_
    simp only [SERVICE_OFFSET, TAIL_OFFSET] at hj ⊢
    omega
  have hbranch : slice b (o + BRANCH_OFFSET) (o + TAIL_OFFSET)
      = slice b' (o + BRANCH_OFFSET) (o + TAIL_OFFSET) :=
    Scans.slice_congr fun i hi hj => h i (by omega) hj
  unfold ThunkAt
  rw [hlen, hhead, hbranch]

section Overwrite

variable {b : List UInt8} {k : ℕ} (h : k + THUNK_LEN ≤ b.length)
include h

theorem tail_fits : k + TAIL_OFFSET + WINDOWS_TAIL.length ≤ b.length := h

/-- Outside the tail the bytes stay. -/
theorem getElem?_overwrite_tail {i : ℕ} (hi : ¬(k + TAIL_OFFSET ≤ i ∧ i < k + THUNK_LEN)) :
    (overwrite b (k + TAIL_OFFSET) WINDOWS_TAIL)[i]? = b[i]? := by
  by_cases hlt : i < k + TAIL_OFFSET
  · exact Scans.getElem?_overwrite_of_lt (tail_fits h) hlt
  · refine Scans.getElem?_overwrite_of_le (tail_fits h) ?_
    change k + 0x20 ≤ i
    simp only [TAIL_OFFSET, THUNK_LEN] at hi hlt
    omega

/-- Behind the thunk the scan sees the same thunks. -/
theorem thunk_overwrite (o : ℕ) :
    Thunk (overwrite b (k + TAIL_OFFSET) WINDOWS_TAIL) (k + THUNK_LEN) o
      ↔ Thunk b (k + THUNK_LEN) o := by
  refine Scans.selected_congr (fun o ho _ => ?_) o
  refine thunkAt_congr (length_overwrite_tail h) fun i hi _ => ?_
  exact getElem?_overwrite_tail h (by omega)

theorem tail_overwrite_of_le {o : ℕ} (ho : k + THUNK_LEN ≤ o) :
    tail (overwrite b (k + TAIL_OFFSET) WINDOWS_TAIL) o = tail b o :=
  Scans.slice_congr fun _ hi _ => getElem?_overwrite_tail h (by omega)

theorem tail_overwrite_self :
    tail (overwrite b (k + TAIL_OFFSET) WINDOWS_TAIL) k = WINDOWS_TAIL :=
  Scans.slice_overwrite (tail_fits h)

end Overwrite

/-! ## What the rewriting loop does -/

/-- The scan of `b` from `k` on has left `b'`. -/
structure Rewritten (b : List UInt8) (k : ℕ) (b' : List UInt8) : Prop where
  length : b'.length = b.length
  tails : ∀ o, Thunk b k o → tail b' o = WINDOWS_TAIL
  frame : ∀ i, ¬InTail b k i → b'[i]? = b[i]?

/-- How many selected thunks do not have the Windows tail. -/
noncomputable def pending (b : List UInt8) (k : ℕ) : ℕ :=
  {o | Thunk b k o ∧ tail b o ≠ WINDOWS_TAIL}.ncard

theorem not_thunk {b : List UInt8} {k : ℕ} (h : ¬k + THUNK_LEN ≤ b.length) (o : ℕ) :
    ¬Thunk b k o := by
  intro ho
  have hle := ho.le
  have hlen := ho.matches.1
  omega

theorem thunk_pos : 0 < THUNK_LEN := by decide

/-- No thunk selected from behind `k` has its tail before that. -/
theorem not_inTail {b : List UInt8} {k i : ℕ} (hi : i < k + TAIL_OFFSET) : ¬InTail b k i := by
  rintro ⟨o, ho, hlt, -⟩
  have hle := ho.le
  omega

theorem Rewritten.done {b : List UInt8} {k : ℕ} (h : ¬k + THUNK_LEN ≤ b.length) :
    Rewritten b k b :=
  ⟨rfl, fun o ho => absurd ho (not_thunk h o), fun _ _ => rfl⟩

theorem Rewritten.skip {b b' : List UInt8} {k : ℕ} (hk : ¬ThunkAt b k)
    (h : Rewritten b (k + 1) b') : Rewritten b k b' := by
  refine ⟨h.length, fun o ho => h.tails o ((Scans.selected_skip hk o).mp ho), fun i hi => ?_⟩
  refine h.frame i fun hin => hi ?_
  obtain ⟨o, ho, hlt⟩ := hin
  exact ⟨o, (Scans.selected_skip hk o).mpr ho, hlt⟩

/-- A thunk that has its tail when the scan moves behind it keeps it. -/
theorem Rewritten.tail_before {b b' : List UInt8} {k : ℕ}
    (h : Rewritten b (k + THUNK_LEN) b') : tail b' k = tail b k :=
  Scans.slice_congr fun i _ hj => h.frame i (not_inTail (by omega))

theorem Rewritten.keep {b b' : List UInt8} {k : ℕ} (hk : ThunkAt b k)
    (ht : tail b k = WINDOWS_TAIL) (h : Rewritten b (k + THUNK_LEN) b') : Rewritten b k b' := by
  refine ⟨h.length, fun o ho => ?_, fun i hi => h.frame i fun hin => hi ?_⟩
  · rcases (Scans.selected_take thunk_pos hk o).mp ho with rfl | ho
    · exact h.tail_before.trans ht
    · exact h.tails o ho
  · obtain ⟨o, ho, hlt⟩ := hin
    exact ⟨o, (Scans.selected_take thunk_pos hk o).mpr (Or.inr ho), hlt⟩

theorem Rewritten.write {b b' : List UInt8} {k : ℕ} (hk : ThunkAt b k)
    (h : Rewritten (overwrite b (k + TAIL_OFFSET) WINDOWS_TAIL) (k + THUNK_LEN) b') :
    Rewritten b k b' := by
  have hself : Thunk b k k := (Scans.selected_take thunk_pos hk k).mpr (Or.inl rfl)
  refine ⟨h.length.trans (length_overwrite_tail hk.1), fun o ho => ?_, fun i hi => ?_⟩
  · rcases (Scans.selected_take thunk_pos hk o).mp ho with rfl | ho
    · exact h.tail_before.trans (tail_overwrite_self hk.1)
    · exact h.tails o ((thunk_overwrite hk.1 o).mpr ho)
  · rw [h.frame i, getElem?_overwrite_tail hk.1 fun hin => hi ⟨k, hself, hin⟩]
    rintro ⟨o, ho, hlt⟩
    have ho := (thunk_overwrite hk.1 o).mp ho
    exact hi ⟨o, (Scans.selected_take thunk_pos hk o).mpr (Or.inr ho), hlt⟩

theorem pending_done {b : List UInt8} {k : ℕ} (h : ¬k + THUNK_LEN ≤ b.length) :
    pending b k = 0 := by
  have hempty : {o | Thunk b k o ∧ tail b o ≠ WINDOWS_TAIL} = ∅ :=
    Set.eq_empty_of_forall_notMem fun o ho => not_thunk h o ho.1
  rw [pending, hempty, Set.ncard_empty]

theorem pending_skip {b : List UInt8} {k : ℕ} (hk : ¬ThunkAt b k) :
    pending b k = pending b (k + 1) := by
  unfold pending
  simp only [Thunk, Scans.selected_skip hk]

theorem pending_keep {b : List UInt8} {k : ℕ} (hk : ThunkAt b k) (ht : tail b k = WINDOWS_TAIL) :
    pending b k = pending b (k + THUNK_LEN) :=
  Scans.ncard_selected_take_of_not thunk_pos hk fun hne => hne ht

theorem pending_write {b : List UInt8} {k : ℕ} (hk : ThunkAt b k)
    (ht : tail b k ≠ WINDOWS_TAIL) : pending b k = pending b (k + THUNK_LEN) + 1 :=
  Scans.ncard_selected_take thunk_pos hk ht fun _ ho => ho.lt

/-- Writing a tail leaves the count of what follows alone. -/
theorem pending_overwrite {b : List UInt8} {k : ℕ} (h : k + THUNK_LEN ≤ b.length) :
    pending (overwrite b (k + TAIL_OFFSET) WINDOWS_TAIL) (k + THUNK_LEN)
      = pending b (k + THUNK_LEN) := by
  unfold pending
  congr 1
  ext o
  simp only [Set.mem_ofPred_eq, thunk_overwrite h o]
  exact and_congr_right fun ho => by rw [tail_overwrite_of_le h ho.le]

theorem rewrite_loop_spec (b : List UInt8) (k n : ℕ) :
    Rewritten b k (rewrite_loop b k n).1 ∧ (rewrite_loop b k n).2 = n + pending b k := by
  fun_induction rewrite_loop b k n with
  | case1 b k n h hhead ht ih =>
    have hk := (is_syscall_thunk_head_iff b h).mp hhead
    -- The rest was scanned in the buffer with this tail written, where it is as in `b`.
    refine ⟨ih.1.write hk, ?_⟩
    rw [ih.2, pending_overwrite h, pending_write hk ht]
    omega
  | case2 b k n h hhead ht ih =>
    have hk := (is_syscall_thunk_head_iff b h).mp hhead
    have ht : tail b k = WINDOWS_TAIL := not_not.mp ht
    exact ⟨ih.1.keep hk ht, by rw [ih.2, pending_keep hk ht]⟩
  | case3 b k n h hhead ih =>
    have hk := fun hk => hhead ((is_syscall_thunk_head_iff b h).mpr hk)
    exact ⟨ih.1.skip hk, by rw [ih.2, pending_skip hk]⟩
  | case4 b k n h => exact ⟨.done h, by rw [pending_done h, Nat.add_zero]⟩

theorem count_loop_spec (b : List UInt8) (k n : ℕ) : count_loop b k n = n + pending b k := by
  fun_induction count_loop b k n with
  | case1 k n h hhead ih =>
    have hk := (is_syscall_thunk_head_iff b h).mp hhead
    simp only [dite_eq_ite] at ih
    rw [ih]
    split
    · rename_i ht
      rw [pending_write hk ht]
      omega
    · rename_i ht
      rw [pending_keep hk (not_not.mp ht)]
  | case2 k n h hhead ih =>
    rw [ih, pending_skip fun hk => hhead ((is_syscall_thunk_head_iff b h).mpr hk)]
  | case3 k n h => rw [pending_done h, Nat.add_zero]

/-! ## The two scans as a whole -/

theorem rewrite_spec (b : List UInt8) :
    Rewritten b 0 (rewrite_syscall_thunk_tails b).1
      ∧ (rewrite_syscall_thunk_tails b).2 = pending b 0 := by
  obtain ⟨hr, hn⟩ := rewrite_loop_spec b 0 0
  exact ⟨hr, by rw [rewrite_syscall_thunk_tails, hn, Nat.zero_add]⟩

theorem count_spec (b : List UInt8) : count_pending_thunk_tails b = pending b 0 := by
  rw [count_pending_thunk_tails, count_loop_spec, Nat.zero_add]

/-- Nothing is pending where every selected thunk has the Windows tail. -/
theorem pending_eq_zero_iff (b : List UInt8) :
    pending b 0 = 0 ↔ ∀ o, Thunk b 0 o → tail b o = WINDOWS_TAIL := by
  have hfin : {o | Thunk b 0 o ∧ tail b o ≠ WINDOWS_TAIL}.Finite :=
    (Set.finite_lt_nat b.length).subset fun o ho => ho.1.matches.lt
  rw [pending, Set.ncard_eq_zero hfin]
  constructor
  · intro hempty o ho
    by_contra ht
    exact Set.notMem_empty o (hempty ▸ ⟨ho, ht⟩)
  · intro h
    exact Set.eq_empty_of_forall_notMem fun o ho => ho.2 (h o ho.1)

/-- A buffer whose selected thunks all have the Windows tail is left as it is. -/
theorem Rewritten.eq_of_tails {b b' : List UInt8} (h : Rewritten b 0 b')
    (ht : ∀ o, Thunk b 0 o → tail b o = WINDOWS_TAIL) : b' = b := by
  apply List.ext_getElem?
  intro i
  by_cases hi : InTail b 0 i
  · obtain ⟨o, ho, hlo, hhi⟩ := hi
    exact Scans.getElem?_of_slice_eq ((h.tails o ho).trans (ht o ho).symm) hlo hhi
  · exact h.frame i hi

/-- A tail is behind its own signature and reaches into no thunk selected later, so the
rewritten buffer has the same selection. -/
theorem Rewritten.thunk_iff {b b' : List UInt8} (h : Rewritten b 0 b') (o : ℕ) :
    Thunk b 0 o ↔ Thunk b' 0 o := by
  refine Scans.selected_congr (fun o _ hfree => ?_) o
  refine thunkAt_congr h.length.symm fun i hlo hhi => (h.frame i ?_).symm
  -- A tail that reached into the signature would belong to a thunk selected less than 0x20 before.
  rintro ⟨o', ho', hlo', hhi'⟩
  have hlt : o' < o := by omega
  have hle := hfree o' hlt ho'
  omega

/-- The bytes before the tail of a selected thunk stay. -/
theorem Rewritten.signature {b b' : List UInt8} (h : Rewritten b 0 b') {o : ℕ}
    (ho : Thunk b 0 o) : slice b' o (o + TAIL_OFFSET) = slice b o (o + TAIL_OFFSET) := by
  refine Scans.slice_congr fun i hlo hhi => h.frame i ?_
  rintro ⟨o', ho', hlo', hhi'⟩
  have hlt : o' < o := by omega
  have hle := ho'.apart ho hlt
  omega

/-- **Exactly the selected tails.** The rewriting gives each selected thunk the Windows tail,
changes no other byte, and returns how many of them had another one; where no two signatures
overlap, that is every thunk in the buffer, with its head, service number and branch as they
were. -/
theorem rewrite_exactly_selected_tails (b : List UInt8) :
    (rewrite_syscall_thunk_tails b).1.length = b.length
      ∧ (∀ o, Thunk b 0 o → tail (rewrite_syscall_thunk_tails b).1 o = WINDOWS_TAIL)
      ∧ (∀ i, ¬InTail b 0 i → (rewrite_syscall_thunk_tails b).1[i]? = b[i]?)
      ∧ (rewrite_syscall_thunk_tails b).2 = {o | Thunk b 0 o ∧ tail b o ≠ WINDOWS_TAIL}.ncard
      ∧ ((∀ o o', ThunkAt b o → ThunkAt b o' → o' < o → o' + THUNK_LEN ≤ o) →
        ∀ o, ThunkAt b o → tail (rewrite_syscall_thunk_tails b).1 o = WINDOWS_TAIL
          ∧ slice (rewrite_syscall_thunk_tails b).1 o (o + TAIL_OFFSET)
            = slice b o (o + TAIL_OFFSET)) := by
  obtain ⟨hr, hn⟩ := rewrite_spec b
  refine ⟨hr.length, hr.tails, hr.frame, hn, fun hapart o ho => ?_⟩
  have hsel : Thunk b 0 o := Scans.selected_of_apart hapart (Nat.zero_le o) ho
  exact ⟨hr.tails o hsel, hr.signature hsel⟩

example : rewrite_syscall_thunk_tails (THUNK_HEAD ++ [0x10, 0, 0, 0] ++ THUNK_BRANCH
      ++ List.replicate 11 0xcc)
    = (THUNK_HEAD ++ [0x10, 0, 0, 0] ++ THUNK_BRANCH ++ WINDOWS_TAIL, 1) := by
  decide +kernel

theorem rewrite_count_eq_zero_iff (b : List UInt8) :
    (rewrite_syscall_thunk_tails b).2 = 0 ↔ (rewrite_syscall_thunk_tails b).1 = b := by
  obtain ⟨hr, hn⟩ := rewrite_spec b
  rw [hn, pending_eq_zero_iff]
  constructor
  · exact hr.eq_of_tails
  · intro heq o ho
    rw [← hr.tails o ho, heq]

/-- A second run finds every tail in place. -/
theorem rewrite_again (b : List UInt8) :
    rewrite_syscall_thunk_tails (rewrite_syscall_thunk_tails b).1
      = ((rewrite_syscall_thunk_tails b).1, 0) := by
  obtain ⟨hr, -⟩ := rewrite_spec b
  obtain ⟨-, hn⟩ := rewrite_spec (rewrite_syscall_thunk_tails b).1
  have hzero : (rewrite_syscall_thunk_tails (rewrite_syscall_thunk_tails b).1).2 = 0 := by
    rw [hn, pending_eq_zero_iff]
    intro o ho
    exact hr.tails o ((hr.thunk_iff o).mpr ho)
  exact Prod.ext ((rewrite_count_eq_zero_iff _).mp hzero) hzero

/-- **The two scans agree.** The pending count is what the rewriting returns; it is 0 exactly
where the rewriting changes nothing, and a second rewriting changes nothing. A view of a PE
file is left alone exactly where its private copy would be, and otherwise the copy gets the
rewritten bytes and the count is the pending one. -/
theorem pending_count_is_rewritten (b : List UInt8) :
    count_pending_thunk_tails b = (rewrite_syscall_thunk_tails b).2
      ∧ ((rewrite_syscall_thunk_tails b).2 = 0 ↔ (rewrite_syscall_thunk_tails b).1 = b)
      ∧ rewrite_syscall_thunk_tails (rewrite_syscall_thunk_tails b).1
        = ((rewrite_syscall_thunk_tails b).1, 0)
      ∧ ∀ view scan_length, view.take scan_length = b → looks_like_pe_file b = true →
        rewrite_pe_view view scan_length (some view)
          = ((rewrite_syscall_thunk_tails b).1 ++ view.drop scan_length,
            count_pending_thunk_tails b) := by
  have hcount : count_pending_thunk_tails b = (rewrite_syscall_thunk_tails b).2 := by
    rw [count_spec, (rewrite_spec b).2]
  refine ⟨hcount, rewrite_count_eq_zero_iff b, rewrite_again b, ?_⟩
  rintro view scan_length rfl hpe
  unfold rewrite_pe_view
  simp only [hpe, Bool.not_true, Bool.false_or, beq_iff_eq]
  split
  · rename_i hzero
    -- Nothing pending: the copy would have shown the same bytes.
    have hsame := (rewrite_count_eq_zero_iff _).mp (hcount.symm.trans hzero)
    rw [hsame, List.take_append_drop, hzero]
  · rw [hcount]

end Linuwux.ThunkTails
