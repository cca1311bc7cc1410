/-
`PeViews.lean` -- `mmap` and `read` as `runtime/src/syscall/pe_stub_layout.rs` interposes them.

What `ThunkTails.lean` does with a buffer and `ImageCopies.lean` with headers is done here to the
address space of a process, one call after the other, with whatever the program does in between
([`rewrite_pe_view_bytes`] is the tie to the former). The promise of the source is about what is
*not* touched: the files, the other mappings, and the images that Wine itself has loaded.
[`views_over_runs`] has it with the exact condition under which a view comes to show Windows tails,
and [`view_shows_what_read_gives`] has it that reading a file and mapping it come to the same.

Two things that a program could notice are in the statement. A shared view that is replaced by a
private one is no longer shared. And `MAP_PRIVATE` is a bit of `MAP_SHARED_VALIDATE`, so a section
that is mapped in this way counts as private; the statement leaves such calls out.
-/
import Linuwux.FileMaps
import Linuwux.ImageCopies
import Linuwux.ThunkTails

set_option autoImplicit false

namespace Linuwux.PeViews

open FileMaps (Cell Space)
open Images (File Header ImageCopies note_header note_headers in_copy)
open ThunkTails (rewrite_syscall_thunk_tails count_pending_thunk_tails looks_like_pe_file THUNK_LEN)

/-! ## Calls -/

def MIN_FILE_READ : ℕ := 0x1000

def MIN_FILE_VIEW : ℕ := 0x4000

def PROT_READ : UInt32 := 1

def PROT_WRITE : UInt32 := 2

def PROT_EXEC : UInt32 := 4

def MAP_SHARED : UInt32 := 1

def MAP_PRIVATE : UInt32 := 2

def MAP_SHARED_VALIDATE : UInt32 := 3

def MAP_TYPE : UInt32 := 0xf

def MAP_FIXED : UInt32 := 0x10

def MAP_ANONYMOUS : UInt32 := 0x20

/-- The arguments of `mmap`, with the file that `fd` is open for if it is not negative. -/
structure Call where
  length : UInt64
  prot : UInt32
  flags : UInt32
  fd : Option File
  offset : UInt64

/-- What the kernel and `game_process` answer during a call. -/
structure Answers where
  /-- The address, or `MAP_FAILED`. -/
  result : Option UInt64
  game_process : Bool
  /-- `fstat` gives a regular file. -/
  regular : Bool
  /-- The second `mmap` gives the view again. -/
  replaces : Bool
  /-- `mprotect` before the rewriting. -/
  unprotects : Bool
  /-- `mprotect` behind it. -/
  restores : Bool

/-- The address space, the image tracker and `FILE_MAPPING_GENERATION`. -/
structure Process where
  space : Space File UInt32
  copies : ImageCopies
  generation : UInt64

/-- The file that a call maps. -/
def Call.file (c : Call) : Option File := if c.flags &&& MAP_ANONYMOUS = 0 then c.fd else none

/-- Whether the kernel shares the mapping; it refuses other types. -/
def Call.shared (c : Call) : Option Bool :=
  if c.flags &&& MAP_TYPE = MAP_PRIVATE then some false
  else if c.flags &&& MAP_TYPE = MAP_SHARED ∨ c.flags &&& MAP_TYPE = MAP_SHARED_VALIDATE then
    some true
  else none

/-- The bytes of the pages that a call maps. -/
def Call.pages (c : Call) : ℕ := (c.length.toNat + 0xfff) / 0x1000 * 0x1000

/-- `mmap` of the kernel. -/
def kernel_mmap (c : Call) (k : Answers) (s : Space File UInt32) :
    Option UInt64 × Space File UInt32 :=
  match k.result, c.shared with
  | some view, some shared =>
    match c.file with
    | some file => (some view, s.map view.toNat c.pages file c.offset.toNat shared c.prot)
    | none => (some view, s.unmap view.toNat c.pages)
  | _, _ => (none, s)

/-! ## What is interposed -/

def pe_size_of_image (header : List UInt8) : Option UInt64 :=
  (Scans.slice? header 0x3c 0x40).bind fun bytes =>
    let field := Scans.from_le_bytes bytes + (24 + 56)
    (Scans.slice? header field (field + 4)).map fun bytes => .ofNat (Scans.from_le_bytes bytes)

/-- `rewrite_syscall_thunk_tails` of bytes of the address space. -/
def rewrite_at (s : Space File UInt32) (start length : ℕ) : Space File UInt32 :=
  let bytes := s.bytes start length
  s.patch start (Space.diff bytes (rewrite_syscall_thunk_tails bytes).1)

def after_image_map (c : Call) (k : Answers) (file : File) (view : UInt64) (p : Process) :
    Process :=
  let size := (p.space.content file).length
  if !k.game_process then p
  else if !k.regular ∨ size < MIN_FILE_VIEW then p
  else if c.offset = 0 then
    if c.length.toNat > MIN_FILE_VIEW then p
    else
      let header := p.space.bytes view.toNat (min c.length.toNat 0x1000)
      if !looks_like_pe_file header then p
      else
        match pe_size_of_image header with
        | none => p
        | some image_size => { p with copies := (note_header p.copies ⟨file, view, image_size⟩).2 }
  else if !in_copy p.copies file view c.length then p
  else
    let scan_length := min c.length.toNat (size - c.offset.toNat)
    if scan_length < THUNK_LEN then p
    else if c.prot &&& PROT_WRITE ≠ 0 then
      { p with space := rewrite_at p.space view.toNat scan_length }
    else if !k.unprotects then p
    else
      let space := p.space.protect view.toNat c.pages (c.prot ||| PROT_WRITE)
      let space := rewrite_at space view.toNat scan_length
      { p with space := if k.restores then space.protect view.toNat c.pages c.prot else space }

def rewrite_pe_view (c : Call) (k : Answers) (file : File) (view : UInt64) (scan_length : ℕ)
    (s : Space File UInt32) : Space File UInt32 :=
  let bytes := s.bytes view.toNat scan_length
  if !looks_like_pe_file bytes || count_pending_thunk_tails bytes == 0 then s
  else if !k.replaces then s
  else
    let space := s.map view.toNat c.pages file 0 false (c.prot ||| PROT_WRITE)
    let space := rewrite_at space view.toNat scan_length
    if k.restores then space.protect view.toNat c.pages c.prot else space

def after_file_map (c : Call) (k : Answers) (file : File) (view : UInt64) (p : Process) :
    Process :=
  let size := (p.space.content file).length
  if !k.game_process then p
  else if !k.regular ∨ size < MIN_FILE_VIEW then p
  else { p with space := rewrite_pe_view c k file view (min c.length.toNat size) p.space }

/-- `mmap`. -/
def mmap (c : Call) (k : Answers) (p : Process) : Option UInt64 × Process :=
  match kernel_mmap c k p.space, c.file with
  | (some view, space), some file =>
    let p := { p with space := space, generation := p.generation + 1 }
    if c.prot &&& PROT_READ ≠ 0 then
      let p := if c.flags &&& MAP_FIXED ≠ 0 ∧ c.flags &&& MAP_PRIVATE ≠ 0 then
          after_image_map c k file view p
        else p
      (some view, if c.offset = 0 ∧ c.length.toNat ≥ MIN_FILE_VIEW ∧ c.prot &&& PROT_EXEC = 0 then
          after_file_map c k file view p
        else p)
    else (some view, p)
  | (result, space), _ => (result, { p with space := space })

def rewrite_complete_pe_read (buffer : List UInt8) : List UInt8 :=
  if buffer.length < MIN_FILE_READ ∨ !looks_like_pe_file buffer then buffer
  else (rewrite_syscall_thunk_tails buffer).1

/-- `after_file_read`: what the buffer of a completed read holds. -/
def after_file_read (game_process regular : Bool) (buffer : List UInt8) : List UInt8 :=
  if buffer.length < MIN_FILE_READ then buffer
  else if buffer.take 2 ≠ [0x4d, 0x5a] then buffer
  else if !game_process then buffer
  else if !regular then buffer
  else rewrite_complete_pe_read buffer

/-- `pread` of what the file has there. -/
def pread (game_process regular : Bool) (offset : ℕ) (buffer : List UInt8) : List UInt8 :=
  if offset = 0 then after_file_read game_process regular buffer else buffer

/-! ## Runs -/

/-- What happens to a process: a call of `mmap`, or something that is not interposed. -/
inductive Event where
  | mmap (c : Call) (k : Answers)
  | munmap (start length : ℕ)
  | mprotect (start length : ℕ) (prot : UInt32)
  | store (address : ℕ) (b : UInt8)

def step (p : Process) : Event → Process
  | .mmap c k => (mmap c k p).2
  | .munmap start length => { p with space := p.space.unmap start length }
  | .mprotect start length prot => { p with space := p.space.protect start length prot }
  | .store address b => { p with space := p.space.store address b }

def run (p : Process) (es : List Event) : Process := es.foldl step p

/-- A process that has mapped nothing. -/
def start (content : File → List UInt8) : Process := ⟨⟨content, fun _ => none⟩, .new, 0⟩

/-- Nothing but a regular file of the game process that is large enough. -/
def Candidate (k : Answers) (file : File) (s : Space File UInt32) : Prop :=
  k.game_process = true ∧ k.regular = true ∧ MIN_FILE_VIEW ≤ (s.content file).length

instance (k : Answers) (file : File) (s : Space File UInt32) : Decidable (Candidate k file s) :=
  inferInstanceAs (Decidable (_ ∧ _ ∧ _))

/-- The header that a call gives to the tracker. -/
def noted (c : Call) (k : Answers) (s : Space File UInt32) : Option Header :=
  match kernel_mmap c k s, c.file with
  | (some view, space), some file =>
    let header := space.bytes view.toNat (min c.length.toNat 0x1000)
    if c.prot &&& PROT_READ ≠ 0 ∧ (c.flags &&& MAP_FIXED ≠ 0 ∧ c.flags &&& MAP_PRIVATE ≠ 0)
        ∧ Candidate k file space ∧ c.offset = 0 ∧ c.length.toNat ≤ MIN_FILE_VIEW
        ∧ looks_like_pe_file header then
      (pe_size_of_image header).map fun image_size => ⟨file, view, image_size⟩
    else none
  | _, _ => none

/-- The headers of a run, oldest first. -/
def headers (p : Process) : List Event → List Header
  | [] => []
  | .mmap c k :: es => (noted c k p.space).toList ++ headers (mmap c k p).2 es
  | e :: es => headers (step p e) es

/-! ## What is left of a view -/

/-- The `n` bytes of the view show `new`, and everything else is as it was: the files, the other
bytes, what is not in the `length` bytes of the pages, which byte of which file a cell stands for,
and the protection if it can be restored. Nothing comes to be shared. -/
structure Leaves (k : Answers) (plain after : Space File UInt32) (view length n : ℕ)
    (new : List UInt8) : Prop where
  content : after.content = plain.content
  bytes : after.bytes view n = new
  outside : ∀ a, ¬(view ≤ a ∧ a < view + n) → after.byte a = plain.byte a
  beyond : ∀ a, ¬(view ≤ a ∧ a < view + length) → after.cells a = plain.cells a
  stands : ∀ a, (after.cells a).map (fun c => (c.file, c.offset))
    = (plain.cells a).map fun c => (c.file, c.offset)
  unshared : ∀ a, (plain.cells a).map Cell.shared = some false →
    (after.cells a).map Cell.shared = some false
  prot : k.restores = true →
    ∀ a, (after.cells a).map Cell.prot = (plain.cells a).map Cell.prot

theorem Leaves.refl (k : Answers) (s : Space File UInt32) (view length n : ℕ) :
    Leaves k s s view length n (s.bytes view n) :=
  ⟨rfl, rfl, fun _ _ => rfl, fun _ _ => rfl, fun _ => rfl, fun _ => id, fun _ _ => rfl⟩

section Rewrite

variable {s : Space File UInt32} {start n length : ℕ}

/-- The range shows what the rewriting makes of it. -/
theorem rewrite_at_spec (k : Answers) (h : s.Private start n) (hle : n ≤ length) :
    Leaves k s (rewrite_at s start n) start length n
      (rewrite_syscall_thunk_tails (s.bytes start n)).1 := by
  have hnew : (rewrite_syscall_thunk_tails (s.bytes start n)).1.length = n := by
    rw [(ThunkTails.rewrite_spec _).1.length, Space.length_bytes]
  have hdiff : (Space.diff (s.bytes start n)
      (rewrite_syscall_thunk_tails (s.bytes start n)).1).length = n := by
    rw [Space.length_diff (by rw [hnew, Space.length_bytes]), Space.length_bytes]
  have hprivate : s.Private start (Space.diff (s.bytes start n)
      (rewrite_syscall_thunk_tails (s.bytes start n)).1).length := by rwa [hdiff]
  have hbare := Space.bare_patch hprivate
  have hmap : ∀ {γ : Type} (g : Cell File UInt32 → γ), (∀ c, g c.bare = g c) →
      ∀ a, ((rewrite_at s start n).cells a).map g = (s.cells a).map g := fun g hg a => by
    have hcongr := congrArg (Option.map g) (hbare a)
    rw [Option.map_map, Option.map_map] at hcongr
    have hcomp : g ∘ Cell.bare = g := funext hg
    rwa [hcomp] at hcongr
  exact {
    content := (Space.patch_private _ hprivate).1
    bytes := Space.bytes_patch_diff h hnew
    outside := fun a hout => Space.byte_patch_of_outside hprivate (by rwa [hdiff])
    beyond := fun a hout => by
      rw [rewrite_at, (Space.patch_private _ hprivate).2, hdiff, if_neg (by omega)]
    stands := hmap _ fun _ => rfl
    unshared := fun a hshared => by rw [hmap Cell.shared (fun _ => rfl), hshared]
    prot := fun _ => hmap _ fun _ => rfl }

/-- Nothing pending: the rewriting would show the same. -/
theorem rewrite_of_count_zero {bytes : List UInt8} (h : count_pending_thunk_tails bytes = 0) :
    (rewrite_syscall_thunk_tails bytes).1 = bytes := by
  rw [← ThunkTails.rewrite_count_eq_zero_iff, (ThunkTails.rewrite_spec bytes).2,
    ← ThunkTails.count_spec, h]

/-- The range rewritten in a space `b` that shows what `s` shows, and the protection of its pages
set back. -/
theorem restored_spec (k : Answers) {b : Space File UInt32} {prot : UInt32}
    (hprivate : b.Private start n) (hle : n ≤ length) (hcontent : b.content = s.content)
    (hbyte : ∀ a, b.byte a = s.byte a)
    (hstands : ∀ a, (b.cells a).map (fun c => (c.file, c.offset))
      = (s.cells a).map fun c => (c.file, c.offset))
    (hunshared : ∀ a, (s.cells a).map Cell.shared = some false →
      (b.cells a).map Cell.shared = some false)
    (hout : ∀ a, ¬(start ≤ a ∧ a < start + length) → b.cells a = s.cells a)
    (hin : ∀ a, start ≤ a ∧ a < start + length → (s.cells a).map Cell.prot = some prot) :
    Leaves k s (if k.restores then (rewrite_at b start n).protect start length prot
      else rewrite_at b start n) start length n
        (rewrite_syscall_thunk_tails (s.bytes start n)).1 := by
  have hbytes : b.bytes start n = s.bytes start n := Space.bytes_congr fun a _ _ => hbyte a
  have hleft := rewrite_at_spec k hprivate hle
  rw [hbytes] at hleft
  cases hrestores : k.restores with
  | false =>
    rw [if_neg Bool.false_ne_true]
    exact {
      content := hleft.content.trans hcontent
      bytes := hleft.bytes
      outside := fun a ha => (hleft.outside a ha).trans (hbyte a)
      beyond := fun a ha => (hleft.beyond a ha).trans (hout a ha)
      stands := fun a => (hleft.stands a).trans (hstands a)
      unshared := fun a ha => hleft.unshared a (hunshared a ha)
      prot := fun h => by rw [hrestores] at h; cases h }
  | true =>
    rw [if_pos rfl]
    refine ⟨hleft.content.trans hcontent, ?_, fun a ha => ?_, fun a ha => ?_, fun a => ?_,
      fun a ha => ?_, fun _ a => ?_⟩
    · rw [← hleft.bytes]
      exact Space.bytes_congr fun a _ _ => Space.byte_protect ..
    · rw [Space.byte_protect]
      exact (hleft.outside a ha).trans (hbyte a)
    · exact (if_neg ha).trans ((hleft.beyond a ha).trans (hout a ha))
    · rw [Space.map_protect _ fun _ _ => rfl]
      exact (hleft.stands a).trans (hstands a)
    · rw [Space.map_protect _ fun _ _ => rfl]
      exact hleft.unshared a (hunshared a ha)
    · by_cases hrange : start ≤ a ∧ a < start + length
      · -- The page is mapped, so it has the protection that it is given.
        have hsome : ((rewrite_at b start n).cells a).isSome := by
          have hstands' := congrArg Option.isSome ((hleft.stands a).trans (hstands a))
          have hmapped := congrArg Option.isSome (hin a hrange)
          simp only [Option.isSome_map, Option.isSome_some] at hstands' hmapped
          rw [hstands', hmapped]
        obtain ⟨c, hc⟩ := Option.isSome_iff_exists.mp hsome
        unfold Space.protect
        dsimp only
        rw [if_pos hrange, hc, hin a hrange]
        rfl
      · unfold Space.protect
        dsimp only
        rw [if_neg hrange, hleft.prot hrestores, hout a hrange]

end Rewrite

/-! ## One call -/

section Call

variable (c : Call) (k : Answers) (file : File) (view : UInt64)

/-- The bytes of the view that the file backs. -/
def backed (s : Space File UInt32) : ℕ :=
  min c.length.toNat ((s.content file).length - c.offset.toNat)

theorem length_le_pages : c.length.toNat ≤ c.pages := by
  unfold Call.pages
  omega

/-- The section is one of a copy, and can be written. -/
def Section (s : Space File UInt32) (copies : ImageCopies) : Prop :=
  Candidate k file s ∧ c.offset ≠ 0 ∧ in_copy copies file view c.length = true
    ∧ THUNK_LEN ≤ backed c file s ∧ (c.prot &&& PROT_WRITE ≠ 0 ∨ k.unprotects = true)

/-- The view is one of a PE file, and can be replaced. -/
def DataView (s : Space File UInt32) : Prop :=
  Candidate k file s ∧ looks_like_pe_file (s.bytes view.toNat (backed c file s)) = true
    ∧ k.replaces = true

instance (s : Space File UInt32) (copies : ImageCopies) :
    Decidable (Section c k file view s copies) :=
  inferInstanceAs (Decidable (_ ∧ _ ∧ _ ∧ _ ∧ _))

instance (s : Space File UInt32) : Decidable (DataView c k file view s) :=
  inferInstanceAs (Decidable (_ ∧ _ ∧ _))

/-- `bytes` as they come to be shown. -/
def shown (rewrites : Prop) [Decidable rewrites] (bytes : List UInt8) : List UInt8 :=
  if rewrites then (rewrite_syscall_thunk_tails bytes).1 else bytes

variable {c k file view}

/-- What is no candidate is left alone by both functions. -/
theorem not_candidate {p : Process} (h : ¬Candidate k file p.space) :
    after_image_map c k file view p = p ∧ after_file_map c k file view p = p := by
  unfold after_image_map after_file_map
  cases hgame : k.game_process with
  | false => exact ⟨rfl, rfl⟩
  | true =>
    have hsmall : (!k.regular) = true ∨ (p.space.content file).length < MIN_FILE_VIEW := by
      by_contra hboth
      rw [not_or, Bool.not_eq_true, Bool.not_eq_false', not_lt] at hboth
      exact h ⟨hgame, hboth⟩
    dsimp only
    rw [Bool.not_true, if_neg Bool.false_ne_true, if_neg Bool.false_ne_true, if_pos hsmall,
      if_pos hsmall]
    exact ⟨rfl, rfl⟩

/-- The tests that a candidate passes. -/
theorem Candidate.tests {s : Space File UInt32} (h : Candidate k file s) :
    ¬(!k.game_process) = true
      ∧ ¬((!k.regular) = true ∨ (s.content file).length < MIN_FILE_VIEW) := by
  obtain ⟨hgame, hregular, hsize⟩ := h
  rw [hgame, hregular]
  refine ⟨Bool.false_ne_true, ?_⟩
  rw [not_or]
  exact ⟨Bool.false_ne_true, not_lt.mpr hsize⟩

/-- A section of a copy is rewritten, and nothing else is. -/
theorem after_image_map_spec {p : Process} (hprivate : p.space.Private view.toNat c.pages)
    (hprot : ∀ a, view.toNat ≤ a ∧ a < view.toNat + c.pages →
      (p.space.cells a).map Cell.prot = some c.prot) :
    Leaves k p.space (after_image_map c k file view p).space view.toNat c.pages
      (backed c file p.space)
      (shown (Section c k file view p.space p.copies)
        (p.space.bytes view.toNat (backed c file p.space))) := by
  have hle : backed c file p.space ≤ c.pages := (Nat.min_le_left ..).trans (length_le_pages c)
  by_cases hcandidate : Candidate k file p.space
  · obtain ⟨hgame, hsize⟩ := hcandidate.tests
    have hkept : ∀ q : Process, q.space = p.space → ¬Section c k file view p.space p.copies →
        Leaves k p.space q.space view.toNat c.pages (backed c file p.space)
          (shown (Section c k file view p.space p.copies)
            (p.space.bytes view.toNat (backed c file p.space))) := fun q hq hnot => by
      rw [hq, shown, if_neg hnot]
      exact .refl ..
    unfold after_image_map
    dsimp only
    rw [if_neg hgame, if_neg hsize]
    by_cases hoffset : c.offset = 0
    · rw [if_pos hoffset]
      refine hkept _ ?_ fun h => h.2.1 hoffset
      split
      · rfl
      · split
        · rfl
        · split <;> rfl
    · rw [if_neg hoffset]
      cases hcopy : in_copy p.copies file view c.length with
      | false => exact hkept p rfl fun h => Bool.false_ne_true (hcopy.symm.trans h.2.2.1)
      | true =>
        rw [Bool.not_true, if_neg Bool.false_ne_true]
        change Leaves k p.space (if backed c file p.space < THUNK_LEN then p else _).space _ _ _ _
        by_cases hlen : backed c file p.space < THUNK_LEN
        · rw [if_pos hlen]
          exact hkept p rfl fun h => absurd h.2.2.2.1 (not_le.mpr hlen)
        · rw [if_neg hlen]
          have hsection : c.prot &&& PROT_WRITE ≠ 0 ∨ k.unprotects = true →
              Section c k file view p.space p.copies :=
            fun h => ⟨hcandidate, hoffset, hcopy, not_lt.mp hlen, h⟩
          by_cases hwrite : c.prot &&& PROT_WRITE ≠ 0
          · rw [if_pos hwrite, shown, if_pos (hsection (Or.inl hwrite))]
            exact rewrite_at_spec k (hprivate.mono hle) hle
          · rw [if_neg hwrite]
            cases hunprotects : k.unprotects with
            | false =>
              refine hkept p rfl fun h => ?_
              rcases h.2.2.2.2 with hw | hu
              · exact hwrite hw
              · exact Bool.false_ne_true (hunprotects.symm.trans hu)
            | true =>
              rw [Bool.not_true, if_neg Bool.false_ne_true, shown,
                if_pos (hsection (Or.inr hunprotects))]
              exact restored_spec k ((hprivate.protect _).mono hle) hle rfl
                (fun a => Space.byte_protect ..) (Space.map_protect _ (fun _ _ => rfl) _ _ _ _)
                (fun a ha => by rw [Space.map_protect _ fun _ _ => rfl, ha])
                (fun a ha => if_neg ha) hprot
  · rw [(not_candidate hcandidate).1, shown, if_neg fun h => hcandidate h.1]
    exact .refl ..

/-- A header is read only. -/
theorem after_image_map_header {p : Process} (hoffset : c.offset = 0) :
    (after_image_map c k file view p).space = p.space := by
  unfold after_image_map
  dsimp only
  rw [if_pos hoffset]
  split
  · rfl
  · split
    · rfl
    · split
      · rfl
      · split
        · rfl
        · split <;> rfl

/-- By its bytes, `rewrite_pe_view` is what it is in `ThunkTails.lean`. -/
theorem rewrite_pe_view_bytes {s : Space File UInt32} {scan_length : ℕ}
    (hscan : scan_length ≤ c.length.toNat) :
    (rewrite_pe_view c k file view scan_length s).bytes view.toNat c.length.toNat
      = (ThunkTails.rewrite_pe_view (s.bytes view.toNat c.length.toNat) scan_length
        (if k.replaces then some ((s.map view.toNat c.pages file 0 false
          (c.prot ||| PROT_WRITE)).bytes view.toNat c.length.toNat) else none)).1 := by
  unfold rewrite_pe_view ThunkTails.rewrite_pe_view
  dsimp only
  rw [Space.bytes_take hscan]
  split
  · rfl
  · cases k.replaces with
    | false => rfl
    | true =>
      rw [if_pos rfl, Bool.not_true, if_neg Bool.false_ne_true]
      dsimp only
      rw [Space.bytes_take hscan]
      generalize hq : s.map view.toNat c.pages file 0 false (c.prot ||| PROT_WRITE) = q
      have hprivate : q.Private view.toNat c.pages := by
        rw [← hq]
        exact Space.private_map _ _ _ _ _ _
      have hle := hscan.trans (length_le_pages c)
      have hleft := rewrite_at_spec k (hprivate.mono hle) hle
      have hrestored : (if k.restores then
          (rewrite_at q view.toNat scan_length).protect view.toNat c.pages c.prot
          else rewrite_at q view.toNat scan_length).bytes view.toNat c.length.toNat
          = (rewrite_at q view.toNat scan_length).bytes view.toNat c.length.toNat := by
        split
        · exact Space.bytes_congr fun a _ _ => Space.byte_protect ..
        · rfl
      rw [hrestored, ← List.take_append_drop scan_length
        ((rewrite_at q view.toNat scan_length).bytes _ _), Space.bytes_take hscan, hleft.bytes]
      congr 1
      refine List.ext_getElem? fun i => ?_
      rw [List.getElem?_drop, List.getElem?_drop]
      by_cases hi : scan_length + i < c.length.toNat
      · rw [Space.getElem?_bytes hi, Space.getElem?_bytes hi, hleft.outside _ (by omega)]
      · rw [List.getElem?_eq_none (by rw [Space.length_bytes]; omega),
          List.getElem?_eq_none (by rw [Space.length_bytes]; omega)]

/-- The private mapping that replaces a view. -/
def replaced_view (c : Call) (k : Answers) (file : File) (view : UInt64) (s : Space File UInt32) :
    Space File UInt32 :=
  let space := s.map view.toNat c.pages file 0 false (c.prot ||| PROT_WRITE)
  let space := rewrite_at space view.toNat (backed c file s)
  if k.restores then space.protect view.toNat c.pages c.prot else space

/-- A view is replaced, or it is left and shows what it should. -/
theorem after_file_map_cases {p : Process} (hoffset : c.offset = 0) :
    let bytes := p.space.bytes view.toNat (backed c file p.space)
    let new := shown (DataView c k file view p.space) bytes
    (new = (rewrite_syscall_thunk_tails bytes).1 ∧ new ≠ bytes
        ∧ (after_file_map c k file view p).space = replaced_view c k file view p.space)
      ∨ new = bytes ∧ (after_file_map c k file view p).space = p.space := by
  have hbacked : min c.length.toNat (p.space.content file).length = backed c file p.space := by
    rw [backed, hoffset]
    rfl
  dsimp only
  by_cases hcandidate : Candidate k file p.space
  · obtain ⟨hgame, hsize⟩ := hcandidate.tests
    unfold after_file_map
    dsimp only
    rw [if_neg hgame, if_neg hsize, hbacked]
    unfold rewrite_pe_view
    dsimp only
    split
    · rename_i hskip
      rw [Bool.or_eq_true, Bool.not_eq_true', beq_iff_eq] at hskip
      refine Or.inr ⟨?_, rfl⟩
      unfold shown
      split
      · rename_i hview
        rcases hskip with hpe | hzero
        · exact absurd (hpe.symm.trans hview.2.1) Bool.false_ne_true
        · exact rewrite_of_count_zero hzero
      · rfl
    · rename_i hgo
      rw [Bool.or_eq_true, not_or, Bool.not_eq_true, Bool.not_eq_false', beq_iff_eq] at hgo
      cases hreplaces : k.replaces with
      | false =>
        exact Or.inr ⟨if_neg fun h => Bool.false_ne_true (hreplaces.symm.trans h.2.2), rfl⟩
      | true =>
        have hshown : shown (DataView c k file view p.space)
            (p.space.bytes view.toNat (backed c file p.space)) = (rewrite_syscall_thunk_tails
              (p.space.bytes view.toNat (backed c file p.space))).1 :=
          if_pos ⟨hcandidate, hgo.1, hreplaces⟩
        refine Or.inl ⟨hshown, fun hsame => hgo.2 ?_, rfl⟩
        rw [hshown, ← ThunkTails.rewrite_count_eq_zero_iff, (ThunkTails.rewrite_spec _).2] at hsame
        rw [ThunkTails.count_spec, hsame]
  · rw [(not_candidate hcandidate).2, shown, if_neg fun h => hcandidate h.1]
    exact Or.inr ⟨rfl, rfl⟩

section Fresh

variable {s : Space File UInt32} {shared : Bool} {p : Process} (hoffset : c.offset = 0)
  (hspace : p.space = s.map view.toNat c.pages file c.offset.toNat shared c.prot)

include hoffset hspace

/-- A view of a PE file is rewritten, in a private mapping. -/
theorem after_file_map_spec :
    Leaves k p.space (after_file_map c k file view p).space view.toNat c.pages
      (backed c file p.space) (shown (DataView c k file view p.space)
        (p.space.bytes view.toNat (backed c file p.space))) := by
  rcases @after_file_map_cases c k file view p hoffset with
    ⟨hnew, -, heq⟩ | ⟨hnew, heq⟩
  · rw [hnew, heq]
    have hzero : c.offset.toNat = 0 := by
      rw [hoffset]
      rfl
    -- The private mapping and the one that it replaces show the file.
    have hcells : ∀ a, view.toNat ≤ a ∧ a < view.toNat + c.pages → p.space.cells a
        = some ⟨file, a - view.toNat, shared, c.prot, none⟩ := fun a ha => by
      rw [hspace]
      refine (if_pos ha).trans ?_
      rw [hzero, Nat.zero_add]
    have hbeyond : ∀ a, ¬(view.toNat ≤ a ∧ a < view.toNat + c.pages) →
        (p.space.map view.toNat c.pages file 0 false (c.prot ||| PROT_WRITE)).cells a
          = p.space.cells a := fun a ha => if_neg ha
    have hmapped : ∀ a, view.toNat ≤ a ∧ a < view.toNat + c.pages →
        (p.space.map view.toNat c.pages file 0 false (c.prot ||| PROT_WRITE)).cells a
          = some ⟨file, a - view.toNat, false, c.prot ||| PROT_WRITE, none⟩ := fun a ha => by
      refine (if_pos ha).trans ?_
      rw [Nat.zero_add]
    have hle : backed c file p.space ≤ c.pages := (Nat.min_le_left ..).trans (length_le_pages c)
    refine restored_spec k ((Space.private_map _ _ _ _ _ _).mono hle) hle rfl (fun a => ?_)
      (fun a => ?_) (fun a hshared => ?_) hbeyond fun a ha => congrArg _ (hcells a ha)
    · by_cases ha : view.toNat ≤ a ∧ a < view.toNat + c.pages
      · rw [Space.byte, Space.byte, hcells a ha, hmapped a ha]
        rfl
      · rw [Space.byte, Space.byte, hbeyond a ha]
        rfl
    · by_cases ha : view.toNat ≤ a ∧ a < view.toNat + c.pages
      · rw [hcells a ha, hmapped a ha]
        rfl
      · rw [hbeyond a ha]
    · by_cases ha : view.toNat ≤ a ∧ a < view.toNat + c.pages
      · rw [hmapped a ha]
        rfl
      · rw [hbeyond a ha, hshared]
  · rw [hnew, heq]
    exact .refl ..

/-- A shared view stays shared exactly if it shows what it would have shown. -/
theorem after_file_map_shared (hshared : shared = true) {a : ℕ}
    (ha : view.toNat ≤ a ∧ a < view.toNat + c.pages) :
    ((after_file_map c k file view p).space.cells a).map Cell.shared = some true
      ↔ shown (DataView c k file view p.space)
        (p.space.bytes view.toNat (backed c file p.space))
          = p.space.bytes view.toNat (backed c file p.space) := by
  rcases @after_file_map_cases c k file view p hoffset with
    ⟨-, hne, heq⟩ | ⟨hnew, heq⟩
  · refine iff_of_false (fun htrue => ?_) hne
    have hle : backed c file p.space ≤ c.pages := (Nat.min_le_left ..).trans (length_le_pages c)
    have hprivate := Space.private_map p.space view.toNat c.pages file 0 (c.prot ||| PROT_WRITE)
    have hunshared : ((replaced_view c k file view p.space).cells a).map Cell.shared
        = some false := by
      have hleft := (rewrite_at_spec k (hprivate.mono hle) hle).unshared a
        (congrArg _ (if_pos ha))
      unfold replaced_view
      dsimp only
      split
      · rw [Space.map_protect _ fun _ _ => rfl]
        exact hleft
      · exact hleft
    rw [heq, hunshared] at htrue
    cases htrue
  · subst hshared
    refine iff_of_true ?_ hnew
    rw [heq, hspace]
    exact congrArg _ (if_pos ha)

end Fresh

/-- What a call gives to the tracker. -/
theorem after_image_map_copies (p : Process) :
    (after_image_map c k file view p).copies
      = if Candidate k file p.space ∧ c.offset = 0 ∧ c.length.toNat ≤ MIN_FILE_VIEW
          ∧ looks_like_pe_file (p.space.bytes view.toNat (min c.length.toNat 0x1000)) = true then
        match pe_size_of_image (p.space.bytes view.toNat (min c.length.toNat 0x1000)) with
        | none => p.copies
        | some image_size => (note_header p.copies ⟨file, view, image_size⟩).2
      else p.copies := by
  by_cases hcandidate : Candidate k file p.space
  · obtain ⟨hgame, hsize⟩ := hcandidate.tests
    unfold after_image_map
    dsimp only
    rw [if_neg hgame, if_neg hsize]
    by_cases hoffset : c.offset = 0
    · rw [if_pos hoffset]
      by_cases hlength : c.length.toNat > MIN_FILE_VIEW
      · rw [if_pos hlength, if_neg fun h => absurd h.2.2.1 (not_le.mpr hlength)]
      · rw [if_neg hlength]
        cases hpe : looks_like_pe_file
            (p.space.bytes view.toNat (min c.length.toNat 0x1000)) with
        | false =>
          rw [Bool.not_false, if_pos rfl, if_neg fun h => Bool.false_ne_true h.2.2.2]
        | true =>
          rw [Bool.not_true, if_neg Bool.false_ne_true,
            if_pos ⟨hcandidate, hoffset, not_lt.mp hlength, rfl⟩]
          split <;> rfl
    · rw [if_neg hoffset]
      refine Eq.trans ?_ (if_neg fun h => hoffset h.2.1).symm
      split
      · rfl
      · split
        · rfl
        · split
          · rfl
          · split <;> rfl
  · rw [(not_candidate hcandidate).1, if_neg fun h => hcandidate h.1]

theorem after_file_map_copies (p : Process) :
    (after_file_map c k file view p).copies = p.copies := by
  unfold after_file_map
  dsimp only
  split
  · rfl
  · split <;> rfl

end Call

/-! ## The headers of a run -/

/-- A type that is not `MAP_SHARED_VALIDATE` has the bit of `MAP_PRIVATE` if it is that. -/
theorem private_bit {c : Call} {shared : Bool} (hshared : c.shared = some shared)
    (hvalidate : c.flags &&& MAP_TYPE ≠ MAP_SHARED_VALIDATE) :
    c.flags &&& MAP_PRIVATE ≠ 0 ↔ shared = false := by
  have hbit : c.flags &&& MAP_PRIVATE = c.flags &&& MAP_TYPE &&& MAP_PRIVATE := by
    rw [UInt32.and_assoc]
    rfl
  unfold Call.shared at hshared
  by_cases hprivate : c.flags &&& MAP_TYPE = MAP_PRIVATE
  · rw [if_pos hprivate] at hshared
    cases hshared
    rw [hbit, hprivate]
    exact iff_of_true (by decide) rfl
  · rw [if_neg hprivate] at hshared
    split at hshared
    · rename_i htype
      cases hshared
      rw [hbit, htype.resolve_right hvalidate]
      exact iff_of_false (by decide) nofun
    · cases hshared

theorem mmap_copies (c : Call) (k : Answers) (p : Process) :
    (mmap c k p).2.copies = (noted c k p.space).elim p.copies
      fun header => (note_header p.copies header).2 := by
  unfold mmap noted
  cases hkernel : kernel_mmap c k p.space with
  | mk result space =>
    cases result with
    | none => rfl
    | some view =>
      cases hfile : c.file with
      | none => rfl
      | some file =>
        dsimp only
        by_cases hread : c.prot &&& PROT_READ ≠ 0
        · rw [if_pos hread]
          have hfile_map : ∀ q : Process, (if c.offset = 0 ∧ c.length.toNat ≥ MIN_FILE_VIEW
              ∧ c.prot &&& PROT_EXEC = 0 then after_file_map c k file view q else q).copies
              = q.copies := fun q => by
            split
            · exact after_file_map_copies q
            · rfl
          dsimp only
          rw [hfile_map]
          by_cases hfixed : c.flags &&& MAP_FIXED ≠ 0 ∧ c.flags &&& MAP_PRIVATE ≠ 0
          · rw [if_pos hfixed, after_image_map_copies]
            dsimp only
            by_cases hheader : Candidate k file space ∧ c.offset = 0
                ∧ c.length.toNat ≤ MIN_FILE_VIEW
                ∧ looks_like_pe_file (space.bytes view.toNat (min c.length.toNat 0x1000)) = true
            · rw [if_pos hheader, if_pos ⟨hread, hfixed, hheader⟩]
              cases pe_size_of_image (space.bytes view.toNat (min c.length.toNat 0x1000)) <;> rfl
            · rw [if_neg hheader, if_neg fun h => hheader h.2.2]
              rfl
          · rw [if_neg hfixed, if_neg fun h => hfixed h.2.1]
            rfl
        · rw [if_neg hread, if_neg fun h => hread h.1]
          rfl

theorem run_copies (p : Process) (es : List Event) :
    (run p es).copies
      = (headers p es).foldl (fun s header => (note_header s header).2) p.copies := by
  induction es generalizing p with
  | nil => rfl
  | cons e es ih =>
    cases e with
    | mmap c k =>
      change (run (mmap c k p).2 es).copies = _
      rw [ih, mmap_copies, headers, List.foldl_append]
      cases noted c k p.space <;> rfl
    | _ => exact ih _

/-! ## Every run -/

/-- The range is inside the last image of the file that was not the first. -/
def InLastCopy (hs : List Header) (file : File) (view length : UInt64) : Prop :=
  file ∈ Images.tracked hs ∧ ∃ copy, (Images.copies hs file).getLast? = some copy
    ∧ copy.base ≤ view ∧ ProcMem.saturating_add view length.toNat
      ≤ ProcMem.saturating_add copy.base copy.image_size.toNat

/-- The call leaves a view with Windows tails, after these headers: a view of a whole PE file, or a
section of an image that is not the file's first. -/
def Rewrites (c : Call) (k : Answers) (file : File) (view : UInt64) (plain : Space File UInt32)
    (hs : List Header) : Prop :=
  Candidate k file plain ∧ c.prot &&& PROT_READ ≠ 0
    ∧ (c.offset = 0 ∧ MIN_FILE_VIEW ≤ c.length.toNat ∧ c.prot &&& PROT_EXEC = 0
        ∧ looks_like_pe_file (plain.bytes view.toNat (backed c file plain)) = true
        ∧ k.replaces = true
      ∨ c.offset ≠ 0 ∧ c.flags &&& MAP_FIXED ≠ 0 ∧ c.shared = some false
        ∧ InLastCopy hs file view c.length ∧ THUNK_LEN ≤ backed c file plain
        ∧ (c.prot &&& PROT_WRITE ≠ 0 ∨ k.unprotects = true))

theorem inLastCopy_iff {hs : List Header} (hproper : ∀ header ∈ hs, Images.Proper header)
    (file : File) (view length : UInt64) :
    in_copy (note_headers hs) file view length = true ↔ InLastCopy hs file view length := by
  rw [Images.in_copy_iff hproper]
  refine and_congr_left fun ⟨copy, hlast, _⟩ => ?_
  have hmem := List.mem_filter.mp (List.mem_of_mem_drop (List.mem_of_getLast? hlast))
  have hinode : file.inode ≠ 0 := by
    rw [← of_decide_eq_true hmem.2]
    exact (hproper copy hmem.1).1
  exact (Images.shows_note_headers hproper).tracks hinode

/-- What a call leaves of its view, after these headers. -/
def Views (c : Call) (k : Answers) (file : File) (view : UInt64) (hs : List Header)
    (plain after : Space File UInt32) : Prop :=
  ∃ new, Leaves k plain after view.toNat c.pages (backed c file plain) new
    ∧ (Rewrites c k file view plain hs → new
      = (rewrite_syscall_thunk_tails (plain.bytes view.toNat (backed c file plain))).1)
    ∧ (¬Rewrites c k file view plain hs → new = plain.bytes view.toNat (backed c file plain))
    ∧ (c.shared = some true → ∀ a, view.toNat ≤ a ∧ a < view.toNat + c.pages →
      ((after.cells a).map Cell.shared = some true
        ↔ new = plain.bytes view.toNat (backed c file plain)))

section OneCall

variable {c : Call} {k : Answers} {file : File} {view : UInt64} {hs : List Header}
  {plain after : Space File UInt32}

/-- A view that is left by a condition which says the same as `Rewrites`. -/
theorem Views.of {r : Prop} [Decidable r]
    (hiff : r ↔ Rewrites c k file view plain hs)
    (hleaves : Leaves k plain after view.toNat c.pages (backed c file plain)
      (shown r (plain.bytes view.toNat (backed c file plain))))
    (hshared : c.shared = some true → ∀ a, view.toNat ≤ a ∧ a < view.toNat + c.pages →
      ((after.cells a).map Cell.shared = some true
        ↔ shown r (plain.bytes view.toNat (backed c file plain))
          = plain.bytes view.toNat (backed c file plain))) :
    Views c k file view hs plain after :=
  ⟨_, hleaves, fun h => if_pos (hiff.mpr h), fun h => if_neg fun hr => h (hiff.mp hr), hshared⟩

/-- A view that is left alone. -/
theorem Views.same {shared : Bool} (hshared : c.shared = some shared)
    (hcells : ∀ a, view.toNat ≤ a ∧ a < view.toNat + c.pages →
      (plain.cells a).map Cell.shared = some shared)
    (hnot : ¬Rewrites c k file view plain hs) : Views c k file view hs plain plain :=
  .of (r := False) (iff_of_false id hnot) (.refl ..) fun htrue a ha =>
    iff_of_true ((hcells a ha).trans (hshared.symm.trans htrue)) rfl

variable {p : Process} {shared : Bool}

/-- One call, in a process that has noted these headers. -/
theorem mmap_views (hproper : ∀ header ∈ hs, Images.Proper header)
    (hcopies : p.copies = note_headers hs) (hfile : c.file = some file)
    (hresult : k.result = some view) (hshared : c.shared = some shared)
    (hvalidate : c.flags &&& MAP_TYPE ≠ MAP_SHARED_VALIDATE) :
    Views c k file view hs (kernel_mmap c k p.space).2 (mmap c k p).2.space := by
  have hkernel : kernel_mmap c k p.space = (some view,
      p.space.map view.toNat c.pages file c.offset.toNat shared c.prot) := by
    rw [kernel_mmap, hresult, hshared, hfile]
  have hbit := private_bit hshared hvalidate
  unfold mmap
  rw [hkernel, hfile]
  dsimp only
  generalize hplain : p.space.map view.toNat c.pages file c.offset.toNat shared c.prot = plain
  have hcells : ∀ a, view.toNat ≤ a ∧ a < view.toNat + c.pages →
      plain.cells a = some ⟨file, c.offset.toNat + (a - view.toNat), shared, c.prot, none⟩ :=
    fun a ha => by
      rw [← hplain]
      exact if_pos ha
  have hsame : ¬Rewrites c k file view plain hs → Views c k file view hs plain plain :=
    .same hshared fun a ha => congrArg (Option.map Cell.shared) (hcells a ha)
  by_cases hread : c.prot &&& PROT_READ ≠ 0
  · rw [if_pos hread]
    by_cases hoffset : c.offset = 0
    · -- The header may be noted; the view is one of the whole file.
      have hspace : (if c.flags &&& MAP_FIXED ≠ 0 ∧ c.flags &&& MAP_PRIVATE ≠ 0 then
          after_image_map c k file view { p with space := plain, generation := p.generation + 1 }
        else { p with space := plain, generation := p.generation + 1 }).space = plain := by
        split
        · exact after_image_map_header hoffset
        · rfl
      revert hspace
      generalize (if c.flags &&& MAP_FIXED ≠ 0 ∧ c.flags &&& MAP_PRIVATE ≠ 0 then
          after_image_map c k file view { p with space := plain, generation := p.generation + 1 }
        else { p with space := plain, generation := p.generation + 1 }) = q
      rintro rfl
      by_cases hview : c.offset = 0 ∧ c.length.toNat ≥ MIN_FILE_VIEW ∧ c.prot &&& PROT_EXEC = 0
      · rw [if_pos hview]
        refine .of (r := DataView c k file view q.space) ⟨fun h => ?_, fun h => ?_⟩
          (after_file_map_spec hoffset hplain.symm) fun htrue a ha =>
            after_file_map_shared hoffset hplain.symm
              (Option.some.inj (hshared.symm.trans htrue)) ha
        · exact ⟨h.1, hread, Or.inl ⟨hoffset, hview.2.1, hview.2.2, h.2.1, h.2.2⟩⟩
        · rcases h.2.2 with h' | h'
          · exact ⟨h.1, h'.2.2.2.1, h'.2.2.2.2⟩
          · exact absurd hoffset h'.1
      · rw [if_neg hview]
        refine hsame fun h => ?_
        rcases h.2.2 with h' | h'
        · exact hview ⟨hoffset, h'.2.1, h'.2.2.1⟩
        · exact h'.1 hoffset
    · rw [if_neg fun h => hoffset h.1]
      by_cases hfixed : c.flags &&& MAP_FIXED ≠ 0 ∧ c.flags &&& MAP_PRIVATE ≠ 0
      · rw [if_pos hfixed]
        obtain rfl := hbit.mp hfixed.2
        have hprivate : plain.Private view.toNat c.pages := by
          rw [← hplain]
          exact Space.private_map _ _ _ _ _ _
        refine .of (r := Section c k file view plain p.copies)
          ⟨fun h => ?_, fun h => ?_⟩
          (after_image_map_spec (p := ⟨plain, p.copies, p.generation + 1⟩) hprivate
            fun a ha => congrArg (Option.map Cell.prot) (hcells a ha))
          fun htrue => absurd (hshared.symm.trans htrue) nofun
        · refine ⟨h.1, hread, Or.inr ⟨hoffset, hfixed.1, hshared, ?_, h.2.2.2⟩⟩
          rw [← inLastCopy_iff hproper, ← hcopies]
          exact h.2.2.1
        · rcases h.2.2 with h' | h'
          · exact absurd h'.1 hoffset
          · refine ⟨h.1, hoffset, ?_, h'.2.2.2.2⟩
            rw [hcopies, inLastCopy_iff hproper]
            exact h'.2.2.2.1
      · rw [if_neg hfixed]
        refine hsame fun h => ?_
        rcases h.2.2 with h' | h'
        · exact hoffset h'.1
        · refine hfixed ⟨h'.2.1, hbit.mpr ?_⟩
          exact Option.some.inj (hshared.symm.trans h'.2.2.1)
  · rw [if_neg hread]
    exact hsame fun h => hread h.2.1

end OneCall

/-- **Views.** In every run, a call of `mmap` leaves the files, the bytes of all other mappings and
what the cells stand for, and its own view shows the file, or the file with Windows tails in its
thunks. It is the latter exactly for a view of a whole PE file and for a section of the last image
of a tracked file that was not the first; and a shared view stays shared exactly if it shows the
file. -/
theorem views_over_runs (content : File → List UInt8) (es : List Event)
    (hproper : ∀ header ∈ headers (start content) es, Images.Proper header) {c : Call} {k : Answers}
    {file : File} {view : UInt64} {shared : Bool} (hfile : c.file = some file)
    (hresult : k.result = some view) (hshared : c.shared = some shared)
    (hvalidate : c.flags &&& MAP_TYPE ≠ MAP_SHARED_VALIDATE) :
    let p := run (start content) es
    Views c k file view (headers (start content) es) (kernel_mmap c k p.space).2
      (mmap c k p).2.space :=
  mmap_views hproper (run_copies _ es) hfile hresult hshared hvalidate

/-- A PE file of four pages. -/
def four_pages : List UInt8 :=
  [0x4d, 0x5a] ++ List.replicate 0x3a 0 ++ [0x40, 0, 0, 0, 0x50, 0x45, 0, 0]
    ++ List.replicate 0x4c 0 ++ [0, 0x50, 0, 0] ++ List.replicate 0x3f6c 0

theorem length_four_pages : four_pages.length = 0x4000 := by
  simp only [four_pages, List.length_append, List.length_replicate, List.length_cons,
    List.length_nil]

/-- Wine's mapping of a header or of a section. -/
def image_call (length offset : UInt64) : Call := ⟨length, 3, 0x12, some ⟨7, 100⟩, offset⟩

/-- A kernel that allows everything. -/
def allows (view : UInt64) : Answers := ⟨some view, true, true, true, true, true⟩

/-- A section of the second image of a file. -/
theorem views_over_runs_second_image :
    let content : File → List UInt8 := fun _ => four_pages
    let es : List Event := [.mmap (image_call 0x200 0) (allows 0x10000),
      .mmap (image_call 0x200 0) (allows 0x20000)]
    let p := run (start content) es
    Views (image_call 0x1000 0x1000) (allows 0x21000) ⟨7, 100⟩ 0x21000 (headers (start content) es)
      (kernel_mmap (image_call 0x1000 0x1000) (allows 0x21000) p.space).2
      (mmap (image_call 0x1000 0x1000) (allows 0x21000) p).2.space :=
  views_over_runs (fun _ => four_pages) [.mmap (image_call 0x200 0) (allows 0x10000),
    .mmap (image_call 0x200 0) (allows 0x20000)] (by decide +kernel) rfl rfl rfl (by decide)

/-! ## Reads -/

/-- What looks like a PE file begins with `MZ`. -/
theorem magic_of_pe {bytes : List UInt8} (h : looks_like_pe_file bytes = true) :
    bytes.take 2 = [0x4d, 0x5a] := by
  unfold looks_like_pe_file at h
  split at h
  · cases h
  · rename_i hmagic
    rw [not_or, not_not] at hmagic
    exact hmagic.2

/-- A read of a whole file shows Windows tails if it is a PE file. -/
theorem after_file_read_eq {buffer : List UInt8} (hsize : MIN_FILE_READ ≤ buffer.length) :
    after_file_read true true buffer = if looks_like_pe_file buffer = true then
      (rewrite_syscall_thunk_tails buffer).1 else buffer := by
  unfold after_file_read rewrite_complete_pe_read
  rw [if_neg (not_lt.mpr hsize)]
  cases hpe : looks_like_pe_file buffer with
  | true =>
    rw [if_neg (not_not.mpr (magic_of_pe hpe)), Bool.not_true, if_neg Bool.false_ne_true,
      if_neg Bool.false_ne_true, if_neg fun h => h.elim (not_lt.mpr hsize) Bool.false_ne_true,
      if_pos rfl]
  | false =>
    rw [if_neg Bool.false_ne_true, Bool.not_false, Bool.not_true, if_neg Bool.false_ne_true,
      if_neg Bool.false_ne_true, if_pos (Or.inr rfl)]
    exact ite_self _

/-- A fresh mapping of a whole file shows the file. -/
theorem bytes_map_whole (s : Space File UInt32) (start length : ℕ) (file : File) (shared : Bool)
    (prot : UInt32) (hlength : (s.content file).length ≤ length) :
    (s.map start length file 0 shared prot).bytes start (s.content file).length
      = s.content file := by
  refine List.ext_getElem? fun i => ?_
  by_cases hi : i < (s.content file).length
  · rw [Space.getElem?_bytes hi, Space.byte_map (by omega), Option.getD_some,
      Nat.add_sub_cancel_left, Nat.zero_add, List.getD_eq_getElem?_getD,
      List.getElem?_eq_getElem hi]
    rfl
  · rw [List.getElem?_eq_none (by rw [Space.length_bytes]; omega),
      List.getElem?_eq_none (by omega)]

/-- **Reading and mapping agree.** In every run, a view of a whole regular file of the game process
shows what a read of the whole file gives. -/
theorem view_shows_what_read_gives (content : File → List UInt8) (es : List Event)
    (hproper : ∀ header ∈ headers (start content) es, Images.Proper header) {c : Call} {k : Answers}
    {file : File} {view : UInt64} {shared : Bool} (hfile : c.file = some file)
    (hresult : k.result = some view) (hshared : c.shared = some shared)
    (hvalidate : c.flags &&& MAP_TYPE ≠ MAP_SHARED_VALIDATE) (hoffset : c.offset = 0)
    (hread : c.prot &&& PROT_READ ≠ 0) (hexec : c.prot &&& PROT_EXEC = 0)
    (hreplaces : k.replaces = true)
    (hcandidate : Candidate k file (run (start content) es).space)
    (hwhole : ((run (start content) es).space.content file).length ≤ c.length.toNat) :
    let p := run (start content) es
    (mmap c k p).2.space.bytes view.toNat (p.space.content file).length
      = after_file_read true true (p.space.content file) := by
  have hcopies := run_copies (start content) es
  revert hcopies hcandidate hwhole
  generalize headers (start content) es = hs at hproper
  generalize run (start content) es = p
  intro hcandidate hwhole hcopies
  obtain ⟨new, hleaves, hrewrites, hsame, -⟩ :=
    mmap_views hproper hcopies hfile hresult hshared hvalidate
  have hkernel : kernel_mmap c k p.space = (some view,
      p.space.map view.toNat c.pages file 0 shared c.prot) := by
    rw [kernel_mmap, hresult, hshared, hfile, hoffset]
    rfl
  rw [hkernel] at hleaves hrewrites hsame
  dsimp only at hleaves hrewrites hsame
  have hbacked : backed c file (p.space.map view.toNat c.pages file 0 shared c.prot)
      = (p.space.content file).length := by
    rw [backed, hoffset]
    exact Nat.min_eq_right hwhole
  have hbytes := bytes_map_whole p.space view.toNat c.pages file shared c.prot
    (hwhole.trans (length_le_pages c))
  rw [hbacked, hbytes] at hrewrites
  rw [hbacked, hbytes] at hsame
  dsimp only
  rw [← hbacked, hleaves.bytes, after_file_read_eq (le_trans (by decide) hcandidate.2.2)]
  cases hpe : looks_like_pe_file (p.space.content file) with
  | true =>
    rw [if_pos rfl]
    refine hrewrites ⟨hcandidate, hread, Or.inl ⟨hoffset, hcandidate.2.2.trans hwhole, hexec, ?_,
      hreplaces⟩⟩
    rw [hbacked, hbytes]
    exact hpe
  | false =>
    rw [if_neg Bool.false_ne_true]
    refine hsame fun h => ?_
    rcases h.2.2 with h' | h'
    · have hlooks := h'.2.2.2.1
      rw [hbacked, hbytes] at hlooks
      exact Bool.false_ne_true (hpe.symm.trans hlooks)
    · exact h'.1 hoffset

theorem view_shows_what_read_gives_once :
    let p := run (start fun _ => four_pages) []
    (mmap ⟨0x4000, 1, 1, some ⟨7, 100⟩, 0⟩ (allows 0x10000) p).2.space.bytes
      (0x10000 : UInt64).toNat (p.space.content ⟨7, 100⟩).length
        = after_file_read true true (p.space.content ⟨7, 100⟩) :=
  view_shows_what_read_gives (fun _ => four_pages) [] nofun rfl rfl rfl (by decide) rfl (by decide)
    (by decide) rfl ⟨rfl, rfl, length_four_pages.ge⟩ length_four_pages.le

end Linuwux.PeViews
