/-
`ImageCopies.lean` -- the image tracker of `runtime/src/syscall/pe_stub_layout.rs`.

`IMAGE_COPIES` has 64 slots, four parallel arrays of words. A header mapping of a file takes a
slot the first time, and moves the range of the file's slot every other time. The functions
here are the calls one after another; `ImageCopiesThreads.lean` has their single steps.

What the tracker is for needs no slots: the first 64 files that come along are tracked
([`tracked`]), and the range of a file is that of its last header but the first ([`copies`]).
[`Shows`] says that the arrays hold just this.
-/
import Linuwux.ProcMem
import Mathlib.Data.List.Induction

set_option autoImplicit false

namespace Linuwux.Images

open ProcMem (saturating_add)

/-! ## The calls -/

def IMAGE_TRACK_SLOTS : ℕ := 64

/-- An index of the four arrays. -/
abbrev Slot := Fin IMAGE_TRACK_SLOTS

@[ext] structure File where
  device : UInt64
  inode : UInt64
  deriving DecidableEq, Repr

/-- The arguments of a call of `note_header`. -/
structure Header extends File where
  base : UInt64
  image_size : UInt64
  deriving DecidableEq, Repr

structure ImageCopies where
  device : Slot → UInt64
  inode : Slot → UInt64
  copy_start : Slot → UInt64
  copy_end : Slot → UInt64

/-- `IMAGE_COPIES` at first. -/
def ImageCopies.new : ImageCopies := ⟨fun _ => 0, fun _ => 0, fun _ => 0, fun _ => 0⟩

def slot (s : ImageCopies) (file : File) : Option Slot :=
  (List.finRange IMAGE_TRACK_SLOTS).find? fun index =>
    s.inode index = file.inode ∧ s.device index = file.device

/-- The loop of `note_header`, over the slots that are left. -/
def claim_loop (s : ImageCopies) (file : File) : List Slot → ImageCopies
  | [] => s
  | index :: rest =>
    if s.inode index = 0 then
      { device := Function.update s.device index file.device
        inode := Function.update s.inode index file.inode
        copy_start := Function.update s.copy_start index 0
        copy_end := Function.update s.copy_end index 0 }
    else claim_loop s file rest

def note_header (s : ImageCopies) (header : Header) : Bool × ImageCopies :=
  match slot s header.toFile with
  | some index =>
    (true, { s with
      copy_start := Function.update s.copy_start index header.base
      copy_end := Function.update s.copy_end index
        (saturating_add header.base header.image_size.toNat) })
  | none => (false, claim_loop s header.toFile (List.finRange IMAGE_TRACK_SLOTS))

def in_copy (s : ImageCopies) (file : File) (address length : UInt64) : Bool :=
  match slot s file with
  | none => false
  | some index =>
    s.copy_start index ≠ 0 ∧ address ≥ s.copy_start index
      ∧ saturating_add address length.toNat ≤ s.copy_end index

/-- Calls of `note_header` one after another. -/
def note_headers (headers : List Header) : ImageCopies :=
  headers.foldl (fun s header => (note_header s header).2) .new

theorem note_headers_concat (headers : List Header) (header : Header) :
    note_headers (headers ++ [header]) = (note_header (note_headers headers) header).2 := by
  unfold note_headers
  rw [List.foldl_append]
  rfl

/-! ## What is tracked -/

/-- Some slot has the file. -/
def Tracks (s : ImageCopies) (file : File) : Prop :=
  ∃ index, s.inode index = file.inode ∧ s.device index = file.device

/-- The files in the order in which they came along. -/
def files (headers : List Header) : List File := (headers.map Header.toFile).eraseDups

/-- The files that got a slot. -/
def tracked (headers : List Header) : List File := (files headers).take IMAGE_TRACK_SLOTS

/-- The headers of a file but the first. -/
def copies (headers : List Header) (file : File) : List Header :=
  (headers.filter fun header => header.toFile = file).drop 1

/-- The range of a file, zeros if it has no copies. -/
def range (headers : List Header) (file : File) : UInt64 × UInt64 :=
  match (copies headers file).getLast? with
  | some copy => (copy.base, saturating_add copy.base copy.image_size.toNat)
  | none => (0, 0)

theorem mem_files {headers : List Header} {file : File} :
    file ∈ files headers ↔ ∃ header ∈ headers, header.toFile = file := by
  unfold files
  rw [List.mem_eraseDups, List.mem_map]

theorem files_concat (headers : List Header) (header : Header) :
    files (headers ++ [header])
      = if header.toFile ∈ files headers then files headers
        else files headers ++ [header.toFile] := by
  have hmem : header.toFile ∈ files headers ↔ header.toFile ∈ headers.map Header.toFile :=
    List.mem_eraseDups
  have happ : files (headers ++ [header]) = files headers
      ++ ([header.toFile].removeAll (headers.map Header.toFile)).eraseDups := by
    unfold files
    rw [List.map_append, List.eraseDups_append]
    rfl
  rw [happ, List.cons_removeAll, List.nil_removeAll]
  by_cases h : header.toFile ∈ headers.map Header.toFile
  · rw [if_pos (hmem.mpr h), List.contains_iff_mem.mpr h]
    exact List.append_nil _
  · rw [if_neg (fun hf => h (hmem.mp hf)), if_pos (by simpa using h)]
    rfl

theorem nodup_files (headers : List Header) : (files headers).Nodup := by
  induction headers using List.reverseRecOn with
  | nil => exact List.nodup_nil
  | append_singleton headers header ih =>
    rw [files_concat]
    split
    · exact ih
    · rename_i hmem
      exact List.nodup_append.mpr ⟨ih, List.nodup_singleton _, fun a ha b hb => by
        rw [List.mem_singleton.mp hb]
        rintro rfl
        exact hmem ha⟩

/-- Once 64 files have come along, the tracked ones are final. -/
theorem tracked_append {headers : List Header} (h : IMAGE_TRACK_SLOTS ≤ (files headers).length)
    (later : List Header) : tracked (headers ++ later) = tracked headers := by
  have hpre : files headers <+: files (headers ++ later) := by
    unfold files
    rw [List.map_append, List.eraseDups_append]
    exact List.prefix_append _ _
  obtain ⟨more, hmore⟩ := hpre
  unfold tracked
  rw [← hmore, List.take_append_of_le_length h]

theorem tracked_concat_of_mem {headers : List Header} {header : Header}
    (h : header.toFile ∈ tracked headers) : tracked (headers ++ [header]) = tracked headers := by
  unfold tracked
  rw [files_concat, if_pos (List.mem_of_mem_take h)]

/-- A file that is not tracked gets the next slot, while there is one. -/
theorem tracked_concat_of_not_mem {headers : List Header} {header : Header}
    (h : header.toFile ∉ tracked headers) (hlt : (files headers).length < IMAGE_TRACK_SLOTS) :
    tracked headers = files headers ∧ header.toFile ∉ files headers
      ∧ tracked (headers ++ [header]) = tracked headers ++ [header.toFile] := by
  have hall : tracked headers = files headers := List.take_of_length_le hlt.le
  rw [hall] at h
  refine ⟨hall, h, ?_⟩
  unfold tracked
  rw [files_concat, if_neg h, List.take_of_length_le hlt.le, List.take_of_length_le]
  rw [List.length_append]
  exact hlt

/-! ## Ranges -/

theorem copies_concat_of_ne {headers : List Header} {header : Header} {file : File}
    (h : header.toFile ≠ file) : copies (headers ++ [header]) file = copies headers file := by
  unfold copies
  rw [List.filter_append, List.filter_singleton, decide_eq_false h]
  simp

/-- A header of a file that has come along before is a copy. -/
theorem copies_concat_self {headers : List Header} {header : Header}
    (h : header.toFile ∈ files headers) :
    copies (headers ++ [header]) header.toFile = copies headers header.toFile ++ [header] := by
  obtain ⟨first, hfirst, heq⟩ := mem_files.mp h
  unfold copies
  rw [List.filter_append, List.filter_singleton, decide_eq_true rfl, List.drop_append_of_le_length]
  · rfl
  · exact List.length_pos_of_mem (List.mem_filter.mpr ⟨hfirst, decide_eq_true heq⟩)

theorem range_concat_of_ne {headers : List Header} {header : Header} {file : File}
    (h : header.toFile ≠ file) : range (headers ++ [header]) file = range headers file := by
  unfold range
  rw [copies_concat_of_ne h]

theorem range_concat_self {headers : List Header} {header : Header}
    (h : header.toFile ∈ files headers) : range (headers ++ [header]) header.toFile
      = (header.base, saturating_add header.base header.image_size.toNat) := by
  unfold range
  rw [copies_concat_self h, List.getLast?_concat]

/-- The first header of a file is no copy. -/
theorem range_concat_first {headers : List Header} {header : Header}
    (h : header.toFile ∉ files headers) :
    range (headers ++ [header]) header.toFile = (0, 0) := by
  have hnil : headers.filter (fun header' => header'.toFile = header.toFile) = [] := by
    rw [List.filter_eq_nil_iff]
    intro header' hmem heq
    exact h (mem_files.mpr ⟨header', hmem, of_decide_eq_true heq⟩)
  unfold range copies
  rw [List.filter_append, hnil, List.filter_singleton, decide_eq_true rfl]
  rfl

/-! ## The arrays -/

def ImageCopies.file (s : ImageCopies) (index : Slot) : File := ⟨s.device index, s.inode index⟩

/-- The arrays show what is tracked: the files in their order, then free slots. -/
structure Shows (s : ImageCopies) (headers : List Header) : Prop where
  slots : ∀ index, s.file index = (tracked headers)[index.val]?.getD ⟨0, 0⟩
  ranges : ∀ index, (s.copy_start index, s.copy_end index) = range headers (s.file index)

/-- What the callers promise: a file has an inode, and no header is mapped at zero. -/
def Proper (header : Header) : Prop := header.inode ≠ 0 ∧ header.base ≠ 0

instance (header : Header) : Decidable (Proper header) := inferInstanceAs (Decidable (_ ∧ _))

section Shows

variable {s : ImageCopies} {headers : List Header}

theorem Shows.file_eq (h : Shows s headers) {file : File} (hfile : file.inode ≠ 0)
    {index : Slot} : s.file index = file ↔ (tracked headers)[index.val]? = some file := by
  rw [h.slots]
  cases (tracked headers)[index.val]? with
  | none => exact iff_of_false (fun heq => hfile (congrArg File.inode heq).symm) nofun
  | some other => exact Option.some_inj.symm

theorem Shows.unique (h : Shows s headers) {file : File} (hfile : file.inode ≠ 0)
    {i j : Slot} (hi : s.file i = file) (hj : s.file j = file) : i = j := by
  have hi := (h.file_eq hfile).mp hi
  have hj := (h.file_eq hfile).mp hj
  have hlt : i.val < (tracked headers).length := (List.getElem?_eq_some_iff.mp hi).1
  have hnodup : (tracked headers).Nodup := (nodup_files headers).sublist (List.take_sublist _ _)
  exact Fin.ext ((List.getElem?_inj hlt hnodup).mp (hi.trans hj.symm))

theorem tracks_iff {file : File} : Tracks s file ↔ ∃ index, s.file index = file := by
  unfold Tracks ImageCopies.file
  simp only [File.ext_iff, and_comm]

theorem Shows.tracks (h : Shows s headers) {file : File} (hfile : file.inode ≠ 0) :
    Tracks s file ↔ file ∈ tracked headers := by
  rw [tracks_iff, List.mem_iff_getElem?]
  constructor
  · rintro ⟨index, hindex⟩
    exact ⟨index.val, (h.file_eq hfile).mp hindex⟩
  · rintro ⟨i, hi⟩
    have hlt : i < (tracked headers).length := (List.getElem?_eq_some_iff.mp hi).1
    have hle : (tracked headers).length ≤ IMAGE_TRACK_SLOTS := List.length_take_le _ _
    exact ⟨⟨i, hlt.trans_le hle⟩, (h.file_eq hfile).mpr hi⟩

/-! ## One call -/

theorem slot_eq_some {file : File} {index : Slot} (h : slot s file = some index) :
    s.file index = file := by
  have hfound := List.find?_some h
  obtain ⟨hinode, hdevice⟩ := of_decide_eq_true hfound
  exact File.ext hdevice hinode

theorem slot_eq_none {file : File} : slot s file = none ↔ ¬ Tracks s file := by
  unfold slot Tracks
  rw [List.find?_eq_none]
  simp

/-- The slot of a file that is not tracked yet. -/
def ImageCopies.claim (s : ImageCopies) (file : File) (index : Slot) : ImageCopies where
  device := Function.update s.device index file.device
  inode := Function.update s.inode index file.inode
  copy_start := Function.update s.copy_start index 0
  copy_end := Function.update s.copy_end index 0

theorem claim_loop_eq (file : File) (slots : List Slot) :
    claim_loop s file slots = match slots.find? (fun index => s.inode index = 0) with
      | some index => s.claim file index
      | none => s := by
  induction slots with
  | nil => rfl
  | cons index rest ih =>
    rw [claim_loop]
    by_cases h : s.inode index = 0
    · rw [if_pos h, List.find?_cons_of_pos (by simpa using h)]
      rfl
    · rw [if_neg h, List.find?_cons_of_neg (by simpa using h), ih]

/-- The first free slot is the one after those of the tracked files. -/
theorem Shows.free (h : Shows s headers) (hproper : ∀ header ∈ headers, Proper header)
    (index : Slot) : s.inode index = 0 ↔ (tracked headers).length ≤ index.val := by
  have hfile : s.inode index = (s.file index).inode := rfl
  rw [hfile, h.slots, ← not_lt]
  by_cases hlt : index.val < (tracked headers).length
  · rw [List.getElem?_eq_getElem hlt]
    obtain ⟨header, hheader, heq⟩ :=
      mem_files.mp (List.mem_of_mem_take (List.getElem_mem hlt))
    refine iff_of_false ?_ (not_not.mpr hlt)
    rw [Option.getD_some, ← heq]
    exact (hproper header hheader).1
  · rw [List.getElem?_eq_none (not_lt.mp hlt)]
    exact iff_of_true rfl hlt

theorem Shows.first_free (h : Shows s headers) (hproper : ∀ header ∈ headers, Proper header)
    {index : Slot}
    (hfind : (List.finRange IMAGE_TRACK_SLOTS).find? (fun index => s.inode index = 0)
      = some index) : index.val = (tracked headers).length := by
  obtain ⟨hzero, i, hi, rfl, hbefore⟩ := List.find?_eq_some_iff_getElem.mp hfind
  rw [List.getElem_finRange] at hzero ⊢
  have hle : (tracked headers).length ≤ i := (h.free hproper _).mp (of_decide_eq_true hzero)
  by_contra hne
  have hlt : (tracked headers).length < i := lt_of_le_of_ne hle (Ne.symm hne)
  -- A free slot before it would have been found.
  have hnot := hbefore _ hlt
  rw [List.getElem_finRange, Bool.not_eq_true', decide_eq_false_iff_not, h.free hproper] at hnot
  exact hnot le_rfl

/-- A header of a tracked file moves its range. -/
theorem Shows.note_copy (h : Shows s headers) {header : Header} (hheader : Proper header)
    {index : Slot} (hslot : slot s header.toFile = some index) :
    Shows (note_header s header).2 (headers ++ [header]) := by
  have hindex : s.file index = header.toFile := slot_eq_some hslot
  have hmem : header.toFile ∈ tracked headers :=
    (h.tracks hheader.1).mp (tracks_iff.mpr ⟨index, hindex⟩)
  unfold note_header
  rw [hslot]
  refine ⟨fun j => ?_, fun j => ?_⟩
  · rw [tracked_concat_of_mem hmem]
    exact h.slots j
  · by_cases hj : j = index
    · rw [hj]
      change (Function.update s.copy_start index _ index, Function.update s.copy_end index _ index)
        = range (headers ++ [header]) (s.file index)
      rw [hindex, range_concat_self (List.mem_of_mem_take hmem), Function.update_self,
        Function.update_self]
    · change (Function.update s.copy_start index _ j, Function.update s.copy_end index _ j)
        = range (headers ++ [header]) (s.file j)
      rw [Function.update_of_ne hj, Function.update_of_ne hj, h.ranges, range_concat_of_ne]
      intro heq
      exact hj (h.unique hheader.1 heq.symm hindex)

/-- A file that is not tracked may have the first free slot. -/
theorem Shows.claim (h : Shows s headers) {header : Header}
    (hnot : header.toFile ∉ tracked headers) {index : Slot}
    (hindex : index.val = (tracked headers).length)
    (hrange : ∀ j, range (headers ++ [header]) (s.file j) = range headers (s.file j)) :
    Shows (s.claim header.toFile index) (headers ++ [header]) := by
  have hlt : (files headers).length < IMAGE_TRACK_SLOTS := by
    by_contra hge
    have hlen : (tracked headers).length = IMAGE_TRACK_SLOTS :=
      List.length_take_of_le (not_lt.mp hge)
    exact absurd index.isLt (by rw [hindex, hlen]; exact lt_irrefl _)
  obtain ⟨-, hnew, htracked⟩ := tracked_concat_of_not_mem hnot hlt
  have hself : (s.claim header.toFile index).file index = header.toFile :=
    File.ext (Function.update_self ..) (Function.update_self ..)
  have hother : ∀ {j}, j ≠ index → (s.claim header.toFile index).file j = s.file j :=
    fun hj => File.ext (Function.update_of_ne hj ..) (Function.update_of_ne hj ..)
  refine ⟨fun j => ?_, fun j => ?_⟩
  · by_cases hj : j = index
    · rw [hj, hself, htracked, hindex, List.getElem?_concat_length]
      rfl
    · have hne : j.val ≠ (tracked headers).length := fun heq => hj (Fin.ext (heq.trans hindex.symm))
      rw [hother hj, h.slots, htracked, List.getElem?_append, List.getElem?_singleton]
      split
      · rfl
      · rename_i hge
        rw [List.getElem?_eq_none (not_lt.mp hge), if_neg (by omega)]
  · by_cases hj : j = index
    · rw [hj, hself, range_concat_first hnew]
      exact Prod.ext (Function.update_self ..) (Function.update_self ..)
    · rw [hother hj, hrange, ← h.ranges]
      exact Prod.ext (Function.update_of_ne hj ..) (Function.update_of_ne hj ..)

/-- A header of another file takes the first free slot, if there is one. -/
theorem Shows.note_first (h : Shows s headers) (hproper : ∀ header ∈ headers, Proper header)
    {header : Header} (hheader : Proper header) (hslot : slot s header.toFile = none) :
    Shows (note_header s header).2 (headers ++ [header]) := by
  have hnot : header.toFile ∉ tracked headers := by
    rw [← h.tracks hheader.1]
    exact slot_eq_none.mp hslot
  have hrange : ∀ j, range (headers ++ [header]) (s.file j) = range headers (s.file j) := by
    intro j
    refine range_concat_of_ne fun heq => slot_eq_none.mp hslot ?_
    exact tracks_iff.mpr ⟨j, heq.symm⟩
  unfold note_header
  rw [hslot]
  change Shows (claim_loop s header.toFile (List.finRange IMAGE_TRACK_SLOTS)) _
  rw [claim_loop_eq]
  cases hfind : (List.finRange IMAGE_TRACK_SLOTS).find? (fun index => s.inode index = 0) with
  | none =>
    -- There is no free slot, so 64 files have come along.
    have hfull : IMAGE_TRACK_SLOTS ≤ (files headers).length := by
      by_contra hlt
      have hall : tracked headers = files headers := List.take_of_length_le (not_le.mp hlt).le
      have hslot := List.find?_eq_none.mp hfind ⟨(files headers).length, not_le.mp hlt⟩
        (List.mem_finRange _)
      rw [decide_eq_true_eq, h.free hproper, hall] at hslot
      exact hslot le_rfl
    refine ⟨fun j => ?_, fun j => ?_⟩
    · rw [tracked_append hfull]
      exact h.slots j
    · rw [hrange]
      exact h.ranges j
  | some index => exact h.claim hnot (h.first_free hproper hfind) hrange

theorem Shows.note_header (h : Shows s headers) (hproper : ∀ header ∈ headers, Proper header)
    {header : Header} (hheader : Proper header) :
    Shows (Images.note_header s header).2 (headers ++ [header]) := by
  cases hslot : slot s header.toFile with
  | some index => exact h.note_copy hheader hslot
  | none => exact h.note_first hproper hheader hslot

end Shows

/-! ## Sequences of calls -/

theorem shows_note_headers {headers : List Header} (hproper : ∀ header ∈ headers, Proper header) :
    Shows (note_headers headers) headers := by
  induction headers using List.reverseRecOn with
  | nil => exact ⟨fun _ => rfl, fun _ => rfl⟩
  | append_singleton headers header ih =>
    rw [note_headers_concat]
    have hold : ∀ header ∈ headers, Proper header :=
      fun header hmem => hproper header (List.mem_append_left _ hmem)
    exact (ih hold).note_header hold (hproper header List.mem_concat_self)

/-- A call tells whether its file is tracked. -/
theorem note_header_fst (s : ImageCopies) (header : Header) :
    (note_header s header).1 = false ↔ ¬ Tracks s header.toFile := by
  rw [← slot_eq_none]
  unfold note_header
  cases slot s header.toFile with
  | some index => exact iff_of_false nofun nofun
  | none => exact iff_of_true rfl rfl

/-- The range that is reported is that of the last copy. -/
theorem in_copy_iff {headers : List Header} (hproper : ∀ header ∈ headers, Proper header)
    (file : File) (address length : UInt64) :
    in_copy (note_headers headers) file address length
      ↔ Tracks (note_headers headers) file ∧ ∃ copy, (copies headers file).getLast? = some copy
        ∧ copy.base ≤ address ∧ saturating_add address length.toNat
          ≤ saturating_add copy.base copy.image_size.toNat := by
  have h := shows_note_headers hproper
  unfold in_copy
  cases hslot : slot (note_headers headers) file with
  | none => exact iff_of_false nofun fun hr => slot_eq_none.mp hslot hr.1
  | some index =>
    have hindex := slot_eq_some hslot
    have hrange := h.ranges index
    rw [hindex] at hrange
    have hstart : (note_headers headers).copy_start index = (range headers file).1 :=
      congrArg Prod.fst hrange
    have hend : (note_headers headers).copy_end index = (range headers file).2 :=
      congrArg Prod.snd hrange
    dsimp only
    rw [hstart, hend, decide_eq_true_iff, and_iff_right (tracks_iff.mpr ⟨index, hindex⟩)]
    unfold range
    cases hlast : (copies headers file).getLast? with
    | none => exact iff_of_false (fun hne => hne.1 rfl) nofun
    | some copy =>
      have hmem : copy ∈ headers :=
        List.mem_of_mem_filter (List.mem_of_mem_drop (List.mem_of_getLast? hlast))
      constructor
      · rintro ⟨-, hge, hle⟩
        exact ⟨copy, rfl, hge, hle⟩
      · rintro ⟨copy', heq, hge, hle⟩
        cases heq
        exact ⟨(hproper copy hmem).2, hge, hle⟩

/-- **The image tracker.** After any calls for proper headers, one more returns false exactly
if its file is not tracked; the tracked files are the first 64 that came along, and once there
are as many the others stay out; and `in_copy` reports just what is inside the range of the
last header of a tracked file that was not its first. -/
theorem image_copies (headers : List Header) (hproper : ∀ header ∈ headers, Proper header) :
    (∀ header, Proper header → ((note_header (note_headers headers) header).1 = false
        ↔ ¬ Tracks (note_headers headers) header.toFile))
      ∧ (∀ file : File, file.inode ≠ 0 →
          (Tracks (note_headers headers) file ↔ file ∈ (files headers).take IMAGE_TRACK_SLOTS))
      ∧ (∀ file : File, file.inode ≠ 0 → IMAGE_TRACK_SLOTS ≤ (files headers).length →
          ¬ Tracks (note_headers headers) file → ∀ later, (∀ header ∈ later, Proper header) →
            ¬ Tracks (note_headers (headers ++ later)) file)
      ∧ ∀ file address length, in_copy (note_headers headers) file address length
        ↔ Tracks (note_headers headers) file ∧ ∃ copy, (copies headers file).getLast? = some copy
          ∧ copy.base ≤ address ∧ saturating_add address length.toNat
            ≤ saturating_add copy.base copy.image_size.toNat := by
  have h := shows_note_headers hproper
  refine ⟨fun header _ => note_header_fst _ header, fun file hfile => h.tracks hfile, ?_,
    in_copy_iff hproper⟩
  intro file hfile hfull hnot later hlater
  have hall : ∀ header ∈ headers ++ later, Proper header := by
    intro header hmem
    rcases List.mem_append.mp hmem with hmem | hmem
    · exact hproper header hmem
    · exact hlater header hmem
  rw [(shows_note_headers hall).tracks hfile, tracked_append hfull, ← h.tracks hfile]
  exact hnot

/-- A second load of one file: the library's own is no copy, the other is. -/
theorem image_copies_of_second_load :
    (note_header (note_headers []) ⟨⟨7, 100⟩, 0x6fffffef0000, 0xb9000⟩).1 = false
      ∧ in_copy (note_headers [⟨⟨7, 100⟩, 0x6fffffef0000, 0xb9000⟩,
        ⟨⟨7, 100⟩, 0x7fffff060000, 0xb9000⟩]) ⟨7, 100⟩ 0x7fffff0d8000 0x5000 := by
  have hnone := image_copies [] (by decide)
  have htwo := image_copies [⟨⟨7, 100⟩, 0x6fffffef0000, 0xb9000⟩,
    ⟨⟨7, 100⟩, 0x7fffff060000, 0xb9000⟩] (by decide)
  constructor
  · refine (hnone.1 _ (by decide)).mpr fun htracks => ?_
    have hmem := (hnone.2.1 ⟨7, 100⟩ (by decide)).mp htracks
    exact absurd hmem (by decide)
  · have htracks := (htwo.2.1 ⟨7, 100⟩ (by decide)).mpr (by decide)
    exact (htwo.2.2.2 _ _ _).mpr ⟨htracks, _, rfl, by decide, by decide⟩

end Linuwux.Images
