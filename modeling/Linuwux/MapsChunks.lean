/-
`MapsChunks.lean` -- `find_line` of `maps.rs`, as it reads.

`read` gives `/proc/self/maps` in chunks of at most 4096 bytes, and ends it with a result that is
not positive. A line is collected byte by byte in a buffer of 1024 bytes, over the ends of chunks;
a longer line sets a flag and is dropped at its end. What the loop has collected of a line is the
line's first 1024 bytes, and whether there are more ([`lines_from_eq`]), so it hands on the lines
that fit, as if the file had been read at once ([`find_line_spec`], [`find_line_whole`]).

`visit` is a closure, which may change its state at every call; the calls are recorded.
-/
import Linuwux.Maps

set_option autoImplicit false

namespace Linuwux.MapsChunks

open Maps (LINE_CAPACITY)

variable {σ : Type*}

/-! ## The closure -/

/-- What has been made of `visit`: whether the last call returned `true`, the state of the closure,
and the lines it was called with. -/
structure Visits (σ : Type*) where
  found : Bool
  state : σ
  calls : List (List UInt8)
  deriving DecidableEq

variable (visit : σ → List UInt8 → Bool × σ)

def Visits.call (v : Visits σ) (line : List UInt8) : Visits σ :=
  ⟨(visit v.state line).1, (visit v.state line).2, v.calls ++ [line]⟩

/-- Calls with one line after the other, up to the first that returns `true`. -/
def search (v : Visits σ) : List (List UInt8) → Visits σ
  | [] => v
  | line :: rest => if (v.call visit line).found then v.call visit line
      else search (v.call visit line) rest

/-! ## The loop -/

/-- What a `read` of a positive `count` has put in `chunk[..count]`. -/
structure Chunk where
  bytes : List UInt8
  positive : 1 ≤ bytes.length
  fits : bytes.length ≤ 4096

/-- `line[..length]` and `overflow`. -/
structure Scanner (σ : Type*) where
  line : List UInt8
  overflow : Bool
  visits : Visits σ

/-- The loop over the bytes of a chunk. -/
def scan_bytes (s : Scanner σ) : List UInt8 → Scanner σ
  | [] => s
  | byte :: rest =>
    if byte = 0x0a then
      if s.overflow then scan_bytes ⟨[], false, s.visits⟩ rest
      else if (s.visits.call visit s.line).found then
        -- The rest of the chunk is not looked at, and nothing is read after it.
        ⟨s.line, s.overflow, s.visits.call visit s.line⟩
      else scan_bytes ⟨[], false, s.visits.call visit s.line⟩ rest
    else if s.line.length < LINE_CAPACITY then
      scan_bytes ⟨s.line ++ [byte], s.overflow, s.visits⟩ rest
    else
      -- No room: the byte is dropped, and at its end the line.
      scan_bytes ⟨s.line, true, s.visits⟩ rest

/-- The loop over the results of `read`; the end of the list is the first that is not positive. -/
def scan_chunks (s : Scanner σ) : List Chunk → Scanner σ
  | [] => s
  | chunk :: rest =>
    if (scan_bytes visit s chunk.bytes).visits.found then scan_bytes visit s chunk.bytes
    else scan_chunks (scan_bytes visit s chunk.bytes) rest

/-- The last line may have no newline. -/
def Scanner.finish (s : Scanner σ) : Visits σ :=
  if !s.visits.found && s.line.length != 0 && !s.overflow then s.visits.call visit s.line
  else s.visits

/-- `find_line`, from a state of the closure; `None` is a file that cannot be opened. -/
def find_line (state : σ) (chunks : Option (List Chunk)) : Visits σ :=
  match chunks with
  | none => ⟨false, state, []⟩
  | some chunks => (scan_chunks visit ⟨[], false, ⟨false, state, []⟩⟩ chunks).finish visit

/-! ## The lines of a text -/

/-- What newlines separate; the last line has none, and is one if it is not empty. -/
def text_lines (text : List UInt8) : List (List UInt8) :=
  let pieces := text.splitOn 0x0a
  if pieces.getLast? = some [] then pieces.dropLast else pieces

/-- The lines that fit the buffer. -/
def short_lines (text : List UInt8) : List (List UInt8) :=
  (text_lines text).filter fun line => line.length ≤ LINE_CAPACITY

/-- The bytes of the file. -/
def content (chunks : List Chunk) : List UInt8 := chunks.flatMap Chunk.bytes

theorem text_lines_newline {line : List UInt8} (h : 0x0a ∉ line) (rest : List UInt8) :
    text_lines (line ++ 0x0a :: rest) = line :: text_lines rest := by
  have hne := List.splitOn_ne_nil (0x0a : UInt8) rest
  unfold text_lines
  rw [List.splitOn_append_cons_self_of_not_mem h]
  dsimp only
  rw [List.getLast?_cons_of_ne_nil hne, List.dropLast_cons_of_ne_nil hne]
  split
  · rfl
  · rfl

theorem text_lines_last {line : List UInt8} (h : 0x0a ∉ line) :
    text_lines line = if line = [] then [] else [line] := by
  unfold text_lines
  rw [List.splitOn_eq_singleton h]
  simp

/-! ## What the loop has collected

Of a line that has begun with the bytes `line`, the loop has `line.take LINE_CAPACITY`, and
`overflow` is `LINE_CAPACITY < line.length`. -/

/-- A byte that does not end the line. -/
theorem lines_from_byte {byte : UInt8} (h : byte ≠ 0x0a) (line rest : List UInt8) :
    Maps.lines_from (line.take LINE_CAPACITY) (LINE_CAPACITY < line.length) (byte :: rest)
      = Maps.lines_from ((line ++ [byte]).take LINE_CAPACITY)
          (LINE_CAPACITY < (line ++ [byte]).length) rest := by
  have hlen : (line ++ [byte]).length = line.length + 1 := List.length_append
  rw [Maps.lines_from, if_neg h]
  by_cases hfit : line.length < LINE_CAPACITY
  · have htake : line.take LINE_CAPACITY = line := List.take_of_length_le (Nat.le_of_lt hfit)
    have htake' : (line ++ [byte]).take LINE_CAPACITY = line ++ [byte] :=
      List.take_of_length_le (by omega)
    have hno : ¬ LINE_CAPACITY < line.length := by omega
    have hno' : ¬ LINE_CAPACITY < (line ++ [byte]).length := by omega
    simp only [htake, htake', hno, hno', hfit, if_true]
  · have hfull : ¬ (line.take LINE_CAPACITY).length < LINE_CAPACITY := by
      rw [List.length_take]
      omega
    have htake : (line ++ [byte]).take LINE_CAPACITY = line.take LINE_CAPACITY :=
      List.take_append_of_le_length (by omega)
    have hover : LINE_CAPACITY < (line ++ [byte]).length := by omega
    simp only [hfull, htake, hover, if_false, decide_true]

theorem short_lines_newline {line : List UInt8} (h : 0x0a ∉ line) (rest : List UInt8) :
    short_lines (line ++ 0x0a :: rest)
      = if line.length ≤ LINE_CAPACITY then line :: short_lines rest else short_lines rest := by
  unfold short_lines
  rw [text_lines_newline h, List.filter_cons]
  simp only [decide_eq_true_eq]

theorem short_lines_last {line : List UInt8} (h : 0x0a ∉ line) :
    short_lines line = if line ≠ [] ∧ line.length ≤ LINE_CAPACITY then [line] else [] := by
  unfold short_lines
  rw [text_lines_last h]
  by_cases hne : line = []
  · rw [if_pos hne, if_neg fun hand => hand.1 hne]
    rfl
  · rw [if_neg hne, List.filter_cons]
    by_cases hfit : line.length ≤ LINE_CAPACITY
    · rw [if_pos (decide_eq_true hfit), if_pos ⟨hne, hfit⟩]
      rfl
    · rw [if_neg (by simpa using hfit), if_neg fun hand => hfit hand.2]
      rfl

/-- From what it has of a line the loop hands on the lines that fit, the begun one with the bytes
that come included. The induction is on the bytes; the begun line grows with each of them that is
not a newline. -/
theorem lines_from_eq (bytes : List UInt8) {line : List UInt8} (h : 0x0a ∉ line) :
    Maps.lines_from (line.take LINE_CAPACITY) (LINE_CAPACITY < line.length) bytes
      = short_lines (line ++ bytes) := by
  induction bytes generalizing line with
  | nil =>
    rw [List.append_nil, short_lines_last h, Maps.lines_from]
    by_cases hfit : line.length ≤ LINE_CAPACITY
    · have hno : ¬ LINE_CAPACITY < line.length := Nat.not_lt.mpr hfit
      have htake : line.take LINE_CAPACITY = line := List.take_of_length_le hfit
      simp [htake, hno, hfit]
    · have hover : LINE_CAPACITY < line.length := Nat.lt_of_not_le hfit
      simp [hover, hfit]
  | cons byte rest ih =>
    by_cases hbyte : byte = 0x0a
    · -- The next line begins with nothing.
      have hempty := ih List.not_mem_nil
      rw [List.nil_append] at hempty
      change Maps.lines_from [] false rest = short_lines rest at hempty
      subst hbyte
      rw [Maps.lines_from, if_pos rfl, short_lines_newline h, hempty]
      by_cases hfit : line.length ≤ LINE_CAPACITY
      · have hno : ¬ LINE_CAPACITY < line.length := Nat.not_lt.mpr hfit
        have htake : line.take LINE_CAPACITY = line := List.take_of_length_le hfit
        simp [htake, hno, hfit]
      · have hover : LINE_CAPACITY < line.length := Nat.lt_of_not_le hfit
        simp [hover, hfit]
    · rw [lines_from_byte hbyte, ih (by simpa [h] using Ne.symm hbyte), List.append_assoc]
      rfl

/-- [`Maps.lines`] are the lines that fit. -/
theorem lines_eq (text : List UInt8) : Maps.lines text = short_lines text :=
  lines_from_eq text List.not_mem_nil

/-! ## The loop and its lines -/

variable {visit}

/-- **The loop over bytes** calls `visit` with the lines that are handed on. -/
theorem scan_bytes_finish (s : Scanner σ) (bytes : List UInt8) (hs : s.visits.found = false) :
    (scan_bytes visit s bytes).finish visit
      = search visit s.visits (Maps.lines_from s.line s.overflow bytes) := by
  induction bytes generalizing s with
  | nil =>
    rw [scan_bytes, Maps.lines_from]
    unfold Scanner.finish
    by_cases hlast : s.line ≠ [] ∧ !s.overflow
    · rw [if_pos hlast]
      simp [hs, hlast, search]
    · rw [if_neg hlast, if_neg, search]
      simpa [hs] using hlast
  | cons byte rest ih =>
    rw [scan_bytes, Maps.lines_from]
    by_cases hbyte : byte = 0x0a
    · rw [if_pos hbyte, if_pos hbyte]
      cases hover : s.overflow with
      | true => exact ih ⟨[], false, s.visits⟩ hs
      | false =>
        change (if (s.visits.call visit s.line).found then _ else _ : Scanner σ).finish visit
          = search visit s.visits (s.line :: Maps.lines_from [] false rest)
        rw [search]
        split
        · rename_i hfound
          simp [Scanner.finish, hfound]
        · rename_i hfound
          exact ih ⟨[], false, _⟩ (Bool.eq_false_iff.mpr hfound)
    · rw [if_neg hbyte, if_neg hbyte]
      split
      · exact ih _ hs
      · exact ih _ hs

/-- Where the chunks end plays no role. -/
theorem scan_bytes_append (s : Scanner σ) (bytes bytes' : List UInt8)
    (hs : s.visits.found = false) : scan_bytes visit s (bytes ++ bytes')
      = if (scan_bytes visit s bytes).visits.found then scan_bytes visit s bytes
        else scan_bytes visit (scan_bytes visit s bytes) bytes' := by
  induction bytes generalizing s with
  | nil =>
    rw [scan_bytes, if_neg (Bool.eq_false_iff.mp hs)]
    rfl
  | cons byte rest ih =>
    rw [List.cons_append, scan_bytes, scan_bytes]
    split
    · split
      · exact ih _ hs
      · -- If the search ends here, it ends here in both.
        split
        · rfl
        · rename_i hfound
          exact ih _ (Bool.eq_false_iff.mpr hfound)
    · split
      · exact ih _ hs
      · exact ih _ hs

theorem scan_chunks_eq (s : Scanner σ) (chunks : List Chunk) (hs : s.visits.found = false) :
    scan_chunks visit s chunks = scan_bytes visit s (content chunks) := by
  induction chunks generalizing s with
  | nil => rfl
  | cons chunk rest ih =>
    have hcontent : content (chunk :: rest) = chunk.bytes ++ content rest := List.flatMap_cons
    rw [hcontent, scan_bytes_append s _ _ hs, scan_chunks]
    split
    · rfl
    · rename_i hfound
      exact ih _ (Bool.eq_false_iff.mpr hfound)

variable (visit)

/-- **`find_line` reads lines.** However the file is split into chunks, `visit` is called with the
lines of at most 1024 bytes, one after the other up to the first for which it returns `true`. -/
theorem find_line_spec (state : σ) (chunks : List Chunk) :
    find_line visit state (some chunks)
      = search visit ⟨false, state, []⟩ (short_lines (content chunks)) := by
  unfold find_line
  dsimp only
  rw [scan_chunks_eq _ _ rfl, scan_bytes_finish _ _ rfl, ← lines_eq]
  rfl

/-- A closure without a state is a test of the lines. -/
theorem search_found (visit : List UInt8 → Bool) (lines : List (List UInt8)) {v : Visits Unit}
    (hv : v.found = false) :
    (search (fun _ line => (visit line, ())) v lines).found = lines.any visit := by
  induction lines generalizing v with
  | nil => exact hv
  | cons line rest ih =>
    have hcall : (v.call (fun _ line => (visit line, ())) line).found = visit line := rfl
    rw [search, List.any_cons, hcall]
    cases hfound : visit line with
    | true =>
      rw [if_pos rfl, hcall]
      exact hfound
    | false =>
      rw [if_neg Bool.false_ne_true]
      exact ih (hcall.trans hfound)

/-- It sees the same lines in the text read at once. -/
theorem find_line_whole (visit : List UInt8 → Bool) (chunks : List Chunk) :
    (find_line (fun _ line => (visit line, ())) () (some chunks)).found
      = Maps.find_line (some (content chunks)) visit := by
  rw [find_line_spec, search_found _ _ rfl, ← lines_eq]
  rfl

end Linuwux.MapsChunks
