/-
`DebugLine.lean` -- `Line` of `protocol/debug.rs`, which builds one line of the debug log in a
buffer of 512 bytes.

Every method can index the buffer, so every method can fail: `none` is a panic. A line holds the
first 511 bytes of what it was given, and what that is for a number is said through `Nat.digits`.
-/
import Linuwux.LibC
import Mathlib.Data.Nat.Digits.Lemmas

set_option autoImplicit false

namespace Linuwux.DebugLine

open LibC (b_str)
open Scans (slice slice? overwrite)

def CAPACITY : ℕ := 512

structure Line where
  bytes : List UInt8
  length : ℕ
  size : bytes.length = CAPACITY

namespace Line

/-- `CAPACITY - 1`, saturating, as the last byte is kept for the newline. -/
def remaining (line : Line) : ℕ := CAPACITY - 1 - line.length

/-- `self.bytes[self.length] = byte; self.length += 1`. -/
def put (line : Line) (byte : UInt8) : Option Line :=
  if line.length < CAPACITY then
    some ⟨line.bytes.set line.length byte, line.length + 1, by rw [List.length_set, line.size]⟩
  else none

def push (line : Line) (byte : UInt8) : Option Line :=
  if line.remaining ≠ 0 then line.put byte else some line

def append (line : Line) (text : List UInt8) : Option Line := do
  let count := min text.length line.remaining
  let text ← slice? text 0 count
  -- `copy_from_slice` into a range that has to be in the buffer and as long as the text.
  if h : line.length + count ≤ CAPACITY ∧ text.length = count then
    some ⟨overwrite line.bytes line.length text, line.length + count, by
      rw [Scans.length_overwrite (by rw [line.size, h.2]; exact h.1), line.size]⟩
  else none

/-- The digits in the order of their values. -/
def DIGITS : List UInt8 := b_str "0123456789abcdef"

/-- The loop of `number`, from the place it has come to. It stops, or panics, before the places in
front of the first. -/
def number_loop (base : UInt64) (value : UInt64) (digits : List UInt8) :
    ℕ → Option (List UInt8 × ℕ)
  | 0 => none
  | start + 1 =>
    match DIGITS[(value % base).toNat]? with
    | none => none
    | some digit =>
      if start < digits.length then
        let digits := digits.set start digit
        if value / base = 0 then some (digits, start)
        else number_loop base (value / base) digits start
      else none

def number (line : Line) (value : UInt64) (hex : Bool) : Option Line := do
  let base := if hex then 16 else 10
  let (digits, start) ← number_loop base value (List.replicate 20 0) 20
  line.append (digits.drop start)

def empty : Line := ⟨List.replicate CAPACITY 0, 0, List.length_replicate⟩

def new (pid : UInt64) (thread_id : Option UInt64) : Option Line := do
  let line ← empty.append (b_str "[linuwux] pid=")
  let line ← line.number pid false
  let line ←
    match thread_id with
    | some tid => do
      let line ← line.append (b_str " linux_tid=")
      line.number tid false
    | none => some line
  line.append (b_str " ")

def finish (line : Line) (force_newline : Bool) : Option (List UInt8) := do
  let ends : Bool ←
    if line.length < CAPACITY then
      if force_newline || line.length = 0 then some true
      else (line.bytes[line.length - 1]?).map fun byte => byte ≠ 0x0a
    else some false
  let line ← if ends then line.put 0x0a else some line
  slice? line.bytes 0 line.length

end Line

/-- What a caller does with a line between `new` and `finish`. -/
inductive Call
  | push (byte : UInt8)
  | append (text : List UInt8)
  | number (value : UInt64) (hex : Bool)

def Line.call (line : Line) : Call → Option Line
  | .push byte => line.push byte
  | .append text => line.append text
  | .number value hex => line.number value hex

def Line.run (line : Line) (calls : List Call) : Option Line := calls.foldlM Line.call line

/-! ## What a line is to hold -/

/-- The digit of a value below 16. -/
def digit (d : ℕ) : UInt8 := UInt8.ofNat (if d < 10 then 0x30 + d else 0x61 + (d - 10))

/-- The digits of a number, the last one first; 0 has one digit too. -/
def places (base value : ℕ) : List ℕ := if value = 0 then [0] else Nat.digits base value

def number_text (base value : ℕ) : List UInt8 := (places base value).reverse.map digit

/-- The text is a numeral for the value. -/
def Numeral (base : ℕ) (text : List UInt8) (value : ℕ) : Prop :=
  ∃ ds, ds ≠ [] ∧ (∀ d ∈ ds, d < base) ∧ text = ds.reverse.map digit ∧ Nat.ofDigits base ds = value

/-- **The shortest numeral**: every other one is longer. -/
def Shortest (base : ℕ) (text : List UInt8) (value : ℕ) : Prop :=
  Numeral base text value ∧ ∀ other, Numeral base other value → other = text ∨
    text.length < other.length

def base_of (hex : Bool) : ℕ := if hex then 16 else 10

def Call.text : Call → List UInt8
  | .push byte => [byte]
  | .append text => text
  | .number value hex => number_text (base_of hex) value.toNat

/-- What `new` begins a line with. -/
def opening (pid : UInt64) (thread_id : Option UInt64) : List UInt8 :=
  b_str "[linuwux] pid=" ++ number_text 10 pid.toNat ++
    (match thread_id with
      | some tid => b_str " linux_tid=" ++ number_text 10 tid.toNat
      | none => []) ++ b_str " "

/-- A line that is ended with a newline, unless it ends with one and none is forced. -/
def ended (force_newline : Bool) (text : List UInt8) : List UInt8 :=
  if force_newline = false ∧ text.getLast? = some 0x0a then text else text ++ [0x0a]

/-! ## Numerals -/

theorem places_lt {base value d : ℕ} (hbase : 1 < base) (h : d ∈ places base value) : d < base := by
  unfold places at h
  split at h
  · rw [List.mem_singleton] at h
    omega
  · exact Nat.digits_lt_base hbase h

theorem places_ne_nil {base : ℕ} (value : ℕ) : places base value ≠ [] := by
  unfold places
  split
  · exact List.cons_ne_nil 0 []
  · next h => exact Nat.digits_ne_nil_iff_ne_zero.mpr h

theorem ofDigits_places (base value : ℕ) : Nat.ofDigits base (places base value) = value := by
  unfold places
  split
  · next h => simp [h]
  · exact Nat.ofDigits_digits base value

/-- The last digit, and the digits in front of it. -/
theorem places_step {base value : ℕ} (hbase : 1 < base) : places base value
    = if value / base = 0 then [value % base] else value % base :: places base (value / base) := by
  unfold places
  by_cases h0 : value = 0
  · simp [h0]
  · rw [if_neg h0, Nat.digits_def' hbase (Nat.pos_of_ne_zero h0)]
    split
    · next h => rw [h, Nat.digits_zero]
    · rfl

theorem number_text_step {base value : ℕ} (hbase : 1 < base) : number_text base value
    = (if value / base = 0 then [] else number_text base (value / base))
      ++ [digit (value % base)] := by
  unfold number_text
  rw [places_step hbase]
  split <;> simp

/-- No numeral for the value has fewer digits, and no other one as many. -/
theorem number_text_shortest {base : ℕ} (hbase : 1 < base) (value : ℕ) :
    Shortest base (number_text base value) value := by
  refine ⟨⟨places base value, places_ne_nil value, fun d => places_lt hbase, rfl,
    ofDigits_places base value⟩, ?_⟩
  rintro other ⟨ds, hne, hlt, rfl, hvalue⟩
  have hle : (places base value).length ≤ ds.length := by
    unfold places
    split
    · exact List.length_pos_iff.mpr hne
    · rw [Nat.digits_length_le_iff hbase, ← hvalue]
      exact Nat.ofDigits_lt_base_pow_length hbase hlt
  obtain heq | hlen := Nat.eq_or_lt_of_le hle
  · have hds : ds = places base value :=
      Nat.ofDigits_inj_of_len_eq hbase heq.symm hlt (fun d => places_lt hbase)
        (hvalue.trans (ofDigits_places base value).symm)
    exact .inl (by rw [hds, number_text])
  · exact .inr (by simpa [number_text] using hlen)

theorem base_of_gt (hex : Bool) : 1 < base_of hex := by cases hex <;> decide

namespace Line

/-! ## `number` -/

theorem digits_at {d : ℕ} (h : d < 16) : DIGITS[d]? = some (digit d) := by
  have hall : ∀ d : Fin 16, DIGITS[(d : ℕ)]? = some (digit d) := by decide +kernel
  exact hall ⟨d, h⟩

/-- Writing in front of what was written. -/
theorem drop_set {digits : List UInt8} {start : ℕ} (h : start < digits.length) (byte : UInt8) :
    (digits.set start byte).drop start = byte :: digits.drop (start + 1) := by
  rw [List.set_eq_take_append_cons_drop, if_pos h, List.drop_append_of_le_length]
  · simp
  · rw [List.length_take]
    omega

/-- **The loop writes the numeral in front of what is there**, when there are places enough. -/
theorem number_loop_eq {base : UInt64} (hbase : 1 < base.toNat) (hdigits : base.toNat ≤ 16) :
    ∀ {start : ℕ} {value : UInt64} (digits : List UInt8), start ≤ digits.length → 0 < start →
      value.toNat < base.toNat ^ start → ∃ digits' start',
        number_loop base value digits start = some (digits', start') ∧
          digits'.drop start' = number_text base.toNat value.toNat ++ digits.drop start := by
  intro start
  induction start with
  | zero => exact fun _ _ h => absurd h (Nat.not_lt_zero 0)
  | succ start ih =>
    intro value digits hstart _ hvalue
    have hdigit : DIGITS[(value % base).toNat]? = some (digit (value.toNat % base.toNat)) := by
      rw [UInt64.toNat_mod]
      exact digits_at (lt_of_lt_of_le (Nat.mod_lt _ (by omega)) hdigits)
    have hquot : (value / base).toNat = value.toNat / base.toNat := UInt64.toNat_div value base
    have hzero : value / base = 0 ↔ value.toNat / base.toNat = 0 := by
      rw [← hquot]
      exact UInt64.toNat_inj.symm
    rw [number_loop, hdigit]
    simp only [if_pos (show start < digits.length by omega)]
    rw [number_text_step hbase]
    by_cases h0 : value / base = 0
    · rw [if_pos h0, if_pos (hzero.mp h0)]
      exact ⟨_, start, rfl, by rw [drop_set (by omega)]; rfl⟩
    · rw [if_neg h0, if_neg fun h => h0 (hzero.mpr h)]
      have hlt : (value / base).toNat < base.toNat ^ start := by
        rw [hquot]
        exact Nat.div_lt_of_lt_mul (by rwa [Nat.pow_succ, Nat.mul_comm] at hvalue)
      -- A quotient that is not 0 has no room in no places.
      have hpos : 0 < start := by
        refine Nat.pos_of_ne_zero fun h => h0 (hzero.mpr ?_)
        rw [h, hquot] at hlt
        simpa using hlt
      obtain ⟨digits', start', hloop, hdrop⟩ := ih (digits.set start
        (digit (value.toNat % base.toNat))) (by rw [List.length_set]; omega) hpos hlt
      refine ⟨digits', start', hloop, ?_⟩
      rw [hdrop, drop_set (by omega), hquot, List.append_assoc]
      rfl

/-! ## The first 511 bytes -/

/-- **What a line has been given**, cut off where the room ends. -/
structure Holds (line : Line) (text : List UInt8) : Prop where
  length : line.length = min text.length (CAPACITY - 1)
  bytes : line.bytes.take line.length = text.take (CAPACITY - 1)

theorem Holds.length_lt {line : Line} {text : List UInt8} (h : line.Holds text) :
    line.length < CAPACITY := by
  rw [h.length]
  exact lt_of_le_of_lt (Nat.min_le_right _ _) (by decide)

theorem holds_empty : empty.Holds [] := ⟨rfl, rfl⟩

theorem Holds.append {line : Line} {text : List UInt8} (h : line.Holds text) (more : List UInt8) :
    ∃ line', line.append more = some line' ∧ line'.Holds (text ++ more) := by
  have hlen := h.length
  have hsize := line.size
  have hcap : CAPACITY = 512 := rfl
  have hroom : line.remaining = CAPACITY - 1 - line.length := rfl
  have hslice : slice? more 0 (min more.length line.remaining)
      = some (more.take line.remaining) := by
    unfold slice? slice
    rw [if_pos ⟨Nat.zero_le _, Nat.min_le_left _ _⟩, List.drop_zero, Nat.min_comm,
      ← List.take_eq_take_min]
  have hcount : (more.take line.remaining).length = min more.length line.remaining := by
    rw [List.length_take, Nat.min_comm]
  have hfits : line.length + min more.length line.remaining ≤ CAPACITY ∧
      (more.take line.remaining).length = min more.length line.remaining := ⟨by omega, hcount⟩
  unfold Line.append
  simp only [hslice, Option.bind_eq_bind, Option.bind_some]
  rw [dif_pos hfits]
  refine ⟨_, rfl, ?_, ?_⟩
  · show line.length + _ = _
    rw [List.length_append]
    omega
  · show (overwrite line.bytes line.length (more.take line.remaining)).take _ = _
    have hfront : (line.bytes.take line.length ++ more.take line.remaining).length
        = line.length + min more.length line.remaining := by
      rw [List.length_append, hcount, List.length_take]
      omega
    unfold overwrite
    rw [← hfront, List.take_left, h.bytes, List.take_append, hroom]
    congr 2
    omega

/-- A byte at the end of what is there. -/
theorem put_eq {line : Line} (h : line.length < CAPACITY) (byte : UInt8) : ∃ line',
    line.put byte = some line' ∧ line'.length = line.length + 1 ∧
      line'.bytes.take line'.length = line.bytes.take line.length ++ [byte] := by
  have hsize := line.size
  refine ⟨_, if_pos h, rfl, ?_⟩
  show (line.bytes.set line.length byte).take (line.length + 1) = _
  have hfront : (line.bytes.take line.length ++ [byte]).length = line.length + 1 := by
    rw [List.length_append, List.length_take, List.length_singleton]
    omega
  rw [List.set_eq_take_append_cons_drop, if_pos (by omega),
    List.append_cons _ byte (line.bytes.drop (line.length + 1)), ← hfront, List.take_left]

theorem Holds.push {line : Line} {text : List UInt8} (h : line.Holds text) (byte : UInt8) :
    ∃ line', line.push byte = some line' ∧ line'.Holds (text ++ [byte]) := by
  have hlen := h.length
  have hcap : CAPACITY = 512 := rfl
  have hroom : line.remaining = CAPACITY - 1 - line.length := rfl
  unfold Line.push
  by_cases hfull : line.remaining = 0
  · -- The text was long enough already.
    rw [if_neg (not_not.mpr hfull)]
    refine ⟨line, rfl, ?_, ?_⟩
    · rw [List.length_append]
      omega
    · rw [h.bytes, List.take_append_of_le_length (by omega)]
  · obtain ⟨line', hput, hlength, hbytes⟩ := put_eq h.length_lt byte
    rw [if_pos hfull]
    refine ⟨line', hput, ?_, ?_⟩
    · rw [hlength, List.length_append, List.length_singleton]
      omega
    · rw [hbytes, h.bytes, List.take_of_length_le (by omega), List.take_of_length_le]
      rw [List.length_append, List.length_singleton]
      omega

theorem Holds.number {line : Line} {text : List UInt8} (h : line.Holds text) (value : UInt64)
    (hex : Bool) : ∃ line', line.number value hex = some line' ∧
      line'.Holds (text ++ number_text (base_of hex) value.toNat) := by
  have hvalue := UInt64.toNat_lt value
  have hbase : (if hex then (16 : UInt64) else 10).toNat = base_of hex := by cases hex <;> rfl
  have hgt : 1 < (if hex then (16 : UInt64) else 10).toNat := hbase ▸ base_of_gt hex
  have hle : (if hex then (16 : UInt64) else 10).toNat ≤ 16 := by
    rw [hbase]
    cases hex <;> decide
  -- Twenty places are enough for 64 bits in either base.
  have hplaces : value.toNat < (if hex then (16 : UInt64) else 10).toNat ^ 20 := by
    rw [hbase]
    cases hex
    · exact lt_trans hvalue (by norm_num [base_of])
    · exact lt_trans hvalue (by norm_num [base_of])
  obtain ⟨digits, start, hloop, hdrop⟩ := number_loop_eq hgt hle (List.replicate 20 0)
    (le_of_eq (by simp)) (by decide) hplaces
  obtain ⟨line', happend, hholds⟩ := h.append (digits.drop start)
  refine ⟨line', ?_, ?_⟩
  · unfold Line.number
    simp only [hloop, Option.bind_eq_bind, Option.bind_some]
    exact happend
  · rw [hdrop, hbase] at hholds
    simpa using hholds

/-- **A call adds its text.** -/
theorem Holds.call {line : Line} {text : List UInt8} (h : line.Holds text) (call : Call) :
    ∃ line', line.call call = some line' ∧ line'.Holds (text ++ call.text) := by
  cases call with
  | push byte => exact h.push byte
  | append more => exact h.append more
  | number value hex => exact h.number value hex

theorem Holds.run {line : Line} {text : List UInt8} (h : line.Holds text) (calls : List Call) :
    ∃ line', line.run calls = some line' ∧ line'.Holds (text ++ calls.flatMap Call.text) := by
  induction calls generalizing line text with
  | nil => exact ⟨line, rfl, by simpa using h⟩
  | cons call calls ih =>
    obtain ⟨line₁, hcall, h₁⟩ := h.call call
    obtain ⟨line₂, hrun, h₂⟩ := ih h₁
    refine ⟨line₂, ?_, by simpa using h₂⟩
    unfold Line.run at hrun ⊢
    rw [List.foldlM_cons, hcall]
    exact hrun

theorem new_holds (pid : UInt64) (thread_id : Option UInt64) :
    ∃ line, new pid thread_id = some line ∧ line.Holds (opening pid thread_id) := by
  obtain ⟨line₁, h₁, hh₁⟩ := holds_empty.append (b_str "[linuwux] pid=")
  obtain ⟨line₂, h₂, hh₂⟩ := hh₁.number pid false
  unfold new opening
  simp only [h₁, h₂, Option.bind_eq_bind, Option.bind_some]
  cases thread_id with
  | none =>
    obtain ⟨line₃, h₃, hh₃⟩ := hh₂.append (b_str " ")
    exact ⟨line₃, h₃, by simpa [base_of] using hh₃⟩
  | some tid =>
    obtain ⟨line₃, h₃, hh₃⟩ := hh₂.append (b_str " linux_tid=")
    obtain ⟨line₄, h₄, hh₄⟩ := hh₃.number tid false
    obtain ⟨line₅, h₅, hh₅⟩ := hh₄.append (b_str " ")
    refine ⟨line₅, ?_, by simpa [base_of] using hh₅⟩
    simp only [h₃, h₄, Option.bind_some]
    exact h₅

/-! ## `finish` -/

/-- The byte that `finish` looks at is the last one of the text. -/
theorem Holds.last {line : Line} {text : List UInt8} (h : line.Holds text)
    (hne : line.length ≠ 0) :
    ∃ byte, line.bytes[line.length - 1]? = some byte ∧
      (text.take (CAPACITY - 1)).getLast? = some byte := by
  have hlt : line.length - 1 < line.bytes.length := by
    have := h.length_lt
    rw [line.size]
    omega
  refine ⟨line.bytes[line.length - 1], List.getElem?_eq_getElem hlt, ?_⟩
  rw [← h.bytes, List.getLast?_take, if_neg hne, List.getElem?_eq_getElem hlt]
  rfl

theorem Holds.finish {line : Line} {text : List UInt8} (h : line.Holds text)
    (force_newline : Bool) :
    line.finish force_newline = some (ended force_newline (text.take (CAPACITY - 1))) := by
  have hsize := line.size
  -- What is added, and what is given back then.
  have hadded : ∃ line', line.put 0x0a = some line' ∧
      slice? line'.bytes 0 line'.length = some (text.take (CAPACITY - 1) ++ [0x0a]) := by
    obtain ⟨line', hput, hlength, hbytes⟩ := put_eq h.length_lt 0x0a
    have hlt := h.length_lt
    refine ⟨line', hput, ?_⟩
    unfold slice? slice
    rw [if_pos ⟨Nat.zero_le _, by rw [line'.size]; omega⟩, List.drop_zero, hbytes, h.bytes]
  have hkept : slice? line.bytes 0 line.length = some (text.take (CAPACITY - 1)) := by
    have hlt := h.length_lt
    unfold slice? slice
    rw [if_pos ⟨Nat.zero_le _, by omega⟩, List.drop_zero, h.bytes]
  obtain ⟨line', hput, hslice⟩ := hadded
  unfold Line.finish ended
  rw [if_pos h.length_lt]
  cases force_newline with
  | true => simp [hput, hslice]
  | false =>
    by_cases h0 : line.length = 0
    · have hnil : text.take (CAPACITY - 1) = [] := by
        rw [← h.bytes, h0, List.take_zero]
      rw [hnil] at hslice ⊢
      simp [h0, hput, hslice]
    · obtain ⟨byte, hat, hlast⟩ := h.last h0
      rw [hlast]
      by_cases hbyte : byte = 0x0a
      · simp [h0, hat, hbyte, hkept]
      · simp [h0, hat, hbyte, hput, hslice]

end Line

/-! ## The line -/

theorem ended_getLast? (force_newline : Bool) (text : List UInt8) :
    (ended force_newline text).getLast? = some 0x0a := by
  unfold ended
  split
  · next h => exact h.2
  · exact List.getLast?_concat

theorem length_ended_le (force_newline : Bool) (text : List UInt8) :
    (ended force_newline text).length ≤ text.length + 1 := by
  unfold ended
  split
  · omega
  · rw [List.length_append, List.length_singleton]

/-- **The line is the first 511 bytes of what it was given, ended with a newline.** No method
panics, whatever the calls; the text of a number is its shortest numeral. -/
theorem line_is_ended_prefix (pid : UInt64) (thread_id : Option UInt64) (calls : List Call)
    (force_newline : Bool) : ∃ result,
    (do (← (← Line.new pid thread_id).run calls).finish force_newline) = some result ∧
      result = ended force_newline
        ((opening pid thread_id ++ calls.flatMap Call.text).take 511) ∧
      result.getLast? = some 0x0a ∧ result.length ≤ 512 ∧
      ∀ hex (value : UInt64),
        Shortest (base_of hex) (Call.number value hex).text value.toNat := by
  obtain ⟨line₁, hnew, h₁⟩ := Line.new_holds pid thread_id
  obtain ⟨line₂, hrun, h₂⟩ := h₁.run calls
  refine ⟨_, ?_, rfl, ended_getLast? _ _, ?_, fun hex value =>
    number_text_shortest (base_of_gt hex) value.toNat⟩
  · simp only [hnew, hrun, Option.bind_eq_bind, Option.bind_some]
    exact h₂.finish force_newline
  · refine le_trans (length_ended_le _ _) ?_
    rw [List.length_take]
    omega

end Linuwux.DebugLine
