/-
`MapsParse.lean` -- what `parse_hex` and `parse` of `maps.rs` read.

`parse_hex` gives up where sixteen times what it has, or that and the next digit, leaves `u64`. A
number only grows with its digits, so this is where the number that is written does not fit
([`parse_hex_iff`]).

The kernel prints a mapping as [`KernelLine.print`]: the bounds in hexadecimal, filled up with
zeros, four more fields, and after some blanks a path, which may have blanks of its own. `parse`
reads all of it back ([`parse_print`]).
-/
import Linuwux.Maps
import Mathlib.Data.Nat.Digits.Defs

set_option autoImplicit false

namespace Linuwux.MapsParse

open LibC (b_str is_ascii_whitespace)
open Maps

/-! ## Hexadecimal digits -/

def lower (digit : ℕ) : UInt8 := (b_str "0123456789abcdef").getD digit 0

def upper (digit : ℕ) : UInt8 := (b_str "0123456789ABCDEF").getD digit 0

/-- The byte is a hexadecimal digit, and this is its value. -/
def Denotes (byte : UInt8) (digit : ℕ) : Prop :=
  digit < 16 ∧ (byte = lower digit ∨ byte = upper digit)

instance (byte : UInt8) (digit : ℕ) : Decidable (Denotes byte digit) :=
  inferInstanceAs (Decidable (_ ∧ _))

/-- The bytes are hexadecimal digits, and this is the number they are in base 16. -/
def HexValue (value : List UInt8) (number : ℕ) : Prop :=
  ∃ digits, List.Forall₂ Denotes value digits ∧ Nat.ofDigits 16 digits.reverse = number

theorem denotes_of_hex_digit (byte : UInt8) :
    (hex_digit byte).all fun digit => Denotes byte digit := by
  have hbytes : ∀ n : Fin 256, (hex_digit (.ofNat n)).all fun digit =>
      Denotes (.ofNat n) digit := by decide +kernel
  simpa using hbytes ⟨byte.toNat, byte.toNat_lt⟩

theorem hex_digit_of_denotes : ∀ digit : Fin 16,
    hex_digit (lower digit) = some digit.val ∧ hex_digit (upper digit) = some digit.val := by
  decide +kernel

theorem hex_digit_iff {byte : UInt8} {digit : ℕ} :
    hex_digit byte = some digit ↔ Denotes byte digit := by
  constructor
  · intro h
    have hall := denotes_of_hex_digit byte
    rw [h] at hall
    simpa using hall
  · rintro ⟨hlt, rfl | rfl⟩
    · exact (hex_digit_of_denotes ⟨digit, hlt⟩).1
    · exact (hex_digit_of_denotes ⟨digit, hlt⟩).2

/-! ## `parse_hex` -/

/-- The closure of `parse_hex`. -/
def push_digit (result : UInt64) (byte : UInt8) : Option UInt64 :=
  match hex_digit byte with
  | none => none
  | some digit => (checked_mul result 16).bind fun shifted => ProcMem.checked_add shifted digit

theorem parse_hex_eq (value : List UInt8) :
    parse_hex value = if value = [] then none else value.foldlM push_digit 0 := rfl

theorem checked_mul_eq_some {a product : UInt64} {n : ℕ} :
    checked_mul a n = some product ↔ product.toNat = a.toNat * n := by
  have hlt := product.toNat_lt
  unfold checked_mul
  split
  · rename_i h
    have hproduct : (a * UInt64.ofNat n).toNat = a.toNat * n := by
      rw [UInt64.toNat_mul, UInt64.toNat_ofNat', Nat.mul_mod_mod, Nat.mod_eq_of_lt h]
    rw [Option.some_inj, ← UInt64.toNat_inj, hproduct, eq_comm]
  · rename_i h
    simp only [reduceCtorEq, false_iff]
    omega

theorem push_digit_iff {result next : UInt64} {byte : UInt8} :
    push_digit result byte = some next
      ↔ ∃ digit, Denotes byte digit ∧ next.toNat = digit + 16 * result.toNat := by
  have hlt := next.toNat_lt
  unfold push_digit
  simp only [← hex_digit_iff]
  cases hdigit : hex_digit byte with
  | none => simp
  | some digit =>
    simp only [Option.bind_eq_some_iff, checked_mul_eq_some, ProcMem.checked_add_eq_some,
      Option.some_inj, exists_eq_left']
    constructor
    · rintro ⟨shifted, hshifted, hnext⟩
      omega
    · intro hnext
      have hfits : result.toNat * 16 < 2 ^ 64 := by omega
      refine ⟨.ofNat (result.toNat * 16), UInt64.toNat_ofNat_of_lt' hfits, ?_⟩
      rw [UInt64.toNat_ofNat_of_lt' hfits]
      omega

/-- The number that digits make after one that has been read. -/
def extend (number : ℕ) (digits : List ℕ) : ℕ :=
  digits.foldl (fun number digit => digit + 16 * number) number

theorem extend_zero (digits : List ℕ) : extend 0 digits = Nat.ofDigits 16 digits.reverse := by
  rw [Nat.ofDigits_eq_foldr, List.foldr_reverse]
  rfl

theorem le_extend (number : ℕ) (digits : List ℕ) : number ≤ extend number digits := by
  induction digits generalizing number with
  | nil => exact Nat.le_refl number
  | cons digit rest ih =>
    calc number ≤ digit + 16 * number := by omega
      _ ≤ extend (digit + 16 * number) rest := ih _

/-- **The loop.** It comes to a number if and only if the bytes are digits that make it, and it
fits. A step that overflows would have been the start of a number that does not fit. -/
theorem foldlM_push_digit (value : List UInt8) (result : UInt64) (number : ℕ) :
    (value.foldlM push_digit result).map UInt64.toNat = some number
      ↔ (∃ digits, List.Forall₂ Denotes value digits ∧ extend result.toNat digits = number)
        ∧ number < 2 ^ 64 := by
  induction value generalizing result with
  | nil =>
    have hlt := result.toNat_lt
    simp only [List.foldlM_nil, Option.pure_def, Option.map_some, Option.some_inj,
      List.forall₂_nil_left_iff, exists_eq_left]
    change result.toNat = number ↔ result.toNat = number ∧ number < 2 ^ 64
    omega
  | cons byte rest ih =>
    rw [List.foldlM_cons, Option.bind_eq_bind, Option.map_bind, Option.bind_eq_some_iff]
    simp only [Function.comp_apply, ih, push_digit_iff]
    constructor
    · rintro ⟨next, ⟨digit, hdigit, hnext⟩, ⟨digits, hdigits, hnumber⟩, hlt⟩
      refine ⟨⟨digit :: digits, .cons hdigit hdigits, ?_⟩, hlt⟩
      rw [← hnumber, hnext]
      rfl
    · rintro ⟨⟨_, hall, hnumber⟩, hlt⟩
      cases hall with
      | @cons _ digit _ digits hdigit hdigits =>
        change extend (digit + 16 * result.toNat) digits = number at hnumber
        have hle := le_extend (digit + 16 * result.toNat) digits
        have hfits : digit + 16 * result.toNat < 2 ^ 64 := by omega
        have hnext : (UInt64.ofNat (digit + 16 * result.toNat)).toNat
            = digit + 16 * result.toNat := UInt64.toNat_ofNat_of_lt' hfits
        refine ⟨_, ⟨digit, hdigit, hnext⟩, ⟨digits, hdigits, ?_⟩, hlt⟩
        rw [hnext, hnumber]

/-- What `parse_hex` accepts, and what it makes of it. -/
theorem parse_hex_iff (value : List UInt8) (number : ℕ) :
    (parse_hex value).map UInt64.toNat = some number
      ↔ value ≠ [] ∧ HexValue value number ∧ number < 2 ^ 64 := by
  rw [parse_hex_eq]
  split
  · rename_i hempty
    simp [hempty]
  · rename_i hne
    rw [foldlM_push_digit]
    simp only [UInt64.toNat_zero, extend_zero]
    exact ⟨fun h => ⟨hne, h⟩, fun h => h.2⟩

/-! ## The line that the kernel prints -/

/-- The digits of a number, the first one first, filled up with zeros. -/
def hex_digits (width : ℕ) (number : UInt64) : List ℕ :=
  let digits := Nat.digits 16 number.toNat
  List.replicate (width - digits.length) 0 ++ digits.reverse

def hex (width : ℕ) (number : UInt64) : List UInt8 := (hex_digits width number).map lower

/-- What `next_field` returns. -/
structure Field where
  bytes : List UInt8
  nonempty : bytes ≠ []
  solid : ∀ byte ∈ bytes, is_ascii_whitespace byte = false

/-- What is in a line of `/proc/self/maps`. -/
structure KernelLine where
  width : ℕ
  start : UInt64
  stop : UInt64
  permissions : Field
  offset : Field
  device : Field
  inode : Field
  padding : List UInt8
  path : List UInt8
  filled : 0 < width
  blank : ∀ byte ∈ padding, is_ascii_whitespace byte = true
  apart : path ≠ [] → padding ≠ []
  path_solid : ∀ byte ∈ path.head?, is_ascii_whitespace byte = false

def KernelLine.range (line : KernelLine) : List UInt8 :=
  hex line.width line.start ++ 0x2d :: hex line.width line.stop

def KernelLine.print (line : KernelLine) : List UInt8 :=
  line.range ++ 0x20 :: (line.permissions.bytes ++ 0x20 :: (line.offset.bytes
    ++ 0x20 :: (line.device.bytes ++ 0x20 :: (line.inode.bytes ++ (line.padding ++ line.path)))))

example : (KernelLine.mk 8 0x7f100000 0x7f101000
    ⟨b_str "r-xp", by decide +kernel, by decide +kernel⟩
    ⟨b_str "00000000", by decide +kernel, by decide +kernel⟩
    ⟨b_str "08:01", by decide +kernel, by decide +kernel⟩
    ⟨b_str "456", by decide +kernel, by decide +kernel⟩ (b_str "   ") (b_str "/home/user/a b.dll")
    (by decide) (by decide +kernel) (by decide +kernel) (by decide +kernel)).print
      = b_str "7f100000-7f101000 r-xp 00000000 08:01 456   /home/user/a b.dll" := by decide +kernel

def KernelLine.mapping (line : KernelLine) : Mapping :=
  ⟨line.start, line.stop, line.permissions.bytes, line.inode.bytes, line.path⟩

/-! ### The bounds -/

theorem hex_digits_lt {width : ℕ} {number : UInt64} {digit : ℕ}
    (h : digit ∈ hex_digits width number) : digit < 16 := by
  rcases List.mem_append.mp h with hzero | hdigit
  · rw [List.eq_of_mem_replicate hzero]
    decide
  · exact Nat.digits_lt_base (by decide) (List.mem_reverse.mp hdigit)

theorem hexValue_hex (width : ℕ) (number : UInt64) : HexValue (hex width number) number.toNat := by
  refine ⟨hex_digits width number, ?_, ?_⟩
  · unfold hex
    rw [List.forall₂_map_left_iff, List.forall₂_same]
    exact fun digit hdigit => ⟨hex_digits_lt hdigit, .inl rfl⟩
  · unfold hex_digits
    dsimp only
    rw [List.reverse_append, List.reverse_reverse, List.reverse_replicate,
      Nat.ofDigits_append_replicate_zero, Nat.ofDigits_digits]

theorem hex_ne_nil {width : ℕ} (h : 0 < width) (number : UInt64) : hex width number ≠ [] := by
  intro hempty
  have hlength := congrArg List.length hempty
  simp only [hex, hex_digits, List.length_append, List.length_replicate, List.length_map,
    List.length_reverse, List.length_nil] at hlength
  omega

theorem parse_hex_hex {width : ℕ} (h : 0 < width) (number : UInt64) :
    parse_hex (hex width number) = some number := by
  have hvalue := (parse_hex_iff (hex width number) number.toNat).mpr
    ⟨hex_ne_nil h number, hexValue_hex width number, number.toNat_lt⟩
  obtain ⟨parsed, hparsed, hnat⟩ := Option.map_eq_some_iff.mp hvalue
  rw [hparsed, UInt64.toNat_inj.mp hnat]

theorem lower_solid : ∀ digit : Fin 16,
    lower digit ≠ 0x2d ∧ is_ascii_whitespace (lower digit) = false := by
  decide +kernel

theorem hex_solid {width : ℕ} {number : UInt64} {byte : UInt8} (h : byte ∈ hex width number) :
    byte ≠ 0x2d ∧ is_ascii_whitespace byte = false := by
  obtain ⟨digit, hdigit, rfl⟩ := List.mem_map.mp h
  exact lower_solid ⟨digit, hex_digits_lt hdigit⟩

theorem split_range (line : KernelLine) : line.range.splitOn 0x2d
    = [hex line.width line.start, hex line.width line.stop] := by
  have hdash (number : UInt64) : 0x2d ∉ hex line.width number :=
    fun hmem => (hex_solid hmem).1 rfl
  rw [KernelLine.range, List.splitOn_append_cons_self_of_not_mem (hdash _),
    List.splitOn_eq_singleton (hdash _)]

def KernelLine.rangeField (line : KernelLine) : Field where
  bytes := line.range
  nonempty := by simp [KernelLine.range]
  solid := by
    intro byte hbyte
    rcases List.mem_append.mp hbyte with hstart | hrest
    · exact (hex_solid hstart).2
    · rcases List.mem_cons.mp hrest with rfl | hstop
      · rfl
      · exact (hex_solid hstop).2

/-! ### The fields -/

/-- `next_field` skips the blanks, and takes the field up to the blank after it. -/
theorem next_field_of (field : Field) {blanks rest : List UInt8}
    (hblanks : ∀ byte ∈ blanks, is_ascii_whitespace byte = true)
    (hrest : ∀ byte ∈ rest.head?, is_ascii_whitespace byte = true) :
    next_field (blanks ++ (field.bytes ++ rest)) = some (field.bytes, rest) := by
  obtain ⟨bytes, hne, hsolid⟩ := field
  have hskip : (blanks ++ (bytes ++ rest)).dropWhile is_ascii_whitespace = bytes ++ rest := by
    rw [List.dropWhile_append_of_pos hblanks]
    cases bytes with
    | nil => exact absurd rfl hne
    | cons byte bytes =>
      exact List.dropWhile_cons_of_neg (by simp [hsolid byte List.mem_cons_self])
  have htake : rest.takeWhile (fun byte => !is_ascii_whitespace byte) = [] := by
    cases rest with
    | nil => rfl
    | cons byte rest => exact List.takeWhile_cons_of_neg (by simp [hrest byte rfl])
  have hdrop : rest.dropWhile (fun byte => !is_ascii_whitespace byte) = rest := by
    cases rest with
    | nil => rfl
    | cons byte rest => exact List.dropWhile_cons_of_neg (by simp [hrest byte rfl])
  have hfield : ∀ byte ∈ bytes, (!is_ascii_whitespace byte) = true := by
    intro byte hbyte
    rw [hsolid byte hbyte]
    rfl
  unfold next_field
  dsimp only
  rw [hskip, List.takeWhile_append_of_pos hfield, htake, List.dropWhile_append_of_pos hfield,
    hdrop, List.append_nil, if_neg hne]

/-- A field after one blank. -/
theorem next_field_space (field : Field) {rest : List UInt8}
    (hrest : ∀ byte ∈ rest.head?, is_ascii_whitespace byte = true) :
    next_field (0x20 :: (field.bytes ++ rest)) = some (field.bytes, rest) :=
  @next_field_of field [0x20] rest (by simp [is_ascii_whitespace]) hrest

/-- What is left after the inode. -/
theorem KernelLine.head_padding (line : KernelLine) :
    ∀ byte ∈ (line.padding ++ line.path).head?, is_ascii_whitespace byte = true := by
  intro byte hbyte
  cases hpadding : line.padding with
  | nil =>
    have hpath : line.path = [] := by
      by_contra hne
      exact line.apart hne hpadding
    simp [hpadding, hpath] at hbyte
  | cons first rest =>
    rw [hpadding] at hbyte
    obtain rfl : first = byte := by simpa using hbyte
    exact line.blank first (by simp [hpadding])

theorem KernelLine.path_eq (line : KernelLine) :
    (line.padding ++ line.path).dropWhile is_ascii_whitespace = line.path := by
  rw [List.dropWhile_append_of_pos line.blank]
  have hsolid := line.path_solid
  cases hpath : line.path with
  | nil => rfl
  | cons byte rest =>
    rw [hpath] at hsolid
    exact List.dropWhile_cons_of_neg (by simp [hsolid byte rfl])

/-- **The round trip.** What the kernel prints for a mapping is read back. -/
theorem parse_print (line : KernelLine) : parse line.print = some line.mapping := by
  have hspace (rest : List UInt8) :
      ∀ byte ∈ (0x20 :: rest : List UInt8).head?, is_ascii_whitespace byte = true := by
    simp [is_ascii_whitespace]
  have hrange := @next_field_of line.rangeField [] _ (by simp)
    (hspace (line.permissions.bytes ++ 0x20 :: (line.offset.bytes ++ 0x20 :: (line.device.bytes
      ++ 0x20 :: (line.inode.bytes ++ (line.padding ++ line.path))))))
  unfold parse KernelLine.print
  rw [show line.range = line.rangeField.bytes from rfl]
  rw [List.nil_append] at hrange
  simp only [hrange, next_field_space _ (hspace _), next_field_space _ line.head_padding,
    Option.bind_eq_bind, Option.bind_some]
  rw [show line.rangeField.bytes = line.range from rfl, split_range]
  simp only [parse_hex_hex line.filled, line.path_eq, Option.bind_some]
  rfl

/-- **What is read.** Every line of the kernel is read back, and hexadecimal numbers are exactly
what `parse_hex` reads, if they fit. -/
theorem parse_spec :
    (∀ line : KernelLine, parse line.print = some line.mapping)
      ∧ ∀ value number, (parse_hex value).map UInt64.toNat = some number
          ↔ value ≠ [] ∧ HexValue value number ∧ number < 2 ^ 64 :=
  ⟨parse_print, parse_hex_iff⟩

end Linuwux.MapsParse
