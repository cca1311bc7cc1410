/-
`Maps.lean` -- `runtime/src/maps.rs`: the reader of `/proc/self/maps`.

`find_line` reads the file in chunks and hands it on line by line; where the chunks end plays no
role, so the text is one list of bytes here, and [`lines`] are the lines that are handed on.
Lines that do not fit the buffer are skipped. `None` is a file that cannot be opened.
-/
import Linuwux.LibC
import Linuwux.ProcMem

set_option autoImplicit false

namespace Linuwux.Maps

open LibC (b_str is_ascii_whitespace)

def LINE_CAPACITY : ℕ := 1024

structure Mapping where
  start : UInt64
  stop : UInt64
  permissions : List UInt8
  inode : List UInt8
  path : List UInt8
  deriving DecidableEq, Repr

/-! ## One line -/

/-- `u64::checked_mul`. -/
def checked_mul (a : UInt64) (n : ℕ) : Option UInt64 :=
  if a.toNat * n < 2 ^ 64 then some (a * .ofNat n) else none

/-- The `match` of `parse_hex`. -/
def hex_digit (byte : UInt8) : Option ℕ :=
  if 0x30 ≤ byte ∧ byte ≤ 0x39 then some (byte.toNat - 0x30)
  else if 0x61 ≤ byte ∧ byte ≤ 0x66 then some (byte.toNat - 0x61 + 10)
  else if 0x41 ≤ byte ∧ byte ≤ 0x46 then some (byte.toNat - 0x41 + 10)
  else none

def parse_hex (value : List UInt8) : Option UInt64 :=
  if value = [] then none
  else
    value.foldlM (fun result byte =>
      match hex_digit byte with
      | none => none
      | some digit => (checked_mul result 16).bind fun shifted =>
          ProcMem.checked_add shifted digit) 0

/-- The next field, and what is left of the line after it. -/
def next_field (line : List UInt8) : Option (List UInt8 × List UInt8) :=
  let line := line.dropWhile is_ascii_whitespace
  let field := line.takeWhile fun byte => !is_ascii_whitespace byte
  if field = [] then none
  else some (field, line.dropWhile fun byte => !is_ascii_whitespace byte)

def parse (line : List UInt8) : Option Mapping := do
  let (range, line) ← next_field line
  let (permissions, line) ← next_field line
  let (_, line) ← next_field line
  let (_, line) ← next_field line
  let (inode, line) ← next_field line
  match range.splitOn 0x2d with
  | [first, second] => do
    let start ← parse_hex first
    let stop ← parse_hex second
    some ⟨start, stop, permissions, inode, line.dropWhile is_ascii_whitespace⟩
  | _ => none

/-! ## The file -/

/-- The lines that `find_line` hands on, given what it has of the line so far and whether that
has overflowed. -/
def lines_from : List UInt8 → Bool → List UInt8 → List (List UInt8)
  | line, overflow, [] => if line ≠ [] ∧ !overflow then [line] else []
  | line, overflow, byte :: rest =>
    if byte = 0x0a then
      if !overflow then line :: lines_from [] false rest else lines_from [] false rest
    else if line.length < LINE_CAPACITY then lines_from (line ++ [byte]) overflow rest
    else lines_from line true rest

def lines (text : List UInt8) : List (List UInt8) := lines_from [] false text

def find_line (text : Option (List UInt8)) (visit : List UInt8 → Bool) : Bool :=
  match text with
  | none => false
  | some text => (lines text).any visit

example : parse (b_str "7f100000-7f101000 r-xp 00000000 08:01 456   /home/user/a b.dll")
    = some ⟨0x7f100000, 0x7f101000, b_str "r-xp", b_str "456", b_str "/home/user/a b.dll"⟩ := by
  decide +kernel

end Linuwux.Maps
