/-
`LibC.lean` -- strings, blocks of memory and the environment of the C library.

A block that `malloc` has returned is a list of bytes that may not have been written yet. A copy
that does not fit the block, and a string that does not end in it or has a byte in it that nobody
wrote, are undefined behaviour, which is kept apart from a call that fails.
-/
import Linuwux.Scans
import Mathlib.Logic.Function.Basic

set_option autoImplicit false

namespace Linuwux.LibC

/-! ## Strings -/

/-- What a pointer to a string points to, without the zero at the end. -/
@[ext]
structure CString where
  bytes : List UInt8
  nonzero : 0 ∉ bytes
  deriving DecidableEq

/-- A literal `b"..."`. -/
def b_str (s : String) : List UInt8 := s.toUTF8.toList

/-- A literal `c"..."`. -/
def c_str (s : String) (h : 0 ∉ b_str s := by decide +kernel) : CString := ⟨b_str s, h⟩

/-- `u8::to_ascii_lowercase`. -/
def to_ascii_lowercase (byte : UInt8) : UInt8 :=
  if 0x41 ≤ byte ∧ byte ≤ 0x5a then byte + 0x20 else byte

/-- `eq_ignore_ascii_case` of two bytes. -/
def eq_ignore_ascii_case (left right : UInt8) : Bool :=
  to_ascii_lowercase left = to_ascii_lowercase right

/-- `u8::is_ascii_whitespace`, which leaves out the vertical tab. -/
def is_ascii_whitespace (byte : UInt8) : Bool :=
  byte = 0x20 ∨ byte = 0x09 ∨ byte = 0x0a ∨ byte = 0x0c ∨ byte = 0x0d

/-! ## Blocks -/

/-- The bytes of a block; `none` has not been written. -/
abbrev Block := List (Option UInt8)

/-- `malloc` of a size. -/
def malloc (size : ℕ) : Block := List.replicate size none

/-- A copy to a position of the block; `none` is one that runs over its end. -/
def Block.copy (b : Block) (position : ℕ) (bytes : List UInt8) : Option Block :=
  if position + bytes.length ≤ b.length then
    some (Scans.overwrite b position (bytes.map some))
  else none

/-- The string that begins the block. -/
def Block.string : Block → Option CString
  | some byte :: rest =>
    if h : byte = 0 then some ⟨[], List.not_mem_nil⟩
    else (Block.string rest).map fun s =>
      ⟨byte :: s.bytes, by simpa [s.nonzero] using fun hzero => h hzero.symm⟩
  | _ => none

/-- The first bytes are written, and the others as they were. -/
def Block.Written (b : Block) (bytes : List UInt8) (rest : Block) : Prop :=
  b = bytes.map some ++ rest

/-- A copy right after the written bytes. -/
theorem Block.Written.copy {b rest : Block} {bytes : List UInt8} (h : b.Written bytes rest)
    (more : List UInt8) (hfits : more.length ≤ rest.length) :
    ∃ b', b.copy bytes.length more = some b'
      ∧ b'.Written (bytes ++ more) (rest.drop more.length) := by
  have hlen : b.length = bytes.length + rest.length := by
    rw [h, List.length_append, List.length_map]
  refine ⟨_, if_pos (by omega), ?_⟩
  unfold Written Scans.overwrite
  rw [h, List.take_append_of_le_length (by rw [List.length_map]), List.length_map, List.map_append,
    List.take_of_length_le (by rw [List.length_map]), List.drop_append, List.length_map,
    List.drop_of_length_le (by rw [List.length_map]; omega), Nat.add_sub_cancel_left,
    List.nil_append]

/-- Two copies one behind the other are one. -/
theorem Block.Written.copy_copy {b rest : Block} {bytes : List UInt8} (h : b.Written bytes rest)
    (xs ys : List UInt8) (hfits : (xs ++ ys).length ≤ rest.length) :
    ∃ b', ((b.copy bytes.length xs).bind fun b => b.copy (bytes.length + xs.length) ys) = some b'
      ∧ b'.Written (bytes ++ (xs ++ ys)) (rest.drop (xs ++ ys).length) := by
  rw [List.length_append] at hfits ⊢
  obtain ⟨b₁, hb₁, hw₁⟩ := h.copy xs (by omega)
  obtain ⟨b₂, hb₂, hw₂⟩ := hw₁.copy ys (by rw [List.length_drop]; omega)
  rw [List.length_append] at hb₂
  rw [List.append_assoc, List.drop_drop] at hw₂
  exact ⟨b₂, by rw [hb₁, Option.bind_some, hb₂], hw₂⟩

theorem string_append {bytes : List UInt8} (h : 0 ∉ bytes) (rest : Block) :
    Block.string ((bytes ++ [0]).map some ++ rest) = some ⟨bytes, h⟩ := by
  induction bytes with
  | nil => rfl
  | cons byte bytes ih =>
    have hbyte : byte ≠ 0 := fun hzero => h (hzero ▸ List.mem_cons_self)
    have hrest : 0 ∉ bytes := fun hmem => h (List.mem_cons_of_mem byte hmem)
    rw [List.cons_append, List.map_cons, List.cons_append, Block.string, dif_neg hbyte, ih hrest]
    rfl

/-- A string and its zero are read back. -/
theorem Block.Written.string {b rest : Block} (s : CString) (h : b.Written (s.bytes ++ [0]) rest) :
    b.string = some s := by
  rw [h]
  exact string_append s.nonzero rest

/-! ## The environment -/

/-- The variables and their values. -/
abbrev Env := CString → Option CString

/-- A call that returns `-1`, or one with a pointer that is no string. -/
inductive Failure
  | failed
  | undefined
  deriving DecidableEq

/-- What cannot be the name of a variable. -/
def Invalid (name : CString) : Prop := name.bytes = [] ∨ 0x3d ∈ name.bytes

instance (name : CString) : Decidable (Invalid name) := inferInstanceAs (Decidable (_ ∨ _))

/-- What the library does in a call that stores a value: whether `malloc` finds a block for it, and
`setenv` the memory for the variable. -/
structure Outcome where
  block : Bool
  memory : Bool

/-- `setenv`; whether there is memory for the new value is up to the library. -/
def setenv (memory : Bool) (env : Env) (name value : Option CString) (overwrite : Int32) :
    Except Failure Env :=
  match name with
  | none => .error .failed
  | some name =>
    if Invalid name then .error .failed
    else
      match value with
      | none => .error .undefined
      | some value =>
        if overwrite = 0 ∧ (env name).isSome then .ok env
        else if memory then .ok (Function.update env name (some value))
        else .error .failed

def unsetenv (env : Env) (name : Option CString) : Except Failure Env :=
  match name with
  | none => .error .failed
  | some name =>
    if Invalid name then .error .failed else .ok (Function.update env name none)

/-- The environment after a call. -/
def after (env : Env) (result : Except Failure Env) : Env := result.toOption.getD env

variable {memory : Bool} {env env' : Env} {name value : CString} {overwrite : Int32}

theorem setenv_eq_ok (h : setenv memory env (some name) (some value) overwrite = .ok env') :
    (overwrite = 0 ∧ (env name).isSome) ∧ env' = env
      ∨ ¬ (overwrite = 0 ∧ (env name).isSome) ∧ env' = Function.update env name (some value) := by
  unfold setenv at h
  dsimp only at h
  split at h
  · cases h
  · split at h
    · rename_i hkept
      cases h
      exact .inl ⟨hkept, rfl⟩
    · rename_i hset
      split at h
      · cases h
        exact .inr ⟨hset, rfl⟩
      · cases h

/-- A variable that is set is left alone without `overwrite`. -/
theorem setenv_kept (hname : ¬ Invalid name) (hset : (env name).isSome) :
    setenv memory env (some name) (some value) 0 = .ok env := by
  unfold setenv
  dsimp only
  rw [if_neg hname, if_pos ⟨rfl, hset⟩]

/-- A call that finds its memory succeeds. -/
theorem setenv_succeeds (hname : ¬ Invalid name) (hmemory : memory = true) :
    ∃ env', setenv memory env (some name) (some value) overwrite = .ok env' := by
  unfold setenv
  dsimp only
  rw [if_neg hname, if_pos hmemory]
  split
  · exact ⟨_, rfl⟩
  · exact ⟨_, rfl⟩

/-- What a call does to a variable depends on that variable alone. -/
theorem after_setenv (env : Env) (name value : Option CString) (n : CString) :
    after env (setenv memory env name value overwrite) n
      = if name = some n ∧ ¬ Invalid n ∧ value.isSome ∧ memory = true
          ∧ ¬ (overwrite = 0 ∧ (env n).isSome) then value else env n := by
  cases name with
  | none => simp [setenv, after, Except.toOption]
  | some name =>
    cases value with
    | none => by_cases hinvalid : Invalid name <;> simp [setenv, after, Except.toOption, hinvalid]
    | some value =>
      unfold setenv
      dsimp only
      by_cases hname : name = n
      · subst hname
        split
        · simp [after, Except.toOption, *]
        · split
          · simp [after, Except.toOption, *]
          · split <;> simp [after, Except.toOption, *]
      · have hother : n ≠ name := fun h => hname h.symm
        split
        · simp [after, Except.toOption, hname]
        · split
          · simp [after, Except.toOption, hname]
          · split <;> simp [after, Except.toOption, hname, hother]

theorem after_unsetenv (env : Env) (name : Option CString) (n : CString) :
    after env (unsetenv env name) n
      = if name = some n ∧ ¬ Invalid n then none else env n := by
  cases name with
  | none => simp [unsetenv, after, Except.toOption]
  | some name =>
    unfold unsetenv
    dsimp only
    by_cases hname : name = n
    · subst hname
      split <;> simp [after, Except.toOption, *]
    · have hother : n ≠ name := fun h => hname h.symm
      split <;> simp [after, Except.toOption, hname, hother]

theorem after_setenv_other {name : Option CString} {n : CString} (h : name ≠ some n) (env : Env)
    (value : Option CString) : after env (setenv memory env name value overwrite) n = env n := by
  rw [after_setenv, if_neg fun hand => h hand.1]

theorem after_unsetenv_other {name : Option CString} {n : CString} (h : name ≠ some n) (env : Env) :
    after env (unsetenv env name) n = env n := by
  rw [after_unsetenv, if_neg fun hand => h hand.1]

end Linuwux.LibC
