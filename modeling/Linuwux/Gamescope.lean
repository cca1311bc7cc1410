/-
`Gamescope.lean` -- `setenv` and `unsetenv` of `runtime/src/gamescope.rs`.

In a Gamescope session the library interposes both, so that whoever sets `LD_PRELOAD` keeps the
library in it: a value without its path gets the path at the end, and to unset the variable is to
set it to the path. The value is written to a block whose size `protocol/gamescope.rs` computes.
-/
import Linuwux.LibC

set_option autoImplicit false

namespace Linuwux.Gamescope

open LibC (CString Block Env Failure Outcome)

def LD_PRELOAD : CString := LibC.c_str "LD_PRELOAD"

def USIZE_MAX : ℕ := 2 ^ 64 - 1

-- `libc::isspace`, which depends on the locale.
variable (is_space : UInt8 → Bool)

/-! ## `protocol/gamescope.rs` -/

/-- What ends an entry of `LD_PRELOAD`. -/
def separates (byte : UInt8) : Bool := byte = 0x3a || is_space byte

def preload_has_path (list path : List UInt8) : Bool :=
  path ≠ [] && (list.splitOnP (separates is_space)).any fun token => token = path

/-- `usize::checked_sub`. -/
def checked_sub (a b : ℕ) : Option ℕ := if b ≤ a then some (a - b) else none

/-- `usize::from` of a comparison. -/
def usize_from (b : Bool) : ℕ := if b then 1 else 0

def preserved_length (value_length path_length : ℕ) : Option ℕ := do
  let rest ← checked_sub USIZE_MAX path_length
  let maximum ← checked_sub rest 2
  if maximum < value_length then none
  else some ((value_length + usize_from (value_length ≠ 0) + path_length + 1) % 2 ^ 64)

/-! ## `runtime/src/gamescope.rs` -/

/-- What the constructor has set up. -/
structure Library where
  enabled : Bool
  real_setenv : Bool
  real_unsetenv : Bool
  self_path : CString
  resolved : enabled = true → real_setenv = true ∧ real_unsetenv = true

def fill_preserved (destination : Block) (value path : CString) : Option Block :=
  let length := value.bytes.length
  (if length ≠ 0 then
      (destination.copy 0 value.bytes).bind fun destination => destination.copy length [0x3a]
    else some destination).bind fun destination =>
  destination.copy (length + usize_from (length ≠ 0)) (path.bytes ++ [0])

/-- Whether a call is about `LD_PRELOAD`. -/
def Library.should_check (l : Library) (name : Option CString) : Prop :=
  l.enabled = true ∧ name = some LD_PRELOAD

instance (l : Library) (name : Option CString) : Decidable (l.should_check name) :=
  inferInstanceAs (Decidable (_ ∧ _))

def Library.setenv (l : Library) (o : Outcome) (env : Env) (name value : Option CString)
    (overwrite : Int32) : Except Failure Env :=
  let real value := LibC.setenv o.memory env name value overwrite
  if !l.real_setenv then .error .failed
  else if ¬ l.should_check name then real value
  else
    match value with
    | none => real none
    | some contents =>
      -- Without `overwrite` a value that is there is kept, whatever the new one lacks.
      if preload_has_path is_space contents.bytes l.self_path.bytes
          ∨ (overwrite = 0 ∧ (env LD_PRELOAD).isSome) then real (some contents)
      else
        match preserved_length contents.bytes.length l.self_path.bytes.length with
        | none => .error .failed -- `ENOMEM`
        | some length =>
          if !o.block then .error .failed
          else
            -- What is not a string in the block would be read on behind its end.
            match (fill_preserved (LibC.malloc length) contents l.self_path).bind Block.string with
            | none => .error .undefined
            | some preserved => real (some preserved)

def Library.unsetenv (l : Library) (o : Outcome) (env : Env) (name : Option CString) :
    Except Failure Env :=
  if !l.real_unsetenv then .error .failed
  else if ¬ l.should_check name then LibC.unsetenv env name
  else if !l.real_setenv then .error .failed
  else LibC.setenv o.memory env name (some l.self_path) 1

/-! ## Calls -/

inductive Call
  | setenv (name value : Option CString) (overwrite : Int32)
  | unsetenv (name : Option CString)

/-- The variable a call is about. -/
def Call.name : Call → Option CString
  | .setenv name _ _ | .unsetenv name => name

def Library.call (l : Library) (env : Env) (o : Outcome) : Call → Except Failure Env
  | .setenv name value overwrite => l.setenv is_space o env name value overwrite
  | .unsetenv name => l.unsetenv o env name

/-- The same call without the library. -/
def real_call (env : Env) (o : Outcome) : Call → Except Failure Env
  | .setenv name value overwrite => LibC.setenv o.memory env name value overwrite
  | .unsetenv name => LibC.unsetenv env name

/-- The environment after some calls. -/
def run (call : Env → Outcome → Call → Except Failure Env) (env : Env)
    (calls : List (Outcome × Call)) : Env :=
  calls.foldl (fun env c => LibC.after env (call env c.1 c.2)) env

/-- `LD_PRELOAD` contains the path of the library. -/
def Library.Preloaded (l : Library) (env : Env) : Prop :=
  ∃ value, env LD_PRELOAD = some value
    ∧ preload_has_path is_space value.bytes l.self_path.bytes = true

/-- A value with the path at its end. -/
def with_path (value path : CString) : CString where
  bytes := value.bytes ++ (if value.bytes = [] then [] else [0x3a]) ++ path.bytes
  nonzero := by
    have hcolon : (0 : UInt8) ∉ if value.bytes = [] then [] else [0x3a] := by
      split
      · exact List.not_mem_nil
      · decide
    simp [value.nonzero, path.nonzero, hcolon]

/-- The value that is stored for `LD_PRELOAD`. -/
def Library.preserved (l : Library) (value : CString) : CString :=
  if preload_has_path is_space value.bytes l.self_path.bytes then value
  else with_path value l.self_path

/-! ## The block -/

/-- The length is that of the value, the path, the byte between them and the zero; it is computed
without an overflow. -/
theorem preserved_length_eq_some {value_length path_length length : ℕ} :
    preserved_length value_length path_length = some length
      ↔ value_length + path_length + 2 < 2 ^ 64
        ∧ length = value_length + usize_from (value_length ≠ 0) + path_length + 1 := by
  have hone : usize_from (value_length ≠ 0) ≤ 1 := by
    unfold usize_from
    split <;> omega
  unfold preserved_length checked_sub USIZE_MAX
  simp only [Option.bind_eq_bind, Option.bind_eq_some_iff, Option.ite_none_right_eq_some,
    Option.ite_none_left_eq_some, Option.some_inj]
  constructor
  · rintro ⟨rest, ⟨hpath, rfl⟩, maximum, ⟨hrest, rfl⟩, hvalue, hlength⟩
    rw [Nat.mod_eq_of_lt (by omega)] at hlength
    exact ⟨by omega, hlength.symm⟩
  · rintro ⟨hfits, hlength⟩
    refine ⟨_, ⟨by omega, rfl⟩, _, ⟨by omega, rfl⟩, by omega, ?_⟩
    rw [Nat.mod_eq_of_lt (by omega), hlength]

theorem preserved_length_eq_none {value_length path_length : ℕ} :
    preserved_length value_length path_length = none
      ↔ 2 ^ 64 ≤ value_length + path_length + 2 := by
  rw [Option.eq_none_iff_forall_ne_some]
  constructor
  · intro hnone
    by_contra hlt
    exact hnone _ (preserved_length_eq_some.mpr ⟨Nat.not_le.mp hlt, rfl⟩)
  · intro hlong length hsome
    have hfits := (preserved_length_eq_some.mp hsome).1
    omega

/-- The value, the byte after it if it is not empty, and the path and its zero are written one
behind the other. -/
theorem fill_preserved_written (destination : Block) (value path : CString)
    (hfits : ((with_path value path).bytes ++ [0]).length ≤ destination.length) :
    ∃ d, fill_preserved destination value path = some d
      ∧ d.Written ((with_path value path).bytes ++ [0])
          (destination.drop ((with_path value path).bytes ++ [0]).length) := by
  have hwritten : destination.Written [] destination := rfl
  unfold fill_preserved
  dsimp only
  by_cases hempty : value.bytes = []
  · have hbytes : (with_path value path).bytes = path.bytes := by simp [with_path, hempty]
    rw [hbytes] at hfits ⊢
    obtain ⟨d, hd, hdw⟩ := hwritten.copy _ hfits
    refine ⟨d, ?_, hdw⟩
    simp only [hempty, List.length_nil, ne_eq, not_true_eq_false, if_false, Option.bind_some,
      usize_from, decide_false, Bool.false_eq_true, Nat.add_zero]
    exact hd
  · have hbytes : (with_path value path).bytes ++ [0]
        = value.bytes ++ [0x3a] ++ (path.bytes ++ [0]) := by simp [with_path, hempty]
    have hlen : value.bytes.length ≠ 0 := fun h => hempty (List.length_eq_zero_iff.mp h)
    rw [hbytes] at hfits ⊢
    rw [List.length_append] at hfits ⊢
    obtain ⟨d₁, hd₁, hw₁⟩ := hwritten.copy_copy value.bytes [0x3a] (by omega)
    obtain ⟨d₂, hd₂, hw₂⟩ := hw₁.copy (path.bytes ++ [0])
      (by rw [List.length_drop]; omega)
    rw [List.length_nil, Nat.zero_add] at hd₁
    rw [List.nil_append, List.length_append, List.length_singleton] at hd₂
    rw [List.nil_append, List.drop_drop] at hw₂
    have hone : usize_from (value.bytes.length ≠ 0) = 1 := by simp [usize_from, hlen]
    refine ⟨d₂, ?_, hw₂⟩
    rw [if_pos hlen, hd₁, Option.bind_some, hone, hd₂]

/-- In a block of that length every byte is written, and none behind it. -/
theorem fill_preserved_spec {value path : CString} {destination : Block}
    (h : preserved_length value.bytes.length path.bytes.length = some destination.length) :
    fill_preserved destination value path
      = some (((with_path value path).bytes ++ [0]).map some) := by
  obtain ⟨-, hlength⟩ := preserved_length_eq_some.mp h
  have hneeded : ((with_path value path).bytes ++ [0]).length = destination.length := by
    rw [hlength]
    by_cases hempty : value.bytes = []
    · simp [with_path, usize_from, hempty]
    · simp [with_path, usize_from, hempty]
      omega
  obtain ⟨d, hd, hwritten⟩ := fill_preserved_written destination value path hneeded.le
  rw [hd, hwritten, hneeded, List.drop_length, List.append_nil]

theorem fill_preserved_string {value path : CString} {length : ℕ}
    (h : preserved_length value.bytes.length path.bytes.length = some length) :
    (fill_preserved (LibC.malloc length) value path).bind Block.string
      = some (with_path value path) := by
  have hlen : (LibC.malloc length).length = length := List.length_replicate
  rw [fill_preserved_spec (by rw [hlen]; exact h), Option.bind_some]
  exact @Block.Written.string _ [] _ (List.append_nil _).symm

/-! ## One call -/

theorem valid_name : ¬ LibC.Invalid LD_PRELOAD := by decide +kernel

variable {is_space} {l : Library} {o : Outcome} {env env' : Env} {value : CString}
  {overwrite : Int32}

/-- `setenv` of `LD_PRELOAD` is the C library's, of the value that is preserved, unless there is no
block for it or its length does not fit a `usize`. -/
theorem setenv_preload (h : l.enabled = true) :
    l.setenv is_space o env (some LD_PRELOAD) (some value) overwrite
        = LibC.setenv o.memory env (some LD_PRELOAD) (some (l.preserved is_space value)) overwrite
      ∨ (o.block = false ∨ 2 ^ 64 ≤ value.bytes.length + l.self_path.bytes.length + 2)
        ∧ l.setenv is_space o env (some LD_PRELOAD) (some value) overwrite = .error .failed := by
  have hcheck : ¬ ¬ l.should_check (some LD_PRELOAD) := not_not.mpr ⟨h, rfl⟩
  unfold Library.setenv Library.preserved
  dsimp only
  rw [(l.resolved h).1, Bool.not_true, if_neg Bool.false_ne_true, if_neg hcheck]
  by_cases hpath : preload_has_path is_space value.bytes l.self_path.bytes = true
  · rw [if_pos (.inl hpath), if_pos hpath]
    exact .inl rfl
  · rw [if_neg hpath]
    by_cases hkept : overwrite = 0 ∧ (env LD_PRELOAD).isSome
    · obtain ⟨rfl, hset⟩ := hkept
      rw [if_pos (.inr ⟨rfl, hset⟩), LibC.setenv_kept valid_name hset,
        LibC.setenv_kept valid_name hset]
      exact .inl rfl
    · rw [if_neg (not_or.mpr ⟨hpath, hkept⟩)]
      cases hlength : preserved_length value.bytes.length l.self_path.bytes.length with
      | none => exact .inr ⟨.inr (preserved_length_eq_none.mp hlength), rfl⟩
      | some length =>
        dsimp only
        rw [fill_preserved_string hlength]
        cases hblock : o.block with
        | false => exact .inr ⟨.inl rfl, rfl⟩
        | true => exact .inl rfl

/-- A `setenv` of `LD_PRELOAD` that gets its memory succeeds. -/
theorem setenv_preload_succeeds (h : l.enabled = true) (hblock : o.block = true)
    (hmemory : o.memory = true)
    (hlength : value.bytes.length + l.self_path.bytes.length + 2 < 2 ^ 64) :
    ∃ env', l.setenv is_space o env (some LD_PRELOAD) (some value) overwrite = .ok env' := by
  rcases @setenv_preload is_space l o env value overwrite h with hreal | ⟨hcause, -⟩
  · rw [hreal]
    exact LibC.setenv_succeeds valid_name hmemory
  · rcases hcause with hno | hlong
    · rw [hblock] at hno
      cases hno
    · exact absurd hlength (Nat.not_lt.mpr hlong)

/-- What a `setenv` of `LD_PRELOAD` that succeeds has done. -/
theorem setenv_preload_ok (h : l.enabled = true)
    (hok : l.setenv is_space o env (some LD_PRELOAD) (some value) overwrite = .ok env') :
    (overwrite = 0 ∧ (env LD_PRELOAD).isSome) ∧ env' = env
      ∨ ¬ (overwrite = 0 ∧ (env LD_PRELOAD).isSome)
        ∧ env' = Function.update env LD_PRELOAD (some (l.preserved is_space value)) := by
  rcases @setenv_preload is_space l o env value overwrite h with hreal | ⟨-, hfailed⟩
  · exact LibC.setenv_eq_ok (hreal ▸ hok)
  · rw [hfailed] at hok
    cases hok

/-- The variable is not unset but set to the path. -/
theorem unsetenv_preload (h : l.enabled = true) : l.unsetenv o env (some LD_PRELOAD)
    = LibC.setenv o.memory env (some LD_PRELOAD) (some l.self_path) 1 := by
  have hcheck : ¬ ¬ l.should_check (some LD_PRELOAD) := not_not.mpr ⟨h, rfl⟩
  unfold Library.unsetenv
  rw [(l.resolved h).1, (l.resolved h).2, Bool.not_true, if_neg Bool.false_ne_true,
    if_neg hcheck, if_neg Bool.false_ne_true]

/-- A null value is handed on. -/
theorem setenv_null (h : l.enabled = true) :
    l.setenv is_space o env (some LD_PRELOAD) none overwrite
      = LibC.setenv o.memory env (some LD_PRELOAD) none overwrite := by
  have hcheck : ¬ ¬ l.should_check (some LD_PRELOAD) := not_not.mpr ⟨h, rfl⟩
  unfold Library.setenv
  rw [(l.resolved h).1, Bool.not_true, if_neg Bool.false_ne_true, if_neg hcheck]

/-- Other variables are none of the library's business. -/
theorem setenv_other (h : l.enabled = true) {name : Option CString} (hname : name ≠ some LD_PRELOAD)
    (value : Option CString) : l.setenv is_space o env name value overwrite
      = LibC.setenv o.memory env name value overwrite := by
  unfold Library.setenv
  rw [(l.resolved h).1, Bool.not_true, if_neg Bool.false_ne_true,
    if_pos fun hcheck => hname hcheck.2]

theorem unsetenv_other (h : l.enabled = true) {name : Option CString}
    (hname : name ≠ some LD_PRELOAD) : l.unsetenv o env name = LibC.unsetenv env name := by
  unfold Library.unsetenv
  rw [(l.resolved h).2, Bool.not_true, if_neg Bool.false_ne_true,
    if_pos fun hcheck => hname hcheck.2]

theorem call_elsewhere (h : l.enabled = true) {call : Call}
    (hname : call.name ≠ some LD_PRELOAD) : l.call is_space env o call = real_call env o call := by
  cases call with
  | setenv name value overwrite => exact setenv_other h hname value
  | unsetenv name => exact unsetenv_other h hname

/-! ## The path in the list -/

/-- The path of the library is one token. -/
def Library.Solid (is_space : UInt8 → Bool) (l : Library) : Prop :=
  l.self_path.bytes ≠ [] ∧ ∀ byte ∈ l.self_path.bytes, byte ≠ 0x3a ∧ is_space byte = false

theorem Library.Solid.split (h : l.Solid is_space) :
    l.self_path.bytes.splitOnP (separates is_space) = [l.self_path.bytes] :=
  List.splitOnP_eq_singleton fun byte hbyte => by simp [separates, h.2 byte hbyte]

theorem Library.Solid.has_path (h : l.Solid is_space) :
    preload_has_path is_space l.self_path.bytes l.self_path.bytes = true := by
  simp [preload_has_path, h.1, h.split]

theorem preserved_has_path (h : l.Solid is_space) (value : CString) :
    preload_has_path is_space (l.preserved is_space value).bytes l.self_path.bytes = true := by
  unfold Library.preserved
  split
  · assumption
  · by_cases hempty : value.bytes = []
    · have hbytes : (with_path value l.self_path).bytes = l.self_path.bytes := by
        simp [with_path, hempty]
      rw [hbytes]
      exact h.has_path
    · have hbytes : (with_path value l.self_path).bytes
          = value.bytes ++ 0x3a :: l.self_path.bytes := by simp [with_path, hempty]
      unfold preload_has_path
      rw [hbytes, List.splitOnP_append_cons _ _ (by simp [separates]), h.split]
      simp [h.1]

/-! ## Runs -/

/-- A call that sets the variable to a value with the path, if it does anything. -/
theorem preloaded_setenv {memory : Bool} (hpre : l.Preloaded is_space env)
    (hvalue : preload_has_path is_space value.bytes l.self_path.bytes = true) :
    l.Preloaded is_space
      (LibC.after env (LibC.setenv memory env (some LD_PRELOAD) (some value) overwrite)) := by
  unfold Library.Preloaded
  rw [LibC.after_setenv]
  split
  · exact ⟨value, rfl, hvalue⟩
  · exact hpre

/-- A call keeps the path in the list. -/
theorem preloaded_call (h : l.enabled = true) (hsolid : l.Solid is_space)
    (hpre : l.Preloaded is_space env) (o : Outcome) (call : Call) :
    l.Preloaded is_space (LibC.after env (l.call is_space env o call)) := by
  cases call with
  | setenv name value overwrite =>
    change l.Preloaded is_space (LibC.after env (l.setenv is_space o env name value overwrite))
    by_cases hname : name = some LD_PRELOAD
    · subst hname
      cases value with
      | none =>
        rw [setenv_null h]
        unfold Library.Preloaded
        rwa [LibC.after_setenv, if_neg (by simp)]
      | some value =>
        rcases @setenv_preload is_space l o env value overwrite h with hreal | ⟨-, hfailed⟩
        · rw [hreal]
          exact preloaded_setenv hpre (preserved_has_path hsolid value)
        · rwa [hfailed]
    · rw [setenv_other h hname]
      unfold Library.Preloaded
      rwa [LibC.after_setenv_other hname]
  | unsetenv name =>
    change l.Preloaded is_space (LibC.after env (l.unsetenv o env name))
    by_cases hname : name = some LD_PRELOAD
    · rw [hname, unsetenv_preload h]
      exact preloaded_setenv hpre hsolid.has_path
    · rw [unsetenv_other h hname]
      unfold Library.Preloaded
      rwa [LibC.after_unsetenv_other hname]

theorem preloaded_run (h : l.enabled = true) (hsolid : l.Solid is_space)
    (calls : List (Outcome × Call)) (hpre : l.Preloaded is_space env) :
    l.Preloaded is_space (run (l.call is_space) env calls) := by
  induction calls generalizing env with
  | nil => exact hpre
  | cons call rest ih => exact ih (preloaded_call h hsolid hpre call.1 call.2)

/-- A call about `LD_PRELOAD` leaves the other variables alone, with the library and without. -/
theorem setenv_frame (h : l.enabled = true) {n : CString} (hn : n ≠ LD_PRELOAD) (env : Env)
    (o : Outcome) (value : Option CString) (overwrite : Int32) :
    LibC.after env (l.setenv is_space o env (some LD_PRELOAD) value overwrite) n = env n := by
  have hname : some LD_PRELOAD ≠ some n := fun heq => hn (Option.some.inj heq).symm
  cases value with
  | none => rw [setenv_null h, LibC.after_setenv_other hname]
  | some value =>
    rcases @setenv_preload is_space l o env value overwrite h with hreal | ⟨-, hfailed⟩
    · rw [hreal, LibC.after_setenv_other hname]
    · rw [hfailed]
      rfl

/-- For another variable a call does what it does without the library. -/
theorem call_other (h : l.enabled = true) {env env' : Env} {n : CString} (hn : n ≠ LD_PRELOAD)
    (heq : env n = env' n) (o : Outcome) (call : Call) :
    LibC.after env (l.call is_space env o call) n
      = LibC.after env' (real_call env' o call) n := by
  have hpreload : some LD_PRELOAD ≠ some n := fun heq => hn (Option.some.inj heq).symm
  cases call with
  | setenv name value overwrite =>
    change LibC.after env (l.setenv is_space o env name value overwrite) n
      = LibC.after env' (LibC.setenv o.memory env' name value overwrite) n
    by_cases hname : name = some LD_PRELOAD
    · rw [hname, setenv_frame h hn, LibC.after_setenv_other hpreload, heq]
    · rw [setenv_other h hname, LibC.after_setenv, LibC.after_setenv, heq]
  | unsetenv name =>
    change LibC.after env (l.unsetenv o env name) n = LibC.after env' (LibC.unsetenv env' name) n
    by_cases hname : name = some LD_PRELOAD
    · rw [hname, unsetenv_preload h, LibC.after_setenv_other hpreload,
        LibC.after_unsetenv_other hpreload, heq]
    · rw [unsetenv_other h hname, LibC.after_unsetenv, LibC.after_unsetenv, heq]

theorem run_other (h : l.enabled = true) (calls : List (Outcome × Call)) {env env' : Env}
    {n : CString} (hn : n ≠ LD_PRELOAD) (heq : env n = env' n) :
    run (l.call is_space) env calls n = run real_call env' calls n := by
  induction calls generalizing env env' with
  | nil => exact heq
  | cons call rest ih => exact ih (call_other h hn heq call.1 call.2)

variable (is_space l)

/-- **`LD_PRELOAD` keeps the library.** No sequence of calls takes the path out of it. A `setenv`
that takes effect stores the value with the path at its end, if it lacks it, and one that does not
take effect changes nothing; one that gets its memory succeeds. Calls about other variables return
what they return without the library, those variables are as without it, and the block for the new
value is written from the first byte to the last. -/
theorem preload_is_preserved (h : l.enabled = true) (hsolid : l.Solid is_space) :
    (∀ env calls, l.Preloaded is_space env → l.Preloaded is_space (run (l.call is_space) env calls))
      ∧ (∀ o env env' value overwrite, overwrite ≠ 0 ∨ env LD_PRELOAD = none →
          l.setenv is_space o env (some LD_PRELOAD) (some value) overwrite = .ok env' →
          env' = Function.update env LD_PRELOAD (some (l.preserved is_space value)))
      ∧ (∀ o env env' value overwrite, ¬ (overwrite ≠ 0 ∨ env LD_PRELOAD = none) →
          l.setenv is_space o env (some LD_PRELOAD) (some value) overwrite = .ok env' → env' = env)
      ∧ (∀ (o : Outcome) env (value : CString) overwrite, o.block = true → o.memory = true →
          value.bytes.length + l.self_path.bytes.length + 2 < 2 ^ 64 →
          ∃ env', l.setenv is_space o env (some LD_PRELOAD) (some value) overwrite = .ok env')
      ∧ (∀ o env (call : Call), call.name ≠ some LD_PRELOAD →
          l.call is_space env o call = real_call env o call)
      ∧ (∀ env calls n, n ≠ LD_PRELOAD →
          run (l.call is_space) env calls n = run real_call env calls n)
      ∧ (∀ (value path : CString) (destination : Block),
          preserved_length value.bytes.length path.bytes.length = some destination.length →
          fill_preserved destination value path
            = some (((with_path value path).bytes ++ [0]).map some))
      ∧ ∀ value_length path_length length, preserved_length value_length path_length = some length
          ↔ value_length + path_length + 2 < 2 ^ 64
            ∧ length = value_length + usize_from (value_length ≠ 0) + path_length + 1 := by
  have hset {env : Env} : ¬ (env LD_PRELOAD).isSome ↔ env LD_PRELOAD = none := by simp
  refine ⟨fun env calls => preloaded_run h hsolid calls, ?_, ?_,
    fun _ _ _ _ => setenv_preload_succeeds h, fun _ _ _ => call_elsewhere h,
    fun env calls n hn => run_other h calls hn rfl,
    fun _ _ _ => fill_preserved_spec, fun _ _ _ => preserved_length_eq_some⟩
  · intro o env env' value overwrite htakes hok
    rcases setenv_preload_ok h hok with ⟨⟨hzero, hsome⟩, -⟩ | ⟨-, henv⟩
    · exact absurd htakes (not_or.mpr ⟨not_not.mpr hzero, fun hnone => hset.mpr hnone hsome⟩)
    · exact henv
  · intro o env env' value overwrite hkeeps hok
    obtain ⟨hzero, hsome⟩ := not_or.mp hkeeps
    rcases setenv_preload_ok h hok with ⟨-, henv⟩ | ⟨htakes, -⟩
    · exact henv
    · exact absurd ⟨not_not.mp hzero, not_not.mp fun hno => hsome (hset.mp hno)⟩ htakes

/-- `isspace` in the C locale. -/
def c_is_space (byte : UInt8) : Bool := byte = 0x20 ∨ (0x09 ≤ byte ∧ byte ≤ 0x0d)

def installed : Library where
  enabled := true
  real_setenv := true
  real_unsetenv := true
  self_path := LibC.c_str "/opt/linuwux.so"
  resolved := by decide

theorem installed_is_preserved :
    installed.Preloaded c_is_space
      (run (installed.call c_is_space) (fun _ => some installed.self_path)
        [(⟨true, true⟩, .setenv (some LD_PRELOAD) (some ⟨[0x61], by decide⟩) 1),
          (⟨true, true⟩, .unsetenv (some LD_PRELOAD))]) :=
  (preload_is_preserved c_is_space installed rfl ⟨by decide +kernel, by decide +kernel⟩).1 _ _
    ⟨_, rfl, by decide +kernel⟩

end Linuwux.Gamescope
