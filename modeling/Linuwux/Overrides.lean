/-
`Overrides.lean` -- the DLL overrides of `runtime/src/environment.rs` and `protocol/environment.rs`.

For a game process every DLL of `OVERRIDES` gets an entry `name=n,b` in `WINEDLLOVERRIDES`, unless
the value has an entry for it. The value is read anew for every DLL, with the entries of the DLLs
before it at its end. They are for other names, so what counts is the value at the start
([`missing`], [`setup_overrides_spec`]).

An entry counts for a DLL if the text before its `=` is the name. Wine reads that text as a list of
names, in any case ([`Configures`]).
-/
import Linuwux.LibC

set_option autoImplicit false

namespace Linuwux.Overrides

open LibC (CString Block Env Failure Outcome b_str c_str)

/-! ## `protocol/environment.rs` -/

def OVERRIDES : List CString :=
  [c_str "winmm", c_str "version", c_str "reflex", c_str "reflex64", c_str "DenuvOwO",
    c_str "artifact", c_str "d3d9", c_str "d3d10", c_str "d3d11", c_str "d3d12", c_str "dinput8",
    c_str "dsound", c_str "dxgi", c_str "hid", c_str "wininet", c_str "winhttp"]

def already_present (existing dll : List UInt8) : Bool :=
  dll = [] || (existing.splitOn 0x3b).any fun entry => (entry.splitOn 0x3d).head? = some dll

/-- `usize::checked_add`. -/
def checked_add (a b : ℕ) : Option ℕ := if a + b < 2 ^ 64 then some (a + b) else none

def override_capacity (existing : Option ℕ) (dll_length : ℕ) : Option ℕ :=
  let start := match existing with
    | some length => checked_add length 1
    | none => some 0
  start.bind fun start => (checked_add start dll_length).bind fun sum => checked_add sum 5

/-! ## `runtime/src/environment.rs` -/

def WINEDLLOVERRIDES : CString := c_str "WINEDLLOVERRIDES"

/-- `c"=n,b"`. -/
def NATIVE : CString := c_str "=n,b"

def fill_override (output : Block) (existing : Option CString) (dll : CString) : Option Block :=
  let front := (existing.map CString.bytes).getD []
  let position := if front ≠ [] then front.length + 1 else 0
  (if front ≠ [] then (output.copy 0 front).bind fun output => output.copy front.length [0x3b]
    else some output).bind fun output =>
  (output.copy position dll.bytes).bind fun output =>
  output.copy (position + dll.bytes.length) (NATIVE.bytes ++ [0])

def add_override (o : Outcome) (env : Env) (dll : CString) : Except Failure Env :=
  let existing := env WINEDLLOVERRIDES
  if existing.any fun value => already_present value.bytes dll.bytes then .ok env
  else
    match override_capacity (existing.map fun value => value.bytes.length) dll.bytes.length with
    | none => .error .failed
    | some capacity =>
      if !o.block then .error .failed
      else
        match (fill_override (LibC.malloc capacity) existing dll).bind Block.string with
        | none => .error .undefined
        -- The new value begins with the old one, so it may overwrite it.
        | some output => LibC.setenv o.memory env (some WINEDLLOVERRIDES) (some output) 1

/-- The loop over some DLLs; `o` is what the C library does for each of them. -/
def add_overrides (o : CString → Outcome) (env : Env) (dlls : List CString) : Env :=
  dlls.foldl (fun env dll => LibC.after env (add_override (o dll) env dll)) env

/-- The loop of `linuwux_setup_environment`. -/
def setup_overrides (o : CString → Outcome) (env : Env) : Env := add_overrides o env OVERRIDES

/-- No call of the loop fails. -/
def Allocates (o : CString → Outcome) (env : Env) (dlls : List CString) : Prop :=
  (dlls.foldlM (fun env dll => add_override (o dll) env dll) env).isOk = true

/-! ## Entries -/

/-- The value of the variable; an unset one has no entries, like an empty one. -/
def value (env : Env) : List UInt8 := ((env WINEDLLOVERRIDES).map CString.bytes).getD []

def entries (value : List UInt8) : List (List UInt8) := value.splitOn 0x3b

/-- The text of an entry before its `=`. -/
def entry_name (entry : List UInt8) : List UInt8 := entry.takeWhile fun byte => byte ≠ 0x3d

/-- An entry names the DLL. -/
def Names (value : List UInt8) (dll : CString) : Prop :=
  ∃ entry ∈ entries value, entry_name entry = dll.bytes

instance (value : List UInt8) (dll : CString) : Decidable (Names value dll) :=
  inferInstanceAs (Decidable (∃ entry ∈ entries value, entry_name entry = dll.bytes))

/-- `name=n,b`. -/
def native_entry (dll : CString) : List UInt8 := dll.bytes ++ NATIVE.bytes

/-- The DLLs that no entry names. -/
def missing (value : List UInt8) (dlls : List CString) : List CString :=
  dlls.filter fun dll => ¬ Names value dll

/-- A value with one more entry. -/
def extend (value : List UInt8) (dll : CString) : List UInt8 :=
  (if value = [] then [] else value ++ [0x3b]) ++ native_entry dll

/-- What every name of `OVERRIDES` is like: no separator is in it. -/
structure Plain (dll : CString) : Prop where
  nonempty : dll.bytes ≠ []
  no_semicolon : 0x3b ∉ dll.bytes
  no_equals : 0x3d ∉ dll.bytes

theorem overrides_plain : ∀ dll ∈ OVERRIDES, Plain dll := by
  have hall : ∀ dll ∈ OVERRIDES, dll.bytes ≠ [] ∧ 0x3b ∉ dll.bytes ∧ 0x3d ∉ dll.bytes := by
    decide +kernel
  exact fun dll hdll => ⟨(hall dll hdll).1, (hall dll hdll).2.1, (hall dll hdll).2.2⟩

theorem overrides_nodup : OVERRIDES.Nodup := by decide +kernel

theorem head?_splitOn (text : List UInt8) (separator : UInt8) :
    (text.splitOn separator).head? = some (text.takeWhile fun byte => byte ≠ separator) := by
  induction text with
  | nil => rfl
  | cons byte rest ih =>
    rw [List.splitOn_cons_eq_if_modifyHead, List.takeWhile_cons]
    by_cases hbyte : byte = separator
    · simp [hbyte]
    · rw [if_neg (by simpa using hbyte), List.head?_modifyHead, ih]
      simp [hbyte]

/-- The code's test is whether an entry names the DLL. -/
theorem already_present_iff {dll : CString} (h : Plain dll) (value : List UInt8) :
    already_present value dll.bytes = true ↔ Names value dll := by
  simp [already_present, Names, entries, entry_name, head?_splitOn, h.nonempty]

/-- The new entry names its DLL. -/
theorem entry_name_native {dll : CString} (h : Plain dll) :
    entry_name (native_entry dll) = dll.bytes := by
  have hname : ∀ byte ∈ dll.bytes, decide (byte ≠ 0x3d) = true := by
    intro byte hmem
    exact decide_eq_true fun heq => h.no_equals (heq ▸ hmem)
  unfold entry_name native_entry
  rw [List.takeWhile_append_of_pos hname]
  have hnative : NATIVE.bytes.takeWhile (fun byte => decide (byte ≠ 0x3d)) = [] := by
    decide +kernel
  rw [hnative, List.append_nil]

/-- To extend the value is to put an entry behind the others. -/
theorem entries_extend {dll : CString} (h : Plain dll) (value : List UInt8) :
    entries (extend value dll)
      = (if value = [] then [] else entries value) ++ [native_entry dll] := by
  have hnative : 0x3b ∉ native_entry dll := by
    have hsuffix : 0x3b ∉ NATIVE.bytes := by decide +kernel
    simp [native_entry, h.no_semicolon, hsuffix]
  unfold entries extend
  split
  · exact List.splitOn_eq_singleton hnative
  · rw [List.append_assoc, List.singleton_append, List.splitOn_append_cons_self,
      List.splitOn_eq_singleton hnative]

/-- An entry that is added names its own DLL. -/
theorem names_extend {dll other : CString} (h : Plain dll) (hother : Plain other)
    (value : List UInt8) : Names (extend value dll) other ↔ Names value other ∨ other = dll := by
  have hempty : ¬ Names [] other := by
    rintro ⟨entry, hentry, hname⟩
    obtain rfl : entry = [] := List.mem_singleton.mp hentry
    exact hother.nonempty hname.symm
  have hdll : entry_name (native_entry dll) = other.bytes ↔ other = dll := by
    rw [entry_name_native h, CString.ext_iff, eq_comm]
  unfold Names at hempty ⊢
  rw [entries_extend h]
  by_cases hvalue : value = []
  · subst hvalue
    simp only [if_true, List.nil_append, List.mem_singleton, exists_eq_left, hdll, hempty,
      false_or]
  · simp only [hvalue, if_false, List.mem_append, List.mem_singleton, or_and_right, exists_or,
      exists_eq_left, hdll]

/-! ## One DLL -/

/-- The capacity, where it does not overflow. -/
theorem override_capacity_eq_some {existing : Option ℕ} {dll_length capacity : ℕ}
    (h : override_capacity existing dll_length = some capacity) :
    capacity = existing.elim 0 (· + 1) + dll_length + 5 := by
  have hadd {a b c : ℕ} (h : checked_add a b = some c) : c = a + b :=
    (Option.some.inj (Option.ite_none_right_eq_some.mp h).2).symm
  unfold override_capacity at h
  simp only [Option.bind_eq_some_iff] at h
  obtain ⟨start, hstart, sum, hsum, hcapacity⟩ := h
  rw [hadd hcapacity, hadd hsum]
  cases existing with
  | none =>
    cases hstart
    rfl
  | some length =>
    rw [hadd hstart]
    rfl

/-- The capacity is refused only where it does not fit a `usize`. -/
theorem override_capacity_ne_none {existing : Option ℕ} {dll_length : ℕ}
    (h : existing.elim 0 (· + 1) + dll_length + 5 < 2 ^ 64) :
    override_capacity existing dll_length ≠ none := by
  have hadd {a b : ℕ} (h : a + b < 2 ^ 64) : checked_add a b = some (a + b) := if_pos h
  unfold override_capacity
  cases existing with
  | none =>
    rw [Option.elim_none] at h
    simp only [Option.bind_some]
    rw [hadd (by omega), Option.bind_some, hadd h]
    exact Option.some_ne_none _
  | some length =>
    rw [Option.elim_some] at h
    dsimp only
    rw [hadd (by omega), Option.bind_some, hadd (by omega), Option.bind_some, hadd h]
    exact Option.some_ne_none _

/-- The value with the new entry, without the zero at the end. -/
def extended (existing : Option CString) (dll : CString) : CString where
  bytes := extend ((existing.map CString.bytes).getD []) dll
  nonzero := by
    have hnative : 0 ∉ native_entry dll := by
      simp [native_entry, dll.nonzero, NATIVE.nonzero]
    have hfront : 0 ∉ (existing.map CString.bytes).getD [] := by
      cases existing with
      | none => exact List.not_mem_nil
      | some value => exact value.nonzero
    unfold extend
    split
    · exact hnative
    · simp [hfront, hnative]

/-- What is written fits the capacity. -/
theorem length_extended_le {existing : Option CString} {dll : CString} {capacity : ℕ}
    (h : override_capacity (existing.map fun value => value.bytes.length) dll.bytes.length
      = some capacity) : ((extended existing dll).bytes ++ [0]).length ≤ capacity := by
  have hnative : NATIVE.bytes.length = 4 := by decide +kernel
  rw [override_capacity_eq_some h]
  cases existing with
  | none => simp [extended, extend, native_entry, hnative]
  | some value =>
    by_cases hempty : value.bytes = []
    · simp [extended, extend, native_entry, hnative, hempty]
    · simp [extended, extend, native_entry, hnative, hempty]
      omega

/-- The value, the semicolon, the name and the order are written one behind the other. -/
theorem fill_override_written {output : Block} {existing : Option CString} {dll : CString}
    (hfits : ((extended existing dll).bytes ++ [0]).length ≤ output.length) :
    ∃ b, fill_override output existing dll = some b
      ∧ b.Written ((extended existing dll).bytes ++ [0])
          (output.drop ((extended existing dll).bytes ++ [0]).length) := by
  have hwritten : output.Written [] output := rfl
  unfold fill_override
  dsimp only
  by_cases hempty : (existing.map CString.bytes).getD [] = []
  · have hbytes : (extended existing dll).bytes ++ [0] = dll.bytes ++ (NATIVE.bytes ++ [0]) := by
      simp [extended, extend, native_entry, hempty]
    rw [hbytes] at hfits ⊢
    obtain ⟨b, hb, hw⟩ := hwritten.copy_copy _ _ hfits
    refine ⟨b, ?_, hw⟩
    rw [if_neg (not_not.mpr hempty), if_neg (not_not.mpr hempty), Option.bind_some]
    exact hb
  · have hbytes : (extended existing dll).bytes ++ [0]
        = (existing.map CString.bytes).getD [] ++ [0x3b]
          ++ (dll.bytes ++ (NATIVE.bytes ++ [0])) := by
      simp [extended, extend, native_entry, hempty]
    rw [hbytes] at hfits ⊢
    rw [List.length_append] at hfits ⊢
    obtain ⟨b₁, hb₁, hw₁⟩ := hwritten.copy_copy ((existing.map CString.bytes).getD []) [0x3b]
      (by omega)
    obtain ⟨b₂, hb₂, hw₂⟩ := hw₁.copy_copy dll.bytes (NATIVE.bytes ++ [0])
      (by rw [List.length_drop]; omega)
    rw [List.length_nil, Nat.zero_add] at hb₁
    rw [List.nil_append, List.length_append, List.length_singleton] at hb₂
    rw [List.nil_append, List.drop_drop] at hw₂
    refine ⟨b₂, ?_, hw₂⟩
    rw [if_pos hempty, if_pos hempty, hb₁, Option.bind_some]
    exact hb₂

/-- What is filled in is the extended value. -/
theorem fill_override_string {existing : Option CString} {dll : CString} {capacity : ℕ}
    (h : override_capacity (existing.map fun value => value.bytes.length) dll.bytes.length
      = some capacity) :
    (fill_override (LibC.malloc capacity) existing dll).bind Block.string
      = some (extended existing dll) := by
  have hfits := length_extended_le h
  have hlen : (LibC.malloc capacity).length = capacity := List.length_replicate
  obtain ⟨b, hb, hw⟩ := fill_override_written (hlen.symm ▸ hfits)
  rw [hb, Option.bind_some, hw.string]

variable {o : Outcome} {env env' : Env} {dll : CString}

/-- A DLL that is named is left alone. -/
theorem add_override_named (h : Plain dll) (hnames : Names (value env) dll) :
    add_override o env dll = .ok env := by
  unfold add_override
  dsimp only
  unfold value at hnames
  cases hexisting : env WINEDLLOVERRIDES with
  | none =>
    rw [hexisting] at hnames
    obtain ⟨entry, hentry, hname⟩ := hnames
    obtain rfl : entry = [] := List.mem_singleton.mp hentry
    exact absurd hname.symm h.nonempty
  | some existing =>
    rw [hexisting] at hnames
    exact if_pos ((already_present_iff h existing.bytes).mpr hnames)

/-- Any other gets its entry, and the other variables stay, unless an allocation fails or the
capacity is refused. -/
theorem add_override_missing (h : Plain dll) (hnames : ¬ Names (value env) dll) :
    (add_override o env dll = .error .failed
        ∧ (override_capacity ((env WINEDLLOVERRIDES).map fun value => value.bytes.length)
            dll.bytes.length = none ∨ o.block = false ∨ o.memory = false))
      ∨ add_override o env dll = .ok (Function.update env WINEDLLOVERRIDES
          (some (extended (env WINEDLLOVERRIDES) dll))) := by
  have hpresent : ¬ ((env WINEDLLOVERRIDES).any fun value =>
      already_present value.bytes dll.bytes) = true := by
    unfold value at hnames
    cases hexisting : env WINEDLLOVERRIDES with
    | none => exact Bool.false_ne_true
    | some existing =>
      rw [hexisting] at hnames
      exact fun htrue => hnames ((already_present_iff h existing.bytes).mp htrue)
  unfold add_override
  dsimp only
  rw [if_neg hpresent]
  cases hcapacity : override_capacity ((env WINEDLLOVERRIDES).map fun value => value.bytes.length)
      dll.bytes.length with
  | none => exact .inl ⟨rfl, .inl rfl⟩
  | some capacity =>
    dsimp only
    rw [fill_override_string hcapacity]
    cases hblock : o.block with
    | false => exact .inl ⟨rfl, .inr (.inl rfl)⟩
    | true =>
      have hname : ¬ LibC.Invalid WINEDLLOVERRIDES := by decide +kernel
      cases hmemory : o.memory with
      | false => exact .inl ⟨by simp [LibC.setenv, hname], .inr (.inr rfl)⟩
      | true => exact .inr (by simp [LibC.setenv, hname])

/-- The variable then has the extended value. -/
theorem value_update (env : Env) (dll : CString) :
    value (Function.update env WINEDLLOVERRIDES (some (extended (env WINEDLLOVERRIDES) dll)))
      = extend (value env) dll := by
  simp [value, extended]

/-! ## The loop -/

/-- A value with entries for some DLLs. -/
def extend_all (value : List UInt8) (dlls : List CString) : List UInt8 := dlls.foldl extend value

/-- Nothing of the value is lost. -/
theorem prefix_extend_all (dlls : List CString) (value : List UInt8) :
    value <+: extend_all value dlls := by
  induction dlls generalizing value with
  | nil => exact List.prefix_rfl
  | cons dll rest ih =>
    have hone : value <+: extend value dll := by
      unfold extend
      split
      · rename_i hempty
        rw [hempty]
        exact List.nil_prefix
      · rw [List.append_assoc]
        exact List.prefix_append _ _
    exact hone.trans (ih _)

theorem extend_ne_nil {dll : CString} (h : Plain dll) (value : List UInt8) :
    extend value dll ≠ [] := by
  simp [extend, native_entry, h.nonempty]

/-- The entries of a value that is not empty, and the new ones behind them. -/
theorem entries_extend_all {dlls : List CString} (h : ∀ dll ∈ dlls, Plain dll)
    {value : List UInt8} (hvalue : value ≠ []) :
    entries (extend_all value dlls) = entries value ++ dlls.map native_entry := by
  induction dlls generalizing value with
  | nil => exact (List.append_nil _).symm
  | cons dll rest ih =>
    obtain ⟨hdll, hrest⟩ := List.forall_mem_cons.mp h
    change entries (extend_all (extend value dll) rest) = _
    rw [ih hrest (extend_ne_nil hdll value), entries_extend hdll, if_neg hvalue, List.append_assoc]
    rfl

/-- A DLL is named by an old entry or by a new one. -/
theorem names_extend_all {dlls : List CString} (h : ∀ dll ∈ dlls, Plain dll) {other : CString}
    (hother : Plain other) (value : List UInt8) :
    Names (extend_all value dlls) other ↔ Names value other ∨ other ∈ dlls := by
  induction dlls generalizing value with
  | nil => simp [extend_all]
  | cons dll rest ih =>
    obtain ⟨hdll, hrest⟩ := List.forall_mem_cons.mp h
    change Names (extend_all (extend value dll) rest) other ↔ _
    rw [ih hrest, names_extend hdll hother, List.mem_cons, or_assoc]

/-- The entry of one DLL does not make another one named. -/
theorem missing_extend {dll : CString} (hdll : Plain dll) {dlls : List CString}
    (h : ∀ dll ∈ dlls, Plain dll) (hnot : dll ∉ dlls) (value : List UInt8) :
    missing (extend value dll) dlls = missing value dlls := by
  refine List.filter_congr fun other hother => ?_
  have hne : other ≠ dll := fun heq => hnot (heq ▸ hother)
  simp only [names_extend hdll (h other hother), hne, or_false]

/-- What the loop over some DLLs comes to: entries for some of those that no entry names, for all of
them if no allocation fails. -/
structure Extended (o : CString → Outcome) (env : Env) (dlls added : List CString) : Prop where
  value_eq : value (add_overrides o env dlls) = extend_all (value env) added
  sublist : added.Sublist (missing (value env) dlls)
  complete : Allocates o env dlls → added = missing (value env) dlls
  frame : ∀ n, n ≠ WINEDLLOVERRIDES → add_overrides o env dlls n = env n

/-- A call that does nothing. -/
theorem Extended.skip {o : CString → Outcome} {dlls added : List CString}
    (h : LibC.after env (add_override (o dll) env dll) = env)
    (hrest : Extended o env dlls added)
    (hsub : added.Sublist (missing (value env) (dll :: dlls)))
    (hcomplete : Allocates o env (dll :: dlls) → added = missing (value env) (dll :: dlls)) :
    Extended o env (dll :: dlls) added := by
  have hloop : add_overrides o env (dll :: dlls) = add_overrides o env dlls := by
    change add_overrides o (LibC.after env (add_override (o dll) env dll)) dlls = _
    rw [h]
  exact ⟨by rw [hloop, hrest.value_eq], hsub, hcomplete, by rw [hloop]; exact hrest.frame⟩

/-- **The loop.** The induction is on the DLLs; the entry of the first one plays no role for the
next ones, since the names differ. -/
theorem exists_extended (o : CString → Outcome) (env : Env) {dlls : List CString}
    (h : ∀ dll ∈ dlls, Plain dll) (hnodup : dlls.Nodup) :
    ∃ added, Extended o env dlls added := by
  induction dlls generalizing env with
  | nil => exact ⟨[], rfl, .slnil, fun _ => rfl, fun _ _ => rfl⟩
  | cons dll rest ih =>
    obtain ⟨hdll, hrest⟩ := List.forall_mem_cons.mp h
    obtain ⟨hnot, hnodup⟩ := List.nodup_cons.mp hnodup
    by_cases hnames : Names (value env) dll
    · -- The first DLL is named: nothing is done for it.
      have hskip := add_override_named (o := o dll) hdll hnames
      have hmissing : missing (value env) (dll :: rest) = missing (value env) rest :=
        List.filter_cons_of_neg (by simpa using hnames)
      obtain ⟨added, hadded⟩ := ih env hrest hnodup
      refine ⟨added, hadded.skip (by rw [hskip]; rfl) (hmissing ▸ hadded.sublist) fun hall => ?_⟩
      unfold Allocates at hall
      rw [List.foldlM_cons, hskip] at hall
      exact (hadded.complete hall).trans hmissing.symm
    · have hmissing : missing (value env) (dll :: rest) = dll :: missing (value env) rest :=
        List.filter_cons_of_pos (by simpa using hnames)
      rcases add_override_missing (o := o dll) hdll hnames with ⟨hfailed, -⟩ | hok
      · -- An allocation fails: the loop goes on without the entry.
        obtain ⟨added, hadded⟩ := ih env hrest hnodup
        refine ⟨added, hadded.skip (by rw [hfailed]; rfl) ?_ fun hall => ?_⟩
        · rw [hmissing]
          exact hadded.sublist.cons dll
        · unfold Allocates at hall
          rw [List.foldlM_cons, hfailed] at hall
          cases hall
      · -- From here on the value has the entry.
        obtain ⟨added, hadded⟩ := ih _ hrest hnodup
        have hloop : add_overrides o env (dll :: rest) = add_overrides o
            (Function.update env WINEDLLOVERRIDES (some (extended (env WINEDLLOVERRIDES) dll)))
            rest := by
          change add_overrides o (LibC.after env (add_override (o dll) env dll)) rest = _
          rw [hok]
          rfl
        have hlater : missing (extend (value env) dll) rest = missing (value env) rest :=
          missing_extend hdll hrest hnot _
        refine ⟨dll :: added, ?_, ?_, fun hall => ?_, fun n hn => ?_⟩
        · rw [hloop, hadded.value_eq, value_update]
          rfl
        · have hsub := hadded.sublist
          rw [value_update, hlater] at hsub
          rw [hmissing]
          exact hsub.cons_cons dll
        · unfold Allocates at hall
          rw [List.foldlM_cons, hok] at hall
          rw [hmissing, hadded.complete hall, value_update, hlater]
        · rw [hloop, hadded.frame n hn]
          exact Function.update_of_ne hn _ _

/-- How much longer an entry makes the value. -/
theorem length_extend_le (value : List UInt8) (dll : CString) :
    (extend value dll).length ≤ value.length + dll.bytes.length + 5 := by
  have hnative : NATIVE.bytes.length = 4 := by decide +kernel
  unfold extend native_entry
  split
  · rw [List.nil_append, List.length_append, hnative]
    omega
  · simp only [List.length_append, List.length_singleton, hnative]
    omega

/-- **Where no call fails.** The allocations succeed, and the lengths fit a `usize` to the end. -/
theorem allocates {o : CString → Outcome} {dlls : List CString} (h : ∀ dll ∈ dlls, Plain dll)
    (hblock : ∀ dll ∈ dlls, (o dll).block = true) (hmemory : ∀ dll ∈ dlls, (o dll).memory = true)
    (hlength : (value env).length + (dlls.map fun dll => dll.bytes.length + 6).sum < 2 ^ 64) :
    Allocates o env dlls := by
  induction dlls generalizing env with
  | nil => rfl
  | cons dll rest ih =>
    obtain ⟨hdll, hrest⟩ := List.forall_mem_cons.mp h
    obtain ⟨hb, hblock⟩ := List.forall_mem_cons.mp hblock
    obtain ⟨hm, hmemory⟩ := List.forall_mem_cons.mp hmemory
    rw [List.map_cons, List.sum_cons] at hlength
    unfold Allocates
    rw [List.foldlM_cons]
    by_cases hnames : Names (value env) dll
    · rw [add_override_named hdll hnames]
      exact ih hrest hblock hmemory (by omega)
    · rcases add_override_missing (o := o dll) hdll hnames with ⟨-, hcause⟩ | hok
      · exfalso
        rcases hcause with hcapacity | hno | hno
        · refine override_capacity_ne_none ?_ hcapacity
          unfold value at hlength
          cases hexisting : env WINEDLLOVERRIDES with
          | none => simp; omega
          | some existing =>
            rw [hexisting] at hlength
            simp at hlength ⊢
            omega
        · exact Bool.false_ne_true (hno.symm.trans hb)
        · exact Bool.false_ne_true (hno.symm.trans hm)
      · rw [hok]
        refine ih hrest hblock hmemory ?_
        have hgrows := length_extend_le (value env) dll
        rw [value_update]
        omega

/-- Where all are named the loop does nothing. -/
theorem add_overrides_named (o : CString → Outcome) {dlls : List CString}
    (h : ∀ dll ∈ dlls, Plain dll) (hnames : ∀ dll ∈ dlls, Names (value env) dll) :
    add_overrides o env dlls = env := by
  induction dlls with
  | nil => rfl
  | cons dll rest ih =>
    obtain ⟨hdll, hrest⟩ := List.forall_mem_cons.mp h
    obtain ⟨hname, hnames⟩ := List.forall_mem_cons.mp hnames
    change add_overrides o (LibC.after env (add_override (o dll) env dll)) rest = env
    rw [add_override_named hdll hname]
    exact ih hrest hnames

/-- Where no call fails every DLL is named in the end. -/
theorem names_of_complete {o : CString → Outcome}
    (h : Extended o env OVERRIDES (missing (value env) OVERRIDES)) :
    ∀ dll ∈ OVERRIDES, Names (value (setup_overrides o env)) dll := by
  intro dll hdll
  have hplain : ∀ dll ∈ missing (value env) OVERRIDES, Plain dll := fun dll hmem =>
    overrides_plain dll (List.mem_of_mem_filter hmem)
  unfold setup_overrides
  rw [h.value_eq, names_extend_all hplain (overrides_plain dll hdll)]
  by_cases hnames : Names (value env) dll
  · exact .inl hnames
  · exact .inr (List.mem_filter.mpr ⟨hdll, by simpa using hnames⟩)

/-- The entries in the end. -/
theorem entries_setup {o : CString → Outcome} {added : List CString}
    (h : Extended o env OVERRIDES added) (hne : value env = [] → added ≠ []) :
    entries (value (setup_overrides o env))
      = (if value env = [] then [] else entries (value env)) ++ added.map native_entry := by
  have hplain : ∀ dll ∈ added, Plain dll := fun dll hmem =>
    overrides_plain dll (List.mem_of_mem_filter (h.sublist.subset hmem))
  unfold setup_overrides
  rw [h.value_eq]
  split
  · rename_i hempty
    cases added with
    | nil => exact absurd rfl (hne hempty)
    | cons dll rest =>
      obtain ⟨hdll, hrest⟩ := List.forall_mem_cons.mp hplain
      change entries (extend_all (extend (value env) dll) rest) = _
      rw [entries_extend_all hrest (extend_ne_nil hdll _), entries_extend hdll, if_pos hempty]
      rfl
  · rename_i hne
    exact entries_extend_all hplain hne

/-- **The overrides of a game process.** What the user has set stays as it is; behind it there is
one new entry for every DLL that no entry names, and no other. Then every DLL is named, so the loop
would change nothing a second time. No entry is written beyond its block. The allocations for the
entries succeed, and the value is no longer than a string can be. -/
theorem setup_overrides_spec {o : CString → Outcome} {env : Env}
    (hblock : ∀ dll ∈ OVERRIDES, (o dll).block = true)
    (hmemory : ∀ dll ∈ OVERRIDES, (o dll).memory = true)
    (hlength : (value env).length < 2 ^ 63) :
    value env <+: value (setup_overrides o env)
      ∧ (∀ dll ∈ OVERRIDES, Names (value (setup_overrides o env)) dll)
      ∧ entries (value (setup_overrides o env))
        = (if value env = [] then [] else entries (value env))
          ++ (missing (value env) OVERRIDES).map native_entry
      ∧ (∀ n, n ≠ WINEDLLOVERRIDES → setup_overrides o env n = env n)
      ∧ (∀ o', setup_overrides o' (setup_overrides o env) = setup_overrides o env)
      ∧ ∀ (existing : Option CString) (dll : CString) (output : Block) (capacity : ℕ),
          override_capacity (existing.map fun value => value.bytes.length) dll.bytes.length
            = some capacity → capacity ≤ output.length →
          ∃ output' written, fill_override output existing dll = some output'
            ∧ output'.Written written (output.drop written.length)
            ∧ written.length ≤ capacity := by
  obtain ⟨added, hadded⟩ := exists_extended o env overrides_plain overrides_nodup
  have hsum : (OVERRIDES.map fun dll => dll.bytes.length + 6).sum < 2 ^ 63 := by decide +kernel
  have hcomplete := hadded.complete (allocates overrides_plain hblock hmemory (by omega))
  subst hcomplete
  have hnames := names_of_complete hadded
  refine ⟨?_, hnames, entries_setup hadded fun hempty => ?_, hadded.frame, fun o' => ?_, ?_⟩
  · unfold setup_overrides
    rw [hadded.value_eq]
    exact prefix_extend_all _ _
  · rw [hempty]
    decide +kernel
  · exact add_overrides_named o' overrides_plain hnames
  · intro existing dll output capacity hcapacity hlength
    have hfits := length_extended_le hcapacity
    obtain ⟨output', houtput, hwritten⟩ := fill_override_written (hfits.trans hlength)
    exact ⟨output', _, houtput, hwritten, hfits⟩

def every : CString → Outcome := fun _ => ⟨true, true⟩

/-- Two DLLs in one entry. -/
def grouped : Env := fun name =>
  if name = WINEDLLOVERRIDES then some (c_str "dxgi,d3d11=n") else none

theorem grouped_is_extended :
    value grouped <+: value (setup_overrides every grouped) :=
  (setup_overrides_spec (fun _ _ => rfl) (fun _ _ => rfl) (by decide +kernel)).1

/-! ## What Wine reads -/

/-- An entry is for the names before its `=`, which are separated by commas, in any case. -/
def wine_names (entry : List UInt8) : List (List UInt8) :=
  ((entry_name entry).splitOn 0x2c).map fun name => name.map LibC.to_ascii_lowercase

/-- The user has configured the DLL. -/
def Configures (value : List UInt8) (dll : CString) : Prop :=
  ∃ entry ∈ entries value, dll.bytes.map LibC.to_ascii_lowercase ∈ wine_names entry

/-- The loop has added an entry for the DLL. -/
def Appended (o : CString → Outcome) (env : Env) (dll : CString) : Prop :=
  (entries (value env)).count (native_entry dll)
    < (entries (value (setup_overrides o env))).count (native_entry dll)

/-- No DLL that the user has configured gets another entry. -/
def NeverTwice (o : CString → Outcome) (env : Env) : Prop :=
  ∀ dll ∈ OVERRIDES, Configures (value env) dll → ¬ Appended o env dll

/-- A DLL that is configured also stands alone before the `=` of an entry, spelled as in
`OVERRIDES`. -/
def SpelledAlone (value : List UInt8) : Prop :=
  ∀ dll ∈ OVERRIDES, Configures value dll → Names value dll

theorem native_entry_injective : Function.Injective native_entry := fun _ _ h =>
  CString.ext (List.append_cancel_right h)

/-- An entry is appended for a DLL exactly if it is one of those added. -/
theorem appended_iff {o : CString → Outcome} {added : List CString}
    (h : Extended o env OVERRIDES added) (dll : CString) : Appended o env dll ↔ dll ∈ added := by
  unfold Appended
  by_cases hnone : value env = [] ∧ added = []
  · have hsame : value (setup_overrides o env) = value env := by
      unfold setup_overrides
      rw [h.value_eq, hnone.2]
      rfl
    rw [hsame, hnone.2]
    simp
  · have hcount : (if value env = [] then [] else entries (value env)).count (native_entry dll)
        = (entries (value env)).count (native_entry dll) := by
      split
      · rename_i hempty
        -- An empty value has one entry, the empty one.
        have hnative : native_entry dll ≠ [] := by
          have hsuffix : NATIVE.bytes ≠ [] := by decide +kernel
          simp [native_entry, hsuffix]
        simp [hempty, entries, hnative.symm]
      · rfl
    rw [entries_setup h fun hempty hadded => hnone ⟨hempty, hadded⟩, List.count_append, hcount,
      List.count_map_of_injective _ _ native_entry_injective, Nat.lt_add_right_iff_pos,
      List.count_pos_iff]

/-- **When no DLL gets a second entry.** If every DLL that the user has configured stands alone, in
the right case, none gets one; and if there is memory for the entries, only then. -/
theorem never_twice_iff (o : CString → Outcome) (env : Env) :
    (SpelledAlone (value env) → NeverTwice o env)
      ∧ (Allocates o env OVERRIDES → (NeverTwice o env ↔ SpelledAlone (value env))) := by
  obtain ⟨added, hadded⟩ := exists_extended o env overrides_plain overrides_nodup
  have honly : SpelledAlone (value env) → NeverTwice o env := by
    intro hspelled dll hdll hconfigures happended
    have hmissing := hadded.sublist.subset ((appended_iff hadded dll).mp happended)
    have hnot := (List.mem_filter.mp hmissing).2
    exact of_decide_eq_true hnot (hspelled dll hdll hconfigures)
  refine ⟨honly, fun hallocates => ⟨fun hnever dll hdll hconfigures => ?_, honly⟩⟩
  by_contra hnames
  apply hnever dll hdll hconfigures
  rw [appended_iff hadded, hadded.complete hallocates]
  exact List.mem_filter.mpr ⟨hdll, decide_eq_true hnames⟩

/-- The user has set `dxgi` and `d3d11` to native in one entry, and `dxgi` gets another one. -/
theorem grouped_is_added_again : ¬ NeverTwice every grouped := by
  intro hnever
  have hdxgi : Configures (value grouped) (c_str "dxgi") :=
    ⟨b_str "dxgi,d3d11=n", by decide +kernel, by decide +kernel⟩
  exact hnever (c_str "dxgi") (by decide +kernel) hdxgi (by unfold Appended; decide +kernel)

end Linuwux.Overrides
