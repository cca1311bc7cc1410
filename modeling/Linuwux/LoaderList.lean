/-
`LoaderList.lean` -- `module_base` of `runtime/src/syscall/pe_export.rs`.

A process finds its DLLs in the loader list: the PEB points to the loader data, and the entries of
the modules hang in a circle that starts and ends there. `base_from_peb` follows it for 256 links
and compares the name of each module, which is UTF-16, with an ASCII name, in either case.

[`Loader`] is the list as it is in memory when all of it can be read. [`base_from_peb_spec`] says
that the walk finds the first of the first 256 modules that has the name. [`discover_spec`] puts
`export_service` behind it, as `win32u_zero_list.rs` does.
-/
import Linuwux.LibC
import Linuwux.PeExport
import Linuwux.Walks
import Mathlib.Data.List.Find

set_option autoImplicit false

namespace Linuwux.LoaderList

open LibC (b_str eq_ignore_ascii_case to_ascii_lowercase)
open PeExport (offset export_service)
open ProcMem (Memory read_memory read_u16 read_u64)

def MODULE_LIMIT : ℕ := 256

def MAX_MODULE_NAME_UNITS : ℕ := 32

def MODULE_NAME : List UInt8 := b_str "win32u.dll"

def EXPORT_NAME : List UInt8 := b_str "NtUserBuildHwndList"

/-! ## The code -/

/-- `as_chunks::<2>`. -/
def as_chunks : List UInt8 → List (UInt8 × UInt8)
  | low :: high :: bytes => (low, high) :: as_chunks bytes
  | _ => []

def module_name_matches (m : Memory) (entry : UInt64) (name : List UInt8) : Bool :=
  if MAX_MODULE_NAME_UNITS < name.length then false
  else
    match (offset entry 0x58).bind (read_u16 m) with
    | none => false
    | some length =>
      if length.toNat ≠ name.length * 2 then false
      else
        match (offset entry 0x60).bind (read_u64 m) with
        | none => false
        | some base_name =>
          match read_memory m base_name (name.length * 2) with
          | none => false
          | some bytes => ((as_chunks bytes).zip name).all fun (unit, ascii) =>
              eq_ignore_ascii_case unit.1 ascii && unit.2 == 0

/-- The loop of `base_from_peb`. -/
def base_from (m : Memory) (head : UInt64) (name : List UInt8) : ℕ → UInt64 → Option UInt64
  | 0, _ => none
  | limit + 1, entry =>
    if entry = head ∨ entry = 0 then none
    else if module_name_matches m entry name then (offset entry 0x30).bind (read_u64 m)
    else (read_u64 m entry).bind (base_from m head name limit)

def base_from_peb (m : Memory) (peb : UInt64) (name : List UInt8) : Option UInt64 := do
  let ldr ← (offset peb 0x18).bind (read_u64 m)
  let head ← offset ldr 0x10
  let entry ← read_u64 m head
  base_from m head name MODULE_LIMIT entry

/-- `module_base`, with what `arch_prctl` says the base of GS is. -/
def module_base (m : Memory) (gs_base : Option UInt64) (name : List UInt8) : Option UInt64 := do
  let gs_base ← gs_base
  let peb ← (offset gs_base 0x60).bind (read_u64 m)
  base_from_peb m peb name

/-- The search of `window_list_service`. -/
def discover (m : Memory) (gs_base : Option UInt64) : Option UInt32 :=
  ((module_base m gs_base MODULE_NAME).bind fun base => export_service m base EXPORT_NAME).filter
    (· ≠ 0)

/-! ## Loader lists -/

/-- A module: its entry, its base and its name. -/
structure Module where
  entry : UInt64
  base : UInt64
  name : List UInt16

/-- The bytes of a UTF-16 string. -/
def utf16 (units : List UInt16) : List UInt8 :=
  units.flatMap fun unit : UInt16 => [unit.toUInt8, (unit >>> 8).toUInt8]

/-- What its entry says of a module. -/
structure Module.Laid (m : Memory) (x : Module) : Prop where
  base : (offset x.entry 0x30).bind (read_u64 m) = some x.base
  length : (offset x.entry 0x58).bind (read_u16 m) = some (.ofNat (x.name.length * 2))
  length_lt : x.name.length * 2 < 2 ^ 16
  name : ∃ buffer, (offset x.entry 0x60).bind (read_u64 m) = some buffer
    ∧ (x.name ≠ [] → read_memory m buffer (x.name.length * 2) = some (utf16 x.name))

/-- The links from a place on run through these modules and end at the head. -/
def Linked (m : Memory) (head : UInt64) : UInt64 → List Module → Prop
  | at_, [] => read_u64 m at_ = some head
  | at_, x :: modules =>
    read_u64 m at_ = some x.entry ∧ x.entry ≠ head ∧ x.entry ≠ 0 ∧ Linked m head x.entry modules

/-- A loader list that can be read. -/
structure Loader (m : Memory) (peb : UInt64) where
  ldr : UInt64
  head : UInt64
  modules : List Module
  ldr_at : (offset peb 0x18).bind (read_u64 m) = some ldr
  head_at : offset ldr 0x10 = some head
  linked : Linked m head head modules
  laid : ∀ x ∈ modules, x.Laid m

/-- A unit without its case, if it is an ASCII letter. -/
def fold (unit : UInt16) : UInt16 := if 0x41 ≤ unit ∧ unit ≤ 0x5a then unit + 0x20 else unit

/-- The module has this name, in either case. -/
def Module.called (name : List UInt8) (x : Module) : Bool :=
  x.name.map fold = name.map fun byte => fold byte.toUInt16

variable {m : Memory} {peb : UInt64}

/-- The first of the first 256 modules with this name. -/
def Loader.find (loader : Loader m peb) (name : List UInt8) : Option Module :=
  (loader.modules.take MODULE_LIMIT).find? (Module.called name)

/-! ## Names -/

theorem as_chunks_utf16 (units : List UInt16) :
    as_chunks (utf16 units)
      = units.map fun unit : UInt16 => (unit.toUInt8, (unit >>> 8).toUInt8) := by
  induction units with
  | nil => rfl
  | cons unit units ih =>
    rw [utf16, List.flatMap_cons, ← utf16, List.map_cons, ← ih]
    rfl

/-- What both foldings do to a number. -/
def folded (n : ℕ) : ℕ := if 0x41 ≤ n ∧ n ≤ 0x5a then n + 0x20 else n

theorem to_ascii_lowercase_toNat (byte : UInt8) :
    (to_ascii_lowercase byte).toNat = folded byte.toNat := by
  unfold to_ascii_lowercase folded
  simp only [UInt8.le_iff_toNat_le, UInt8.reduceToNat]
  split
  · have hsum := UInt8.toNat_add byte 0x20
    change _ = (byte.toNat + 0x20) % 2 ^ 8 at hsum
    omega
  · rfl

theorem fold_toNat (unit : UInt16) : (fold unit).toNat = folded unit.toNat := by
  unfold fold folded
  simp only [UInt16.le_iff_toNat_le, UInt16.reduceToNat]
  split
  · have hsum := UInt16.toNat_add unit 0x20
    change _ = (unit.toNat + 0x20) % 2 ^ 16 at hsum
    omega
  · rfl

theorem folded_le {n : ℕ} (h : n < 256) : folded n < 256 := by
  unfold folded
  split <;> omega

theorem folded_of_ge {n : ℕ} (h : 256 ≤ n) : folded n = n := if_neg (by omega)

/-- A unit matches a byte if it is that character, in either case. -/
theorem unit_matches (unit : UInt16) (ascii : UInt8) :
    (eq_ignore_ascii_case unit.toUInt8 ascii && (unit >>> 8).toUInt8 == 0) = true
      ↔ fold unit = fold ascii.toUInt16 := by
  have hlt := unit.toNat_lt
  have hlow : unit.toUInt8.toNat = unit.toNat % 256 := UInt16.toNat_toUInt8 unit
  have hhigh : (unit >>> 8).toUInt8.toNat = unit.toNat / 256 := by
    rw [UInt16.toNat_toUInt8, UInt16.toNat_shiftRight, Nat.shiftRight_eq_div_pow]
    change unit.toNat / 256 % 256 = _
    omega
  rw [Bool.and_eq_true, beq_iff_eq, eq_ignore_ascii_case, decide_eq_true_iff, ← UInt8.toNat_inj,
    ← UInt8.toNat_inj, ← UInt16.toNat_inj, to_ascii_lowercase_toNat, to_ascii_lowercase_toNat,
    fold_toNat, fold_toNat, UInt8.toNat_toUInt16, hlow, hhigh, UInt8.toNat_zero]
  rcases Nat.lt_or_ge unit.toNat 256 with hbyte | hwide
  · rw [Nat.mod_eq_of_lt hbyte, Nat.div_eq_of_lt hbyte]
    exact and_iff_left rfl
  · -- Another plane: no ASCII character.
    have hascii := folded_le ascii.toNat_lt
    rw [folded_of_ge hwide]
    omega

/-- The comparison of `module_name_matches`, for a name of as many units. -/
theorem units_match {units : List UInt16} {name : List UInt8} (h : units.length = name.length) :
    (((as_chunks (utf16 units)).zip name).all fun (unit, ascii) =>
        eq_ignore_ascii_case unit.1 ascii && unit.2 == 0)
      = decide (units.map fold = name.map fun byte => fold byte.toUInt16) := by
  rw [as_chunks_utf16]
  induction units generalizing name with
  | nil =>
    obtain rfl := List.length_eq_zero_iff.mp h.symm
    rfl
  | cons unit units ih =>
    cases name with
    | nil => cases h
    | cons ascii name =>
      simp only [List.map_cons, List.zip_cons_cons, List.all_cons, ih (Nat.succ.inj h),
        List.cons.injEq]
      rw [Bool.eq_iff_iff, Bool.and_eq_true, unit_matches, decide_eq_true_iff, decide_eq_true_iff]

theorem Module.Laid.name_matches {x : Module} (hx : x.Laid m) {name : List UInt8}
    (hne : name ≠ []) (hle : name.length ≤ MAX_MODULE_NAME_UNITS) :
    module_name_matches m x.entry name = x.called name := by
  obtain ⟨buffer, hbuffer, hread⟩ := hx.name
  unfold module_name_matches
  rw [if_neg (Nat.not_lt.mpr hle), hx.length]
  dsimp only
  rw [UInt16.toNat_ofNat_of_lt' hx.length_lt]
  by_cases hlen : x.name.length = name.length
  · have hunits : x.name ≠ [] := by
      rintro hnil
      rw [hnil] at hlen
      exact hne (List.length_eq_zero_iff.mp hlen.symm)
    rw [if_neg (not_not.mpr (by rw [hlen])), hbuffer]
    dsimp only
    rw [← hlen, hread hunits]
    exact units_match hlen
  · rw [if_pos (by omega)]
    refine (decide_eq_false fun hsame => hlen ?_).symm
    have hlength := congrArg List.length hsame
    rwa [List.length_map, List.length_map] at hlength

/-! ## The walk -/

/-- The entry that a link leads to, if it is one. -/
def place (head entry : UInt64) : Option UInt64 :=
  if entry = head ∨ entry = 0 then none else some entry

def next (m : Memory) (head entry : UInt64) : Option UInt64 :=
  (read_u64 m entry).bind (place head)

/-- **The loop** finds the first entry it comes by whose name matches, whatever the links are. -/
theorem base_from_eq (head : UInt64) (name : List UInt8) (limit : ℕ) (entry : UInt64) :
    base_from m head name limit entry
      = ((Walks.path (next m head) limit (place head entry)).find? fun entry =>
          module_name_matches m entry name).bind fun entry =>
        (offset entry 0x30).bind (read_u64 m) := by
  induction limit generalizing entry with
  | zero => rw [base_from, Walks.path_zero, List.find?_nil, Option.bind_none]
  | succ limit ih =>
    rw [base_from, place]
    split
    · rw [Walks.path_none, List.find?_nil, Option.bind_none]
    · rw [Walks.path_some, List.find?_cons]
      by_cases hname : module_name_matches m entry name = true
      · rw [if_pos hname, hname, Option.bind_some]
      · rw [if_neg hname, Bool.eq_false_iff.mpr hname, next]
        cases read_u64 m entry with
        | none => rw [Option.bind_none, Option.bind_none, Walks.path_none, List.find?_nil,
            Option.bind_none]
        | some following => exact ih following

/-- A list that ends at its head is what the walk runs through. -/
theorem Linked.along {head at_ : UInt64} {modules : List Module} (h : Linked m head at_ modules) :
    Walks.Along (next m head) (next m head at_) (modules.map Module.entry) := by
  induction modules generalizing at_ with
  | nil =>
    have hread : read_u64 m at_ = some head := h
    change next m head at_ = none
    rw [next, hread, Option.bind_some, place, if_pos (Or.inl rfl)]
  | cons x modules ih =>
    obtain ⟨hread, hhead, hzero, hrest⟩ := h
    refine ⟨?_, ih hrest⟩
    rw [next, hread, Option.bind_some, place, if_neg (not_or.mpr ⟨hhead, hzero⟩)]

/-- **The loader list is searched in its order**, as far as 256 modules. -/
theorem base_from_peb_spec (loader : Loader m peb) {name : List UInt8} (hne : name ≠ [])
    (hle : name.length ≤ MAX_MODULE_NAME_UNITS) :
    base_from_peb m peb name = (loader.find name).map Module.base := by
  have hlinked := loader.linked
  obtain ⟨first, hfirst⟩ : ∃ first, read_u64 m loader.head = some first := by
    cases hmodules : loader.modules with
    | nil => exact ⟨_, hmodules ▸ hlinked⟩
    | cons x modules => exact ⟨_, (hmodules ▸ hlinked).1⟩
  have hplace : place loader.head first = next m loader.head loader.head := by
    rw [next, hfirst, Option.bind_some]
  unfold base_from_peb
  simp only [loader.ldr_at, loader.head_at, hfirst, Option.bind_eq_bind, Option.bind_some]
  rw [base_from_eq, hplace, hlinked.along.path_eq, ← List.map_take, List.find?_map, Option.bind_map]
  have hsame : (loader.modules.take MODULE_LIMIT).find?
      ((fun entry => module_name_matches m entry name) ∘ Module.entry) = loader.find name :=
    List.find?_congr fun x hx => (loader.laid x (List.mem_of_mem_take hx)).name_matches hne hle
  rw [hsame]
  cases hfind : loader.find name with
  | none => rfl
  | some x =>
    exact (loader.laid x (List.mem_of_mem_take (List.mem_of_find?_eq_some hfind))).base

theorem module_base_spec {gs_base : UInt64}
    (hpeb : (offset gs_base 0x60).bind (read_u64 m) = some peb) (loader : Loader m peb)
    {name : List UInt8} (hne : name ≠ []) (hle : name.length ≤ MAX_MODULE_NAME_UNITS) :
    module_base m (some gs_base) name = (loader.find name).map Module.base := by
  rw [← base_from_peb_spec loader hne hle]
  unfold module_base
  simp only [Option.bind_eq_bind, Option.bind_some, hpeb]

/-! ## The service -/

/-- What there is to read in a process: a loader list, and the image of the first module that is
called `win32u.dll`. -/
structure Guest (m : Memory) (gs_base : UInt64) where
  peb : UInt64
  peb_at : (offset gs_base 0x60).bind (read_u64 m) = some peb
  loader : Loader m peb
  image : ∀ x, loader.find MODULE_NAME = some x → PeExport.Image m x.base

/-- The service number of `NtUserBuildHwndList` in the first `win32u.dll`. -/
def Guest.service {gs_base : UInt64} (guest : Guest m gs_base) : Option UInt32 :=
  match h : guest.loader.find MODULE_NAME with
  | none => none
  | some x => ((guest.image x h).service EXPORT_NAME).filter (· ≠ 0)

theorem discover_spec {gs_base : UInt64} (guest : Guest m gs_base) :
    discover m (some gs_base) = guest.service := by
  have hbase : module_base m (some gs_base) MODULE_NAME
      = (guest.loader.find MODULE_NAME).map Module.base :=
    module_base_spec guest.peb_at guest.loader (by decide +kernel) (by decide +kernel)
  unfold discover Guest.service
  split
  · rename_i hfind
    rw [hbase, hfind]
    rfl
  · rename_i x hfind
    have hexport : PeExport.lookup m x.base (guest.image x hfind).table EXPORT_NAME 0
          (guest.image x hfind).table.name_count.toNat
        = (guest.image x hfind).service EXPORT_NAME := by
      rw [(guest.image x hfind).lookup_eq (by decide +kernel) (Nat.le_refl _),
        (guest.image x hfind).search_eq_scan]
      rfl
    rw [hbase.trans (congrArg (Option.map Module.base) hfind), Option.map_some, Option.bind_some,
      export_service, (guest.image x hfind).exports_eq, Option.bind_some, hexport]

/-! ### Three modules -/

theorem holds_mono {m' : Memory} (hm : ∀ a byte, m a = some byte → m' a = some byte)
    {base : UInt64} {at_ : ℕ} {bytes : List UInt8} (h : PeExport.Holds m base at_ bytes) :
    PeExport.Holds m' base at_ bytes := by
  intro i hi
  have hread := h i hi
  rw [List.getElem?_eq_getElem hi] at hread ⊢
  unfold Memory.byte at hread ⊢
  split at hread
  · rename_i hfits
    rw [if_pos hfits]
    exact (hm _ _ hread.symm).symm
  · cases hread

theorem value_mono {m' : Memory} (hm : ∀ a byte, m a = some byte → m' a = some byte)
    {base : UInt64} {at_ width value : ℕ} (h : PeExport.Value m base at_ width value) :
    PeExport.Value m' base at_ width value :=
  h.imp fun _ ⟨hlen, hholds, hvalue⟩ => ⟨hlen, holds_mono hm hholds, hvalue⟩

/-- What is behind the image of [`PeExport.image_memory`]. -/
def loader_sections : List (ℕ × List UInt8) :=
  [(0x60, [0x00, 0x01, 0x02]), (0x118, [0x00, 0x02, 0x02]), (0x210, [0x00, 0x03, 0x02]),
    -- `ntdll.dll`
    (0x300, [0x00, 0x04, 0x02]), (0x332, [0x40]), (0x358, [18]), (0x360, [0x00, 0x06, 0x02]),
    (0x600, [0x6e, 0, 0x74, 0, 0x64, 0, 0x6c, 0, 0x6c, 0, 0x2e, 0, 0x64, 0, 0x6c, 0, 0x6c]),
    -- `Win32U.DLL`
    (0x400, [0x00, 0x05, 0x02]), (0x432, [0x01]), (0x458, [20]), (0x460, [0x20, 0x06, 0x02]),
    (0x620, [0x57, 0, 0x69, 0, 0x6e, 0, 0x33, 0, 0x32, 0, 0x55, 0, 0x2e, 0, 0x44, 0, 0x4c, 0,
      0x4c]),
    -- `win32u.dll`
    (0x500, [0x10, 0x02, 0x02]), (0x532, [0x50]), (0x558, [20]), (0x560, [0x40, 0x06, 0x02]),
    (0x640, [0x77, 0, 0x69, 0, 0x6e, 0, 0x33, 0, 0x32, 0, 0x75, 0, 0x2e, 0, 0x64, 0, 0x6c, 0,
      0x6c])]

def loader_byte (n : ℕ) : UInt8 :=
  (loader_sections.findSome? fun (start, bytes) =>
    if start ≤ n then bytes[n - start]? else none).getD 0

def guest_memory : Memory := fun address =>
  if 0x20000 ≤ address.toNat ∧ address.toNat < 0x21000 then
    some (loader_byte (address.toNat - 0x20000))
  else PeExport.image_memory address

def guest_loader : Loader guest_memory 0x20100 where
  ldr := 0x20200
  head := 0x20210
  modules := [⟨0x20300, 0x400000, [0x6e, 0x74, 0x64, 0x6c, 0x6c, 0x2e, 0x64, 0x6c, 0x6c]⟩,
    ⟨0x20400, 0x10000, [0x57, 0x69, 0x6e, 0x33, 0x32, 0x55, 0x2e, 0x44, 0x4c, 0x4c]⟩,
    ⟨0x20500, 0x500000, [0x77, 0x69, 0x6e, 0x33, 0x32, 0x75, 0x2e, 0x64, 0x6c, 0x6c]⟩]
  ldr_at := by decide +kernel
  head_at := by decide +kernel
  linked := ⟨by decide +kernel, by decide, by decide, by decide +kernel, by decide, by decide,
    by decide +kernel, by decide, by decide,
    (by decide +kernel : read_u64 guest_memory 0x20500 = some 0x20210)⟩
  laid := by
    simp only [List.forall_mem_cons]
    exact ⟨⟨by decide +kernel, by decide +kernel, by decide, 0x20600, by decide +kernel,
        fun _ => by decide +kernel⟩,
      ⟨by decide +kernel, by decide +kernel, by decide, 0x20620, by decide +kernel,
        fun _ => by decide +kernel⟩,
      ⟨by decide +kernel, by decide +kernel, by decide, 0x20640, by decide +kernel,
        fun _ => by decide +kernel⟩, nofun⟩

/-- An image stays one where more can be read. -/
def image_mono {m' : Memory} (hm : ∀ a byte, m a = some byte → m' a = some byte) {base : UInt64}
    (image : PeExport.Image m base) : PeExport.Image m' base :=
  { image with
    dos_at := holds_mono hm image.dos_at
    signature := holds_mono hm image.signature
    magic := value_mono hm image.magic
    image_size := value_mono hm image.image_size
    export_value := value_mono hm image.export_value
    function_count := value_mono hm image.function_count
    name_count := value_mono hm image.name_count
    functions := value_mono hm image.functions
    names := value_mono hm image.names
    ordinals := value_mono hm image.ordinals
    name_slot := fun i hi => value_mono hm (image.name_slot i hi)
    name_at := fun i hi => holds_mono hm (image.name_at i hi)
    name_readable := fun i hi => (image.name_readable i hi).imp fun _ h => ⟨h.1, holds_mono hm h.2⟩
    ordinal_slot := fun i hi => value_mono hm (image.ordinal_slot i hi)
    function_slot := fun i hi => value_mono hm (image.function_slot i hi)
    head_at := fun i hi => holds_mono hm (image.head_at i hi) }

/-- The first of the two is found, whatever the case. -/
theorem module_base_guest :
    MODULE_NAME ≠ [] ∧ MODULE_NAME.length ≤ MAX_MODULE_NAME_UNITS
      ∧ module_base guest_memory (some 0x20000) MODULE_NAME = some 0x10000 := by
  refine ⟨by decide +kernel, by decide +kernel, ?_⟩
  have hpeb : (offset 0x20000 0x60).bind (read_u64 guest_memory) = some 0x20100 := by
    decide +kernel
  rw [module_base_spec hpeb guest_loader (by decide +kernel) (by decide +kernel)]
  decide +kernel

def guest : Guest guest_memory 0x20000 where
  peb := 0x20100
  peb_at := by decide +kernel
  loader := guest_loader
  image x hx := by
    have hbase : (guest_loader.find MODULE_NAME).map Module.base = some 0x10000 := by
      decide +kernel
    rw [hx] at hbase
    rw [Option.some.inj hbase]
    refine image_mono (fun a byte hread => ?_) PeExport.two_exports
    unfold guest_memory
    rw [if_neg, hread]
    unfold PeExport.image_memory at hread
    split at hread
    · omega
    · cases hread

theorem guest_service : guest.service = some 0x135a := by
  rw [← discover_spec guest]
  decide +kernel

end Linuwux.LoaderList
