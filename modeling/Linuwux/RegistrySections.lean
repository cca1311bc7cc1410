/-
`RegistrySections.lean` -- what the scan of `Registry.lean` makes of the sections of the file.

A line that begins with `[` is the header of a section, and a value belongs to the last header
above it. The names of the key and of the value have no line feed in them, so the scan can be told
by lines as well: it finds a line with the name of the key and the name of the value behind it, in
that line or in a later one. Whether another header stands between the two is not asked.
-/
import Linuwux.Registry
import Linuwux.Tokens

set_option autoImplicit false

namespace Linuwux.RegistrySections

open LibC (CString b_str)
open MapsChunks (Chunk content)
open Registry

/-! ## The sections of a file -/

def lines (text : List UInt8) : List (List UInt8) := text.splitOn 0x0a

theorem lines_append_cons (a b : List UInt8) : lines (a ++ 0x0a :: b) = lines a ++ lines b :=
  List.splitOnP_append_cons a b (by rfl)

theorem lines_of_solid {text : List UInt8} (h : Tokens.Solid (· == (0x0a : UInt8)) text) :
    lines text = [text] := List.splitOnP_eq_singleton h

/-- A header begins with `[`. -/
def is_header (line : List UInt8) : Bool := line.head? = some 0x5b

/-- What a line begins with that defines the value. -/
def VALUE_NAME : List UInt8 := b_str "\"HwProfileGuid\"="

def is_value (line : List UInt8) : Bool := VALUE_NAME.isPrefixOf line

/-- A value that comes before the next header. -/
def ValueAhead (lines : List (List UInt8)) : Prop :=
  ∃ body line after, lines = body ++ line :: after ∧
    is_value line = true ∧ ∀ l ∈ body, is_header l = false

/-- **The value is defined in a section of the key.** -/
def DefinedIn (lines : List (List UInt8)) : Prop :=
  ∃ before header after, lines = before ++ header :: after ∧
    is_header header = true ∧ PROFILE_MARKER <:+: header ∧ ValueAhead after

def Defined (text : List UInt8) : Prop := DefinedIn (lines text)

/-- The same, read line by line: a flag that each header sets or clears. -/
def defined_in : Bool → List (List UInt8) → Bool
  | _, [] => false
  | inside, line :: rest =>
    if is_header line then defined_in (contains line PROFILE_MARKER) rest
    else (inside && is_value line) || defined_in inside rest

/-- A place in a list is its first one, or one in the rest. -/
theorem exists_split_cons {α : Type*} {x : α} {l : List α} {motive : List α → α → List α → Prop} :
    (∃ a y b, x :: l = a ++ y :: b ∧ motive a y b) ↔
      motive [] x l ∨ ∃ a y b, l = a ++ y :: b ∧ motive (x :: a) y b := by
  constructor
  · rintro ⟨_ | ⟨z, a⟩, y, b, h, hm⟩
    · injection h with hx hl
      exact .inl (hx ▸ hl ▸ hm)
    · injection h with hx hl
      exact .inr ⟨a, y, b, hl, hx ▸ hm⟩
  · rintro (hm | ⟨a, y, b, rfl, hm⟩)
    · exact ⟨[], x, l, rfl, hm⟩
    · exact ⟨x :: a, y, b, rfl, hm⟩

theorem value_head : VALUE_NAME.head? = some 0x22 := by decide +kernel

theorem not_value_of_header {line : List UInt8} (h : is_header line = true) :
    is_value line = false := by
  rw [← Bool.not_eq_true]
  intro hvalue
  obtain ⟨rest, rfl⟩ := List.isPrefixOf_iff_prefix.mp hvalue
  rw [is_header, decide_eq_true_eq, List.head?_append, value_head, Option.some_or] at h
  exact absurd h (by decide)

theorem valueAhead_cons {line : List UInt8} {rest : List (List UInt8)} :
    ValueAhead (line :: rest) ↔
      is_value line = true ∨ is_header line = false ∧ ValueAhead rest := by
  unfold ValueAhead
  rw [exists_split_cons]
  simp only [List.not_mem_nil, false_imp_iff, implies_true, and_true, List.forall_mem_cons]
  exact or_congr_right ⟨
    fun ⟨a, y, b, h, hy, hline, ha⟩ => ⟨hline, a, y, b, h, hy, ha⟩,
    fun ⟨hline, a, y, b, h, hy, ha⟩ => ⟨a, y, b, h, hy, hline, ha⟩⟩

theorem definedIn_cons {line : List UInt8} {rest : List (List UInt8)} :
    DefinedIn (line :: rest) ↔
      (is_header line = true ∧ PROFILE_MARKER <:+: line ∧ ValueAhead rest) ∨ DefinedIn rest :=
  exists_split_cons

/-- **The flag.** -/
theorem defined_in_iff (inside : Bool) (lines : List (List UInt8)) :
    defined_in inside lines = true ↔ (inside = true ∧ ValueAhead lines) ∨ DefinedIn lines := by
  induction lines generalizing inside with
  | nil => simp [defined_in, ValueAhead, DefinedIn]
  | cons line rest ih =>
    rw [defined_in, valueAhead_cons, definedIn_cons]
    cases hheader : is_header line with
    | true => simp [ih, contains_iff, not_value_of_header hheader]
    | false => simp [ih, and_or_left, or_assoc]

instance (text : List UInt8) : Decidable (Defined text) :=
  decidable_of_iff (defined_in false (lines text) = true) (by simp [defined_in_iff, Defined])

/-- What `init_registry` appends defines the value in a section of the key. -/
theorem defined_section (text : List UInt8) : Defined (text ++ REGISTRY_SECTION) := by
  have hown : Defined (SECTION_HEADER ++ 0x0a :: SECTION_VALUE ++ [0x0a]) := by decide +kernel
  obtain ⟨before, header, after, hlines, hheader, hkey, hvalue⟩ := hown
  refine ⟨lines text ++ before, header, after, ?_, hheader, hkey, hvalue⟩
  rw [List.append_assoc, ← hlines, ← lines_append_cons]
  rfl

/-! ## The scan by lines -/

/-- The name of the key in a line, and the name of the value behind it. -/
def Mentioned (lines : List (List UInt8)) : Prop :=
  ∃ before line after, lines = before ++ line :: after ∧
    (Present line ∨ PROFILE_MARKER <:+: line ∧ ∃ l ∈ after, GUID_MARKER <:+: l)

theorem mentioned_cons {line : List UInt8} {rest : List (List UInt8)} :
    Mentioned (line :: rest) ↔
      (Present line ∨ PROFILE_MARKER <:+: line ∧ ∃ l ∈ rest, GUID_MARKER <:+: l) ∨
        Mentioned rest :=
  exists_split_cons

theorem infix_iff_mem_lines {needle : List UInt8} (h : 0x0a ∉ needle) (text : List UInt8) :
    needle <:+: text ↔ ∃ line ∈ lines text, needle <:+: line := by
  induction text using Tokens.cut_induction (· == (0x0a : UInt8)) with
  | solid text htext => simp [lines_of_solid htext]
  | cut a s b ha hs ih =>
    rw [eq_of_beq hs, Tokens.infix_append_cons h, lines_append_cons, lines_of_solid ha, ih]
    simp

theorem present_iff (text : List UInt8) :
    Present text ↔
      ∃ front back, text = front ++ back ∧ PROFILE_MARKER <:+: front ∧ GUID_MARKER <:+: back := by
  constructor
  · rintro ⟨a, b, c, rfl⟩
    exact ⟨a ++ PROFILE_MARKER, b ++ GUID_MARKER ++ c, by simp, ⟨a, [], by simp⟩, ⟨b, c, rfl⟩⟩
  · rintro ⟨front, back, rfl, hp, hg⟩
    exact present_of_parts hp hg

/-- The two names on the two sides of a line feed. -/
theorem present_cut (a b : List UInt8) :
    Present (a ++ 0x0a :: b) ↔
      Present a ∨ (PROFILE_MARKER <:+: a ∧ GUID_MARKER <:+: b) ∨ Present b := by
  have hprofile : (0x0a : UInt8) ∉ PROFILE_MARKER := by decide +kernel
  have hguid : (0x0a : UInt8) ∉ GUID_MARKER := by decide +kernel
  have hnil : ¬ GUID_MARKER <:+: [] := by decide +kernel
  constructor
  · rw [present_iff]
    rintro ⟨front, back, htext, hp, hg⟩
    obtain ⟨m, rfl, hm⟩ | ⟨m, rfl, rfl⟩ := List.append_eq_append_iff.mp htext
    · cases m with
      | nil =>
        rw [List.nil_append] at hm
        rw [← hm, ← List.nil_append (0x0a :: b), Tokens.infix_append_cons hguid] at hg
        rw [List.append_nil] at hp
        exact .inr (.inl ⟨hp, hg.resolve_left hnil⟩)
      | cons z m =>
        injection hm with hz hb
        rw [← hz, Tokens.infix_append_cons hprofile] at hp
        obtain hp | hp := hp
        · exact .inr (.inl ⟨hp, hb ▸ hg.trans (List.suffix_append m back).isInfix⟩)
        · exact .inr (.inr (hb ▸ present_of_parts hp hg))
    · rw [Tokens.infix_append_cons hguid] at hg
      obtain hg | hg := hg
      · exact .inl (present_of_parts hp hg)
      · exact .inr (.inl ⟨hp.trans (List.infix_append' [] front m), hg⟩)
  · have hback : b <:+: 0x0a :: b := ⟨[0x0a], [], by simp⟩
    rintro (ha | ⟨hp, hg⟩ | ⟨x, y, z, rfl⟩)
    · exact ha.append _
    · exact present_of_parts hp (hg.trans hback)
    · exact ⟨a ++ 0x0a :: x, y, z, by simp⟩

/-- **The scan by lines.** -/
theorem present_iff_mentioned (text : List UInt8) : Present text ↔ Mentioned (lines text) := by
  induction text using Tokens.cut_induction (· == (0x0a : UInt8)) with
  | solid text htext =>
    rw [lines_of_solid htext, mentioned_cons]
    simp [Mentioned]
  | cut a s b ha hs ih =>
    rw [eq_of_beq hs, lines_append_cons, lines_of_solid ha, List.singleton_append,
      mentioned_cons, present_cut,
      infix_iff_mem_lines (by decide +kernel : (0x0a : UInt8) ∉ GUID_MARKER) b, ih, or_assoc]

/-! ## Sections that are not the key's -/

/-- A run in which every step in front of the scan succeeds, and so does the one behind it. -/
structure Unhindered (o : Outcome) (env : Env) (wine_dir : CString) (text : List UInt8) :
    Prop where
  done : env.done = false
  WINEPREFIX : env.WINEPREFIX = some wine_dir
  fits : wine_dir.bytes.length + (REGISTRY_NAME.length + 1) ≤ PATH_MAX
  access : o.access = true
  fopen : o.fopen = true
  flock : o.flock = true
  valid : registry_file_is_valid o.header text = true
  fseek : o.fseek = true

theorem Unhindered.appends {o : Outcome} {env : Env} {wine_dir : CString} {text : List UInt8}
    (h : Unhindered o env wine_dir text) {files : Files}
    (htext : files (wine_dir.bytes ++ REGISTRY_NAME) = some text) (habsent : ¬ Present text) :
    (init_registry o env files).2 = Function.update files (wine_dir.bytes ++ REGISTRY_NAME)
      (some (text ++ REGISTRY_SECTION.take o.stored)) := by
  have hscan : registry_already_present (o.chunks text) = false := by
    rwa [← Bool.not_eq_true, chunks_present]
  simp [init_registry, h.done, h.WINEPREFIX, Nat.not_lt.mpr h.fits, htext, h.access, h.fopen,
    h.flock, h.valid, hscan, h.fseek]

/-- The answer is `true` only where the value is defined in a section of the key, and the section
is appended where it is not. -/
def Respects (text : List UInt8) : Prop :=
  (∀ chunks : List Chunk, content chunks = text → registry_already_present chunks = true →
    Defined text) ∧
  ∀ (o : Outcome) (env : Env) (wine_dir : CString) (files : Files),
    Unhindered o env wine_dir text → files (wine_dir.bytes ++ REGISTRY_NAME) = some text →
    ¬ Defined text →
    (init_registry o env files).2 = Function.update files (wine_dir.bytes ++ REGISTRY_NAME)
      (some (text ++ REGISTRY_SECTION.take o.stored))

/-- **Where the sections are respected**: the value is defined in a section of the key, or no line
has its name behind that of the key. -/
theorem respects_iff (text : List UInt8) :
    Respects text ↔ Defined text ∨ ¬ Mentioned (lines text) := by
  rw [← present_iff_mentioned]
  constructor
  · rintro ⟨hanswer, -⟩
    by_cases hp : Present text
    · exact .inl (hanswer (smooth.chunks text) (smooth.chunks text).2
        ((chunks_present smooth text).mpr hp))
    · exact .inr hp
  · rintro (hdefined | habsent)
    · exact ⟨fun _ _ _ => hdefined, fun _ _ _ _ _ _ h => absurd hdefined h⟩
    · exact ⟨fun chunks hcontent h =>
          absurd (hcontent ▸ (registry_already_present_iff chunks).mp h) habsent,
        fun _ _ _ _ hrun htext _ => hrun.appends htext habsent⟩

/-- A section of the key without the value, and another one with it. -/
def other_section : List UInt8 :=
  b_str "WINE REGISTRY Version 2\n\n" ++ SECTION_HEADER ++ b_str "\n\"FriendlyName\"=\"x\"\n\n" ++
    b_str "[Software\\\\Other]\n" ++ SECTION_VALUE ++ [0x0a]

theorem other_section_present : Present other_section := by
  have hsplit : other_section =
      (b_str "WINE REGISTRY Version 2\n\n" ++ SECTION_HEADER) ++
        (b_str "\n\"FriendlyName\"=\"x\"\n\n" ++ b_str "[Software\\\\Other]\n" ++
          SECTION_VALUE ++ [0x0a]) := by
    rw [other_section]
    simp only [List.append_assoc]
  rw [hsplit]
  exact present_of_parts (header_has_profile.trans (List.suffix_append _ _).isInfix)
    (value_has_guid.trans (List.infix_append _ _ _))

/-- The value of the other section suppresses the key. -/
theorem other_section_suppresses :
    ¬ Respects other_section ∧ ¬ Defined other_section ∧
      (init_registry smooth wine_env (Function.update (fun _ => none)
        (b_str "/wine/system.reg") (some other_section))).2 (b_str "/wine/system.reg") =
          some other_section := by
  have hdefined : ¬ Defined other_section := by decide +kernel
  have hscan := (chunks_present smooth other_section).mpr other_section_present
  exact ⟨fun h => hdefined (h.1 _ (smooth.chunks other_section).2 hscan), hdefined,
    init_registry_present (Function.update_self _ _ _) other_section_present smooth wine_env⟩

end Linuwux.RegistrySections
