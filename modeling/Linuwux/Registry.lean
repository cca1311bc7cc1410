/-
`Registry.lean` -- `runtime/src/registry.rs`, which writes a key into `system.reg` once.

The file is scanned before anything is appended: byte by byte through a window of 64, first for the
name of the key and then for the name of the value. The scan finds what a search in the whole file
would find, however `fread` divides it, and it finds what `init_registry` appends.

It does not look at the sections of the file. `in_profile` stays set when the next section begins,
so the value of another section is taken for the key's.
-/
import Linuwux.GameExecutable
import Linuwux.MapsChunks
import Linuwux.SlidingWindow

set_option autoImplicit false

namespace Linuwux.Registry

open GameExecutable (has_window has_window_iff)
open LibC (CString b_str)
open MapsChunks (Chunk content)
open SlidingWindow (last push)

def REGISTRY_NAME : List UInt8 := b_str "/system.reg"
def WINE_REGISTRY_MAGIC : List UInt8 := b_str "WINE REGISTRY"
def PROFILE_MARKER : List UInt8 := b_str "Hardware Profiles\\\\0001"
def GUID_MARKER : List UInt8 := b_str "HwProfileGuid"

/-- The header of the section. -/
def SECTION_HEADER : List UInt8 :=
  b_str "[System\\\\CurrentControlSet\\\\Control\\\\IDConfigDB\\\\Hardware Profiles\\\\0001]"

/-- The value of the section; `\x7b` and `\x7d` are its braces. -/
def SECTION_VALUE : List UInt8 :=
  b_str "\"HwProfileGuid\"=\"\x7b12345678-1234-1234-1234-123456789012\x7d\""

def REGISTRY_SECTION : List UInt8 := 0x0a :: SECTION_HEADER ++ 0x0a :: SECTION_VALUE ++ [0x0a]

/-! ## The scan -/

def contains (haystack needle : List UInt8) : Bool := has_window haystack needle

/-- `window[..window_len]` and `in_profile`. -/
structure Scan where
  filled : List UInt8
  in_profile : Bool

def Scan.start : Scan := ⟨[], false⟩

/-- The loop over the bytes of a chunk, one byte of it; none is `return true`. -/
def scan_byte (s : Scan) (byte : UInt8) : Option Scan :=
  let filled := push 64 s.filled byte
  if !s.in_profile then
    if contains filled PROFILE_MARKER then some ⟨[], true⟩ else some ⟨filled, false⟩
  else if contains filled GUID_MARKER then none
  else some ⟨filled, true⟩

def scan_bytes (s : Scan) (bytes : List UInt8) : Option Scan := bytes.foldlM scan_byte s

/-- The file as `fread` gives it. -/
def registry_already_present (chunks : List Chunk) : Bool :=
  (chunks.foldlM (fun s chunk => scan_bytes s chunk.bytes) Scan.start).isNone

/-- The name of the key, and behind it the name of the value. -/
def Present (text : List UInt8) : Prop :=
  ∃ a b c, text = a ++ PROFILE_MARKER ++ b ++ GUID_MARKER ++ c

theorem contains_iff (haystack needle : List UInt8) :
    contains haystack needle = true ↔ needle <:+: haystack := has_window_iff haystack needle

theorem profile_length : PROFILE_MARKER.length = 23 := by decide +kernel

theorem guid_length : GUID_MARKER.length = 13 := by decide +kernel

/-- **What has been read and not found**: the window is over all of it, or over what is behind the
first name of the key. -/
inductive Scanned : List UInt8 → Scan → Prop
  | before {text : List UInt8} (h : ¬ PROFILE_MARKER <:+: text) :
      Scanned text ⟨last 64 text, false⟩
  | behind {front text : List UInt8} (hin : PROFILE_MARKER <:+: front)
      (hfirst : ¬ PROFILE_MARKER <:+: front.dropLast) (hguid : ¬ GUID_MARKER <:+: text) :
      Scanned (front ++ text) ⟨last 64 text, true⟩

theorem Present.append {text : List UInt8} (h : Present text) (more : List UInt8) :
    Present (text ++ more) := by
  obtain ⟨a, b, c, rfl⟩ := h
  exact ⟨a, b, c ++ more, by simp⟩

theorem present_of_parts {front back : List UInt8} (hp : PROFILE_MARKER <:+: front)
    (hg : GUID_MARKER <:+: back) : Present (front ++ back) := by
  obtain ⟨a, b, rfl⟩ := hp
  obtain ⟨b', c, rfl⟩ := hg
  exact ⟨a, b ++ b', c, by simp⟩

/-- A byte is found to end the names, or read. -/
theorem Scanned.step {text : List UInt8} {s : Scan} (h : Scanned text s) (byte : UInt8) :
    match scan_byte s byte with
    | some s' => Scanned (text ++ [byte]) s'
    | none => Present (text ++ [byte]) := by
  cases h with
  | before h =>
    have hin : PROFILE_MARKER <:+: last 64 (text ++ [byte]) ↔ PROFILE_MARKER <:+: text ++ [byte] :=
      SlidingWindow.infix_last_iff h (by rw [profile_length]; decide)
    simp only [scan_byte, SlidingWindow.push_last (by decide : 0 < 64), Bool.not_false, if_true,
      contains_iff, hin]
    by_cases hnow : PROFILE_MARKER <:+: text ++ [byte]
    · rw [if_pos hnow]
      have hbehind : Scanned (text ++ [byte] ++ []) ⟨last 64 [], true⟩ :=
        .behind hnow (by rwa [List.dropLast_concat]) (by decide +kernel)
      simpa using hbehind
    · rw [if_neg hnow]
      exact .before hnow
  | @behind front text hp hfirst hguid =>
    have hin : GUID_MARKER <:+: last 64 (text ++ [byte]) ↔ GUID_MARKER <:+: text ++ [byte] :=
      SlidingWindow.infix_last_iff hguid (by rw [guid_length]; decide)
    simp only [scan_byte, SlidingWindow.push_last (by decide : 0 < 64), Bool.not_true,
      Bool.false_eq_true, if_false, contains_iff, hin]
    rw [List.append_assoc]
    by_cases hnow : GUID_MARKER <:+: text ++ [byte]
    · rw [if_pos hnow]
      exact present_of_parts hp hnow
    · rw [if_neg hnow]
      exact .behind hp hfirst hnow

/-- **The scan of a text.** -/
theorem scan_bytes_eq (text : List UInt8) :
    match scan_bytes Scan.start text with
    | some s => Scanned text s
    | none => Present text := by
  induction text using List.reverseRecOn with
  | nil => exact .before (by decide +kernel)
  | append_singleton text byte ih =>
    unfold scan_bytes at ih ⊢
    rw [List.foldlM_append]
    cases hs : text.foldlM scan_byte Scan.start with
    | none =>
      rw [hs] at ih
      exact ih.append [byte]
    | some s =>
      rw [hs] at ih
      have hstep := ih.step byte
      simp only [Option.bind_eq_bind, Option.bind_some, List.foldlM_cons, List.foldlM_nil]
      cases hbyte : scan_byte s byte with
      | none =>
        rw [hbyte] at hstep
        exact hstep
      | some s' =>
        rw [hbyte] at hstep
        exact hstep

/-- What was read without a result does not have the two names. -/
theorem Scanned.not_present {text : List UInt8} {s : Scan} (h : Scanned text s) :
    ¬ Present text := by
  rintro ⟨a, b, c, htext⟩
  cases h with
  | before h => exact h ⟨a, b ++ GUID_MARKER ++ c, by rw [htext]; simp⟩
  | @behind front text hp hfirst hguid =>
    have hrest : GUID_MARKER <:+: b ++ GUID_MARKER ++ c := ⟨b, c, rfl⟩
    have hsplit : front ++ text = (a ++ PROFILE_MARKER) ++ (b ++ GUID_MARKER ++ c) := by
      rw [htext]
      simp
    -- The first name of the key ends before any other, so the value's is in what was read since.
    obtain ⟨m, -, htext⟩ | ⟨m, hfront, hrest'⟩ := List.append_eq_append_iff.mp hsplit
    · exact hguid (hrest.trans (htext ▸ (List.suffix_append m _).isInfix))
    · cases m using List.reverseRecOn with
      | nil =>
        rw [List.nil_append] at hrest'
        exact hguid (hrest' ▸ hrest)
      | append_singleton m byte =>
        rw [hfront, ← List.append_assoc, List.dropLast_concat] at hfirst
        exact hfirst ⟨a, m, rfl⟩

/-- The chunks are scanned as their content is. -/
theorem scan_chunks (s : Scan) (chunks : List Chunk) :
    chunks.foldlM (fun s chunk => scan_bytes s chunk.bytes) s = scan_bytes s (content chunks) := by
  induction chunks generalizing s with
  | nil => rfl
  | cons chunk chunks ih =>
    rw [List.foldlM_cons, content, List.flatMap_cons, scan_bytes, scan_bytes, List.foldlM_append]
    exact congrArg (scan_bytes s chunk.bytes >>= ·) (funext fun s => ih s)

theorem registry_already_present_iff (chunks : List Chunk) :
    registry_already_present chunks = true ↔ Present (content chunks) := by
  have hscan := scan_bytes_eq (content chunks)
  unfold registry_already_present
  rw [scan_chunks]
  cases hs : scan_bytes Scan.start (content chunks) with
  | none =>
    rw [hs] at hscan
    exact ⟨fun _ => hscan, fun _ => rfl⟩
  | some s =>
    rw [hs] at hscan
    exact ⟨fun h => (by cases h), fun h => absurd h hscan.not_present⟩

/-! ## `init_registry` -/

/-- What `init_registry` reads of the environment: whether `LINUWUX_HWPROFILE` is set. -/
structure Env where
  done : Bool
  WINEPREFIX : Option CString

/-- The files there are, by their paths. -/
abbrev Files := List UInt8 → Option (List UInt8)

def PATH_MAX : ℕ := 4096

/-- How the calls come out: which of them succeed, how much of the header the first `fread` gives,
how the others divide the file, what `fwrite` returns, and how much of it is in the file in the
end. -/
structure Outcome where
  access : Bool
  fopen : Bool
  flock : Bool
  header : ℕ
  chunks : (text : List UInt8) → {chunks : List Chunk // content chunks = text}
  fseek : Bool
  fwrite : ℕ
  stored : ℕ
  setenv : Bool

/-- The header is read into 64 bytes of zero. -/
def registry_file_is_valid (header : ℕ) (text : List UInt8) : Bool :=
  let bytes := text.take (min 64 header)
  WINE_REGISTRY_MAGIC.length ≤ bytes.length &&
    WINE_REGISTRY_MAGIC.isPrefixOf (bytes ++ List.replicate (64 - bytes.length) 0)

def Env.mark_done (env : Env) (setenv : Bool) : Env := { env with done := env.done || setenv }

def init_registry (o : Outcome) (env : Env) (files : Files) : Env × Files :=
  if env.done then (env, files)
  else
    match env.WINEPREFIX with
    | none => (env, files)
    | some wine_dir =>
      if PATH_MAX < wine_dir.bytes.length + (REGISTRY_NAME.length + 1) then (env, files)
      else
        let path := wine_dir.bytes ++ REGISTRY_NAME
        match files path with
        | none => (env, files)
        | some text =>
          if !o.access || !o.fopen || !o.flock then (env, files)
          else if !registry_file_is_valid o.header text then (env, files)
          else if registry_already_present (o.chunks text) then (env.mark_done o.setenv, files)
          else if !o.fseek then (env, files)
          else
            (if o.fwrite = REGISTRY_SECTION.length then env.mark_done o.setenv else env,
              Function.update files path (some (text ++ REGISTRY_SECTION.take o.stored)))

/-- One run after the other, each with an environment of its own. -/
def rerun (files : Files) (runs : List (Outcome × Env)) : Files :=
  runs.foldl (fun files x => (init_registry x.1 x.2 files).2) files

theorem chunks_present (o : Outcome) (text : List UInt8) :
    registry_already_present (o.chunks text) = true ↔ Present text := by
  rw [registry_already_present_iff, (o.chunks text).2]

/-- What a run does to the files: nothing, or it appends to one that does not have the names. -/
theorem init_registry_cases (o : Outcome) (env : Env) (files : Files) :
    (init_registry o env files).2 = files ∨
      ∃ path text, files path = some text ∧ ¬ Present text ∧
        (init_registry o env files).2 =
          Function.update files path (some (text ++ REGISTRY_SECTION.take o.stored)) := by
  unfold init_registry
  by_cases hdone : env.done = true
  · rw [if_pos hdone]
    exact .inl rfl
  rw [if_neg hdone]
  cases env.WINEPREFIX with
  | none => exact .inl rfl
  | some wine_dir =>
    dsimp only
    by_cases hlong : PATH_MAX < wine_dir.bytes.length + (REGISTRY_NAME.length + 1)
    · rw [if_pos hlong]
      exact .inl rfl
    rw [if_neg hlong]
    cases htext : files (wine_dir.bytes ++ REGISTRY_NAME) with
    | none => exact .inl rfl
    | some text =>
      dsimp only
      split_ifs with hopen hvalid hpresent hseek
      all_goals first
        | exact .inl rfl
        | exact .inr ⟨_, text, htext, fun hp => hpresent ((chunks_present o text).mpr hp), rfl⟩

/-- **A file with the two names is left alone.** -/
theorem init_registry_present {files : Files} {path text : List UInt8} (h : files path = some text)
    (hp : Present text) (o : Outcome) (env : Env) :
    (init_registry o env files).2 path = some text := by
  obtain hsame | ⟨path', text', htext, habsent, happend⟩ := init_registry_cases o env files
  · rw [hsame, h]
  · -- What is appended to is another file.
    have hne : path ≠ path' := by
      rintro rfl
      rw [h, Option.some.injEq] at htext
      exact habsent (htext ▸ hp)
    rw [happend, Function.update_of_ne hne, h]

theorem rerun_present {files : Files} {path text : List UInt8} (h : files path = some text)
    (hp : Present text) (runs : List (Outcome × Env)) : rerun files runs path = some text := by
  unfold rerun
  induction runs generalizing files with
  | nil => exact h
  | cons x runs ih => exact ih (init_registry_present h hp x.1 x.2)

theorem header_has_profile : PROFILE_MARKER <:+: SECTION_HEADER := by decide +kernel

theorem value_has_guid : GUID_MARKER <:+: SECTION_VALUE := by decide +kernel

/-- What is appended has the two names. -/
theorem present_section (text : List UInt8) : Present (text ++ REGISTRY_SECTION) := by
  have hsplit : text ++ REGISTRY_SECTION =
      (text ++ [0x0a] ++ SECTION_HEADER) ++ ([0x0a] ++ SECTION_VALUE ++ [0x0a]) := by
    rw [REGISTRY_SECTION]
    simp
  rw [hsplit]
  exact present_of_parts (header_has_profile.trans (List.suffix_append _ _).isInfix)
    (value_has_guid.trans (List.infix_append _ _ _))

/-- **The key is written once.** The scan finds the two names wherever `fread` divides the file; and
a run that has appended the section is followed by none that changes the file, whatever the
environment says. -/
theorem registry_is_written_once :
    (∀ chunks : List Chunk, registry_already_present chunks = true ↔
      ∃ a b c, content chunks = a ++ PROFILE_MARKER ++ b ++ GUID_MARKER ++ c) ∧
    ∀ (o : Outcome) (env : Env) (files : Files) (path text : List UInt8), files path = some text →
      (init_registry o env files).2 path = some (text ++ REGISTRY_SECTION) →
      ∀ runs, rerun (init_registry o env files).2 runs path = some (text ++ REGISTRY_SECTION) :=
  ⟨registry_already_present_iff, fun _ _ _ _ text _ hwritten runs =>
    rerun_present hwritten (present_section text) runs⟩

/-- Every call succeeds, and the file is read a byte at a time. -/
def smooth : Outcome where
  access := true
  fopen := true
  flock := true
  header := 64
  chunks text := ⟨text.map fun byte => ⟨[byte], le_rfl, by simp⟩, by
    rw [content, List.flatMap_map]
    exact List.flatMap_singleton' text⟩
  fseek := true
  fwrite := REGISTRY_SECTION.length
  stored := REGISTRY_SECTION.length
  setenv := true

def wine_env : Env := ⟨false, some (LibC.c_str "/wine")⟩

def fresh_registry : List UInt8 := b_str "WINE REGISTRY Version 2\n"

def fresh_files : Files :=
  Function.update (fun _ => none) (b_str "/wine/system.reg") (some fresh_registry)

theorem fresh_registry_is_written_once :
    rerun (init_registry smooth wine_env fresh_files).2 [(smooth, wine_env), (smooth, wine_env)]
      (b_str "/wine/system.reg") = some (fresh_registry ++ REGISTRY_SECTION) :=
  registry_is_written_once.2 smooth wine_env fresh_files (b_str "/wine/system.reg") fresh_registry
    (by decide +kernel) (by decide +kernel) _

end Linuwux.Registry
