/-
`GameExecutable.lean` -- `game_executable_argument` of `runtime/src/environment.rs`.

It decides from the arguments whether the process is the game: whether an argument is an executable
that is neither a known helper nor in a system directory. A path is lowered in a buffer of 512 bytes
before it is compared with the system directories, and one that does not fit counts as no system
path. Where this leads to a system path being taken for the game is said exactly by [`Covered`]
([`game_is_safe_iff`]).
-/
import Linuwux.LibC
import Mathlib.Data.List.DropRight
import Mathlib.Data.List.Infix
import Mathlib.Data.List.ReduceOption

set_option autoImplicit false

namespace Linuwux.GameExecutable

open LibC (CString b_str eq_ignore_ascii_case to_ascii_lowercase)
open Scans (slice)

/-! ## The code -/

def equal_name (actual expected : List UInt8) : Bool :=
  actual.length = expected.length
    && (actual.zip expected).all fun (left, right) => eq_ignore_ascii_case left right

def is_exe (bytes : List UInt8) : Bool :=
  4 ≤ bytes.length && equal_name (bytes.drop (bytes.length - 4)) (b_str ".exe")

def HELPERS : List (List UInt8) :=
  [b_str "steam.exe", b_str "steamwebhelper.exe", b_str "crashhandler.exe", b_str "winecfg.exe",
    b_str "start.exe", b_str "rundll32.exe", b_str "dllhost.exe", b_str "conhost.exe",
    b_str "explorer.exe", b_str "xalia.exe"]

def separates (byte : UInt8) : Bool := byte = 0x2f || byte = 0x5c

def is_helper_basename (executable : List UInt8) : Bool :=
  let basename := ((executable.splitOnP separates).getLast?).getD executable
  HELPERS.any fun name => equal_name basename name

/-- `windows`. -/
def windows (bytes : List UInt8) (size : ℕ) : List (List UInt8) :=
  (List.range (bytes.length + 1 - size)).map fun i => slice bytes i (i + size)

/-- `windows(name.len()).any(|window| window == name)`. -/
def has_window (bytes name : List UInt8) : Bool :=
  (windows bytes name.length).any fun window => window = name

/-- What a byte is in `lowered`. -/
def lowered (byte : UInt8) : UInt8 := if byte = 0x5c then 0x2f else to_ascii_lowercase byte

def is_system32_helper (executable : List UInt8) : Bool :=
  if 512 ≤ executable.length then false
  else
    let path := executable.map lowered
    has_window path (b_str "/windows/system32/") || has_window path (b_str "/windows/syswow64/")

def argv0_is_unix_loader (bytes : List UInt8) : Bool :=
  has_window bytes (b_str "wine-preloader") || has_window bytes (b_str "wine64-preloader")
    || has_window bytes (b_str "wineserver") || has_window bytes (b_str "pressure-vessel")

/-- `bytes.len() >= 2 && bytes[1] == b':'`. -/
def has_drive (bytes : List UInt8) : Bool := bytes[1]? = some 0x3a

/-- The loop behind a loader. -/
def scan_loader (windows_game : Option CString) : List (Option CString) → Option CString
  | [] => windows_game
  | none :: rest => scan_loader windows_game rest -- a null pointer
  | some candidate :: rest =>
    if !is_exe candidate.bytes then scan_loader windows_game rest
    else if !has_drive candidate.bytes then scan_loader windows_game rest
    -- One helper is enough, whatever comes before or after it.
    else if is_system32_helper candidate.bytes || is_helper_basename candidate.bytes then none
    else scan_loader (some candidate) rest

/-- The variables of the other loop. -/
structure Scan where
  windows_game : Option CString
  unix_game : Option CString
  windows_helper : Bool

def scan (s : Scan) : List (Option CString) → Scan
  | [] => s
  | none :: rest => scan s rest
  | some candidate :: rest =>
    if !is_exe candidate.bytes then scan s rest
    else if is_system32_helper candidate.bytes || is_helper_basename candidate.bytes then
      -- Here it only stands in the way of a path without a drive letter.
      scan { s with windows_helper := true } rest
    else if has_drive candidate.bytes then scan { s with windows_game := some candidate } rest
    else if candidate.bytes.head? = some 0x2f then scan { s with unix_game := some candidate } rest
    else scan s rest

/-- `argv` has `argc` pointers, and may be null itself. -/
def game_executable_argument (argv : Option (List (Option CString))) : Option CString :=
  match argv with
  | none => none
  | some [] => none
  | some (argv0 :: rest) =>
    if argv0.any fun argv0 => argv0_is_unix_loader argv0.bytes then scan_loader none rest
    else
      let s := scan ⟨none, none, false⟩ (argv0 :: rest)
      s.windows_game.or (if s.windows_helper then none else s.unix_game)

/-! ## Paths -/

/-- The path ends in `.exe`, in any case. -/
def Executable (path : List UInt8) : Prop :=
  ∃ stem extension, path = stem ++ extension
    ∧ extension.map to_ascii_lowercase = b_str ".exe"

/-- What follows the last separator. -/
def basename (path : List UInt8) : List UInt8 := path.rtakeWhile fun byte => !separates byte

def Helper (path : List UInt8) : Prop :=
  ∃ name ∈ HELPERS, (basename path).map to_ascii_lowercase = name

/-- The path leads through a system directory, with either separator and in any case. -/
def System (path : List UInt8) : Prop :=
  b_str "/windows/system32/" <:+: path.map lowered
    ∨ b_str "/windows/syswow64/" <:+: path.map lowered

/-- The path does not fit the buffer. -/
def Overlong (path : List UInt8) : Prop := 512 ≤ path.length

/-- A drive letter and a colon. -/
def Drive (path : List UInt8) : Prop := path[1]? = some 0x3a

/-- A slash, and no colon after it. -/
def Rooted (path : List UInt8) : Prop := path.head? = some 0x2f ∧ ¬ Drive path

theorem equal_name_iff (actual expected : List UInt8) : equal_name actual expected = true
    ↔ actual.map to_ascii_lowercase = expected.map to_ascii_lowercase := by
  unfold equal_name eq_ignore_ascii_case
  induction actual generalizing expected with
  | nil => cases expected <;> simp
  | cons left actual ih =>
    cases expected with
    | nil => simp
    | cons right expected =>
      have hrest := ih expected
      simp only [Bool.and_eq_true, decide_eq_true_eq] at hrest
      simp only [List.length_cons, Nat.add_right_cancel_iff, List.zip_cons_cons, List.all_cons,
        Bool.and_eq_true, decide_eq_true_eq, List.map_cons, List.cons.injEq, ← hrest]
      tauto

theorem is_exe_iff (path : List UInt8) : is_exe path = true ↔ Executable path := by
  have hexe : (b_str ".exe").map to_ascii_lowercase = b_str ".exe" := by decide +kernel
  have hlen : (b_str ".exe").length = 4 := by decide +kernel
  unfold is_exe Executable
  rw [Bool.and_eq_true, equal_name_iff, hexe, decide_eq_true_eq]
  constructor
  · rintro ⟨-, heq⟩
    exact ⟨_, _, (List.take_append_drop (path.length - 4) path).symm, heq⟩
  · rintro ⟨stem, extension, rfl, heq⟩
    have hext : extension.length = 4 := by rw [← hlen, ← heq, List.length_map]
    rw [List.length_append, hext, Nat.add_sub_cancel, List.drop_left]
    exact ⟨Nat.le_add_left 4 stem.length, heq⟩

/-- The last piece of a split. -/
theorem getLast?_splitOnP (path : List UInt8) :
    (path.splitOnP separates).getLast? = some (basename path) := by
  have hpath : (path.rdropWhile fun byte => !separates byte) ++ basename path = path :=
    List.rdropWhile_append_rtakeWhile
  have hbase : (basename path).splitOnP separates = [basename path] :=
    List.splitOnP_eq_singleton fun byte hbyte => by simpa using List.mem_rtakeWhile_imp hbyte
  rcases List.eq_nil_or_concat (path.rdropWhile fun byte => !separates byte) with
    hnone | ⟨front, separator, hfront⟩
  · rw [hnone, List.nil_append] at hpath
    rw [hpath] at hbase ⊢
    rw [hbase]
    rfl
  · have hlast : separates separator = true := by
      have hne : (path.rdropWhile fun byte => !separates byte) ≠ [] := by simp [hfront]
      simpa [hfront] using List.rdropWhile_last_not _ _ hne
    rw [hfront, List.concat_eq_append, List.append_assoc, List.singleton_append] at hpath
    have hsplit : path.splitOnP separates = front.splitOnP separates ++ [basename path] := by
      rw [← hbase, ← List.splitOnP_append_cons _ _ hlast, hpath]
    rw [hsplit, List.getLast?_concat]

theorem is_helper_basename_iff (path : List UInt8) :
    is_helper_basename path = true ↔ Helper path := by
  have hlower : ∀ name ∈ HELPERS, name.map to_ascii_lowercase = name := by decide +kernel
  unfold is_helper_basename Helper
  rw [getLast?_splitOnP, Option.getD_some, List.any_eq_true]
  refine exists_congr fun name => and_congr_right fun hname => ?_
  rw [equal_name_iff, hlower name hname]

theorem has_window_iff (bytes name : List UInt8) :
    has_window bytes name = true ↔ name <:+: bytes := by
  unfold has_window windows
  simp only [List.any_map, List.any_eq_true, List.mem_range, Function.comp_apply,
    decide_eq_true_eq]
  constructor
  · rintro ⟨i, -, heq⟩
    rw [← heq, slice]
    exact (List.drop_suffix _ _).isInfix.trans (List.take_prefix _ _).isInfix
  · rintro ⟨front, back, rfl⟩
    refine ⟨front.length, ?_, ?_⟩
    · simp only [List.length_append]
      omega
    · unfold slice
      rw [List.take_append_of_le_length (by rw [List.length_append]),
        List.take_of_length_le (by rw [List.length_append]), List.drop_left]

theorem is_system32_helper_iff (path : List UInt8) :
    is_system32_helper path = true ↔ System path ∧ ¬ Overlong path := by
  unfold is_system32_helper System Overlong
  by_cases hlong : 512 ≤ path.length
  · simp [hlong]
  · simp [hlong, has_window_iff]

instance (path : List UInt8) : Decidable (Executable path) := decidable_of_iff _ (is_exe_iff path)

instance (path : List UInt8) : Decidable (Helper path) :=
  decidable_of_iff _ (is_helper_basename_iff path)

instance (path : List UInt8) : Decidable (System path) := inferInstanceAs (Decidable (_ ∨ _))

instance (path : List UInt8) : Decidable (Overlong path) := inferInstanceAs (Decidable (_ ≤ _))

instance (path : List UInt8) : Decidable (Drive path) := inferInstanceAs (Decidable (_ = _))

instance (path : List UInt8) : Decidable (Rooted path) := inferInstanceAs (Decidable (_ ∧ _))

/-! ## The loops -/

/-- What the code takes for a helper or a system path. -/
def Recognised (path : List UInt8) : Prop := Helper path ∨ System path ∧ ¬ Overlong path

instance (path : List UInt8) : Decidable (Recognised path) := inferInstanceAs (Decidable (_ ∨ _))

theorem recognised_eq (path : List UInt8) :
    (is_system32_helper path || is_helper_basename path) = decide (Recognised path) := by
  rw [Bool.eq_iff_iff, Bool.or_eq_true, is_system32_helper_iff, is_helper_basename_iff, or_comm,
    decide_eq_true_eq]
  rfl

theorem is_exe_eq (path : List UInt8) : is_exe path = decide (Executable path) := by
  rw [Bool.eq_iff_iff, is_exe_iff, decide_eq_true_eq]

theorem has_drive_eq (path : List UInt8) : has_drive path = decide (Drive path) := rfl

/-- An executable that is not taken for a helper. -/
def Accepted (path : List UInt8) : Prop := Executable path ∧ ¬ Recognised path

instance (path : List UInt8) : Decidable (Accepted path) := inferInstanceAs (Decidable (_ ∧ _))

theorem findRev?_cons {α : Type*} (p : α → Bool) (a : α) (l : List α) :
    (a :: l).findRev? p = (l.findRev? p).or (if p a then some a else none) := by
  rw [List.findRev?]
  cases l.findRev? p with
  | none => rw [Option.none_or]
  | some b => rfl

/-- The last argument of a kind. -/
def last (p : List UInt8 → Prop) [DecidablePred p] (args : List CString) : Option CString :=
  args.findRev? fun a => p a.bytes

theorem last_cons (p : List UInt8 → Prop) [DecidablePred p] (a : CString) (args : List CString) :
    last p (a :: args) = (last p args).or (if p a.bytes then some a else none) := by
  unfold last
  rw [findRev?_cons]
  simp only [decide_eq_true_eq]

/-- There is an argument of a kind. -/
def Seen (p : List UInt8 → Prop) (args : List CString) : Prop := ∃ a ∈ args, p a.bytes

instance (p : List UInt8 → Prop) [DecidablePred p] (args : List CString) :
    Decidable (Seen p args) :=
  inferInstanceAs (Decidable (∃ a ∈ args, p a.bytes))

theorem seen_cons (p : List UInt8 → Prop) (a : CString) (args : List CString) :
    Seen p (a :: args) ↔ p a.bytes ∨ Seen p args := by
  simp [Seen]

/-- Behind a loader the last executable with a drive letter is the game, unless one of them is
taken for a helper. -/
theorem scan_loader_eq (args : List (Option CString)) (game : Option CString) :
    scan_loader game args
      = if Seen (fun path => Executable path ∧ Drive path ∧ Recognised path) args.reduceOption then
          none
        else (last (fun path => Executable path ∧ Drive path) args.reduceOption).or game := by
  induction args generalizing game with
  | nil => simp [scan_loader, last, Seen, List.reduceOption]
  | cons argument rest ih =>
    cases argument with
    | none => exact ih game
    | some a =>
      simp only [scan_loader, List.reduceOption_cons_of_some, last_cons, seen_cons, is_exe_eq,
        has_drive_eq, recognised_eq]
      by_cases hexe : Executable a.bytes
      · by_cases hdrive : Drive a.bytes
        · by_cases hrecognised : Recognised a.bytes
          · simp [hexe, hdrive, hrecognised]
          · simp [hexe, hdrive, hrecognised, ih]
        · simp [hexe, hdrive, ih]
      · simp [hexe, ih]

/-- In the other loop the last one of each kind counts. -/
theorem scan_eq (args : List (Option CString)) (s : Scan) :
    scan s args
      = ⟨(last (fun path => Accepted path ∧ Drive path) args.reduceOption).or s.windows_game,
        (last (fun path => Accepted path ∧ Rooted path) args.reduceOption).or s.unix_game,
        s.windows_helper
          || decide (Seen (fun path => Executable path ∧ Recognised path) args.reduceOption)⟩ := by
  induction args generalizing s with
  | nil => simp [scan, last, Seen, List.reduceOption]
  | cons argument rest ih =>
    cases argument with
    | none => exact ih s
    | some a =>
      simp only [scan, List.reduceOption_cons_of_some, last_cons, seen_cons, is_exe_eq,
        has_drive_eq, recognised_eq]
      by_cases hexe : Executable a.bytes
      · by_cases hrecognised : Recognised a.bytes
        · have haccepted : ¬ Accepted a.bytes := fun h => h.2 hrecognised
          simp [hexe, hrecognised, haccepted, ih]
        · have haccepted : Accepted a.bytes := ⟨hexe, hrecognised⟩
          by_cases hdrive : Drive a.bytes
          · have hrooted : ¬ Rooted a.bytes := fun h => h.2 hdrive
            simp [hexe, hrecognised, haccepted, hdrive, hrooted, ih]
          · by_cases hslash : a.bytes.head? = some 0x2f
            · have hrooted : Rooted a.bytes := ⟨hslash, hdrive⟩
              simp [hexe, hrecognised, haccepted, hdrive, hslash, hrooted, ih]
            · have hrooted : ¬ Rooted a.bytes := fun h => hslash h.1
              simp [hexe, hrecognised, haccepted, hdrive, hslash, hrooted, ih]
      · have haccepted : ¬ Accepted a.bytes := fun h => hexe h.1
        simp [hexe, haccepted, ih]

/-! ## What is asked of the argument -/

/-- An executable with a drive letter or a slash, which is no helper and in no system directory. -/
structure Proper (path : List UInt8) : Prop where
  executable : Executable path
  absolute : Drive path ∨ path.head? = some 0x2f
  not_helper : ¬ Helper path
  not_system : ¬ System path

/-- `argv[0]` is a part of Wine that runs before the game does. -/
def BehindLoader (argv : Option (List (Option CString))) : Prop :=
  ∃ argv0 rest, argv = some (some argv0 :: rest)
    ∧ (b_str "wine-preloader" <:+: argv0.bytes ∨ b_str "wine64-preloader" <:+: argv0.bytes
      ∨ b_str "wineserver" <:+: argv0.bytes ∨ b_str "pressure-vessel" <:+: argv0.bytes)

/-- The arguments that are not null. -/
def arguments (argv : Option (List (Option CString))) : List CString := (argv.getD []).reduceOption

/-- Those behind `argv[0]`. -/
def later (argv : Option (List (Option CString))) : List CString := (argv.getD []).tail.reduceOption

/-- The argument that is returned is the game's, and behind a loader there is none if a helper or a
system path is among them. -/
structure Safe (argv : Option (List (Option CString))) : Prop where
  proper : ∀ game, game_executable_argument argv = some game →
    game ∈ arguments argv ∧ Proper game.bytes
  loader : BehindLoader argv →
    Seen (fun path => Executable path ∧ Drive path ∧ (Helper path ∨ System path)) (later argv) →
    game_executable_argument argv = none

/-- A system path that is not taken for one: it does not fit the buffer, and no helper is known by
its name. -/
def Disguised (path : List UInt8) : Prop :=
  Executable path ∧ System path ∧ Overlong path ∧ ¬ Helper path

/-- After every argument of one kind there is one of another kind. -/
def Followed (p q : List UInt8 → Prop) (args : List CString) : Prop :=
  ∀ front a rest, args = front ++ a :: rest → p a.bytes → Seen q rest

/-- No disguised path comes through. Behind a loader a path with a drive letter does not if another
one is taken for a helper; elsewhere it does not if a later one is accepted. A path without a drive
letter does not if there is an accepted one with a drive letter, or one that is taken for a helper,
or a later one of its kind. -/
structure Covered (argv : Option (List (Option CString))) : Prop where
  loader : BehindLoader argv →
    Seen (fun path => Drive path ∧ Disguised path) (later argv) →
    Seen (fun path => Executable path ∧ Drive path ∧ Recognised path) (later argv)
  windows : ¬ BehindLoader argv → Followed (fun path => Drive path ∧ Disguised path)
    (fun path => Accepted path ∧ Drive path) (arguments argv)
  unix : ¬ BehindLoader argv →
    Seen (fun path => Accepted path ∧ Drive path) (arguments argv)
      ∨ Seen (fun path => Executable path ∧ Recognised path) (arguments argv)
      ∨ Followed (fun path => Rooted path ∧ Disguised path)
          (fun path => Accepted path ∧ Rooted path) (arguments argv)

/-- A disguised path is an accepted one in a system directory. -/
theorem disguised_iff (path : List UInt8) : Disguised path ↔ Accepted path ∧ System path := by
  unfold Disguised Accepted Recognised
  tauto

theorem last_eq_some (p : List UInt8 → Prop) [DecidablePred p] (args : List CString) (a : CString) :
    last p args = some a
      ↔ p a.bytes ∧ ∃ front rest, args = front ++ a :: rest ∧ ¬ Seen p rest := by
  unfold last Seen
  rw [List.findRev?_eq_find?_reverse, List.find?_eq_some_iff_append]
  constructor
  · rintro ⟨hp, as, bs, heq, has⟩
    refine ⟨of_decide_eq_true hp, bs.reverse, as.reverse, ?_, ?_⟩
    · rw [← List.reverse_reverse args, heq]
      simp
    · rintro ⟨b, hb, hpb⟩
      simpa [hpb] using has b (List.mem_reverse.mp hb)
  · rintro ⟨hp, front, rest, rfl, hrest⟩
    refine ⟨decide_eq_true hp, rest.reverse, front.reverse, by simp, fun b hb => ?_⟩
    have hnot : ¬ p b.bytes := fun hpb => hrest ⟨b, List.mem_reverse.mp hb, hpb⟩
    simp [hnot]

theorem last_eq_none (p : List UInt8 → Prop) [DecidablePred p] (args : List CString) :
    last p args = none ↔ ¬ Seen p args := by
  unfold last Seen
  rw [List.findRev?_eq_find?_reverse, List.find?_eq_none]
  simp

/-- The last argument of a kind is in the way of those before it. -/
theorem followed_iff {p q : List UInt8 → Prop} [DecidablePred q] (hpq : ∀ path, p path → q path)
    (args : List CString) : Followed p q args ↔ ∀ a, last q args = some a → ¬ p a.bytes := by
  constructor
  · intro hfollowed a hlast hp
    obtain ⟨-, front, rest, heq, hnone⟩ := (last_eq_some q args a).mp hlast
    exact hnone (hfollowed front a rest heq hp)
  · intro hlast front a rest heq hp
    by_contra hnone
    exact hlast a ((last_eq_some q args a).mpr ⟨hpq _ hp, front, rest, heq, hnone⟩) hp

/-! ## When it is met -/

variable {argv : Option (List (Option CString))}

theorem loader_eq (h : BehindLoader argv) : game_executable_argument argv
    = if Seen (fun path => Executable path ∧ Drive path ∧ Recognised path) (later argv) then none
      else last (fun path => Executable path ∧ Drive path) (later argv) := by
  obtain ⟨argv0, rest, rfl, hloader⟩ := h
  have hname : argv0_is_unix_loader argv0.bytes = true := by
    unfold argv0_is_unix_loader
    simpa [has_window_iff, or_assoc] using hloader
  have hscan := scan_loader_eq rest none
  rw [Option.or_none] at hscan
  unfold game_executable_argument
  simp only [Option.any_some, hname, if_true]
  exact hscan

theorem other_eq (h : ¬ BehindLoader argv) : game_executable_argument argv
    = (last (fun path => Accepted path ∧ Drive path) (arguments argv)).or
        (if Seen (fun path => Executable path ∧ Recognised path) (arguments argv) then none
          else last (fun path => Accepted path ∧ Rooted path) (arguments argv)) := by
  match argv with
  | none => rfl
  | some [] => rfl
  | some (argv0 :: rest) =>
    have hname : ¬ (argv0.any fun argv0 => argv0_is_unix_loader argv0.bytes) = true := by
      cases argv0 with
      | none => exact Bool.false_ne_true
      | some name =>
        intro hname
        refine h ⟨name, rest, rfl, ?_⟩
        simpa [argv0_is_unix_loader, has_window_iff, or_assoc] using hname
    unfold game_executable_argument arguments
    simp only [hname, Bool.false_eq_true, if_false, scan_eq, Option.or_none, Bool.false_or,
      decide_eq_true_eq, Option.getD_some]

theorem last_mem {p : List UInt8 → Prop} [DecidablePred p] {args : List CString} {a : CString}
    (h : last p args = some a) : a ∈ args ∧ p a.bytes := by
  obtain ⟨hp, front, rest, rfl, -⟩ := (last_eq_some p args a).mp h
  exact ⟨by simp, hp⟩

theorem mem_arguments {a : CString} (h : a ∈ later argv) : a ∈ arguments argv := by
  unfold later arguments at *
  rw [List.reduceOption_mem_iff] at *
  exact List.mem_of_mem_tail h

/-- What a path is that comes through. -/
theorem proper_iff {path : List UInt8} (haccepted : Accepted path)
    (habsolute : Drive path ∨ Rooted path) : Proper path ↔ ¬ Disguised path := by
  rw [disguised_iff]
  constructor
  · intro hproper hdisguised
    exact hproper.not_system hdisguised.2
  · intro hnot
    exact ⟨haccepted.1, habsolute.imp_right And.left, fun hhelper => haccepted.2 (.inl hhelper),
      fun hsystem => hnot ⟨haccepted, hsystem⟩⟩

/-- Behind a loader. -/
theorem loader_safe_iff (h : BehindLoader argv) : Safe argv
    ↔ (Seen (fun path => Drive path ∧ Disguised path) (later argv) →
      Seen (fun path => Executable path ∧ Drive path ∧ Recognised path) (later argv)) := by
  constructor
  · rintro hsafe ⟨a, ha, hdrive, hdisguised⟩
    by_contra hnone
    have hgame := hsafe.loader h ⟨a, ha, hdisguised.1, hdrive, .inr hdisguised.2.1⟩
    rw [loader_eq h, if_neg hnone, last_eq_none] at hgame
    exact hgame ⟨a, ha, hdisguised.1, hdrive⟩
  · intro hcovered
    by_cases hseen : Seen (fun path => Executable path ∧ Drive path ∧ Recognised path) (later argv)
    · have hgame : game_executable_argument argv = none := by rw [loader_eq h, if_pos hseen]
      exact ⟨fun game hsome => absurd (hgame.symm.trans hsome) nofun, fun _ _ => hgame⟩
    · refine ⟨fun game hsome => ?_, fun _ ⟨a, ha, hexe, hdrive, hno⟩ => ?_⟩
      · rw [loader_eq h, if_neg hseen] at hsome
        obtain ⟨hmem, hexe, hdrive⟩ := last_mem hsome
        have haccepted : Accepted game.bytes :=
          ⟨hexe, fun hrecognised => hseen ⟨game, hmem, hexe, hdrive, hrecognised⟩⟩
        refine ⟨mem_arguments hmem, (proper_iff haccepted (.inl hdrive)).mpr fun hdisguised => ?_⟩
        exact hseen (hcovered ⟨game, hmem, hdrive, hdisguised⟩)
      · -- No such path is recognised, so it is a disguised one.
        have hnot : ¬ Recognised a.bytes := fun hrecognised =>
          hseen ⟨a, ha, hexe, hdrive, hrecognised⟩
        have hsystem : System a.bytes := hno.resolve_left fun hhelper => hnot (.inl hhelper)
        have hdisguised := (disguised_iff a.bytes).mpr ⟨⟨hexe, hnot⟩, hsystem⟩
        exact absurd (hcovered ⟨a, ha, hdrive, hdisguised⟩) hseen

/-- Elsewhere. -/
theorem other_safe_iff (h : ¬ BehindLoader argv) : Safe argv
    ↔ Followed (fun path => Drive path ∧ Disguised path) (fun path => Accepted path ∧ Drive path)
        (arguments argv)
      ∧ (Seen (fun path => Accepted path ∧ Drive path) (arguments argv)
        ∨ Seen (fun path => Executable path ∧ Recognised path) (arguments argv)
        ∨ Followed (fun path => Rooted path ∧ Disguised path)
            (fun path => Accepted path ∧ Rooted path) (arguments argv)) := by
  have haccepted {path : List UInt8} (hdisguised : Disguised path) : Accepted path :=
    ((disguised_iff path).mp hdisguised).1
  rw [followed_iff fun _ hp => ⟨haccepted hp.2, hp.1⟩,
    followed_iff fun _ hp => ⟨haccepted hp.2, hp.1⟩]
  constructor
  · intro hsafe
    refine ⟨fun a hlast hp => ?_, ?_⟩
    · have hgame : game_executable_argument argv = some a := by
        rw [other_eq h, hlast, Option.some_or]
      exact (proper_iff (haccepted hp.2) (.inl hp.1)).mp (hsafe.proper a hgame).2 hp.2
    · by_contra hnone
      obtain ⟨hdrive, hrest⟩ := not_or.mp hnone
      obtain ⟨hhelper, hfollowed⟩ := not_or.mp hrest
      apply hfollowed
      intro a hlast hp
      have hgame : game_executable_argument argv = some a := by
        rw [other_eq h, (last_eq_none _ _).mpr hdrive, Option.none_or, if_neg hhelper, hlast]
      exact (proper_iff (haccepted hp.2) (.inr hp.1)).mp (hsafe.proper a hgame).2 hp.2
  · rintro ⟨hwindows, hunix⟩
    refine ⟨fun game hgame => ?_, fun hloader => absurd hloader h⟩
    rw [other_eq h] at hgame
    cases hlast : last (fun path => Accepted path ∧ Drive path) (arguments argv) with
    | some a =>
      rw [hlast, Option.some_or] at hgame
      obtain rfl := Option.some.inj hgame
      obtain ⟨hmem, hacc, hdrive⟩ := last_mem hlast
      exact ⟨hmem, (proper_iff hacc (.inl hdrive)).mpr fun hdisguised =>
        hwindows a hlast ⟨hdrive, hdisguised⟩⟩
    | none =>
      rw [hlast, Option.none_or] at hgame
      split at hgame
      · cases hgame
      · rename_i hhelper
        have hdrive := (last_eq_none _ _).mp hlast
        have hfollowed := (hunix.resolve_left hdrive).resolve_left hhelper
        obtain ⟨hmem, hacc, hrooted⟩ := last_mem hgame
        exact ⟨hmem, (proper_iff hacc (.inr hrooted)).mpr fun hdisguised =>
          hfollowed game hgame ⟨hrooted, hdisguised⟩⟩

/-- **When the argument is the game's.** It is, and behind a loader there is none where there must
be none, if and only if no disguised path comes through. -/
theorem game_is_safe_iff (argv : Option (List (Option CString))) : Safe argv ↔ Covered argv := by
  by_cases h : BehindLoader argv
  · rw [loader_safe_iff h]
    exact ⟨fun hloader => ⟨fun _ => hloader, fun hno => absurd h hno, fun hno => absurd h hno⟩,
      fun hcovered => hcovered.loader h⟩
  · rw [other_safe_iff h]
    exact ⟨fun hother => ⟨fun hyes => absurd hyes h, fun _ => hother.1, fun _ => hother.2⟩,
      fun hcovered => ⟨hcovered.windows h, hcovered.unix h⟩⟩

/-- A service of Windows under a name that goes through its own directory 256 times. -/
def long_path : CString where
  bytes := b_str "C:\\windows\\system32\\" ++ (List.replicate 256 (b_str ".\\")).flatten
    ++ b_str "services.exe"
  nonzero := by decide +kernel

theorem long_path_is_taken : ¬ Safe (some [some (LibC.c_str "wine64"), some long_path]) := by
  intro hsafe
  have hgame : game_executable_argument (some [some (LibC.c_str "wine64"), some long_path])
      = some long_path := by decide +kernel
  exact (hsafe.proper long_path hgame).2.not_system (by decide +kernel)

end Linuwux.GameExecutable
