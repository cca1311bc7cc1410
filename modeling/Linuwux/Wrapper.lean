/-
`Wrapper.lean` -- the launcher that `install.sh` writes, which puts the library in `LD_PRELOAD`.

The launcher divides the inherited value at `:` and looks at each entry as a whole. The dynamic
loader, and `preload_has_path` of the runtime, divide it at blanks too, so an entry may be several
of the loader's tokens. Where it is, the path of the library can stay in the value a second time,
and a token can go with an overlay that it stands beside.
-/
import Linuwux.GameExecutable
import Linuwux.Tokens

set_option autoImplicit false

namespace Linuwux.Wrapper

open GameExecutable (has_window has_window_iff)
open LibC (b_str)
open Tokens (Solid tokens)

/-! ## The launcher -/

def OVERLAY : List UInt8 := b_str "gameoverlayrenderer.so"
def GAMESCOPE : List UInt8 := b_str "gamescope"

/-- What `install.sh` writes into the launcher. -/
structure Installed where
  LIB_PATH : List UInt8
  BIN_PATH : List UInt8

/-- `${1##*/}`. -/
def command_name (command : List UInt8) : List UInt8 :=
  (command.reverse.takeWhile (· ≠ 0x2f)).reverse

/-- `$preload` with `IFS=:` and `set -f`: a `:` ends a field, and none follows the last one. -/
def fields (value : List UInt8) : List (List UInt8) :=
  let pieces := value.splitOn 0x3a
  if pieces.getLast? = some [] then pieces.dropLast else pieces

/-- The body of the loop. -/
def filter_entry (lib : List UInt8) (gamescope : Bool) (filtered entry : List UInt8) :
    List UInt8 :=
  if entry = [] then filtered
  else if entry = lib then filtered
  else if gamescope && has_window entry OVERLAY then filtered
  else (if filtered = [] then [] else filtered ++ [0x3a]) ++ entry

/-- The value that is exported. -/
def preload_value (lib : List UInt8) (gamescope : Bool) (preload : List UInt8) : List UInt8 :=
  let filtered := (fields preload).foldl (filter_entry lib gamescope) []
  lib ++ if filtered = [] then [] else 0x3a :: filtered

/-- What is run, and with what value. -/
structure Exec where
  LD_PRELOAD : List UInt8
  command : List (List UInt8)
  deriving DecidableEq

/-- The launcher; an error is what it writes before it exits with 1. `access` is `[ -r ]`, of a path
that is not empty. -/
def linuwux (access : List UInt8 → Bool) (i : Installed) (LD_PRELOAD : Option (List UInt8))
    (args : List (List UInt8)) : Except (List (List UInt8)) Exec :=
  if i.LIB_PATH = [] || !access i.LIB_PATH then
    .error [b_str "linuwux: library not found: " ++ i.LIB_PATH,
      b_str "  Reinstall with install.sh"]
  else if 0x3a ∈ i.LIB_PATH then
    .error [b_str "linuwux: library path cannot contain ':' when used in LD_PRELOAD"]
  else
    match args with
    | [] => .error [b_str "linuwux: no command given -- use it as a launch option:",
        b_str "  " ++ i.BIN_PATH ++ b_str " %command%"]
    | command :: _ =>
      .ok ⟨preload_value i.LIB_PATH (command_name command = GAMESCOPE) (LD_PRELOAD.getD []), args⟩

/-! ## The loader's tokens -/

/-- What ends an entry of the launcher. -/
def colon (byte : UInt8) : Bool := byte = 0x3a

/-- What ends a token of the loader. -/
def separates (byte : UInt8) : Bool := byte = 0x3a || byte = 0x20

/-- The library itself, or an overlay that Gamescope does not get. -/
def drops (lib : List UInt8) (gamescope : Bool) (token : List UInt8) : Bool :=
  token = lib || gamescope && has_window token OVERLAY

/-- **What the launcher is for.** The library comes first and once, every other token stays in its
place, and an overlay goes only for Gamescope; under itself the launcher changes nothing. -/
structure Keeps (access : List UInt8 → Bool) (i : Installed) (preload : Option (List UInt8))
    (command : List UInt8) (args : List (List UInt8)) (run : Exec) : Prop where
  first : i.LIB_PATH <+: run.LD_PRELOAD
  once : (tokens separates run.LD_PRELOAD).count i.LIB_PATH = 1
  others : tokens separates run.LD_PRELOAD = i.LIB_PATH ::
    (tokens separates (preload.getD [])).filter
      fun token => !drops i.LIB_PATH (command_name command = GAMESCOPE) token
  again : linuwux access i (some run.LD_PRELOAD) (command :: args) = .ok run
  nested : ∀ self, command_name self ≠ GAMESCOPE →
    ∃ outer, linuwux access i preload (self :: command :: args) = .ok outer ∧
      linuwux access i (some outer.LD_PRELOAD) outer.command.tail = .ok run

/-- **The entries can be taken as they are**: none has the library beside another token, and none
has an overlay beside a token that is to stay. -/
def Separable (lib : List UInt8) (gamescope : Bool) (preload : List UInt8) : Prop :=
  ∀ entry ∈ tokens colon preload,
    (drops lib gamescope entry = false → lib ∉ tokens separates entry) ∧
    (gamescope = true → OVERLAY <:+: entry →
      ∀ token ∈ tokens separates entry, token = lib ∨ OVERLAY <:+: token)

/-! ## The value -/

/-- The entries that stay. -/
def kept (lib : List UInt8) (gamescope : Bool) (preload : List UInt8) : List (List UInt8) :=
  (tokens colon preload).filter fun entry => !drops lib gamescope entry

/-- The fields that are not empty. -/
theorem fields_eq (value : List UInt8) :
    (fields value).filter (fun entry => !entry.isEmpty) = tokens colon value := by
  have hpieces : value.splitOn 0x3a = value.splitOnP colon := by
    unfold List.splitOn
    congr 1
  unfold fields tokens
  rw [hpieces]
  dsimp only
  split
  · next h =>
    -- The piece behind the last `:` is empty.
    obtain ⟨pieces, hlast⟩ := List.getLast?_eq_some_iff.mp h
    rw [hlast, List.dropLast_concat, List.filter_append]
    simp
  · rfl

theorem filter_entry_eq (lib : List UInt8) (gamescope : Bool) (filtered entry : List UInt8) :
    filter_entry lib gamescope filtered entry =
      if entry = [] ∨ drops lib gamescope entry = true then filtered
      else (if filtered = [] then [] else filtered ++ [0x3a]) ++ entry := by
  unfold filter_entry drops
  by_cases hempty : entry = []
  · simp [hempty]
  · by_cases hlib : entry = lib
    · simp [hlib]
    · simp [hempty, hlib]

/-- **The loop joins the entries that stay.** -/
theorem filtered_eq (lib : List UInt8) (gamescope : Bool) (entries : List (List UInt8)) :
    entries.foldl (filter_entry lib gamescope) [] =
      [0x3a].intercalate ((entries.filter fun entry => !entry.isEmpty).filter
        fun entry => !drops lib gamescope entry) := by
  induction entries using List.reverseRecOn with
  | nil => rfl
  | append_singleton entries entry ih =>
    rw [List.foldl_append, ih, List.foldl_cons, List.foldl_nil, filter_entry_eq,
      List.filter_append, List.filter_append]
    by_cases hout : entry = [] ∨ drops lib gamescope entry = true
    · have hnone : ([entry].filter fun entry => !entry.isEmpty).filter
          (fun entry => !drops lib gamescope entry) = [] := by
        obtain rfl | hdrop := hout
        · rfl
        · rw [List.filter_filter]
          simp [hdrop]
      rw [if_pos hout, hnone, List.append_nil]
    · have hone : ([entry].filter fun entry => !entry.isEmpty).filter
          (fun entry => !drops lib gamescope entry) = [entry] := by
        rw [not_or] at hout
        rw [List.filter_filter]
        simp [hout.1, hout.2]
      rw [if_neg hout, hone]
      generalize hkept : (entries.filter fun entry => !entry.isEmpty).filter
        (fun entry => !drops lib gamescope entry) = before
      have hbefore : ∀ t ∈ before, t ≠ [] := by
        intro t ht
        rw [← hkept] at ht
        simpa using (List.mem_filter.mp (List.mem_filter.mp ht).1).2
      by_cases hnil : before = []
      · simp [hnil]
      · rw [if_neg (mt (Tokens.intercalate_eq_nil hbefore).mp hnil),
          Tokens.intercalate_concat hnil, List.append_assoc, List.singleton_append]

theorem kept_ok {lib : List UInt8} {gamescope : Bool} {preload entry : List UInt8}
    (h : entry ∈ kept lib gamescope preload) : entry ≠ [] ∧ Solid colon entry :=
  Tokens.mem_tokens (List.mem_of_mem_filter h)

/-- The value is the library and the entries that stay. -/
theorem preload_value_eq (lib : List UInt8) (gamescope : Bool) (preload : List UInt8) :
    preload_value lib gamescope preload =
      [0x3a].intercalate (lib :: kept lib gamescope preload) := by
  have hfiltered : (fields preload).foldl (filter_entry lib gamescope) [] =
      [0x3a].intercalate (kept lib gamescope preload) := by
    rw [filtered_eq, fields_eq]
    rfl
  unfold preload_value
  rw [hfiltered]
  simp only [Tokens.intercalate_eq_nil fun t ht => (kept_ok ht).1]
  cases kept lib gamescope preload with
  | nil => simp
  | cons entry rest =>
    rw [if_neg (List.cons_ne_nil entry rest), List.intercalate_cons_cons, List.append_assoc,
      List.singleton_append]

section Value

variable {lib : List UInt8} (hne : lib ≠ []) (hcolon : 0x3a ∉ lib)

include hne hcolon

/-- The entries of the value. -/
theorem entries_preload_value (gamescope : Bool) (preload : List UInt8) :
    tokens colon (preload_value lib gamescope preload) = lib :: kept lib gamescope preload := by
  have hlib : Solid colon lib := fun byte hbyte =>
    decide_eq_false fun heq => hcolon (heq ▸ hbyte)
  rw [preload_value_eq]
  refine Tokens.tokens_intercalate_of_solid rfl (List.forall_mem_cons.mpr ⟨⟨hne, hlib⟩, ?_⟩)
  exact fun entry h => kept_ok h

/-- **A second launcher changes nothing**, unless it is the only one for Gamescope. -/
theorem preload_value_again {outer gamescope : Bool} (h : outer = true → gamescope = true)
    (preload : List UInt8) :
    preload_value lib gamescope (preload_value lib outer preload) =
      preload_value lib gamescope preload := by
  have hdrops : ∀ entry, drops lib outer entry = true → drops lib gamescope entry = true := by
    intro entry
    simp only [drops, Bool.or_eq_true, Bool.and_eq_true, decide_eq_true_eq]
    exact Or.imp_right (And.imp_left h)
  have hkept : kept lib gamescope (preload_value lib outer preload) =
      kept lib gamescope preload := by
    unfold kept
    rw [entries_preload_value hne hcolon, List.filter_cons_of_neg (by simp [drops])]
    unfold kept
    rw [List.filter_filter]
    refine List.filter_congr fun entry _ => ?_
    cases hin : drops lib gamescope entry with
    | true => rfl
    | false =>
      have hout : drops lib outer entry = false := by
        rw [← Bool.not_eq_true] at hin ⊢
        exact mt (hdrops entry) hin
      rw [hout]
      rfl
  rw [preload_value_eq lib gamescope, hkept, ← preload_value_eq]

/-- The library is one token. -/
theorem tokens_lib (hblank : 0x20 ∉ lib) : tokens separates lib = [lib] := by
  refine Tokens.tokens_of_solid (fun byte hbyte => ?_) hne
  rw [separates, Bool.or_eq_false_iff, decide_eq_false_iff_not, decide_eq_false_iff_not]
  exact ⟨fun heq => hcolon (heq ▸ hbyte), fun heq => hblank (heq ▸ hbyte)⟩

/-- The loader's tokens of the value. -/
theorem tokens_preload_value (hblank : 0x20 ∉ lib) (gamescope : Bool) (preload : List UInt8) :
    tokens separates (preload_value lib gamescope preload) =
      lib :: (kept lib gamescope preload).flatMap (tokens separates) := by
  rw [preload_value_eq, Tokens.tokens_intercalate (by rfl), List.flatMap_cons,
    tokens_lib hne hcolon hblank, List.singleton_append]

end Value

/-! ## What is kept -/

theorem drops_eq_false {lib token : List UInt8} {gamescope : Bool} :
    drops lib gamescope token = false ↔
      token ≠ lib ∧ ¬ (gamescope = true ∧ OVERLAY <:+: token) := by
  rw [← Bool.not_eq_true, drops]
  simp only [Bool.or_eq_true, Bool.and_eq_true, decide_eq_true_eq, has_window_iff, not_or, ne_eq]

theorem token_within {entry token : List UInt8} (h : token ∈ tokens separates entry) :
    token <:+: entry := by
  obtain ⟨front, back, rfl, -⟩ := Tokens.mem_tokens_iff.mp h
  exact ⟨front, back, rfl⟩

/-- One entry: what the launcher does with it is right for all its tokens. -/
theorem entry_iff {lib entry : List UInt8} {gamescope : Bool}
    (hlib : tokens separates lib = [lib]) :
    (∀ token ∈ tokens separates entry, (!drops lib gamescope token) = !drops lib gamescope entry) ↔
      (drops lib gamescope entry = false → lib ∉ tokens separates entry) ∧
      (gamescope = true → OVERLAY <:+: entry →
        ∀ token ∈ tokens separates entry, token = lib ∨ OVERLAY <:+: token) := by
  cases hentry : drops lib gamescope entry with
  | false =>
    have hin := (drops_eq_false.mp hentry).2
    constructor
    · intro h
      refine ⟨fun _ hmem => ?_, fun hg ho => absurd ⟨hg, ho⟩ hin⟩
      have hown := h lib hmem
      simp [drops] at hown
    · rintro ⟨hout, -⟩ token htoken
      have hkeep : drops lib gamescope token = false := drops_eq_false.mpr
        ⟨fun heq => hout rfl (heq ▸ htoken), fun h => hin ⟨h.1, h.2.trans (token_within htoken)⟩⟩
      rw [hkeep]
  | true =>
    have hwhole : entry = lib ∨ gamescope = true ∧ OVERLAY <:+: entry := by
      by_contra h
      rw [not_or] at h
      rw [drops_eq_false.mpr h] at hentry
      cases hentry
    constructor
    · intro h
      refine ⟨fun hkeep => (by cases hkeep), fun _ _ token htoken => ?_⟩
      by_contra hno
      rw [not_or] at hno
      have hkeep := h token htoken
      rw [drops_eq_false.mpr ⟨hno.1, fun h => hno.2 h.2⟩] at hkeep
      cases hkeep
    · rintro ⟨-, hover⟩ token htoken
      have hdrop : ¬ drops lib gamescope token = false := by
        rw [drops_eq_false]
        rintro ⟨hne, hno⟩
        obtain rfl | ⟨hg, ho⟩ := hwhole
        · rw [hlib, List.mem_singleton] at htoken
          exact hne htoken
        · obtain heq | hin := hover hg ho token htoken
          · exact hne heq
          · exact hno ⟨hg, hin⟩
      rw [Bool.not_eq_false] at hdrop
      rw [hdrop]

/-- **The tokens that stay are the right ones** exactly where the entries can be taken as they
are. -/
theorem kept_tokens_iff {lib : List UInt8} (hlib : tokens separates lib = [lib]) (gamescope : Bool)
    (preload : List UInt8) :
    (kept lib gamescope preload).flatMap (tokens separates) =
        (tokens separates preload).filter (fun token => !drops lib gamescope token) ↔
      Separable lib gamescope preload := by
  rw [← Tokens.tokens_flatMap (p := colon) (fun byte h => ?_) preload]
  · unfold kept
    rw [Tokens.flatMap_filter_eq_iff]
    exact forall₂_congr fun entry _ => entry_iff hlib
  · rw [separates, Bool.or_eq_true]
    exact .inl h

/-- When the launcher runs the command. -/
theorem linuwux_eq_ok {access : List UInt8 → Bool} {i : Installed} {preload : Option (List UInt8)}
    {command : List UInt8} {args : List (List UInt8)} {run : Exec} :
    linuwux access i preload (command :: args) = .ok run ↔
      (i.LIB_PATH ≠ [] ∧ access i.LIB_PATH = true ∧ 0x3a ∉ i.LIB_PATH) ∧
        run = ⟨preload_value i.LIB_PATH (command_name command = GAMESCOPE) (preload.getD []),
          command :: args⟩ := by
  unfold linuwux
  by_cases hread : i.LIB_PATH = [] ∨ access i.LIB_PATH = false
  · rw [if_pos (by simpa using hread)]
    refine ⟨fun h => (by cases h), fun ⟨⟨hne, haccess, _⟩, _⟩ => ?_⟩
    obtain h | h := hread
    · exact absurd h hne
    · rw [h] at haccess
      cases haccess
  · rw [if_neg (by simpa using hread)]
    rw [not_or, Bool.not_eq_false] at hread
    by_cases hcolon : 0x3a ∈ i.LIB_PATH
    · rw [if_pos hcolon]
      exact ⟨fun h => (by cases h), fun h => absurd hcolon h.1.2.2⟩
    · rw [if_neg hcolon]
      simp [hread.1, hread.2, hcolon, eq_comm]

/-- **What the launcher keeps.** Of a library without a blank in its path, the launcher does what
it is for exactly where the entries can be taken as they are. -/
theorem keeps_iff {access : List UInt8 → Bool} {i : Installed} (hblank : 0x20 ∉ i.LIB_PATH)
    {preload : Option (List UInt8)} {command : List UInt8} {args : List (List UInt8)} {run : Exec}
    (hrun : linuwux access i preload (command :: args) = .ok run) :
    Keeps access i preload command args run ↔
      Separable i.LIB_PATH (command_name command = GAMESCOPE) (preload.getD []) := by
  obtain ⟨hok, rfl⟩ := linuwux_eq_ok.mp hrun
  have ⟨hne, _, hcolon⟩ := hok
  have htokens := tokens_preload_value hne hcolon hblank (command_name command = GAMESCOPE)
    (preload.getD [])
  rw [← kept_tokens_iff (tokens_lib hne hcolon hblank)]
  constructor
  · intro h
    have hothers := h.others
    rw [htokens] at hothers
    exact List.cons.inj hothers |>.2
  · intro hkept
    rw [hkept] at htokens
    refine ⟨List.prefix_append _ _, ?_, htokens, ?_, ?_⟩
    · -- What else there is, is not the library.
      rw [htokens, List.count_cons_self, Nat.add_eq_right, List.count_eq_zero]
      intro hmem
      have hkeep := (List.mem_filter.mp hmem).2
      simp [drops] at hkeep
    · refine linuwux_eq_ok.mpr ⟨hok, ?_⟩
      rw [Option.getD_some, preload_value_again hne hcolon id]
    · intro self hself
      refine ⟨_, linuwux_eq_ok.mpr ⟨hok, rfl⟩, linuwux_eq_ok.mpr ⟨hok, ?_⟩⟩
      rw [Option.getD_some, preload_value_again hne hcolon (by simp [hself])]

def home : Installed where
  LIB_PATH := b_str "/home/USERNAME/.local/share/linuwux/LinUwUx.so"
  BIN_PATH := b_str "/home/USERNAME/.local/bin/linuwux"

/-- An overlay by itself goes, and what is in the entries around it stays. -/
def overlay_preload : List UInt8 :=
  b_str "/usr/lib/liba.so /usr/lib/libb.so:/steam/gameoverlayrenderer.so::/usr/lib/libc.so"

theorem overlay_alone_is_dropped :
    Keeps (fun _ => true) home (some overlay_preload) (b_str "/usr/bin/gamescope") [b_str "-f"]
      ⟨home.LIB_PATH ++ b_str ":/usr/lib/liba.so /usr/lib/libb.so:/usr/lib/libc.so",
        [b_str "/usr/bin/gamescope", b_str "-f"]⟩ :=
  (keeps_iff (by decide +kernel) (by decide +kernel)).mpr (by unfold Separable; decide +kernel)

/-- The library in front of another token. -/
def library_preload : List UInt8 := home.LIB_PATH ++ b_str " /usr/lib/liba.so"

/-- The library beside another token is in the value twice, and a token beside an overlay is in it
no more. -/
theorem blank_divides_no_entry :
    (∃ run, linuwux (fun _ => true) home (some library_preload) [b_str "game"] = .ok run ∧
      (tokens separates run.LD_PRELOAD).count home.LIB_PATH = 2 ∧
      ¬ Keeps (fun _ => true) home (some library_preload) (b_str "game") [] run) ∧
    linuwux (fun _ => true) home (some (b_str "/steam/gameoverlayrenderer.so /usr/lib/liba.so"))
      [b_str "gamescope"] = .ok ⟨home.LIB_PATH, [b_str "gamescope"]⟩ := by
  have htwice : (tokens separates
      (preload_value home.LIB_PATH false library_preload)).count home.LIB_PATH = 2 := by
    decide +kernel
  refine ⟨⟨⟨preload_value home.LIB_PATH false library_preload, [b_str "game"]⟩,
    by decide +kernel, htwice, fun h => ?_⟩, by decide +kernel⟩
  exact absurd (htwice.symm.trans h.once) (by decide)

end Linuwux.Wrapper
