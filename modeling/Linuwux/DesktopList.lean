/-
`DesktopList.lean` -- `desktop_list_has_gamescope` of `protocol/gamescope.rs`.

The desktop variables are lists of names; a session is Gamescope's when one of the names is. The
source walks a list with two cursors and three loops, so the model can fail: `none` is an index out
of bounds, or a loop that has not ended after `fuel` turns.
-/
import Linuwux.LibC
import Linuwux.Tokens
import Mathlib.Data.List.TakeWhile

set_option autoImplicit false

namespace Linuwux.DesktopList

open LibC (b_str is_ascii_whitespace)
open Scans (slice slice?)
open Tokens (MaximalRun Solid tokens)

/-- What divides the names of a list. -/
def separates (byte : UInt8) : Bool := byte = 0x3a || is_ascii_whitespace byte

def GAMESCOPE : List UInt8 := b_str "gamescope"

/-- A loop that moves a cursor over the bytes it is to pass, `fuel` turns of it. -/
def advance (passes : UInt8 → Bool) (list : List UInt8) : ℕ → ℕ → Option ℕ
  | 0, _ => none
  | fuel + 1, cursor =>
    if cursor < list.length then
      match list[cursor]? with
      | none => none
      | some byte => if passes byte then advance passes list fuel (cursor + 1) else some cursor
    else some cursor

/-- The outer loop, `turns` turns of it. -/
def find_name (fuel : ℕ) (list : List UInt8) : ℕ → ℕ → Option Bool
  | 0, _ => none
  | turns + 1, start =>
    if start < list.length then do
      let start ← advance separates list fuel start
      let stop ← advance (fun byte => !separates byte) list fuel start
      let name ← slice? list start stop
      if name = GAMESCOPE then some true else find_name fuel list turns stop
    else some false

def desktop_list_has_gamescope (fuel : ℕ) (list : List UInt8) : Option Bool :=
  find_name fuel list fuel 0

def is_gamescope_session (fuel : ℕ) (current_desktop session_desktop : List UInt8) :
    Option Bool := do
  -- `||` looks at the second list only when the first has no such name.
  if ← desktop_list_has_gamescope fuel current_desktop then some true
  else desktop_list_has_gamescope fuel session_desktop

/-! ## The loops -/

/-- A cursor passes what is in front of the first byte it is not to pass. -/
theorem advance_eq (passes : UInt8 → Bool) {passed rest : List UInt8}
    (hpassed : ∀ byte ∈ passed, passes byte = true)
    (hrest : ∀ byte ∈ rest.head?, passes byte = false) :
    ∀ (front : List UInt8) (fuel : ℕ), passed.length < fuel →
      advance passes (front ++ passed ++ rest) fuel front.length
        = some (front ++ passed).length := by
  induction passed with
  | nil =>
    intro front fuel hfuel
    obtain ⟨k, rfl⟩ : ∃ k, fuel = k + 1 := ⟨fuel - 1, by omega⟩
    rw [List.append_nil, advance]
    cases rest with
    | nil => simp
    | cons byte rest =>
      have hbyte : passes byte = false := hrest byte rfl
      simp [hbyte]
  | cons byte passed ih =>
    intro front fuel hfuel
    obtain ⟨k, rfl⟩ : ∃ k, fuel = k + 1 := ⟨fuel - 1, by omega⟩
    have hk : passed.length < k := by simpa using hfuel
    obtain ⟨hbyte, hpassed⟩ := List.forall_mem_cons.mp hpassed
    -- The byte passed joins what is in front of the cursor.
    have hmove := ih hpassed (front ++ [byte]) k hk
    rw [List.length_append, List.length_singleton] at hmove
    rw [advance, if_pos (by simp)]
    simpa [hbyte] using hmove

theorem slice?_middle (front middle rest : List UInt8) :
    slice? (front ++ middle ++ rest) front.length (front ++ middle).length = some middle := by
  unfold slice?
  rw [if_pos (by simp)]
  rw [slice, List.take_left, List.drop_left]

/-- The text from a cursor on: separators, a name, and what the next turn starts from. -/
theorem name_split (rest : List UInt8) : ∃ blank name rest', rest = blank ++ name ++ rest' ∧
    (∀ byte ∈ blank, separates byte = true) ∧ Solid separates name ∧
    (∀ byte ∈ (name ++ rest').head?, separates byte = false) ∧
    ∀ byte ∈ rest'.head?, separates byte = true := by
  have hhead : ∀ (p : UInt8 → Bool) (l : List UInt8), ∀ byte ∈ (l.dropWhile p).head?,
      p byte = false := by
    intro p l byte hbyte
    have hne : l.dropWhile p ≠ [] := by
      intro h
      rw [h] at hbyte
      cases hbyte
    have hfirst := List.head_dropWhile_not p hne
    rw [List.head?_eq_some_head hne, Option.mem_some_iff] at hbyte
    rwa [hbyte] at hfirst
  refine ⟨rest.takeWhile separates, (rest.dropWhile separates).takeWhile fun byte =>
    !separates byte, (rest.dropWhile separates).dropWhile fun byte => !separates byte, ?_, ?_, ?_,
    ?_, ?_⟩
  · rw [List.append_assoc, List.takeWhile_append_dropWhile, List.takeWhile_append_dropWhile]
  · exact fun byte hbyte => List.mem_takeWhile_imp hbyte
  · exact fun byte hbyte => by simpa using List.mem_takeWhile_imp hbyte
  · rw [List.takeWhile_append_dropWhile]
    exact hhead separates rest
  · intro byte hbyte
    simpa using hhead (fun byte => !separates byte) _ byte hbyte

theorem tokens_blank {blank : List UInt8} (h : ∀ byte ∈ blank, separates byte = true)
    (rest : List UInt8) : tokens separates (blank ++ rest) = tokens separates rest := by
  induction blank with
  | nil => rfl
  | cons byte blank ih =>
    obtain ⟨hbyte, h⟩ := List.forall_mem_cons.mp h
    rw [List.cons_append, Tokens.tokens_cons hbyte, ih h]

/-- **A turn and the turns after it** look at the names from the cursor on. -/
theorem find_name_eq {fuel turns : ℕ} : ∀ (front rest : List UInt8),
    (front ++ rest).length < fuel → rest.length < turns →
    find_name fuel (front ++ rest) turns front.length
      = some (decide (GAMESCOPE ∈ tokens separates rest)) := by
  induction turns with
  | zero => exact fun _ _ _ h => absurd h (Nat.not_lt_zero _)
  | succ turns ih =>
    intro front rest hfuel hturns
    by_cases hrest : rest = []
    · subst hrest
      simp [find_name]
    obtain ⟨blank, name, rest', rfl, hblank, hname, hstart, hstop⟩ := name_split rest
    simp only [List.length_append] at hfuel hturns
    have hlt : front.length < (front ++ (blank ++ name ++ rest')).length := by
      have hpos := List.length_pos_iff.mpr hrest
      simp only [List.length_append] at hpos ⊢
      omega
    have hskip : advance separates (front ++ (blank ++ name ++ rest')) fuel front.length
        = some (front ++ blank).length := by
      have h := advance_eq separates hblank hstart front fuel (by omega)
      simpa using h
    have hend : advance (fun byte => !separates byte) (front ++ (blank ++ name ++ rest')) fuel
        (front ++ blank).length = some (front ++ blank ++ name).length := by
      have hpassed : ∀ byte ∈ name, (fun byte => !separates byte) byte = true :=
        fun byte hbyte => by simpa using hname byte hbyte
      have hat : ∀ byte ∈ rest'.head?, (fun byte => !separates byte) byte = false :=
        fun byte hbyte => by simpa using hstop byte hbyte
      have h := advance_eq (fun byte => !separates byte) hpassed hat (front ++ blank) fuel
        (by omega)
      simpa using h
    have hslice : slice? (front ++ (blank ++ name ++ rest')) (front ++ blank).length
        (front ++ blank ++ name).length = some name := by
      simpa using slice?_middle (front ++ blank) name rest'
    have htokens : tokens separates (blank ++ name ++ rest')
        = (if name = [] then [] else [name]) ++ tokens separates rest' := by
      rw [List.append_assoc, tokens_blank hblank, Tokens.tokens_append_of_head hname hstop]
    rw [find_name, if_pos hlt]
    simp only [hskip, hend, hslice, Option.bind_eq_bind, Option.bind_some]
    split
    · next heq =>
      have hne : name ≠ [] := by
        rw [heq]
        decide +kernel
      rw [htokens, if_neg hne]
      simp [heq]
    · next hne =>
      have hmem : GAMESCOPE ∈ (if name = [] then [] else [name]) ++ tokens separates rest' ↔
          GAMESCOPE ∈ tokens separates rest' := by
        have hother : GAMESCOPE ∉ if name = [] then [] else [name] := by
          split
          · exact List.not_mem_nil
          · exact fun h => hne (List.mem_singleton.mp h).symm
        rw [List.mem_append, or_iff_right hother]
      -- The turn has passed a byte: what was left did not start with both runs empty.
      have hpos : 0 < (blank ++ name).length := by
        rw [List.length_pos_iff]
        intro h0
        obtain ⟨rfl, rfl⟩ := List.append_eq_nil_iff.mp h0
        cases rest' with
        | nil => exact hrest rfl
        | cons byte rest' =>
          have h1 : separates byte = true := hstop byte rfl
          rw [hstart byte rfl] at h1
          cases h1
      rw [List.length_append] at hpos
      have hnext := ih (front ++ blank ++ name) rest'
        (by simp only [List.length_append]; omega) (by omega)
      rw [htokens, decide_eq_decide.mpr hmem, ← hnext]
      simp

theorem desktop_list_has_gamescope_eq {fuel : ℕ} {list : List UInt8} (h : list.length < fuel) :
    desktop_list_has_gamescope fuel list
      = some (decide (GAMESCOPE ∈ tokens separates list)) :=
  find_name_eq [] list h h

/-- **The walk finds the name**: it ends without an index out of bounds, and answers whether one of
the maximal runs of bytes that are neither `:` nor whitespace is `gamescope`. -/
theorem has_gamescope_iff_maximal_run (list : List UInt8) (extra : ℕ) :
    ∃ answer, desktop_list_has_gamescope (list.length + 1 + extra) list = some answer ∧
      (answer = true ↔ MaximalRun separates list GAMESCOPE) := by
  refine ⟨_, desktop_list_has_gamescope_eq (by omega), ?_⟩
  rw [decide_eq_true_iff, Tokens.mem_tokens_iff]

/-- A session is Gamescope's when either variable names it. -/
theorem is_gamescope_session_eq {fuel : ℕ} {current_desktop session_desktop : List UInt8}
    (hcurrent : current_desktop.length < fuel) (hsession : session_desktop.length < fuel) :
    is_gamescope_session fuel current_desktop session_desktop
      = some (decide (GAMESCOPE ∈ tokens separates current_desktop ∨
          GAMESCOPE ∈ tokens separates session_desktop)) := by
  unfold is_gamescope_session
  rw [desktop_list_has_gamescope_eq hcurrent, desktop_list_has_gamescope_eq hsession]
  by_cases h : GAMESCOPE ∈ tokens separates current_desktop <;> simp [h]

end Linuwux.DesktopList
