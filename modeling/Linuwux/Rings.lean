/-
`Rings.lean` -- a ring of the last `N` things.

A ring of `N` slots is written at one index that goes round, so it shows the last `N` things
that were written, less those that were cleared since. This file says that once, for any `N`
and any things: the log has the newest first, a cleared thing stays in it as `none`, and slot
`back next k` is entry `k` of the log. Clearing a slot leaves a hole that the index still
walks over, which is why the log keeps it.
-/
import Mathlib.Data.Fintype.Card
import Mathlib.Data.Fintype.EquivFin
import Mathlib.Data.Nat.ModEq
import Mathlib.Logic.Function.Basic

set_option autoImplicit false

namespace Linuwux.Rings

variable {α : Type*} {N : ℕ}

/-- The slot after `i`. -/
def succ (i : Fin N) : Fin N := ⟨(i + 1) % N, Nat.mod_lt _ i.pos⟩

/-- The slot that was written `k + 1` writes ago, `next` being the one to write. -/
def back (next : Fin N) (k : ℕ) : Fin N := ⟨(next + (N - 1 - k)) % N, Nat.mod_lt _ next.pos⟩

theorem back_injective {next : Fin N} {k k' : ℕ} (hk : k < N) (hk' : k' < N)
    (h : back next k = back next k') : k = k' := by
  have hmod : next + (N - 1 - k) ≡ next + (N - 1 - k') [MOD N] := congrArg Fin.val h
  have hcancel : (N - 1 - k) % N = (N - 1 - k') % N := Nat.ModEq.add_left_cancel' _ hmod
  rw [Nat.mod_eq_of_lt (by omega), Nat.mod_eq_of_lt (by omega)] at hcancel
  omega

/-- Every slot was written at most `N` writes ago. -/
theorem exists_back (next i : Fin N) : ∃ k < N, back next k = i := by
  have hinj : Function.Injective fun k : Fin N => back next k := fun k k' h =>
    Fin.ext (back_injective k.isLt k'.isLt h)
  obtain ⟨k, hk⟩ := (Finite.injective_iff_surjective.mp hinj) i
  exact ⟨k, k.isLt, hk⟩

theorem back_succ_zero (next : Fin N) : back (succ next) 0 = next := by
  have hpos : 0 < N := next.pos
  refine Fin.ext ?_
  show ((next + 1) % N + (N - 1 - 0)) % N = next
  rw [Nat.mod_add_mod, show (next : ℕ) + 1 + (N - 1 - 0) = next + N by omega, Nat.add_mod_right,
    Nat.mod_eq_of_lt next.isLt]

theorem back_succ_succ (next : Fin N) {k : ℕ} (hk : k + 1 < N) :
    back (succ next) (k + 1) = back next k := by
  refine Fin.ext ?_
  show ((next + 1) % N + (N - 1 - (k + 1))) % N = (next + (N - 1 - k)) % N
  rw [Nat.mod_add_mod, show (next : ℕ) + 1 + (N - 1 - (k + 1)) = next + (N - 1 - k) by omega]

/-- **The ring shows the log.** -/
def Shows (entries : Fin N → Option α) (next : Fin N) (log : List (Option α)) : Prop :=
  ∀ k < N, entries (back next k) = log[k]?.join

variable {entries : Fin N → Option α} {next : Fin N} {log : List (Option α)}

theorem shows_nil (next : Fin N) : Shows (fun _ => (none : Option α)) next [] := fun _ _ => rfl

/-- What is in the ring is what is near the start of the log. -/
theorem Shows.held_iff (h : Shows entries next log) {a : α} :
    (∃ i, entries i = some a) ↔ ∃ k < N, log[k]? = some (some a) := by
  constructor
  · rintro ⟨i, hi⟩
    obtain ⟨k, hk, rfl⟩ := exists_back next i
    rw [h k hk] at hi
    exact ⟨k, hk, Option.join_eq_some_iff.mp hi⟩
  · rintro ⟨k, hk, hlog⟩
    refine ⟨back next k, ?_⟩
    rw [h k hk, hlog]
    rfl

/-- A write pushes. -/
theorem Shows.write (h : Shows entries next log) (a : α) :
    Shows (Function.update entries next (some a)) (succ next) (some a :: log) := by
  intro k hk
  cases k with
  | zero =>
    rw [back_succ_zero, Function.update_self]
    rfl
  | succ k =>
    have hne : back (succ next) (k + 1) ≠ next := by
      intro heq
      have hzero := back_injective hk (by omega) (heq.trans (back_succ_zero next).symm)
      omega
    rw [Function.update_of_ne hne, back_succ_succ next hk, h k (by omega)]
    rfl

/-- A thing comes again in the log only after more than `N` others. -/
def Spaced (N : ℕ) (log : List (Option α)) : Prop :=
  ∀ (a : α) (i j : ℕ), i < j → log[i]? = some (some a) → log[j]? = some (some a) → i + N < j

theorem spaced_nil : Spaced N ([] : List (Option α)) := by
  intro a i j _ hi
  simp at hi

/-- Only what is not in the ring is written. -/
theorem Spaced.write (h : Spaced N log) {a : α} (ha : ∀ k < N, log[k]? ≠ some (some a)) :
    Spaced N (some a :: log) := by
  intro b i j hij hi hj
  obtain ⟨j, rfl⟩ : ∃ j', j = j' + 1 := ⟨j - 1, by omega⟩
  rw [List.getElem?_cons_succ] at hj
  cases i with
  | zero =>
    rw [List.getElem?_cons_zero, Option.some.injEq, Option.some.injEq] at hi
    subst hi
    have hge : N ≤ j := Nat.le_of_not_lt fun hlt => ha j hlt hj
    omega
  | succ i =>
    rw [List.getElem?_cons_succ] at hi
    have hlt := h b i j (by omega) hi hj
    omega

variable [DecidableEq α]

/-- The log once `a` has been cleared. -/
def cleared (a : α) (log : List (Option α)) : List (Option α) :=
  log.map fun o => if o = some a then none else o

theorem cleared_getElem? (a b : α) (log : List (Option α)) (k : ℕ) :
    (cleared a log)[k]? = some (some b) ↔ b ≠ a ∧ log[k]? = some (some b) := by
  unfold cleared
  rw [List.getElem?_map]
  cases hk : log[k]? with
  | none => simp
  | some o =>
    by_cases ho : o = some a
    · subst ho
      simp [Ne, eq_comm]
    · simp only [Option.map_some, ho, if_false, Option.some.injEq]
      constructor
      · rintro rfl
        exact ⟨fun heq => ho (by rw [heq]), rfl⟩
      · exact fun h' => h'.2

theorem Spaced.clear (h : Spaced N log) (a : α) : Spaced N (cleared a log) := by
  intro b i j hij hi hj
  exact h b i j hij ((cleared_getElem? a b log i).mp hi).2 ((cleared_getElem? a b log j).mp hj).2

theorem cleared_join_of_ne {a : α} {log : List (Option α)} {k : ℕ} (h : log[k]?.join ≠ some a) :
    (cleared a log)[k]?.join = log[k]?.join := by
  unfold cleared
  rw [List.getElem?_map]
  cases hl : log[k]? with
  | none => rfl
  | some o =>
    rw [hl, Option.join_some] at h
    rw [Option.map_some, Option.join_some, Option.join_some, if_neg h]

/-- Clearing the one slot that holds `a`. -/
theorem Shows.clear (h : Shows entries next log) {a : α} {i : Fin N}
    (hi : ∀ j, entries j = some a ↔ j = i) :
    Shows (Function.update entries i none) next (cleared a log) := by
  intro k hk
  have hk' := h k hk
  by_cases hb : back next k = i
  · rw [(hi _).mpr hb] at hk'
    rw [hb, Function.update_self, cleared, List.getElem?_map, Option.join_eq_some_iff.mp hk'.symm]
    simp
  · rw [Function.update_of_ne hb, hk']
    exact (cleared_join_of_ne fun heq => hb ((hi _).mp (hk'.trans heq))).symm

/-- Nothing to clear. -/
theorem Shows.clear_of_forall_ne (h : Shows entries next log) {a : α}
    (ha : ∀ j, entries j ≠ some a) : Shows entries next (cleared a log) := by
  intro k hk
  have hk' := h k hk
  rw [hk']
  exact (cleared_join_of_ne fun heq => ha _ (hk'.trans heq)).symm

end Linuwux.Rings
