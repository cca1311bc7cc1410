/-
`SlidingWindow.lean` -- a window over the last elements of a list that is read one by one.

A text that is no longer than the window is in the window as soon as it has been read.
-/
import Mathlib.Data.List.Infix

set_option autoImplicit false

namespace Linuwux.SlidingWindow

variable {α : Type*}

/-- The last `n` elements, or all there are. -/
def last (n : ℕ) (l : List α) : List α := l.drop (l.length - n)

/-- One more element; a window that is full lets its first one go. -/
def push (n : ℕ) (w : List α) (x : α) : List α := (if w.length = n then w.drop 1 else w) ++ [x]

theorem last_suffix (n : ℕ) (l : List α) : last n l <:+ l := List.drop_suffix _ _

theorem length_last (n : ℕ) (l : List α) : (last n l).length = min n l.length := by
  unfold last
  rw [List.length_drop]
  omega

@[simp] theorem last_nil (n : ℕ) : last n ([] : List α) = [] := List.drop_nil

theorem push_last {n : ℕ} (hn : 0 < n) (l : List α) (x : α) :
    push n (last n l) x = last n (l ++ [x]) := by
  unfold push
  rw [length_last]
  unfold last
  rw [List.length_append, List.length_singleton]
  split
  · next h =>
    rw [List.drop_drop, List.drop_append_of_le_length (by omega)]
    congr 2
    omega
  · next h =>
    rw [Nat.sub_eq_zero_of_le (by omega), Nat.sub_eq_zero_of_le (by omega), List.drop_zero,
      List.drop_zero]

/-- A suffix that fits in the window is a suffix of the window. -/
theorem suffix_last {n : ℕ} {t l : List α} (h : t <:+ l) (hlen : t.length ≤ n) : t <:+ last n l :=
  List.suffix_of_suffix_length_le h (last_suffix n l) (by
    have hle := h.length_le
    rw [length_last]
    omega)

/-- **The window shows a text when its last element has come.** -/
theorem infix_last_iff {n : ℕ} {t l : List α} {x : α} (h : ¬ t <:+: l) (hlen : t.length ≤ n) :
    t <:+: last n (l ++ [x]) ↔ t <:+: l ++ [x] := by
  constructor
  · exact fun hin => hin.trans (last_suffix n _).isInfix
  · intro hin
    obtain hend | hold := List.infix_concat_iff.mp hin
    · exact (suffix_last hend hlen).isInfix
    · exact absurd hold h

end Linuwux.SlidingWindow
