/-
`Walks.lean` -- following links for a bounded number of steps.

A loader list, the parents of a process, a chain of buffers: from each place there is at most one
next place, and a loop that looks at one place after the other is given a bound, since nothing says
that the links end. [`path`] is the list of places such a loop comes by. A loop over it is then
`List.find?` or `List.any`, and where the links are known to end ([`Along`]) the path is the
beginning of what they run through.
-/
import Mathlib.Data.List.Basic

set_option autoImplicit false

namespace Linuwux.Walks

variable {α : Type*} (next : α → Option α)

/-- The places from `o` on, `n` of them at most. -/
def path : ℕ → Option α → List α
  | 0, _ => []
  | _ + 1, none => []
  | n + 1, some a => a :: path n (next a)

/-- From `o` the links run through these places and end. -/
def Along : Option α → List α → Prop
  | o, [] => o = none
  | o, a :: l => o = some a ∧ Along (next a) l

@[simp] theorem path_zero (o : Option α) : path next 0 o = [] := by
  cases o <;> rfl

@[simp] theorem path_none (n : ℕ) : path next n none = [] := by
  cases n <;> rfl

@[simp] theorem path_some (n : ℕ) (a : α) :
    path next (n + 1) (some a) = a :: path next n (next a) := rfl

/-- Links that end give the beginning of what they run through. -/
theorem Along.path_eq {o : Option α} {l : List α} (h : Along next o l) (n : ℕ) :
    path next n o = l.take n := by
  induction l generalizing o n with
  | nil =>
    obtain rfl : o = none := h
    rw [path_none, List.take_nil]
  | cons a l ih =>
    obtain ⟨rfl, hrest⟩ := h
    cases n with
    | zero => rw [path_zero, List.take_zero]
    | succ n => rw [path_some, List.take_succ_cons, ih hrest]

end Linuwux.Walks
