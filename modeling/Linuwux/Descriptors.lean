/-
`Descriptors.lean` -- the file descriptors of a process.

A table says what each number is open for. A new descriptor gets the lowest free number, `dup2`
makes a number of the caller's choice a copy of another, silently closing what was there, and
`close` frees a number. Two descriptors that are opened one after the other get the two lowest
free numbers, and [`second_eq_iff`] says when the second is a given one. What a descriptor can be
open for is a parameter.
-/
import Mathlib.Data.List.Range
import Mathlib.Logic.Function.Basic

set_option autoImplicit false

namespace Linuwux.Descriptors

variable {δ : Type*}

/-- What each descriptor is open for. -/
abbrev Table (δ : Type*) := ℕ → Option δ

/-- The lowest descriptor that is free. -/
def lowest_free (limit : ℕ) (f : Table δ) : Option ℕ :=
  (List.range limit).find? fun fd => (f fd).isNone

/-- A new descriptor. -/
def install (limit : ℕ) (f : Table δ) (d : δ) : Option (ℕ × Table δ) :=
  (lowest_free limit f).map fun fd => (fd, Function.update f fd (some d))

/-- `dup2`, where it is not refused. -/
def dup2 (limit : ℕ) (f : Table δ) (old new : ℕ) : Option (Table δ) :=
  if (f old).isSome ∧ new < limit then some (Function.update f new (f old)) else none

def close (f : Table δ) (fd : ℕ) : Table δ := Function.update f fd none

variable {f : Table δ} {limit fd : ℕ}

theorem lowest_free_eq_some :
    lowest_free limit f = some fd ↔ fd < limit ∧ f fd = none ∧ ∀ j < fd, f j ≠ none := by
  unfold lowest_free
  rw [List.find?_range_eq_some]
  simp only [Option.isNone_iff_eq_none, List.mem_range, Bool.not_eq_true',
    Option.isNone_eq_false_iff, Option.isSome_iff_ne_none]
  exact ⟨fun ⟨hfree, hlt, hbelow⟩ => ⟨hlt, hfree, hbelow⟩,
    fun ⟨hlt, hfree, hbelow⟩ => ⟨hfree, hlt, hbelow⟩⟩

theorem exists_lowest_free (hfd : fd < limit) (hfree : f fd = none) :
    ∃ r, lowest_free limit f = some r := by
  rw [← Option.isSome_iff_exists, lowest_free, List.find?_isSome]
  exact ⟨fd, List.mem_range.mpr hfd, by rw [hfree]; rfl⟩

theorem install_eq_some {d : δ} {f' : Table δ} :
    install limit f d = some (fd, f')
      ↔ lowest_free limit f = some fd ∧ Function.update f fd (some d) = f' := by
  unfold install
  rw [Option.map_eq_some_iff]
  constructor
  · rintro ⟨fd', hlow, heq⟩
    obtain ⟨rfl, rfl⟩ := Prod.mk.inj heq
    exact ⟨hlow, rfl⟩
  · rintro ⟨hlow, rfl⟩
    exact ⟨fd, hlow, rfl⟩

theorem dup2_eq_some {old new : ℕ} {f' : Table δ} (h : dup2 limit f old new = some f') :
    f' = Function.update f new (f old) := by
  unfold dup2 at h
  split at h
  · exact (Option.some.inj h).symm
  · cases h

/-- The second of two new descriptors is `n` if `n` is free and exactly one is free below it. -/
theorem second_eq_iff {d : δ} {r s n : ℕ} (hr : lowest_free limit f = some r)
    (hs : lowest_free limit (Function.update f r (some d)) = some s) :
    s = n ↔ f n = none ∧ ∃! fd, fd < n ∧ f fd = none := by
  obtain ⟨-, hrfree, hrlow⟩ := lowest_free_eq_some.mp hr
  obtain ⟨-, hsfree, hslow⟩ := lowest_free_eq_some.mp hs
  have hother {j : ℕ} (hj : j ≠ r) : Function.update f r (some d) j = f j :=
    Function.update_of_ne hj _ _
  have hsr : s ≠ r := by
    rintro rfl
    rw [Function.update_self] at hsfree
    cases hsfree
  rw [hother hsr] at hsfree
  have hrs : r < s := lt_of_le_of_ne (not_lt.mp fun hlt => hrlow s hlt hsfree) hsr.symm
  constructor
  · rintro rfl
    refine ⟨hsfree, r, ⟨hrs, hrfree⟩, fun j ⟨hj, hjfree⟩ => ?_⟩
    by_contra hne
    exact hslow j hj ((hother hne).trans hjfree)
  · rintro ⟨hn, j, ⟨hj, hjfree⟩, hone⟩
    -- The one below `n` is `r`.
    have hrj : r = j := hone r ⟨lt_of_le_of_lt (not_lt.mp fun hlt => hrlow j hlt hjfree) hj, hrfree⟩
    subst hrj
    refine le_antisymm (not_lt.mp fun hlt => ?_) (not_lt.mp fun hlt => ?_)
    · exact hslow n hlt ((hother hj.ne').trans hn)
    · exact hsr (hone s ⟨hlt, hsfree⟩)

end Linuwux.Descriptors
