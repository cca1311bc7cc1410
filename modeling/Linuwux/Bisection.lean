/-
`Bisection.lean` -- binary search in a sorted table.

The search sees an entry only through a probe, which compares it with the value that is looked for.
All it needs of the table is that the probe's answers are ordered along it ([`Ordered`]): then it
finds what a scan from the first entry on finds ([`search_eq_find`]).
-/
import Mathlib.Data.Nat.Notation
import Mathlib.Data.List.Basic

set_option autoImplicit false

namespace Linuwux.Bisection

variable {probe : ℕ → Ordering} {low high count k : ℕ}

/-- Binary search from `low` up to, but not including, `high`. -/
def search (probe : ℕ → Ordering) (low high : ℕ) : Option ℕ :=
  if low < high then
    match probe (low + (high - low) / 2) with
    | .lt => search probe (low + (high - low) / 2 + 1) high
    | .gt => search probe low (low + (high - low) / 2)
    | .eq => some (low + (high - low) / 2)
  else none
termination_by high - low

/-- Before an entry that is not too large all are too small, and after one that is not too small all
are too large. -/
structure Ordered (probe : ℕ → Ordering) (count : ℕ) : Prop where
  before : ∀ i j, i < j → j < count → probe j ≠ .gt → probe i = .lt
  after : ∀ i j, i < j → j < count → probe i ≠ .lt → probe j = .gt

/-- A table is ordered for every value if each of its entries is smaller than the next ones. -/
theorem ordered_of_sorted {α : Type*} [Ord α] [Std.TransOrd α] {entry : ℕ → α}
    (h : ∀ i j, i < j → j < count → compare (entry i) (entry j) = .lt) (value : α) :
    Ordered (fun i => compare (entry i) value) count where
  before i j hij hj hle :=
    Std.TransCmp.lt_of_lt_of_isLE (h i j hij hj) (Ordering.isLE_iff_ne_gt.mpr hle)
  after i j hij hj hge :=
    Std.TransCmp.gt_of_gt_of_isGE (Std.OrientedCmp.gt_of_lt (h i j hij hj))
      (Ordering.isGE_iff_ne_lt.mpr hge)

/-- **The search is exact.** It finds the equal entry between `low` and `high`, if there is one.
The entries it leaves out are all too small or all too large. -/
theorem search_eq_some (h : Ordered probe count) (hhigh : high ≤ count) :
    search probe low high = some k ↔ low ≤ k ∧ k < high ∧ probe k = .eq := by
  fun_induction search probe low high with
  | case1 low high hlt hprobe ih =>
    rw [ih hhigh]
    refine ⟨fun hk => ⟨by omega, hk.2⟩, fun ⟨hlow, hk, heq⟩ => ⟨?_, hk, heq⟩⟩
    by_contra hmid
    have hless : probe k = .lt := by
      rcases Nat.lt_or_eq_of_le (show k ≤ low + (high - low) / 2 by omega) with hbefore | rfl
      · exact h.before _ _ hbefore (by omega) (by rw [hprobe]; decide)
      · exact hprobe
    rw [hless] at heq
    cases heq
  | case2 low high hlt hprobe ih =>
    rw [ih (by omega)]
    refine ⟨fun hk => ⟨hk.1, by omega, hk.2.2⟩, fun ⟨hlow, hk, heq⟩ => ⟨hlow, ?_, heq⟩⟩
    by_contra hmid
    have hgreater : probe k = .gt := by
      rcases Nat.lt_or_eq_of_le (show low + (high - low) / 2 ≤ k by omega) with hafter | rfl
      · exact h.after _ _ hafter (by omega) (by rw [hprobe]; decide)
      · exact hprobe
    rw [hgreater] at heq
    cases heq
  | case3 low high hlt hprobe =>
    rw [Option.some_inj]
    refine ⟨fun hk => ⟨by omega, by omega, hk ▸ hprobe⟩, fun ⟨hlow, hk, heq⟩ => ?_⟩
    rcases Nat.lt_trichotomy (low + (high - low) / 2) k with hafter | hmid | hbefore
    · rw [h.after _ _ hafter (by omega) (by rw [hprobe]; decide)] at heq
      cases heq
    · exact hmid
    · rw [h.before _ _ hbefore (by omega) (by rw [hprobe]; decide)] at heq
      cases heq
  | case4 low high hge =>
    simp only [reduceCtorEq, false_iff]
    omega

/-- An ordered table has at most one equal entry, so the scan finds the same one. -/
theorem search_eq_find (h : Ordered probe count) :
    search probe 0 count = (List.range count).find? fun i => probe i = .eq := by
  ext k
  rw [search_eq_some h (Nat.le_refl count), List.find?_range_eq_some]
  simp only [decide_eq_true_eq, List.mem_range, Nat.zero_le, true_and]
  constructor
  · rintro ⟨hk, heq⟩
    refine ⟨heq, hk, fun j hj => ?_⟩
    rw [h.before j k hj hk (by rw [heq]; decide)]
    rfl
  · rintro ⟨heq, hk, -⟩
    exact ⟨hk, heq⟩

end Linuwux.Bisection
