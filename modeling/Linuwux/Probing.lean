/-
`Probing.lean` -- open addressing: a table whose keys are found by probing.

A key has a sequence of slots. To store it, one takes the first of them that is empty or
already has the key, and to look it up, one stops at the same slot ([`settle`]). Nothing is
removed. Lookup is then right because of one invariant: every stored key is in the slot where
its own sequence settles ([`Settled`]). It says at once that there is no gap before a stored
key and that no key is stored twice, and filling an empty slot keeps it.
-/
import Mathlib.Data.Fintype.Card
import Mathlib.Data.Finset.Image
import Mathlib.Logic.Function.Basic

set_option autoImplicit false

namespace Linuwux.Probing

variable {I K : Type*} [DecidableEq I] [DecidableEq K]

/-- The first slot of a sequence that is empty or has the key. -/
def settle (slots : I → K) (empty key : K) (probes : List I) : Option I :=
  probes.find? fun i => slots i = empty ∨ slots i = key

/-- Every stored key is where its sequence settles. -/
def Settled (probe : K → List I) (empty : K) (slots : I → K) : Prop :=
  ∀ i, slots i ≠ empty → settle slots empty (slots i) (probe (slots i)) = some i

variable {probe : K → List I} {empty key : K} {slots : I → K} {i : I}

omit [DecidableEq I] in
theorem settle_cons (probes : List I) :
    settle slots empty key (i :: probes)
      = if slots i = empty ∨ slots i = key then some i else settle slots empty key probes := by
  unfold settle
  by_cases h : slots i = empty ∨ slots i = key
  · rw [if_pos h]
    exact List.find?_cons_of_pos (by simpa using h)
  · rw [if_neg h]
    exact List.find?_cons_of_neg (by simpa using h)

omit [DecidableEq I] in
theorem settle_eq_some {probes : List I} :
    settle slots empty key probes = some i
      ↔ (slots i = empty ∨ slots i = key)
        ∧ ∃ before after, probes = before ++ i :: after
          ∧ ∀ j ∈ before, slots j ≠ empty ∧ slots j ≠ key := by
  unfold settle
  rw [List.find?_eq_some_iff_append]
  simp only [decide_eq_true_eq, Bool.not_eq_eq_eq_not, Bool.not_true, decide_eq_false_iff_not,
    not_or]

omit [DecidableEq I] in
/-- A sequence with an empty slot settles. -/
theorem settle_isSome {probes : List I} (hi : i ∈ probes) (h : slots i = empty) :
    ∃ j, settle slots empty key probes = some j := by
  rw [← Option.isSome_iff_exists, settle, List.find?_isSome]
  exact ⟨i, hi, by simp [h]⟩

omit [DecidableEq I] in
theorem settled_const (probe : K → List I) (empty : K) : Settled probe empty fun _ : I => empty :=
  fun _ h => absurd rfl h

omit [DecidableEq I] in
/-- A key is stored in one slot at most. -/
theorem Settled.unique (h : Settled probe empty slots) {j : I} (hi : slots i = key)
    (hj : slots j = key) (hkey : key ≠ empty) : i = j := by
  have hsi := h i (by rwa [hi])
  have hsj := h j (by rwa [hj])
  rw [hi] at hsi
  rw [hj] at hsj
  exact Option.some.inj (hsi.symm.trans hsj)

omit [DecidableEq I] in
/-- **Lookup.** The slot where a key settles has it exactly if it is stored. -/
theorem Settled.lookup (h : Settled probe empty slots) (hkey : key ≠ empty)
    (hi : settle slots empty key (probe key) = some i) : slots i = key ↔ ∃ j, slots j = key := by
  constructor
  · intro hik
    exact ⟨i, hik⟩
  · rintro ⟨j, hj⟩
    have hsj := h j (by rwa [hj])
    rw [hj, hi] at hsj
    rwa [Option.some.inj hsj]

/-- Filling an empty slot of the table moves no other key: the sequences of stored keys stop
before it. -/
theorem settle_update_of_ne {probes : List I} {other : K} {j : I} (hempty : slots i = empty)
    (hother : other ≠ empty) (hj : slots j = other)
    (hs : settle slots empty other probes = some j) :
    settle (Function.update slots i key) empty other probes = some j := by
  obtain ⟨-, before, after, hsplit, hbefore⟩ := settle_eq_some.mp hs
  have hne : ∀ l, slots l ≠ empty → Function.update slots i key l = slots l := by
    intro l hl
    refine Function.update_of_ne ?_ _ _
    rintro rfl
    exact hl hempty
  refine settle_eq_some.mpr ⟨Or.inr ?_, before, after, hsplit, fun l hl => ?_⟩
  · rw [hne j (by rwa [hj]), hj]
  · rw [hne l (hbefore l hl).1]
    exact hbefore l hl

/-- **Storing.** A key may be written into the empty slot where it settles. -/
theorem Settled.store (h : Settled probe empty slots)
    (hi : settle slots empty key (probe key) = some i) (hempty : slots i = empty) :
    Settled probe empty (Function.update slots i key) := by
  intro j hj
  by_cases hji : j = i
  · subst hji
    rw [Function.update_self]
    obtain ⟨-, before, after, hsplit, hbefore⟩ := settle_eq_some.mp hi
    refine settle_eq_some.mpr ⟨Or.inr (Function.update_self ..), before, after, hsplit, ?_⟩
    intro l hl
    have hl' := hbefore l hl
    have hne : l ≠ j := by
      rintro rfl
      exact hl'.1 hempty
    rwa [Function.update_of_ne hne]
  · rw [Function.update_of_ne hji] at hj ⊢
    exact settle_update_of_ne hempty hj rfl (h j hj)

/-! ## The stored keys -/

variable [Fintype I]

/-- The keys in the table. -/
def stored (empty : K) (slots : I → K) : Finset K := (Finset.univ.image slots).erase empty

omit [DecidableEq I] in
theorem mem_stored : key ∈ stored empty slots ↔ key ≠ empty ∧ ∃ i, slots i = key := by
  unfold stored
  simp only [Finset.mem_erase, Finset.mem_image, Finset.mem_univ, true_and]

theorem stored_update (hkey : key ≠ empty) (hempty : slots i = empty) :
    stored empty (Function.update slots i key) = insert key (stored empty slots) := by
  ext k
  rw [mem_stored, Finset.mem_insert, mem_stored]
  constructor
  · rintro ⟨hk, j, rfl⟩
    by_cases hji : j = i
    · subst hji
      exact Or.inl (Function.update_self ..)
    · rw [Function.update_of_ne hji] at hk ⊢
      exact Or.inr ⟨hk, j, rfl⟩
  · rintro (rfl | ⟨hk, j, rfl⟩)
    · exact ⟨hkey, i, Function.update_self ..⟩
    · refine ⟨hk, j, Function.update_of_ne ?_ _ _⟩
      rintro rfl
      exact hk hempty

omit [DecidableEq I] in
/-- A table with fewer keys than slots has an empty slot. -/
theorem exists_empty (h : Settled probe empty slots)
    (hlt : (stored empty slots).card < Fintype.card I) : ∃ i, slots i = empty := by
  by_contra hfull
  have hfull : ∀ i, slots i ≠ empty := not_exists.mp hfull
  have hinj : Function.Injective slots := fun i j he => h.unique he rfl (hfull j)
  have hcard : Fintype.card I ≤ (stored empty slots).card := by
    rw [← Finset.card_univ]
    exact Finset.card_le_card_of_injOn slots
      (fun i _ => mem_stored.mpr ⟨hfull i, i, rfl⟩) hinj.injOn
  omega

end Linuwux.Probing
