/-
`Scans.lean` -- slices of a sequence, and the matches a left-to-right scan selects.

A scan that looks for a pattern of a fixed width goes on behind each match, so which matches
it reports depends on where it began. The selection has a description without a scan: a
match is selected when no earlier selected one overlaps it ([`Selected`]). The lemmas here
say how the selection unfolds when the scan moves, and when two sequences select alike.
-/
import Mathlib.Data.Set.Card
import Mathlib.Data.List.Range

set_option autoImplicit false

namespace Linuwux.Scans

variable {α : Type*}

/-! ## Slices -/

/-- `xs[i..j]`; what lies behind the end is cut off. -/
def slice (xs : List α) (i j : ℕ) : List α := (xs.take j).drop i

/-- `xs[i..j]`, or none where the range is not inside `xs`. -/
def slice? (xs : List α) (i j : ℕ) : Option (List α) :=
  if i ≤ j ∧ j ≤ xs.length then some (slice xs i j) else none

/-- The elements from `i` on replaced by `ys`, as `copy_from_slice` does it. -/
def overwrite (xs : List α) (i : ℕ) (ys : List α) : List α :=
  xs.take i ++ ys ++ xs.drop (i + ys.length)

theorem getElem?_slice (xs : List α) (i j k : ℕ) :
    (slice xs i j)[k]? = if i + k < j then xs[i + k]? else none := by
  unfold slice
  rw [List.getElem?_drop, List.getElem?_take]

theorem length_slice {xs : List α} {i j : ℕ} (h : j ≤ xs.length) :
    (slice xs i j).length = j - i := by
  unfold slice
  rw [List.length_drop, List.length_take, Nat.min_eq_left h]

/-- A slice of the rest is a slice of the whole. -/
theorem slice_drop (xs : List α) (k i j : ℕ) :
    slice (xs.drop k) i j = slice xs (k + i) (k + j) := by
  apply List.ext_getElem?
  intro n
  rw [getElem?_slice, getElem?_slice, List.getElem?_drop]
  by_cases h : i + n < j
  · rw [if_pos h, if_pos (by omega), Nat.add_assoc]
  · rw [if_neg h, if_neg (by omega)]

/-- Two sequences with the same elements in a range have the same slice there. -/
theorem slice_congr {xs ys : List α} {i j : ℕ} (h : ∀ k, i ≤ k → k < j → xs[k]? = ys[k]?) :
    slice xs i j = slice ys i j := by
  apply List.ext_getElem?
  intro n
  rw [getElem?_slice, getElem?_slice]
  by_cases hn : i + n < j
  · rw [if_pos hn, if_pos hn, h _ (by omega) hn]
  · rw [if_neg hn, if_neg hn]

/-- Two slices in a row. -/
theorem slice_append {xs : List α} {i j k : ℕ} (hij : i ≤ j) (hjk : j ≤ k)
    (hj : j ≤ xs.length) : slice xs i j ++ slice xs j k = slice xs i k := by
  have hlen : i ≤ (xs.take j).length := by
    rw [List.length_take]
    omega
  have htake : xs.take k = xs.take j ++ (xs.take k).drop j := by
    have hsplit := (List.take_append_drop j (xs.take k)).symm
    rwa [List.take_take, Nat.min_eq_left hjk] at hsplit
  unfold slice
  conv_rhs => rw [htake]
  rw [List.drop_append_of_le_length hlen]

/-- The elements of a range are those of its slice. -/
theorem getElem?_of_slice_eq {xs ys : List α} {i j : ℕ} (h : slice xs i j = slice ys i j) {k : ℕ}
    (hi : i ≤ k) (hj : k < j) : xs[k]? = ys[k]? := by
  have hk : (slice xs i j)[k - i]? = (slice ys i j)[k - i]? := by rw [h]
  rw [getElem?_slice, getElem?_slice, if_pos (by omega), if_pos (by omega)] at hk
  rwa [Nat.add_sub_cancel' hi] at hk

/-- The number with these digits, the lowest first. -/
def from_le_bytes (bytes : List UInt8) : ℕ := bytes.foldr (fun b n => b.toNat + 0x100 * n) 0

/-- The number that has been written out. -/
theorem from_le_bytes_digits (value n : ℕ) :
    from_le_bytes ((List.range n).map fun i => .ofNat (value / 0x100 ^ i))
      = value % 0x100 ^ n := by
  induction n generalizing value with
  | zero => rw [Nat.pow_zero, Nat.mod_one]; rfl
  | succ n ih =>
    have hrest : (List.range n).map (fun i => UInt8.ofNat (value / 0x100 ^ (i + 1)))
        = (List.range n).map fun i => .ofNat (value / 0x100 / 0x100 ^ i) :=
      List.map_congr_left fun i _ => by rw [Nat.div_div_eq_div_mul, Nat.pow_succ']
    have hcons : from_le_bytes ((List.range (n + 1)).map fun i => .ofNat (value / 0x100 ^ i))
        = value % 0x100 + 0x100 * from_le_bytes
          ((List.range n).map fun i => .ofNat (value / 0x100 ^ (i + 1))) := by
      rw [List.range_succ_eq_map, List.map_cons, List.map_map, Nat.pow_zero, Nat.div_one]
      exact congrArg (· + _) UInt8.toNat_ofNat'
    rw [hcons, hrest, ih, Nat.pow_succ', Nat.mod_mul]

/-- Numbers in a row, each mapped or the whole not. -/
theorem mapM_range_eq_some {f : ℕ → Option α} {start len : ℕ} {xs : List α} :
    (List.range' start len).mapM f = some xs
      ↔ xs.length = len ∧ ∀ i, i < len → xs[i]? = f (start + i) := by
  induction len generalizing start xs with
  | zero =>
    simp only [List.range'_zero, List.mapM_nil, Nat.not_lt_zero, false_implies, implies_true,
      and_true]
    constructor
    · rintro ⟨⟩
      rfl
    · intro h
      rw [List.length_eq_zero_iff.mp h]
      rfl
  | succ len ih =>
    rw [List.range'_succ, List.mapM_cons]
    constructor
    · intro h
      obtain ⟨b, hb, h⟩ := Option.bind_eq_some_iff.mp h
      obtain ⟨rest, hrest, h⟩ := Option.bind_eq_some_iff.mp h
      cases h
      obtain ⟨hlen, hat⟩ := ih.mp hrest
      refine ⟨by rw [List.length_cons, hlen], fun i hi => ?_⟩
      cases i with
      | zero => exact hb.symm
      | succ i =>
        rw [List.getElem?_cons_succ, hat i (by omega), Nat.add_assoc, Nat.add_comm 1]
    · rintro ⟨hlen, hat⟩
      cases xs with
      | nil => cases hlen
      | cons b rest =>
        have hb : f start = some b := (hat 0 (by omega)).symm
        have hrest : (List.range' (start + 1) len).mapM f = some rest := by
          refine ih.mpr ⟨Nat.succ.inj hlen, fun i hi => ?_⟩
          have hi' := hat (i + 1) (by omega)
          rwa [List.getElem?_cons_succ, Nat.add_comm i, ← Nat.add_assoc] at hi'
        rw [hb, Option.bind_eq_bind, Option.bind_some, hrest]
        rfl

section Overwrite

variable {xs ys : List α} {i : ℕ} (h : i + ys.length ≤ xs.length)
include h

theorem length_overwrite : (overwrite xs i ys).length = xs.length := by
  unfold overwrite
  rw [List.length_append, List.length_append, List.length_take, List.length_drop]
  omega

theorem getElem?_overwrite_of_lt {k : ℕ} (hk : k < i) : (overwrite xs i ys)[k]? = xs[k]? := by
  unfold overwrite
  rw [List.append_assoc, List.getElem?_append_left (by rw [List.length_take]; omega),
    List.getElem?_take, if_pos hk]

theorem getElem?_overwrite_of_le {k : ℕ} (hk : i + ys.length ≤ k) :
    (overwrite xs i ys)[k]? = xs[k]? := by
  unfold overwrite
  have hlen : (xs.take i ++ ys).length = i + ys.length := by
    rw [List.length_append, List.length_take]
    omega
  rw [List.getElem?_append_right (by rw [hlen]; exact hk), hlen, List.getElem?_drop,
    Nat.add_sub_cancel' hk]

/-- What was written is there. -/
theorem slice_overwrite : slice (overwrite xs i ys) i (i + ys.length) = ys := by
  unfold slice overwrite
  have htake : (xs.take i).length = i := by
    rw [List.length_take]
    omega
  have hlen : (xs.take i ++ ys).length = i + ys.length := by rw [List.length_append, htake]
  rw [List.take_append_of_le_length (by rw [hlen]), List.take_of_length_le (by rw [hlen]),
    List.drop_append_of_le_length (by rw [htake]), List.drop_of_length_le (by rw [htake]),
    List.nil_append]

end Overwrite

/-! ## A search from the end -/

/-- `(start..stop).rev().find(check)`, for a check that can fail. -/
def rfind? (check : ℕ → Option Bool) (start : ℕ) : ℕ → Option (Option ℕ)
  | 0 => some none
  | n + 1 =>
    if n < start then some none
    else (check n).bind fun found => if found then some (some n) else rfind? check start n

/-- A check that fails nowhere in the range finds the greatest number that passes it. -/
theorem rfind?_spec {check : ℕ → Option Bool} {P : ℕ → Prop} {start stop : ℕ}
    (h : ∀ n, start ≤ n → n < stop → ∃ found, check n = some found ∧ (found = true ↔ P n)) :
    ∃ r, rfind? check start stop = some r
      ∧ ∀ n, r = some n ↔ IsGreatest {n | start ≤ n ∧ n < stop ∧ P n} n := by
  induction stop with
  | zero =>
    refine ⟨none, rfl, fun n => ⟨nofun, fun hn => ?_⟩⟩
    exact absurd hn.1.2.1 (Nat.not_lt_zero n)
  | succ stop ih =>
    rw [rfind?]
    by_cases hstart : stop < start
    · rw [if_pos hstart]
      refine ⟨none, rfl, fun n => ⟨nofun, fun hn => ?_⟩⟩
      have hlo := hn.1.1
      have hhi := hn.1.2.1
      omega
    · rw [if_neg hstart]
      obtain ⟨found, hcheck, hfound⟩ := h stop (by omega) (by omega)
      rw [hcheck, Option.bind_some]
      cases found with
      | true =>
        have hlast : IsGreatest {n | start ≤ n ∧ n < stop + 1 ∧ P n} stop :=
          ⟨⟨by omega, by omega, hfound.mp rfl⟩, fun n hn => Nat.lt_succ_iff.mp hn.2.1⟩
        refine ⟨some stop, rfl, fun n => ⟨?_, fun hn => ?_⟩⟩
        · rintro ⟨⟩
          exact hlast
        · rw [hlast.unique hn]
      | false =>
        obtain ⟨r, hr, hspec⟩ := ih fun n hlo hhi => h n hlo (by omega)
        refine ⟨r, hr, fun n => ?_⟩
        -- The range is shorter by one number that does not pass.
        have hset : {n | start ≤ n ∧ n < stop + 1 ∧ P n} = {n | start ≤ n ∧ n < stop ∧ P n} := by
          ext n
          refine and_congr_right fun _ =>
            ⟨fun ⟨hlt, hP⟩ => ⟨?_, hP⟩, fun ⟨hlt, hP⟩ => ⟨by omega, hP⟩⟩
          have hne : n ≠ stop := by
            rintro rfl
            exact absurd (hfound.mpr hP) (by decide)
          omega
        rw [hset]
        exact hspec n

/-! ## The selection of a scan -/

/-- A scan that begins at `k` and looks for matches of width `w` selects the one at `o`: no
match selected before reaches into it. -/
def Selected (P : ℕ → Prop) (w k : ℕ) (o : ℕ) : Prop :=
  k ≤ o ∧ P o ∧ ∀ o', o' < o → Selected P w k o' → o' + w ≤ o
termination_by o

variable {P Q : ℕ → Prop} {w k o : ℕ}

theorem selected_iff :
    Selected P w k o ↔ k ≤ o ∧ P o ∧ ∀ o', o' < o → Selected P w k o' → o' + w ≤ o := by
  rw [Selected]

theorem Selected.le (h : Selected P w k o) : k ≤ o := (selected_iff.mp h).1

theorem Selected.matches (h : Selected P w k o) : P o := (selected_iff.mp h).2.1

/-- Two selected matches do not overlap. -/
theorem Selected.apart {o' : ℕ} (h' : Selected P w k o') (h : Selected P w k o) (hlt : o' < o) :
    o' + w ≤ o :=
  (selected_iff.mp h).2.2 o' hlt h'

/-- Matches that lie apart are all selected. -/
theorem selected_of_apart (hP : ∀ o o', P o → P o' → o' < o → o' + w ≤ o) (hk : k ≤ o)
    (ho : P o) : Selected P w k o :=
  selected_iff.mpr ⟨hk, ho, fun o' hlt h' => hP o o' ho h'.matches hlt⟩

/-- It is enough that two sequences match alike where no selected match reaches. -/
theorem selected_congr
    (h : ∀ o, k ≤ o → (∀ o', o' < o → Selected P w k o' → o' + w ≤ o) → (P o ↔ Q o)) (o : ℕ) :
    Selected P w k o ↔ Selected Q w k o := by
  induction o using Nat.strong_induction_on with
  | _ o ih =>
    rw [selected_iff, selected_iff]
    have hfree : (∀ o', o' < o → Selected P w k o' → o' + w ≤ o)
        ↔ ∀ o', o' < o → Selected Q w k o' → o' + w ≤ o :=
      forall_congr' fun o' => forall_congr' fun hlt => by rw [ih o' hlt]
    rw [← hfree]
    constructor
    · rintro ⟨hk, hP, hf⟩
      exact ⟨hk, (h o hk hf).mp hP, hf⟩
    · rintro ⟨hk, hQ, hf⟩
      exact ⟨hk, (h o hk hf).mpr hQ, hf⟩

/-- The scan moves on by one where there is no match. -/
theorem selected_skip (hk : ¬P k) (o : ℕ) : Selected P w k o ↔ Selected P w (k + 1) o := by
  induction o using Nat.strong_induction_on with
  | _ o ih =>
    rw [selected_iff, selected_iff]
    have hfree : (∀ o', o' < o → Selected P w k o' → o' + w ≤ o)
        ↔ ∀ o', o' < o → Selected P w (k + 1) o' → o' + w ≤ o :=
      forall_congr' fun o' => forall_congr' fun hlt => by rw [ih o' hlt]
    rw [hfree]
    constructor
    · rintro ⟨hle, hP, hf⟩
      have hne : k ≠ o := by
        rintro rfl
        exact hk hP
      exact ⟨by omega, hP, hf⟩
    · rintro ⟨hle, hP, hf⟩
      exact ⟨by omega, hP, hf⟩

/-- A match where the scan stands is selected, and the scan goes on behind it. -/
theorem selected_take (hw : 0 < w) (hk : P k) (o : ℕ) :
    Selected P w k o ↔ o = k ∨ Selected P w (k + w) o := by
  have hself : Selected P w k k :=
    selected_iff.mpr ⟨Nat.le_refl k, hk, fun o' hlt h' => absurd h'.le (by omega)⟩
  induction o using Nat.strong_induction_on with
  | _ o ih =>
    rw [selected_iff, selected_iff]
    constructor
    · rintro ⟨hle, hP, hf⟩
      by_cases ho : o = k
      · exact Or.inl ho
      · -- The match at `k` is selected, so this one begins behind it.
        refine Or.inr ⟨hf k (by omega) hself, hP, fun o' hlt h' => ?_⟩
        exact hf o' hlt ((ih o' hlt).mpr (Or.inr h'))
    · rintro (rfl | ⟨hle, hP, hf⟩)
      · exact selected_iff.mp hself
      · refine ⟨by omega, hP, fun o' hlt h' => ?_⟩
        rcases (ih o' hlt).mp h' with rfl | h'
        · exact hle
        · exact hf o' hlt h'

/-- A finite scan counts what it selects: one more match where it stands. -/
theorem ncard_selected_take {R : ℕ → Prop} {n : ℕ} (hw : 0 < w) (hk : P k) (hR : R k)
    (hn : ∀ o, P o → o < n) :
    {o | Selected P w k o ∧ R o}.ncard = {o | Selected P w (k + w) o ∧ R o}.ncard + 1 := by
  have hset : {o | Selected P w k o ∧ R o} = insert k {o | Selected P w (k + w) o ∧ R o} := by
    ext o
    simp only [Set.mem_ofPred_eq, Set.mem_insert_iff, selected_take hw hk o]
    constructor
    · rintro ⟨rfl | h, hr⟩
      · exact Or.inl rfl
      · exact Or.inr ⟨h, hr⟩
    · rintro (rfl | ⟨h, hr⟩)
      · exact ⟨Or.inl rfl, hR⟩
      · exact ⟨Or.inr h, hr⟩
  have hfin : {o | Selected P w (k + w) o ∧ R o}.Finite :=
    (Set.finite_lt_nat n).subset fun o ho => hn o ho.1.matches
  rw [hset, Set.ncard_insert_of_notMem (fun h => absurd h.1.le (by omega)) hfin]

/-- A match that does not count leaves the count alone. -/
theorem ncard_selected_take_of_not {R : ℕ → Prop} (hw : 0 < w) (hk : P k) (hR : ¬R k) :
    {o | Selected P w k o ∧ R o}.ncard = {o | Selected P w (k + w) o ∧ R o}.ncard := by
  congr 1
  ext o
  simp only [Set.mem_ofPred_eq, selected_take hw hk o]
  constructor
  · rintro ⟨rfl | h, hr⟩
    · exact absurd hr hR
    · exact ⟨h, hr⟩
  · rintro ⟨h, hr⟩
    exact ⟨Or.inr h, hr⟩

end Linuwux.Scans
