/-
`Tokens.lean` -- the tokens of a list that is divided at separators.

A token is a run between separators that is not empty, so separators at either end or side by
side divide nothing from nothing. Everything follows from one equation, `tokens_append_cons`: the
tokens on the two sides of a separator.
-/
import Mathlib.Data.List.Induction

set_option autoImplicit false

namespace Linuwux.Tokens

variable {α : Type*} {p q : α → Bool}

/-- The runs between separators that are not empty. -/
def tokens (p : α → Bool) (l : List α) : List (List α) := (l.splitOnP p).filter fun t => !t.isEmpty

/-- No separator. -/
def Solid (p : α → Bool) (l : List α) : Prop := ∀ x ∈ l, p x = false

/-- **The tokens on the two sides of a separator.** -/
theorem tokens_append_cons {s : α} (hs : p s = true) (a b : List α) :
    tokens p (a ++ s :: b) = tokens p a ++ tokens p b := by
  unfold tokens
  rw [List.splitOnP_append_cons a b hs, List.filter_append]

@[simp] theorem tokens_nil : tokens p ([] : List α) = [] := rfl

theorem tokens_of_solid {l : List α} (h : Solid p l) (hne : l ≠ []) : tokens p l = [l] := by
  unfold tokens
  rw [List.splitOnP_eq_singleton h]
  simp [hne]

@[simp] theorem tokens_cons {s : α} (hs : p s = true) (l : List α) :
    tokens p (s :: l) = tokens p l := by
  simpa using tokens_append_cons hs [] l

/-- A list has no separator, or a first one. -/
theorem solid_or_cut (p : α → Bool) (l : List α) :
    Solid p l ∨ ∃ a s b, l = a ++ s :: b ∧ Solid p a ∧ p s = true := by
  induction l with
  | nil => exact .inl fun x hx => by cases hx
  | cons x l ih =>
    cases hx : p x with
    | true => exact .inr ⟨[], x, l, rfl, fun y hy => by (cases hy), hx⟩
    | false =>
      obtain hl | ⟨a, s, b, rfl, ha, hs⟩ := ih
      · exact .inl (List.forall_mem_cons.mpr ⟨hx, hl⟩)
      · exact .inr ⟨x :: a, s, b, rfl, List.forall_mem_cons.mpr ⟨hx, ha⟩, hs⟩

/-- Induction over what the separators of a list divide it into. -/
theorem cut_induction {motive : List α → Prop} (p : α → Bool)
    (solid : ∀ l, Solid p l → motive l)
    (cut : ∀ a s b, Solid p a → p s = true → motive b → motive (a ++ s :: b)) (l : List α) :
    motive l := by
  induction hn : l.length using Nat.strongRecOn generalizing l with
  | ind n ih =>
    obtain hl | ⟨a, s, b, rfl, ha, hs⟩ := solid_or_cut p l
    · exact solid l hl
    · refine cut a s b ha hs (ih b.length ?_ b rfl)
      rw [← hn, List.length_append, List.length_cons]
      omega

/-- A solid list in front of a separator or at the end. -/
theorem tokens_append_of_head {a rest : List α} (ha : Solid p a)
    (hrest : ∀ x ∈ rest.head?, p x = true) :
    tokens p (a ++ rest) = (if a = [] then [] else [a]) ++ tokens p rest := by
  have hfirst : tokens p a = if a = [] then [] else [a] := by
    split
    · next h => rw [h, tokens_nil]
    · next h => exact tokens_of_solid ha h
  cases rest with
  | nil => rw [List.append_nil, hfirst, tokens_nil, List.append_nil]
  | cons s b =>
    have hs : p s = true := hrest s rfl
    rw [tokens_append_cons hs, hfirst, tokens_cons hs]

theorem mem_tokens {l t : List α} (h : t ∈ tokens p l) : t ≠ [] ∧ Solid p t := by
  induction l using cut_induction p with
  | solid l hl =>
    by_cases hne : l = []
    · rw [hne] at h
      cases h
    · rw [tokens_of_solid hl hne, List.mem_singleton] at h
      exact h ▸ ⟨hne, hl⟩
  | cut a s b ha hs ih =>
    rw [tokens_append_cons hs, List.mem_append] at h
    obtain h | h := h
    · by_cases hne : a = []
      · rw [hne] at h
        cases h
      · rw [tokens_of_solid ha hne, List.mem_singleton] at h
        exact h ▸ ⟨hne, ha⟩
    · exact ih h

/-- What does not contain the separator is on one side of it. -/
theorem infix_append_cons {needle a b : List α} {s : α} (h : s ∉ needle) :
    needle <:+: a ++ s :: b ↔ needle <:+: a ∨ needle <:+: b := by
  constructor
  · rintro ⟨u, v, huv⟩
    rw [List.append_assoc] at huv
    obtain ⟨m, rfl, hm⟩ | ⟨m, rfl, hm⟩ := List.append_eq_append_iff.mp huv
    · -- The needle begins in `a`, and cannot run over its end.
      obtain ⟨k, rfl, -⟩ | ⟨k, rfl, hk⟩ := List.append_eq_append_iff.mp hm
      · exact .inl ⟨u, k, by simp⟩
      · cases k with
        | nil => exact .inl ⟨u, [], by simp⟩
        | cons z k =>
          injection hk with hz
          exact absurd (by simp [hz]) h
    · cases m with
      | nil =>
        cases needle with
        | nil => exact .inl (List.nil_infix)
        | cons z needle =>
          injection hm with hz
          exact absurd (by simp [hz]) h
      | cons z m =>
        injection hm with _ hb
        exact .inr ⟨m, v, (List.append_assoc m needle v).trans hb.symm⟩
  · rintro (hin | hin)
    · exact hin.trans ⟨[], s :: b, rfl⟩
    · exact hin.trans ⟨a ++ [s], [], by simp⟩

/-- The tokens of tokens that are divided further. -/
theorem tokens_flatMap (h : ∀ x, p x = true → q x = true) (l : List α) :
    (tokens p l).flatMap (tokens q) = tokens q l := by
  induction l using cut_induction p with
  | solid l hl =>
    by_cases hne : l = []
    · rw [hne]
      rfl
    · rw [tokens_of_solid hl hne, List.flatMap_singleton]
  | cut a s b ha hs ih =>
    rw [tokens_append_cons hs, tokens_append_cons (h s hs), List.flatMap_append, ih]
    by_cases hne : a = []
    · rw [hne]
      rfl
    · rw [tokens_of_solid ha hne, List.flatMap_singleton]

/-- Lists that a separator joins. -/
theorem tokens_intercalate {s : α} (hs : p s = true) (ls : List (List α)) :
    tokens p ([s].intercalate ls) = ls.flatMap (tokens p) := by
  induction ls with
  | nil => rfl
  | cons a ls ih =>
    cases ls with
    | nil => simp
    | cons b ls =>
      rw [List.intercalate_cons_cons, List.append_assoc, List.singleton_append,
        tokens_append_cons hs, ih]
      simp only [List.flatMap_cons]

/-- Tokens that a separator joins are the tokens of what they are joined to. -/
theorem tokens_intercalate_of_solid {s : α} (hs : p s = true) {ls : List (List α)}
    (h : ∀ t ∈ ls, t ≠ [] ∧ Solid p t) : tokens p ([s].intercalate ls) = ls := by
  rw [tokens_intercalate hs]
  induction ls with
  | nil => rfl
  | cons a ls ih =>
    obtain ⟨ha, hls⟩ := List.forall_mem_cons.mp h
    rw [List.flatMap_cons, ih hls, tokens_of_solid ha.2 ha.1, List.singleton_append]

/-- One more list behind the joined ones. -/
theorem intercalate_concat {s : α} {ls : List (List α)} (hne : ls ≠ []) (a : List α) :
    [s].intercalate (ls ++ [a]) = [s].intercalate ls ++ s :: a := by
  induction ls with
  | nil => exact absurd rfl hne
  | cons b ls ih =>
    cases ls with
    | nil => simp
    | cons c ls =>
      rw [List.cons_append, List.cons_append, List.intercalate_cons_cons, ← List.cons_append,
        ih (List.cons_ne_nil c ls), List.intercalate_cons_cons]
      simp

theorem intercalate_eq_nil {s : α} {ls : List (List α)} (h : ∀ t ∈ ls, t ≠ []) :
    [s].intercalate ls = [] ↔ ls = [] := by
  cases ls with
  | nil => simp
  | cons a ls =>
    have ha : a ≠ [] := h a List.mem_cons_self
    cases ls <;> simp [ha]

/-! ## Lists of tokens -/

section Filters

variable {β : Type*} {keep : β → Bool} {good : α → Bool} {words : β → List α}

/-- Where what is kept is good throughout, what is good is all of it and what stood beside it. -/
theorem length_flatMap_filter_le {l : List β}
    (hkeep : ∀ b ∈ l, keep b = true → ∀ x ∈ words b, good x = true) :
    ((l.filter keep).flatMap words).length ≤ ((l.flatMap words).filter good).length := by
  induction l with
  | nil => exact Nat.le_refl _
  | cons b l ih =>
    obtain ⟨hb, hl⟩ := List.forall_mem_cons.mp hkeep
    rw [List.flatMap_cons, List.filter_append, List.length_append]
    cases hkept : keep b with
    | false =>
      rw [List.filter_cons_of_neg (by simp [hkept])]
      have := ih hl
      omega
    | true =>
      rw [List.filter_cons_of_pos hkept, List.flatMap_cons, List.length_append,
        List.filter_eq_self.mpr (hb hkept)]
      have := ih hl
      omega

/-- **Choosing lists is choosing their elements** where each list that is chosen is good throughout
and no other has anything good. -/
theorem flatMap_filter_eq_iff (l : List β) :
    (l.filter keep).flatMap words = (l.flatMap words).filter good ↔
      ∀ b ∈ l, ∀ x ∈ words b, good x = keep b := by
  constructor
  · intro heq
    have hkeep : ∀ b ∈ l, keep b = true → ∀ x ∈ words b, good x = true := by
      intro b hb hkept x hx
      have hmem : x ∈ (l.filter keep).flatMap words :=
        List.mem_flatMap.mpr ⟨b, List.mem_filter.mpr ⟨hb, hkept⟩, hx⟩
      rw [heq] at hmem
      exact (List.mem_filter.mp hmem).2
    induction l with
    | nil => exact fun b hb => by cases hb
    | cons b l ih =>
      obtain ⟨hb, hl⟩ := List.forall_mem_cons.mp hkeep
      rw [List.flatMap_cons, List.filter_append] at heq
      cases hkept : keep b with
      | false =>
        rw [List.filter_cons_of_neg (by simp [hkept])] at heq
        -- There is no room for anything good in a list that is not kept.
        have hle := length_flatMap_filter_le hl
        have hnil : (words b).filter good = [] := by
          rw [← List.length_eq_zero_iff]
          have := congrArg List.length heq
          rw [List.length_append] at this
          omega
        rw [hnil, List.nil_append] at heq
        refine List.forall_mem_cons.mpr ⟨fun x hx => ?_, ih heq hl⟩
        rw [hkept, ← Bool.not_eq_true]
        exact List.filter_eq_nil_iff.mp hnil x hx
      | true =>
        rw [List.filter_cons_of_pos hkept, List.flatMap_cons,
          List.filter_eq_self.mpr (hb hkept)] at heq
        exact List.forall_mem_cons.mpr
          ⟨fun x hx => (hb hkept x hx).trans hkept.symm, ih (List.append_cancel_left heq) hl⟩
  · intro h
    induction l with
    | nil => rfl
    | cons b l ih =>
      obtain ⟨hb, hl⟩ := List.forall_mem_cons.mp h
      rw [List.flatMap_cons, List.filter_append, ← ih hl]
      cases hkept : keep b with
      | false =>
        rw [hkept] at hb
        have hnil : (words b).filter good = [] :=
          List.filter_eq_nil_iff.mpr fun x hx => by simp [hb x hx]
        rw [List.filter_cons_of_neg (by simp [hkept]), hnil, List.nil_append]
      | true =>
        rw [hkept] at hb
        rw [List.filter_cons_of_pos hkept, List.flatMap_cons, List.filter_eq_self.mpr hb]

end Filters

/-! ## Maximal runs -/

/-- **A maximal run**: not empty, without a separator, and no separator missing on either side. -/
def MaximalRun (p : α → Bool) (l run : List α) : Prop :=
  ∃ front back, l = front ++ run ++ back ∧ run ≠ [] ∧ Solid p run ∧
    (∀ x ∈ front.getLast?, p x = true) ∧ ∀ x ∈ back.head?, p x = true

/-- What is in front of a maximal run has tokens of its own. -/
theorem tokens_append_of_last {front rest : List α} (h : ∀ x ∈ front.getLast?, p x = true) :
    tokens p (front ++ rest) = tokens p front ++ tokens p rest := by
  cases front using List.reverseRecOn with
  | nil => rfl
  | append_singleton front s =>
    have hs : p s = true := h s (by simp)
    rw [List.append_assoc, List.singleton_append, tokens_append_cons hs, tokens_append_cons hs,
      tokens_nil, List.append_nil]

/-- The tokens are the maximal runs. -/
theorem mem_tokens_iff {l run : List α} : run ∈ tokens p l ↔ MaximalRun p l run := by
  constructor
  · intro h
    have hrun := mem_tokens h
    induction l using cut_induction p with
    | solid l hl =>
      by_cases hne : l = []
      · rw [hne] at h
        cases h
      · rw [tokens_of_solid hl hne, List.mem_singleton] at h
        exact ⟨[], [], by simp [h], hrun.1, hrun.2, by simp, by simp⟩
    | cut a s b ha hs ih =>
      rw [tokens_append_cons hs, List.mem_append] at h
      obtain h | h := h
      · by_cases hne : a = []
        · rw [hne] at h
          cases h
        · rw [tokens_of_solid ha hne, List.mem_singleton] at h
          exact ⟨[], s :: b, by simp [h], hrun.1, hrun.2, by simp, by simpa using hs⟩
      · obtain ⟨front, back, rfl, -, -, hfront, hback⟩ := ih h
        refine ⟨a ++ s :: front, back, by simp, hrun.1, hrun.2, ?_, hback⟩
        -- The last of `s :: front` is the separator, or the last of `front`.
        cases front using List.reverseRecOn with
        | nil => simpa using hs
        | append_singleton front x =>
          rw [← List.cons_append, ← List.append_assoc, List.getLast?_concat]
          simpa using hfront
  · rintro ⟨front, back, rfl, hne, hrun, hfront, hback⟩
    rw [List.append_assoc, tokens_append_of_last hfront, tokens_append_of_head hrun hback,
      if_neg hne]
    simp

end Linuwux.Tokens
