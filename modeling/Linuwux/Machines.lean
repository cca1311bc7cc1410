/-
`Machines.lean` -- two machines that are given the same inputs.

A machine answers each input and changes its state, until an answer ends it. One machine stands
in for another when the two answer every sequence of inputs alike, and the usual proof is a
relation between their states that each input keeps. This file has that rule, and its converse
for the case where the inputs that break the relation are known: an input that does not keep it
shows at once, or in the answer to some input that could come next.
-/
import Mathlib.Data.List.Infix

set_option autoImplicit false

namespace Linuwux.Machines

variable {S S' E O : Type*}

/-- What one input does: the answer and the next state. -/
abbrev Machine (S E O : Type*) := S → E → O × S

variable (M : Machine S E O) (M' : Machine S' E O) (halts : O → Bool)

/-- The answers to a sequence of inputs, up to the one that ends the machine. -/
def answers (s : S) : List E → List O
  | [] => []
  | e :: es => (M s e).1 :: if halts (M s e).1 then [] else answers (M s e).2 es

/-- Every input the machine gets to meets `C`. -/
def AllInputs (C : S → E → Prop) (s : S) : List E → Prop
  | [] => True
  | e :: es => C s e ∧ (halts (M s e).1 = false → AllInputs C (M s e).2 es)

instance decidableAllInputs (C : S → E → Prop) [∀ s e, Decidable (C s e)] (s : S) :
    (es : List E) → Decidable (AllInputs M halts C s es)
  | [] => isTrue trivial
  | e :: es =>
    haveI := decidableAllInputs C (M s e).2 es
    inferInstanceAs (Decidable (_ ∧ (_ → _)))

/-- The two machines answer alike, and in every state they get to they would answer alike to any
input of the kind `probe`. -/
def Agree (probe : E → Prop) (s : S) (s' : S') : List E → Prop
  | [] => ∀ q, probe q → (M s q).1 = (M' s' q).1
  | e :: es => (∀ q, probe q → (M s q).1 = (M' s' q).1) ∧ (M s e).1 = (M' s' e).1 ∧
      (halts (M s e).1 = false → Agree probe (M s e).2 (M' s' e).2 es)

/-- The machine whose answers are looked at through `f`. -/
def Machine.through {O' : Type*} (f : O → O') : Machine S E O' := fun s e =>
  (f (M s e).1, (M s e).2)

variable {M M' halts} {probe : E → Prop} {s : S} {s' : S'}

@[simp] theorem answers_nil : answers M halts s [] = [] := rfl

theorem answers_cons (e : E) (es : List E) : answers M halts s (e :: es)
    = (M s e).1 :: if halts (M s e).1 then [] else answers M halts (M s e).2 es := rfl

theorem answers_singleton_eq {q : E} :
    answers M halts s [q] = answers M' halts s' [q] ↔ (M s q).1 = (M' s' q).1 := by
  simp [answers]

/-- Looking through `f` at the answers is looking at each of them, if that shows their end. -/
theorem answers_through {O' : Type*} {f : O → O'} {halts' : O' → Bool}
    (h : ∀ o, halts' (f o) = halts o) (s : S) (es : List E) :
    answers (M.through f) halts' s es = (answers M halts s es).map f := by
  induction es generalizing s with
  | nil => rfl
  | cons e es ih =>
    have hh : halts' (M.through f s e).1 = halts (M s e).1 := h _
    rw [answers_cons, answers_cons, List.map_cons, hh]
    cases halts (M s e).1 with
    | true => rfl
    | false => exact congrArg _ (ih _)

theorem allInputs_through {O' : Type*} {f : O → O'} {halts' : O' → Bool}
    (h : ∀ o, halts' (f o) = halts o) {C : S → E → Prop} {es : List E} :
    AllInputs (M.through f) halts' C s es ↔ AllInputs M halts C s es := by
  induction es generalizing s with
  | nil => exact Iff.rfl
  | cons e es ih =>
    have hh : halts' (M.through f s e).1 = halts (M s e).1 := h _
    exact and_congr_right fun _ => by rw [hh]; exact imp_congr_right fun _ => ih

/-- Agreement after one input. -/
theorem answers_cons_eq {e : E} {es : List E} :
    answers M halts s (e :: es) = answers M' halts s' (e :: es) ↔
      (M s e).1 = (M' s' e).1 ∧ (halts (M s e).1 = false →
        answers M halts (M s e).2 es = answers M' halts (M' s' e).2 es) := by
  rw [answers_cons, answers_cons, List.cons_eq_cons]
  refine and_congr_right fun heq => ?_
  rw [← heq]
  cases halts (M s e).1 <;> simp

/-- Agreement in terms of the answers alone. -/
theorem agree_iff_answers {es : List E} : Agree M M' halts probe s s' es ↔
    answers M halts s es = answers M' halts s' es ∧ ∀ es₁, es₁ <+: es → ∀ q, probe q →
      answers M halts s (es₁ ++ [q]) = answers M' halts s' (es₁ ++ [q]) := by
  induction es generalizing s s' with
  | nil =>
    constructor
    · intro h
      refine ⟨rfl, fun es₁ hes q hq => ?_⟩
      rw [List.prefix_nil.mp hes]
      exact answers_singleton_eq.mpr (h q hq)
    · exact fun h q hq => answers_singleton_eq.mp (h.2 [] (List.nil_prefix) q hq)
  | cons e es ih =>
    constructor
    · rintro ⟨hnow, heq, hrest⟩
      refine ⟨answers_cons_eq.mpr ⟨heq, fun hh => (ih.mp (hrest hh)).1⟩, fun es₁ hes q hq => ?_⟩
      cases es₁ with
      | nil => exact answers_singleton_eq.mpr (hnow q hq)
      | cons e₁ es₁ =>
        obtain ⟨rfl, hes'⟩ := List.cons_prefix_cons.mp hes
        exact answers_cons_eq.mpr ⟨heq, fun hh => (ih.mp (hrest hh)).2 es₁ hes' q hq⟩
    · rintro ⟨hall, hprobe⟩
      obtain ⟨heq, hrest⟩ := answers_cons_eq.mp hall
      refine ⟨fun q hq => ?_, heq, fun hh => ?_⟩
      · exact answers_singleton_eq.mp (hprobe [] List.nil_prefix q hq)
      · refine ih.mpr ⟨hrest hh, fun es₁ hes q hq => ?_⟩
        have hcons := hprobe (e :: es₁) (List.cons_prefix_cons.mpr ⟨rfl, hes⟩) q hq
        exact (answers_cons_eq.mp hcons).2 hh

/-- **The rule.** A relation that gives equal answers to the probes, that every input meeting `C`
keeps with equal answers, and that any other input breaks in its own answer or in that of a probe
that follows it. -/
theorem agree_iff_allInputs {C : S → E → Prop} {R : S → S' → Prop}
    (hprobe : ∀ s s' q, R s s' → probe q → (M s q).1 = (M' s' q).1)
    (hkeep : ∀ s s' e, R s s' → C s e → (M s e).1 = (M' s' e).1 ∧
      (halts (M s e).1 = false → R (M s e).2 (M' s' e).2))
    (hbreak : ∀ s s' e, R s s' → ¬ C s e → (M s e).1 = (M' s' e).1 → halts (M s e).1 = false ∧
      ∃ q, probe q ∧ (M (M s e).2 q).1 ≠ (M' (M' s' e).2 q).1)
    {es : List E} (h : R s s') : Agree M M' halts probe s s' es ↔ AllInputs M halts C s es := by
  induction es generalizing s s' with
  | nil => exact iff_of_true (fun q hq => hprobe s s' q h hq) trivial
  | cons e es ih =>
    by_cases hC : C s e
    · obtain ⟨heq, hnext⟩ := hkeep s s' e h hC
      constructor
      · rintro ⟨-, -, hrest⟩
        exact ⟨hC, fun hh => (ih (hnext hh)).mp (hrest hh)⟩
      · rintro ⟨-, hrest⟩
        exact ⟨fun q hq => hprobe s s' q h hq, heq, fun hh => (ih (hnext hh)).mpr (hrest hh)⟩
    · refine iff_of_false (fun hag => ?_) fun hall => hC hall.1
      obtain ⟨-, heq, hrest⟩ := hag
      obtain ⟨hh, q, hq, hne⟩ := hbreak s s' e h hC heq
      cases es with
      | nil => exact hne (hrest hh q hq)
      | cons e' es => exact hne ((hrest hh).1 q hq)

end Linuwux.Machines
