/-
`Chains.lean` -- doubly linked chains through the cells of an arena.

A hash table that keeps its entries in a fixed array threads each bucket's entries on a
chain: a cell has a `next` and a `prev` link, the bucket has the link to the first cell,
and one link value is set apart to say that there is no cell. This file is about such
chains and about no table in particular: `Dll` says that a link leads through a given list
of cells and back, and the lemmas are what the usual operations do to it, in terms of the
links after the operation. They ask for the links of the cells on the chain only, so a
caller that has changed other cells has nothing to show about those.
-/
import Mathlib.Data.List.Nodup
import Mathlib.Logic.Relation

set_option autoImplicit false

namespace Linuwux.Chains

variable {ι κ : Type*}

/-- How links stand for cells: one value for no cell, and one for each cell. -/
structure Links (ι κ : Type*) where
  nil : κ
  ref : ι → κ
  ref_ne_nil : ∀ i, ref i ≠ nil
  ref_injective : Function.Injective ref

variable (R : Links ι κ)

/-- **The link `u` leads through the cells `l`**, each with its `prev` link back to the one
before it, the first with `p`. -/
def Dll (next prev : ι → κ) (p u : κ) : List ι → Prop
  | [] => u = R.nil
  | i :: l => u = R.ref i ∧ prev i = p ∧ Dll next prev (R.ref i) (next i) l

variable {R} {next prev next' prev' : ι → κ} {p u : κ} {i : ι} {l l₁ l₂ : List ι}

/-- Only the links of the cells on the chain matter. -/
theorem Dll.frame (h : Dll R next prev p u l) (hnext : ∀ j ∈ l, next' j = next j)
    (hprev : ∀ j ∈ l, prev' j = prev j) : Dll R next' prev' p u l := by
  induction l generalizing p u with
  | nil => exact h
  | cons i l ih =>
    obtain ⟨hu, hp, hrest⟩ := h
    refine ⟨hu, (hprev i List.mem_cons_self).trans hp, ?_⟩
    rw [hnext i List.mem_cons_self]
    exact ih hrest (fun j hj => hnext j (List.mem_cons_of_mem _ hj))
      (fun j hj => hprev j (List.mem_cons_of_mem _ hj))

section Update

variable [DecidableEq ι]

/-- The first cell of a chain that is put behind another cell. -/
theorem Dll.relink {q : κ} (h : Dll R next prev p u l) (hnd : l.Nodup)
    (hnext : ∀ j ∈ l, next' j = next j)
    (hprev : ∀ j ∈ l, prev' j = if l.head? = some j then q else prev j) :
    Dll R next' prev' q u l := by
  cases l with
  | nil => exact h
  | cons i l =>
    obtain ⟨hu, -, hrest⟩ := h
    have hi := (List.nodup_cons.mp hnd).1
    refine ⟨hu, by rw [hprev i List.mem_cons_self]; simp, ?_⟩
    rw [hnext i List.mem_cons_self]
    refine hrest.frame (fun j hj => hnext j (List.mem_cons_of_mem _ hj)) fun j hj => ?_
    have hne : i ≠ j := fun heq => hi (heq ▸ hj)
    rw [hprev j (List.mem_cons_of_mem _ hj), if_neg (by simpa using hne)]

/-- A cell put in front. -/
theorem Dll.insert (h : Dll R next prev p u l) (hnd : l.Nodup) (hi : next' i = u)
    (hpi : prev' i = p) (hnext : ∀ j ∈ l, next' j = next j)
    (hprev : ∀ j ∈ l, prev' j = if l.head? = some j then R.ref i else prev j) :
    Dll R next' prev' p (R.ref i) (i :: l) :=
  ⟨rfl, hpi, by rw [hi]; exact h.relink hnd hnext hprev⟩

/-- A cell taken out: the link that led to it leads on, and the link that led back to it leads
back. -/
theorem Dll.remove (h : Dll R next prev p u (l₁ ++ i :: l₂)) (hnd : (l₁ ++ i :: l₂).Nodup)
    (hnext : ∀ j ∈ l₁ ++ l₂, next' j = if l₁.getLast? = some j then next i else next j)
    (hprev : ∀ j ∈ l₁ ++ l₂, prev' j = if l₂.head? = some j then prev i else prev j) :
    Dll R next' prev' p (if l₁ = [] then next i else u) (l₁ ++ l₂) := by
  induction l₁ generalizing p u with
  | nil =>
    obtain ⟨-, hp, hrest⟩ := h
    rw [List.nil_append] at hnd
    subst hp
    exact hrest.relink (List.nodup_cons.mp hnd).2 (fun j hj => by simpa using hnext j hj) hprev
  | cons k l₁ ih =>
    obtain ⟨hu, hp, hrest⟩ := h
    obtain ⟨hk, hnd'⟩ := List.nodup_cons.mp hnd
    have hk₂ : l₂.head? ≠ some k := fun heq =>
      hk (by simp [List.mem_of_mem_head? (Option.mem_def.mpr heq)])
    refine ⟨by simpa using hu, ?_, ?_⟩
    · rw [hprev k (by simp), if_neg hk₂, hp]
    · have hih := ih hrest hnd' (fun j hj => ?_) fun j hj => hprev j (List.mem_cons_of_mem _ hj)
      · rw [hnext k (by simp)]
        cases l₁ with
        | nil => simpa using hih
        | cons k' l₁ =>
          have hlast : (k :: k' :: l₁).getLast? ≠ some k := by
            rw [List.getLast?_cons_cons]
            exact fun heq =>
              hk (List.mem_append_left _ (List.mem_of_mem_getLast? (Option.mem_def.mpr heq)))
          rw [if_neg hlast]
          simpa using hih
      · -- `j` is not `k`, so being last of `k :: l₁` is being last of `l₁`.
        have hjk : k ≠ j := by
          rintro rfl
          exact hk (by rcases List.mem_append.mp hj with h | h <;> simp [h])
        rw [hnext j (List.mem_cons_of_mem _ hj)]
        cases l₁ with
        | nil => simp [hjk]
        | cons k' l₁ => simp

end Update

/-- What leads on from a cell of a chain. -/
theorem Dll.next_eq (h : Dll R next prev p u (l₁ ++ i :: l₂)) :
    next i = (l₂.head?.map R.ref).getD R.nil := by
  induction l₁ generalizing p u with
  | nil =>
    obtain ⟨-, -, hrest⟩ := h
    cases l₂ with
    | nil => exact hrest
    | cons j l₂ => exact hrest.1
  | cons k l₁ ih => exact ih h.2.2

/-- What leads back from a cell of a chain. -/
theorem Dll.prev_eq (h : Dll R next prev p u (l₁ ++ i :: l₂)) :
    prev i = (l₁.getLast?.map R.ref).getD p := by
  induction l₁ generalizing p u with
  | nil => exact h.2.1
  | cons k l₁ ih =>
    rw [ih h.2.2]
    cases l₁ with
    | nil => rfl
    | cons k' l₁ =>
      rw [List.getLast?_cons_cons, List.getLast?_eq_some_getLast (List.cons_ne_nil k' l₁)]
      rfl

/-- The link into a chain. -/
theorem Dll.first_eq (h : Dll R next prev p u l) : u = (l.head?.map R.ref).getD R.nil := by
  cases l with
  | nil => exact h
  | cons i l => exact h.1

/-! ## Following the links

What a chain looks like to one who has the links only, and no list of the cells. -/

/-- The cells that the link `u` leads to, one after the other. -/
inductive Reaches (R : Links ι κ) (next : ι → κ) (u : κ) : ι → Prop
  | first {i : ι} (h : u = R.ref i) : Reaches R next u i
  | onward {i j : ι} (h : Reaches R next u i) (hij : next i = R.ref j) : Reaches R next u j

/-- One cell leads on to another. -/
def LeadsTo (R : Links ι κ) (next : ι → κ) (i j : ι) : Prop := next i = R.ref j

theorem Reaches.tail {j : ι} (h : Reaches R next (next j) i) : Reaches R next (R.ref j) i := by
  induction h with
  | first h => exact .onward (.first rfl) h
  | onward _ hij ih => exact ih.onward hij

/-- A link that stands for an optional cell stands for `i` when the cell is `i`. -/
theorem Links.getD_eq_ref {o : Option ι} : (o.map R.ref).getD R.nil = R.ref i ↔ o = some i := by
  cases o with
  | none => exact ⟨fun h => absurd h.symm (R.ref_ne_nil i), fun h => by cases h⟩
  | some j => exact ⟨fun h => congrArg some (R.ref_injective h), fun h => by cases h; rfl⟩

theorem Links.getD_eq_nil {o : Option ι} : (o.map R.ref).getD R.nil = R.nil ↔ o = none := by
  cases o with
  | none => exact ⟨fun _ => rfl, fun _ => rfl⟩
  | some j => exact ⟨fun h => absurd h (R.ref_ne_nil j), fun h => by cases h⟩

/-- The rest of a chain behind one of its cells. -/
theorem Dll.rest (h : Dll R next prev p u (l₁ ++ i :: l₂)) :
    Dll R next prev (R.ref i) (next i) l₂ := by
  induction l₁ generalizing p u with
  | nil => exact h.2.2
  | cons k l₁ ih => exact ih h.2.2

/-- A cell that leads on leads to a cell of the chain. -/
theorem Dll.leads_mem {j : ι} (h : Dll R next prev p u l) (hi : i ∈ l)
    (hij : LeadsTo R next i j) : j ∈ l := by
  obtain ⟨l₁, l₂, rfl⟩ := List.append_of_mem hi
  rw [LeadsTo, h.next_eq, Links.getD_eq_ref] at hij
  exact List.mem_append_right _ (List.mem_cons_of_mem _ (List.mem_of_mem_head? hij))

/-- **The cells on a chain are those its first link leads to.** -/
theorem Dll.reaches_iff (h : Dll R next prev p u l) : Reaches R next u i ↔ i ∈ l := by
  constructor
  · intro hreach
    induction hreach with
    | first hu =>
      rw [h.first_eq, Links.getD_eq_ref] at hu
      exact List.mem_of_mem_head? hu
    | onward _ hij ih => exact h.leads_mem ih hij
  · intro hmem
    induction l generalizing p u with
    | nil => cases hmem
    | cons j l ih =>
      obtain ⟨hu, -, hrest⟩ := h
      obtain rfl | hmem := List.mem_cons.mp hmem
      · exact .first hu
      · rw [hu]
        exact (ih hrest hmem).tail

/-- The links of a chain never lead back to where they started. -/
theorem Dll.acyclic (h : Dll R next prev p u l) (hnd : l.Nodup) (hi : i ∈ l) :
    ¬ Relation.TransGen (LeadsTo R next) i i := by
  obtain ⟨l₁, l₂, rfl⟩ := List.append_of_mem hi
  have hlater : ∀ j, Relation.TransGen (LeadsTo R next) i j → j ∈ l₂ := by
    intro j hj
    induction hj with
    | single hij =>
      rw [LeadsTo, h.next_eq, Links.getD_eq_ref] at hij
      exact List.mem_of_mem_head? hij
    | tail _ hjk ih => exact h.rest.leads_mem ih hjk
  intro hcycle
  exact (List.nodup_cons.mp (List.nodup_middle.mp hnd)).1
    (List.mem_append_right _ (hlater i hcycle))

section Back

variable {j : ι}

/-- A cell that a link leads back to is on the chain. -/
theorem Dll.back_mem (h : Dll R next prev R.nil u l) (hj : j ∈ l) (hji : prev j = R.ref i) :
    i ∈ l := by
  obtain ⟨l₁, l₂, rfl⟩ := List.append_of_mem hj
  rw [h.prev_eq, Links.getD_eq_ref] at hji
  exact List.mem_append_left _ (List.mem_of_mem_getLast? hji)

/-- `next` and `prev` undo each other. -/
theorem Dll.next_iff_prev (h : Dll R next prev R.nil u l) (hi : i ∈ l) (hj : j ∈ l) :
    next i = R.ref j ↔ prev j = R.ref i := by
  constructor
  · intro hij
    obtain ⟨l₁, l₂, rfl⟩ := List.append_of_mem hi
    rw [h.next_eq, Links.getD_eq_ref] at hij
    obtain ⟨l₂, rfl⟩ : ∃ l, l₂ = j :: l := List.head?_eq_some_iff.mp hij
    have hd : Dll R next prev R.nil u ((l₁ ++ [i]) ++ j :: l₂) := by simpa using h
    rw [hd.prev_eq, List.getLast?_concat]
    rfl
  · intro hji
    obtain ⟨l₁, l₂, rfl⟩ := List.append_of_mem hj
    rw [h.prev_eq, Links.getD_eq_ref] at hji
    obtain ⟨l₁, rfl⟩ : ∃ l, l₁ = l ++ [i] := List.getLast?_eq_some_iff.mp hji
    have hd : Dll R next prev R.nil u (l₁ ++ i :: j :: l₂) := by simpa using h
    rw [hd.next_eq]
    rfl

/-- No link leads back from the first cell, and from no other. -/
theorem Dll.prev_eq_nil_iff (h : Dll R next prev R.nil u l) (hi : i ∈ l) :
    prev i = R.nil ↔ u = R.ref i := by
  constructor
  · intro hp
    obtain ⟨l₁, l₂, rfl⟩ := List.append_of_mem hi
    rw [h.prev_eq, Links.getD_eq_nil, List.getLast?_eq_none_iff] at hp
    subst hp
    exact h.1
  · intro hu
    rw [h.first_eq, Links.getD_eq_ref] at hu
    obtain ⟨l, rfl⟩ : ∃ l', l = i :: l' := List.head?_eq_some_iff.mp hu
    exact h.2.1

theorem Dll.next_cases (h : Dll R next prev p u l) (hi : i ∈ l) :
    next i = R.nil ∨ ∃ j, next i = R.ref j := by
  obtain ⟨l₁, l₂, rfl⟩ := List.append_of_mem hi
  rw [h.next_eq]
  cases l₂.head? with
  | none => exact .inl rfl
  | some j => exact .inr ⟨j, rfl⟩

theorem Dll.prev_cases (h : Dll R next prev R.nil u l) (hi : i ∈ l) :
    prev i = R.nil ∨ ∃ j, prev i = R.ref j := by
  obtain ⟨l₁, l₂, rfl⟩ := List.append_of_mem hi
  rw [h.prev_eq]
  cases l₁.getLast? with
  | none => exact .inl rfl
  | some j => exact .inr ⟨j, rfl⟩

end Back

end Linuwux.Chains
