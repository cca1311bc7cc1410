/-
`PendingLinks.lean` -- the shape of the index in `hooks/pending_frees.rs`.

`PendingFrees` keeps beside a history the list of the slots on each chain. What is said here needs
no such list: [`History.Linked`] reads the words that the history has, and a slot is on a chain when
the bucket's word leads to it.
-/
import Linuwux.PendingFrees

set_option autoImplicit false

namespace Linuwux.PendingFrees

open Chains (LeadsTo Reaches)

namespace History

/-- The bucket's link leads to the slot. -/
def OnChain (h : History) (b : Fin BUCKET_COUNT) (i : Slot) : Prop :=
  Reaches links (fun i => (h.entries i).next) (h.buckets b) i

/-- The word is one that `find` and `remove` may follow. -/
def InRange (index : UInt16) : Prop := index = NO_ENTRY ∨ index.toNat < CAPACITY

/-- **The shape of the index.** -/
structure Linked (h : History) : Prop where
  distinct : ∀ i j, (h.entries i).address = (h.entries j).address → (h.entries i).address ≠ 0 →
    i = j
  /-- An occupied slot is on the chain of its own bucket and on no other. -/
  one_chain : ∀ i, (h.entries i).address ≠ 0 →
    ∀ b, h.OnChain b i ↔ b = bucket (h.entries i).address
  occupied : ∀ b i, h.OnChain b i → (h.entries i).address ≠ 0
  inverse : ∀ i j, (∃ b, h.OnChain b i) → (∃ b, h.OnChain b j) →
    ((h.entries i).next = link j ↔ (h.entries j).prev = link i)
  head : ∀ b i, h.OnChain b i → ((h.entries i).prev = NO_ENTRY ↔ h.buckets b = link i)
  acyclic : ∀ b i, h.OnChain b i →
    ¬ Relation.TransGen (LeadsTo links fun i => (h.entries i).next) i i
  bucket_in_range : ∀ b, InRange (h.buckets b)
  next_in_range : ∀ b i, h.OnChain b i → InRange (h.entries i).next
  prev_in_range : ∀ b i, h.OnChain b i → InRange (h.entries i).prev
  /-- The loop looks at no more than `CAPACITY` entries before it looks at `NO_ENTRY`. -/
  find_ends : ∀ address, (h.find (CAPACITY + 1) address).isSome

/-! ## From the lists of the chains -/

theorem inRange_link (i : Slot) : InRange (link i) := by
  refine .inr ?_
  have hslot := slot_link i
  unfold slot at hslot
  split at hslot
  · next h => exact h
  · cases hslot

theorem inRange_of_cases {index : UInt16} (h : index = links.nil ∨ ∃ i, index = links.ref i) :
    InRange index := by
  obtain h | ⟨i, h⟩ := h
  · exact .inl h
  · rw [h]
    exact inRange_link i

variable {h : History} {chain : Fin BUCKET_COUNT → List Slot}

theorem Indexed.onChain_iff (hi : h.Indexed chain) {b : Fin BUCKET_COUNT} {i : Slot} :
    h.OnChain b i ↔ i ∈ chain b := (hi.dll b).reaches_iff

/-- Two slots of which one leads to the other are on the same chain. -/
theorem Indexed.inverse (hi : h.Indexed chain) {b b' : Fin BUCKET_COUNT} {i j : Slot}
    (hb : i ∈ chain b) (hb' : j ∈ chain b') :
    (h.entries i).next = link j ↔ (h.entries j).prev = link i := by
  constructor
  · intro hij
    have hj : j ∈ chain b := (hi.dll b).leads_mem hb hij
    exact ((hi.dll b).next_iff_prev hb hj).mp hij
  · intro hji
    have hb'' : i ∈ chain b' := (hi.dll b').back_mem hb' hji
    exact ((hi.dll b').next_iff_prev hb'' hb').mpr hji

theorem Indexed.linked (hi : h.Indexed chain) : h.Linked where
  distinct := hi.distinct
  one_chain i ha b := by
    rw [hi.onChain_iff, hi.mem_iff]
    exact ⟨fun hb => hb.2.symm, fun hb => ⟨ha, hb.symm⟩⟩
  occupied b i hon := ((hi.mem_iff b i).mp (hi.onChain_iff.mp hon)).1
  inverse := by
    rintro i j ⟨b, hb⟩ ⟨b', hb'⟩
    exact hi.inverse (hi.onChain_iff.mp hb) (hi.onChain_iff.mp hb')
  head b i hon := (hi.dll b).prev_eq_nil_iff (hi.onChain_iff.mp hon)
  acyclic b i hon := (hi.dll b).acyclic (hi.nodup b) (hi.onChain_iff.mp hon)
  bucket_in_range b := by
    rw [show h.buckets b = link_of (chain b).head? from (hi.dll b).first_eq]
    cases (chain b).head? with
    | none => exact .inl rfl
    | some i => exact inRange_link i
  next_in_range b i hon := inRange_of_cases ((hi.dll b).next_cases (hi.onChain_iff.mp hon))
  prev_in_range b i hon := inRange_of_cases ((hi.dll b).prev_cases (hi.onChain_iff.mp hon))
  find_ends address := by
    -- No slot is twice on a chain, so there are no more turns than slots.
    have hlen : (chain (bucket address)).length < CAPACITY + 1 := by
      have hle := (hi.nodup (bucket address)).length_le_card
      rw [Fintype.card_fin] at hle
      omega
    have hfind : h.find (CAPACITY + 1) address = _ :=
      find_loop_eq address (hi.dll (bucket address)) hlen
    rw [hfind]
    rfl

end History

/-- **Every sequence of calls ends, and leaves the index in shape.** -/
theorem calls_keep_linked (extra : ℕ) (cs : List Call) : ∃ answers h,
    History.new.run (CAPACITY + 1 + extra) cs = some (answers, h) ∧ h.Linked := by
  have hfuel : CAPACITY < CAPACITY + 1 + extra := by omega
  obtain ⟨h, chain, hrun, hi, -⟩ := History.run_refines hfuel cs History.indexed_new
  exact ⟨_, h, hrun, hi.linked⟩

end Linuwux.PendingFrees
