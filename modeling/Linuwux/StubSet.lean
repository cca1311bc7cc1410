/-
`StubSet.lean` -- the stub set of `runtime/src/syscall/kuser_dispatch.rs`.

`IAT_STUBS` is an open-addressed set of 8192 slots for at most 4096 stub addresses; a slot
goes from zero to an address and never back. `remember_stub` is only called with
`IAT_SCAN_LOCK` held, so its calls come one after another. The set they make has a plain
description ([`store`]), and `matches_iat_stub` answers from it.
-/
import Linuwux.Probing
import Mathlib.Data.UInt

set_option autoImplicit false

namespace Linuwux.StubSet

/-! ## The set -/

def IAT_CAPACITY : ℕ := 4096

def IAT_STUB_SLOTS : ℕ := IAT_CAPACITY * 2

def THUNK_RETURN_OFFSET : UInt64 := 0x1f

/-- An index of `IAT_STUBS`. -/
abbrev Slot := Fin IAT_STUB_SLOTS

/-- `IAT_STUBS` and `IAT_STUB_COUNT`. -/
structure Stubs where
  slots : Slot → UInt64
  count : UInt64

def Stubs.new : Stubs := ⟨fun _ => 0, 0⟩

def stub_hash (address : UInt64) : UInt64 := ((address >>> 4) * 0x9e3779b97f4a7c15) >>> 32

def stub_probe (address : UInt64) : List Slot :=
  (List.finRange IAT_STUB_SLOTS).map fun offset =>
    ⟨((stub_hash address).toNat + offset.val) &&& (IAT_STUB_SLOTS - 1),
      Nat.lt_of_le_of_lt Nat.and_le_right (by decide)⟩

/-- The loop of `remember_stub`. -/
def remember_at (s : Stubs) (address : UInt64) : List Slot → Bool × Stubs
  | [] => (false, s)
  | index :: rest =>
    if s.slots index = 0 then
      (true, ⟨Function.update s.slots index address, s.count + 1⟩)
    else if s.slots index = address then (false, s)
    else remember_at s address rest

def remember_stub (s : Stubs) (address : UInt64) : Bool × Stubs :=
  if address = 0 ∨ s.count ≥ .ofNat IAT_CAPACITY then (false, s)
  else remember_at s address (stub_probe address)

def stub_for_return (return_address : UInt64) : Option UInt64 :=
  if return_address < THUNK_RETURN_OFFSET then none
  else
    let stub := return_address - THUNK_RETURN_OFFSET
    if stub ≠ 0 then some stub else none

/-- The loop of `matches_iat_stub`. -/
def matches_at (s : Stubs) (stub : UInt64) : List Slot → Bool
  | [] => false
  | index :: rest =>
    if s.slots index = 0 then false
    else if s.slots index = stub then true
    else matches_at s stub rest

def matches_iat_stub (s : Stubs) (return_address : UInt64) : Bool :=
  if s.count = 0 then false
  else
    match stub_for_return return_address with
    | none => false
    | some stub => matches_at s stub (stub_probe stub)

/-- The calls of `remember_stub` one after another. -/
def remember_stubs (s : Stubs) (calls : List UInt64) : Stubs :=
  calls.foldl (fun s address => (remember_stub s address).2) s

/-! ## The loops as probes -/

/-- Every slot is probed. -/
theorem mem_stub_probe (address : UInt64) (i : Slot) : i ∈ stub_probe address := by
  have hi : i.val < 8192 := i.isLt
  have hmod : ∀ n : ℕ, n &&& (IAT_STUB_SLOTS - 1) = n % 8192 :=
    fun n => Nat.and_two_pow_sub_one_eq_mod n 13
  -- The offset at which the probe comes by `i`.
  refine List.mem_map.mpr
    ⟨⟨(8192 + i.val - (stub_hash address).toNat % 8192) % 8192, Nat.mod_lt _ (by decide)⟩,
      List.mem_finRange _, Fin.ext ?_⟩
  simp only [hmod]
  omega

theorem remember_at_eq (s : Stubs) (address : UInt64) (probes : List Slot) :
    remember_at s address probes
      = match Probing.settle s.slots 0 address probes with
        | none => (false, s)
        | some i =>
          if s.slots i = 0 then (true, ⟨Function.update s.slots i address, s.count + 1⟩)
          else (false, s) := by
  induction probes with
  | nil => rfl
  | cons i rest ih =>
    rw [remember_at, Probing.settle_cons]
    by_cases h0 : s.slots i = 0
    · rw [if_pos h0, if_pos (Or.inl h0)]
      exact (if_pos h0).symm
    · by_cases ha : s.slots i = address
      · rw [if_neg h0, if_pos ha, if_pos (Or.inr ha)]
        exact (if_neg h0).symm
      · rw [if_neg h0, if_neg ha, if_neg (not_or.mpr ⟨h0, ha⟩), ih]

theorem matches_at_eq (s : Stubs) (stub : UInt64) (probes : List Slot) :
    matches_at s stub probes
      = match Probing.settle s.slots 0 stub probes with
        | none => false
        | some i => s.slots i ≠ 0 := by
  induction probes with
  | nil => rfl
  | cons i rest ih =>
    rw [matches_at, Probing.settle_cons]
    by_cases h0 : s.slots i = 0
    · rw [if_pos h0, if_pos (Or.inl h0)]
      exact (decide_eq_false (not_not.mpr h0)).symm
    · by_cases ha : s.slots i = stub
      · rw [if_neg h0, if_pos ha, if_pos (Or.inr ha)]
        exact (decide_eq_true h0).symm
      · rw [if_neg h0, if_neg ha, if_neg (not_or.mpr ⟨h0, ha⟩), ih]

/-! ## What is stored -/

/-- The addresses in the set. -/
abbrev Stubs.stored (s : Stubs) : Finset UInt64 := Probing.stored 0 s.slots

/-- The slots are as probing needs them, and the count is right. -/
structure Stubs.Ok (s : Stubs) : Prop where
  settled : Probing.Settled stub_probe 0 s.slots
  count : s.count.toNat = s.stored.card
  capacity : s.stored.card ≤ IAT_CAPACITY

/-- What a call of `remember_stub` is to do. -/
def store (stored : Finset UInt64) (address : UInt64) : Finset UInt64 :=
  if address ≠ 0 ∧ stored.card < IAT_CAPACITY then insert address stored else stored

theorem stored_new : Stubs.new.stored = ∅ := by
  apply Finset.eq_empty_of_forall_notMem
  intro address h
  obtain ⟨hne, i, hi⟩ := Probing.mem_stored.mp h
  exact hne hi.symm

theorem ok_new : Stubs.new.Ok where
  settled := Probing.settled_const _ _
  count := by
    rw [stored_new]
    rfl
  capacity := by
    rw [stored_new]
    exact Nat.zero_le _

section Ok

variable {s : Stubs} (h : s.Ok)
include h

/-- Every probe sequence ends at a match or at an empty slot. -/
theorem Stubs.Ok.settles (address : UInt64) :
    ∃ i, Probing.settle s.slots 0 address (stub_probe address) = some i := by
  -- At most half of the slots are taken, so one is empty, and every probe comes by it.
  have hlt : s.stored.card < Fintype.card Slot := by
    rw [Fintype.card_fin]
    have hle := h.capacity
    simp only [IAT_STUB_SLOTS, IAT_CAPACITY] at hle ⊢
    omega
  obtain ⟨i, hi⟩ := Probing.exists_empty h.settled hlt
  exact Probing.settle_isSome (mem_stub_probe address i) hi

/-- The slot where an address settles is empty exactly if it is not stored. -/
theorem Stubs.Ok.settle_empty_iff {address : UInt64} (hne : address ≠ 0) {i : Slot}
    (hi : Probing.settle s.slots 0 address (stub_probe address) = some i) :
    s.slots i = 0 ↔ address ∉ s.stored := by
  have hor := (Probing.settle_eq_some.mp hi).1
  rw [Probing.mem_stored, ← h.settled.lookup hne hi]
  constructor
  · rintro h0 ⟨-, ha⟩
    exact hne (ha.symm.trans h0)
  · intro hnot
    rcases hor with h0 | ha
    · exact h0
    · exact absurd ⟨hne, ha⟩ hnot

theorem Stubs.Ok.count_eq_zero_iff : s.count = 0 ↔ s.stored = ∅ := by
  rw [← Finset.card_eq_zero, ← h.count, ← UInt64.toNat_inj]
  rfl

theorem Stubs.Ok.full_iff : s.count ≥ .ofNat IAT_CAPACITY ↔ IAT_CAPACITY ≤ s.stored.card := by
  rw [ge_iff_le, UInt64.le_iff_toNat_le, h.count]
  exact Iff.rfl

/-- An address can be written where it settles while there is room. -/
theorem Stubs.Ok.write {address : UInt64} (hne : address ≠ 0) (hlt : s.stored.card < IAT_CAPACITY)
    {i : Slot} (hi : Probing.settle s.slots 0 address (stub_probe address) = some i)
    (h0 : s.slots i = 0) : Stubs.Ok ⟨Function.update s.slots i address, s.count + 1⟩ := by
  have hnew := (h.settle_empty_iff hne hi).mp h0
  have hcard : (Probing.stored 0 (Function.update s.slots i address)).card
      = s.stored.card + 1 := by
    rw [Probing.stored_update hne h0, Finset.card_insert_of_notMem hnew]
  -- The count stays below 4096, so it does not wrap.
  refine ⟨h.settled.store hi h0, ?_, ?_⟩
  · change (s.count + 1).toNat = _
    rw [hcard, UInt64.toNat_add, h.count]
    simp only [IAT_CAPACITY] at hlt
    exact Nat.mod_eq_of_lt (by change _ + 1 < _; omega)
  · rw [hcard]
    omega

/-- **One call.** It returns true exactly for a new address with room for it, and what is
stored changes as it is to. -/
theorem Stubs.Ok.remember_stub (address : UInt64) :
    ((StubSet.remember_stub s address).1 = true
        ↔ address ≠ 0 ∧ address ∉ s.stored ∧ s.stored.card < IAT_CAPACITY)
      ∧ (StubSet.remember_stub s address).2.Ok
      ∧ (StubSet.remember_stub s address).2.stored = store s.stored address := by
  unfold StubSet.remember_stub store
  by_cases hout : address = 0 ∨ s.count ≥ .ofNat IAT_CAPACITY
  · rw [if_pos hout]
    have hnot : ¬(address ≠ 0 ∧ s.stored.card < IAT_CAPACITY) := by
      rintro ⟨hne, hlt⟩
      rcases hout with h0 | hfull
      · exact hne h0
      · have hle := h.full_iff.mp hfull
        omega
    rw [if_neg hnot]
    exact ⟨⟨nofun, fun hin => absurd ⟨hin.1, hin.2.2⟩ hnot⟩, h, rfl⟩
  · rw [if_neg hout]
    obtain ⟨hne, hroom⟩ := not_or.mp hout
    have hlt : s.stored.card < IAT_CAPACITY := by
      have hfull := h.full_iff.not.mp hroom
      omega
    -- Where the probe ends, the slot is empty for a new address and holds it otherwise.
    obtain ⟨i, hi⟩ := h.settles address
    rw [remember_at_eq, hi, if_pos ⟨hne, hlt⟩]
    dsimp only
    split
    · rename_i h0
      have hnew := (h.settle_empty_iff hne hi).mp h0
      exact ⟨⟨fun _ => ⟨hne, hnew, hlt⟩, fun _ => rfl⟩, h.write hne hlt hi h0,
        Probing.stored_update hne h0⟩
    · rename_i h0
      have hold : address ∈ s.stored := not_not.mp ((h.settle_empty_iff hne hi).not.mp h0)
      rw [Finset.insert_eq_of_mem hold]
      exact ⟨⟨nofun, fun hin => absurd hold hin.2.1⟩, h, rfl⟩

theorem Stubs.Ok.matches_at {stub : UInt64} (hne : stub ≠ 0) :
    StubSet.matches_at s stub (stub_probe stub) = true ↔ stub ∈ s.stored := by
  obtain ⟨i, hi⟩ := h.settles stub
  rw [matches_at_eq, hi]
  dsimp only
  rw [decide_eq_true_iff, ne_eq, h.settle_empty_iff hne hi, not_not]

/-- **Lookup.** -/
theorem Stubs.Ok.matches_iat_stub (return_address : UInt64) :
    StubSet.matches_iat_stub s return_address = true
      ↔ THUNK_RETURN_OFFSET ≤ return_address ∧ return_address - THUNK_RETURN_OFFSET ≠ 0
        ∧ return_address - THUNK_RETURN_OFFSET ∈ s.stored := by
  unfold StubSet.matches_iat_stub stub_for_return
  by_cases h0 : s.count = 0
  · -- The count is asked first, and says that nothing is stored.
    rw [if_pos h0, h.count_eq_zero_iff.mp h0]
    exact ⟨nofun, fun hin => absurd hin.2.2 (Finset.notMem_empty _)⟩
  · rw [if_neg h0]
    by_cases hlt : return_address < THUNK_RETURN_OFFSET
    · rw [if_pos hlt]
      exact ⟨nofun, fun hin => absurd hin.1 (UInt64.not_le.mpr hlt)⟩
    · rw [if_neg hlt]
      dsimp only
      by_cases hne : return_address - THUNK_RETURN_OFFSET ≠ 0
      · rw [if_pos hne]
        dsimp only
        rw [h.matches_at hne]
        exact ⟨fun hin => ⟨UInt64.not_lt.mp hlt, hne, hin⟩, fun hin => hin.2.2⟩
      · rw [if_neg hne]
        exact ⟨nofun, fun hin => absurd hin.2.1 hne⟩

end Ok

/-- A run of calls keeps the set in order and stores what each call is to store. -/
theorem Stubs.Ok.remember_stubs {s : Stubs} (h : s.Ok) (calls : List UInt64) :
    (StubSet.remember_stubs s calls).Ok
      ∧ (StubSet.remember_stubs s calls).stored = calls.foldl store s.stored := by
  induction calls generalizing s with
  | nil => exact ⟨h, rfl⟩
  | cons address calls ih =>
    obtain ⟨-, hok, hstored⟩ := h.remember_stub address
    obtain ⟨hrest, hfold⟩ := ih hok
    refine ⟨hrest, ?_⟩
    rw [List.foldl_cons, ← hstored]
    exact hfold

/-- What is stored after these calls. -/
def stored_after (calls : List UInt64) : Finset UInt64 := calls.foldl store ∅

/-- **The stub set is a set.** After any calls of `remember_stub`, the next one returns true
exactly for a nonzero address that is not stored yet, while fewer than 4096 are; the count is
the number of stored addresses; a return address matches exactly if the stub it returns to is
stored; and every probe sequence ends at a match or an empty slot. -/
theorem stub_set_correct (calls : List UInt64) :
    (∀ address, (remember_stub (remember_stubs .new calls) address).1 = true
        ↔ address ≠ 0 ∧ address ∉ stored_after calls ∧ (stored_after calls).card < IAT_CAPACITY)
      ∧ (remember_stubs .new calls).count.toNat = (stored_after calls).card
      ∧ (∀ return_address, matches_iat_stub (remember_stubs .new calls) return_address = true
        ↔ THUNK_RETURN_OFFSET ≤ return_address ∧ return_address - THUNK_RETURN_OFFSET ≠ 0
          ∧ return_address - THUNK_RETURN_OFFSET ∈ stored_after calls)
      ∧ ∀ address, ∃ i ∈ stub_probe address, (remember_stubs .new calls).slots i = address
        ∨ (remember_stubs .new calls).slots i = 0 := by
  obtain ⟨hok, hstored⟩ := ok_new.remember_stubs calls
  rw [stored_new] at hstored
  refine ⟨fun address => ?_, ?_, fun return_address => ?_, fun address => ?_⟩
  · rw [(hok.remember_stub address).1, hstored, stored_after]
  · rw [hok.count, hstored, stored_after]
  · rw [hok.matches_iat_stub, hstored, stored_after]
  · obtain ⟨i, hi⟩ := hok.settles address
    exact ⟨i, mem_stub_probe address i, (Probing.settle_eq_some.mp hi).1.symm⟩

end Linuwux.StubSet
