/-
`SyscallHistory.lean` -- `History` of `syscall/diagnostics.rs` in any number of signal handlers.

A handler that records draws a ticket and competes for the ticket's slot, whose sequence word says
who is in it: `WRITING_BIT` is set while one handler fills the fields, and what is left when it is
done is its ticket and one. A visitor reads the sequence, copies the fields and reads the sequence
again. `Moves` says once what a step can do; the invariants come in `SyscallHistoryInvariant`.

A handler that interrupts another one is a thread of its own.
-/
import Linuwux.Threads
import Mathlib.Data.Fintype.Pi
import Mathlib.Data.Nat.Bitwise

set_option autoImplicit false

namespace Linuwux.SyscallHistory

open Threads (Program Outcome)

def HISTORY_CAPACITY : ℕ := 32
def FIELD_COUNT : ℕ := 13
/-- `1 << 63`. -/
def WRITING_BIT : UInt64 := 0x8000000000000000

/-- `Event`: its fields. -/
abbrev Event := Fin FIELD_COUNT → UInt64

structure Slot where
  sequence : UInt64
  fields : Event

structure History where
  next : UInt64
  slots : Fin HISTORY_CAPACITY → Slot

def History.new : History := ⟨0, fun _ => ⟨0, fun _ => 0⟩⟩

/-- `ticket as usize % HISTORY_CAPACITY`. -/
def slot_of (ticket : UInt64) : Fin HISTORY_CAPACITY :=
  ⟨ticket.toNat % HISTORY_CAPACITY, Nat.mod_lt _ (by decide)⟩

namespace History

/-- The slot of a ticket. -/
def slot (h : History) (ticket : UInt64) : Slot := h.slots (slot_of ticket)

def store_sequence (h : History) (ticket sequence : UInt64) : History :=
  { h with
    slots := Function.update h.slots (slot_of ticket) { h.slot ticket with sequence } }

def store_field (h : History) (ticket : UInt64) (i : Fin FIELD_COUNT) (value : UInt64) : History :=
  { h with
    slots := Function.update h.slots (slot_of ticket)
      { h.slot ticket with fields := Function.update (h.slot ticket).fields i value } }

end History

/-- What an idle handler does. -/
inductive Call
  | record (event : Event)
  | visit_recent

/-- What a step shows: the ticket that a call of `record` drew, a visit that begins with the number
of tickets drawn so far, an event visited, and the end of a visit. -/
inductive Shown
  | drew (ticket : UInt64) (event : Event)
  | began (stop : UInt64)
  | visited (ticket : UInt64) (event : Event)
  | ended

/-- Which of the four it is, and what it carries. -/
def Shown.parts : Shown → Fin 4 × UInt64 × Event
  | .drew ticket event => (0, ticket, event)
  | .began stop => (1, stop, fun _ => 0)
  | .visited ticket event => (2, ticket, event)
  | .ended => (3, 0, fun _ => 0)

theorem Shown.parts_injective : Function.Injective Shown.parts := by
  intro a b h
  cases a <;> cases b <;> simp_all [Shown.parts]

-- The derived instance would not reduce, as events are functions.
instance : DecidableEq Shown := fun a b =>
  decidable_of_iff (a.parts = b.parts) ⟨fun h => Shown.parts_injective h, congrArg Shown.parts⟩

/-- The access a handler is about to make. -/
inductive Pc
  | idle
  | load (ticket : UInt64) (event : Event)
  | claim (ticket : UInt64) (event : Event) (current : UInt64)
  | store (ticket : UInt64) (event : Event) (i : Fin FIELD_COUNT)
  | publish (ticket : UInt64) (event : Event)
  | scan (stop ticket : UInt64)
  | copy (stop ticket : UInt64) (i : Fin FIELD_COUNT) (fields : Event)
  | recheck (stop ticket : UInt64) (fields : Event)

/-- `end.saturating_sub(HISTORY_CAPACITY as u64)`. -/
def start_of (stop : UInt64) : UInt64 := if stop < 32 then 0 else stop - 32

/-- Behind the store of a field. -/
def Pc.stored (ticket : UInt64) (event : Event) (i : Fin FIELD_COUNT) : Pc :=
  if h : i + 1 < FIELD_COUNT then .store ticket event ⟨i + 1, h⟩ else .publish ticket event

/-- Behind the load of a field. -/
def Pc.copied (stop ticket : UInt64) (i : Fin FIELD_COUNT) (fields : Event) : Pc :=
  if h : i + 1 < FIELD_COUNT then .copy stop ticket ⟨i + 1, h⟩ fields
  else .recheck stop ticket fields

def first_field : Fin FIELD_COUNT := ⟨0, by decide⟩

/-- One access of `record` or `visit_recent`. -/
def program (T : Type*) : Program T Call History Pc Shown := fun _ call m pc =>
  match pc with
  | .idle =>
    match call with
    | .record event => ⟨{ m with next := m.next + 1 }, .load m.next event, [.drew m.next event]⟩
    | .visit_recent => ⟨m, .scan m.next (start_of m.next), [.began m.next]⟩
  | .load ticket event =>
    let current := (m.slot ticket).sequence
    if current &&& WRITING_BIT ≠ 0 ∨ ticket + 1 < current then ⟨m, .idle, []⟩
    else ⟨m, .claim ticket event current, []⟩
  | .claim ticket event current =>
    if (m.slot ticket).sequence = current then
      ⟨m.store_sequence ticket ((ticket + 1) ||| WRITING_BIT), .store ticket event first_field, []⟩
    else ⟨m, .load ticket event, []⟩
  | .store ticket event i => ⟨m.store_field ticket i (event i), .stored ticket event i, []⟩
  | .publish ticket _ => ⟨m.store_sequence ticket (ticket + 1), .idle, []⟩
  | .scan stop ticket =>
    if ticket < stop then
      if (m.slot ticket).sequence ≠ ticket + 1 then ⟨m, .scan stop (ticket + 1), []⟩
      else ⟨m, .copy stop ticket first_field fun _ => 0, []⟩
    else ⟨m, .idle, [.ended]⟩
  | .copy stop ticket i fields =>
    ⟨m, .copied stop ticket i (Function.update fields i ((m.slot ticket).fields i)), []⟩
  | .recheck stop ticket fields =>
    ⟨m, .scan stop (ticket + 1),
      if (m.slot ticket).sequence = ticket + 1 then [.visited ticket fields] else []⟩

/-! ## The sequence word -/

/-- The word while the handler with the ticket fills the slot. -/
def claimed (ticket : UInt64) : UInt64 := (ticket + 1) ||| WRITING_BIT

/-- The word without `WRITING_BIT`, as a number. -/
def base (word : UInt64) : ℕ := word.toNat % 2 ^ 63

theorem writing_bit : WRITING_BIT.toNat = 2 ^ 63 := rfl

/-- Whether a slot is claimed is read off the highest bit of its sequence. -/
theorem writing_iff (word : UInt64) : word &&& WRITING_BIT ≠ 0 ↔ 2 ^ 63 ≤ word.toNat := by
  have hlt : word.toNat < 2 ^ 64 := UInt64.toNat_lt word
  have hbit : word.toNat.testBit 63 = decide (2 ^ 63 ≤ word.toNat) := by
    rw [Nat.testBit_eq_decide_div_mod_eq]
    apply decide_eq_decide.mpr
    omega
  rw [Ne, ← UInt64.toNat_inj, UInt64.toNat_and, writing_bit, Nat.and_two_pow, hbit]
  simp

/-- The sequence of a complete event is the ticket plus one. -/
theorem sequence_toNat {ticket : UInt64} (h : ticket.toNat + 1 < 2 ^ 63) :
    (ticket + 1).toNat = ticket.toNat + 1 := by
  rw [UInt64.toNat_add]
  exact Nat.mod_eq_of_lt (lt_trans h (by decide))

/-- The sequence of a claimed event has the highest bit on top. -/
theorem claimed_toNat {ticket : UInt64} (h : ticket.toNat + 1 < 2 ^ 63) :
    (claimed ticket).toNat = 2 ^ 63 + (ticket.toNat + 1) := by
  rw [claimed, UInt64.toNat_or, writing_bit, sequence_toNat h, Nat.or_comm]
  exact (Nat.two_pow_add_eq_or_of_lt h 1).symm

theorem base_of_lt {word : UInt64} (h : word.toNat < 2 ^ 63) : base word = word.toNat :=
  Nat.mod_eq_of_lt h

/-- Claimed or complete, a sequence tells which ticket it is of. -/
theorem base_claimed {ticket : UInt64} (h : ticket.toNat + 1 < 2 ^ 63) :
    base (claimed ticket) = ticket.toNat + 1 := by
  rw [base, claimed_toNat h, Nat.add_mod_left, Nat.mod_eq_of_lt h]

/-- Two tickets never claim with the same word. -/
theorem claimed_injective {k k' : UInt64} (h : k.toNat + 1 < 2 ^ 63) (h' : k'.toNat + 1 < 2 ^ 63)
    (heq : claimed k = claimed k') : k = k' := by
  have hnat := congrArg UInt64.toNat heq
  rw [claimed_toNat h, claimed_toNat h'] at hnat
  exact UInt64.toNat_inj.mp (by omega)

/-! ## The steps -/

namespace History

variable (h : History) (k : UInt64)

@[simp] theorem store_sequence_next (w : UInt64) : (h.store_sequence k w).next = h.next := rfl

@[simp] theorem store_sequence_slot (w : UInt64) :
    (h.store_sequence k w).slot k = { h.slot k with sequence := w } := by
  simp [slot, store_sequence]

/-- A store of a sequence touches its own slot alone. -/
theorem store_sequence_other (w : UInt64) {s : Fin HISTORY_CAPACITY} (hs : s ≠ slot_of k) :
    (h.store_sequence k w).slots s = h.slots s := Function.update_of_ne hs _ _

@[simp] theorem store_field_next (i : Fin FIELD_COUNT) (w : UInt64) :
    (h.store_field k i w).next = h.next := rfl

@[simp] theorem store_field_slot (i : Fin FIELD_COUNT) (w : UInt64) : (h.store_field k i w).slot k
    = { h.slot k with fields := Function.update (h.slot k).fields i w } := by
  simp [slot, store_field]

/-- A store of a field touches its own slot alone. -/
theorem store_field_other (i : Fin FIELD_COUNT) (w : UInt64) {s : Fin HISTORY_CAPACITY}
    (hs : s ≠ slot_of k) : (h.store_field k i w).slots s = h.slots s := Function.update_of_ne hs _ _

end History

/-- **What a step can do.** -/
inductive Moves (m : History) : Pc → History → Pc → List Shown → Prop
  | draw (event : Event) : Moves m .idle { m with next := m.next + 1 } (.load m.next event)
      [.drew m.next event]
  | begin : Moves m .idle m (.scan m.next (start_of m.next)) [.began m.next]
  | drop {k : UInt64} {e : Event}
      (h : 2 ^ 63 ≤ (m.slot k).sequence.toNat ∨ k + 1 < (m.slot k).sequence) :
      Moves m (.load k e) m .idle []
  | check {k : UInt64} {e : Event} (hfree : (m.slot k).sequence.toNat < 2 ^ 63)
      (hle : (m.slot k).sequence ≤ k + 1) :
      Moves m (.load k e) m (.claim k e (m.slot k).sequence) []
  | claim (k : UInt64) (e : Event) : Moves m (.claim k e (m.slot k).sequence)
      (m.store_sequence k (claimed k)) (.store k e first_field) []
  | lost {k current : UInt64} {e : Event} (h : (m.slot k).sequence ≠ current) :
      Moves m (.claim k e current) m (.load k e) []
  | store (k : UInt64) (e : Event) (i : Fin FIELD_COUNT) :
      Moves m (.store k e i) (m.store_field k i (e i)) (.stored k e i) []
  | publish (k : UInt64) (e : Event) :
      Moves m (.publish k e) (m.store_sequence k (k + 1)) .idle []
  | skip {stop k : UInt64} (hlt : k < stop) (h : (m.slot k).sequence ≠ k + 1) :
      Moves m (.scan stop k) m (.scan stop (k + 1)) []
  | enter {stop k : UInt64} (hlt : k < stop) (h : (m.slot k).sequence = k + 1) :
      Moves m (.scan stop k) m (.copy stop k first_field fun _ => 0) []
  | finish {stop k : UInt64} (hle : stop ≤ k) : Moves m (.scan stop k) m .idle [.ended]
  | copy (stop k : UInt64) (i : Fin FIELD_COUNT) (f : Event) : Moves m (.copy stop k i f) m
      (.copied stop k i (Function.update f i ((m.slot k).fields i))) []
  | visit {stop k : UInt64} {f : Event} (h : (m.slot k).sequence = k + 1) :
      Moves m (.recheck stop k f) m (.scan stop (k + 1)) [.visited k f]
  | discard {stop k : UInt64} {f : Event} (h : (m.slot k).sequence ≠ k + 1) :
      Moves m (.recheck stop k f) m (.scan stop (k + 1)) []

section Shows

variable {m m' : History} {pc pc' : Pc} {es : List Shown}

/-- A step shows one thing at most. -/
theorem Moves.one_shown (h : Moves m pc m' pc' es) : es.length ≤ 1 := by
  cases h <;> simp

/-- An event is visited where the second load of the sequence finds it complete. -/
theorem Moves.visited {k : UInt64} {f : Event} (h : Moves m pc m' pc' [.visited k f]) :
    ∃ stop, pc = .recheck stop k f ∧ (m.slot k).sequence = k + 1 := by
  cases h with
  | visit h => exact ⟨_, rfl, h⟩

/-- A visit ends where it has reached the ticket it was to stop at. -/
theorem Moves.ended (h : Moves m pc m' pc' [.ended]) : ∃ stop k, pc = .scan stop k ∧ stop ≤ k := by
  cases h with
  | finish h => exact ⟨_, _, rfl, h⟩

end Shows

/-- Every step is one of the listed moves. -/
theorem moves {T : Type*} (t : T) (call : Call) (m : History) (pc : Pc) :
    Moves m pc (program T t call m pc).mem (program T t call m pc).loc
      (program T t call m pc).events := by
  cases pc with
  | idle =>
    cases call with
    | record event => exact .draw event
    | visit_recent => exact .begin
  | load k e =>
    simp only [program]
    split
    · next h =>
      rw [writing_iff] at h
      exact .drop h
    · next h =>
      rw [writing_iff] at h
      exact .check (by omega) (UInt64.not_lt.mp fun hlt => h (.inr hlt))
  | claim k e current =>
    simp only [program]
    split
    · next h =>
      subst h
      exact .claim k e
    · next h => exact .lost h
  | store k e i => exact .store k e i
  | publish k e => exact .publish k e
  | scan stop k =>
    simp only [program]
    split
    · next hlt =>
      split
      · next h => exact .skip hlt h
      · next h => exact .enter hlt (not_not.mp h)
    · next hlt => exact .finish (UInt64.not_lt.mp hlt)
  | copy stop k i f => exact .copy stop k i f
  | recheck stop k f =>
    simp only [program]
    split
    · next h => exact .visit h
    · next h => exact .discard h

end Linuwux.SyscallHistory
