/-
`SyscallHistoryInvariant.lean` -- what holds of `History` in every interleaving.

A slot's sequence only grows, `WRITING_BIT` left out. So a visitor that has seen its ticket in the
slot either still sees it, and what it has copied is what the slot holds, or the sequence is past
the ticket for good.
-/
import Linuwux.SyscallHistory

set_option autoImplicit false

namespace Linuwux.SyscallHistory

open Threads (Config Outcome)

/-! ## What is said of one handler -/

/-- The ticket of a call of `record` that is under way, and its event. -/
def Pc.record : Pc → Option (UInt64 × Event)
  | .load k e | .claim k e _ | .store k e _ | .publish k e => some (k, e)
  | _ => none

/-- The ticket whose slot the handler is filling. -/
def Pc.holding : Pc → Option UInt64
  | .store k _ _ | .publish k _ => some k
  | _ => none

section Handler

-- The tickets drawn so far, with the events they are for.
variable (D : List (UInt64 × Event)) (m : History)

def Drawn (k : UInt64) (e : Event) : Prop := D[k.toNat]? = some (k, e)

/-- The ticket has not been in its slot. -/
def Fresh (k : UInt64) : Prop := base (m.slot k).sequence ≠ k.toNat + 1

/-- The slot is the ticket's, and its first `i` fields are stored. -/
def Held (k : UInt64) (e : Event) (i : ℕ) : Prop :=
  (m.slot k).sequence = claimed k ∧ ∀ j : Fin FIELD_COUNT, (j : ℕ) < i → (m.slot k).fields j = e j

/-- The first `i` fields were copied since the ticket was seen in the slot. -/
def Copied (k : UInt64) (i : ℕ) (f : Event) : Prop :=
  ((m.slot k).sequence = k + 1 ∧
      ∀ j : Fin FIELD_COUNT, (j : ℕ) < i → f j = (m.slot k).fields j) ∨
    k.toNat + 1 < base (m.slot k).sequence

def HandlerOk : Pc → Prop
  | .idle => True
  | .load k e => Drawn D k e ∧ Fresh m k
  | .claim k e current => Drawn D k e ∧ Fresh m k ∧ current.toNat ≤ k.toNat + 1 ∧
      current.toNat < 2 ^ 63
  | .store k e i => Drawn D k e ∧ Held m k e i
  | .publish k e => Drawn D k e ∧ Held m k e FIELD_COUNT
  | .scan stop _ => stop.toNat ≤ D.length
  | .copy stop k i f => stop.toNat ≤ D.length ∧ k < stop ∧ Copied m k i f
  | .recheck stop k f => stop.toNat ≤ D.length ∧ k < stop ∧ Copied m k FIELD_COUNT f

end Handler

variable {D D' : List (UInt64 × Event)} {m m' : History} {k : UInt64} {e : Event} {pc : Pc}

theorem Drawn.lt (h : Drawn D k e) : k.toNat < D.length := (List.getElem?_eq_some_iff.mp h).1

/-- What was drawn stays drawn. -/
theorem Drawn.append (h : Drawn D k e) (more : List (UInt64 × Event)) : Drawn (D ++ more) k e := by
  unfold Drawn
  rw [List.getElem?_append_left h.lt]
  exact h

/-- A call that records has drawn its ticket. -/
theorem HandlerOk.record_drawn (h : HandlerOk D m pc) (hr : pc.record = some (k, e)) :
    Drawn D k e := by
  cases pc with
  | load | claim | store | publish =>
    cases hr
    exact h.1
  | idle | scan | copy | recheck => cases hr

/-- Other handlers' draws, and the slots left alone. -/
theorem HandlerOk.frame (h : HandlerOk D m pc) (hslots : m'.slots = m.slots)
    (more : List (UInt64 × Event)) : HandlerOk (D ++ more) m' pc := by
  have hslot : ∀ k, m'.slot k = m.slot k := fun k => by rw [History.slot, hslots, History.slot]
  have hle : D.length ≤ (D ++ more).length := by
    rw [List.length_append]
    omega
  cases pc with
  | idle => trivial
  | load k e => exact ⟨h.1.append more, by rw [Fresh, hslot]; exact h.2⟩
  | claim k e current => exact ⟨h.1.append more, by rw [Fresh, hslot]; exact h.2.1, h.2.2⟩
  | store k e i => exact ⟨h.1.append more, by rw [Held, hslot]; exact h.2⟩
  | publish k e => exact ⟨h.1.append more, by rw [Held, hslot]; exact h.2⟩
  | scan stop k => exact le_trans h hle
  | copy stop k i f => exact ⟨le_trans h.1 hle, h.2.1, by rw [Copied, hslot]; exact h.2.2⟩
  | recheck stop k f => exact ⟨le_trans h.1 hle, h.2.1, by rw [Copied, hslot]; exact h.2.2⟩

/-- After the store of a field the call goes on to the next one, or to the publication. -/
theorem handlerOk_stored {i : Fin FIELD_COUNT} (hd : Drawn D k e) (h : Held m k e (i + 1)) :
    HandlerOk D m (.stored k e i) := by
  unfold Pc.stored
  split
  · exact ⟨hd, h⟩
  · next hlast =>
    have hi : (i : ℕ) + 1 = FIELD_COUNT := by
      have := i.isLt
      omega
    exact ⟨hd, hi ▸ h⟩

/-- After the load of a field the visit goes on to the next one, or looks at the sequence again.
-/
theorem handlerOk_copied {stop : UInt64} {i : Fin FIELD_COUNT} {f : Event}
    (hstop : stop.toNat ≤ D.length) (hlt : k < stop) (h : Copied m k (i + 1) f) :
    HandlerOk D m (.copied stop k i f) := by
  unfold Pc.copied
  split
  · exact ⟨hstop, hlt, h⟩
  · next hlast =>
    have hi : (i : ℕ) + 1 = FIELD_COUNT := by
      have := i.isLt
      omega
    exact ⟨hstop, hlt, hi ▸ h⟩

@[simp] theorem record_stored (i : Fin FIELD_COUNT) : (Pc.stored k e i).record = some (k, e) := by
  unfold Pc.stored
  split <;> rfl

@[simp] theorem holding_stored (i : Fin FIELD_COUNT) : (Pc.stored k e i).holding = some k := by
  unfold Pc.stored
  split <;> rfl

@[simp] theorem record_copied (stop : UInt64) (i : Fin FIELD_COUNT) (f : Event) :
    (Pc.copied stop k i f).record = none := by
  unfold Pc.copied
  split <;> rfl

@[simp] theorem holding_copied (stop : UInt64) (i : Fin FIELD_COUNT) (f : Event) :
    (Pc.copied stop k i f).holding = none := by
  unfold Pc.copied
  split <;> rfl

/-! ## A handler in the slot of its ticket -/

/-- **A step in the slot of the ticket `k`**: the slot was an older ticket's, or `k`'s already, and
`k`'s it is. -/
structure InSlot (m m' : History) (k : UInt64) : Prop where
  next : m'.next = m.next
  others : ∀ s, s ≠ slot_of k → m'.slots s = m.slots s
  before : (m.slot k).sequence.toNat < k.toNat + 1 ∨ (m.slot k).sequence = claimed k
  base : base (m'.slot k).sequence = k.toNat + 1

section InSlot

variable {k' : UInt64} (hs : InSlot m m' k) (hk : k.toNat + 1 < 2 ^ 63)
include hs hk

/-- The slot is the ticket's own, or was an older one's. -/
theorem InSlot.base_le : SyscallHistory.base (m.slot k).sequence ≤ k.toNat + 1 := by
  obtain h | h := hs.before
  · rw [base_of_lt (by omega)]
    omega
  · rw [h, base_claimed hk]

omit hk in
/-- The other slots are as they were. -/
theorem InSlot.slot_eq (hne : slot_of k' ≠ slot_of k) : m'.slot k' = m.slot k' :=
  hs.others _ hne

omit hk in
theorem InSlot.fresh (h : Fresh m k') (hne : k' ≠ k) : Fresh m' k' := by
  unfold Fresh
  by_cases hslot : slot_of k' = slot_of k
  · rw [History.slot, hslot]
    intro heq
    exact hne (UInt64.toNat_inj.mp (by have := hs.base.symm.trans heq; omega))
  · rw [hs.slot_eq hslot]
    exact h

/-- A slot held by another call stays so. -/
theorem InSlot.held {i : ℕ} (h : Held m k' e i) (hk' : k'.toNat + 1 < 2 ^ 63) (hne : k' ≠ k) :
    Held m' k' e i := by
  by_cases hslot : slot_of k' = slot_of k
  · -- The slot cannot be the other handler's: it is older than `k`, or `k`'s.
    exfalso
    have hseq : (m.slot k).sequence = claimed k' := by
      rw [← h.1, History.slot, History.slot, hslot]
    obtain hold | hown := hs.before
    · rw [hseq, claimed_toNat hk'] at hold
      omega
    · exact hne (claimed_injective hk' hk (hseq.symm.trans hown))
  · rw [Held, hs.slot_eq hslot]
    exact h

/-- A copy under way stays right, or the slot's sequence tells that it is not. -/
theorem InSlot.copied {i : ℕ} {f : Event} (h : Copied m k' i f) (hk' : k'.toNat + 1 < 2 ^ 63) :
    Copied m' k' i f := by
  by_cases hslot : slot_of k' = slot_of k
  · right
    have hsame : m.slot k' = m.slot k := by rw [History.slot, hslot, History.slot]
    have hsame' : m'.slot k' = m'.slot k := by rw [History.slot, hslot, History.slot]
    rw [hsame', hs.base]
    obtain ⟨hseq, -⟩ | hpast := h
    · rw [hsame] at hseq
      have hnat : (m.slot k).sequence.toNat = k'.toNat + 1 := by rw [hseq, sequence_toNat hk']
      obtain hold | hown := hs.before
      · omega
      · rw [hown, claimed_toNat hk] at hnat
        omega
    · rw [hsame] at hpast
      exact lt_of_lt_of_le hpast (hs.base_le hk)
  · rw [Copied, hs.slot_eq hslot]
    exact h

/-- The other handlers. -/
theorem HandlerOk.inSlot (h : HandlerOk D m pc) (hD : D.length < 2 ^ 63)
    (hne : ∀ k' e', pc.record = some (k', e') → k' ≠ k) : HandlerOk D m' pc := by
  have hread : ∀ {stop k' : UInt64}, stop.toNat ≤ D.length → k' < stop →
      k'.toNat + 1 < 2 ^ 63 := by
    intro stop k' hstop hlt
    have hnat := UInt64.lt_iff_toNat_lt.mp hlt
    omega
  cases pc with
  | idle => trivial
  | load k' e' => exact ⟨h.1, hs.fresh h.2 (hne k' e' rfl)⟩
  | claim k' e' current => exact ⟨h.1, hs.fresh h.2.1 (hne k' e' rfl), h.2.2⟩
  | store k' e' i =>
    have hlt := h.1.lt
    exact ⟨h.1, hs.held hk h.2 (by omega) (hne k' e' rfl)⟩
  | publish k' e' =>
    have hlt := h.1.lt
    exact ⟨h.1, hs.held hk h.2 (by omega) (hne k' e' rfl)⟩
  | scan stop k' => exact h
  | copy stop k' i f =>
    exact ⟨h.1, h.2.1, hs.copied hk h.2.2 (hread h.1 h.2.1)⟩
  | recheck stop k' f =>
    exact ⟨h.1, h.2.1, hs.copied hk h.2.2 (hread h.1 h.2.1)⟩

end InSlot

/-! ## Every handler -/

/-- The ticket and the event that a step shows to be drawn. -/
def Shown.drawn : Shown → Option (UInt64 × Event)
  | .drew k e => some (k, e)
  | _ => none

/-- The slot has not been used, or holds the event that its sequence is the ticket of. -/
def Published (D : List (UInt64 × Event)) (s : Fin HISTORY_CAPACITY) (slot : Slot) : Prop :=
  slot.sequence = 0 ∨ ∃ k e, Drawn D k e ∧ slot_of k = s ∧ slot.sequence = k + 1 ∧ slot.fields = e

/-- What was published stays published. -/
theorem Published.append {s : Fin HISTORY_CAPACITY} {slot : Slot} (h : Published D s slot)
    (more : List (UInt64 × Event)) : Published (D ++ more) s slot := by
  obtain h | ⟨k, e, hd, hrest⟩ := h
  · exact .inl h
  · exact .inr ⟨k, e, hd.append more, hrest⟩

variable {T : Type*}

/-- **What holds of the history and its handlers.** -/
structure Sound (D : List (UInt64 × Event)) (c : Config T History Pc) : Prop where
  bound : D.length < 2 ^ 63
  next : c.mem.next.toNat = D.length
  ticket : ∀ (j : ℕ) (k : UInt64) (e : Event), D[j]? = some (k, e) → k.toNat = j
  handler : ∀ t, HandlerOk D c.mem (c.loc t)
  /-- No two calls are recording under one ticket. -/
  unique : ∀ t u k e e', (c.loc t).record = some (k, e) → (c.loc u).record = some (k, e') → t = u
  published : ∀ s, (c.mem.slots s).sequence.toNat < 2 ^ 63 → Published D s (c.mem.slots s)
  writer : ∀ s, 2 ^ 63 ≤ (c.mem.slots s).sequence.toNat →
    ∃ t k, (c.loc t).holding = some k ∧ slot_of k = s

/-- The empty history is sound. -/
theorem sound_new : Sound (T := T) [] ⟨.new, fun _ => .idle⟩ where
  bound := by decide
  next := rfl
  ticket _ _ _ h := by cases h
  handler _ := trivial
  unique _ _ _ _ _ h := by cases h
  published _ _ := .inl rfl
  writer _ h := absurd h (show ¬ 2 ^ 63 ≤ 0 by decide)

/-- A call that holds its slot is recording. -/
theorem Pc.record_of_holding (h : pc.holding = some k) : ∃ e, pc.record = some (k, e) := by
  cases pc with
  | store k' e i | publish k' e =>
    cases h
    exact ⟨e, rfl⟩
  | idle | load | claim | scan | copy | recheck => cases h

/-- A slot with the sequence of a ticket has the ticket's event. -/
theorem slot_of_published (hk : k.toNat + 1 < 2 ^ 63) {s : Fin HISTORY_CAPACITY} {slot : Slot}
    (h : Published D s slot) (hD : D.length < 2 ^ 63) (hseq : slot.sequence = k + 1) :
    Drawn D k slot.fields := by
  obtain h0 | ⟨k', e, hd, -, hseq', hfields⟩ := h
  · have hnat := congrArg UInt64.toNat (hseq.symm.trans h0)
    rw [sequence_toNat hk] at hnat
    cases hnat
  · have hlt := hd.lt
    have hnat := congrArg UInt64.toNat (hseq.symm.trans hseq')
    rw [sequence_toNat hk, sequence_toNat (by omega)] at hnat
    have hkk : k = k' := UInt64.toNat_inj.mp (by omega)
    rw [hkk, hfields]
    exact hd

/-- A handler is in the slot of its ticket. -/
theorem HandlerOk.claimed (hok : HandlerOk D m pc) (h : pc.holding = some k) :
    (m.slot k).sequence = claimed k := by
  cases pc with
  | store k' e i | publish k' e =>
    cases h
    exact hok.2.1
  | idle | load | claim | scan | copy | recheck => cases h

/-- The next ticket has not been in its slot. -/
theorem Sound.fresh_next {c : Config T History Pc} (h : Sound D c)
    (hbound : D.length + 1 < 2 ^ 63) :
    Fresh c.mem c.mem.next := by
  unfold Fresh
  rw [h.next]
  by_cases hs : (c.mem.slot c.mem.next).sequence.toNat < 2 ^ 63
  · rw [base_of_lt hs]
    intro heq
    obtain h0 | ⟨k, e, hd, -, hk, -⟩ := h.published _ hs
    · rw [History.slot, h0] at heq
      cases heq
    · have hlt := hd.lt
      rw [History.slot, hk, sequence_toNat (by omega)] at heq
      omega
  · -- A handler is in the slot, with a ticket that is drawn.
    obtain ⟨u, k, hu, hk⟩ := h.writer (slot_of c.mem.next) (by
      rw [← History.slot]
      omega)
    obtain ⟨e, hrec⟩ := Pc.record_of_holding hu
    have hlt := ((h.handler u).record_drawn hrec).lt
    rw [History.slot, ← hk, ← History.slot, (h.handler u).claimed hu, base_claimed (by omega)]
    omega

section Steps

variable [DecidableEq T] {c : Config T History Pc} {t : T} {pc' : Pc} {es : List Shown}

/-- No two calls have one ticket afterwards, if the call that steps has none of another's. -/
theorem Sound.unique_after (h : Sound D c) {o : Outcome History Pc Shown}
    (hown : ∀ u, u ≠ t → ∀ k e e', o.loc.record = some (k, e) → (c.loc u).record ≠ some (k, e'))
    (u v : T) (k : UInt64) (e e' : Event) (hu : ((c.after t o).loc u).record = some (k, e))
    (hv : ((c.after t o).loc v).record = some (k, e')) : u = v := by
  by_cases hut : u = t
  · by_cases hvt : v = t
    · rw [hut, hvt]
    · rw [hut, Config.after_loc_self] at hu
      rw [Config.after_loc_of_ne _ _ hvt] at hv
      exact absurd hv (hown v hvt k e e' hu)
  · rw [Config.after_loc_of_ne _ _ hut] at hu
    by_cases hvt : v = t
    · rw [hvt, Config.after_loc_self] at hv
      exact absurd hu (hown u hut k e' e hv)
    · rw [Config.after_loc_of_ne _ _ hvt] at hv
      exact h.unique u v k e e' hu hv

/-- A step that leaves the history alone and draws nothing. -/
theorem Sound.quiet (h : Sound D c) (hok : HandlerOk D c.mem pc')
    (hrec : ∀ k e, pc'.record = some (k, e) → (c.loc t).record = some (k, e))
    (hhold : pc'.holding = (c.loc t).holding) : Sound D (c.after t ⟨c.mem, pc', es⟩) := by
  refine ⟨h.bound, h.next, h.ticket, Config.forall_after hok fun u _ => h.handler u,
    h.unique_after fun u hut k e e' hnew hu => hut (h.unique u t k e' e hu (hrec k e hnew)),
    h.published, fun s hs => ?_⟩
  obtain ⟨u, k, hu, hk⟩ := h.writer s hs
  refine ⟨u, k, ?_, hk⟩
  by_cases hut : u = t
  · rw [hut, Config.after_loc_self, hhold, ← hut]
    exact hu
  · rw [Config.after_loc_of_ne _ _ hut]
    exact hu

/-- A call of `record` draws the next ticket. -/
theorem Sound.draw (h : Sound D c) (e : Event) (hidle : c.loc t = .idle)
    (hbound : D.length + 1 < 2 ^ 63) :
    Sound (D ++ [(c.mem.next, e)])
      (c.after t ⟨{ c.mem with next := c.mem.next + 1 }, .load c.mem.next e, es⟩) := by
  have hnext := h.next
  have hnew : Drawn (D ++ [(c.mem.next, e)]) c.mem.next e := by
    unfold Drawn
    rw [hnext, List.getElem?_concat_length]
  -- Tickets that are drawn already are smaller.
  have hother : ∀ u e', (c.loc u).record ≠ some (c.mem.next, e') := by
    intro u e' hu
    have hlt := ((h.handler u).record_drawn hu).lt
    omega
  refine ⟨by simpa using hbound, ?_, fun j k e' hj => ?_,
    Config.forall_after ⟨hnew, h.fresh_next hbound⟩ fun u _ => (h.handler u).frame rfl _,
    h.unique_after fun u _ k e₁ e₂ hrec => ?_, fun s hs => (h.published s hs).append _,
    fun s hs => ?_⟩
  · show (c.mem.next + 1).toNat = _
    rw [sequence_toNat (by omega), List.length_append, List.length_singleton, hnext]
  · rw [List.getElem?_append] at hj
    split at hj
    · exact h.ticket j k e' hj
    · next hle =>
      obtain ⟨hlt, heq⟩ := List.getElem?_eq_some_iff.mp hj
      rw [List.length_singleton] at hlt
      have hlast : j = D.length := by omega
      rw [List.getElem_singleton] at heq
      cases heq
      rw [hnext, hlast]
  · cases hrec
    exact hother u e₂
  · obtain ⟨u, k, hu, hk⟩ := h.writer s hs
    refine ⟨u, k, ?_, hk⟩
    have hut : u ≠ t := by
      rintro rfl
      rw [hidle] at hu
      cases hu
    rw [Config.after_loc_of_ne _ _ hut]
    exact hu

/-- A step in the slot of the handler's ticket. -/
theorem Sound.inSlot (h : Sound D c) (hrec : (c.loc t).record = some (k, e))
    (hs : InSlot c.mem m' k) (hok : HandlerOk D m' pc')
    (hrec' : ∀ k' e', pc'.record = some (k', e') → k' = k)
    (hpub : (m'.slot k).sequence.toNat < 2 ^ 63 → Published D (slot_of k) (m'.slot k))
    (hhold : 2 ^ 63 ≤ (m'.slot k).sequence.toNat → pc'.holding = some k) :
    Sound D (c.after t ⟨m', pc', es⟩) := by
  have hlt := ((h.handler t).record_drawn hrec).lt
  have hbound := h.bound
  have hne : ∀ u, u ≠ t → ∀ k' e', (c.loc u).record = some (k', e') → k' ≠ k := by
    intro u hut k' e' hu heq
    exact hut (h.unique u t k e' e (heq ▸ hu) hrec)
  refine ⟨hbound, hs.next.symm ▸ h.next, h.ticket,
    Config.forall_after hok fun u hut => (h.handler u).inSlot hs (by omega) hbound (hne u hut),
    h.unique_after fun u hut k' e₁ e₂ hown hu => hne u hut k' e₂ hu (hrec' k' e₁ hown),
    fun s hlt' => ?_, fun s hle => ?_⟩
  · by_cases hsk : s = slot_of k
    · subst hsk
      exact hpub hlt'
    · rw [Config.after_mem] at hlt' ⊢
      rw [hs.others s hsk] at hlt' ⊢
      exact h.published s hlt'
  · by_cases hsk : s = slot_of k
    · subst hsk
      exact ⟨t, k, by rw [Config.after_loc_self]; exact hhold hle, rfl⟩
    · rw [Config.after_mem, hs.others s hsk] at hle
      obtain ⟨u, k', hu, hk'⟩ := h.writer s hle
      refine ⟨u, k', ?_, hk'⟩
      have hut : u ≠ t := by
        rintro rfl
        obtain ⟨e', hu'⟩ := Pc.record_of_holding hu
        rw [hrec] at hu'
        cases hu'
        exact hsk hk'.symm
      rw [Config.after_loc_of_ne _ _ hut]
      exact hu

/-! ### The steps of `record` -/

/-- The claim changes its own slot only. -/
theorem inSlot_claim (hlt : (m.slot k).sequence.toNat < k.toNat + 1)
    (hk : k.toNat + 1 < 2 ^ 63) : InSlot m (m.store_sequence k (claimed k)) k where
  next := rfl
  others _ hs := m.store_sequence_other k _ hs
  before := .inl hlt
  base := by rw [History.store_sequence_slot, base_claimed hk]

/-- A store of a field changes its own slot only. -/
theorem inSlot_store (hseq : (m.slot k).sequence = claimed k) (hk : k.toNat + 1 < 2 ^ 63)
    (i : Fin FIELD_COUNT) (w : UInt64) : InSlot m (m.store_field k i w) k where
  next := rfl
  others _ hs := m.store_field_other k i w hs
  before := .inr hseq
  base := by rw [History.store_field_slot, hseq, base_claimed hk]

/-- The publication changes its own slot only. -/
theorem inSlot_publish (hseq : (m.slot k).sequence = claimed k) (hk : k.toNat + 1 < 2 ^ 63) :
    InSlot m (m.store_sequence k (k + 1)) k where
  next := rfl
  others _ hs := m.store_sequence_other k _ hs
  before := .inr hseq
  base := by
    rw [History.store_sequence_slot, base_of_lt (by rw [sequence_toNat hk]; exact hk),
      sequence_toNat hk]

/-- A store makes one field more the event's. -/
theorem Held.store {i : Fin FIELD_COUNT} (h : Held m k e i) :
    Held (m.store_field k i (e i)) k e (i + 1) := by
  unfold Held
  rw [History.store_field_slot]
  refine ⟨h.1, fun j hj => ?_⟩
  by_cases hji : j = i
  · rw [hji]
    exact Function.update_self ..
  · have hne : (j : ℕ) ≠ i := fun heq => hji (Fin.ext heq)
    exact (Function.update_of_ne hji ..).trans (h.2 j (by omega))

/-- A load makes one field more the slot's. -/
theorem Copied.copy {i : Fin FIELD_COUNT} {f : Event} (h : Copied m k i f) :
    Copied m k (i + 1) (Function.update f i ((m.slot k).fields i)) := by
  obtain ⟨hseq, hf⟩ | hpast := h
  · refine .inl ⟨hseq, fun j hj => ?_⟩
    by_cases hji : j = i
    · rw [hji, Function.update_self]
    · have hne : (j : ℕ) ≠ i := fun heq => hji (Fin.ext heq)
      rw [Function.update_of_ne hji]
      exact hf j (by omega)
  · exact .inr hpast

/-- **Every step keeps it**, as long as the tickets do not reach `WRITING_BIT`. -/
theorem Sound.step (h : Sound D c) (hm : Moves c.mem (c.loc t) m' pc' es)
    (hbound : (D ++ es.filterMap Shown.drawn).length < 2 ^ 63) :
    Sound (D ++ es.filterMap Shown.drawn) (c.after t ⟨m', pc', es⟩) := by
  have hok := h.handler t
  have hD := h.bound
  generalize hpc : c.loc t = pc at hm hok
  cases hm with
  | draw e => exact h.draw e hpc (by simpa [Shown.drawn] using hbound)
  | begin =>
    rw [show [Shown.began c.mem.next].filterMap Shown.drawn = [] from rfl, List.append_nil]
    exact h.quiet (le_of_eq h.next) (fun _ _ h' => by cases h') (by rw [hpc]; rfl)
  | drop _ =>
    rw [List.filterMap_nil, List.append_nil]
    exact h.quiet trivial (fun _ _ h' => by cases h') (by rw [hpc]; rfl)
  | @check k e hfree hle =>
    have hlt := hok.1.lt
    have hle' := UInt64.le_iff_toNat_le.mp hle
    rw [sequence_toNat (by omega)] at hle'
    rw [List.filterMap_nil, List.append_nil]
    exact h.quiet ⟨hok.1, hok.2, hle', hfree⟩ (fun k e h' => by rw [hpc]; exact h')
      (by rw [hpc]; rfl)
  | claim k e =>
    obtain ⟨hd, hfresh, hle, hfree⟩ := hok
    have hlt := hd.lt
    have hk : k.toNat + 1 < 2 ^ 63 := by omega
    -- The ticket is fresh, so what the slot holds is older.
    have hold : (c.mem.slot k).sequence.toNat < k.toNat + 1 := by
      have hne : (c.mem.slot k).sequence.toNat ≠ k.toNat + 1 := by
        rw [← base_of_lt hfree]
        exact hfresh
      omega
    rw [List.filterMap_nil, List.append_nil]
    refine h.inSlot (k := k) (e := e) (by rw [hpc]; rfl) (inSlot_claim hold hk)
      ⟨hd, by rw [History.store_sequence_slot], fun j hj => absurd hj (Nat.not_lt_zero _)⟩
      (fun k' e' h' => by cases h'; rfl) (fun hlt' => ?_) fun _ => rfl
    rw [History.store_sequence_slot, claimed_toNat hk] at hlt'
    omega
  | @lost k current e _ =>
    rw [List.filterMap_nil, List.append_nil]
    exact h.quiet ⟨hok.1, hok.2.1⟩ (fun k e h' => by rw [hpc]; exact h') (by rw [hpc]; rfl)
  | store k e i =>
    obtain ⟨hd, hheld⟩ := hok
    have hlt := hd.lt
    have hk : k.toNat + 1 < 2 ^ 63 := by omega
    rw [List.filterMap_nil, List.append_nil]
    refine h.inSlot (k := k) (e := e) (by rw [hpc]; rfl) (inSlot_store hheld.1 hk i (e i))
      (handlerOk_stored hd hheld.store) (fun k' e' h' => ?_) (fun hlt' => ?_)
      fun _ => holding_stored i
    · rw [record_stored] at h'
      cases h'
      rfl
    · rw [History.store_field_slot] at hlt'
      have hlt'' : (c.mem.slot k).sequence.toNat < 2 ^ 63 := hlt'
      rw [hheld.1, claimed_toNat hk] at hlt''
      omega
  | publish k e =>
    obtain ⟨hd, hheld⟩ := hok
    have hlt := hd.lt
    have hk : k.toNat + 1 < 2 ^ 63 := by omega
    rw [List.filterMap_nil, List.append_nil]
    refine h.inSlot (k := k) (e := e) (by rw [hpc]; rfl) (inSlot_publish hheld.1 hk) trivial
      (fun _ _ h' => by cases h') (fun _ => ?_) fun hle => ?_
    · refine .inr ⟨k, e, hd, rfl, by rw [History.store_sequence_slot], ?_⟩
      rw [History.store_sequence_slot]
      exact funext fun j => hheld.2 j j.isLt
    · rw [History.store_sequence_slot, sequence_toNat hk] at hle
      omega
  | @skip stop k _ _ =>
    rw [List.filterMap_nil, List.append_nil]
    exact h.quiet (show HandlerOk D c.mem (.scan stop (k + 1)) from hok)
      (fun _ _ h' => by cases h') (by rw [hpc]; rfl)
  | @enter stop k hlt hseq =>
    rw [List.filterMap_nil, List.append_nil]
    have hcopy : HandlerOk D c.mem (.copy stop k first_field fun _ => 0) :=
      ⟨hok, hlt, .inl ⟨hseq, fun j hj => absurd hj (Nat.not_lt_zero _)⟩⟩
    exact h.quiet hcopy
      (fun _ _ h' => by cases h') (by rw [hpc]; rfl)
  | finish _ =>
    rw [show [Shown.ended].filterMap Shown.drawn = [] from rfl, List.append_nil]
    exact h.quiet trivial (fun _ _ h' => by cases h') (by rw [hpc]; rfl)
  | copy stop k i f =>
    rw [List.filterMap_nil, List.append_nil]
    exact h.quiet (handlerOk_copied hok.1 hok.2.1 hok.2.2.copy)
      (fun _ _ h' => by rw [record_copied] at h'; cases h') (by rw [hpc, holding_copied]; rfl)
  | @visit stop k f _ =>
    rw [show [Shown.visited k f].filterMap Shown.drawn = [] from rfl, List.append_nil]
    exact h.quiet (show HandlerOk D c.mem (.scan stop (k + 1)) from hok.1)
      (fun _ _ h' => by cases h') (by rw [hpc]; rfl)
  | @discard stop k f _ =>
    rw [List.filterMap_nil, List.append_nil]
    exact h.quiet (show HandlerOk D c.mem (.scan stop (k + 1)) from hok.1)
      (fun _ _ h' => by cases h') (by rw [hpc]; rfl)

omit [DecidableEq T] in
/-- **What a visitor takes for an event is one.** -/
theorem Sound.visited {f : Event} {stop : UInt64} (h : Sound D c)
    (hpc : c.loc t = .recheck stop k f) (hseq : (c.mem.slot k).sequence = k + 1) :
    Drawn D k f := by
  have hok := h.handler t
  rw [hpc] at hok
  obtain ⟨hstop, hlt, hcopied⟩ := hok
  have hD := h.bound
  have hnat := UInt64.lt_iff_toNat_lt.mp hlt
  have hk : k.toNat + 1 < 2 ^ 63 := by omega
  have hfree : (c.mem.slot k).sequence.toNat < 2 ^ 63 := by
    rw [hseq, sequence_toNat hk]
    exact hk
  obtain ⟨-, hf⟩ | hpast := hcopied
  · rw [show f = (c.mem.slot k).fields from funext fun j => hf j j.isLt]
    exact slot_of_published hk (h.published _ hfree) hD hseq
  · rw [base_of_lt hfree, hseq, sequence_toNat hk] at hpast
    omega

end Steps

end Linuwux.SyscallHistory
