/-
`SyscallHistoryVisits.lean` -- what `visit_recent` shows of `History`.

Whatever the interleaving, an event visited is the one its ticket was drawn for, and the tickets of
a visit go up through the last `HISTORY_CAPACITY` that were drawn when it began. Samples may be
missing: a handler drops its own when it meets another in the slot. With one handler at a time none
is. What was recorded is read off the schedule ([`recorded`]), not off the tickets.
-/
import Linuwux.SyscallHistoryInvariant

set_option autoImplicit false

namespace Linuwux.SyscallHistory

open Threads (AllSteps Config Outcome own trace)

variable {T : Type*}

/-! ## The trace -/

/-- The tickets drawn in a trace, with the events they are for. -/
def drawn (tr : List (T × Shown)) : List (UInt64 × Event) := tr.filterMap fun x => x.2.drawn

/-- Tickets are drawn in the order of the trace. -/
theorem drawn_append (tr tr' : List (T × Shown)) : drawn (tr ++ tr') = drawn tr ++ drawn tr' :=
  List.filterMap_append

@[simp] theorem drawn_map (t : T) (es : List Shown) :
    drawn (es.map (Prod.mk t)) = es.filterMap Shown.drawn := by
  unfold drawn
  rw [List.filterMap_map]
  rfl

/-- A step that draws nothing. -/
theorem drawn_step (es : List Shown) (h : es.filterMap Shown.drawn = []) (tr : List (T × Shown))
    (t : T) : drawn (tr ++ es.map (Prod.mk t)) = drawn tr := by
  rw [drawn_append, drawn_map, h, List.append_nil]

/-- None is given back. -/
theorem drawn_length_le {pre tr : List (T × Shown)} (h : pre <+: tr) :
    (drawn pre).length ≤ (drawn tr).length := by
  obtain ⟨rest, rfl⟩ := h
  rw [drawn_append, List.length_append]
  omega

/-- The event that a step of a handler begins to record. -/
def Pc.records (pc : Pc) (call : Call) : List Event :=
  match pc, call with
  | .idle, .record event => [event]
  | _, _ => []

/-- Events with their tickets: the numbers from zero. -/
def numbered (events : List Event) : List (UInt64 × Event) :=
  events.mapIdx fun i event => (UInt64.ofNat i, event)

/-- The visit a handler is in: where it ends, and the ticket it has come to. -/
def Pc.visit : Pc → Option (UInt64 × UInt64)
  | .scan stop k | .copy stop k _ _ | .recheck stop k _ => some (stop, k)
  | _ => none

@[simp] theorem visit_copied (stop k : UInt64) (i : Fin FIELD_COUNT) (f : Event) :
    (Pc.copied stop k i f).visit = some (stop, k) := by
  unfold Pc.copied
  split <;> rfl

@[simp] theorem visit_stored (k : UInt64) (e : Event) (i : Fin FIELD_COUNT) :
    (Pc.stored k e i).visit = none := by
  unfold Pc.stored
  split <;> rfl

/-- A visit starts 32 tickets before the last, or at the first. -/
theorem start_toNat (stop : UInt64) : (start_of stop).toNat = stop.toNat - 32 := by
  unfold start_of
  split
  · next h =>
    have hnat : stop.toNat < 32 := UInt64.lt_iff_toNat_lt.mp h
    rw [Nat.sub_eq_zero_of_le (by omega)]
    rfl
  · next h => exact UInt64.toNat_sub_of_le stop 32 (UInt64.not_lt.mp h)

theorem succ_toNat {k stop : UInt64} (h : k < stop) : (k + 1).toNat = k.toNat + 1 := by
  have hlt := UInt64.lt_iff_toNat_lt.mp h
  have hstop := UInt64.toNat_lt stop
  rw [UInt64.toNat_add]
  exact Nat.mod_eq_of_lt (by simpa using lt_of_le_of_lt hlt hstop)

variable [DecidableEq T] {tr : List (T × Shown)} {c : Config T History Pc} {t : T} {m' : History}
  {stop k : UInt64} {f : Event} {pc' : Pc} {es : List Shown}

/-- The events that the calls of `record` of a schedule are made with, in their order. -/
def recorded (c : Config T History Pc) : List (T × Call) → List Event
  | [] => []
  | x :: s => (c.loc x.1).records x.2 ++ recorded (Threads.step (program T) c x) s

/-- A step of a schedule records at most one event. -/
theorem recorded_concat (c : Config T History Pc) (s : List (T × Call)) (x : T × Call) :
    recorded c (s ++ [x])
      = recorded c s ++ ((Threads.run (program T) c s).loc x.1).records x.2 := by
  induction s generalizing c with
  | nil => simp [recorded, Threads.run_nil]
  | cons y s ih => simp [recorded, ih, Threads.run_cons]

omit [DecidableEq T] in
/-- A call of `record` begins with the draw of its ticket, and nothing else draws one. -/
theorem drawn_events (c : Config T History Pc) (x : T × Call) :
    (drawn (Threads.events (program T) c x)).map Prod.snd = (c.loc x.1).records x.2 := by
  unfold Threads.events
  rw [drawn_map]
  cases c.loc x.1 with
  | idle => cases x.2 <;> rfl
  | load | claim | recheck =>
    simp only [program]
    split <;> rfl
  | scan =>
    simp only [program]
    split
    · split <;> rfl
    · rfl
  | store | publish | copy => rfl

/-- Every call of `record` draws one ticket, for its event. -/
theorem drawn_eq_recorded (c : Config T History Pc) (s : List (T × Call)) :
    (drawn (trace (program T) c s)).map Prod.snd = recorded c s := by
  induction s using List.reverseRecOn with
  | nil => rfl
  | append_singleton s x ih =>
    rw [Threads.trace_concat, drawn_append, List.map_append, ih, drawn_events, recorded_concat]

omit [DecidableEq T] in
/-- The tickets that are drawn are the numbers from zero. -/
theorem Sound.eq_numbered {D : List (UInt64 × Event)} (h : Sound D c) :
    D = numbered (D.map Prod.snd) := by
  apply List.ext_getElem
  · simp [numbered]
  · intro j hj _
    have hticket := h.ticket j D[j].1 D[j].2 (List.getElem?_eq_getElem hj)
    have hnumber : UInt64.ofNat j = D[j].1 := by
      rw [← UInt64.toNat_inj, UInt64.toNat_ofNat', hticket]
      exact Nat.mod_eq_of_lt (by have := h.bound; omega)
    simp only [numbered, List.getElem_mapIdx, List.getElem_map, hnumber]

/-! ## Any interleaving -/

/-- **A visit that has come to the ticket `k`**: it began when `stop` tickets were drawn, has shown
smaller tickets, and is among the last `HISTORY_CAPACITY`. -/
def InVisit (tr : List (T × Shown)) (t : T) (stop k : UInt64) : Prop :=
  ∃ before post, tr = before ++ (t, .began stop) :: post ∧ stop.toNat = (drawn before).length ∧
    (∀ shown ∈ own t post, ∃ k' f', shown = .visited k' f' ∧ k'.toNat < k.toNat) ∧
    k.toNat ≤ stop.toNat ∧ stop.toNat ≤ k.toNat + HISTORY_CAPACITY

/-- A visit begins with the tickets drawn so far. -/
theorem InVisit.begin (h : stop.toNat = (drawn tr).length) :
    InVisit (tr ++ [(t, .began stop)]) t stop (start_of stop) := by
  have hstart := start_toNat stop
  have hcap : HISTORY_CAPACITY = 32 := rfl
  exact ⟨tr, [], rfl, h, List.forall_mem_nil _, by omega, by omega⟩

/-- The steps of other handlers. -/
theorem InVisit.other (h : InVisit tr t stop k) {more : List (T × Shown)}
    (hmore : own t more = []) :
    InVisit (tr ++ more) t stop k := by
  obtain ⟨before, post, rfl, hstop, hown, hbounds⟩ := h
  exact ⟨before, post ++ more, by simp, hstop, by
    rw [Threads.own_append, hmore, List.append_nil]
    exact hown, hbounds⟩

/-- On to the next ticket. -/
theorem InVisit.advance (h : InVisit tr t stop k) (hlt : k < stop) {more : List (T × Shown)}
    (hmore : ∀ shown ∈ own t more, ∃ f, shown = .visited k f) :
    InVisit (tr ++ more) t stop (k + 1) := by
  obtain ⟨before, post, rfl, hstop, hown, hle, hcap⟩ := h
  have hnat := UInt64.lt_iff_toNat_lt.mp hlt
  have hsucc := succ_toNat hlt
  refine ⟨before, post ++ more, by simp, hstop, fun shown hmem => ?_, by omega, by omega⟩
  rw [Threads.own_append, List.mem_append] at hmem
  obtain hmem | hmem := hmem
  · obtain ⟨k', f', rfl, hk'⟩ := hown shown hmem
    exact ⟨k', f', rfl, by omega⟩
  · obtain ⟨f', rfl⟩ := hmore shown hmem
    exact ⟨k, f', rfl, by omega⟩

def Visits (tr : List (T × Shown)) (c : Config T History Pc) : Prop :=
  ∀ t stop k, (c.loc t).visit = some (stop, k) → InVisit tr t stop k

omit [DecidableEq T] in
/-- The ticket that a visitor copies is one it has to come to. -/
theorem Sound.visit_lt {D : List (UInt64 × Event)} (h : Sound D c)
    (hpc : c.loc t = .recheck stop k f) : k < stop := by
  have hok := h.handler t
  rw [hpc] at hok
  exact hok.2.1

/-- One case per move: only those of a visitor matter, and a ticket it comes to is past the one
before. -/
theorem Visits.step (h : Visits tr c) (hs : Sound (drawn tr) c)
    (hm : Moves c.mem (c.loc t) m' pc' es) :
    Visits (tr ++ es.map (Prod.mk t)) (c.after t ⟨m', pc', es⟩) := by
  intro u stop k hu
  by_cases hut : u = t
  · subst hut
    rw [Config.after_loc_self] at hu
    have hold := h u
    have hlt : ∀ {f}, c.loc u = .recheck stop k f → k < stop := fun hpc => hs.visit_lt hpc
    generalize hpc : c.loc u = pc at hm hold
    cases hm with
    | draw | drop | check | claim | lost | publish | finish => cases hu
    | store k' e i =>
      rw [visit_stored] at hu
      cases hu
    | begin =>
      cases hu
      exact .begin hs.next
    | skip hlt' _ =>
      cases hu
      exact (hold _ _ rfl).advance hlt' (List.forall_mem_nil _)
    | enter _ _ =>
      cases hu
      exact (hold _ _ rfl).other rfl
    | copy stop' k' i f =>
      rw [visit_copied] at hu
      cases hu
      exact (hold _ _ rfl).other rfl
    | visit _ =>
      cases hu
      refine (hold _ _ rfl).advance (hs.visit_lt hpc) fun shown hmem => ?_
      rw [List.map_singleton, Threads.own_cons_self, Threads.own_nil, List.mem_singleton] at hmem
      exact ⟨_, hmem⟩
    | discard _ =>
      cases hu
      exact (hold _ _ rfl).advance (hs.visit_lt hpc) (List.forall_mem_nil _)
  · rw [Config.after_loc_of_ne _ _ hut] at hu
    exact (h u stop k hu).other (Threads.own_concat_of_ne hut [] es)

/-- Nothing recorded, and every handler idle. -/
def start : Config T History Pc := ⟨.new, fun _ => .idle⟩

/-- The invariant of a run in which the tickets stay below `WRITING_BIT`. -/
def Good (tr : List (T × Shown)) (c : Config T History Pc) : Prop :=
  (drawn tr).length < 2 ^ 63 → Sound (drawn tr) c ∧ Visits tr c

theorem good_start : Good [] (start (T := T)) := fun _ => ⟨sound_new, fun _ _ _ h => by cases h⟩

/-- As long as there are fewer than 2^63 tickets, every step keeps it. -/
theorem Good.step (h : Good tr c) (call : Call) :
    Good (tr ++ (program T t call c.mem (c.loc t)).events.map (Prod.mk t))
      (c.after t (program T t call c.mem (c.loc t))) := by
  intro hbound
  have hm := moves t call c.mem (c.loc t)
  rw [drawn_append, drawn_map] at hbound ⊢
  obtain ⟨hs, hv⟩ := h (by
    rw [List.length_append] at hbound
    omega)
  exact ⟨hs.step hm hbound, hv.step hs hm⟩

/-- **What is shown of a visit**: smaller tickets so far, and one of the last that were drawn when
it began. -/
def AmongLast (pre : List (T × Shown)) (t : T) (k : UInt64) : Prop :=
  ∃ before stop post, pre = before ++ (t, .began stop) :: post ∧
    (∀ shown ∈ own t post, ∃ k' f', shown = .visited k' f' ∧ k'.toNat < k.toNat) ∧
    k.toNat < (drawn before).length ∧ (drawn before).length ≤ k.toNat + HISTORY_CAPACITY

/-- What a step visits was drawn, and is one of the last 32. -/
theorem visited_step (h : Good tr c) (call : Call) (hbound : (drawn tr).length < 2 ^ 63)
    (hev : (program T t call c.mem (c.loc t)).events = [.visited k f]) :
    Drawn (drawn tr) k f ∧ AmongLast tr t k := by
  obtain ⟨hs, hv⟩ := h hbound
  have hm := moves t call c.mem (c.loc t)
  rw [hev] at hm
  obtain ⟨stop, hpc, hseq⟩ := hm.visited
  obtain ⟨before, post, htr, hstop, hown, -, hcap⟩ := hv t stop k (by rw [hpc]; rfl)
  have hlt := UInt64.lt_iff_toNat_lt.mp (hs.visit_lt hpc)
  exact ⟨hs.visited hpc hseq, before, stop, post, htr, hown, by omega, by omega⟩

omit [DecidableEq T] in
/-- No ticket is drawn twice. -/
theorem Sound.tickets_nodup {D : List (UInt64 × Event)} (h : Sound D c) :
    (D.map Prod.fst).Nodup := by
  have hrange : (D.map Prod.fst).map UInt64.toNat = List.range D.length := by
    apply List.ext_getElem
    · simp
    · intro j hj _
      have hlt : j < D.length := by simpa using hj
      have hticket := h.ticket j D[j].1 D[j].2 (List.getElem?_eq_getElem hlt)
      simpa using hticket
  exact List.Nodup.of_map UInt64.toNat (hrange ▸ List.nodup_range)

/-! ## One handler at a time -/

/-- The latest tickets are all in their slots, but for one that a handler is at. -/
def Current (D : List (UInt64 × Event)) (m : History) (busy : Option UInt64) : Prop :=
  ∀ k : UInt64, k.toNat < D.length → D.length ≤ k.toNat + HISTORY_CAPACITY → busy ≠ some k →
    (m.slot k).sequence = k + 1

/-- A visit during which nothing was drawn, and which has shown every event up to the ticket `k`. -/
def Progress (tr : List (T × Shown)) (t : T) (stop k : UInt64) : Prop :=
  ∃ before post, tr = before ++ (t, .began stop) :: post ∧ drawn before = drawn tr ∧
    stop.toNat = (drawn tr).length ∧ stop.toNat - HISTORY_CAPACITY ≤ k.toNat ∧
    own t post = (((drawn tr).drop (stop.toNat - HISTORY_CAPACITY)).take
      (k.toNat - (stop.toNat - HISTORY_CAPACITY))).map fun x => .visited x.1 x.2

/-- What holds at the one handler that is not idle. -/
def AloneAt (tr : List (T × Shown)) (m : History) (t : T) : Pc → Prop
  | .idle => Current (drawn tr) m none
  | .load k _ => k.toNat + 1 = (drawn tr).length ∧ Current (drawn tr) m (some k)
  | .claim k _ current => k.toNat + 1 = (drawn tr).length ∧ Current (drawn tr) m (some k) ∧
      (m.slot k).sequence = current
  | .store k _ _ | .publish k _ => k.toNat + 1 = (drawn tr).length ∧ Current (drawn tr) m (some k)
  | .scan stop k => Current (drawn tr) m none ∧ Progress tr t stop k
  | .copy stop k _ _ | .recheck stop k _ => Current (drawn tr) m none ∧ Progress tr t stop k

/-- A handler that is the only one not to be idle, as every handler is when all are. -/
def Alone (tr : List (T × Shown)) (c : Config T History Pc) : Prop :=
  ∀ t, (∀ u, u ≠ t → c.loc u = .idle) → AloneAt tr c.mem t (c.loc t)

/-- The condition on a schedule: a handler moves while every other one is idle. -/
def OthersIdle (_ : List (T × Shown)) (c : Config T History Pc) (x : T × Call) : Prop :=
  ∀ u, u ≠ x.1 → c.loc u = .idle

omit [DecidableEq T] in
/-- Two of the latest tickets have different slots. -/
theorem slot_of_ne {k k' : UInt64} (hlt : k'.toNat < k.toNat)
    (hcap : k.toNat < k'.toNat + HISTORY_CAPACITY) : slot_of k' ≠ slot_of k := by
  intro heq
  have hmod : k'.toNat % 32 = k.toNat % 32 := congrArg Fin.val heq
  have hcap' : k.toNat < k'.toNat + 32 := hcap
  omega

/-- A step in the slot of the latest ticket leaves the other latest ones alone. -/
theorem Current.inSlot {D : List (UInt64 × Event)} {m m' : History} (h : Current D m (some k))
    (hk : k.toNat + 1 = D.length) (hs : InSlot m m' k) : Current D m' (some k) := by
  intro k' hlt hcap hne
  have hkk : k' ≠ k := fun heq => hne (by rw [heq])
  have hnat : k'.toNat ≠ k.toNat := fun heq => hkk (UInt64.toNat_inj.mp heq)
  rw [hs.slot_eq (slot_of_ne (by omega) (by omega))]
  exact h k' hlt hcap hne

/-- A published event is in its slot, so that no ticket is missing. -/
theorem Current.published {D : List (UInt64 × Event)} {m : History} (h : Current D m (some k))
    (hseq : (m.slot k).sequence = k + 1) : Current D m none := by
  intro k' hlt hcap _
  by_cases hkk : k' = k
  · rw [hkk, hseq]
  · exact h k' hlt hcap fun heq => hkk (Option.some.inj heq).symm

/-- A new ticket takes the place of the one 32 before it. -/
theorem Current.draw {D : List (UInt64 × Event)} {m : History} (h : Current D m none)
    (hk : k.toNat = D.length) (e : Event) :
    Current (D ++ [(k, e)]) { m with next := m.next + 1 } (some k) := by
  intro k' hlt hcap hne
  rw [List.length_append, List.length_singleton] at hlt hcap
  have hkk : k'.toNat ≠ k.toNat := fun heq => hne (by rw [UInt64.toNat_inj.mp heq])
  exact h k' (by omega) (by omega) (by simp)

/-- A visit begins with nothing shown. -/
theorem Progress.begin (h : stop.toNat = (drawn tr).length) :
    Progress (tr ++ [(t, .began stop)]) t stop (start_of stop) := by
  have hdrawn : drawn (tr ++ [(t, .began stop)]) = drawn tr :=
    drawn_step [.began stop] rfl tr t
  have hstart := start_toNat stop
  have hcap : HISTORY_CAPACITY = 32 := rfl
  refine ⟨tr, [], rfl, hdrawn.symm, by rw [hdrawn]; exact h, by omega, ?_⟩
  rw [hstart, hcap, Nat.sub_self, List.take_zero]
  rfl

/-- It shows the events one after the other. -/
theorem Progress.visit (h : Progress tr t stop k) (hlt : k < stop) (hd : Drawn (drawn tr) k f) :
    Progress (tr ++ [(t, .visited k f)]) t stop (k + 1) := by
  obtain ⟨before, post, htr, hbefore, hstop, hle, hown⟩ := h
  have hdrawn : drawn (tr ++ [(t, .visited k f)]) = drawn tr :=
    drawn_step [.visited k f] rfl tr t
  have hsucc := succ_toNat hlt
  refine ⟨before, post ++ [(t, .visited k f)], by simp [htr], by rw [hdrawn, hbefore],
    by rw [hdrawn, hstop], by omega, ?_⟩
  rw [Threads.own_append, hown, hdrawn, Threads.own_cons_self, Threads.own_nil, hsucc,
    Nat.sub_add_comm hle, List.take_add_one, List.getElem?_drop, Nat.add_sub_cancel' hle]
  rw [show (drawn tr)[k.toNat]? = some (k, f) from hd]
  simp

omit [DecidableEq T] in
/-- A handler that is alone does not find its ticket passed: nobody fills the slot, and no ticket is
newer than the one it has just drawn. -/
theorem Sound.not_dropped {D : List (UInt64 × Event)} (hs : Sound D c) {e : Event}
    (hpc : c.loc t = .load k e) (hidle : ∀ u, u ≠ t → c.loc u = .idle)
    (hk : k.toNat + 1 = D.length) :
    ¬ (2 ^ 63 ≤ (c.mem.slot k).sequence.toNat ∨ k + 1 < (c.mem.slot k).sequence) := by
  have hD := hs.bound
  have hslot : (c.mem.slot k).sequence.toNat < 2 ^ 63 := by
    by_contra hle
    obtain ⟨u, k', hu, -⟩ := hs.writer (slot_of k) (by rw [← History.slot]; omega)
    by_cases hut : u = t
    · rw [hut, hpc] at hu
      cases hu
    · rw [hidle u hut] at hu
      cases hu
  rintro (hle | hlt)
  · omega
  · have hnat := UInt64.lt_iff_toNat_lt.mp hlt
    rw [sequence_toNat (by omega)] at hnat
    obtain h0 | ⟨k', e', hd, -, hk', -⟩ := hs.published _ hslot
    · rw [History.slot, h0] at hnat
      exact absurd hnat (Nat.not_lt_zero _)
    · have hlt' := hd.lt
      rw [History.slot, hk', sequence_toNat (by omega)] at hnat
      omega

/-- A ticket that a visit comes to is one of the latest, and so in its slot. -/
theorem Progress.latest {m : History} (h : Progress tr t stop k)
    (hcur : Current (drawn tr) m none) (hlt : k < stop) : (m.slot k).sequence = k + 1 := by
  obtain ⟨-, -, -, -, hstop, hle, -⟩ := h
  have hnat := UInt64.lt_iff_toNat_lt.mp hlt
  exact hcur k (by omega) (by omega) (by simp)

/-- **Every step of a handler that moves alone keeps it.** -/
theorem AloneAt.step (h : AloneAt tr c.mem t (c.loc t)) (hidle : ∀ u, u ≠ t → c.loc u = .idle)
    (hs : Sound (drawn tr) c) (hm : Moves c.mem (c.loc t) m' pc' es) :
    AloneAt (tr ++ es.map (Prod.mk t)) m' t pc' := by
  have hok := hs.handler t
  have hD := hs.bound
  generalize hpc : c.loc t = pc at hm h hok
  have hquiet : drawn (tr ++ ([] : List Shown).map (Prod.mk t)) = drawn tr := drawn_step [] rfl tr t
  cases hm with
  | draw e =>
    have hdrawn : drawn (tr ++ [Shown.drew c.mem.next e].map (Prod.mk t))
        = drawn tr ++ [(c.mem.next, e)] := by rw [drawn_append]; rfl
    refine ⟨?_, ?_⟩
    · rw [hdrawn, List.length_append, List.length_singleton, hs.next]
    · rw [hdrawn]
      exact Current.draw h hs.next e
  | begin =>
    refine ⟨?_, .begin hs.next⟩
    rw [drawn_step _ rfl]
    exact h
  | @drop k e hseq =>
    exact absurd hseq (hs.not_dropped hpc hidle h.1)
  | check _ _ =>
    obtain ⟨hk, hcur⟩ := h
    exact ⟨by rw [hquiet]; exact hk, by rw [hquiet]; exact hcur, rfl⟩
  | claim k e =>
    obtain ⟨hk, hcur, -⟩ := h
    obtain ⟨-, hfresh, hle, hfree⟩ := hok
    have hold : (c.mem.slot k).sequence.toNat < k.toNat + 1 := by
      have hne : (c.mem.slot k).sequence.toNat ≠ k.toNat + 1 := by
        rw [← base_of_lt hfree]
        exact hfresh
      omega
    refine ⟨by rw [hquiet]; exact hk, ?_⟩
    rw [hquiet]
    exact hcur.inSlot hk (inSlot_claim hold (by omega))
  | lost hne => exact absurd h.2.2 hne
  | store k e i =>
    obtain ⟨hk, hcur⟩ := h
    have hnew := hcur.inSlot hk (inSlot_store hok.2.1 (by omega) i (e i))
    unfold Pc.stored
    split
    · exact ⟨by rw [hquiet]; exact hk, by rw [hquiet]; exact hnew⟩
    · exact ⟨by rw [hquiet]; exact hk, by rw [hquiet]; exact hnew⟩
  | publish k e =>
    obtain ⟨hk, hcur⟩ := h
    have hnew := hcur.inSlot hk (inSlot_publish hok.2.1 (by omega))
    show Current _ _ none
    rw [hquiet]
    exact hnew.published (by rw [History.store_sequence_slot])
  | @skip stop k hlt hne =>
    exact absurd (h.2.latest h.1 hlt) hne
  | enter hlt _ =>
    rw [List.map_nil, List.append_nil]
    exact h
  | finish _ =>
    show Current _ _ none
    rw [drawn_step _ rfl]
    exact h.1
  | copy stop k i f =>
    rw [List.map_nil, List.append_nil]
    unfold Pc.copied
    split
    · exact h
    · exact h
  | @visit stop k f hseq =>
    refine ⟨?_, h.2.visit (hs.visit_lt hpc) (hs.visited hpc hseq)⟩
    rw [drawn_step _ rfl]
    exact h.1
  | @discard stop k f hne =>
    exact absurd (h.2.latest h.1 (hs.visit_lt hpc)) hne

/-- The same for the handlers that are idle: they stay so. -/
theorem Alone.step (h : Alone tr c) (hidle : ∀ u, u ≠ t → c.loc u = .idle)
    (hs : Sound (drawn tr) c) (hm : Moves c.mem (c.loc t) m' pc' es) :
    Alone (tr ++ es.map (Prod.mk t)) (c.after t ⟨m', pc', es⟩) := by
  have hstep := (h t hidle).step hidle hs hm
  intro u hu
  by_cases hut : u = t
  · rw [hut, Config.after_loc_self]
    exact hstep
  · -- Then every handler is idle, and it is the same to be any of them.
    have ht := hu t fun heq => hut heq.symm
    rw [Config.after_loc_self] at ht
    have ht' : pc' = .idle := ht
    rw [ht'] at hstep
    rw [Config.after_loc_of_ne _ _ hut, hidle u hut]
    exact hstep

/-- At the start nothing was drawn. -/
theorem alone_start : Alone [] (start (T := T)) :=
  fun _ _ _ hlt => absurd hlt (Nat.not_lt_zero _)

/-- **The whole of a visit**: the last events that were drawn when it began, in their order. -/
def ShowsDrawn (pre : List (T × Shown)) (t : T) : Prop :=
  ∃ before stop post, pre = before ++ (t, .began stop) :: post ∧
    own t post = ((drawn before).drop ((drawn before).length - HISTORY_CAPACITY)).map
      fun x => .visited x.1 x.2

/-- When it ends it has shown them all. -/
theorem Progress.ended (h : Progress tr t stop k) (hle : stop ≤ k) : ShowsDrawn tr t := by
  obtain ⟨before, post, htr, hbefore, hstop, hstart, hown⟩ := h
  have hnat := UInt64.le_iff_toNat_le.mp hle
  refine ⟨before, stop, post, htr, ?_⟩
  rw [hown, hbefore, ← hstop, List.take_of_length_le]
  rw [List.length_drop]
  omega

/-! ## The end of a visit -/

/-- The ticket that a visitor is at is one it has to come to. -/
def Pc.Within : Pc → Prop
  | .copy stop k _ _ | .recheck stop k _ => k < stop
  | .scan _ _ => True
  | _ => False

/-- How many steps are left of a visit, at most. -/
def Pc.left : Pc → ℕ
  | .scan stop k => 16 * (stop.toNat - k.toNat) + 1
  | .copy stop k i _ => 16 * (stop.toNat - k.toNat) - i
  | .recheck stop k _ => 16 * (stop.toNat - k.toNat) - 13
  | _ => 0

omit [DecidableEq T] in
/-- **A step towards the end**, whatever the others have left in the slots. -/
theorem within_step {pc : Pc} (h : pc.Within) (m : History) :
    Shown.ended ∈ (program T t .visit_recent m pc).events ∨
      (program T t .visit_recent m pc).loc.Within ∧
        (program T t .visit_recent m pc).loc.left < pc.left := by
  cases pc with
  | idle | load | claim | store | publish => exact h.elim
  | scan stop k =>
    simp only [program]
    split
    · next hlt =>
      have hnat := UInt64.lt_iff_toNat_lt.mp hlt
      have hsucc := succ_toNat hlt
      right
      split
      · exact ⟨trivial, by simp only [Pc.left]; omega⟩
      · refine ⟨hlt, ?_⟩
        simp only [Pc.left, first_field]
        omega
    · exact .inl (List.mem_singleton_self _)
  | copy stop k i f =>
    have hlt : k < stop := h
    have hnat := UInt64.lt_iff_toNat_lt.mp hlt
    have hi := i.isLt
    have hcount : FIELD_COUNT = 13 := rfl
    right
    simp only [program, Pc.copied]
    split
    · exact ⟨hlt, by simp only [Pc.left]; omega⟩
    · exact ⟨hlt, by simp only [Pc.left]; omega⟩
  | recheck stop k f =>
    have hlt : k < stop := h
    have hnat := UInt64.lt_iff_toNat_lt.mp hlt
    have hsucc := succ_toNat hlt
    exact .inr ⟨trivial, by simp only [program, Pc.left]; omega⟩

/-- A visit that is not disturbed ends. -/
theorem will_end (h : (c.loc t).Within) :
    Threads.WillShow (program T) c t .visit_recent .ended := by
  induction hn : (c.loc t).left using Nat.strongRecOn generalizing c with
  | ind n ih =>
    obtain hnow | ⟨hwithin, hlt⟩ := within_step (T := T) (t := t) h c.mem
    · exact .now _ rfl hnow
    · refine .next _ rfl rfl (ih _ (hn ▸ hlt) ?_ ?_)
      · rw [Config.after_loc_self]
        exact hwithin
      · rw [Config.after_loc_self]

/-- A visit by a handler that is not disturbed comes to its end. -/
theorem visit_ends (h : c.loc t = .idle) :
    Threads.WillShow (program T) c t .visit_recent .ended := by
  refine .next _ h rfl (will_end ?_)
  rw [Config.after_loc_self]
  exact trivial

/-! ## Every run -/

omit [DecidableEq T] in
theorem one_shown (t : T) (call : Call) (m : History) (pc : Pc) :
    (program T t call m pc).events.length ≤ 1 := (moves t call m pc).one_shown

/-- The bound on the calls of a schedule is one on the tickets. -/
theorem drawn_bound {s : List (T × Call)} (hbound : (recorded start s).length < 2 ^ 63) :
    (drawn (trace (program T) start s)).length < 2 ^ 63 := by
  rwa [← drawn_eq_recorded, List.length_map] at hbound

/-- What is in the slots is sound in every run within the bound. -/
theorem sound_run {s : List (T × Call)} (hbound : (recorded start s).length < 2 ^ 63) :
    Sound (drawn (trace (program T) start s)) (Threads.run (program T) start s) :=
  (Threads.run_induct_after (program T) (I := Good) good_start
    (fun _ _ _ call hg => hg.step call) s (drawn_bound hbound)).1

/-- What is drawn in a run is what is recorded in it. -/
theorem drawn_eq_numbered {s : List (T × Call)} (hbound : (recorded start s).length < 2 ^ 63) :
    drawn (trace (program T) start s) = numbered (recorded start s) := by
  rw [← drawn_eq_recorded]
  exact (sound_run hbound).eq_numbered

/-- **The whole of a visit**: the last events that were recorded when it began, in their order. -/
def ShowsLast (s : List (T × Call)) (pre : List (T × Shown)) (t : T) : Prop :=
  ∃ s₁ stop post, s₁ <+: s ∧ pre = trace (program T) start s₁ ++ (t, .began stop) :: post ∧
    own t post
      = ((numbered (recorded start s₁)).drop ((recorded start s₁).length - HISTORY_CAPACITY)).map
        fun x => .visited x.1 x.2

/-- What was drawn is what was recorded. -/
theorem ShowsDrawn.recorded {s : List (T × Call)} {pre : List (T × Shown)}
    (h : ShowsDrawn pre t) (hpre : pre <+: trace (program T) start s)
    (hbound : (recorded start s).length < 2 ^ 63) : ShowsLast s pre t := by
  obtain ⟨before, stop, post, rfl, hown⟩ := h
  obtain ⟨s₁, hs₁, rfl⟩ := Threads.exists_prefix_of_trace (program T) one_shown
    ((List.prefix_append _ _).trans hpre)
  have hbound₁ : (SyscallHistory.recorded start s₁).length < 2 ^ 63 := by
    have hle := drawn_length_le ((List.prefix_append _ _).trans hpre)
    have hlt := drawn_bound hbound
    rw [← drawn_eq_recorded, List.length_map]
    omega
  refine ⟨s₁, stop, post, hs₁, rfl, ?_⟩
  rw [hown, drawn_eq_numbered hbound₁]
  simp [numbered]

/-- **What a visitor is shown is what was recorded.** Every call of `record` draws the next ticket;
an event visited is the one its ticket was drawn for, and the tickets of a visit go up through the
last `HISTORY_CAPACITY` that were drawn when it began. Where handlers move one at a time, a visit
shows just the last `HISTORY_CAPACITY` events that were recorded, or all there are. A visit that is
not disturbed comes to its end. -/
theorem history_is_faithful (s : List (T × Call)) (hbound : (recorded start s).length < 2 ^ 63) :
    drawn (trace (program T) start s) = numbered (recorded start s) ∧
      ((drawn (trace (program T) start s)).map Prod.fst).Nodup ∧
      (∀ pre t k f, pre ++ [(t, .visited k f)] <+: trace (program T) start s →
        (k, f) ∈ drawn pre ∧ AmongLast pre t k) ∧
      (AllSteps (program T) OthersIdle start s →
        ∀ pre t, pre ++ [(t, .ended)] <+: trace (program T) start s → ShowsLast s pre t) ∧
      ∀ t, (Threads.run (program T) start s).loc t = .idle →
        Threads.WillShow (program T) (Threads.run (program T) start s) t .visit_recent .ended := by
  have hpre : ∀ {pre : List (T × Shown)} {x : T × Shown},
      pre ++ [x] <+: trace (program T) start s → (drawn pre).length < 2 ^ 63 := fun h =>
    lt_of_le_of_lt (drawn_length_le ((List.prefix_append _ _).trans h)) (drawn_bound hbound)
  refine ⟨drawn_eq_numbered hbound, (sound_run hbound).tickets_nodup, fun pre t k f h => ?_,
    fun halone pre t h => ?_, fun t => visit_ends⟩
  · have hvisited := Threads.event_induct (program T) one_shown (I := Good)
      (G := fun pre t shown => ∀ k f, shown = .visited k f → (drawn pre).length < 2 ^ 63 →
        Drawn (drawn pre) k f ∧ AmongLast pre t k) good_start
      (fun tr d t call hg => hg.step call)
      (fun tr d t call shown hg hev k f hshown hlt => visited_step hg call hlt (hshown ▸ hev)) h
    obtain ⟨hd, hamong⟩ := hvisited k f rfl (hpre h)
    exact ⟨List.mem_of_getElem? hd, hamong⟩
  · -- One handler at a time: the invariant of the one that moves joins that of all.
    refine ShowsDrawn.recorded ?_ ((List.prefix_append _ _).trans h) hbound
    refine Threads.event_induct_of (program T) one_shown
      (I := fun tr c => Good tr c ∧ ((drawn tr).length < 2 ^ 63 → Alone tr c))
      (G := fun pre t shown => shown = .ended → (drawn pre).length < 2 ^ 63 → ShowsDrawn pre t)
      ⟨good_start, fun _ => alone_start⟩ (fun tr d t call hidle ⟨hg, ha⟩ => ⟨hg.step call, ?_⟩)
      (fun tr d t call shown hidle ⟨hg, ha⟩ hev hshown hlt => ?_) halone h rfl (hpre h)
    · intro hlt
      rw [drawn_append, List.length_append] at hlt
      exact (ha (by omega)).step hidle (hg (by omega)).1 (moves t call d.mem (d.loc t))
    · have hm := moves t call d.mem (d.loc t)
      rw [hev, hshown] at hm
      obtain ⟨stop, k, hpc, hle⟩ := hm.ended
      have hat := ha hlt t hidle
      rw [hpc] at hat
      exact hat.2.ended hle

/-- An event that is recorded and visited. -/
def sample : Event := fun i => UInt64.ofNat i

def sample_run : List (Unit × Call) :=
  Threads.steps () 17 (.record sample) ++ Threads.steps () 17 .visit_recent

/-- One event is recorded, and a visit shows it. -/
theorem sample_is_visited :
    ((0, sample) ∈ drawn [((), .drew 0 sample), ((), .began 1)] ∧
      AmongLast [((), .drew 0 sample), ((), .began 1)] () 0) ∧
    ShowsLast sample_run [((), .drew 0 sample), ((), .began 1), ((), .visited 0 sample)] () := by
  obtain ⟨-, -, hvisited, hlast, -⟩ := history_is_faithful sample_run (by decide +kernel)
  have halone : AllSteps (program Unit) OthersIdle start sample_run :=
    (Threads.allSteps_congr (program Unit) (I := fun _ _ => True) trivial
      (fun _ _ _ _ => trivial) (fun _ _ x _ => iff_of_true
        (fun u hu => absurd (Subsingleton.elim u x.1) hu) trivial) sample_run).mpr
      (Threads.allSteps_true (program Unit) start sample_run)
  exact ⟨hvisited _ () 0 sample (by decide +kernel), hlast halone _ () (by decide +kernel)⟩

end Linuwux.SyscallHistory
