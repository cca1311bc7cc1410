/-
`MarkerInvariant.lean` -- the marker table in every interleaving.

`MarkerView.lean` follows one thread through its own steps. What is left is what ties the
threads together: who has reserved a slot, whose a published slot is, and what the counter
says. All of it is read off one list of what a step can do to the table ([`Effect`]), in
which a slot goes from free to reserved to published and back, and the counter follows.

The counter is a `u32` and is raised after a slot is reserved and lowered after it is freed,
so it lags behind by the threads in between. There are fewer than 2^31 thread ids, so it
never wraps.
-/
import Linuwux.MarkerView

set_option autoImplicit false

namespace Linuwux.Markers

open Threads (Outcome Program Config)

/-! ## What a step does to the table -/

/-- The slot a thread has reserved, and whether it is between the table and the counter. -/
def Thread.status (th : Thread) : Option Index × Bool × Bool := (th.holds, th.counts, th.uncounts)

/-- The steps of a thread, as the table and the other threads notice them. -/
inductive Effect (t : Tid) (m : Table) (th : Thread) (o : Outcome Table Thread Event) : Prop
  | quiet (hm : o.mem = m) (hs : o.loc.status = th.status)
  -- The way of a slot through `remember_marker`.
  | reserve (i : Index) (hfree : (m.markers i).stack = 0)
      (hm : o.mem = m.set i { m.markers i with stack := U64_MAX })
      (hs : th.status = (none, false, false)) (hs' : o.loc.status = (some i, true, false))
  | count (i : Index) (hm : o.mem = { m with active := m.active + 1 })
      (hs : th.status = (some i, true, false)) (hs' : o.loc.status = (some i, false, false))
  | fill (i : Index) (k : Marker) (hm : o.mem = m.set i k) (hk : k.stack = (m.markers i).stack)
      (ht : k.tid = 0 ∨ k.tid = t.val ∨ k.tid = (m.markers i).tid)
      (hs : th.status = (some i, false, false)) (hs' : o.loc.status = (some i, false, false))
  | publish (i : Index) (k : Marker) (hm : o.mem = m.set i k) (hk : k.published)
      (ht : k.tid = t.val)
      (hs : th.status = (some i, false, false)) (hs' : o.loc.status = (none, false, false))
  -- `consume` moves the phase on, or stores a word.
  | mark (i : Index) (k : Marker) (hm : o.mem = m.set i k)
      (hold : (m.markers i).tid = t.val ∧ (m.markers i).published)
      (hk : k.stack = (m.markers i).stack) (ht : k.tid = t.val)
      (hs : th.status = (none, false, false)) (hs' : o.loc.status = (none, false, false))
  -- The way out, through `release_marker`; in between it is a `fill`.
  | take (i : Index) (hm : o.mem = m.set i { m.markers i with stack := U64_MAX })
      (hold : (m.markers i).tid = t.val ∧ (m.markers i).published)
      (hs : th.status = (none, false, false)) (hs' : o.loc.status = (some i, false, false))
  | free (i : Index) (k : Marker) (hm : o.mem = m.set i k) (hk : k.stack = 0) (ht : k.tid = 0)
      (hs : th.status = (some i, false, false)) (hs' : o.loc.status = (none, false, true))
  | uncount (hm : o.mem = { m with active := m.active - 1 })
      (hs : th.status = (none, false, true)) (hs' : o.loc.status = (none, false, false))

theorem remember_status (t : Tid) (m : Table) (d : Dispatch) :
    (remember t m d).loc.status = (none, false, false) := by
  unfold remember
  repeat' split
  all_goals rfl

theorem retire_next_status (d : Dispatch) (i : Index) :
    (Thread.dispatching d (retire_next i)).status = (none, false, false) := by
  unfold retire_next
  split <;> rfl

/-- What an access of `release_marker` does, whoever called it. -/
theorem release_effect {t : Tid} {m m' : Table} {i : Index} {stack : UInt64}
    {pc pc' : ReleasePc} {th : Thread} {o : Outcome Table Thread Event} (hok : pc.Ok t m i stack)
    (hstep : release_step m i stack pc = (m', some pc')) (hm : o.mem = m')
    (hs : th.status = (if pc.holds then some i else none, false, pc.uncounts))
    (hs' : o.loc.status = (if pc'.holds then some i else none, false, pc'.uncounts)) :
    Effect t m th o := by
  subst hm
  have hwords : ∀ rest, (ReleasePc.words rest).holds = true
      ∧ (ReleasePc.words rest).uncounts = false := by
    intro rest
    cases rest <;> exact ⟨rfl, rfl⟩
  cases pc with
  | cas =>
    -- It succeeds: the thread found the marker itself and nobody else releases it.
    obtain ⟨k, hk, hst⟩ := hok
    obtain ⟨rfl, htid, hpub⟩ := Table.marks_eq_some.mp hk
    simp only [release_step] at hstep
    rw [if_pos hst] at hstep
    obtain ⟨hm, he⟩ := Prod.mk.inj hstep
    obtain rfl := Option.some.inj he
    exact .take i hm.symm ⟨htid, hpub⟩ hs hs'
  | clear_tid =>
    obtain ⟨hm, he⟩ := Prod.mk.inj hstep
    obtain rfl := Option.some.inj he
    exact .fill i _ hm.symm rfl (Or.inl rfl) hs hs'
  | clear_rip =>
    obtain ⟨hm, he⟩ := Prod.mk.inj hstep
    obtain rfl := Option.some.inj he
    exact .fill i _ hm.symm rfl (Or.inr (Or.inr rfl)) hs hs'
  | clear_phase =>
    obtain ⟨hm, he⟩ := Prod.mk.inj hstep
    obtain rfl := Option.some.inj he
    rw [(hwords _).1, (hwords _).2] at hs'
    exact .fill i _ hm.symm rfl (Or.inr (Or.inr rfl)) hs hs'
  | clear_word w rest =>
    obtain ⟨hm, he⟩ := Prod.mk.inj hstep
    obtain rfl := Option.some.inj he
    rw [(hwords _).1, (hwords _).2] at hs'
    exact .fill i _ hm.symm rfl (Or.inr (Or.inr rfl)) hs hs'
  | free =>
    obtain ⟨hm, he⟩ := Prod.mk.inj hstep
    obtain rfl := Option.some.inj he
    exact .free i _ hm.symm rfl hok.2.2 hs hs'
  | uncount => cases (Prod.mk.inj hstep).2

theorem dispatch_effect {t : Tid} {m : Table} {d : Dispatch} {pc : DispatchPc}
    (hok : pc.Ok t m d) : Effect t m (.dispatching d pc) (dispatch_step t m d pc) := by
  cases pc with
  | has_active | retire_active =>
    simp only [dispatch_step]
    split <;> exact .quiet rfl rfl
  | retire_tid i | retire_stack i | retire_again i recorded =>
    simp only [dispatch_step]
    split
    · exact .quiet rfl (retire_next_status d i)
    · exact .quiet rfl rfl
  | retire_release i recorded pc =>
    simp only [dispatch_step]
    split
    · rename_i m' pc' hstep
      exact release_effect hok.2 hstep rfl rfl rfl
    · rename_i m' hstep
      obtain ⟨rfl, rfl⟩ := release_step_done hok.2 hstep
      exact .uncount rfl rfl (retire_next_status d i)
  | decide => exact .quiet (remember_spec t m d).1 (remember_status t m d)
  | reserve raw k =>
    simp only [dispatch_step]
    split
    · rename_i hfree
      exact .reserve _ hfree rfl rfl rfl
    · split
      · exact .quiet rfl rfl
      · exact .quiet rfl rfl
  | count raw i => exact .count i rfl rfl rfl
  | arm_tid raw i => exact .fill i _ rfl rfl (Or.inr (Or.inl rfl)) rfl rfl
  | arm_rip raw i => exact .fill i _ rfl rfl (Or.inr (Or.inr rfl)) rfl rfl
  | arm_phase raw i => exact .fill i _ rfl rfl (Or.inr (Or.inr rfl)) rfl rfl
  | publish raw i =>
    exact .publish i _ rfl ⟨d.trap_rsp_ne_zero, d.trap_rsp_ne_max⟩ hok.2.1 rfl rfl

theorem trap_effect {t : Tid} {m : Table} {r : Trap} {pc : TrapPc} (hok : pc.Ok t m r) :
    Effect t m (.trapping r pc) (trap_step t m r pc) := by
  cases pc with
  | consume_find pc | cancel_find pc =>
    simp only [trap_step]
    split <;> exact .quiet rfl rfl
  | route i =>
    obtain ⟨k, hk, -⟩ := hok
    obtain ⟨rfl, htid, hpub⟩ := Table.marks_eq_some.mp hk
    simp only [trap_step]
    split
    · exact .mark i _ rfl ⟨htid, hpub⟩ rfl htid rfl rfl
    · exact .quiet rfl rfl
  | save i w rest =>
    obtain ⟨k, ⟨hk, -⟩, -⟩ := hok
    obtain ⟨rfl, htid, hpub⟩ := Table.marks_eq_some.mp hk
    simp only [trap_step]
    split
    · exact .mark i _ rfl ⟨htid, hpub⟩ rfl htid rfl rfl
    · unfold redirect_bridged
      simp only
      split <;> exact .mark i _ rfl ⟨htid, hpub⟩ rfl htid rfl rfl
  | replay i =>
    obtain ⟨k, ⟨hk, -⟩, -⟩ := hok
    obtain ⟨rfl, htid, hpub⟩ := Table.marks_eq_some.mp hk
    simp only [trap_step]
    split
    · exact .mark i _ rfl ⟨htid, hpub⟩ rfl htid rfl rfl
    · exact .quiet rfl rfl
  | load i w rest got =>
    simp only [trap_step]
    split <;> exact .quiet rfl rfl
  | release i pc why =>
    have hpc : pc.Ok t m i r.rsp.val := by
      cases why with
      | replay saved => exact hok.1
      | fall_through => exact hok.elim
      | cancel => exact hok
    simp only [trap_step]
    split
    · rename_i m' pc' hstep
      exact release_effect hpc hstep rfl rfl rfl
    · rename_i m' hstep
      obtain ⟨rfl, rfl⟩ := release_step_done hpc hstep
      split
      · exact .uncount rfl rfl rfl
      · exact hok.elim
      · exact .uncount rfl rfl rfl

theorem thread_step_effect {t : Tid} (op : Op) {m : Table} {th : Thread} (hok : th.Ok t m) :
    Effect t m th (thread_step t op m th) := by
  cases th with
  | idle =>
    cases op with
    | trap r =>
      simp only [thread_step, enter]
      split <;> exact .quiet rfl rfl
    | dispatch | returned | exited => exact .quiet rfl rfl
  | dispatching d pc => exact dispatch_effect hok
  | trapping r pc => exact trap_effect hok

/-! ## The invariant -/

noncomputable instance : Fintype Tid :=
  Fintype.ofInjective (fun t => (⟨t.val.toNat, UInt64.lt_iff_toNat_lt.mp t.pid_t⟩ : Fin 0x80000000))
    fun _ _ h => Tid.ext (UInt64.toNat_inj.mp (Fin.mk.inj h))

theorem card_tid_le : Fintype.card Tid ≤ 0x80000000 := by
  have h := Fintype.card_le_of_injective
    (fun t : Tid => (⟨t.val.toNat, UInt64.lt_iff_toNat_lt.mp t.pid_t⟩ : Fin 0x80000000))
    fun _ _ h => Tid.ext (UInt64.toNat_inj.mp (Fin.mk.inj h))
  rwa [Fintype.card_fin] at h

/-- The slot is taken: reserved or published. -/
def Marker.taken (k : Marker) : Bool := k.stack ≠ 0

/-- The slot is reserved. -/
def Marker.reserved (k : Marker) : Bool := k.stack = U64_MAX

/-- A slot is free and names nobody, or reserved by a thread and names nobody else, or
published and names a thread. -/
def SlotOk (c : Config Tid Table Thread) (i : Index) : Prop :=
  ((c.mem.markers i).stack = 0 ∧ (c.mem.markers i).tid = 0)
    ∨ ((c.mem.markers i).stack = U64_MAX ∧ ∃ t, (c.loc t).holds = some i
      ∧ ((c.mem.markers i).tid = 0 ∨ (c.mem.markers i).tid = t.val))
    ∨ ((c.mem.markers i).published ∧ ∃ t : Tid, (c.mem.markers i).tid = t.val)

/-- The life of the marker of thread `t` at `stack`. -/
def life (t : Tid) (stack : UInt64) (tr : List (Tid × Event)) : Option Life :=
  Life.run stack .absent (Threads.own t tr)

theorem life_step (tr : List (Tid × Event)) (c : Config Tid Table Thread) (x : Tid × Op)
    (stack : UInt64) : life x.1 stack (tr ++ Threads.events program c x)
      = (life x.1 stack tr).bind fun l =>
        Life.run stack l (thread_step x.1 x.2 c.mem (c.loc x.1)).events := by
  rw [life, Threads.own_step_self, Life.run_append]
  rfl

theorem life_step_of_ne (tr : List (Tid × Event)) (c : Config Tid Table Thread) {x : Tid × Op}
    {t : Tid} (ht : t ≠ x.1) (stack : UInt64) :
    life t stack (tr ++ Threads.events program c x) = life t stack tr := by
  rw [life, Threads.own_step_of_ne _ _ _ ht]
  rfl

/-- The invariant of every reachable configuration. -/
structure Inv (tr : List (Tid × Event)) (c : Config Tid Table Thread) : Prop where
  slots : ∀ i, SlotOk c i
  held : ∀ t i, (c.loc t).holds = some i → (c.mem.markers i).stack = U64_MAX
  unique : ∀ t u i, (c.loc t).holds = some i → (c.loc u).holds = some i → t = u
  count : c.mem.active.toNat + Threads.count Thread.counts c.loc
    = Threads.count Marker.taken c.mem.markers + Threads.count Thread.uncounts c.loc
  view : ∀ t, ∃ L : UInt64 → Life, (∀ s, life t s tr = some (L s)) ∧ View t c.mem (c.loc t) L

theorem inv_start : Inv [] start where
  slots _ := Or.inl ⟨rfl, rfl⟩
  held _ _ h := nomatch h
  unique _ _ _ h := nomatch h
  count := by
    simp [Threads.count, start, Table.new, Marker.taken, Marker.empty, Thread.counts,
      Thread.uncounts]
  view t := by
    have hnone : ∀ i, start.mem.marks t i = none := fun i =>
      Table.marks_eq_none.mpr fun h => not_published_zero rfl h.2
    refine ⟨fun _ => .absent, fun _ => rfl, ⟨fun i j k k' hi => ?_, fun i k hi => ?_, trivial,
      fun i k hi => ?_, fun s hs => absurd rfl hs, trivial⟩⟩
    all_goals
      rw [hnone i] at hi
      cases hi

theorem counts_holds {th : Thread} (h : th.counts = true) : ∃ i, th.holds = some i := by
  unfold Thread.counts at h
  split at h
  · exact ⟨_, rfl⟩
  · cases h

theorem taken_toNat (k : Marker) :
    k.taken.toNat = (decide k.published).toNat + k.reserved.toNat := by
  unfold Marker.taken Marker.reserved Marker.published
  by_cases h0 : k.stack = 0
  · have hmax : (0 : UInt64) ≠ U64_MAX := by decide
    simp [h0, hmax]
  · by_cases hm : k.stack = U64_MAX
    · have hne : U64_MAX ≠ 0 := by decide
      simp [hm, hne]
    · simp [h0, hm]

section Counting

variable {tr : List (Tid × Event)} {c : Config Tid Table Thread}

/-- A slot that is reserved and not yet counted is one of the reserved ones. -/
theorem Inv.counts_le (h : Inv tr c) :
    Threads.count Thread.counts c.loc ≤ Threads.count Marker.reserved c.mem.markers := by
  refine Threads.count_le_count (fun t => (c.loc t).holds) (fun t ht => ?_) h.unique
  obtain ⟨i, hi⟩ := counts_holds ht
  exact ⟨i, hi, by simp [Marker.reserved, h.held t i hi]⟩

/-- **The counter covers the published markers.** -/
theorem Inv.published_le (h : Inv tr c) :
    Threads.count (fun k : Marker => decide k.published) c.mem.markers ≤ c.mem.active.toNat := by
  -- Taken slots are published or reserved, and those not yet counted are among the reserved.
  have hcount := h.count
  have hle := h.counts_le
  have htaken := Threads.count_add taken_toNat c.mem.markers
  omega

theorem Inv.not_published (h : Inv tr c) (ha : c.mem.active = 0) (i : Index) :
    ¬(c.mem.markers i).published := by
  intro hp
  have hle := h.published_le
  rw [ha] at hle
  have hpos : 0 < Threads.count (fun k : Marker => decide k.published) c.mem.markers :=
    Threads.count_pos (i := i) (by simpa using hp)
  exact absurd (Nat.lt_of_lt_of_le hpos hle) (Nat.lt_irrefl 0)

/-- The counter is far from wrapping. -/
theorem Inv.active_le (h : Inv tr c) : c.mem.active.toNat ≤ 0x80000100 := by
  have hcount := h.count
  have htaken := Threads.count_le_card Marker.taken c.mem.markers
  -- No more than the slots and the threads that have yet to count one out.
  have hun := Threads.count_le_card Thread.uncounts c.loc
  have htid := card_tid_le
  have hcard : Fintype.card Index = 256 := Fintype.card_fin _
  omega

/-- What the rest of the table promises a thread. -/
theorem Inv.local (h : Inv tr c) (t : Tid) : Local t c.mem (c.loc t) where
  active ha i := Table.marks_eq_none.mpr fun hk => h.not_published ha i hk.2
  held := h.held t
  mine i hi := by
    rcases h.slots i with ⟨-, h0⟩ | ⟨-, u, hu, h0 | hut⟩ | ⟨hp, -⟩
    · exact absurd (hi.symm.trans h0) t.val_ne_zero
    · exact absurd (hi.symm.trans h0) t.val_ne_zero
    · obtain rfl := Tid.ext (hi.symm.trans hut)
      exact Or.inl hu
    · exact Or.inr ⟨_, Table.marks_eq_some.mpr ⟨rfl, hi, hp⟩⟩

end Counting

/-! ## One step -/

section Step

variable {tr : List (Tid × Event)} {c : Config Tid Table Thread}

theorem status_eq {th : Thread} {i : Option Index} {p q : Bool} (h : th.status = (i, p, q)) :
    th.holds = i ∧ th.counts = p ∧ th.uncounts = q := by
  obtain ⟨h1, h2⟩ := Prod.mk.inj h
  obtain ⟨h2, h3⟩ := Prod.mk.inj h2
  exact ⟨h1, h2, h3⟩

theorem Inv.effect (h : Inv tr c) (x : Tid × Op) :
    Effect x.1 c.mem (c.loc x.1) (thread_step x.1 x.2 c.mem (c.loc x.1)) := by
  obtain ⟨L, -, hv⟩ := h.view x.1
  exact thread_step_effect x.2 hv.ok

/-- A slot that is not another thread's, before or after, may change. -/
theorem rely_set {u : Tid} {m : Table} {i : Index} {k : Marker} {th : Thread}
    (hb : ¬((m.markers i).tid = u.val ∧ (m.markers i).published))
    (ha : ¬(k.tid = u.val ∧ k.published)) (hh : th.holds ≠ some i) :
    Rely u m (m.set i k) th := by
  refine ⟨funext fun j => ?_, fun j hj => ?_⟩
  · by_cases hji : j = i
    · subst hji
      rw [Table.marks_set_self, if_neg ha, Table.marks_eq_none.mpr hb]
    · exact Table.marks_set_of_ne _ _ _ hji
  · exact Table.set_markers_of_ne _ _ fun hji => hh (hji ▸ hj)

/-- Nobody's markers and nobody's reserved slot change by a step of another thread. -/
theorem Inv.rely (h : Inv tr c) (x : Tid × Op) {u : Tid} (hu : u ≠ x.1) :
    Rely u c.mem (Threads.step program c x).mem (c.loc u) := by
  rw [Threads.step_mem]
  simp only [program]
  -- A slot the moving thread may write is marked with its id or reserved by it, so it is
  -- neither a marker of `u` nor the slot `u` has reserved.
  have hother : ∀ {k : Marker}, k.tid = x.1.val → ¬(k.tid = u.val ∧ k.published) :=
    fun hk hku => hu (Tid.ext (hku.1.symm.trans hk))
  have hmax : ∀ {i}, (c.loc x.1).holds = some i → (c.loc u).holds ≠ some i :=
    fun hx hui => hu (h.unique u x.1 _ hui hx)
  have hpub : ∀ {i}, (c.mem.markers i).published → (c.loc u).holds ≠ some i :=
    fun hp hui => hp.2 (h.held u _ hui)
  cases h.effect x with
  | quiet hm | count _ hm | uncount hm =>
    rw [hm]
    exact ⟨rfl, fun _ _ => rfl⟩
  | reserve i hfree hm =>
    -- A free slot is nobody's.
    rw [hm]
    refine rely_set (fun hb => hb.2.1 hfree) (fun ha => ha.2.2 rfl) fun hui => ?_
    have h0 := (h.held u i hui).symm.trans hfree
    exact absurd h0 (by decide)
  | fill i k hm hk _ hs =>
    rw [hm]
    have hh := (status_eq hs).1
    have hst := h.held x.1 i hh
    exact rely_set (fun hb => hb.2.2 hst) (fun ha => ha.2.2 (hk.trans hst)) (hmax hh)
  | publish i k hm _ ht hs =>
    rw [hm]
    have hh := (status_eq hs).1
    exact rely_set (fun hb => hb.2.2 (h.held x.1 i hh)) (hother ht) (hmax hh)
  | mark i k hm hold _ ht =>
    rw [hm]
    exact rely_set (hother hold.1) (hother ht) (hpub hold.2)
  | take i hm hold =>
    rw [hm]
    exact rely_set (hother hold.1) (fun ha => ha.2.2 rfl) (hpub hold.2)
  | free i k hm hk _ hs =>
    rw [hm]
    have hh := (status_eq hs).1
    exact rely_set (fun hb => hb.2.2 (h.held x.1 i hh)) (fun ha => ha.2.1 hk) (hmax hh)

/-- What a thread holds after its step is reserved, and was nobody else's. -/
theorem Inv.holds_step (h : Inv tr c) (x : Tid × Op) {i : Index}
    (hi : (thread_step x.1 x.2 c.mem (c.loc x.1)).loc.holds = some i) :
    ((thread_step x.1 x.2 c.mem (c.loc x.1)).mem.markers i).stack = U64_MAX
      ∧ ((c.loc x.1).holds = some i ∨ (c.mem.markers i).stack ≠ U64_MAX) := by
  cases h.effect x with
  | quiet hm hs =>
    have hh : (c.loc x.1).holds = some i := (congrArg Prod.fst hs).symm.trans hi
    rw [hm]
    exact ⟨h.held x.1 i hh, Or.inl hh⟩
  | reserve j hfree hm _ hs' =>
    obtain rfl := Option.some.inj ((status_eq hs').1.symm.trans hi)
    rw [hm]
    refine ⟨by simp, Or.inr ?_⟩
    rw [hfree]
    decide
  | count j hm hs hs' =>
    obtain rfl := Option.some.inj ((status_eq hs').1.symm.trans hi)
    rw [hm]
    have hh := (status_eq hs).1
    exact ⟨h.held x.1 j hh, Or.inl hh⟩
  | fill j k hm hk _ hs hs' =>
    obtain rfl := Option.some.inj ((status_eq hs').1.symm.trans hi)
    rw [hm]
    have hh := (status_eq hs).1
    exact ⟨by simp [hk, h.held x.1 j hh], Or.inl hh⟩
  | take j hm hold _ hs' =>
    obtain rfl := Option.some.inj ((status_eq hs').1.symm.trans hi)
    rw [hm]
    exact ⟨by simp, Or.inr hold.2.2⟩
  | publish _ _ _ _ _ _ hs' | mark _ _ _ _ _ _ _ hs' | free _ _ _ _ _ _ hs' | uncount _ _ hs' =>
    cases (status_eq hs').1.symm.trans hi

/-- The reserved slots stay each one thread's. -/
theorem Inv.held_step (h : Inv tr c) (x : Tid × Op) {t : Tid} {i : Index}
    (hi : ((Threads.step program c x).loc t).holds = some i) :
    ((Threads.step program c x).mem.markers i).stack = U64_MAX := by
  by_cases ht : t = x.1
  · subst ht
    rw [Threads.step_loc_self] at hi
    exact (h.holds_step x hi).1
  · rw [Threads.step_loc_of_ne _ c x ht] at hi
    rw [(h.rely x ht).held i hi]
    exact h.held t i hi

theorem Inv.unique_step (h : Inv tr c) (x : Tid × Op) {t u : Tid} {i : Index}
    (ht : ((Threads.step program c x).loc t).holds = some i)
    (hu : ((Threads.step program c x).loc u).holds = some i) : t = u := by
  -- A slot one thread has just reserved was not reserved before.
  have hlone : ∀ {u}, u ≠ x.1 → ((Threads.step program c x).loc x.1).holds = some i →
      ((Threads.step program c x).loc u).holds = some i → False := by
    intro u hux hx hu
    rw [Threads.step_loc_self] at hx
    rw [Threads.step_loc_of_ne _ c x hux] at hu
    rcases (h.holds_step x hx).2 with hold | hne
    · exact hux (h.unique u x.1 i hu hold)
    · exact hne (h.held u i hu)
  by_cases htx : t = x.1 <;> by_cases hux : u = x.1
  · exact htx.trans hux.symm
  · subst htx
    exact (hlone hux ht hu).elim
  · subst hux
    exact (hlone htx hu ht).elim
  · rw [Threads.step_loc_of_ne _ c x htx] at ht
    rw [Threads.step_loc_of_ne _ c x hux] at hu
    exact h.unique t u i ht hu

/-- A slot that a step leaves alone, and whose holder goes on holding it. -/
theorem SlotOk.keep {i : Index} (h : SlotOk c i) (x : Tid × Op)
    (hm : (Threads.step program c x).mem.markers i = c.mem.markers i)
    (hh : (c.loc x.1).holds = some i → ((Threads.step program c x).loc x.1).holds = some i) :
    SlotOk (Threads.step program c x) i := by
  unfold SlotOk at h ⊢
  rw [hm]
  rcases h with h0 | ⟨hst, t, ht, htid⟩ | hp
  · exact Or.inl h0
  · refine Or.inr (Or.inl ⟨hst, t, ?_, htid⟩)
    by_cases htx : t = x.1
    · subst htx
      exact hh ht
    · rw [Threads.step_loc_of_ne _ c x htx]
      exact ht
  · exact Or.inr (Or.inr hp)

theorem Inv.slots_step (h : Inv tr c) (x : Tid × Op) (i : Index) :
    SlotOk (Threads.step program c x) i := by
  have hloc : (Threads.step program c x).loc x.1 = (thread_step x.1 x.2 c.mem (c.loc x.1)).loc :=
    Threads.step_loc_self _ c x
  have hmem : (Threads.step program c x).mem = (thread_step x.1 x.2 c.mem (c.loc x.1)).mem := rfl
  -- The step writes slot `j`, and holds no other slot before it.
  have hset : ∀ {j k}, (thread_step x.1 x.2 c.mem (c.loc x.1)).mem = c.mem.set j k →
      (∀ i, (c.loc x.1).holds = some i → i = j) →
      ((Threads.step program c x).mem.markers j = k → SlotOk (Threads.step program c x) j) →
      SlotOk (Threads.step program c x) i := by
    intro j k hm hh hj
    by_cases hij : i = j
    · subst hij
      refine hj ?_
      rw [hmem, hm]
      exact Table.set_markers_self _ _ _
    · refine (h.slots i).keep x ?_ fun hi => absurd (hh i hi) hij
      rw [hmem, hm]
      exact Table.set_markers_of_ne _ _ hij
  have hnone : ∀ {b b' : Bool}, (c.loc x.1).status = (none, b, b') →
      ∀ j i, (c.loc x.1).holds = some i → i = j := by
    intro b b' hs j i hi
    cases (status_eq hs).1.symm.trans hi
  have hsome : ∀ {j} {b b' : Bool}, (c.loc x.1).status = (some j, b, b') →
      ∀ i, (c.loc x.1).holds = some i → i = j := by
    intro j b b' hs i hi
    exact Option.some.inj (hi.symm.trans (status_eq hs).1)
  -- The slot it holds after the step.
  have hnow : ∀ {j} {b b' : Bool},
      (thread_step x.1 x.2 c.mem (c.loc x.1)).loc.status = (some j, b, b') →
      ((Threads.step program c x).loc x.1).holds = some j := by
    intro j b b' hs
    rw [hloc]
    exact (status_eq hs).1
  cases h.effect x with
  | quiet hm hs =>
    refine (h.slots i).keep x (by rw [hmem, hm]) fun hi => ?_
    rw [hloc]
    exact (congrArg Prod.fst hs).trans hi
  | reserve j hfree hm hs hs' =>
    refine hset hm (hnone hs j) fun hj => ?_
    unfold SlotOk
    rw [hj]
    refine Or.inr (Or.inl ⟨rfl, x.1, hnow hs', Or.inl ?_⟩)
    rcases h.slots j with ⟨-, h0⟩ | ⟨hst, -⟩ | ⟨hp, -⟩
    · exact h0
    · rw [hfree] at hst
      exact absurd hst (by decide)
    · exact absurd hfree hp.1
  | count j hm hs hs' =>
    refine (h.slots i).keep x (by rw [hmem, hm]) fun hi => ?_
    rw [hsome hs i hi]
    exact hnow hs'
  | fill j k hm hk ht hs hs' =>
    have hh := (status_eq hs).1
    refine hset hm (hsome hs) fun hj => ?_
    unfold SlotOk
    rw [hj]
    refine Or.inr (Or.inl ⟨hk.trans (h.held x.1 j hh), x.1, hnow hs', ?_⟩)
    rcases ht with ht | ht | ht
    · exact Or.inl ht
    · exact Or.inr ht
    · -- What was in the reserved slot was nobody's or this thread's.
      rcases h.slots j with ⟨h0, -⟩ | ⟨-, t, htj, htid⟩ | ⟨hp, -⟩
      · exact absurd ((h.held x.1 j hh).symm.trans h0) (by decide)
      · rw [ht, h.unique x.1 t j hh htj]
        exact htid
      · exact absurd (h.held x.1 j hh) hp.2
  | publish j k hm hk ht hs hs' =>
    refine hset hm (hsome hs) fun hj => ?_
    unfold SlotOk
    rw [hj]
    exact Or.inr (Or.inr ⟨hk, x.1, ht⟩)
  | mark j k hm hold hk ht hs hs' =>
    refine hset hm (hnone hs j) fun hj => ?_
    unfold SlotOk
    rw [hj]
    refine Or.inr (Or.inr ⟨?_, x.1, ht⟩)
    unfold Marker.published
    rw [hk]
    exact hold.2
  | take j hm hold hs hs' =>
    refine hset hm (hnone hs j) fun hj => ?_
    unfold SlotOk
    rw [hj]
    exact Or.inr (Or.inl ⟨rfl, x.1, hnow hs', Or.inr hold.1⟩)
  | free j k hm hk ht hs hs' =>
    refine hset hm (hsome hs) fun hj => ?_
    unfold SlotOk
    rw [hj]
    exact Or.inl ⟨hk, ht⟩
  | uncount hm hs hs' =>
    refine (h.slots i).keep x (by rw [hmem, hm]) fun hi => ?_
    cases (status_eq hs).1.symm.trans hi

theorem taken_max {k : Marker} (h : k.stack = U64_MAX) : k.taken = true := by
  unfold Marker.taken
  rw [h]
  decide

theorem taken_published {k : Marker} (h : k.published) : k.taken = true := by
  unfold Marker.taken
  simpa using h.1

theorem taken_zero {k : Marker} (h : k.stack = 0) : k.taken = false := by
  unfold Marker.taken
  simpa using h

theorem taken_congr {k k' : Marker} (h : k.stack = k'.stack) : k.taken = k'.taken := by
  unfold Marker.taken
  rw [h]

/-- The counter follows the slots. -/
theorem Inv.count_step (h : Inv tr c) (x : Tid × Op) :
    (Threads.step program c x).mem.active.toNat
        + Threads.count Thread.counts (Threads.step program c x).loc
      = Threads.count Marker.taken (Threads.step program c x).mem.markers
        + Threads.count Thread.uncounts (Threads.step program c x).loc := by
  have hcount := h.count
  have hactive := h.active_le
  have hle := h.counts_le
  have htaken := Threads.count_add taken_toNat c.mem.markers
  have hn := fun i k => Threads.count_update Marker.taken c.mem.markers i k
  -- How many threads are between the table and the counter.
  have hp := Threads.count_update Thread.counts c.loc x.1
    (thread_step x.1 x.2 c.mem (c.loc x.1)).loc
  have hq := Threads.count_update Thread.uncounts c.loc x.1
    (thread_step x.1 x.2 c.mem (c.loc x.1)).loc
  have hbetween : ∀ {i i' : Option Index} {p p' q q' : Bool}, (c.loc x.1).status = (i, p, q) →
      (thread_step x.1 x.2 c.mem (c.loc x.1)).loc.status = (i', p', q') →
      Threads.count Thread.counts (Function.update c.loc x.1
          (thread_step x.1 x.2 c.mem (c.loc x.1)).loc) + p.toNat
        = Threads.count Thread.counts c.loc + p'.toNat
      ∧ Threads.count Thread.uncounts (Function.update c.loc x.1
          (thread_step x.1 x.2 c.mem (c.loc x.1)).loc) + q.toNat
        = Threads.count Thread.uncounts c.loc + q'.toNat := by
    intro i i' p p' q q' hs hs'
    rw [(status_eq hs).2.1, (status_eq hs').2.1] at hp
    rw [(status_eq hs).2.2, (status_eq hs').2.2] at hq
    exact ⟨hp, hq⟩
  simp only [Threads.step, program]
  cases h.effect x with
  | quiet hm hs =>
    have hs1 : (thread_step x.1 x.2 c.mem (c.loc x.1)).loc.counts = (c.loc x.1).counts :=
      congrArg (fun s => s.2.1) hs
    have hs2 : (thread_step x.1 x.2 c.mem (c.loc x.1)).loc.uncounts = (c.loc x.1).uncounts :=
      congrArg (fun s => s.2.2) hs
    rw [hs1] at hp
    rw [hs2] at hq
    rw [hm]
    omega
  | reserve j hfree hm hs hs' =>
    have hj := hn j { c.mem.markers j with stack := U64_MAX }
    rw [taken_zero hfree, taken_max rfl] at hj
    obtain ⟨hp, hq⟩ := hbetween hs hs'
    rw [hm]
    simp only [Table.set, Bool.toNat_true, Bool.toNat_false] at hj hp hq ⊢
    omega
  | count j hm hs hs' =>
    -- The word does not wrap: there are not that many threads.
    have hadd : (c.mem.active + 1).toNat = c.mem.active.toNat + 1 := by
      rw [UInt32.toNat_add]
      change (_ + 1) % 2 ^ 32 = _
      omega
    obtain ⟨hp, hq⟩ := hbetween hs hs'
    rw [hm]
    simp only [hadd, Bool.toNat_true, Bool.toNat_false] at hp hq ⊢
    omega
  | fill j k hm hk _ hs hs' | mark j k hm _ hk _ hs hs' =>
    have hj := hn j k
    rw [taken_congr hk] at hj
    obtain ⟨hp, hq⟩ := hbetween hs hs'
    rw [hm]
    simp only [Table.set, Bool.toNat_false] at hj hp hq ⊢
    omega
  | publish j k hm hk _ hs hs' =>
    have hj := hn j k
    rw [taken_published hk, taken_max (h.held x.1 j (status_eq hs).1)] at hj
    obtain ⟨hp, hq⟩ := hbetween hs hs'
    rw [hm]
    simp only [Table.set, Bool.toNat_true, Bool.toNat_false] at hj hp hq ⊢
    omega
  | take j hm hold hs hs' =>
    have hj := hn j { c.mem.markers j with stack := U64_MAX }
    rw [taken_published hold.2, taken_max rfl] at hj
    obtain ⟨hp, hq⟩ := hbetween hs hs'
    rw [hm]
    simp only [Table.set, Bool.toNat_true, Bool.toNat_false] at hj hp hq ⊢
    omega
  | free j k hm hk _ hs hs' =>
    have hj := hn j k
    rw [taken_zero hk, taken_max (h.held x.1 j (status_eq hs).1)] at hj
    obtain ⟨hp, hq⟩ := hbetween hs hs'
    rw [hm]
    simp only [Table.set, Bool.toNat_true, Bool.toNat_false] at hj hp hq ⊢
    omega
  | uncount hm hs hs' =>
    -- The thread itself is one of those not yet counted out, so the counter is not zero.
    have hpos : 0 < Threads.count Thread.uncounts c.loc :=
      Threads.count_pos (i := x.1) (status_eq hs).2.2
    have hone : (1 : UInt32) ≤ c.mem.active := by
      rw [UInt32.le_iff_toNat_le]
      change 1 ≤ _
      omega
    have hsub : (c.mem.active - 1).toNat = c.mem.active.toNat - 1 :=
      UInt32.toNat_sub_of_le _ _ hone
    obtain ⟨hp, hq⟩ := hbetween hs hs'
    rw [hm]
    simp only [hsub, Bool.toNat_true, Bool.toNat_false] at hp hq ⊢
    omega

theorem Inv.view_step (h : Inv tr c) (x : Tid × Op) (t : Tid) :
    ∃ L : UInt64 → Life, (∀ s, life t s (tr ++ Threads.events program c x) = some (L s))
      ∧ View t (Threads.step program c x).mem ((Threads.step program c x).loc t) L := by
  obtain ⟨L, hlife, hv⟩ := h.view t
  unfold life at hlife ⊢
  by_cases ht : t = x.1
  · -- The thread that moves, by its own invariant; the others rely on theirs being untouched.
    subst ht
    obtain ⟨L', hrun, hv'⟩ := hv.step (h.local x.1) x.2
    refine ⟨L', fun s => ?_, ?_⟩
    · rw [Threads.own_step_self, Life.run_append, hlife]
      exact hrun s
    · rw [Threads.step_loc_self]
      exact hv'
  · refine ⟨L, fun s => ?_, ?_⟩
    · rw [Threads.own_step_of_ne _ _ _ ht]
      exact hlife s
    · rw [Threads.step_loc_of_ne _ c x ht]
      exact hv.rely (h.rely x ht)

theorem Inv.step (h : Inv tr c) (x : Tid × Op) :
    Inv (tr ++ Threads.events program c x) (Threads.step program c x) where
  slots := h.slots_step x
  held _ _ := h.held_step x
  unique _ _ _ := h.unique_step x
  count := h.count_step x
  view := h.view_step x

end Step

/-- **The invariant holds in every reachable configuration.** -/
theorem inv_run (s : List (Tid × Op)) :
    Inv (Threads.trace program start s) (Threads.run program start s) :=
  Threads.run_induct program inv_start (fun _ _ x h => h.step x) s

end Linuwux.Markers
