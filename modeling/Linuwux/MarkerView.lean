/-
`MarkerView.lean` -- the marker table as one thread sees it.

A thread only ever releases, routes or replays its own markers, and a slot it has reserved
is its own until it publishes or frees it. So a thread's markers ([`Table.marks`]) and its
reserved slot change by its own steps alone, and what the other threads do to the rest of
the table does not matter to it. That turns the lifecycle of a marker into a sequential
argument: [`View`] is the invariant of one thread, it survives every step of another thread
because nothing it speaks of has changed ([`View.rely`]), and every step of its own by a case
split over the program points ([`View.step`]).

The lifecycle itself is a small automaton over the events of a thread at one stack pointer
([`Life`]); a run is lawful when the automaton never gets stuck.
-/
import Linuwux.MarkerThreads

set_option autoImplicit false

namespace Linuwux.Markers

open Threads (Outcome Program Config)

/-! ## The lifecycle -/

/-- Where the marker of a thread at a stack pointer is in its life. -/
inductive Life where
  | absent
  | armed (rip : UInt64)
  | routed (rip : UInt64) (context : SavedContext)
  deriving DecidableEq

namespace Life

/-- One event, for the marker at `stack`: it is armed when there is none, routed once after
that, and then replayed with the very context it was routed with, or it is dropped. -/
def next (stack : UInt64) (l : Life) : Event → Option Life
  | .armed s rip =>
    if s ≠ stack then some l else if l = .absent then some (.armed rip) else none
  | .routed s rip context =>
    if s ≠ stack then some l else if l = .armed rip then some (.routed rip context) else none
  | .replayed s rip saved =>
    if s ≠ stack then some l else if l = .routed rip saved then some .absent else none
  | .dropped s => if s ≠ stack then some l else if l = .absent then none else some .absent
  | _ => some l

/-- The life after a list of events, none when an event was out of turn. -/
def run (stack : UInt64) : Life → List Event → Option Life
  | l, [] => some l
  | l, e :: es => (l.next stack e).bind fun l' => run stack l' es

theorem run_append (stack : UInt64) (l : Life) (es es' : List Event) :
    run stack l (es ++ es') = (run stack l es).bind fun l' => run stack l' es' := by
  induction es generalizing l with
  | nil => rfl
  | cons e es ih =>
    simp only [List.cons_append, run, ih]
    cases l.next stack e <;> rfl

end Life

/-- What a published marker says about its life. -/
def Marker.life (k : Marker) : Life :=
  if k.phase = 0 then .armed k.rip else .routed k.rip (.of_words k.words)

theorem Marker.life_ne_absent (k : Marker) : k.life ≠ .absent := by
  unfold Marker.life
  split <;> nofun

/-! ## What a thread knows at a program point -/

/-- The thread's markers below index `n` are deeper calls' elders: all above `stack`. -/
def Table.Above (m : Table) (t : Tid) (stack : UInt64) (n : ℕ) : Prop :=
  ∀ j k, j.val < n → m.marks t j = some k → stack < k.stack

/-- The thread has no marker at `stack`. -/
def Table.Gone (m : Table) (t : Tid) (stack : UInt64) : Prop :=
  ∀ j k, m.marks t j = some k → k.stack ≠ stack

/-- The compare-exchange of `release_marker` is behind. -/
def ReleasePc.started : ReleasePc → Bool
  | .cas => false
  | _ => true

/-- Releasing the thread's marker at `stack`, found at index `i`. -/
def ReleasePc.Ok (t : Tid) (m : Table) (i : Index) (stack : UInt64) : ReleasePc → Prop
  | .cas => ∃ k, m.marks t i = some k ∧ k.stack = stack
  | .clear_tid | .uncount => m.Gone t stack ∧ m.marks t i = none
  | .clear_rip | .clear_phase | .clear_word _ _ | .free =>
    m.Gone t stack ∧ m.marks t i = none ∧ (m.markers i).tid = 0

def DispatchPc.Ok (t : Tid) (m : Table) (d : Dispatch) : DispatchPc → Prop
  | .has_active | .retire_active => True
  | .retire_tid i => m.Above t d.trap_rsp i
  | .retire_stack i => m.Above t d.trap_rsp i ∧ ∃ k, m.marks t i = some k
  | .retire_again i recorded =>
    m.Above t d.trap_rsp i ∧ ∃ k, m.marks t i = some k ∧ k.stack = recorded
  | .retire_release i recorded pc => m.Above t d.trap_rsp i ∧ pc.Ok t m i recorded
  | .decide | .reserve _ _ | .count _ _ | .arm_tid _ _ => m.Above t d.trap_rsp MARKER_CAPACITY
  | .arm_rip _ i => m.Above t d.trap_rsp MARKER_CAPACITY ∧ (m.markers i).tid = t.val
  | .arm_phase raw i =>
    m.Above t d.trap_rsp MARKER_CAPACITY ∧ (m.markers i).tid = t.val
      ∧ (m.markers i).rip = Dispatch.trap_rip raw
  | .publish raw i =>
    m.Above t d.trap_rsp MARKER_CAPACITY ∧ (m.markers i).tid = t.val
      ∧ (m.markers i).rip = Dispatch.trap_rip raw ∧ (m.markers i).phase = 0

def FindPc.Ok (t : Tid) (m : Table) (stack : UInt64) : FindPc → Prop
  | .active | .stack _ => True
  | .tid k => ∀ mk, m.marks t (probe stack k) = some mk → mk.stack = stack
  | .rip k => ∃ mk, m.marks t (probe stack k) = some mk ∧ mk.stack = stack

/-- The thread's own marker for this trap is at index `i`. -/
def Trap.MarkedAt (t : Tid) (m : Table) (r : Trap) (i : Index) (k : Marker) : Prop :=
  m.marks t i = some k ∧ k.stack = r.rsp.val ∧ k.rip = r.rip

def TrapPc.Ok (t : Tid) (m : Table) (r : Trap) : TrapPc → Prop
  | .consume_find pc | .cancel_find pc => pc.Ok t m r.rsp.val
  | .route i => ∃ k, r.MarkedAt t m i k
  | .save i w rest =>
    ∃ k, r.MarkedAt t m i k ∧ k.phase = 1
      ∧ ∀ w', w' ∉ w :: rest → k.words w' = r.context.word w'
  | .replay i => ∃ k, r.MarkedAt t m i k ∧ k.phase = 1
  | .load i w rest got =>
    ∃ k, r.MarkedAt t m i k ∧ k.phase = 2 ∧ ∀ w', w' ∉ w :: rest → got w' = k.words w'
  | .release i pc (.replay saved) =>
    pc.Ok t m i r.rsp.val
      ∧ (pc.started = false → ∃ k, r.MarkedAt t m i k ∧ k.phase = 2 ∧ .of_words k.words = saved)
  | .release i pc .cancel => pc.Ok t m i r.rsp.val
  -- The phase is never 2 when a trap finds the marker.
  | .release _ _ .fall_through => False

def Thread.Ok (t : Tid) (m : Table) : Thread → Prop
  | .idle => True
  | .dispatching d pc => pc.Ok t m d
  | .trapping r pc => pc.Ok t m r

/-- The marker whose phase is 1 and whose words are being saved. -/
def Thread.saving : Thread → Option Index
  | .trapping _ (.save i _ _) => some i
  | _ => none

/-- The marker whose phase is 2. -/
def Thread.replaying : Thread → Option Index
  | .trapping _ (.load i _ _ _) => some i
  | .trapping _ (.release i pc (.replay _)) => if pc.started then none else some i
  | _ => none

/-- The stack pointer whose marker has been taken out of the table and not yet reported. -/
def Thread.releasing : Thread → Option UInt64
  | .dispatching _ (.retire_release _ recorded pc) => if pc.started then some recorded else none
  | .trapping r (.release _ pc _) => if pc.started then some r.rsp.val else none
  | _ => none

/-- Where the life of the marker in hand is ahead of, or behind, the table. -/
def Thread.Living (L : UInt64 → Life) : Thread → Prop
  | .trapping r (.save _ _ _) => L r.rsp.val = .armed r.rip
  | .trapping r (.release _ pc (.replay saved)) =>
    pc.started = true → L r.rsp.val = .routed r.rip saved
  | .trapping r (.release _ pc _) => pc.started = true → L r.rsp.val ≠ .absent
  | .dispatching _ (.retire_release _ recorded pc) => pc.started = true → L recorded ≠ .absent
  | _ => True

/-- The invariant of one thread: its markers, its program point, and the lives its events
have led to. -/
structure View (t : Tid) (m : Table) (th : Thread) (L : UInt64 → Life) : Prop where
  one : ∀ i j k k', m.marks t i = some k → m.marks t j = some k' → k.stack = k'.stack → i = j
  phase : ∀ i k, m.marks t i = some k → th.replaying ≠ some i → k.phase = 0 ∨ k.phase = 1
  ok : th.Ok t m
  marked : ∀ i k, m.marks t i = some k → th.saving ≠ some i → L k.stack = k.life
  absent : ∀ s, L s ≠ .absent →
    th.releasing = some s ∨ ∃ i k, m.marks t i = some k ∧ k.stack = s
  living : th.Living L

/-! ## Steps of other threads -/

/-- What a thread relies on across a step of another one. -/
structure Rely (t : Tid) (m m' : Table) (th : Thread) : Prop where
  marks : m'.marks t = m.marks t
  held : ∀ i, th.holds = some i → m'.markers i = m.markers i

theorem ReleasePc.Ok.rely {t : Tid} {m m' : Table} {i : Index} {stack : UInt64} {pc : ReleasePc}
    (h : pc.Ok t m i stack) (hm : m'.marks t = m.marks t)
    (hh : pc.holds = true → m'.markers i = m.markers i) : pc.Ok t m' i stack := by
  cases pc with
  | cas | clear_tid | uncount => simpa only [ReleasePc.Ok, Table.Gone, hm] using h
  | clear_rip | clear_phase | clear_word | free =>
    simpa only [ReleasePc.Ok, Table.Gone, hm, hh rfl] using h

theorem Thread.Ok.rely {t : Tid} {m m' : Table} {th : Thread} (h : th.Ok t m)
    (hr : Rely t m m' th) : th.Ok t m' := by
  obtain ⟨hm, hh⟩ := hr
  cases th with
  | idle => trivial
  | dispatching d pc =>
    cases pc with
    | arm_rip raw i | arm_phase raw i | publish raw i =>
      simpa only [Thread.Ok, DispatchPc.Ok, Table.Above, hm, hh i rfl] using h
    | retire_release i recorded pc =>
      refine ⟨by simpa only [Table.Above, hm] using h.1, h.2.rely hm fun hp => hh i ?_⟩
      simp [Thread.holds, hp]
    | has_active | retire_active => trivial
    | _ => simpa only [Thread.Ok, DispatchPc.Ok, Table.Above, hm] using h
  | trapping r pc =>
    cases pc with
    | release i pc why =>
      have hpc : pc.Ok t m i r.rsp.val → pc.Ok t m' i r.rsp.val := fun hk =>
        hk.rely hm fun hp => hh i (by simp [Thread.holds, hp])
      cases why with
      | replay saved =>
        refine ⟨hpc h.1, ?_⟩
        simpa only [Trap.MarkedAt, hm] using h.2
      | fall_through => exact h
      | cancel => exact hpc h
    | consume_find pc | cancel_find pc =>
      cases pc with
      | active | stack k => trivial
      | tid k | rip k => simpa only [Thread.Ok, TrapPc.Ok, FindPc.Ok, hm] using h
    | _ => simpa only [Thread.Ok, TrapPc.Ok, Trap.MarkedAt, hm] using h

theorem View.rely {t : Tid} {m m' : Table} {th : Thread} {L : UInt64 → Life}
    (h : View t m th L) (hr : Rely t m m' th) : View t m' th L where
  one := by simpa only [hr.marks] using h.one
  phase := by simpa only [hr.marks] using h.phase
  ok := h.ok.rely hr
  marked := by simpa only [hr.marks] using h.marked
  absent := by simpa only [hr.marks] using h.absent
  living := h.living

/-! ## Steps of its own -/

/-- What the rest of the table promises a thread: the counter hides none of its markers, its
reserved slot is still reserved, and a slot with its id is its own. -/
structure Local (t : Tid) (m : Table) (th : Thread) : Prop where
  active : m.active = 0 → ∀ i, m.marks t i = none
  held : ∀ i, th.holds = some i → (m.markers i).stack = U64_MAX
  mine : ∀ i, (m.markers i).tid = t.val → th.holds = some i ∨ ∃ k, m.marks t i = some k

/-- A step whose events are in turn and which keeps the thread's invariant. -/
def Advances (t : Tid) (o : Outcome Table Thread Event) (L : UInt64 → Life) : Prop :=
  ∃ L' : UInt64 → Life, (∀ s, Life.run s (L s) o.events = some (L' s)) ∧ View t o.mem o.loc L'

/-- The events are no marker's. -/
def Quiet (es : List Event) : Prop := ∀ s l, Life.run s l es = some l

/-- An event of the marker at `stack`, with quiet ones after it, moves only that life on. -/
theorem Life.run_update {stack : UInt64} {L : UInt64 → Life} {l : Life} {e : Event}
    {es : List Event} (hself : (L stack).next stack e = some l)
    (hother : ∀ s l, s ≠ stack → Life.next s l e = some l) (hq : Quiet es) (s : UInt64) :
    Life.run s (L s) (e :: es) = some (Function.update L stack l s) := by
  rw [Life.run]
  by_cases hs : s = stack
  · subst hs
    rw [hself, Option.bind_some, Function.update_self]
    exact hq _ _
  · rw [hother s _ hs, Option.bind_some, Function.update_of_ne hs]
    exact hq _ _

/-- The thread has no marker in hand. -/
def Thread.plain : Thread → Bool
  | .trapping _ (.save _ _ _) | .trapping _ (.load _ _ _ _)
  | .trapping _ (.release _ _ (.replay _)) => false
  | .dispatching _ (.retire_release _ _ pc) | .trapping _ (.release _ pc _) => !pc.started
  | _ => true

theorem Thread.plain_spec {th : Thread} (h : th.plain = true) :
    th.saving = none ∧ th.replaying = none ∧ th.releasing = none ∧ ∀ L, th.Living L := by
  cases th with
  | idle => exact ⟨rfl, rfl, rfl, fun _ => trivial⟩
  | dispatching d pc =>
    cases pc with
    | retire_release i recorded pc =>
      have hp : pc.started = false := by simpa [Thread.plain] using h
      simp [Thread.saving, Thread.replaying, Thread.releasing, Thread.Living, hp]
    | _ => exact ⟨rfl, rfl, rfl, fun _ => trivial⟩
  | trapping r pc =>
    cases pc with
    | save | load => cases h
    | release i pc why =>
      cases why with
      | replay saved => cases h
      | fall_through | cancel =>
        have hp : pc.started = false := by simpa [Thread.plain] using h
        simp [Thread.saving, Thread.replaying, Thread.releasing, Thread.Living, hp]
    | _ => exact ⟨rfl, rfl, rfl, fun _ => trivial⟩

/-- Nothing of the thread's markers changes. -/
theorem View.plain {t : Tid} {m m' : Table} {th th' : Thread} {L : UInt64 → Life}
    (h : View t m th L) (hp : th.plain = true) (hp' : th'.plain = true)
    (hm : m'.marks t = m.marks t) (hok : th'.Ok t m') : View t m' th' L := by
  obtain ⟨hs, hr, hl, -⟩ := Thread.plain_spec hp
  obtain ⟨-, -, -, hliv⟩ := Thread.plain_spec hp'
  refine ⟨?_, ?_, hok, ?_, ?_, hliv L⟩
  · rw [hm]
    exact h.one
  · rw [hm]
    exact fun i k hk _ => h.phase i k hk (by rw [hr]; nofun)
  · rw [hm]
    exact fun i k hk _ => h.marked i k hk (by rw [hs]; nofun)
  · rw [hm]
    intro s hne
    rcases h.absent s hne with hrel | hmark
    · rw [hl] at hrel
      cases hrel
    · exact Or.inr hmark

/-- A quiet step of that kind. -/
theorem View.advances_plain {t : Tid} {m : Table} {th : Thread} {L : UInt64 → Life}
    (h : View t m th L) (hp : th.plain = true) {o : Outcome Table Thread Event}
    (hp' : o.loc.plain = true) (hm : o.mem.marks t = m.marks t) (hok : o.loc.Ok t o.mem)
    (hq : Quiet o.events) : Advances t o L :=
  ⟨L, fun s => hq s (L s), h.plain hp hp' hm hok⟩

/-! ### Releasing -/

/-- The thread's marker at `stack`, and no other, is gone. -/
def Removes (t : Tid) (m m' : Table) (stack : UInt64) : Prop :=
  ∀ j k, m'.marks t j = some k ↔ m.marks t j = some k ∧ k.stack ≠ stack

theorem Removes.gone {t : Tid} {m m' : Table} {stack : UInt64} (h : Removes t m m' stack) :
    m'.Gone t stack := fun j k hk => ((h j k).mp hk).2

theorem removes_of_gone {t : Tid} {m m' : Table} {stack : UInt64} (h : m.Gone t stack)
    (hm : m'.marks t = m.marks t) : Removes t m m' stack := by
  intro j k
  rw [hm]
  exact ⟨fun hk => ⟨hk, h j k hk⟩, fun hk => hk.1⟩

/-- A release that goes on has taken the marker out, or had before. -/
theorem release_step_more {t : Tid} {m m' : Table} {i : Index} {stack : UInt64}
    {pc pc' : ReleasePc} (hok : pc.Ok t m i stack)
    (hheld : pc.holds = true → (m.markers i).stack = U64_MAX)
    (hone : ∀ i j k k', m.marks t i = some k → m.marks t j = some k' → k.stack = k'.stack → i = j)
    (hstep : release_step m i stack pc = (m', some pc')) :
    Removes t m m' stack ∧ pc'.Ok t m' i stack ∧ pc'.started = true := by
  -- While the slot is reserved, clearing a word or freeing it changes nobody's markers.
  have hclear : ∀ {k : Marker} {pc₁ : ReleasePc}, (m.set i k, some pc₁) = (m', some pc') →
      pc.holds = true → pc.started = true → k.stack = 0 ∨ k.stack = U64_MAX →
      Removes t m m' stack ∧ m'.Gone t stack ∧ m'.marks t i = none ∧ pc' = pc₁
        ∧ m'.markers i = k := by
    intro k pc₁ hset hh hs hk
    obtain ⟨rfl, hpc⟩ := Prod.mk.inj hset
    obtain rfl := Option.some.inj hpc
    have hmarks : (m.set i k).marks t = m.marks t := by
      refine Table.marks_set_unpublished (not_published_max (hheld hh)) ?_ t
      rcases hk with hk | hk
      · exact not_published_zero hk
      · exact not_published_max hk
    have hgone : m.Gone t stack ∧ m.marks t i = none := by
      cases pc with
      | cas => cases hs
      | clear_tid | uncount => exact hok
      | clear_rip | clear_phase | clear_word | free => exact ⟨hok.1, hok.2.1⟩
    have hrem := removes_of_gone hgone.1 hmarks
    exact ⟨hrem, hrem.gone, by rw [hmarks]; exact hgone.2, rfl, m.set_markers_self i k⟩
  have hwords : ∀ rest m', m'.Gone t stack → m'.marks t i = none → (m'.markers i).tid = 0 →
      (ReleasePc.words rest).Ok t m' i stack ∧ (ReleasePc.words rest).started = true := by
    intro rest m' h1 h2 h3
    cases rest <;> exact ⟨⟨h1, h2, h3⟩, rfl⟩
  cases pc with
  | cas =>
    obtain ⟨k, hk, hs⟩ := hok
    obtain ⟨hmk, htid, hpub⟩ := Table.marks_eq_some.mp hk
    simp only [release_step] at hstep
    rw [if_pos (by rw [hmk]; exact hs)] at hstep
    obtain ⟨rfl, he⟩ := Prod.mk.inj hstep
    obtain rfl := Option.some.inj he
    have hnone : (m.set i { m.markers i with stack := U64_MAX }).marks t i = none := by
      rw [Table.marks_set_self, if_neg]
      exact fun hp => hp.2.2 rfl
    have hrem : Removes t m (m.set i { m.markers i with stack := U64_MAX }) stack := by
      intro j k'
      by_cases hj : j = i
      · subst hj
        rw [hnone, hk]
        constructor
        · nofun
        · rintro ⟨he, hne⟩
          cases he
          exact absurd hs hne
      · rw [Table.marks_set_of_ne _ _ _ hj]
        refine ⟨fun hk' => ⟨hk', fun he => hj ?_⟩, fun hk' => hk'.1⟩
        exact hone j i k' k hk' hk (he.trans hs.symm)
    exact ⟨hrem, ⟨hrem.gone, hnone⟩, rfl⟩
  | clear_tid =>
    obtain ⟨h1, h2, h3, rfl, h5⟩ := hclear hstep rfl rfl (Or.inr (hheld rfl))
    exact ⟨h1, ⟨h2, h3, by rw [h5]⟩, rfl⟩
  | clear_rip =>
    obtain ⟨h1, h2, h3, rfl, h5⟩ := hclear hstep rfl rfl (Or.inr (hheld rfl))
    exact ⟨h1, ⟨h2, h3, by rw [h5]; exact hok.2.2⟩, rfl⟩
  | clear_phase =>
    obtain ⟨h1, h2, h3, rfl, h5⟩ := hclear hstep rfl rfl (Or.inr (hheld rfl))
    exact ⟨h1, hwords _ _ h2 h3 (by rw [h5]; exact hok.2.2)⟩
  | clear_word w rest =>
    obtain ⟨h1, h2, h3, rfl, h5⟩ := hclear hstep rfl rfl (Or.inr (hheld rfl))
    exact ⟨h1, hwords _ _ h2 h3 (by rw [h5]; exact hok.2.2)⟩
  | free =>
    obtain ⟨h1, h2, h3, rfl, -⟩ := hclear hstep rfl rfl (Or.inl rfl)
    exact ⟨h1, ⟨h2, h3⟩, rfl⟩
  | uncount => cases hstep

/-- A release returns after it has counted the slot out, and not before: the
compare-exchange of a marker the thread owns does not fail. -/
theorem release_step_done {t : Tid} {m m' : Table} {i : Index} {stack : UInt64}
    {pc : ReleasePc} (hok : pc.Ok t m i stack) (hstep : release_step m i stack pc = (m', none)) :
    pc = .uncount ∧ m' = { m with active := m.active - 1 } := by
  cases pc with
  | cas =>
    obtain ⟨k, hk, hs⟩ := hok
    obtain ⟨hmk, -, -⟩ := Table.marks_eq_some.mp hk
    simp only [release_step] at hstep
    rw [if_pos (by rw [hmk]; exact hs)] at hstep
    cases hstep
  | uncount => exact ⟨rfl, (Prod.mk.inj hstep).1.symm⟩
  | _ => cases hstep

/-- The marker at `stack` leaves the table, its life waits for the event. -/
theorem View.removes {t : Tid} {m m' : Table} {th th' : Thread} {L : UInt64 → Life}
    {stack : UInt64} (h : View t m th L) (hrem : Removes t m m' stack) (hs : th.saving = none)
    (hr : ∀ j k, th.replaying = some j → m.marks t j = some k → k.stack = stack)
    (hrel : ∀ s, th.releasing = some s → s = stack) (hrel' : th'.releasing = some stack)
    (hok' : th'.Ok t m') (hliv' : th'.Living L) : View t m' th' L := by
  refine ⟨fun i j k k' hi hj => ?_, fun i k hi _ => ?_, hok', fun i k hi _ => ?_, fun s hne => ?_,
    hliv'⟩
  · exact h.one i j k k' ((hrem i k).mp hi).1 ((hrem j k').mp hj).1
  · obtain ⟨hi, hne⟩ := (hrem i k).mp hi
    exact h.phase i k hi fun hrep => hne (hr i k hrep hi)
  · exact h.marked i k ((hrem i k).mp hi).1 (by rw [hs]; nofun)
  · rcases h.absent s hne with hold | ⟨i, k, hi, rfl⟩
    · rw [hrel s hold]
      exact Or.inl hrel'
    · by_cases hk : k.stack = stack
      · rw [hk]
        exact Or.inl hrel'
      · exact Or.inr ⟨i, k, (hrem i k).mpr ⟨hi, hk⟩, rfl⟩

/-- The event that the marker at `stack` is gone. -/
theorem View.released {t : Tid} {m m' : Table} {th th' : Thread} {L : UInt64 → Life}
    {stack : UInt64} (h : View t m th L) (hgone : m.Gone t stack) (hs : th.saving = none)
    (hr : th.replaying = none) (hrel : th.releasing = some stack) (hp' : th'.plain = true)
    (hm : m'.marks t = m.marks t) (hok' : th'.Ok t m') :
    View t m' th' (Function.update L stack .absent) := by
  obtain ⟨-, -, -, hliv⟩ := Thread.plain_spec hp'
  refine ⟨?_, ?_, hok', ?_, fun s hne => ?_, hliv _⟩
  · rw [hm]
    exact h.one
  · rw [hm]
    exact fun i k hi _ => h.phase i k hi (by rw [hr]; nofun)
  · rw [hm]
    intro i k hi _
    rw [Function.update_of_ne (hgone i k hi)]
    exact h.marked i k hi (by rw [hs]; nofun)
  · rw [hm]
    by_cases hst : s = stack
    · subst hst
      rw [Function.update_self] at hne
      exact absurd rfl hne
    · rw [Function.update_of_ne hst] at hne
      rcases h.absent s hne with hold | hmark
      · rw [hrel] at hold
        exact absurd (Option.some.inj hold).symm hst
      · exact Or.inr hmark

/-! ### `dispatcher_target` -/

theorem quiet_nil : Quiet [] := fun _ _ => rfl

theorem Table.Above.of_none {m : Table} {t : Tid} (h : ∀ i, m.marks t i = none) (stack : UInt64)
    (n : ℕ) : m.Above t stack n := by
  intro j k _ hk
  rw [h j] at hk
  cases hk

theorem Table.Above.succ {m : Table} {t : Tid} {stack : UInt64} {i : Index}
    (h : m.Above t stack i) (hi : ∀ k, m.marks t i = some k → stack < k.stack) :
    m.Above t stack (i.val + 1) := by
  intro j k hj hk
  rcases Nat.lt_succ_iff_lt_or_eq.mp hj with hlt | heq
  · exact h j k hlt hk
  · have hji : j = i := Fin.ext heq
    subst hji
    exact hi k hk

theorem remember_spec (t : Tid) (m : Table) (d : Dispatch) :
    (remember t m d).mem = m ∧ Quiet (remember t m d).events
      ∧ (remember t m d).loc.plain = true
      ∧ (m.Above t d.trap_rsp MARKER_CAPACITY → (remember t m d).loc.Ok t m) := by
  unfold remember
  split
  · exact ⟨rfl, fun _ _ => rfl, rfl, fun _ => trivial⟩
  · split
    · exact ⟨rfl, fun _ _ => rfl, rfl, fun _ => trivial⟩
    · exact ⟨rfl, fun _ _ => rfl, rfl, fun h => h⟩

theorem retire_next_ok {t : Tid} {m : Table} {d : Dispatch} {i : Index}
    (h : m.Above t d.trap_rsp (i.val + 1)) :
    (retire_next i).Ok t m d ∧ (Thread.dispatching d (retire_next i)).plain = true := by
  unfold retire_next
  split
  · exact ⟨h, rfl⟩
  · refine ⟨fun j k hj => h j k ?_, rfl⟩
    have := i.isLt
    omega

/-- Publishing adds a marker below all the others. -/
theorem View.publish {t : Tid} {m : Table} {d : Dispatch} {raw : UInt64} {i : Index}
    {L : UInt64 → Life} (h : View t m (.dispatching d (.publish raw i)) L)
    (hl : Local t m (.dispatching d (.publish raw i))) :
    Advances t (dispatch_step t m d (.publish raw i)) L := by
  obtain ⟨habove, htid, hrip, hphase⟩ := h.ok
  have hold : m.marks t i = none :=
    Table.marks_eq_none.mpr fun hk => not_published_max (hl.held i rfl) hk.2
  have hnew : (m.set i { m.markers i with stack := d.trap_rsp }).marks t i
      = some { m.markers i with stack := d.trap_rsp } := by
    rw [Table.marks_set_self, if_pos]
    exact ⟨htid, d.trap_rsp_ne_zero, d.trap_rsp_ne_max⟩
  have hother : ∀ {j}, j ≠ i →
      (m.set i { m.markers i with stack := d.trap_rsp }).marks t j = m.marks t j :=
    fun hj => Table.marks_set_of_ne _ _ _ hj
  -- `retire_markers` has left only markers further up, so the new one clashes with none.
  have hne : ∀ {j k}, m.marks t j = some k → k.stack ≠ d.trap_rsp := by
    intro j k hk he
    have hlt := habove j k j.isLt hk
    rw [he] at hlt
    exact absurd hlt (UInt64.lt_irrefl _)
  have habs : L d.trap_rsp = .absent := by
    by_contra hlive
    rcases h.absent _ hlive with hr | ⟨j, k, hk, hs⟩
    · cases hr
    · exact hne hk hs
  refine ⟨Function.update L d.trap_rsp (.armed (Dispatch.trap_rip raw)),
    Life.run_update (by simp [Life.next, habs]) ?_ fun _ _ => rfl,
    ⟨fun j j' k k' hj hj' hs => ?_, fun j k hj _ => ?_, trivial, fun j k hj _ => ?_, fun s hs => ?_,
      trivial⟩⟩
  · intro s l hs
    simp [Life.next, Ne.symm hs]
  all_goals simp only [dispatch_step] at *
  · by_cases hji : j = i <;> by_cases hji' : j' = i
    · exact hji.trans hji'.symm
    · subst hji
      rw [hnew] at hj
      rw [hother hji'] at hj'
      obtain rfl := Option.some.inj hj
      exact absurd hs.symm (hne hj')
    · subst hji'
      rw [hnew] at hj'
      rw [hother hji] at hj
      obtain rfl := Option.some.inj hj'
      exact absurd hs (hne hj)
    · rw [hother hji] at hj
      rw [hother hji'] at hj'
      exact h.one j j' k k' hj hj' hs
  · by_cases hji : j = i
    · subst hji
      rw [hnew] at hj
      obtain rfl := Option.some.inj hj
      exact Or.inl hphase
    · rw [hother hji] at hj
      exact h.phase j k hj fun hn => by cases hn
  · by_cases hji : j = i
    · subst hji
      rw [hnew] at hj
      obtain rfl := Option.some.inj hj
      simp [Marker.life, hphase, hrip]
    · rw [hother hji] at hj
      rw [Function.update_of_ne (hne hj)]
      exact h.marked j k hj fun hn => by cases hn
  · by_cases hst : s = d.trap_rsp
    · exact Or.inr ⟨i, _, hnew, hst.symm⟩
    · rw [Function.update_of_ne hst] at hs
      rcases h.absent s hs with hr | ⟨j, k, hk, hks⟩
      · cases hr
      · have hji : j ≠ i := by
          rintro rfl
          rw [hold] at hk
          cases hk
        exact Or.inr ⟨j, k, by rw [hother hji]; exact hk, hks⟩

/-- Retiring one marker. -/
theorem View.retire_release {t : Tid} {m : Table} {d : Dispatch} {i : Index} {recorded : UInt64}
    {pc : ReleasePc} {L : UInt64 → Life}
    (h : View t m (.dispatching d (.retire_release i recorded pc)) L)
    (hl : Local t m (.dispatching d (.retire_release i recorded pc))) :
    Advances t (dispatch_step t m d (.retire_release i recorded pc)) L := by
  obtain ⟨ha, hpc⟩ := h.ok
  have hheld : pc.holds = true → (m.markers i).stack = U64_MAX := fun hp =>
    hl.held i (by simp [Thread.holds, hp])
  simp only [dispatch_step]
  split
  · rename_i m' pc' hstep
    obtain ⟨hrem, hok', hst⟩ := release_step_more hpc hheld h.one hstep
    refine ⟨L, fun _ => rfl, h.removes hrem rfl (fun _ _ hn => by cases hn) ?_ ?_ ⟨?_, hok'⟩ ?_⟩
    · intro s hs
      simp only [Thread.releasing] at hs
      split at hs
      · exact (Option.some.inj hs).symm
      · cases hs
    · simp [Thread.releasing, hst]
    · exact fun j k hj hk => ha j k hj ((hrem j k).mp hk).1
    · intro _
      -- Taken just now it is still in the table, taken before it is on record.
      cases hs : pc.started with
      | true => exact h.living hs
      | false =>
        cases pc with
        | cas =>
          obtain ⟨k, hk, rfl⟩ := hpc
          rw [h.marked i k hk (fun hn => by cases hn)]
          exact k.life_ne_absent
        | _ => cases hs
  · rename_i m' hstep
    obtain ⟨rfl, rfl⟩ := release_step_done hpc hstep
    obtain ⟨hgone, hnone⟩ := hpc
    have ha' : m.Above t d.trap_rsp (i.val + 1) := ha.succ fun k hk => by
      rw [hnone] at hk
      cases hk
    have hliv : L recorded ≠ .absent := h.living rfl
    exact ⟨Function.update L recorded .absent,
      Life.run_update (by simp [Life.next, hliv]) (fun s l hs => by simp [Life.next, Ne.symm hs])
        quiet_nil,
      h.released hgone rfl rfl rfl (retire_next_ok ha').2 rfl (retire_next_ok ha').1⟩

/-- `dispatcher_target` keeps the thread's invariant at every access. -/
theorem View.dispatch {t : Tid} {m : Table} {d : Dispatch} {pc : DispatchPc} {L : UInt64 → Life}
    (h : View t m (.dispatching d pc) L) (hl : Local t m (.dispatching d pc)) :
    Advances t (dispatch_step t m d pc) L := by
  have hok := h.ok
  -- Nothing changes but the program point.
  have hgo : ∀ pc', (Thread.dispatching d pc).plain = true →
      (Thread.dispatching d pc').plain = true → pc'.Ok t m d →
      Advances t ⟨m, .dispatching d pc', []⟩ L :=
    fun pc' hp hp' hok' => h.advances_plain hp hp' rfl hok' quiet_nil
  have hnext : ∀ i, (Thread.dispatching d pc).plain = true → m.Above t d.trap_rsp (i.val + 1) →
      Advances t ⟨m, .dispatching d (retire_next i), []⟩ L :=
    fun i hp ha => hgo _ hp (retire_next_ok ha).2 (retire_next_ok ha).1
  cases pc with
  | has_active =>
    simp only [dispatch_step]
    split
    · exact hgo _ rfl rfl trivial
    · rename_i ha
      exact hgo _ rfl rfl (.of_none (hl.active (not_not.mp ha)) _ _)
  | retire_active =>
    simp only [dispatch_step]
    split
    · exact hgo _ rfl rfl fun j _ hj => absurd hj (Nat.not_lt_zero _)
    · rename_i ha
      exact hgo _ rfl rfl (.of_none (hl.active (not_not.mp ha)) _ _)
  | retire_tid i =>
    simp only [dispatch_step]
    split
    · -- Not the thread's id, so not its marker.
      rename_i hne
      refine hnext i rfl (Table.Above.succ hok fun k hk => ?_)
      obtain ⟨rfl, htid, -⟩ := Table.marks_eq_some.mp hk
      exact absurd htid hne
    · -- Its id is on a marker of its own: it holds no slot of its own while it retires.
      rename_i heq
      rcases hl.mine i (not_not.mp heq) with hh | hmark
      · cases hh
      · exact hgo _ rfl rfl ⟨hok, hmark⟩
  | retire_stack i =>
    obtain ⟨ha, k, hk⟩ := hok
    obtain ⟨hmk, -, hpub⟩ := Table.marks_eq_some.mp hk
    simp only [dispatch_step]
    split
    · rename_i hc
      refine hnext i rfl (ha.succ fun k' hk' => ?_)
      obtain rfl := Option.some.inj (hk.symm.trans hk')
      rw [hmk] at hc
      rcases hc with h0 | hmax | hgt
      · exact absurd h0 hpub.1
      · exact absurd hmax hpub.2
      · exact hgt
    · exact hgo _ rfl rfl ⟨ha, k, hk, by rw [hmk]⟩
  | retire_again i recorded =>
    obtain ⟨ha, k, hk, hs⟩ := hok
    obtain ⟨hmk, htid, -⟩ := Table.marks_eq_some.mp hk
    simp only [dispatch_step]
    -- The second look at the id finds the same marker; nobody else could have taken it.
    rw [if_neg (by rw [hmk, htid]; simp)]
    exact hgo _ rfl rfl ⟨ha, k, hk, hs⟩
  | retire_release i recorded pc => exact h.retire_release hl
  | decide =>
    obtain ⟨h1, h2, h3, h4⟩ := remember_spec t m d
    exact h.advances_plain rfl h3 (congrArg (fun m : Table => m.marks t) h1)
      (by simp only [dispatch_step]; rw [h1]; exact h4 hok) h2
  | reserve raw k =>
    simp only [dispatch_step]
    split
    · rename_i hfree
      have hmarks := Table.marks_set_unpublished
        (k := { m.markers (probe d.trap_rsp k) with stack := U64_MAX })
        (not_published_zero hfree) (not_published_max rfl) t
      exact h.advances_plain rfl rfl hmarks
        (by simpa only [Thread.Ok, DispatchPc.Ok, Table.Above, hmarks] using hok) quiet_nil
    · split
      · exact h.advances_plain rfl rfl rfl hok quiet_nil
      · exact h.advances_plain rfl rfl rfl trivial fun _ _ => rfl
  | count raw i => exact h.advances_plain rfl rfl rfl hok quiet_nil
  | arm_tid raw i =>
    have hmax := hl.held i rfl
    have hmarks := Table.marks_set_unpublished (k := { m.markers i with tid := t.val })
      (not_published_max hmax) (not_published_max hmax) t
    have ha : m.Above t d.trap_rsp MARKER_CAPACITY := hok
    refine h.advances_plain rfl rfl hmarks ⟨?_, by simp [dispatch_step]⟩ quiet_nil
    simpa only [dispatch_step, Table.Above, hmarks] using ha
  | arm_rip raw i =>
    have hmax := hl.held i rfl
    have hmarks := Table.marks_set_unpublished
      (k := { m.markers i with rip := Dispatch.trap_rip raw })
      (not_published_max hmax) (not_published_max hmax) t
    refine h.advances_plain rfl rfl hmarks ⟨?_, ?_, by simp [dispatch_step]⟩ quiet_nil
    · simpa only [dispatch_step, Table.Above, hmarks] using hok.1
    · simpa [dispatch_step] using hok.2
  | arm_phase raw i =>
    have hmax := hl.held i rfl
    have hmarks := Table.marks_set_unpublished (k := { m.markers i with phase := 0 })
      (not_published_max hmax) (not_published_max hmax) t
    refine h.advances_plain rfl rfl hmarks ⟨?_, ?_, ?_, by simp [dispatch_step]⟩ quiet_nil
    · simpa only [dispatch_step, Table.Above, hmarks] using hok.1
    · simpa [dispatch_step] using hok.2.1
    · simpa [dispatch_step] using hok.2.2
  | publish raw i => exact h.publish hl

/-! ### `redirect` -/

theorem find_step_more {t : Tid} {m : Table} {stack rip : UInt64} {pc pc' : FindPc}
    (hok : pc.Ok t m stack)
    (hmine : ∀ i, (m.markers i).tid = t.val → ∃ k, m.marks t i = some k)
    (h : find_step t m stack rip pc = .more pc') : pc'.Ok t m stack := by
  have hnext : ∀ {k}, find_next k = .more pc' → pc'.Ok t m stack := by
    intro k hk
    unfold find_next at hk
    split at hk
    · cases hk
      trivial
    · cases hk
  cases pc with
  | active =>
    simp only [find_step] at h
    split at h
    · cases h
    · cases h
      trivial
  | stack k =>
    simp only [find_step] at h
    split at h
    · rename_i hs
      cases h
      intro mk hk
      obtain ⟨rfl, -, -⟩ := Table.marks_eq_some.mp hk
      exact hs
    · exact hnext h
  | tid k =>
    simp only [find_step] at h
    split at h
    · -- The stack was loaded a step ago, but a marker of the thread's own has not moved since.
      rename_i ht
      cases h
      obtain ⟨mk, hk⟩ := hmine _ ht
      exact ⟨mk, hk, hok mk hk⟩
    · exact hnext h
  | rip k =>
    simp only [find_step] at h
    split at h
    · cases h
    · exact hnext h

theorem find_step_found {t : Tid} {m : Table} {stack rip : UInt64} {pc : FindPc} {i : Index}
    (hok : pc.Ok t m stack) (h : find_step t m stack rip pc = .done (some i)) :
    ∃ k, m.marks t i = some k ∧ k.stack = stack ∧ k.rip = rip := by
  have hnext : ∀ {k}, find_next k ≠ .done (some i) := by
    intro k
    unfold find_next
    split <;> nofun
  cases pc with
  | active =>
    simp only [find_step] at h
    split at h <;> cases h
  | stack k | tid k =>
    simp only [find_step] at h
    split at h
    · cases h
    · exact absurd h hnext
  | rip k =>
    simp only [find_step] at h
    split at h
    · rename_i hr
      cases h
      obtain ⟨mk, hk, hs⟩ := hok
      obtain ⟨rfl, -, -⟩ := Table.marks_eq_some.mp hk
      exact ⟨_, hk, hs, hr⟩
    · exact absurd h hnext

/-- One of the thread's markers changes in place. -/
theorem View.rewrite {t : Tid} {m m' : Table} {th th' : Thread} {L L' : UInt64 → Life}
    {i : Index} {k k' : Marker} (h : View t m th L) (hk : m.marks t i = some k)
    (hk' : m'.marks t i = some k') (hother : ∀ j, j ≠ i → m'.marks t j = m.marks t j)
    (hs : k'.stack = k.stack) (hsav : ∀ j, th.saving = some j → j = i)
    (hrep : ∀ j, th.replaying = some j → j = i) (hrel : th.releasing = none)
    (hphase : th'.replaying ≠ some i → k'.phase = 0 ∨ k'.phase = 1)
    (hL : ∀ s, s ≠ k.stack → L' s = L s) (hLi : th'.saving ≠ some i → L' k.stack = k'.life)
    (hok' : th'.Ok t m') (hliv' : th'.Living L') : View t m' th' L' := by
  -- The markers are the old ones, at the same stacks.
  have hback : ∀ {j kj}, m'.marks t j = some kj →
      j = i ∧ kj = k' ∨ j ≠ i ∧ m.marks t j = some kj := by
    intro j kj hj
    by_cases hji : j = i
    · subst hji
      rw [hk'] at hj
      exact Or.inl ⟨rfl, (Option.some.inj hj).symm⟩
    · rw [hother j hji] at hj
      exact Or.inr ⟨hji, hj⟩
  refine ⟨fun j j' kj kj' hj hj' he => ?_, fun j kj hj hr => ?_, hok', fun j kj hj hv => ?_,
    fun s hne => ?_, hliv'⟩
  · rcases hback hj with ⟨rfl, rfl⟩ | ⟨hji, hj⟩ <;> rcases hback hj' with ⟨rfl, rfl⟩ | ⟨hji', hj'⟩
    · rfl
    · exact h.one _ _ k kj' hk hj' (hs.symm.trans he)
    · exact h.one _ _ kj k hj hk (he.trans hs)
    · exact h.one j j' kj kj' hj hj' he
  · rcases hback hj with ⟨rfl, rfl⟩ | ⟨hji, hj⟩
    · exact hphase hr
    · exact h.phase j kj hj fun hr => hji (hrep j hr)
  · rcases hback hj with ⟨rfl, rfl⟩ | ⟨hji, hj⟩
    · rw [hs]
      exact hLi hv
    · rw [hL _ fun he => hji (h.one j i kj k hj hk he)]
      exact h.marked j kj hj fun hv => hji (hsav j hv)
  · by_cases hst : s = k.stack
    · exact Or.inr ⟨i, k', hk', hs.trans hst.symm⟩
    · rw [hL s hst] at hne
      rcases h.absent s hne with hr | ⟨j, kj, hj, rfl⟩
      · rw [hrel] at hr
        cases hr
      · have hji : j ≠ i := by
          rintro rfl
          obtain rfl := Option.some.inj (hk.symm.trans hj)
          exact hst rfl
        exact Or.inr ⟨j, kj, by rw [hother j hji]; exact hj, rfl⟩

theorem Trap.MarkedAt.set {t : Tid} {m : Table} {r : Trap} {i : Index} {k : Marker}
    (h : r.MarkedAt t m i k) (k' : Marker) (hs : k'.stack = k.stack) (ht : k'.tid = k.tid)
    (hr : k'.rip = k.rip) : r.MarkedAt t (m.set i k') i k' := by
  obtain ⟨hk, hks, hkr⟩ := h
  obtain ⟨-, htid, hpub⟩ := Table.marks_eq_some.mp hk
  refine ⟨?_, hs.trans hks, hr.trans hkr⟩
  rw [Table.marks_set_self, if_pos]
  refine ⟨ht.trans htid, ?_⟩
  unfold Marker.published
  rw [hs]
  exact hpub

/-- The loops of `consume` copy one word more. -/
theorem copied_word {f g : Word → UInt64} {w : Word} {rest : List Word}
    (h : ∀ w', w' ∉ w :: rest → f w' = g w') :
    ∀ w', w' ∉ rest → Function.update f w (g w) w' = g w' := by
  intro w' hw'
  by_cases he : w' = w
  · subst he
    exact Function.update_self _ _ _
  · rw [Function.update_of_ne he]
    exact h w' (by simp [he, hw'])

/-- Releasing the marker of a trap, to replay it or because its route was declined. -/
theorem View.release {t : Tid} {m : Table} {r : Trap} {i : Index} {pc : ReleasePc}
    {why : Release} {L : UInt64 → Life} (h : View t m (.trapping r (.release i pc why)) L)
    (hl : Local t m (.trapping r (.release i pc why))) :
    Advances t (trap_step t m r (.release i pc why)) L := by
  have hheld : pc.holds = true → (m.markers i).stack = U64_MAX := fun hp =>
    hl.held i (by simp [Thread.holds, hp])
  have hok := h.ok
  have hliv := h.living
  have hpc : pc.Ok t m i r.rsp.val := by
    cases why with
    | replay saved => exact hok.1
    | fall_through => exact hok.elim
    | cancel => exact hok
  have hreplaying : ∀ j k, (Thread.trapping r (.release i pc why)).replaying = some j →
      m.marks t j = some k → k.stack = r.rsp.val := by
    intro j k hj hk
    cases why with
    | replay saved =>
      simp only [Thread.replaying] at hj
      split at hj
      · cases hj
      · rename_i hs
        obtain ⟨k', ⟨hk', hks, -⟩, -⟩ := hok.2 (by simpa using hs)
        obtain rfl := Option.some.inj hj
        obtain rfl := Option.some.inj (hk.symm.trans hk')
        exact hks
    | fall_through | cancel => cases hj
  have hreleasing : ∀ s, (Thread.trapping r (.release i pc why)).releasing = some s →
      s = r.rsp.val := by
    intro s hs
    simp only [Thread.releasing] at hs
    split at hs
    · exact (Option.some.inj hs).symm
    · cases hs
  simp only [trap_step]
  split
  · rename_i m' pc' hstep
    obtain ⟨hrem, hok', hst⟩ := release_step_more hpc hheld h.one hstep
    have hrel' : (Thread.trapping r (.release i pc' why)).releasing = some r.rsp.val := by
      simp [Thread.releasing, hst]
    refine ⟨L, fun _ => rfl, h.removes hrem rfl hreplaying hreleasing hrel' ?_ ?_⟩
    · cases why with
      | replay saved => exact ⟨hok', fun hn => by rw [hst] at hn; cases hn⟩
      | fall_through => exact hok.elim
      | cancel => exact hok'
    · cases hs : pc.started with
      | true =>
        cases why with
        | replay saved => exact fun _ => hliv hs
        | fall_through | cancel => exact fun _ => hliv hs
      | false =>
        -- The marker is still in the table and says what its life is.
        cases why with
        | replay saved =>
          intro _
          obtain ⟨k, ⟨hk, hks, hkr⟩, hp, hsaved⟩ := hok.2 hs
          rw [← hks, h.marked i k hk (fun hn => by cases hn)]
          simp [Marker.life, hp, hkr, hsaved]
        | fall_through => exact hok.elim
        | cancel =>
          intro _
          cases pc with
          | cas =>
            obtain ⟨k, hk, hks⟩ := hpc
            rw [← hks, h.marked i k hk (fun hn => by cases hn)]
            exact k.life_ne_absent
          | _ => cases hs
  · -- Counted out: the event that was waiting is shown.
    rename_i m' hstep
    obtain ⟨rfl, rfl⟩ := release_step_done hpc hstep
    have hdone : View t { m with active := m.active - 1 } .idle
        (Function.update L r.rsp.val .absent) := by
      refine h.released hpc.1 rfl ?_ rfl rfl rfl trivial
      cases why <;> rfl
    split
    · rename_i saved
      have hlife : L r.rsp.val = .routed r.rip saved := hliv rfl
      exact ⟨_, Life.run_update (by simp [Life.next, hlife])
        (fun s l hs => by simp [Life.next, Ne.symm hs]) fun _ _ => rfl, hdone⟩
    · exact hok.elim
    · have hlife : L r.rsp.val ≠ .absent := hliv rfl
      exact ⟨_, Life.run_update (by simp [Life.next, hlife])
        (fun s l hs => by simp [Life.next, Ne.symm hs]) fun _ _ => rfl, hdone⟩

/-- The marker `consume` has found is armed or routed. -/
theorem View.route {t : Tid} {m : Table} {r : Trap} {i : Index} {L : UInt64 → Life}
    (h : View t m (.trapping r (.route i)) L) :
    Advances t (trap_step t m r (.route i)) L := by
  obtain ⟨k, hk, hks, hkr⟩ := h.ok
  obtain ⟨rfl, -, -⟩ := Table.marks_eq_some.mp hk
  have hlife := h.marked i _ hk fun hn => by cases hn
  simp only [trap_step]
  split
  · -- Phase 0: the words are saved next, and the event waits for the last of them.
    rename_i h0
    have hmark' := Trap.MarkedAt.set ⟨hk, hks, hkr⟩
      { m.markers i with phase := 1 } rfl rfl rfl
    refine ⟨L, fun _ => rfl, h.rewrite hk hmark'.1 (fun j hj => Table.marks_set_of_ne _ _ _ hj)
      rfl (fun _ hn => by cases hn) (fun _ hn => by cases hn) rfl
      (fun _ => Or.inr rfl) (fun _ _ => rfl) (fun hn => absurd rfl hn)
      ⟨_, hmark', rfl, fun w' hw => absurd (Word.mem_saved w') hw⟩ ?_⟩
    change L r.rsp.val = .armed r.rip
    rw [← hks, hlife, Marker.life, if_pos h0, hkr]
  · -- Any other phase is 1: the thread is not in the middle of a replay.
    rename_i hne
    have h1 : (m.markers i).phase = 1 := (h.phase i _ hk (fun hn => by cases hn)).resolve_left hne
    exact h.advances_plain rfl rfl rfl ⟨_, ⟨hk, hks, hkr⟩, h1⟩ quiet_nil

/-- Saving the context; with the last word the marker is routed. -/
theorem View.save {t : Tid} {m : Table} {r : Trap} {i : Index} {w : Word} {rest : List Word}
    {L : UInt64 → Life}
    (h : View t m (.trapping r (.save i w rest)) L) :
    Advances t (trap_step t m r (.save i w rest)) L := by
  obtain ⟨k, ⟨hk, hks, hkr⟩, hp, hw⟩ := h.ok
  obtain ⟨rfl, -, -⟩ := Table.marks_eq_some.mp hk
  have hmark' := Trap.MarkedAt.set ⟨hk, hks, hkr⟩ { m.markers i with
    words := Function.update (m.markers i).words w (r.context.word w) } rfl rfl rfl
  have hsaved := copied_word hw
  have harmed : L r.rsp.val = .armed r.rip := h.living
  simp only [trap_step]
  split
  · rename_i w' rest'
    exact ⟨L, fun _ => rfl, h.rewrite hk hmark'.1 (fun j hj => Table.marks_set_of_ne _ _ _ hj) rfl
      (fun j hj => (Option.some.inj hj).symm) (fun _ hn => by cases hn) rfl (fun _ => Or.inr hp)
      (fun _ _ => rfl)
      (fun hn => absurd rfl hn) ⟨_, hmark', hp, hsaved⟩ harmed⟩
  · -- The last word: the marker now holds the context of this trap, half by half.
    have hwords : Function.update (m.markers i).words w (r.context.word w) = r.context.word :=
      funext fun w' => hsaved w' (by simp)
    have hlife : ∀ th' : Thread, th'.plain = true →
        th'.Ok t (m.set i { m.markers i with
          words := Function.update (m.markers i).words w (r.context.word w) }) →
        View t (m.set i { m.markers i with
          words := Function.update (m.markers i).words w (r.context.word w) }) th'
          (Function.update L r.rsp.val (.routed r.rip r.context)) := by
      intro th' hp' hok'
      obtain ⟨-, -, -, hliv⟩ := Thread.plain_spec hp'
      refine h.rewrite hk hmark'.1 (fun j hj => Table.marks_set_of_ne _ _ _ hj) rfl
        (fun j hj => (Option.some.inj hj).symm) (fun _ hn => by cases hn) rfl (fun _ => Or.inr hp)
        (fun s hs => Function.update_of_ne (hks ▸ hs) _ _) (fun _ => ?_) hok' (hliv _)
      rw [hks, Function.update_self]
      simp [Marker.life, hp, hkr, hwords, SavedContext.of_words_word]
    have hrun : ∀ s es, Quiet es → Life.run s (L s) (.routed r.rsp.val r.rip r.context :: es)
        = some (Function.update L r.rsp.val (.routed r.rip r.context) s) := fun s es hq =>
      Life.run_update (by simp [Life.next, harmed]) (fun s l hs => by simp [Life.next, Ne.symm hs])
        hq s
    unfold redirect_bridged
    simp only
    split
    · exact ⟨_, fun s => hrun s [] quiet_nil, hlife _ rfl trivial⟩
    · exact ⟨_, fun s => hrun s _ fun _ _ => rfl, hlife _ rfl trivial⟩

/-- A marker that is found again is routed, so the fall-through is not reached. -/
theorem View.replay {t : Tid} {m : Table} {r : Trap} {i : Index} {L : UInt64 → Life}
    (h : View t m (.trapping r (.replay i)) L) :
    Advances t (trap_step t m r (.replay i)) L := by
  obtain ⟨k, ⟨hk, hks, hkr⟩, hp⟩ := h.ok
  obtain ⟨rfl, -, -⟩ := Table.marks_eq_some.mp hk
  simp only [trap_step]
  rw [if_pos hp]
  have hmark' := Trap.MarkedAt.set ⟨hk, hks, hkr⟩
    { m.markers i with phase := 2 } rfl rfl rfl
  refine ⟨L, fun _ => rfl, h.rewrite hk hmark'.1 (fun j hj => Table.marks_set_of_ne _ _ _ hj)
    rfl (fun _ hn => by cases hn) (fun _ hn => by cases hn) rfl
    (fun hn => absurd rfl hn) (fun _ _ => rfl) (fun _ => ?_)
    ⟨_, hmark', rfl, fun w' hw => absurd (Word.mem_loaded w') hw⟩ trivial⟩
  rw [h.marked i _ hk (fun hn => by cases hn)]
  simp [Marker.life, hp]

/-- Loading the context back. -/
theorem View.load {t : Tid} {m : Table} {r : Trap} {i : Index} {w : Word}
    {rest : List Word} {got : Word → UInt64} {L : UInt64 → Life}
    (h : View t m (.trapping r (.load i w rest got)) L) :
    Advances t (trap_step t m r (.load i w rest got)) L := by
  obtain ⟨k, ⟨hk, hks, hkr⟩, hp, hw⟩ := h.ok
  obtain ⟨rfl, -, -⟩ := Table.marks_eq_some.mp hk
  have hloaded := copied_word hw
  have hview : ∀ th' : Thread, th'.replaying = some i → th'.Ok t m → th'.Living L →
      View t m th' L := by
    intro th' hr hok' hliv'
    exact h.rewrite hk hk (fun _ _ => rfl) rfl (fun _ hn => by cases hn)
      (fun j hj => (Option.some.inj hj).symm) rfl (fun hn => absurd hr hn) (fun _ _ => rfl)
      (fun _ => h.marked i _ hk fun hn => by cases hn) hok' hliv'
  simp only [trap_step]
  split
  · exact ⟨L, fun _ => rfl, hview _ rfl ⟨_, ⟨hk, hks, hkr⟩, hp, hloaded⟩ trivial⟩
  · have hwords : Function.update got w ((m.markers i).words w) = (m.markers i).words :=
      funext fun w' => hloaded w' (by simp)
    refine ⟨L, fun _ => rfl, hview _ rfl ⟨⟨_, hk, hks⟩, fun _ => ?_⟩ fun hn => by cases hn⟩
    exact ⟨_, ⟨hk, hks, hkr⟩, hp, by rw [hwords]⟩

/-- `redirect` keeps the thread's invariant at every access. -/
theorem View.trap {t : Tid} {m : Table} {r : Trap} {pc : TrapPc} {L : UInt64 → Life}
    (h : View t m (.trapping r pc) L) (hl : Local t m (.trapping r pc)) :
    Advances t (trap_step t m r pc) L := by
  have hok := h.ok
  have hdirect : ∀ m', Quiet (redirect_direct m' r).events := fun _ _ _ => rfl
  have hmine : (Thread.trapping r pc).holds = none →
      ∀ i, (m.markers i).tid = t.val → ∃ k, m.marks t i = some k := by
    intro hh i hi
    rcases hl.mine i hi with hs | hmark
    · rw [hh] at hs
      cases hs
    · exact hmark
  cases pc with
  | consume_find pc =>
    simp only [trap_step]
    split
    · rename_i pc' hf
      exact h.advances_plain rfl rfl rfl (find_step_more hok (hmine rfl) hf) quiet_nil
    · exact h.advances_plain rfl rfl rfl trivial (hdirect m)
    · rename_i i hf
      exact h.advances_plain rfl rfl rfl (find_step_found hok hf) quiet_nil
  | cancel_find pc =>
    simp only [trap_step]
    split
    · rename_i pc' hf
      exact h.advances_plain rfl rfl rfl (find_step_more hok (hmine rfl) hf) quiet_nil
    · exact h.advances_plain rfl rfl rfl trivial fun _ _ => rfl
    · rename_i i hf
      obtain ⟨k, hk, hs, -⟩ := find_step_found hok hf
      exact h.advances_plain rfl rfl rfl ⟨k, hk, hs⟩ quiet_nil
  | route i => exact h.route
  | save i w rest => exact h.save
  | replay i => exact h.replay
  | load i w rest got => exact h.load
  | release i pc why => exact h.release hl

theorem View.enter {t : Tid} {m : Table} {L : UInt64 → Life} (h : View t m .idle L) (op : Op) :
    Advances t (enter t m op) L := by
  cases op with
  | dispatch d => exact h.advances_plain rfl rfl rfl trivial fun _ _ => rfl
  | trap r =>
    simp only [Markers.enter]
    split
    · exact h.advances_plain rfl rfl rfl trivial fun _ _ => rfl
    · exact h.advances_plain rfl rfl rfl trivial fun _ _ => rfl
  | returned stack => exact h.advances_plain rfl rfl rfl trivial fun _ _ => rfl
  | exited => exact h.advances_plain rfl rfl rfl trivial fun _ _ => rfl

/-- Every step of a thread keeps its invariant, and every event is in turn. -/
theorem View.step {t : Tid} {m : Table} {th : Thread} {L : UInt64 → Life} (h : View t m th L)
    (hl : Local t m th) (op : Op) : Advances t (thread_step t op m th) L := by
  cases th with
  | idle => exact h.enter op
  | dispatching d pc => exact h.dispatch hl
  | trapping r pc => exact h.trap hl

end Linuwux.Markers
