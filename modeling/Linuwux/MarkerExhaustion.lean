/-
`MarkerExhaustion.lean` -- when `remember_marker` finds no free slot.

The table has 256 slots, and a slot is freed by a replay, by a cancelled route, or by a later
dispatcher entry of the same thread at the marker's depth or above. A call that Reflex answers
itself frees nothing, and neither does a thread that exits, so the slots of short-lived threads
are lost for good and a table without a single call under way can be full.

The first half shows that this, and a slot freed behind a scan under way, are the only ways: a
taken slot belongs to a bridged call that is still outstanding or to a marker that is left over
from one, and no two slots to the same one. The second half fills the table, with calls that are
outstanding and with markers that are left over.
-/
import Linuwux.MarkerLeak

set_option autoImplicit false

namespace Linuwux.Markers

open Threads (Outcome Program Config Leads steps)

/-! ## Outstanding calls -/

/-- One event, for the bridged call at `stack`: it is outstanding from the call of
`remember_marker` until that is refused, the call is replayed, its marker dropped, the call
returns or its thread exits. -/
def outstanding_next (stack : UInt64) (b : Bool) : Event → Bool
  -- Before it is known whether there is a slot: a call that is being armed counts.
  | .bridged s _ => if s = stack then true else b
  | .refused s _ | .replayed s _ _ | .dropped s | .returned s => if s = stack then false else b
  | .exited => false
  | _ => b

/-- Thread `t` has an outstanding bridged call at `stack`. -/
def outstanding (t : Tid) (stack : UInt64) (tr : List (Tid × Event)) : Bool :=
  (Threads.own t tr).foldl (outstanding_next stack) false

/-- `remember_marker` finds no free slot only while 256 other bridged calls are
outstanding. -/
def RefusedWhenFull (tr : List (Tid × Event)) : Prop :=
  ∀ pre t stack rip, pre ++ [(t, Event.refused stack rip)] <+: tr →
    ∃ K : Finset (Tid × UInt64), K.card = MARKER_CAPACITY
      ∧ ∀ k ∈ K, outstanding k.1 k.2 pre = true ∧ k ≠ (t, stack)

/-- One event, for the marker at `stack`: its call is over when it returns or its thread exits,
until another call arms the marker again. -/
def ended_next (stack : UInt64) (b : Bool) : Event → Bool
  | .armed s _ => if s = stack then false else b
  | .returned s => if s = stack then true else b
  | .exited => true
  | _ => b

/-- The last call of thread `t` at `stack` has returned, or the thread has exited. -/
def ended (t : Tid) (stack : UInt64) (tr : List (Tid × Event)) : Bool :=
  (Threads.own t tr).foldl (ended_next stack) false

/-- The call is over and its marker is still there. -/
def LeftOver (tr : List (Tid × Event)) (t : Tid) (stack : UInt64) : Prop :=
  life t stack tr ≠ some .absent ∧ ended t stack tr = true

/-- When `remember_marker` makes its last probe, it finds a free slot; or no slot it has found
taken has been freed since, and no marker is left over. -/
def NoneLeftOver (tr : List (Tid × Event)) (c : Config Tid Table Thread) (x : Tid × Op) : Prop :=
  ∀ d raw k, c.loc x.1 = .dispatching d (.reserve raw k) → ¬k.val + 1 < MARKER_CAPACITY →
    (c.mem.markers (probe d.trap_rsp k)).stack = 0
      ∨ (∀ i, (c.mem.markers i).stack ≠ 0) ∧ ∀ t stack, ¬LeftOver tr t stack

/-! ## The events of a step -/

theorem outstanding_append (t : Tid) (stack : UInt64) (tr tr' : List (Tid × Event)) :
    outstanding t stack (tr ++ tr')
      = (Threads.own t tr').foldl (outstanding_next stack) (outstanding t stack tr) := by
  unfold outstanding
  rw [Threads.own_append, List.foldl_append]

theorem ended_append (t : Tid) (stack : UInt64) (tr tr' : List (Tid × Event)) :
    ended t stack (tr ++ tr')
      = (Threads.own t tr').foldl (ended_next stack) (ended t stack tr) := by
  unfold ended
  rw [Threads.own_append, List.foldl_append]

/-- The stack pointer of the call `remember_marker` is arming. -/
def Thread.arming : Thread → Option UInt64
  | .dispatching d (.reserve _ _) | .dispatching d (.count _ _) | .dispatching d (.arm_tid _ _)
  | .dispatching d (.arm_rip _ _) | .dispatching d (.arm_phase _ _)
  | .dispatching d (.publish _ _) => some d.trap_rsp
  | _ => none

/-- A marker that is live after a step which does not arm it was live before. -/
theorem live_before {stack : UInt64} {es : List Event} (hn : ∀ rip, .armed stack rip ∉ es)
    {l l' : Life} (hl : Life.run stack l es = some l') (hne : l' ≠ .absent) : l ≠ .absent := by
  induction es generalizing l with
  | nil =>
    obtain rfl := Option.some.inj hl
    exact hne
  | cons e es ih =>
    obtain ⟨l₁, hl₁, hrest⟩ := Option.bind_eq_some_iff.mp hl
    have hlive := ih (fun rip he => hn rip (by simp [he])) hrest
    rintro rfl
    cases e with
    | armed s rip =>
      have hs : s ≠ stack := by
        rintro rfl
        exact hn rip (by simp)
      rw [Life.next, if_pos hs] at hl₁
      exact hlive (Option.some.inj hl₁).symm
    | _ =>
      simp only [Life.next] at hl₁
      grind

/-- The event makes no marker at `stack` and refuses none. -/
def Event.keeps (stack : UInt64) : Event → Bool
  | .armed s _ | .refused s _ => s ≠ stack
  | _ => true

/-- Across such events, the call of a marker that stays live stays outstanding, or it ends. -/
theorem outstanding_keeps {stack : UInt64} {es : List Event} (hk : ∀ e ∈ es, e.keeps stack = true)
    {l l' : Life} (hl : Life.run stack l es = some l') (hne : l' ≠ .absent) {b b' : Bool}
    (hb : b = true ∨ b' = true) :
    es.foldl (outstanding_next stack) b = true ∨ es.foldl (ended_next stack) b' = true := by
  induction es generalizing l b b' with
  | nil => exact hb
  | cons e es ih =>
    have he := hk e (by simp)
    have hes : ∀ e ∈ es, e.keeps stack = true := fun e he => hk e (by simp [he])
    obtain ⟨l₁, hl₁, hrest⟩ := Option.bind_eq_some_iff.mp hl
    -- Nothing after `e` arms the marker, so it is live already.
    have hlive : l₁ ≠ .absent := by
      refine live_before (fun rip ha => ?_) hrest hne
      have hk := hes _ ha
      simp [Event.keeps] at hk
    have hstep : outstanding_next stack b e = true ∨ ended_next stack b' e = true := by
      cases e <;> simp only [Life.next, Event.keeps, outstanding_next, ended_next] at hl₁ he ⊢
        <;> grind
    exact ih hes hrest hstep

/-! ## The invariant -/

/-- A marker in the table, or on its way into or out of it, belongs to an outstanding
call or is left over from one. -/
structure Owned (tr : List (Tid × Event)) (c : Config Tid Table Thread) : Prop where
  inv : Inv tr c
  live : ∀ t stack l, life t stack tr = some l → l ≠ .absent →
    outstanding t stack tr = true ∨ ended t stack tr = true
  arming : ∀ t stack, (c.loc t).arming = some stack → outstanding t stack tr = true

section Step

variable {tr : List (Tid × Event)} {c : Config Tid Table Thread}

/-- The life of a marker is in the table while its thread is not releasing it. -/
theorem Inv.mark_of_live (h : Inv tr c) {t : Tid} {stack : UInt64} {l : Life}
    (hl : life t stack tr = some l) (hne : l ≠ .absent)
    (hr : (c.loc t).releasing ≠ some stack) :
    ∃ i k, c.mem.marks t i = some k ∧ k.stack = stack := by
  obtain ⟨L, hlife, hv⟩ := h.view t
  have hL : L stack = l := Option.some.inj ((hlife stack).symm.trans hl)
  rcases hv.absent stack (by rw [hL]; exact hne) with hrel | hmark
  · exact absurd hrel hr
  · exact hmark

/-- A thread that arms has no marker at that stack. -/
theorem arming_gone {t : Tid} {m : Table} {th : Thread} {stack : UInt64} (hok : th.Ok t m)
    (ha : th.arming = some stack) : m.Gone t stack := by
  have habove : m.Above t stack MARKER_CAPACITY := by
    unfold Thread.arming at ha
    split at ha
    case h_7 => cases ha
    all_goals obtain rfl := Option.some.inj ha
    · exact hok
    · exact hok
    · exact hok
    · exact hok.1
    · exact hok.1
    · exact hok.1
  intro j k hk he
  have hlt := habove j k j.isLt hk
  rw [he] at hlt
  exact absurd hlt (UInt64.lt_irrefl _)

/-- A marker is neither armed nor refused where one is live. -/
theorem Inv.keeps_of_live (h : Inv tr c) {x : Tid × Op} {stack : UInt64} {l : Life}
    (hl : life x.1 stack tr = some l) (hne : l ≠ .absent) {e : Event}
    (he : e ∈ (thread_step x.1 x.2 c.mem (c.loc x.1)).events)
    (hn : ∀ rip, e ≠ .armed stack rip) : e.keeps stack = true := by
  have hmark := h.mark_of_live hl hne
  generalize hloc : c.loc x.1 = th at he hmark
  cases thread_step_shows he with
  | armed d raw i =>
    have hs : d.trap_rsp ≠ stack := by
      rintro rfl
      exact hn _ rfl
    simpa [Event.keeps] using hs
  | refused d raw k =>
    -- `retire_markers` has left no marker of the thread at this depth.
    obtain ⟨L, -, hv⟩ := h.view x.1
    have hgone := arming_gone hv.ok (by rw [hloc]; rfl)
    obtain ⟨i, k, hk, hks⟩ := hmark (by simp [Thread.releasing])
    have hs : d.trap_rsp ≠ stack := by
      rintro rfl
      exact hgone i k hk hks
    simpa [Event.keeps] using hs
  | _ => rfl

theorem Owned.live_step (h : Owned tr c) (x : Tid × Op) {stack : UInt64} {l : Life}
    (hl : life x.1 stack (tr ++ Threads.events program c x) = some l) (hne : l ≠ .absent) :
    outstanding x.1 stack (tr ++ Threads.events program c x) = true
      ∨ ended x.1 stack (tr ++ Threads.events program c x) = true := by
  obtain ⟨L, hlife, -⟩ := h.inv.view x.1
  have hold := hlife stack
  rw [life_step, hold, Option.bind_some] at hl
  rw [outstanding_append, ended_append, Threads.own_events_self]
  simp only [program]
  by_cases ha : ∃ rip, .armed stack rip ∈ (thread_step x.1 x.2 c.mem (c.loc x.1)).events
  · -- The marker is published, and its call is the one being armed.
    obtain ⟨rip, ha⟩ := ha
    have harming := h.arming x.1 stack
    generalize c.loc x.1 = th at ha harming
    cases thread_step_shows ha with
    | armed d raw i => exact Or.inl (harming rfl)
  · have hn : ∀ rip, .armed stack rip ∉ (thread_step x.1 x.2 c.mem (c.loc x.1)).events :=
      fun rip he => ha ⟨rip, he⟩
    have hlive := live_before hn hl hne
    refine outstanding_keeps (fun e he => h.inv.keeps_of_live hold hlive he ?_) hl hne
      (h.live x.1 stack _ hold hlive)
    rintro rip rfl
    exact hn rip he

/-- A thread arms because `remember_marker` was just called for that stack, or has been arming
for it all along. -/
theorem dispatch_arming {t : Tid} {m : Table} {d : Dispatch} {pc : DispatchPc} {stack : UInt64}
    (h : (dispatch_step t m d pc).loc.arming = some stack) :
    (∃ rip, (dispatch_step t m d pc).events = [.bridged stack rip])
      ∨ (Thread.dispatching d pc).arming = some stack ∧ (dispatch_step t m d pc).events = [] := by
  have hnext : ∀ i, (Thread.dispatching d (retire_next i)).arming = none := by
    intro i
    unfold retire_next
    split <;> rfl
  cases pc with
  | decide =>
    simp only [dispatch_step, remember] at h ⊢
    split at h
    · cases h
    · split at h
      · cases h
      · rename_i hz
        obtain rfl := Option.some.inj h
        exact Or.inl ⟨_, by rw [if_neg hz]⟩
  | reserve raw k =>
    simp only [dispatch_step] at h ⊢
    split at h
    · rename_i hfree
      exact Or.inr ⟨h, by rw [if_pos hfree]⟩
    · rename_i hfree
      split at h
      · rename_i hk
        exact Or.inr ⟨h, by rw [if_neg hfree, dif_pos hk]⟩
      · cases h
  | count raw i | arm_tid raw i | arm_rip raw i | arm_phase raw i => exact Or.inr ⟨h, rfl⟩
  | publish raw i => cases h
  | has_active | retire_active =>
    simp only [dispatch_step] at h
    split at h <;> cases h
  | retire_tid i | retire_stack i | retire_again i recorded =>
    simp only [dispatch_step] at h
    split at h
    · rw [hnext] at h
      cases h
    · cases h
  | retire_release i recorded pc =>
    simp only [dispatch_step] at h
    split at h
    · cases h
    · rw [hnext] at h
      cases h

theorem Owned.arming_step (h : Owned tr c) (x : Tid × Op) {stack : UInt64}
    (ha : ((Threads.step program c x).loc x.1).arming = some stack) :
    outstanding x.1 stack (tr ++ Threads.events program c x) = true := by
  rw [Threads.step_loc_self] at ha
  rw [outstanding_append, Threads.own_events_self]
  simp only [program] at ha ⊢
  cases hloc : c.loc x.1 with
  | idle =>
    rw [hloc] at ha
    simp only [thread_step, enter, redirect_direct] at ha
    repeat' split at ha
    all_goals cases ha
  | trapping r pc =>
    -- `redirect` arms nothing.
    rw [hloc] at ha
    cases pc <;> simp only [thread_step, trap_step, redirect_direct, redirect_bridged] at ha
    all_goals repeat' split at ha
    all_goals cases ha
  | dispatching d pc =>
    rw [hloc] at ha
    simp only [thread_step] at ha ⊢
    rcases dispatch_arming ha with ⟨rip, hev⟩ | ⟨hold, hev⟩
    · rw [hev]
      simp [outstanding_next]
    · rw [hev]
      exact h.arming x.1 stack (by rw [hloc]; exact hold)

theorem Owned.step (h : Owned tr c) (x : Tid × Op) :
    Owned (tr ++ Threads.events program c x) (Threads.step program c x) := by
  have hother : ∀ {t} stack, t ≠ x.1 → outstanding t stack (tr ++ Threads.events program c x)
      = outstanding t stack tr
      ∧ ended t stack (tr ++ Threads.events program c x) = ended t stack tr
      ∧ life t stack (tr ++ Threads.events program c x) = life t stack tr := by
    intro t stack ht
    refine ⟨?_, ?_, life_step_of_ne tr c ht stack⟩
    · rw [outstanding_append, Threads.own_events_of_ne _ _ _ ht, List.foldl_nil]
    · rw [ended_append, Threads.own_events_of_ne _ _ _ ht, List.foldl_nil]
  refine ⟨h.inv.step x, fun t stack l hl hne => ?_, fun t stack ha => ?_⟩
  · by_cases ht : t = x.1
    · subst ht
      exact h.live_step x hl hne
    · obtain ⟨hout, hended, hlife⟩ := hother stack ht
      rw [hlife] at hl
      rw [hout, hended]
      exact h.live t stack l hl hne
  · by_cases ht : t = x.1
    · subst ht
      exact h.arming_step x ha
    · rw [Threads.step_loc_of_ne _ c x ht] at ha
      rw [(hother stack ht).1]
      exact h.arming t stack ha

/-- The call a taken slot belongs to. -/
def SlotCall (c : Config Tid Table Thread) (i : Index) (k : Tid × UInt64) : Prop :=
  (∃ mk, c.mem.marks k.1 i = some mk ∧ mk.stack = k.2)
    ∨ ((c.loc k.1).holds = some i
      ∧ ((c.loc k.1).arming = some k.2 ∨ (c.loc k.1).releasing = some k.2))

/-- A reserved slot is being armed or released. -/
theorem holds_call {th : Thread} {i : Index} (h : th.holds = some i) :
    ∃ stack, th.arming = some stack ∨ th.releasing = some stack := by
  have hstarted : ∀ {pc : ReleasePc}, pc.holds = true → pc.started = true := by
    intro pc hp
    cases pc with
    | cas => cases hp
    | _ => rfl
  cases th with
  | idle => cases h
  | dispatching d pc =>
    cases pc with
    | count | arm_tid | arm_rip | arm_phase | publish => exact ⟨_, Or.inl rfl⟩
    | retire_release i' recorded pc =>
      simp only [Thread.holds] at h
      split at h
      · rename_i hp
        exact ⟨recorded, Or.inr (by simp [Thread.releasing, hstarted hp])⟩
      · cases h
    | _ => cases h
  | trapping r pc =>
    cases pc with
    | release i' pc why =>
      simp only [Thread.holds] at h
      split at h
      · rename_i hp
        exact ⟨r.rsp.val, Or.inr (by simp [Thread.releasing, hstarted hp])⟩
      · cases h
    | _ => cases h

theorem Inv.slotCall (h : Inv tr c) {i : Index} (hi : (c.mem.markers i).stack ≠ 0) :
    ∃ k, SlotCall c i k := by
  rcases h.slots i with ⟨h0, -⟩ | ⟨-, t, ht, -⟩ | ⟨hp, t, ht⟩
  · exact absurd h0 hi
  · obtain ⟨stack, hs⟩ := holds_call ht
    exact ⟨(t, stack), Or.inr ⟨ht, hs⟩⟩
  · exact ⟨(t, (c.mem.markers i).stack), Or.inl ⟨_, Table.marks_eq_some.mpr ⟨rfl, ht, hp⟩, rfl⟩⟩

/-- A thread that releases has no other marker at that stack. -/
theorem releasing_gone {t : Tid} {m : Table} {th : Thread} {stack : UInt64} (hok : th.Ok t m)
    (hr : th.releasing = some stack) : m.Gone t stack := by
  have hpc : ∀ {pc : ReleasePc} {i s}, pc.Ok t m i s → pc.started = true → m.Gone t s := by
    intro pc i s hk hs
    cases pc with
    | cas => cases hs
    | clear_tid | uncount | clear_rip | clear_phase | clear_word | free => exact hk.1
  unfold Thread.releasing at hr
  split at hr
  · split at hr
    · rename_i hs
      obtain rfl := Option.some.inj hr
      exact hpc hok.2 hs
    · cases hr
  · rename_i r i pc why
    split at hr
    · rename_i hs
      obtain rfl := Option.some.inj hr
      cases why with
      | replay saved => exact hpc hok.1 hs
      | fall_through => exact hok.elim
      | cancel => exact hpc hok hs
    · cases hr
  · cases hr

/-- No call has two slots. -/
theorem Inv.slotCall_unique (h : Inv tr c) {i j : Index} {k : Tid × UInt64}
    (hi : SlotCall c i k) (hj : SlotCall c j k) : i = j := by
  obtain ⟨L, -, hv⟩ := h.view k.1
  have hgone : (c.loc k.1).arming = some k.2 ∨ (c.loc k.1).releasing = some k.2 →
      c.mem.Gone k.1 k.2 := by
    rintro (ha | hr)
    · exact arming_gone hv.ok ha
    · exact releasing_gone hv.ok hr
  rcases hi with ⟨mi, hmi, hsi⟩ | ⟨hhi, hci⟩ <;> rcases hj with ⟨mj, hmj, hsj⟩ | ⟨hhj, hcj⟩
  · exact hv.one i j mi mj hmi hmj (hsi.trans hsj.symm)
  · exact absurd hsi (hgone hcj i mi hmi)
  · exact absurd hsj (hgone hci j mj hmj)
  · exact Option.some.inj (hhi.symm.trans hhj)

/-- The life of a marker in the table has begun and is not over. -/
theorem View.live_of_mark {t : Tid} {m : Table} {th : Thread} {L : UInt64 → Life}
    (h : View t m th L) {i : Index} {k : Marker} (hk : m.marks t i = some k) :
    L k.stack ≠ .absent := by
  by_cases hsave : th.saving = some i
  · -- The context is being saved, and the marker is still armed as far as its events go.
    have hok := h.ok
    have hliv := h.living
    unfold Thread.saving at hsave
    split at hsave
    · obtain rfl := Option.some.inj hsave
      obtain ⟨k', ⟨hk', hs', -⟩, -⟩ := hok
      obtain rfl := Option.some.inj (hk.symm.trans hk')
      rw [hs', hliv]
      intro habs
      cases habs
    · cases hsave
  · rw [h.marked i k hk hsave]
    exact k.life_ne_absent

/-- The life of a marker that is being taken out ends when that is reported. -/
theorem View.live_of_releasing {t : Tid} {m : Table} {th : Thread} {L : UInt64 → Life}
    (h : View t m th L) {stack : UInt64} (hr : th.releasing = some stack) : L stack ≠ .absent := by
  have hliv := h.living
  have hok := h.ok
  unfold Thread.releasing at hr
  split at hr
  · split at hr
    · rename_i hst
      rw [← Option.some.inj hr]
      exact hliv hst
    · cases hr
  · rename_i r i pc why
    split at hr
    · rename_i hst
      rw [← Option.some.inj hr]
      cases why with
      | replay saved =>
        intro habs
        have hrt := hliv hst
        rw [habs] at hrt
        cases hrt
      | fall_through => exact hok.elim
      | cancel => exact hliv hst
    · cases hr
  · cases hr

/-- The call of a taken slot is outstanding, or its marker is left over. -/
theorem Owned.outstanding_or (h : Owned tr c) {i : Index} {k : Tid × UInt64}
    (hk : SlotCall c i k) : outstanding k.1 k.2 tr = true ∨ LeftOver tr k.1 k.2 := by
  obtain ⟨L, hlife, hv⟩ := h.inv.view k.1
  have hlive : L k.2 ≠ .absent → outstanding k.1 k.2 tr = true ∨ LeftOver tr k.1 k.2 := by
    intro hne
    refine (h.live k.1 k.2 _ (hlife k.2) hne).imp_right fun hended => ⟨?_, hended⟩
    rw [hlife]
    exact fun heq => hne (Option.some.inj heq)
  rcases hk with ⟨mk, hmk, hs⟩ | ⟨-, ha | hr⟩
  · refine hlive ?_
    rw [← hs]
    exact hv.live_of_mark hmk
  · exact Or.inl (h.arming k.1 k.2 ha)
  · exact hlive (hv.live_of_releasing hr)

/-- A refusal is the first thing its step shows: the last probe has failed. -/
theorem refused_step {t : Tid} {op : Op} {m : Table} {th : Thread} {stack rip : UInt64}
    (h : .refused stack rip ∈ (thread_step t op m th).events) :
    ∃ d raw k, th = .dispatching d (.reserve raw k) ∧ stack = d.trap_rsp
      ∧ ¬k.val + 1 < MARKER_CAPACITY ∧ (m.markers (probe d.trap_rsp k)).stack ≠ 0
      ∧ (thread_step t op m th).events = [.refused stack rip, .dispatched d.original] := by
  cases thread_step_shows h with
  | refused d raw k =>
    simp only [thread_step, dispatch_step] at h ⊢
    split at h
    · cases h
    · rename_i hfree
      split at h
      · cases h
      · rename_i hk
        refine ⟨d, raw, k, rfl, rfl, hk, hfree, ?_⟩
        rw [if_neg hfree, dif_neg hk]

/-- A full table without markers left over holds 256 outstanding calls. -/
theorem Owned.calls_of_full (h : Owned tr c) (hfull : ∀ i, (c.mem.markers i).stack ≠ 0)
    (hnone : ∀ t stack, ¬LeftOver tr t stack) :
    ∃ K : Finset (Tid × UInt64), K.card = MARKER_CAPACITY
      ∧ ∀ k ∈ K, Markers.outstanding k.1 k.2 tr = true ∧ ∃ i, SlotCall c i k := by
  -- Every slot has its call, and no call has two slots.
  choose call hcall using fun i => h.inv.slotCall (hfull i)
  refine ⟨Finset.univ.image call, ?_, ?_⟩
  · rw [Finset.card_image_of_injective, Finset.card_univ, Fintype.card_fin]
    intro i j hij
    exact h.inv.slotCall_unique (hcall i) (hij ▸ hcall j)
  · intro k hk
    obtain ⟨i, -, rfl⟩ := Finset.mem_image.mp hk
    exact ⟨(h.outstanding_or (hcall i)).resolve_right (hnone _ _), i, hcall i⟩

/-- The call `remember_marker` works for has no slot yet. -/
theorem Inv.not_slotCall (h : Inv tr c) {t : Tid} {d : Dispatch} {raw : UInt64} {k : Index}
    (hl : c.loc t = .dispatching d (.reserve raw k)) (i : Index) :
    ¬SlotCall c i (t, d.trap_rsp) := by
  rintro (⟨mk, hmk, hs⟩ | ⟨hh, -⟩)
  · obtain ⟨L, -, hv⟩ := h.view t
    exact arming_gone hv.ok (by rw [hl]; rfl) i mk hmk hs
  · rw [hl] at hh
    cases hh

theorem Owned.refused_step (h : Owned tr c) (x : Tid × Op) (hx : NoneLeftOver tr c x)
    (hf : RefusedWhenFull tr) : RefusedWhenFull (tr ++ Threads.events program c x) := by
  intro pre t stack rip hp
  rcases Threads.prefix_events program hp with hp' | ⟨rfl, he, hfirst⟩
  · exact hf pre t stack rip hp'
  · obtain ⟨d, raw, k, hl, rfl, hlast, hk, hev⟩ := Markers.refused_step he
    rw [hfirst _ hev (by simp)]
    obtain ⟨hfull, hnone⟩ := (hx d raw k hl hlast).resolve_left hk
    obtain ⟨K, hcard, hK⟩ := h.calls_of_full hfull hnone
    refine ⟨K, hcard, fun key hkey => ?_⟩
    obtain ⟨hlive, i, hcall⟩ := hK key hkey
    refine ⟨hlive, ?_⟩
    rintro rfl
    exact h.inv.not_slotCall hl i hcall

end Step

/-- **The table is full only of outstanding calls.** In every run in which no marker is left over
and no slot has been freed behind the scan when `remember_marker` makes its last probe in vain,
`remember_marker` is refused only while 256 other bridged calls are outstanding. -/
theorem refused_when_full (s : List (Tid × Op))
    (hnone : Threads.AllSteps program NoneLeftOver start s) :
    RefusedWhenFull (Threads.trace program start s) := by
  refine (Threads.run_induct_of program (Q := fun _ => True)
    (I := fun tr d => Owned tr d ∧ RefusedWhenFull tr) ⟨⟨inv_start, ?_, nofun⟩, ?_⟩
    (fun tr d x hx _ h => ⟨h.1.step x, h.1.refused_step x hx h.2⟩) hnone
    fun _ _ => trivial).2
  · intro t stack l hl hne
    exact absurd (Option.some.inj hl).symm hne
  · intro pre t stack rip hp
    simp at hp

/-! ## A thread that is alone

What `dispatcher_target` and `redirect` do from beginning to end when no other thread moves. -/

section Alone

variable {t : Tid} {m : Table} {d : Dispatch} {raw : UInt64} {op : Op} {n : ℕ}
  {tr : List (Tid × Event)} {c : Config Tid Table Thread}

/-- Nobody is inside. -/
def quiet (m : Table) : Config Tid Table Thread := ⟨m, fun _ => .idle⟩

theorem alone_idle (t : Tid) (m : Table) : Threads.alone Thread.idle t m .idle = quiet m := by
  simp [Threads.alone, quiet]

/-- The loops over the table go up. -/
theorem index_induction {p : Index → Prop} (last : ∀ i, ¬i.val + 1 < MARKER_CAPACITY → p i)
    (next : ∀ (i : Index) (h : i.val + 1 < MARKER_CAPACITY), p ⟨i.val + 1, h⟩ → p i)
    (i : Index) : p i := by
  by_cases h : i.val + 1 < MARKER_CAPACITY
  · exact next i h (index_induction last next ⟨i.val + 1, h⟩)
  · exact last i h
termination_by MARKER_CAPACITY - i.val

/-- `retire_markers` passes over the markers of other threads. -/
theorem retire_scan (hm : ∀ i, (m.markers i).tid ≠ t.val)
    (hrest : Leads program (Threads.alone .idle t m (.dispatching d .decide)) (steps t n op) tr c)
    (i : Index) :
    Leads program (Threads.alone .idle t m (.dispatching d (.retire_tid i)))
      (steps t (MARKER_CAPACITY - i.val + n) op) tr c := by
  have hstep : ∀ i, program t op m (.dispatching d (.retire_tid i))
      = ⟨m, .dispatching d (retire_next i), []⟩ := by
    intro i
    simp only [program, thread_step, dispatch_step, if_pos (hm i)]
  induction i using index_induction with
  | last i h =>
    have hn : MARKER_CAPACITY - i.val + n = n + 1 := by omega
    have hnext : retire_next i = .decide := dif_neg h
    rw [hn]
    exact Leads.alone program [] (by rw [hstep, hnext]) hrest
  | next i h ih =>
    have hn : MARKER_CAPACITY - i.val + n = MARKER_CAPACITY - (i.val + 1) + n + 1 := by omega
    have hnext : retire_next i = .retire_tid ⟨i.val + 1, h⟩ := dif_pos h
    rw [hn]
    exact Leads.alone program [] (by rw [hstep, hnext]) ih

/-- How many steps `dispatcher_target` makes before `remember_marker`. -/
def scan_steps (m : Table) : ℕ := if m.active = 0 then 2 else 3 + MARKER_CAPACITY

/-- A thread without markers comes to the decision with the table as it was. -/
theorem enters (hm : ∀ i, (m.markers i).tid ≠ t.val)
    (hrest : Leads program (Threads.alone .idle t m (.dispatching d .decide))
      (steps t n (.dispatch d)) tr c) :
    Leads program (quiet m) (steps t (scan_steps m + n) (.dispatch d))
      ((t, .entered d.trap_rsp) :: tr) c := by
  rw [← alone_idle t m]
  by_cases ha : m.active = 0
  · have hn : scan_steps m + n = n + 1 + 1 := by
      rw [scan_steps, if_pos ha]
      omega
    rw [hn]
    refine Leads.alone program [_] rfl (Leads.alone program [] ?_ hrest)
    simp [program, thread_step, dispatch_step, ha]
  · have hn : scan_steps m + n = MARKER_CAPACITY - first.val + n + 1 + 1 + 1 := by
      rw [scan_steps, if_neg ha]
      change _ = MARKER_CAPACITY - 0 + n + 1 + 1 + 1
      omega
    have hactive : program t (.dispatch d) m (.dispatching d .has_active)
        = ⟨m, .dispatching d .retire_active, []⟩ := by
      simp [program, thread_step, dispatch_step, ha]
    have hretire : program t (.dispatch d) m (.dispatching d .retire_active)
        = ⟨m, .dispatching d (.retire_tid first), []⟩ := by
      simp [program, thread_step, dispatch_step, ha]
    rw [hn]
    exact Leads.alone program [_] rfl (Leads.alone program [] hactive
      (Leads.alone program [] hretire (retire_scan hm hrest first)))

theorem bridges (raw : UInt64) (hraw : d.replays = some raw) (hrip : Dispatch.trap_rip raw ≠ 0) :
    program t op m (.dispatching d .decide) = ⟨m, .dispatching d (.reserve raw first),
      [.bridged d.trap_rsp (Dispatch.trap_rip raw)]⟩ := by
  simp [program, thread_step, dispatch_step, remember, hraw, t.val_ne_zero, d.trap_rsp_ne_zero,
    hrip]

/-- The table with one more marker. -/
def Table.arm (m : Table) (i : Index) (t : Tid) (stack rip : UInt64) : Table :=
  { m.set i { m.markers i with stack, tid := t.val, rip, phase := 0 } with active := m.active + 1 }

/-- `remember_marker` takes the first slot it probes. -/
theorem arms (raw : UInt64) (hraw : d.replays = some raw) (hrip : Dispatch.trap_rip raw ≠ 0)
    (hfree : (m.markers (probe d.trap_rsp first)).stack = 0) :
    Leads program (Threads.alone .idle t m (.dispatching d .decide)) (steps t 7 op)
      [(t, .bridged d.trap_rsp (Dispatch.trap_rip raw)),
        (t, .armed d.trap_rsp (Dispatch.trap_rip raw)), (t, .dispatched (raw ||| RAW_TARGET_TAG))]
      (quiet (m.arm (probe d.trap_rsp first) t d.trap_rsp (Dispatch.trap_rip raw))) := by
  refine Leads.alone program [_] (bridges raw hraw hrip) ?_
  refine Leads.alone program [] (if_pos hfree) ?_
  -- count, tid, rip and phase, and then the stack
  refine Leads.alone program [] rfl ?_
  refine Leads.alone program [] rfl ?_
  refine Leads.alone program [] rfl ?_
  refine Leads.alone program [] rfl ?_
  refine Leads.alone program [_, _] rfl ?_
  rw [alone_idle]
  refine ⟨?_, rfl⟩
  simp [steps, Table.arm, Table.set]

/-- The last index of the table. -/
def last : Index := ⟨255, by decide⟩

/-- `remember_marker` passes over the slots that are taken. -/
theorem probes (hfull : ∀ i, (m.markers i).stack ≠ 0) (k : Index) :
    Leads program (Threads.alone .idle t m (.dispatching d (.reserve raw k)))
      (steps t (last.val - k.val) op) []
      (Threads.alone .idle t m (.dispatching d (.reserve raw last))) := by
  induction k using index_induction with
  | last k h =>
    have hk : k = last := by
      have hlt := k.isLt
      change k.val < 256 at hlt
      change ¬k.val + 1 < 256 at h
      refine Fin.ext ?_
      change k.val = 255
      omega
    rw [hk, Nat.sub_self]
    exact ⟨rfl, rfl⟩
  | next k h ih =>
    have hn : last.val - k.val = last.val - (k.val + 1) + 1 := by
      change 255 - k.val = 255 - (k.val + 1) + 1
      change k.val + 1 < 256 at h
      omega
    rw [hn]
    refine Leads.alone program [] ?_ ih
    simp [program, thread_step, dispatch_step, hfull, h]

/-- The last slot is taken, too. -/
theorem refuses (hfull : ∀ i, (m.markers i).stack ≠ 0) :
    Leads program (Threads.alone .idle t m (.dispatching d (.reserve raw last)))
      (steps t 1 (.dispatch d))
      [(t, .refused d.trap_rsp (Dispatch.trap_rip raw)), (t, .dispatched d.original)]
      (quiet m) := by
  refine Leads.alone program [_, _] ?_ ⟨alone_idle t m, rfl⟩
  have hlast : ¬last.val + 1 < MARKER_CAPACITY := by decide
  simp [program, thread_step, dispatch_step, hfull, hlast]

/-- A call whose thread has no marker comes to the last slot of a full table. -/
theorem comes_to_last (hm : ∀ i, (m.markers i).tid ≠ t.val)
    (hfull : ∀ i, (m.markers i).stack ≠ 0) (raw : UInt64) (hraw : d.replays = some raw)
    (hrip : Dispatch.trap_rip raw ≠ 0) :
    Leads program (quiet m) (steps t (scan_steps m + 256) (.dispatch d))
      [(t, .entered d.trap_rsp), (t, .bridged d.trap_rsp (Dispatch.trap_rip raw))]
      (Threads.alone .idle t m (.dispatching d (.reserve raw last))) :=
  enters hm (Leads.alone program [_] (bridges raw hraw hrip) (probes hfull first))

/-- `consume` saves the context, and the call is delivered. -/
theorem saves (t : Tid) (op : Op) {r : Trap} (hroute : r.route = true)
    (hby : is_bypass r.context.xmm5 = false)
    (i : Index) (w : Word) (rest : List Word) (m : Table) :
    ∃ words, Leads program (Threads.alone .idle t m (.trapping r (.save i w rest)))
      (steps t (rest.length + 1) op)
      [(t, .routed r.rsp.val r.rip r.context), (t, .redirected true)]
      (quiet (m.set i { m.markers i with words })) := by
  induction rest generalizing w m with
  | nil =>
    refine ⟨Function.update (m.markers i).words w (r.context.word w), ?_⟩
    rw [← alone_idle t]
    refine Leads.alone program [_, _] ?_ ⟨rfl, rfl⟩
    simp [program, thread_step, trap_step, redirect_bridged, hroute, hby]
  | cons w' rest ih =>
    obtain ⟨words, h⟩ := ih w' (m.set i { m.markers i with
      words := Function.update (m.markers i).words w (r.context.word w) })
    refine ⟨words, ?_⟩
    simp only [Table.set_markers_self, Table.set_set] at h
    exact Leads.alone program [] rfl h

/-- The trap of an armed call whose marker is where it was probed first. -/
theorem routes {r : Trap} (ha : m.active ≠ 0) (hroute : r.route = true)
    (hby : is_bypass r.context.xmm5 = false) (hrip : r.rip ≠ 0) (hrsp : r.rsp.val ≠ 0)
    {k : Marker} (hk : m.markers (probe r.rsp.val first) = k) (hks : k.stack = r.rsp.val)
    (hkt : k.tid = t.val) (hkr : k.rip = r.rip) (hkp : k.phase = 0) :
    ∃ words, Leads program (quiet m) (steps t 12 (.trap r))
      [(t, .trapped r.rsp.val r.rip), (t, .routed r.rsp.val r.rip r.context),
        (t, .redirected true)]
      (quiet (m.set (probe r.rsp.val first) { k with phase := 1, words })) := by
  have henter : program t (.trap r) m .idle
      = ⟨m, .trapping r (.consume_find .active), [.trapped r.rsp.val r.rip]⟩ := by
    simp [program, thread_step, enter, t.val_ne_zero, hrsp, hrip]
  have hfind : ∀ pc pc', find_step t m r.rsp.val r.rip pc = .more pc' →
      program t (.trap r) m (.trapping r (.consume_find pc))
        = ⟨m, .trapping r (.consume_find pc'), []⟩ := by
    intro pc pc' h
    simp [program, thread_step, trap_step, h]
  have hfound : program t (.trap r) m (.trapping r (.consume_find (.rip first)))
      = ⟨m, .trapping r (.route (probe r.rsp.val first)), []⟩ := by
    simp [program, thread_step, trap_step, find_step, hk, hkr]
  have hphase : program t (.trap r) m (.trapping r (.route (probe r.rsp.val first)))
      = ⟨m.set (probe r.rsp.val first) { k with phase := 1 },
        .trapping r (.save (probe r.rsp.val first) Word.first_saved Word.saved.tail), []⟩ := by
    simp [program, thread_step, trap_step, hk, hkp]
  obtain ⟨words, hsave⟩ := saves t (.trap r) hroute hby (probe r.rsp.val first)
    Word.first_saved Word.saved.tail (m.set (probe r.rsp.val first) { k with phase := 1 })
  refine ⟨words, ?_⟩
  simp only [Table.set_markers_self, Table.set_set] at hsave
  rw [← alone_idle t m]
  refine Leads.alone program [_] henter ?_
  refine Leads.alone program [] (hfind .active (.stack first) (if_neg ha)) ?_
  refine Leads.alone program []
    (hfind (.stack first) (.tid first) (by simp [find_step, hk, hks])) ?_
  refine Leads.alone program [] (hfind (.tid first) (.rip first) (by simp [find_step, hk, hkt])) ?_
  exact Leads.alone program [] hfound (Leads.alone program [] hphase hsave)

/-- A return and an exit leave the table alone. -/
theorem leaves (t : Tid) (m : Table) (stack : UInt64) :
    Leads program (quiet m) [(t, .returned stack), (t, .exited)]
      [(t, .returned stack), (t, .exited)] (quiet m) := by
  have hstep : ∀ op, enter t m op = ⟨m, .idle, (enter t m op).events⟩ →
      Threads.step program (quiet m) (t, op) = quiet m := by
    intro op h
    simp only [Threads.step, program, quiet, thread_step]
    rw [h]
    simp
  have hret := hstep (.returned stack) rfl
  have hexit := hstep .exited rfl
  refine ⟨?_, ?_⟩
  · simp only [Threads.run_cons, Threads.run_nil, hret, hexit]
  · simp only [Threads.trace, hret]
    rfl

end Alone

/-! ## A full table and no call under way -/

theorem small_toNat {n : ℕ} (hn : n < 0x20000) : (UInt64.ofNat n).toNat = n := by
  rw [UInt64.toNat_ofNat']
  omega

theorem index_small (j : Index) : j.val < 256 := j.isLt

/-- The threads that come and go. -/
def worker (j : Index) : Tid where
  val := .ofNat (j.val + 1)
  pos := by
    have hj := index_small j
    rw [UInt64.lt_iff_toNat_lt, small_toNat (by omega)]
    exact Nat.succ_pos _
  pid_t := by
    have hj := index_small j
    rw [UInt64.lt_iff_toNat_lt, small_toNat (by omega)]
    change _ < 0x80000000
    omega

theorem small_user {n : ℕ} (hn : n < 0x20000) : UInt64.ofNat n < 0x800000000000 := by
  rw [UInt64.lt_iff_toNat_lt, small_toNat hn]
  change _ < 0x800000000000
  omega

/-- The one call of a worker. Their stacks are 16 bytes apart. -/
def worker_call (j : Index) : Dispatch where
  entry_rsp := ⟨.ofNat (0x10000 + 16 * j.val), small_user (by have := index_small j; omega)⟩
  original := 1
  stub_match := true
  caller_is_reflex_image := false
  raw := some 0x2000

/-- Its trap, which Reflex takes. -/
def worker_trap (j : Index) : Trap where
  rsp := ⟨.ofNat (0x10008 + 16 * j.val), small_user (by have := index_small j; omega)⟩
  rip := 0x2002
  context := syscall.context
  is_registered_target_process := true
  route := true
  bypass_completed := false

theorem syscall_not_bypass : is_bypass syscall.context.xmm5 = false := by decide

theorem worker_trap_rsp (j : Index) : (worker_trap j).rsp.val = (worker_call j).trap_rsp := by
  decide +revert +kernel

theorem worker_probe (j : Index) : probe (worker_call j).trap_rsp first = j := by
  decide +revert +kernel

/-- The call is armed, delivered and answered, it returns, and the thread exits. -/
def worker_run (j : Index) : List (Tid × Op) :=
  steps (worker j) (if j.val = 0 then 9 else 266) (Op.dispatch (worker_call j))
    ++ steps (worker j) 12 (Op.trap (worker_trap j))
    ++ [(worker j, Op.returned (worker_call j).trap_rsp), (worker j, Op.exited)]

/-- The first `n` workers have each taken a slot. -/
structure Filled (n : ℕ) (m : Table) : Prop where
  active : m.active = UInt32.ofNat n
  taken : ∀ j : Index, j.val < n → (m.markers j).stack ≠ 0 ∧ (m.markers j).tid = (worker j).val
  free : ∀ j : Index, n ≤ j.val → (m.markers j).stack = 0 ∧ (m.markers j).tid = 0

theorem worker_tid_inj {i j : Index} (h : (worker i).val = (worker j).val) : i = j := by
  have hi := index_small i
  have hj := index_small j
  have hn := congrArg UInt64.toNat h
  simp only [worker] at hn
  rw [small_toNat (by omega), small_toNat (by omega)] at hn
  exact Fin.ext (by omega)

theorem ofNat_ne_zero {n : ℕ} (h0 : n ≠ 0) (hn : n < 0x20000) : UInt32.ofNat n ≠ 0 := by
  intro he
  have hnat := congrArg UInt32.toNat he
  rw [UInt32.toNat_ofNat'] at hnat
  change _ = 0 at hnat
  omega

/-- The next worker has no marker yet. -/
theorem Filled.no_marker {j : Index} {m : Table} (h : Filled j.val m) (i : Index) :
    (m.markers i).tid ≠ (worker j).val := by
  intro hi
  by_cases hij : i.val < j.val
  · rw [(h.taken i hij).2] at hi
    exact absurd (congrArg Fin.val (worker_tid_inj hi)) (Nat.ne_of_lt hij)
  · rw [(h.free i (by omega)).2] at hi
    exact (worker j).val_ne_zero hi.symm

/-- The first worker finds the counter at zero, and every other one scans the table. -/
theorem Filled.dispatch_steps {j : Index} {m : Table} (h : Filled j.val m) :
    scan_steps m + 7 = if j.val = 0 then 9 else 266 := by
  have hj := index_small j
  rw [scan_steps, h.active]
  by_cases h0 : j.val = 0
  · rw [h0]
    rfl
  · rw [if_neg (ofNat_ne_zero h0 (by omega)), if_neg h0]
    rfl

theorem Filled.count {j : Index} {m : Table} (h : Filled j.val m) :
    m.active + 1 = UInt32.ofNat (j.val + 1) := by
  rw [h.active]
  exact (UInt32.ofNat_add _ _).symm

/-- One more slot is taken, and nothing else has changed. -/
theorem Filled.take {j : Index} {m m' : Table} (h : Filled j.val m)
    (hactive : m'.active = m.active + 1) (hstack : (m'.markers j).stack ≠ 0)
    (htid : (m'.markers j).tid = (worker j).val)
    (hother : ∀ i, i ≠ j → m'.markers i = m.markers i) : Filled (j.val + 1) m' := by
  refine ⟨hactive.trans h.count, fun i hi => ?_, fun i hi => ?_⟩
  · by_cases hij : i = j
    · subst hij
      exact ⟨hstack, htid⟩
    · have hlt : i.val < j.val := by
        have hne : i.val ≠ j.val := fun he => hij (Fin.ext he)
        omega
      rw [hother i hij]
      exact h.taken i hlt
  · have hij : i ≠ j := by
      rintro rfl
      omega
    rw [hother i hij]
    exact h.free i (by omega)

/-- A worker finds its slot free and takes it. -/
theorem Filled.arms {j : Index} {m : Table} (h : Filled j.val m) :
    Leads program (quiet m)
        (steps (worker j) (if j.val = 0 then 9 else 266) (Op.dispatch (worker_call j)))
        ([.entered (worker_call j).trap_rsp, .bridged (worker_call j).trap_rsp 0x2002,
          .armed (worker_call j).trap_rsp 0x2002, .dispatched (0x2000 ||| RAW_TARGET_TAG)].map
            (Prod.mk (worker j)))
        (quiet (m.arm j (worker j) (worker_call j).trap_rsp 0x2002)) := by
  have hfree : (m.markers (probe (worker_call j).trap_rsp first)).stack = 0 := by
    rw [worker_probe]
    exact (h.free j (Nat.le_refl _)).1
  have hdispatch := enters (d := worker_call j) h.no_marker
    (Markers.arms 0x2000 rfl (by decide) hfree)
  rw [h.dispatch_steps, worker_probe] at hdispatch
  exact hdispatch

theorem Filled.arm {j : Index} {m : Table} (h : Filled j.val m) :
    Filled (j.val + 1) (m.arm j (worker j) (worker_call j).trap_rsp 0x2002) := by
  refine h.take rfl ?_ ?_ fun i hij => ?_
  · simp [Table.arm, (worker_call j).trap_rsp_ne_zero]
  · simp [Table.arm]
  · simp [Table.arm, Table.set, hij]

/-- A worker that has come and gone leaves its slot taken. -/
theorem Filled.next {j : Index} {m : Table} (h : Filled j.val m) :
    ∃ m' es, Filled (j.val + 1) m' ∧ Leads program (quiet m) (worker_run j)
      ((es ++ [Event.exited]).map (Prod.mk (worker j))) (quiet m') := by
  have hj := index_small j
  -- The trap finds the marker at its first probe: the slots of the workers are all different.
  have hmark : (m.arm j (worker j) (worker_call j).trap_rsp 0x2002).markers
      (probe (worker_trap j).rsp.val first)
      = ⟨(worker_call j).trap_rsp, (worker j).val, 0x2002, 0, (m.markers j).words⟩ := by
    rw [worker_trap_rsp, worker_probe]
    simp [Table.arm]
  have hactive : (m.arm j (worker j) (worker_call j).trap_rsp 0x2002).active ≠ 0 := by
    change m.active + 1 ≠ 0
    rw [h.count]
    exact ofNat_ne_zero (Nat.succ_ne_zero _) (by omega)
  have hrsp : (worker_trap j).rsp.val ≠ 0 := by
    rw [worker_trap_rsp]
    exact Dispatch.trap_rsp_ne_zero _
  obtain ⟨words, htrap⟩ := routes (r := worker_trap j) hactive rfl syscall_not_bypass
    (fun hz => by cases hz) hrsp hmark (worker_trap_rsp j).symm rfl rfl rfl
  rw [worker_trap_rsp, worker_probe] at htrap
  refine ⟨_, [_, _, _, _, _, _, _, _], h.take rfl ?_ ?_ fun i hij => ?_,
    (h.arms.trans program htrap).trans program (leaves (worker j) _ (worker_call j).trap_rsp)⟩
  · simp [(worker_call j).trap_rsp_ne_zero]
  · simp
  · simp [Table.set, Table.arm, hij]

/-- One worker after the other takes a slot, and keeps what is said of the trace. -/
theorem workers_fill (sched : Index → List (Tid × Op)) {G : List (Tid × Event) → Prop}
    (hnil : G []) (hnext : ∀ (j : Index) (m : Table) (tr : List (Tid × Event)), Filled j.val m →
      G tr → ∃ (m' : Table) (es : List Event), Filled (j.val + 1) m'
        ∧ G (tr ++ es.map (Prod.mk (worker j)))
        ∧ Leads program (quiet m) (sched j) (es.map (Prod.mk (worker j))) (quiet m'))
    {m₀ : Table} (h₀ : Filled 0 m₀) :
    ∃ m tr, Filled MARKER_CAPACITY m ∧ G tr
      ∧ Leads program (quiet m₀) ((List.finRange MARKER_CAPACITY).flatMap sched) tr (quiet m) := by
  have hfill : ∀ n ≤ MARKER_CAPACITY, ∃ m tr, Filled n m ∧ G tr ∧ Leads program (quiet m₀)
      (((List.finRange MARKER_CAPACITY).take n).flatMap sched) tr (quiet m) := by
    intro n
    induction n with
    | zero => exact fun _ => ⟨m₀, [], h₀, hnil, rfl, rfl⟩
    | succ n ih =>
      intro hn
      obtain ⟨m, tr, hm, hG, hlead⟩ := ih (by omega)
      obtain ⟨m', es, hm', hG', hlead'⟩ := hnext ⟨n, hn⟩ m tr hm hG
      have hsched : ((List.finRange MARKER_CAPACITY).take (n + 1)).flatMap sched
          = ((List.finRange MARKER_CAPACITY).take n).flatMap sched ++ sched ⟨n, hn⟩ := by
        rw [List.take_add_one, List.flatMap_append,
          List.getElem?_eq_getElem (by rw [List.length_finRange]; exact hn)]
        simp
      rw [hsched]
      exact ⟨m', _, hm', hG', hlead.trans program hlead'⟩
  obtain ⟨m, tr, hm, hG, hlead⟩ := hfill MARKER_CAPACITY (Nat.le_refl _)
  rw [List.take_of_length_le (by simp)] at hlead
  exact ⟨m, tr, hm, hG, hlead⟩

/-- The thread that comes too late. -/
def late : Tid := ⟨1000, by decide, by decide⟩

theorem worker_ne_late (j : Index) : (worker j).val ≠ late.val := by
  intro h
  have hj := index_small j
  have hn := congrArg UInt64.toNat h
  simp only [worker] at hn
  rw [small_toNat (by omega)] at hn
  change _ = 1000 at hn
  omega

theorem Filled.no_late {m : Table} (h : Filled MARKER_CAPACITY m) (i : Index) :
    (m.markers i).tid ≠ late.val := by
  rw [(h.taken i i.isLt).2]
  exact worker_ne_late i

/-- It comes to the last slot of the table that the workers have filled. -/
theorem Filled.late_comes {m : Table} (h : Filled MARKER_CAPACITY m) :
    Leads program (quiet m) (steps late 515 (.dispatch bridge))
      [(late, .entered bridge.trap_rsp), (late, .bridged bridge.trap_rsp 0x2002)]
      (Threads.alone .idle late m (.dispatching bridge (.reserve 0x2000 last))) := by
  have hcount : scan_steps m + 256 = 515 := by
    rw [scan_steps, h.active]
    rfl
  have hcomes := comes_to_last (d := bridge) h.no_late (fun i => (h.taken i i.isLt).1) 0x2000 rfl
    (by decide)
  rwa [hcount] at hcomes

/-! ### A table of outstanding calls -/

/-- An event of a call that goes on. -/
def Event.goes_on : Event → Bool
  | .refused _ _ | .returned _ | .exited => false
  | _ => true

/-- Where no call ends, none has ended. -/
theorem ended_of_goes_on {stack : UInt64} {es : List Event} (h : ∀ e ∈ es, e.goes_on = true) :
    es.foldl (ended_next stack) false = false := by
  induction es with
  | nil => rfl
  | cons e es ih =>
    have hstep : ended_next stack false e = false := by
      have he := h e List.mem_cons_self
      cases e with
      | refused | returned | exited => cases he
      | armed s rip => exact ite_self _
      | _ => rfl
    rw [List.foldl_cons, hstep]
    exact ih fun e he => h e (List.mem_cons_of_mem _ he)

/-- A schedule that shows no refusal meets the condition. -/
theorem noneLeftOver_of_armed {s : List (Tid × Op)}
    (h : ∀ t stack rip, (t, .refused stack rip) ∉ Threads.trace program start s) :
    Threads.AllSteps program NoneLeftOver start s := by
  induction s using List.reverseRecOn with
  | nil => trivial
  | append_singleton s x ih =>
    rw [Threads.trace_concat] at h
    refine (Threads.allSteps_concat program).mpr
      ⟨ih fun t stack rip hmem => h t stack rip (List.mem_append_left _ hmem), ?_⟩
    intro d raw k hloc hlast
    by_contra hneither
    obtain ⟨htaken, -⟩ := not_or.mp hneither
    refine h x.1 d.trap_rsp (Dispatch.trap_rip raw) (List.mem_append_right _ ?_)
    simp [Threads.events, program, hloc, thread_step, dispatch_step, htaken, hlast]

/-- A call is answered and returns, and its marker is left over. The next entry at that depth
retires it, and that call is replayed and returns. -/
def retired_run : List (Tid × Op) :=
  steps late 9 (Op.dispatch bridge) ++ steps late 12 (Op.trap syscall)
    ++ steps late 1 (Op.returned 0x1008) ++ steps late 280 (Op.dispatch bridge)
    ++ steps late 12 (Op.trap syscall) ++ steps late 25 (Op.trap syscall)
    ++ steps late 1 (Op.returned 0x1008)

instance : (th : Thread) → Decidable (th = .idle)
  | .idle => isTrue rfl
  | .dispatching _ _ | .trapping _ _ => isFalse nofun

def Event.is_refused : Event → Bool
  | .refused _ _ => true
  | _ => false

set_option maxRecDepth 20000 in
theorem retired_run_ends :
    (Threads.run program start retired_run).loc late = .idle
      ∧ (Threads.run program start retired_run).mem.active = 0
      ∧ ∀ e ∈ Threads.trace program start retired_run, e.2.is_refused = false := by
  decide +kernel

theorem retired_run_leaves :
    LeftOver (Threads.trace program start (retired_run.take 22)) late 0x1008 :=
  ⟨by decide +kernel, by decide +kernel⟩

theorem retired_run_others {t : Tid} (ht : t ≠ late) :
    (Threads.run program start retired_run).loc t = .idle
      ∧ Threads.own t (Threads.trace program start retired_run) = [] := by
  refine Threads.run_others program (c := start) (s := retired_run) fun x hx => ?_
  have hlate : x.1 = late := by
    simp only [retired_run, steps, List.mem_append, List.mem_replicate] at hx
    grind
  rw [hlate]
  exact ht

/-- With nobody inside and the counter at zero, the table is empty. -/
theorem Inv.quiet_of_idle {tr : List (Tid × Event)} {c : Config Tid Table Thread} (h : Inv tr c)
    (hidle : ∀ t, c.loc t = .idle) (hactive : c.mem.active = 0) :
    c = quiet c.mem ∧ Filled 0 c.mem ∧ ∀ t stack, life t stack tr = some .absent := by
  obtain ⟨m, loc⟩ := c
  obtain rfl : loc = fun _ => .idle := funext hidle
  refine ⟨rfl, ⟨hactive, nofun, fun j _ => ?_⟩, fun t stack => ?_⟩
  · rcases h.slots j with hfree | ⟨-, t, hholds, -⟩ | ⟨hpublished, -⟩
    · exact hfree
    · cases hholds
    · exact absurd hpublished (h.not_published hactive j)
  · obtain ⟨L, hlife, -⟩ := h.view t
    by_contra habsent
    obtain ⟨i, k, hk, -⟩ := h.mark_of_live (hlife stack)
      (fun heq => habsent ((hlife stack).trans (congrArg some heq))) nofun
    obtain ⟨rfl, -, hpublished⟩ := Table.marks_eq_some.mp hk
    exact h.not_published hactive i hpublished

/-- It leaves the table as it found it. -/
theorem retired_run_quiet :
    Threads.run program start retired_run
        = quiet (Threads.run program start retired_run).mem
      ∧ Filled 0 (Threads.run program start retired_run).mem
      ∧ ∀ t stack, life t stack (Threads.trace program start retired_run) = some .absent := by
  obtain ⟨hidle, hactive, -⟩ := retired_run_ends
  refine (inv_run retired_run).quiet_of_idle (fun t => ?_) hactive
  by_cases ht : t = late
  · rw [ht, hidle]
  · exact (retired_run_others ht).1

/-- What the workers of that run show. -/
def Arming (tr : List (Tid × Event)) : Prop := ∀ e ∈ tr, e.1 ≠ late ∧ e.2.goes_on = true

theorem arms_arming {j : Index} {m : Table} {tr : List (Tid × Event)} (h : Filled j.val m)
    (htr : Arming tr) : ∃ (m' : Table) (es : List Event), Filled (j.val + 1) m'
      ∧ Arming (tr ++ es.map (Prod.mk (worker j))) ∧ Leads program (quiet m)
        (steps (worker j) (if j.val = 0 then 9 else 266) (Op.dispatch (worker_call j)))
        (es.map (Prod.mk (worker j))) (quiet m') := by
  refine ⟨_, _, h.arm, fun e he => ?_, h.arms⟩
  rcases List.mem_append.mp he with hold | hnew
  · exact htr e hold
  · obtain ⟨e', he', rfl⟩ := List.mem_map.mp hnew
    refine ⟨fun hlate => worker_ne_late j (congrArg Tid.val hlate), ?_⟩
    simp only [List.mem_cons, List.not_mem_nil, or_false] at he'
    rcases he' with rfl | rfl | rfl | rfl <;> rfl

/-- A marker is left over and retired, 256 workers make a call each, and one more thread makes
another. -/
def full_run : List (Tid × Op) :=
  retired_run ++ (List.finRange MARKER_CAPACITY).flatMap (fun j =>
      steps (worker j) (if j.val = 0 then 9 else 266) (Op.dispatch (worker_call j)))
    ++ steps late 515 (.dispatch bridge) ++ steps late 1 (.dispatch bridge)

/-- The last step but one of that run: every slot is taken by a call that goes on. -/
theorem full_run_comes :
    ∃ (m : Table) (tr : List (Tid × Event)), Filled MARKER_CAPACITY m ∧ Arming tr
      ∧ Leads program start (retired_run ++ (List.finRange MARKER_CAPACITY).flatMap (fun j =>
          steps (worker j) (if j.val = 0 then 9 else 266) (Op.dispatch (worker_call j)))
        ++ steps late 515 (.dispatch bridge))
      (Threads.trace program start retired_run ++ tr
        ++ [(late, .entered bridge.trap_rsp), (late, .bridged bridge.trap_rsp 0x2002)])
      (Threads.alone .idle late m (.dispatching bridge (.reserve 0x2000 last))) := by
  obtain ⟨hquiet, hfilled, -⟩ := retired_run_quiet
  obtain ⟨m, tr, hm, htr, hlead⟩ := workers_fill _ (G := Arming) nofun
    (fun j m tr hm htr => arms_arming hm htr) hfilled
  have hretired : Leads program start retired_run (Threads.trace program start retired_run)
      (quiet (Threads.run program start retired_run).mem) := ⟨hquiet, rfl⟩
  exact ⟨m, tr, hm, htr, (hretired.trans program hlead).trans program hm.late_comes⟩

/-- No marker is left over then. -/
theorem full_run_none {tr : List (Tid × Event)} (htr : Arming tr) (t : Tid) (stack : UInt64) :
    ¬LeftOver (Threads.trace program start retired_run ++ tr
      ++ [(late, .entered bridge.trap_rsp), (late, .bridged bridge.trap_rsp 0x2002)]) t stack := by
  rintro ⟨hlive, hended⟩
  by_cases ht : t = late
  · -- Its marker has been retired, and the new call has none yet.
    have hworkers : Threads.own t tr = [] := by
      rw [Threads.own, List.filterMap_eq_nil_iff]
      exact fun e he => if_neg fun heq => (htr e he).1 (heq.trans ht)
    refine hlive ?_
    have hretired := retired_run_quiet.2.2 t stack
    unfold life at hretired ⊢
    rw [Threads.own_append, Threads.own_append, hworkers, List.append_nil, Life.run_append,
      hretired, ht, Option.bind_some]
    rfl
  · have hlate : Threads.own t [(late, Event.entered bridge.trap_rsp),
        (late, Event.bridged bridge.trap_rsp 0x2002)] = [] :=
      Threads.own_concat_of_ne ht []
        [Event.entered bridge.trap_rsp, Event.bridged bridge.trap_rsp 0x2002]
    have hown : ∀ e ∈ Threads.own t tr, e.goes_on = true := fun e he =>
      (htr (t, e) (Threads.mem_own.mp he)).2
    rw [ended_append, hlate, List.foldl_nil, ended_append] at hended
    unfold ended at hended
    rw [(retired_run_others ht).2, List.foldl_nil, ended_of_goes_on hown] at hended
    cases hended

theorem full_run_noneLeftOver : Threads.AllSteps program NoneLeftOver start full_run := by
  obtain ⟨m, tr, hm, htr, hrun, htrace⟩ := full_run_comes
  refine (Threads.allSteps_concat program).mpr
    ⟨noneLeftOver_of_armed fun t stack rip hmem => ?_, ?_⟩
  · rw [htrace] at hmem
    rcases List.mem_append.mp hmem with hmem | hmem
    · rcases List.mem_append.mp hmem with hmem | hmem
      · cases retired_run_ends.2.2 _ hmem
      · cases (htr _ hmem).2
    · simp at hmem
  · rw [htrace, hrun]
    intro d raw k hloc _
    exact Or.inr ⟨fun i => (hm.taken i i.isLt).1, full_run_none htr⟩

/-- The last call is refused, after a marker was left over, and all the others are outstanding. -/
theorem full_run_refuses :
    (late, Event.refused bridge.trap_rsp 0x2002) ∈ Threads.trace program start full_run
      ∧ (∃ s₁, s₁ <+: full_run ∧ LeftOver (Threads.trace program start s₁) late 0x1008)
      ∧ RefusedWhenFull (Threads.trace program start full_run) := by
  refine ⟨?_, ⟨retired_run.take 22, ?_, retired_run_leaves⟩,
    refused_when_full full_run full_run_noneLeftOver⟩
  · obtain ⟨m, tr, hm, -, hlead⟩ := full_run_comes
    have htrace := (hlead.trans program
      (refuses fun i => (hm.taken i i.isLt).1)).2
    rw [full_run, htrace]
    simp
    exact Or.inr (Or.inr rfl)
  · refine (List.take_prefix _ _).trans ?_
    simp only [full_run, List.append_assoc]
    exact List.prefix_append _ _

/-! ### A table of markers that are left over -/

/-- A worker that has exited has no outstanding call. -/
theorem worker_outstanding {t : Tid} {stack : UInt64} {u : Tid} {es : List Event}
    {tr : List (Tid × Event)} (htr : outstanding t stack tr = false) :
    outstanding t stack (tr ++ (es ++ [Event.exited]).map (Prod.mk u)) = false := by
  rw [outstanding_append]
  unfold Threads.own
  rw [List.filterMap_map]
  by_cases ht : u = t
  · subst ht
    simp [outstanding_next]
  · simpa [ht, Function.comp_def] using htr

/-- All workers come and go, and then one more thread makes a bridged call. -/
def exhausting_run : List (Tid × Op) :=
  (List.finRange MARKER_CAPACITY).flatMap worker_run
    ++ (steps late 515 (.dispatch bridge) ++ steps late 1 (.dispatch bridge))

/-- The late call is refused, and no other one is outstanding. -/
theorem late_refused :
    ∃ pre, pre ++ [(late, Event.refused bridge.trap_rsp 0x2002)]
        <+: Threads.trace program start exhausting_run
      ∧ ∀ t stack, outstanding t stack pre = true → (t, stack) = (late, bridge.trap_rsp) := by
  have hnew : Filled 0 .new := ⟨rfl, nofun, fun _ _ => ⟨rfl, rfl⟩⟩
  obtain ⟨m, tr, hm, hout, hlead⟩ := workers_fill worker_run
    (G := fun tr => ∀ t stack, outstanding t stack tr = false) (fun _ _ => rfl)
    (fun j m tr hm hout => by
      obtain ⟨m', es, hm', hlead⟩ := hm.next
      exact ⟨m', _, hm', fun t stack => worker_outstanding (hout t stack), hlead⟩)
    hnew
  have hrefused := hm.late_comes.trans program
    (refuses fun i => (hm.taken i i.isLt).1)
  have htrace := (hlead.trans program hrefused).2
  refine ⟨tr ++ [(late, .entered bridge.trap_rsp), (late, .bridged bridge.trap_rsp 0x2002)], ?_,
    fun t stack hlive => ?_⟩
  · change _ <+: Threads.trace program (quiet .new) exhausting_run
    rw [exhausting_run, htrace]
    exact ⟨[(late, .dispatched bridge.original)], by simp; rfl⟩
  · -- The workers have exited, so what is outstanding began after them.
    rw [outstanding_append, hout] at hlive
    by_cases hlate : late = t
    · have hstack : bridge.trap_rsp = stack := by
        by_contra hs
        simp [Threads.own, hlate, outstanding_next, hs] at hlive
      rw [hlate, hstack]
    · simp [Threads.own, hlate] at hlive

/-- One call is refused while it is the only one outstanding. -/
theorem exhausting_run_refuses :
    (∃ pre, pre ++ [(late, Event.refused bridge.trap_rsp 0x2002)]
        <+: Threads.trace program start exhausting_run
      ∧ ∀ t stack, outstanding t stack pre = true → (t, stack) = (late, bridge.trap_rsp))
      ∧ ¬RefusedWhenFull (Threads.trace program start exhausting_run) := by
  refine ⟨late_refused, fun h => ?_⟩
  obtain ⟨pre, hpre, honly⟩ := late_refused
  obtain ⟨K, hcard, hK⟩ := h pre late bridge.trap_rsp 0x2002 hpre
  have hempty : K = ∅ := by
    refine Finset.eq_empty_of_forall_notMem fun k hk => ?_
    obtain ⟨hlive, hne⟩ := hK k hk
    exact hne (honly k.1 k.2 hlive)
  rw [hempty] at hcard
  cases hcard

end Linuwux.Markers
