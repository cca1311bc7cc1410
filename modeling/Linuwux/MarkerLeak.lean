/-
`MarkerLeak.lean` -- a marker that outlives its call.

A bridged call that Reflex answers itself leaves its marker behind with phase 1: nothing on
the handled path clears it. The next dispatcher entry of the thread at the same depth or
above retires it. A direct syscall does not come through the dispatcher, so when it traps with
the same RSP and RIP it finds the marker and is taken for the replay of the old call.

Whether that happens is a property of the events of the thread alone. [`Delivery`] follows the
call at one stack pointer, and the only thing the table has to add is that a dispatcher entry
past the call's depth has retired its marker by the time the thread is back.
-/
import Linuwux.MarkerInvariant

set_option autoImplicit false

namespace Linuwux.Markers

open Threads (Outcome Program Config steps)

/-! ## The call at a stack pointer -/

/-- What became of the last bridged call at a stack pointer. -/
inductive Delivery where
  | none
  /-- It was delivered to Reflex. -/
  | delivered (rip : UInt64)
  /-- It has returned to its caller without a replay; `retired` says whether a dispatcher
  entry at its depth or above has begun since. -/
  | answered (rip : UInt64) (retired : Bool)
  deriving DecidableEq

namespace Delivery

def next (stack : UInt64) (a : Delivery) : Event → Delivery
  | .routed s rip _ => if s = stack then .delivered rip else a
  -- A call whose marker is gone or taken over before it returns was replayed or given up.
  | .armed s _ | .replayed s _ _ | .dropped s =>
    if s = stack then
      match a with
      | .delivered _ => .none
      | a => a
    else a
  | .returned s =>
    if s = stack then
      match a with
      | .delivered rip => .answered rip false
      | a => a
    else a
  | .entered s =>
    match a with
    | .answered rip retired => .answered rip (retired || stack ≤ s)
    | a => a
  | _ => a

end Delivery

/-- The bridged call of thread `t` at `stack`. -/
def delivery (t : Tid) (stack : UInt64) (tr : List (Tid × Event)) : Delivery :=
  (Threads.own t tr).foldl (Delivery.next stack) .none

/-- The trap a thread is handling. -/
def Thread.trap : Thread → Option Trap
  | .trapping r _ => some r
  | _ => none

/-- A trap at the RSP and RIP of an answered call is handled as a fresh call. The first thing it
shows is a `Route` with its own registers, when a new marker was armed for it, or else what
`redirect` returns for a call without a marker; it is never a `Replay`. -/
def HandledFresh (tr : List (Tid × Event)) (c : Config Tid Table Thread) (x : Tid × Op) : Prop :=
  ∀ r ∈ (c.loc x.1).trap, ∀ retired, delivery x.1 r.rsp.val tr = .answered r.rip retired →
    ∀ e ∈ (thread_step x.1 x.2 c.mem (c.loc x.1)).events.head?,
      e = .routed r.rsp.val r.rip r.context ∨ e = .redirected r.direct

/-- The trap an idle thread is about to take. -/
def Thread.takes : Thread → Op → Option Trap
  | .idle, .trap r => some r
  | _, _ => none

/-- A trap at the RSP and RIP of an answered call comes after a dispatcher entry of the thread
at that depth or above. -/
def RetiredFirst (tr : List (Tid × Event)) (c : Config Tid Table Thread) (x : Tid × Op) : Prop :=
  ∀ r ∈ (c.loc x.1).takes x.2, delivery x.1 r.rsp.val tr ≠ .answered r.rip false

instance (tr : List (Tid × Event)) (c : Config Tid Table Thread) (x : Tid × Op) :
    Decidable (RetiredFirst tr c x) :=
  inferInstanceAs (Decidable (∀ r ∈ (c.loc x.1).takes x.2, _))

/-! ## The events of a step -/

theorem delivery_step (tr : List (Tid × Event)) (c : Config Tid Table Thread) (x : Tid × Op)
    (stack : UInt64) : delivery x.1 stack (tr ++ Threads.events program c x)
      = (thread_step x.1 x.2 c.mem (c.loc x.1)).events.foldl (Delivery.next stack)
          (delivery x.1 stack tr) := by
  rw [delivery, Threads.own_step_self, List.foldl_append]
  rfl

theorem delivery_step_of_ne (tr : List (Tid × Event)) (c : Config Tid Table Thread) {x : Tid × Op}
    {t : Tid} (ht : t ≠ x.1) (stack : UInt64) :
    delivery t stack (tr ++ Threads.events program c x) = delivery t stack tr := by
  rw [delivery, Threads.own_step_of_ne _ _ _ ht]
  rfl

/-- A thread that is inside a function shows neither a return nor a dispatcher entry. -/
def Event.inner : Event → Bool
  | .returned _ | .entered _ => false
  | _ => true

theorem Shows.inner {op : Op} {th : Thread} {e : Event} (h : Shows op th e) (hth : th ≠ .idle) :
    e.inner = true := by
  cases h with
  | entered | returned => exact absurd rfl hth
  | _ => rfl

/-- An answered call was answered before. -/
theorem answered_before {stack rip : UInt64} {b : Bool} {es : List Event}
    (hin : ∀ e ∈ es, e.inner = true) {a : Delivery}
    (h : es.foldl (Delivery.next stack) a = .answered rip b) : a = .answered rip b := by
  induction es generalizing a with
  | nil => exact h
  | cons e es ih =>
    have hnext := ih (fun e he => hin e (by simp [he])) h
    have he := hin e (by simp)
    cases e <;> simp only [Delivery.next, Event.inner] at hnext he <;> grind

/-- There is no marker, or one whose call has not been delivered. -/
def Life.unrouted : Life → Bool
  | .routed _ _ => false
  | _ => true

/-- Only a `Route` makes a marker a routed one. -/
theorem Life.unrouted_next {stack : UInt64} {l l' : Life} {e : Event} (hl : l.unrouted = true)
    (he : ∀ rip context, e ≠ .routed stack rip context) (hn : l.next stack e = some l') :
    l'.unrouted = true := by
  cases e with
  | routed s rip context =>
    simp only [Life.next] at hn
    split at hn
    · rw [← Option.some.inj hn]
      exact hl
    · rename_i hs
      exact absurd (by rw [Decidable.not_not.mp hs]) (he rip context)
  | armed s rip =>
    simp only [Life.next] at hn
    split at hn
    · rw [← Option.some.inj hn]
      exact hl
    · split at hn
      · rw [← Option.some.inj hn]
        rfl
      · cases hn
  | dropped s =>
    simp only [Life.next] at hn
    split at hn
    · rw [← Option.some.inj hn]
      exact hl
    · split at hn
      · cases hn
      · rw [← Option.some.inj hn]
        rfl
  | replayed s rip saved =>
    simp only [Life.next] at hn
    split at hn
    · rw [← Option.some.inj hn]
      exact hl
    · split at hn
      · -- A replay is the end of a routed marker, and this one is not routed.
        rename_i hrouted
        rw [hrouted] at hl
        cases hl
      · cases hn
  | _ =>
    rw [← Option.some.inj hn]
    exact hl

/-- The marker of an answered call is not routed without the call being forgotten: a `Route`
starts a new call. -/
theorem unrouted_stays {stack rip : UInt64} {b : Bool} {es : List Event}
    (hin : ∀ e ∈ es, e.inner = true) {a : Delivery} {l l' : Life} (hl : l.unrouted = true)
    (hd : es.foldl (Delivery.next stack) a = .answered rip b)
    (hrun : Life.run stack l es = some l') : l'.unrouted = true := by
  induction es generalizing a l with
  | nil =>
    rw [← Option.some.inj hrun]
    exact hl
  | cons e es ih =>
    have hes : ∀ e ∈ es, e.inner = true := fun e he => hin e (by simp [he])
    have hnext := answered_before hes hd
    obtain ⟨l₁, hl₁, hrest⟩ := Option.bind_eq_some_iff.mp hrun
    refine ih hes (Life.unrouted_next hl ?_ hl₁) hd hrest
    rintro rip' context rfl
    simp [Delivery.next] at hnext

/-! ## The invariant -/

/-- `dispatcher_target` has not finished `retire_markers`. -/
def DispatchPc.retiring : DispatchPc → Bool
  | .has_active | .retire_active | .retire_tid _ | .retire_stack _ | .retire_again _ _
  | .retire_release _ _ _ => true
  | _ => false

/-- The thread is retiring markers at `stack` or below. -/
def Thread.retires (stack : UInt64) : Thread → Bool
  | .dispatching d pc => pc.retiring && stack ≤ d.trap_rsp
  | _ => false

/-- `redirect` is not past the point where it takes its trap for a replay. -/
def TrapPc.fresh : TrapPc → Bool
  | .consume_find _ | .route _ | .save _ _ _ => true
  | _ => false

/-- Thread `t` has no marker at `stack` whose call was delivered. -/
def Unrouted (t : Tid) (stack : UInt64) (tr : List (Tid × Event)) : Prop :=
  ∃ l, life t stack tr = some l ∧ l.unrouted = true

/-- The marker of an answered call is retired once the dispatcher has been entered, and a trap
at its RSP and RIP does not take it for its own. -/
structure Forgets (tr : List (Tid × Event)) (c : Config Tid Table Thread) : Prop where
  inv : Inv tr c
  gone : ∀ t stack rip, delivery t stack tr = .answered rip true →
    (c.loc t).retires stack = true ∨ Unrouted t stack tr
  fresh : ∀ t r pc b, c.loc t = .trapping r pc → delivery t r.rsp.val tr = .answered r.rip b →
    b = true ∧ pc.fresh = true

/-- A thread that leaves `retire_markers` has none of its markers left down there. -/
theorem retiring_step {t : Tid} {m : Table} {d : Dispatch} {pc : DispatchPc}
    (h : pc.retiring = true) :
    ∃ pc', (dispatch_step t m d pc).loc = .dispatching d pc'
      ∧ (pc'.retiring = true ∨ pc' = .decide) := by
  have hnext : ∀ i, (retire_next i).retiring = true ∨ retire_next i = .decide := by
    intro i
    unfold retire_next
    split
    · exact Or.inl rfl
    · exact Or.inr rfl
  cases pc with
  | has_active | retire_active =>
    refine ⟨_, rfl, ?_⟩
    split
    · exact Or.inl rfl
    · exact Or.inr rfl
  | retire_tid i | retire_stack i | retire_again i recorded =>
    refine ⟨_, rfl, ?_⟩
    split
    · exact hnext i
    · exact Or.inl rfl
  | retire_release i recorded pc =>
    simp only [dispatch_step]
    split
    · exact ⟨_, rfl, Or.inl rfl⟩
    · exact ⟨_, rfl, hnext i⟩
  | _ => cases h

/-- Once past `retire_markers`, a marker at or below the entry's depth is dead. -/
theorem Inv.absent_of_decide {tr : List (Tid × Event)} {c : Config Tid Table Thread}
    (h : Inv tr c) {t : Tid} {d : Dispatch} (hl : c.loc t = .dispatching d .decide)
    {stack : UInt64} (hs : stack ≤ d.trap_rsp) : life t stack tr = some .absent := by
  obtain ⟨L, hlife, hv⟩ := h.view t
  rw [hl] at hv
  rw [hlife stack]
  by_contra hne
  rcases hv.absent stack (fun he => hne (by rw [he])) with hr | ⟨i, k, hk, rfl⟩
  · cases hr
  · exact absurd (hv.ok i k i.isLt hk) (UInt64.not_lt.mpr hs)

section Step

variable {tr : List (Tid × Event)} {c : Config Tid Table Thread}

/-- The events a thread shows inside a function. -/
theorem events_inner (x : Tid × Op) (hx : c.loc x.1 ≠ .idle) :
    ∀ e ∈ (thread_step x.1 x.2 c.mem (c.loc x.1)).events, e.inner = true :=
  fun _ he => (thread_step_shows he).inner hx

theorem enter_quiet (t : Tid) (m : Table) (op : Op) : Quiet (enter t m op).events := by
  intro s l
  cases op with
  | trap r =>
    simp only [enter, redirect_direct]
    split <;> rfl
  | dispatch | returned | exited => rfl

/-- An answered call gets behind a dispatcher entry by that entry. -/
theorem enter_answered {t : Tid} {m : Table} {op : Op} {stack rip : UInt64} {a : Delivery}
    (h : (enter t m op).events.foldl (Delivery.next stack) a = .answered rip true) :
    a = .answered rip true ∨ ∃ d, op = .dispatch d ∧ stack ≤ d.trap_rsp := by
  cases op with
  | dispatch d =>
    simp only [enter, List.foldl_cons, List.foldl_nil, Delivery.next] at h
    split at h
    · obtain ⟨rfl, hret⟩ := Delivery.answered.inj h
      rcases Bool.or_eq_true_iff.mp hret with rfl | hle
      · exact Or.inl rfl
      · exact Or.inr ⟨d, rfl, of_decide_eq_true hle⟩
    · exact Or.inl h
  | trap r =>
    simp only [enter, redirect_direct] at h
    split at h <;> exact Or.inl h
  | returned s =>
    -- A call that returns now is behind no entry yet.
    simp only [enter, List.foldl_cons, List.foldl_nil, Delivery.next] at h
    split at h
    · split at h
      · cases h
      · exact Or.inl h
    · exact Or.inl h
  | exited => exact Or.inl h

theorem Forgets.gone_idle (h : Forgets tr c) {x : Tid × Op} (hl : c.loc x.1 = .idle)
    {stack rip : UInt64}
    (hd : delivery x.1 stack (tr ++ Threads.events program c x) = .answered rip true) :
    ((Threads.step program c x).loc x.1).retires stack = true
      ∨ Unrouted x.1 stack (tr ++ Threads.events program c x) := by
  rw [delivery_step] at hd
  simp only [hl, thread_step] at hd
  rcases enter_answered hd with hans | ⟨d, hop, hle⟩
  · -- It was behind an entry before, and an idle thread retires nothing.
    rcases h.gone x.1 stack rip hans with hr | ⟨l, hlife, hun⟩
    · rw [hl] at hr
      cases hr
    · refine Or.inr ⟨l, ?_, hun⟩
      rw [life_step, hlife, Option.bind_some]
      simp only [hl, thread_step]
      exact enter_quiet ..
  · left
    rw [Threads.step_loc_self]
    simp only [program, hl, hop, thread_step, enter, Thread.retires, DispatchPc.retiring,
      Bool.true_and]
    exact decide_eq_true hle

/-- Inside a function nothing routes the marker of an answered call. -/
theorem Forgets.unrouted_step (h : Forgets tr c) {x : Tid × Op} (hx : c.loc x.1 ≠ .idle)
    {stack rip : UInt64} {b : Bool}
    (hd : delivery x.1 stack (tr ++ Threads.events program c x) = .answered rip b)
    (hun : Unrouted x.1 stack tr) : Unrouted x.1 stack (tr ++ Threads.events program c x) := by
  obtain ⟨L, hlife, -⟩ := (h.inv.step x).view x.1
  obtain ⟨l, hl, hun⟩ := hun
  refine ⟨L stack, hlife stack, ?_⟩
  have hrun := hlife stack
  rw [life_step, hl, Option.bind_some] at hrun
  rw [delivery_step] at hd
  exact unrouted_stays (events_inner x hx) hun hd hrun

theorem Forgets.gone_busy (h : Forgets tr c) {x : Tid × Op} (hx : c.loc x.1 ≠ .idle)
    {stack rip : UInt64}
    (hd : delivery x.1 stack (tr ++ Threads.events program c x) = .answered rip true) :
    ((Threads.step program c x).loc x.1).retires stack = true
      ∨ Unrouted x.1 stack (tr ++ Threads.events program c x) := by
  have hans := hd
  rw [delivery_step] at hans
  rcases h.gone x.1 stack rip (answered_before (events_inner x hx) hans) with hr | hun
  · -- Retiring goes on, or it is over and the table has been searched to its end.
    cases hl : c.loc x.1 with
    | idle => exact absurd hl hx
    | trapping r pc =>
      rw [hl] at hr
      cases hr
    | dispatching d pc =>
      rw [hl] at hr
      obtain ⟨hret, hle⟩ := Bool.and_eq_true_iff.mp hr
      obtain ⟨pc', hloc, hpc⟩ := retiring_step (t := x.1) (m := c.mem) (d := d) hret
      have hloc' : (Threads.step program c x).loc x.1 = .dispatching d pc' := by
        rw [Threads.step_loc_self]
        simp only [program, hl, thread_step]
        exact hloc
      rcases hpc with hpc | rfl
      · left
        rw [hloc', Thread.retires, hpc]
        exact hle
      · right
        exact ⟨.absent, (h.inv.step x).absent_of_decide hloc' (of_decide_eq_true hle), rfl⟩
  · exact Or.inr (h.unrouted_step hx hd hun)

/-- A trap goes on as the same trap. -/
theorem trap_step_loc {t : Tid} {m : Table} {r r' : Trap} {pc pc' : TrapPc}
    (h : (trap_step t m r pc).loc = .trapping r' pc') : r' = r := by
  cases pc <;> simp only [trap_step, redirect_direct, redirect_bridged] at h
  all_goals repeat' split at h
  all_goals simp_all

theorem dispatch_step_loc {t : Tid} {m : Table} {d : Dispatch} {r : Trap} {pc : DispatchPc}
    {pc' : TrapPc} : (dispatch_step t m d pc).loc ≠ .trapping r pc' := by
  intro h
  cases pc <;> simp only [dispatch_step, remember] at h
  all_goals repeat' split at h
  all_goals cases h

/-- A marker that a trap finds while no delivered call of its thread is at its stack is new:
its phase is 0. -/
theorem Inv.phase_of_unrouted (h : Inv tr c) {t : Tid} {r : Trap} {i : Index}
    (hl : c.loc t = .trapping r (.route i)) (hun : Unrouted t r.rsp.val tr) :
    (c.mem.markers i).phase = 0 := by
  obtain ⟨L, hlife, hv⟩ := h.view t
  rw [hl] at hv
  obtain ⟨k, hk, hks, -⟩ := hv.ok
  have hmarked := hv.marked i k hk fun hsave => by cases hsave
  obtain ⟨l, hl', hun⟩ := hun
  rw [hlife, ← hks, hmarked] at hl'
  obtain rfl := Option.some.inj hl'
  rw [← (Table.marks_eq_some.mp hk).1] at hun
  by_contra hphase
  rw [Marker.life, if_neg hphase] at hun
  cases hun

/-- A step of a trap that is fresh so far leaves it fresh, or routes it. -/
theorem fresh_step {t : Tid} {m : Table} {r r' : Trap} {pc pc' : TrapPc} (hf : pc.fresh = true)
    (hroute : ∀ i, pc = .route i → (m.markers i).phase = 0)
    (hloc : (trap_step t m r pc).loc = .trapping r' pc') :
    pc'.fresh = true
      ∨ (trap_step t m r pc).events = [.routed r.rsp.val r.rip r.context] := by
  cases pc with
  | consume_find f =>
    simp only [trap_step, redirect_direct] at hloc
    split at hloc
    · obtain ⟨-, rfl⟩ := Thread.trapping.inj hloc
      exact Or.inl rfl
    · cases hloc
    · obtain ⟨-, rfl⟩ := Thread.trapping.inj hloc
      exact Or.inl rfl
  | route i =>
    rw [trap_step, if_pos (hroute i rfl)] at hloc
    obtain ⟨-, rfl⟩ := Thread.trapping.inj hloc
    exact Or.inl rfl
  | save i w rest =>
    cases rest with
    | cons w' rest =>
      obtain ⟨-, rfl⟩ := Thread.trapping.inj hloc
      exact Or.inl rfl
    | nil =>
      simp only [trap_step, redirect_bridged] at hloc ⊢
      split at hloc
      · exact Or.inr (by simp [*])
      · cases hloc
  | _ => cases hf

theorem Forgets.fresh_idle {x : Tid × Op} (hx : RetiredFirst tr c x)
    (hl : c.loc x.1 = .idle) {r : Trap} {pc : TrapPc} {b : Bool}
    (hloc : (Threads.step program c x).loc x.1 = .trapping r pc)
    (hd : delivery x.1 r.rsp.val (tr ++ Threads.events program c x) = .answered r.rip b) :
    b = true ∧ pc.fresh = true := by
  rw [delivery_step] at hd
  rw [Threads.step_loc_self] at hloc
  simp only [program, hl] at hloc hd
  cases hop : x.2 with
  | trap r' =>
    rw [hop] at hloc hd
    simp only [thread_step, enter, redirect_direct] at hloc hd
    split at hloc
    · cases hloc
    · -- The trap begins, and the condition says that an entry came first.
      rename_i hz
      obtain ⟨rfl, rfl⟩ := Thread.trapping.inj hloc
      rw [if_neg hz] at hd
      have hd : delivery x.1 r'.rsp.val tr = .answered r'.rip b := hd
      have hne := hx r' (by rw [hl, hop]; rfl)
      cases b with
      | false => exact absurd hd hne
      | true => exact ⟨rfl, rfl⟩
  | dispatch | returned | exited =>
    rw [hop] at hloc
    cases hloc

theorem Forgets.fresh_busy (h : Forgets tr c) {x : Tid × Op} (hx : c.loc x.1 ≠ .idle) {r : Trap}
    {pc : TrapPc} {b : Bool} (hloc : (Threads.step program c x).loc x.1 = .trapping r pc)
    (hd : delivery x.1 r.rsp.val (tr ++ Threads.events program c x) = .answered r.rip b) :
    b = true ∧ pc.fresh = true := by
  rw [delivery_step] at hd
  have hans := answered_before (events_inner x hx) hd
  rw [Threads.step_loc_self] at hloc
  simp only [program] at hloc hd
  cases hl : c.loc x.1 with
  | idle => exact absurd hl hx
  | dispatching d pc' =>
    rw [hl] at hloc
    exact absurd hloc dispatch_step_loc
  | trapping r' pc' =>
    rw [hl] at hloc hd
    obtain rfl := trap_step_loc hloc
    obtain ⟨rfl, hf⟩ := h.fresh x.1 r pc' b hl hans
    refine ⟨rfl, ?_⟩
    have hun : Unrouted x.1 r.rsp.val tr := by
      rcases h.gone x.1 _ _ hans with hr | hun
      · rw [hl] at hr
        cases hr
      · exact hun
    have hroute : ∀ i, pc' = .route i → (c.mem.markers i).phase = 0 := by
      rintro i rfl
      exact h.inv.phase_of_unrouted hl hun
    rcases fresh_step hf hroute hloc with hfresh | hev
    · exact hfresh
    · -- The `Route` is a new call, so the answered one is no longer the last.
      rw [thread_step, hev] at hd
      simp [Delivery.next] at hd

theorem Forgets.step (h : Forgets tr c) (x : Tid × Op) (hx : RetiredFirst tr c x) :
    Forgets (tr ++ Threads.events program c x) (Threads.step program c x) := by
  refine ⟨h.inv.step x, fun t stack rip hd => ?_, fun t r pc b hloc hd => ?_⟩
  · by_cases ht : t = x.1
    · subst ht
      by_cases hl : c.loc x.1 = .idle
      · exact h.gone_idle hl hd
      · exact h.gone_busy hl hd
    · rw [delivery_step_of_ne tr c ht] at hd
      rw [Unrouted, life_step_of_ne tr c ht, Threads.step_loc_of_ne _ c x ht]
      exact h.gone t stack rip hd
  · by_cases ht : t = x.1
    · subst ht
      by_cases hl : c.loc x.1 = .idle
      · exact Forgets.fresh_idle hx hl hloc hd
      · exact h.fresh_busy hl hloc hd
    · rw [delivery_step_of_ne tr c ht] at hd
      rw [Threads.step_loc_of_ne _ c x ht] at hloc
      exact h.fresh t r pc b hloc hd

theorem Forgets.handledFresh (h : Forgets tr c) (x : Tid × Op) : HandledFresh tr c x := by
  intro r hr b hd e he
  cases hl : c.loc x.1 with
  | idle | dispatching =>
    rw [hl] at hr
    cases hr
  | trapping r' pc =>
    rw [hl] at hr he
    obtain rfl := Option.some.inj hr
    obtain ⟨-, hf⟩ := h.fresh x.1 r' pc b hl hd
    -- Only `consume` returning none and the last save show anything.
    cases pc with
    | consume_find f =>
      simp only [thread_step, trap_step, redirect_direct] at he
      split at he
      · cases he
      · exact Or.inr (Option.some.inj he).symm
      · cases he
    | route i =>
      simp only [thread_step, trap_step] at he
      split at he <;> cases he
    | save i w rest =>
      cases rest with
      | cons w' rest => cases he
      | nil =>
        simp only [thread_step, trap_step, redirect_bridged] at he
        split at he <;> exact Or.inl (Option.some.inj he).symm
    | _ => cases hf

end Step

/-- **No marker leaks into a later call.** In every run in which a trap at the RSP and RIP of
an answered call comes after a dispatcher entry at that depth or above, every such trap is
handled as a fresh call. -/
theorem no_leak (s : List (Tid × Op)) (hret : Threads.AllSteps program RetiredFirst start s) :
    Threads.AllSteps program HandledFresh start s := by
  have hstart : Forgets [] start :=
    ⟨inv_start, fun _ _ _ _ => Or.inr ⟨.absent, rfl, rfl⟩, fun _ _ _ _ hl _ => by cases hl⟩
  exact Threads.allSteps_of_invariant program hstart (fun _ _ x hx h => h.step x hx)
    (fun _ _ x _ h => h.handledFresh x) hret

/-- A thread of the examples. -/
def game : Tid := ⟨7, by decide, by decide⟩

/-- A bridged call at RSP 0x1008. -/
def bridge : Dispatch := ⟨⟨0x1000, by decide⟩, 1, true, false, some 0x2000⟩

/-- The trap of that call, which Reflex takes. -/
def syscall : Trap :=
  ⟨⟨0x1008, by decide⟩, 0x2002, ⟨fun _ => 4, fun _ => 5, 11, 2⟩, true, true, false⟩

/-- The call is delivered, answered, and returns. -/
def answered_run : List (Tid × Op) :=
  steps game 9 (Op.dispatch bridge) ++ steps game 12 (Op.trap syscall)
    ++ steps game 1 (Op.returned 0x1008)

/-- The next call at that depth comes through the dispatcher, which retires the marker. -/
def bridged_run : List (Tid × Op) :=
  answered_run ++ steps game 280 (Op.dispatch bridge) ++ steps game 12 (Op.trap syscall)

/-- The next call at that depth is a direct syscall at the same address. -/
def direct_run : List (Tid × Op) :=
  answered_run ++ steps game 24 (Op.trap syscall) ++ [(game, Op.trap syscall)]

set_option maxRecDepth 20000 in
/-- The answered call's stack pointer is used again through the bridge, and the trap there is a
`Route`. -/
theorem bridged_run_no_leak :
    delivery game 0x1008 (Threads.trace program start answered_run) = .answered 0x2002 false
      ∧ delivery game 0x1008 (Threads.trace program start bridged_run) = .delivered 0x2002
      ∧ Threads.AllSteps program HandledFresh start bridged_run :=
  ⟨by decide, by decide, no_leak bridged_run (by decide)⟩

set_option maxRecDepth 8000 in
/-- The direct syscall is taken for the replay of the answered call. -/
theorem direct_run_leaks : ¬Threads.AllSteps program HandledFresh start direct_run := by
  intro h
  -- The step that ends `consume`: the release is over and the saved registers are returned.
  obtain ⟨-, hlast⟩ := (Threads.allSteps_concat program).mp h
  have hfirst := hlast syscall rfl false (by decide) (.replayed 0x1008 0x2002 _) rfl
  rcases hfirst with hrouted | hdirect
  · cases hrouted
  · cases hdirect

end Linuwux.Markers
