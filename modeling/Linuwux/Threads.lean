/-
`Threads.lean` -- threads that interleave their atomic steps over one shared
memory.

Everything lock-free in the runtime is a handful of words that several threads
load, store and compare-exchange, and every claim about it is a claim about all
interleavings. This file is the part of that which is about no particular
memory: a configuration is the memory and each thread's local state, a schedule
is the list of threads that move together with the choice the environment makes
for each move, and a run is the fold of the schedule. Loads, stores and
compare-exchanges are one step each and sequentially consistent.

The step is a total function of the choice, so a schedule determines its run and
its trace, and a concrete interleaving can be evaluated. Nondeterminism (which
thread moves, a spurious failure, what a callback answers, which call an idle
thread makes) is all in the schedule.

`run_induct` is the one induction of the file. An invariant is stated over the
trace so far and the configuration it led to, which is what a claim about the
history of a run needs and costs nothing where the trace is ignored.
-/
import Mathlib.Logic.Function.Basic
import Mathlib.Data.List.Induction
import Mathlib.Data.List.Infix
import Mathlib.Algebra.BigOperators.Group.Finset.Piecewise
import Mathlib.Data.Fintype.Card

set_option autoImplicit false

namespace Linuwux.Threads

variable {T A M L E : Type*}

/-- What one atomic step leaves: the memory, the thread's local state and the
events it shows. -/
structure Outcome (M L E : Type*) where
  mem : M
  loc : L
  events : List E

/-- The atomic step of thread `t` under the environment's choice. -/
abbrev Program (T A M L E : Type*) := T → A → M → L → Outcome M L E

/-- Shared memory and every thread's local state. -/
structure Config (T M L : Type*) where
  mem : M
  loc : T → L

variable [DecidableEq T] (P : Program T A M L E)

/-- One scheduled step. -/
def step (c : Config T M L) (x : T × A) : Config T M L :=
  ⟨(P x.1 x.2 c.mem (c.loc x.1)).mem,
    Function.update c.loc x.1 (P x.1 x.2 c.mem (c.loc x.1)).loc⟩

omit [DecidableEq T] in
/-- The events of one scheduled step, tagged with the thread that made it. -/
def events (c : Config T M L) (x : T × A) : List (T × E) :=
  (P x.1 x.2 c.mem (c.loc x.1)).events.map (Prod.mk x.1)

/-- The configuration a schedule leads to. -/
def run (c : Config T M L) (s : List (T × A)) : Config T M L := s.foldl (step P) c

/-- The events of a schedule, oldest first. -/
def trace (c : Config T M L) : List (T × A) → List (T × E)
  | [] => []
  | x :: s => events P c x ++ trace (step P c x) s

/-- Every step of the schedule meets `C`, a condition on the trace before the step, the
configuration it starts from and the scheduler's choice. `tr` is the trace so far. -/
def AllStepsFrom (C : List (T × E) → Config T M L → T × A → Prop) (tr : List (T × E))
    (c : Config T M L) : List (T × A) → Prop
  | [] => True
  | x :: s => C tr c x ∧ AllStepsFrom C (tr ++ events P c x) (step P c x) s

/-- Every step of the schedule meets `C`. -/
def AllSteps (C : List (T × E) → Config T M L → T × A → Prop) (c : Config T M L)
    (s : List (T × A)) : Prop := AllStepsFrom P C [] c s

/-! ## One step -/

@[simp] theorem step_mem (c : Config T M L) (x : T × A) :
    (step P c x).mem = (P x.1 x.2 c.mem (c.loc x.1)).mem := rfl

@[simp] theorem step_loc_self (c : Config T M L) (x : T × A) :
    (step P c x).loc x.1 = (P x.1 x.2 c.mem (c.loc x.1)).loc := by
  simp [step]

/-- A step moves its own thread only. -/
theorem step_loc_of_ne (c : Config T M L) (x : T × A) {u : T} (hu : u ≠ x.1) :
    (step P c x).loc u = c.loc u := by
  simp [step, hu]

/-- The configuration after thread `t` made a step with outcome `o`. -/
def Config.after (c : Config T M L) (t : T) (o : Outcome M L E) : Config T M L :=
  ⟨o.mem, Function.update c.loc t o.loc⟩

@[simp] theorem Config.after_mem (c : Config T M L) (t : T) (o : Outcome M L E) :
    (c.after t o).mem = o.mem := rfl

@[simp] theorem Config.after_loc_self (c : Config T M L) (t : T) (o : Outcome M L E) :
    (c.after t o).loc t = o.loc := by
  simp [Config.after]

theorem Config.after_loc_of_ne (c : Config T M L) {t u : T} (o : Outcome M L E) (hu : u ≠ t) :
    (c.after t o).loc u = c.loc u := by
  simp [Config.after, hu]

/-- What is said of every thread after the step of one. -/
theorem Config.forall_after {motive : T → L → Prop} {c : Config T M L} {t : T} {o : Outcome M L E}
    (hself : motive t o.loc) (hother : ∀ u, u ≠ t → motive u (c.loc u)) (u : T) :
    motive u ((c.after t o).loc u) := by
  by_cases hut : u = t
  · rw [hut, Config.after_loc_self]
    exact hself
  · rw [Config.after_loc_of_ne _ _ hut]
    exact hother u hut

/-! ## Runs and traces -/

@[simp] theorem run_nil (c : Config T M L) : run P c [] = c := rfl

@[simp] theorem run_cons (c : Config T M L) (x : T × A) (s : List (T × A)) :
    run P c (x :: s) = run P (step P c x) s := rfl

/-- A schedule is run part by part. -/
theorem run_append (c : Config T M L) (s s' : List (T × A)) :
    run P c (s ++ s') = run P (run P c s) s' := List.foldl_append

/-- The trace of a schedule is that of its parts. -/
theorem trace_append (c : Config T M L) (s s' : List (T × A)) :
    trace P c (s ++ s') = trace P c s ++ trace P (run P c s) s' := by
  induction s generalizing c with
  | nil => rfl
  | cons x s ih => simp only [List.cons_append, trace, run_cons, ih, List.append_assoc]

/-- The last step adds what it shows. -/
theorem trace_concat (c : Config T M L) (s : List (T × A)) (x : T × A) :
    trace P c (s ++ [x]) = trace P c s ++ events P (run P c s) x := by
  rw [trace_append]
  simp only [trace, List.append_nil]

theorem run_concat (c : Config T M L) (s : List (T × A)) (x : T × A) :
    run P c (s ++ [x]) = step P (run P c s) x := by
  rw [run_append]; rfl

/-- Two parts of a schedule meet a condition, the second after what the first has shown. -/
theorem allStepsFrom_append {C : List (T × E) → Config T M L → T × A → Prop}
    {tr : List (T × E)} {c : Config T M L} {s s' : List (T × A)} :
    AllStepsFrom P C tr c (s ++ s') ↔
      AllStepsFrom P C tr c s ∧ AllStepsFrom P C (tr ++ trace P c s) (run P c s) s' := by
  induction s generalizing tr c with
  | nil => simp [AllStepsFrom, trace]
  | cons x s ih =>
    simp only [List.cons_append, AllStepsFrom, ih, run_cons, trace, and_assoc, List.append_assoc]

/-- The last step of a schedule is judged against the trace before it. -/
theorem allSteps_concat {C : List (T × E) → Config T M L → T × A → Prop} {c : Config T M L}
    {s : List (T × A)} {x : T × A} :
    AllSteps P C c (s ++ [x]) ↔ AllSteps P C c s ∧ C (trace P c s) (run P c s) x := by
  unfold AllSteps
  rw [allStepsFrom_append]
  simp [AllStepsFrom]

instance decidableAllStepsFrom (C : List (T × E) → Config T M L → T × A → Prop)
    [∀ tr c x, Decidable (C tr c x)] (tr : List (T × E)) (c : Config T M L) :
    (s : List (T × A)) → Decidable (AllStepsFrom P C tr c s)
  | [] => isTrue trivial
  | x :: s =>
    haveI := decidableAllStepsFrom C (tr ++ events P c x) (step P c x) s
    inferInstanceAs (Decidable (_ ∧ _))

instance (C : List (T × E) → Config T M L → T × A → Prop) [∀ tr c x, Decidable (C tr c x)]
    (c : Config T M L) (s : List (T × A)) : Decidable (AllSteps P C c s) :=
  decidableAllStepsFrom P C [] c s

/-- An event of a longer trace, with all that was before it, is one of the old trace or
comes after all of it. -/
theorem prefix_concat_append {α : Type*} {pre tr ev : List α} {e : α}
    (h : pre ++ [e] <+: tr ++ ev) : pre ++ [e] <+: tr ∨ e ∈ ev ∧ ∃ l, pre = tr ++ l := by
  rcases Nat.lt_or_ge pre.length tr.length with hlt | hge
  · exact Or.inl ((List.isPrefix_append_of_length (by rw [List.length_append]; exact hlt)).mp h)
  · have hpre : pre <+: tr ++ ev := (List.prefix_append pre [e]).trans h
    obtain ⟨l, rfl⟩ := List.prefix_of_prefix_length_le (List.prefix_append tr ev) hpre hge
    rw [List.append_assoc, List.prefix_append_right_inj] at h
    exact Or.inr ⟨h.subset (by simp), l, rfl⟩

/-- `post` is all that comes after an event `e` of the trace. -/
def Follows {α : Type*} (tr : List α) (e : α) (post : List α) : Prop := ∃ pre, tr = pre ++ e :: post

theorem not_follows_nil {α : Type*} {e : α} {post : List α} : ¬ Follows [] e post := by
  rintro ⟨pre, h⟩
  simp at h

/-- What comes after an event once one more event is shown. -/
theorem follows_concat {α : Type*} {tr post : List α} {e e' : α} :
    Follows (tr ++ [e']) e post ↔
      (∃ post', post = post' ++ [e'] ∧ Follows tr e post') ∨ post = [] ∧ e = e' := by
  constructor
  · rintro ⟨pre, h⟩
    rcases List.eq_nil_or_concat' post with rfl | ⟨post', e'', rfl⟩
    · exact Or.inr ⟨rfl, (List.singleton_inj.mp (List.append_inj' h rfl).2).symm⟩
    · rw [← List.cons_append, ← List.append_assoc] at h
      obtain ⟨htr, he⟩ := List.append_inj' h rfl
      rw [List.singleton_inj.mp he]
      exact Or.inl ⟨post', rfl, pre, htr⟩
  · rintro (⟨post', rfl, pre, rfl⟩ | ⟨rfl, rfl⟩)
    · exact ⟨pre, by simp⟩
    · exact ⟨tr, rfl⟩

/-- What is before the first event of a list, when it does not come again. -/
theorem nil_before_first {α : Type*} {l es : List α} {e : α} (h : l ++ [e] <+: e :: es)
    (hn : e ∉ es) : l = [] := by
  cases l with
  | nil => rfl
  | cons a l =>
    rw [List.cons_append, List.cons_prefix_cons] at h
    exact absurd (h.2.subset (by simp)) hn

omit [DecidableEq T] in
/-- An event of one more step, with all that was before it, is one of the old trace or is of
the step; and when it is the first the step shows, the old trace is what was before it. -/
theorem prefix_events {c : Config T M L} {x : T × A} {pre tr : List (T × E)} {t : T} {e : E}
    (h : pre ++ [(t, e)] <+: tr ++ events P c x) :
    pre ++ [(t, e)] <+: tr ∨ t = x.1 ∧ e ∈ (P x.1 x.2 c.mem (c.loc x.1)).events
      ∧ ∀ es, (P x.1 x.2 c.mem (c.loc x.1)).events = e :: es → e ∉ es → pre = tr := by
  rcases prefix_concat_append h with hold | ⟨he, l, rfl⟩
  · exact Or.inl hold
  · right
    obtain ⟨e', he', heq⟩ := List.mem_map.mp he
    obtain ⟨rfl, rfl⟩ := Prod.mk.inj heq
    refine ⟨rfl, he', fun es hev hn => ?_⟩
    rw [List.append_assoc, List.prefix_append_right_inj, events, hev, List.map_cons] at h
    rw [nil_before_first h (by simpa using hn), List.append_nil]

/-! ## The events of one thread -/

/-- The events of thread `t`, oldest first. -/
def own (t : T) (tr : List (T × E)) : List E :=
  tr.filterMap fun e => if e.1 = t then some e.2 else none

@[simp] theorem own_nil (t : T) : own t ([] : List (T × E)) = [] := rfl

/-- A thread's own events, part by part. -/
theorem own_append (t : T) (tr tr' : List (T × E)) : own t (tr ++ tr') = own t tr ++ own t tr' :=
  List.filterMap_append

@[simp] theorem own_cons_self (t : T) (e : E) (tr : List (T × E)) :
    own t ((t, e) :: tr) = e :: own t tr := by
  simp [own]

/-- An event is one's own if the trace has it under one's name. -/
theorem mem_own {t : T} {e : E} {tr : List (T × E)} : e ∈ own t tr ↔ (t, e) ∈ tr := by
  simp only [own, List.mem_filterMap, Option.ite_none_right_eq_some, Option.some.injEq]
  constructor
  · rintro ⟨⟨u, e'⟩, hmem, rfl, rfl⟩
    exact hmem
  · intro hmem
    exact ⟨(t, e), hmem, rfl, rfl⟩

theorem own_concat_self (t : T) (tr : List (T × E)) (es : List E) :
    own t (tr ++ es.map (Prod.mk t)) = own t tr ++ es := by
  rw [own_append]
  congr 1
  unfold own
  rw [List.filterMap_map]
  simp

/-- A step of another thread adds none. -/
theorem own_concat_of_ne {t u : T} (hu : u ≠ t) (tr : List (T × E)) (es : List E) :
    own u (tr ++ es.map (Prod.mk t)) = own u tr := by
  have hnil : own u (es.map (Prod.mk t)) = [] := by
    unfold own
    rw [List.filterMap_map]
    simp [Ne.symm hu]
  rw [own_append, hnil, List.append_nil]

theorem own_events_self (c : Config T M L) (x : T × A) :
    own x.1 (events P c x) = (P x.1 x.2 c.mem (c.loc x.1)).events :=
  own_concat_self x.1 [] _

theorem own_events_of_ne (c : Config T M L) (x : T × A) {t : T} (ht : t ≠ x.1) :
    own t (events P c x) = [] :=
  own_concat_of_ne ht [] _

/-- The step of another thread. -/
theorem own_step_of_ne (c : Config T M L) (x : T × A) {t : T} (ht : t ≠ x.1)
    (tr : List (T × E)) : own t (tr ++ events P c x) = own t tr := by
  rw [own_append, own_events_of_ne P c x ht, List.append_nil]

/-- The step of the thread itself. -/
theorem own_step_self (c : Config T M L) (x : T × A) (tr : List (T × E)) :
    own x.1 (tr ++ events P c x) = own x.1 tr ++ (P x.1 x.2 c.mem (c.loc x.1)).events := by
  rw [own_append, own_events_self]

/-- A thread that is not scheduled stays where it is and shows nothing. -/
theorem run_others {c : Config T M L} {s : List (T × A)} {t : T} (hs : ∀ x ∈ s, t ≠ x.1) :
    (run P c s).loc t = c.loc t ∧ own t (trace P c s) = [] := by
  induction s using List.reverseRecOn with
  | nil => exact ⟨rfl, rfl⟩
  | append_singleton s x ih =>
    obtain ⟨hloc, hown⟩ := ih fun y hy => hs y (List.mem_append_left _ hy)
    have hx := hs x (List.mem_append_right _ List.mem_cons_self)
    rw [run_concat, trace_concat, step_loc_of_ne P _ x hx, own_step_of_ne P _ x hx]
    exact ⟨hloc, hown⟩

/-! ## Invariants -/

/-- **The run rule.** What holds at the start and survives every step that meets
`C` and whose choice meets `Q` holds of the trace and the configuration of every schedule
whose steps all do. The induction is on the schedule from the right, so the invariant sees
the whole trace before the step. -/
theorem run_induct_of {C : List (T × E) → Config T M L → T × A → Prop} {Q : T × A → Prop}
    {c : Config T M L} {I : List (T × E) → Config T M L → Prop} (h0 : I [] c)
    (hs : ∀ tr d x, C tr d x → Q x → I tr d → I (tr ++ events P d x) (step P d x))
    {s : List (T × A)} (hC : AllSteps P C c s) (hQ : ∀ x ∈ s, Q x) :
    I (trace P c s) (run P c s) := by
  induction s using List.reverseRecOn with
  | nil => exact h0
  | append_singleton s x ih =>
    obtain ⟨hpre, hx⟩ := (allSteps_concat P).mp hC
    rw [trace_concat, run_concat]
    exact hs _ _ _ hx (hQ x (by simp)) (ih hpre fun y hy => hQ y (by simp [hy]))

/-- Every schedule meets the condition that asks for nothing. -/
theorem allSteps_true (c : Config T M L) (s : List (T × A)) :
    AllSteps P (fun _ _ _ => True) c s := by
  induction s using List.reverseRecOn with
  | nil => trivial
  | append_singleton s x ih => exact (allSteps_concat P).mpr ⟨ih, trivial⟩

/-- A condition on the choices alone. -/
theorem allSteps_of_choices {Q : T × A → Prop} {c : Config T M L} {s : List (T × A)}
    (hQ : ∀ x ∈ s, Q x) : AllSteps P (fun _ _ => Q) c s := by
  induction s using List.reverseRecOn with
  | nil => trivial
  | append_singleton s x ih =>
    exact (allSteps_concat P).mpr ⟨ih fun y hy => hQ y (by simp [hy]), hQ x (by simp)⟩

/-- The run rule for a condition on the choices alone. -/
theorem run_induct_choices {Q : T × A → Prop} {c : Config T M L}
    {I : List (T × E) → Config T M L → Prop} (h0 : I [] c)
    (hs : ∀ tr d x, Q x → I tr d → I (tr ++ events P d x) (step P d x)) {s : List (T × A)}
    (hQ : ∀ x ∈ s, Q x) : I (trace P c s) (run P c s) :=
  run_induct_of P h0 (fun tr d x _ => hs tr d x) (allSteps_true P c s) hQ

/-- The run rule without a condition on the steps. -/
theorem run_induct {c : Config T M L} {I : List (T × E) → Config T M L → Prop} (h0 : I [] c)
    (hs : ∀ tr d x, I tr d → I (tr ++ events P d x) (step P d x)) (s : List (T × A)) :
    I (trace P c s) (run P c s) :=
  run_induct_choices P (Q := fun _ => True) h0 (fun tr d x _ => hs tr d x) fun _ _ => trivial

/-- The run rule, with the step given by its outcome. -/
theorem run_induct_after {c : Config T M L} {I : List (T × E) → Config T M L → Prop} (h0 : I [] c)
    (hs : ∀ tr d t a, I tr d → I (tr ++ (P t a d.mem (d.loc t)).events.map (Prod.mk t))
      (d.after t (P t a d.mem (d.loc t)))) (s : List (T × A)) :
    I (trace P c s) (run P c s) :=
  run_induct P h0 (fun tr d x => hs tr d x.1 x.2) s

/-- The event rule for schedules whose steps meet a condition. -/
theorem event_induct_of (hone : ∀ t a m l, (P t a m l).events.length ≤ 1)
    {C : List (T × E) → Config T M L → T × A → Prop} {c : Config T M L}
    {I : List (T × E) → Config T M L → Prop} {G : List (T × E) → T → E → Prop} (h0 : I [] c)
    (hs : ∀ tr d t a, C tr d (t, a) → I tr d →
      I (tr ++ (P t a d.mem (d.loc t)).events.map (Prod.mk t))
        (d.after t (P t a d.mem (d.loc t))))
    (hG : ∀ tr d t a e, C tr d (t, a) → I tr d → (P t a d.mem (d.loc t)).events = [e] → G tr t e)
    {s : List (T × A)} (hC : AllSteps P C c s) {pre : List (T × E)} {t : T} {e : E}
    (h : pre ++ [(t, e)] <+: trace P c s) : G pre t e := by
  have hall := run_induct_of P (C := C) (Q := fun _ => True) (c := c)
    (I := fun tr d => I tr d ∧ ∀ pre t e, pre ++ [(t, e)] <+: tr → G pre t e)
    ⟨h0, fun pre t e h => by simp at h⟩
    (fun tr d x hCx _ ⟨hi, hold⟩ => ⟨hs tr d x.1 x.2 hCx hi, fun pre t e h => ?_⟩) hC
    fun _ _ => trivial
  · exact hall.2 pre t e h
  · rcases prefix_events P h with h | ⟨rfl, he, hfirst⟩
    · exact hold pre t e h
    · have hsingle : (P x.1 x.2 d.mem (d.loc x.1)).events = [e] := by
        obtain ⟨a, ha⟩ := List.length_eq_one_iff.mp
          (le_antisymm (hone x.1 x.2 d.mem (d.loc x.1)) (List.length_pos_of_mem he))
        rw [ha, List.mem_singleton] at he
        rw [ha, he]
      rw [hfirst [] hsingle (by simp)]
      exact hG tr d x.1 x.2 e hCx hi hsingle

/-- **The event rule.** Where a step shows at most one event, and an invariant of the trace and
the configuration gives `G` of the event the next step shows, `G` holds of every event of every
run, judged against the trace before it. -/
theorem event_induct (hone : ∀ t a m l, (P t a m l).events.length ≤ 1) {c : Config T M L}
    {I : List (T × E) → Config T M L → Prop} {G : List (T × E) → T → E → Prop} (h0 : I [] c)
    (hs : ∀ tr d t a, I tr d → I (tr ++ (P t a d.mem (d.loc t)).events.map (Prod.mk t))
      (d.after t (P t a d.mem (d.loc t))))
    (hG : ∀ tr d t a e, I tr d → (P t a d.mem (d.loc t)).events = [e] → G tr t e)
    {s : List (T × A)} {pre : List (T × E)} {t : T} {e : E}
    (h : pre ++ [(t, e)] <+: trace P c s) : G pre t e :=
  event_induct_of P hone h0 (fun tr d t a _ => hs tr d t a) (fun tr d t a e _ => hG tr d t a e)
    (allSteps_true P c s) h

/-- An invariant of the configuration alone. -/
theorem run_invariant {c : Config T M L} {I : Config T M L → Prop} (h0 : I c)
    (hs : ∀ d x, I d → I (step P d x)) (s : List (T × A)) : I (run P c s) :=
  run_induct P (I := fun _ => I) h0 (fun _ d x => hs d x) s

/-- Where an invariant that survives every step meeting `C` turns `C` into `D`, every schedule that
meets `C` throughout meets `D`. -/
theorem allSteps_of_invariant {C D : List (T × E) → Config T M L → T × A → Prop}
    {c : Config T M L} {I : List (T × E) → Config T M L → Prop} (h0 : I [] c)
    (hs : ∀ tr d x, C tr d x → I tr d → I (tr ++ events P d x) (step P d x))
    (hD : ∀ tr d x, C tr d x → I tr d → D tr d x) {s : List (T × A)} (hC : AllSteps P C c s) :
    AllSteps P D c s := by
  induction s using List.reverseRecOn with
  | nil => trivial
  | append_singleton s x ih =>
    obtain ⟨hpre, hx⟩ := (allSteps_concat P).mp hC
    have hI := run_induct_of P (Q := fun _ => True) h0 (fun tr d x hx _ => hs tr d x hx) hpre
      fun _ _ => trivial
    exact (allSteps_concat P).mpr ⟨ih hpre, hD _ _ x hx hI⟩

/-- Conditions that an invariant makes the same are met by the same schedules. -/
theorem allSteps_congr {C D : List (T × E) → Config T M L → T × A → Prop} {c : Config T M L}
    {I : List (T × E) → Config T M L → Prop} (h0 : I [] c)
    (hs : ∀ tr d x, I tr d → I (tr ++ events P d x) (step P d x))
    (hCD : ∀ tr d x, I tr d → (C tr d x ↔ D tr d x)) (s : List (T × A)) :
    AllSteps P C c s ↔ AllSteps P D c s := by
  induction s using List.reverseRecOn with
  | nil => exact Iff.rfl
  | append_singleton s x ih =>
    rw [allSteps_concat, allSteps_concat, ih, hCD _ _ x (run_induct P h0 hs s)]

/-- Where a step shows at most one event, a trace that ends early is that of a schedule that ends
early. -/
theorem exists_prefix_of_trace (hone : ∀ t a m l, (P t a m l).events.length ≤ 1)
    {c : Config T M L} {s : List (T × A)} {pre : List (T × E)} (h : pre <+: trace P c s) :
    ∃ s₁, s₁ <+: s ∧ trace P c s₁ = pre := by
  induction s using List.reverseRecOn with
  | nil => exact ⟨[], List.prefix_refl _, (List.prefix_nil.mp h).symm⟩
  | append_singleton s x ih =>
    by_cases hlt : pre.length ≤ (trace P c s).length
    · have hpre : pre <+: trace P c s := by
        rw [trace_concat] at h
        exact List.prefix_of_prefix_length_le h (List.prefix_append _ _) hlt
      obtain ⟨s₁, hs₁, htr⟩ := ih hpre
      exact ⟨s₁, hs₁.trans (List.prefix_append _ _), htr⟩
    · refine ⟨s ++ [x], List.prefix_refl _, (h.eq_of_length ?_).symm⟩
      have hle := h.length_le
      have hev := hone x.1 x.2 (run P c s).mem ((run P c s).loc x.1)
      rw [trace_concat, List.length_append, events, List.length_map] at hle ⊢
      omega

/-- What a schedule meets, its beginnings meet. -/
theorem AllSteps.of_prefix {C : List (T × E) → Config T M L → T × A → Prop} {c : Config T M L}
    {s s₁ : List (T × A)} (h : AllSteps P C c s) (hs : s₁ <+: s) : AllSteps P C c s₁ := by
  obtain ⟨s₂, rfl⟩ := hs
  exact ((allStepsFrom_append P).mp h).1

/-! ## Concrete runs -/

/-- Schedule `s` leads from `c` to `c'` and shows `tr`. -/
def Leads (c : Config T M L) (s : List (T × A)) (tr : List (T × E)) (c' : Config T M L) : Prop :=
  run P c s = c' ∧ trace P c s = tr

/-- Two runs one behind the other are a run. -/
theorem Leads.trans {c d e : Config T M L} {s s' : List (T × A)} {tr tr' : List (T × E)}
    (h : Leads P c s tr d) (h' : Leads P d s' tr' e) : Leads P c (s ++ s') (tr ++ tr') e := by
  obtain ⟨rfl, rfl⟩ := h
  obtain ⟨rfl, rfl⟩ := h'
  exact ⟨run_append P c s s', trace_append P c s s'⟩

/-- `n` steps of one thread with the same choice. -/
def steps (t : T) (n : ℕ) (a : A) : List (T × A) := List.replicate n (t, a)

/-- Thread `t` is at `l`, and every other thread at `l₀`. -/
def alone (l₀ : L) (t : T) (m : M) (l : L) : Config T M L := ⟨m, Function.update (fun _ => l₀) t l⟩

/-- A thread that is alone stays alone. -/
theorem Leads.alone {l₀ l l' : L} {t : T} {m m' : M} {a : A} {n : ℕ}
    {tr : List (T × E)} {c : Config T M L} (es : List E) (h : P t a m l = ⟨m', l', es⟩)
    (hrest : Leads P (alone l₀ t m' l') (steps t n a) tr c) :
    Leads P (alone l₀ t m l) (steps t (n + 1) a) (es.map (Prod.mk t) ++ tr) c := by
  have hstep : step P (Threads.alone l₀ t m l) (t, a) = Threads.alone l₀ t m' l' := by
    simp [step, Threads.alone, h]
  have hevents : events P (Threads.alone l₀ t m l) (t, a) = es.map (Prod.mk t) := by
    simp [events, Threads.alone, h]
  have hsteps : steps t (n + 1) a = (t, a) :: steps t n a := rfl
  unfold Leads
  rw [hsteps, run_cons, trace, hstep, hevents, hrest.2]
  exact ⟨hrest.1, rfl⟩

/-- Thread `t`, alone at `l` and always choosing `a`, shows `es` and comes back to `l₀`, leaving
the memory `m'`. -/
def Completes (l₀ : L) (t : T) (a : A) (m : M) (l : L) (es : List E) (m' : M) : Prop :=
  ∃ n, Leads P (alone l₀ t m l) (steps t n a) (es.map (Prod.mk t)) (alone l₀ t m' l₀)

theorem Completes.refl (l₀ : L) (t : T) (a : A) (m : M) : Completes P l₀ t a m l₀ [] m :=
  ⟨0, rfl, rfl⟩

/-- A call is completed by one step and the rest. -/
theorem Completes.next {l₀ l : L} {t : T} {a : A} {m m' : M} {es : List E} (o : Outcome M L E)
    (h : P t a m l = o) (hrest : Completes P l₀ t a o.mem o.loc es m') :
    Completes P l₀ t a m l (o.events ++ es) m' := by
  obtain ⟨n, hl⟩ := hrest
  refine ⟨n + 1, ?_⟩
  rw [List.map_append]
  exact Leads.alone P o.events h hl

/-- What a thread shows at the end it shows at the end one step earlier, too. -/
theorem Completes.ends_next {l₀ l : L} {t : T} {a : A} {m m' : M} {last : List E}
    {o : Outcome M L E} (h : P t a m l = o)
    (hrest : ∃ es, Completes P l₀ t a o.mem o.loc (es ++ last) m') :
    ∃ es, Completes P l₀ t a m l (es ++ last) m' := by
  obtain ⟨es, hc⟩ := hrest
  refine ⟨o.events ++ es, ?_⟩
  rw [List.append_assoc]
  exact .next P o h hc

/-- The last step of a call may show the last events. -/
theorem Completes.ends_last {l₀ l : L} {t : T} {a : A} {m m' : M} {last : List E} (es : List E)
    (h : P t a m l = ⟨m', l₀, es ++ last⟩) : ∃ es, Completes P l₀ t a m l (es ++ last) m' := by
  refine ⟨es, ?_⟩
  have hc := Completes.next P _ h (.refl P l₀ t a m')
  rwa [List.append_nil] at hc

/-- Thread `t`, always choosing `a`, comes to show the event if no other thread moves. -/
def WillShow (c : Config T M L) (t : T) (a : A) (e : E) : Prop :=
  ∃ n, (t, e) ∈ trace P c (steps t n a)

/-- What the next step of a thread shows it will show. -/
theorem WillShow.now {c : Config T M L} {t : T} {a : A} {e : E} {l : L} (hloc : c.loc t = l)
    (h : e ∈ (P t a c.mem l).events) : WillShow P c t a e := by
  refine ⟨1, List.mem_append_left _ (List.mem_map.mpr ⟨e, ?_, rfl⟩)⟩
  rw [hloc]
  exact h

/-- What it will show after its next step it will show. -/
theorem WillShow.next {c : Config T M L} {t : T} {a : A} {e : E} {l : L} {o : Outcome M L E}
    (hloc : c.loc t = l) (hout : P t a c.mem l = o) (h : WillShow P (c.after t o) t a e) :
    WillShow P c t a e := by
  obtain ⟨n, hn⟩ := h
  refine ⟨n + 1, List.mem_append_right _ ?_⟩
  have hstep : step P c (t, a) = c.after t o := by
    rw [← hout, ← hloc]
    rfl
  rw [hstep]
  exact hn

/-! ## Locks

A flag in the memory that is set by a compare-exchange and cleared by whoever has set it. -/

section Lock

variable (lock : M → Bool) (holds : L → Bool)

/-- At most one thread holds the lock, and only while the flag is set. -/
def Exclusive (c : Config T M L) : Prop :=
  ∀ t, holds (c.loc t) = true → lock c.mem = true ∧ ∀ u, holds (c.loc u) = true → u = t

/-- A step leaves the flag and the thread as they are, takes the lock, or gives it back. -/
def LockStep (m : M) (l : L) (o : Outcome M L E) : Prop :=
  holds o.loc = holds l ∧ lock o.mem = lock m
    ∨ lock m = false ∧ lock o.mem = true ∧ holds o.loc = true
    ∨ holds l = true ∧ holds o.loc = false

variable {lock holds}

/-- The lock rule. -/
theorem Exclusive.after {c : Config T M L} (hc : Exclusive lock holds c) {t : T}
    {o : Outcome M L E} (ho : LockStep lock holds c.mem (c.loc t) o) :
    Exclusive lock holds (c.after t o) := by
  intro u hu
  rw [Config.after_mem]
  obtain ⟨hsame, hlock⟩ | ⟨hfree, htaken, -⟩ | ⟨hheld, hgiven⟩ := ho
  · have hall (v : T) : holds ((c.after t o).loc v) = holds (c.loc v) := by
      by_cases hv : v = t
      · rw [hv, Config.after_loc_self, hsame]
      · rw [Config.after_loc_of_ne _ _ hv]
    rw [hall] at hu
    obtain ⟨htrue, hone⟩ := hc u hu
    refine ⟨hlock.trans htrue, fun v hv => hone v ?_⟩
    rwa [hall] at hv
  · -- Nobody held it, so `t` is the only one.
    have honly (v : T) (hv : holds ((c.after t o).loc v) = true) : v = t := by
      by_contra hne
      rw [Config.after_loc_of_ne _ _ hne] at hv
      rw [(hc v hv).1] at hfree
      cases hfree
    exact ⟨htaken, fun v hv => (honly v hv).trans (honly u hu).symm⟩
  · exfalso
    by_cases hut : u = t
    · rw [hut, Config.after_loc_self, hgiven] at hu
      cases hu
    · rw [Config.after_loc_of_ne _ _ hut] at hu
      exact hut ((hc t hheld).2 u hu)

end Lock

/-! ## Counting

How many entries of a finite table, or how many threads, are in some state. A step changes
one entry, so it changes a count by what the entry was and is. -/

section Count

variable {ι κ α β : Type*} [Fintype ι] [Fintype κ]

/-- How many entries satisfy `p`. -/
def count (p : α → Bool) (f : ι → α) : ℕ := (Finset.univ.filter fun i => p (f i) = true).card

theorem count_eq_sum (p : α → Bool) (f : ι → α) : count p f = ∑ i, (p (f i)).toNat := by
  rw [count, Finset.card_filter]
  exact Finset.sum_congr rfl fun i _ => by cases p (f i) <;> rfl

/-- Where one entry changes, the count changes by that entry. -/
theorem count_update [DecidableEq ι] (p : α → Bool) (f : ι → α) (i : ι) (a : α) :
    count p (Function.update f i a) + (p (f i)).toNat = count p f + (p a).toNat := by
  have hsplit : ∀ g : ι → α, count p g
      = (p (g i)).toNat + ∑ j ∈ Finset.univ.erase i, (p (g j)).toNat := by
    intro g
    rw [Finset.add_sum_erase _ (fun j => (p (g j)).toNat) (Finset.mem_univ i), count_eq_sum]
  have hrest : ∑ j ∈ Finset.univ.erase i, (p (Function.update f i a j)).toNat
      = ∑ j ∈ Finset.univ.erase i, (p (f j)).toNat := by
    refine Finset.sum_congr rfl fun j hj => ?_
    rw [Function.update_of_ne (Finset.ne_of_mem_erase hj)]
  rw [hsplit (Function.update f i a), hsplit f, hrest, Function.update_self]
  omega

/-- Counts add up where what they count does. -/
theorem count_add {p q r : α → Bool} (h : ∀ a, (p a).toNat = (q a).toNat + (r a).toNat)
    (f : ι → α) : count p f = count q f + count r f := by
  simp only [count_eq_sum, h, Finset.sum_add_distrib]

/-- No more are counted than there are. -/
theorem count_le_card (p : α → Bool) (f : ι → α) : count p f ≤ Fintype.card ι :=
  Finset.card_filter_le _ _

/-- Where there is one, the count is not zero. -/
theorem count_pos {p : α → Bool} {f : ι → α} {i : ι} (h : p (f i) = true) : 0 < count p f :=
  Finset.card_pos.mpr ⟨i, by simpa using h⟩

/-- Entries that each own one of the other table are no more than those owned. -/
theorem count_le_count {p : α → Bool} {q : β → Bool} {f : ι → α} {g : κ → β}
    (owns : ι → Option κ) (h : ∀ i, p (f i) = true → ∃ k, owns i = some k ∧ q (g k) = true)
    (hinj : ∀ i j k, owns i = some k → owns j = some k → i = j) : count p f ≤ count q g := by
  have hcard : (Finset.univ.filter fun i => p (f i) = true).card
      ≤ ((Finset.univ.filter fun k => q (g k) = true).map Function.Embedding.some).card := by
    refine Finset.card_le_card_of_injOn owns (fun i hi => ?_) (fun i hi j _ hij => ?_)
    · obtain ⟨k, hk, hq⟩ := h i (by simpa using hi)
      simp [hk, hq]
    · obtain ⟨k, hk, -⟩ := h i (by simpa using hi)
      exact hinj i j k hk (hij ▸ hk)
  rwa [Finset.card_map] at hcard

end Count

end Linuwux.Threads
