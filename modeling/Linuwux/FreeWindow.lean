/-
`FreeWindow.lean` -- how long the mark of a free stands.

A mark is taken back by the `malloc` by `win32u` that is given the pointer, and by nothing else
before the `CAPACITY`-th fresh mark after it. So it stands until the allocator returns the pointer
again, provided that the `consume_if_pending` that takes it back belongs to a `malloc` that began
after the real `free`. It does not where the two calls overlap ([`Overlaps`]): the pointer is freed
while the `malloc` that returned it has not got to its `consume_if_pending`, or it is given to a
`malloc` while the free that marked it has not got to the real `free`. The first is freeing a block
that nobody has been handed yet; the second takes no more than another thread that frees the same
pointer in between ([`regiven_pointer_is_let_through`]).
-/
import Linuwux.FreeGuard

set_option autoImplicit false

namespace Linuwux.FreeGuard

open Threads (Config Follows)
open PendingFrees (CAPACITY)

variable {T : Type*} {pool : UInt64}

/-- A `malloc` by `win32u` that was given a pointer and a free of it by `win32u` are both under
way. -/
def Overlaps (d : Config T Mem Thread) : Prop :=
  ∃ t u ptr, d.loc t = .allocated ptr true ∧ d.loc u = .freeing ptr true

/-- The two ends of an overlap. -/
def clash : Thread → Thread → Bool
  | .allocated ptr true, .freeing ptr' true => ptr == ptr'
  | _, _ => false

/-- The two calls that must not overlap. -/
theorem clash_iff {l l' : Thread} :
    clash l l' = true ↔ ∃ ptr, l = .allocated ptr true ∧ l' = .freeing ptr true := by
  constructor
  · intro h
    unfold clash at h
    split at h
    · exact ⟨_, rfl, by rw [beq_iff_eq.mp h]⟩
    · exact absurd h Bool.false_ne_true
  · rintro ⟨ptr, rfl, rfl⟩
    exact beq_self_eq_true ptr

instance [Fintype T] : DecidablePred (Overlaps (T := T)) := fun d =>
  decidable_of_iff (∃ t u, clash (d.loc t) (d.loc u) = true) (by simp only [clash_iff, Overlaps])

/-- **What a run without overlap keeps.** A thread that has marked and shown nothing since is still
at the real `free`, and until then nobody is given the pointer; and a mark is consumed only after
the pointer was given out again. -/
structure Undisturbed (pool : UInt64) (tr : List (T × Event)) (d : Config T Mem Thread) : Prop where
  genuine : ∀ t ptr, (t, .checked ptr false) ∈ tr → ptr ≠ 0 ∧ is_bootstrap_ptr pool ptr = false
  freeing : ∀ t ptr post, Follows tr (t, .checked ptr false) post → (∀ e, (t, e) ∉ post) →
    d.loc t = .freeing ptr true ∧ ∀ v, (v, .allocated ptr true) ∉ post
  unconsumed : ∀ t ptr post, Follows tr (t, .checked ptr false) post →
    (∀ v, (v, .allocated ptr true) ∉ post) →
    (∀ v, (v, .returned ptr true) ∉ post) ∧ ∀ v, d.loc v ≠ .allocated ptr true

/-- At the start there is nothing to disturb. -/
theorem undisturbed_start (T : Type*) (pool : UInt64) : Undisturbed pool [] (start T) where
  genuine _ _ h := absurd h List.not_mem_nil
  freeing _ _ _ h := absurd h Threads.not_follows_nil
  unconsumed _ _ _ h := absurd h Threads.not_follows_nil

section Step

variable {tr : List (T × Event)} {d d' : Config T Mem Thread} {x : T}

/-- A step that shows nothing. -/
theorem Undisturbed.silent (h : Undisturbed pool tr d) (hoff : ∀ u, u ≠ x → d'.loc u = d.loc u)
    (hm : Moves pool (d.loc x) (d'.loc x) []) : Undisturbed pool tr d' where
  genuine := h.genuine
  freeing t ptr post hf hown := by
    obtain ⟨hloc, hall⟩ := h.freeing t ptr post hf hown
    have hne : t ≠ x := by
      rintro rfl
      exact (hm.silent ptr true).1 hloc
    exact ⟨(hoff t hne).trans hloc, hall⟩
  unconsumed t ptr post hf hall := by
    obtain ⟨hcons, hloc⟩ := h.unconsumed t ptr post hf hall
    refine ⟨hcons, fun v => ?_⟩
    by_cases hv : v = x
    · rw [hv]
      exact (hm.silent ptr true).2
    · rw [hoff v hv]
      exact hloc v

/-- A step that shows one event. -/
theorem Undisturbed.shown {e : Event} (h : Undisturbed pool tr d)
    (hoff : ∀ u, u ≠ x → d'.loc u = d.loc u) (hm : Moves pool (d.loc x) (d'.loc x) [e])
    (hno : ¬ Overlaps d') : Undisturbed pool (tr ++ [(x, e)]) d' := by
  refine ⟨fun t ptr hmem => ?_, fun t ptr post hf hown => ?_, fun t ptr post hf hall => ?_⟩
  · rcases List.mem_append.mp hmem with hold | hnew
    · exact h.genuine t ptr hold
    · obtain ⟨rfl, rfl⟩ := Prod.mk.inj (List.mem_singleton.mp hnew)
      exact hm.of_marked.2
  · rcases Threads.follows_concat.mp hf with ⟨post', rfl, hf'⟩ | ⟨rfl, heq⟩
    · obtain ⟨hloc, hold⟩ := h.freeing t ptr post' hf' fun e' hmem => hown e' (by simp [hmem])
      have hne : t ≠ x := by
        rintro rfl
        exact hown e (by simp)
      have hloc' : d'.loc t = .freeing ptr true := (hoff t hne).trans hloc
      refine ⟨hloc', fun v hmem => ?_⟩
      rcases List.mem_append.mp hmem with hin | hnew
      · exact hold v hin
      · -- The thread has not freed the pointer yet, so to be given it is to overlap.
        obtain ⟨rfl, rfl⟩ := Prod.mk.inj (List.mem_singleton.mp hnew)
        exact hno ⟨v, t, ptr, hm.shows_allocated.mpr rfl, hloc'⟩
    · obtain ⟨rfl, rfl⟩ := Prod.mk.inj heq
      exact ⟨hm.of_marked.1, fun v => List.not_mem_nil⟩
  · rcases Threads.follows_concat.mp hf with ⟨post', rfl, hf'⟩ | ⟨rfl, heq⟩
    · obtain ⟨hcons, hloc⟩ := h.unconsumed t ptr post' hf' fun v hmem => hall v (by simp [hmem])
      have hne : e ≠ .allocated ptr true := by
        rintro rfl
        exact hall x (by simp)
      refine ⟨fun v hmem => ?_, fun v => ?_⟩
      · rcases List.mem_append.mp hmem with hin | hnew
        · exact hcons v hin
        · obtain ⟨rfl, rfl⟩ := Prod.mk.inj (List.mem_singleton.mp hnew)
          exact hloc v hm.of_returned
      · by_cases hv : v = x
        · rw [hv]
          exact fun heq => hne (hm.shows_allocated.mp heq)
        · rw [hoff v hv]
          exact hloc v
    · obtain ⟨rfl, rfl⟩ := Prod.mk.inj heq
      exact ⟨fun v => List.not_mem_nil, fun v hv => hno ⟨v, t, ptr, hv, hm.of_marked.1⟩⟩

end Step

variable [DecidableEq T]

/-- The step does not lead to an overlap. -/
def Apart (pool : UInt64) (_ : List (T × Event)) (d : Config T Mem Thread) (x : T × Choice) :
    Prop :=
  ¬ Overlaps (Threads.step (program T pool) d x)

instance [Fintype T] (tr : List (T × Event)) (d : Config T Mem Thread) (x : T × Choice) :
    Decidable (Apart pool tr d x) :=
  inferInstanceAs (Decidable (¬ _))

/-- A step at which no two such calls overlap disturbs nothing. -/
theorem Undisturbed.step {tr : List (T × Event)} {d : Config T Mem Thread}
    (h : Undisturbed pool tr d) (x : T × Choice) (hno : Apart pool tr d x) :
    Undisturbed pool (tr ++ Threads.events (program T pool) d x)
      (Threads.step (program T pool) d x) := by
  have hoff : ∀ u, u ≠ x.1 → (Threads.step (program T pool) d x).loc u = d.loc u := fun u =>
    Threads.step_loc_of_ne _ d x
  rcases step_cases pool d x with ⟨hev, -, hm⟩ | ⟨e, hev, -, hm⟩
  · rw [hev, List.append_nil]
    exact h.silent hoff hm
  · rw [hev]
    exact h.shown hoff hm hno

/-- Nor does a run of such steps. -/
theorem undisturbed_run {s : List (T × Choice)}
    (h : Threads.AllSteps (program T pool) (Apart pool) (start T) s) :
    Undisturbed pool (Threads.trace (program T pool) (start T) s)
      (Threads.run (program T pool) (start T) s) :=
  Threads.run_induct_of (program T pool) (Q := fun _ => True) (undisturbed_start T pool)
    (fun _ _ x hno _ hi => hi.step x hno) h fun _ _ => trivial

/-! ## The window -/

omit [DecidableEq T] in
theorem fresh_append (tr tr' : List (T × Event)) : fresh (tr ++ tr') = fresh tr + fresh tr' :=
  List.countP_append

omit [DecidableEq T] in
/-- A real free is no fresh mark. -/
theorem fresh_cons_released (t : T) (ptr : UInt64) (tr : List (T × Event)) :
    fresh ((t, .released ptr) :: tr) = fresh tr :=
  List.countP_cons_of_neg (by simp [Event.is_mark])

/-- Nobody in `win32u` is given a pointer between its mark and the real `free` of the mark. -/
theorem not_allocated_before_release {s : List (T × Choice)}
    (h : Threads.AllSteps (program T pool) (Apart pool) (start T) s) {t : T} {ptr : UInt64}
    {mid rest : List (T × Event)}
    (hf : Follows (Threads.trace (program T pool) (start T) s) (t, .checked ptr false)
      (mid ++ rest))
    (hown : ∀ e, (t, e) ∉ mid) (v : T) : (v, .allocated ptr true) ∉ mid := by
  obtain ⟨pre, htr⟩ := hf
  have hpre : pre ++ (t, .checked ptr false) :: mid
      <+: Threads.trace (program T pool) (start T) s :=
    ⟨rest, by rw [htr]; simp⟩
  obtain ⟨s₁, hs₁, htr₁⟩ := Threads.exists_prefix_of_trace (program T pool)
    (fun u a m l => (moves (.guarding pool) a m l).length) hpre
  have hu := undisturbed_run (h.of_prefix _ hs₁)
  exact (hu.freeing t ptr mid ⟨pre, htr₁⟩ hown).2 v

/-- **The window of a free.** Once a free of `ptr` by `win32u` has reached the allocator, every
further one is dropped until the allocator returns `ptr` again or `CAPACITY` fresh marks follow
the one of `ptr`; and the mark of `ptr`, unless a `malloc` by `win32u` has returned `ptr` since, is
held until exactly the `CAPACITY`-th fresh mark after it. -/
theorem double_free_window (pool : UInt64) {s : List (T × Choice)}
    (h : Threads.AllSteps (program T pool) (Apart pool) (start T) s) :
    (∀ t ptr mid₁ mid₂,
      Follows (Threads.trace (program T pool) (start T) s) (t, .checked ptr false)
        (mid₁ ++ (t, .released ptr) :: mid₂) →
      (∀ e, (t, e) ∉ mid₁) → (∀ v guarded, (v, .allocated ptr guarded) ∉ mid₂) →
      fresh mid₁ + fresh mid₂ < CAPACITY →
      free_inner (.guarding pool) (Threads.run (program T pool) (start T) s).mem ptr true
        = ⟨(Threads.run (program T pool) (start T) s).mem, .idle, [.checked ptr true]⟩) ∧
    ∀ t ptr post,
      Follows (Threads.trace (program T pool) (start T) s) (t, .checked ptr false) post →
      (∀ v, (v, .returned ptr true) ∉ post) →
      (fresh post < CAPACITY →
        (Threads.run (program T pool) (start T) s).mem.HISTORY.Held ptr) ∧
      (fresh post = CAPACITY →
        ¬ (Threads.run (program T pool) (start T) s).mem.HISTORY.Held ptr) := by
  have htracks := tracks_run pool s
  have hu := undisturbed_run h
  have hgen : ∀ t ptr post,
      Follows (Threads.trace (program T pool) (start T) s) (t, .checked ptr false) post →
      ptr ≠ 0 ∧ is_bootstrap_ptr pool ptr = false := by
    rintro t ptr post ⟨pre, htr⟩
    exact hu.genuine t ptr (by rw [htr]; simp)
  refine ⟨fun t ptr mid₁ mid₂ hf hown hall hlt => ?_, fun t ptr post hf hcons => ?_⟩
  · obtain ⟨hp, hb⟩ := hgen t ptr _ hf
    have hnone : ∀ v, (v, .allocated ptr true) ∉ mid₁ ++ (t, .released ptr) :: mid₂ := by
      intro v hmem
      rcases List.mem_append.mp hmem with h₁ | h₂
      · exact not_allocated_before_release h hf hown v h₁
      · rcases List.mem_cons.mp h₂ with heq | h₂
        · cases (Prod.mk.inj heq).2
        · exact hall v true h₂
    have hcons := (hu.unconsumed t ptr _ hf hnone).1
    refine htracks.suppressed hp hb ⟨t, _, hf, hcons, ?_⟩
    rw [fresh_append, fresh_cons_released]
    exact hlt
  · obtain ⟨hp, -⟩ := hgen t ptr post hf
    refine ⟨fun hlt => (htracks.held_iff hp).mpr ⟨t, post, hf, hcons, hlt⟩, fun heq => ?_⟩
    refine htracks.recent.evicted hp ((log_getElem? _ ptr CAPACITY).mpr ?_)
    exact ⟨t, post, hf, hcons, heq⟩

/-- A block is allocated and freed by one thread while another one allocates and frees its own. -/
def side_by_side : List (Bool × Choice) :=
  [(false, .malloc 8 16 true), (false, .malloc 0 0 true), (true, .malloc 8 32 false),
    (false, .free 16 true), (true, .malloc 0 0 true), (false, .malloc 0 0 true),
    (true, .free 32 true)]

/-- The free that follows is suppressed, and the other pointer is still held. -/
theorem side_by_side_window :
    free_inner (.guarding 0x100000)
        (Threads.run (program Bool 0x100000) (start Bool) side_by_side).mem 16 true
      = ⟨(Threads.run (program Bool 0x100000) (start Bool) side_by_side).mem, .idle,
          [.checked 16 true]⟩ ∧
    (Threads.run (program Bool 0x100000) (start Bool) side_by_side).mem.HISTORY.Held 32 := by
  have hwin := double_free_window 0x100000 (s := side_by_side) (by decide +kernel)
  exact ⟨hwin.1 false 16 [(true, .returned 32 false)] [(true, .checked 32 false)]
      ⟨[(false, .allocated 16 true), (false, .returned 16 true), (true, .allocated 32 false)],
        by decide +kernel⟩ (by simp) (by simp) (by decide),
    (hwin.2 true 32 []
      ⟨[(false, .allocated 16 true), (false, .returned 16 true), (true, .allocated 32 false),
        (false, .checked 16 false), (true, .returned 32 false), (false, .released 16)],
        by decide +kernel⟩
      (by simp)).1 (by decide)⟩

/-! ## A pointer given out before its real `free` -/

/-- The pointer a step frees, at the call of `free` or at the real one. -/
def frees (a : Choice) : Thread → Option UInt64
  | .idle =>
    match a with
    | .free ptr _ => some ptr
    | .malloc _ _ _ => none
  | .freeing ptr _ => some ptr
  | _ => none

/-- The block a `malloc` that has not completed was given. -/
def Thread.given : Thread → Option UInt64
  | .allocated block _ => some block
  | _ => none

/-- The step frees no block before the `malloc` that returned it has completed. -/
def Completed (_ : List (T × Event)) (d : Config T Mem Thread) (x : T × Choice) : Prop :=
  ∀ u, (d.loc u).given = none ∨ (d.loc u).given ≠ frees x.2 (d.loc x.1)

instance [Fintype T] (tr : List (T × Event)) (d : Config T Mem Thread) (x : T × Choice) :
    Decidable (Completed tr d x) :=
  inferInstanceAs
    (Decidable (∀ u, (d.loc u).given = none ∨ (d.loc u).given ≠ frees x.2 (d.loc x.1)))

/-- `win32u` allocates a block and marks it, another library frees it first, a second `malloc` by
`win32u` is given it and completes, and only then the first free gets to the real `free`. -/
def regiven : List (Fin 3 × Choice) :=
  [(0, .malloc 8 16 true), (0, .malloc 0 0 true), (0, .free 16 true), (1, .free 16 false),
    (1, .malloc 0 0 true), (2, .malloc 8 16 true), (2, .malloc 0 0 true), (0, .malloc 0 0 true)]

/-- No block is freed before the `malloc` that returned it has completed, and the pointer is not
returned again after the real `free`; but the second `malloc` has taken the mark back, so the next
free by `win32u` is let through. -/
theorem regiven_pointer_is_let_through :
    Threads.AllSteps (program (Fin 3) 0x100000) Completed (start (Fin 3)) regiven ∧
    (∃ mid₁ mid₂,
      Follows (Threads.trace (program (Fin 3) 0x100000) (start (Fin 3)) regiven)
        (0, .checked 16 false) (mid₁ ++ (0, .released 16) :: mid₂) ∧
      (∀ e, ((0 : Fin 3), e) ∉ mid₁) ∧ (∀ v guarded, (v, .allocated 16 guarded) ∉ mid₂) ∧
      fresh mid₁ + fresh mid₂ < CAPACITY) ∧
    (free_inner (.guarding 0x100000)
      (Threads.run (program (Fin 3) 0x100000) (start (Fin 3)) regiven).mem 16 true).loc
        = .freeing 16 true := by
  refine ⟨by decide +kernel, ⟨[(1, .released 16), (2, .allocated 16 true), (2, .returned 16 true)],
    [], ⟨[(0, .allocated 16 true), (0, .returned 16 true)], by decide +kernel⟩, by simp, by simp,
    by decide⟩, by decide +kernel⟩

end Linuwux.FreeGuard
