/-
`PatchInvariant.lean` -- who holds the patch word, and what it says when nobody does.

The word says APPLYING while one thread is between its compare-exchange and its drop,
and otherwise it is what the applies that ran have settled ([`settled`]). The two are
one invariant over the trace: the word changes hands only from a settled word, so a
thread that gets it knows what to put back, whatever `completion_state` it brought
from earlier turns of the loop.
-/
import Linuwux.PatchThreads

set_option autoImplicit false

namespace Linuwux.Kuser

open Threads (Outcome Program Config events step run trace own)

variable {T : Type*} [DecidableEq T]

/-! ## What a thread holds and assumes -/

/-- The recipe of a thread between its successful compare-exchange and its drop. -/
def Thread.holding : Thread → Option Recipe
  | .running r (.apply _) | .running r (.applying _) | .running r (.drop _ _) => some r
  | _ => none

/-- The apply closure of the thread is running. -/
def Thread.in_apply : Thread → Bool
  | .running _ (.applying _) => true
  | _ => false

theorem Thread.holding_of_in_apply {th : Thread} (h : th.in_apply = true) : th.holding ≠ none := by
  unfold Thread.in_apply at h
  split at h
  · simp [Thread.holding]
  · cases h

/-- The applies a list of events shows. -/
def applies_of (es : List Event) : Applies :=
  es.filterMap fun
    | .applied r ok => some (r, ok)
    | _ => none

omit [DecidableEq T] in
/-- The applies of a trace, oldest first. -/
def applies (tr : List (T × Event)) : Applies := applies_of (tr.map Prod.snd)

omit [DecidableEq T] in
theorem applies_append (tr tr' : List (T × Event)) :
    applies (tr ++ tr') = applies tr ++ applies tr' := by
  simp [applies, applies_of, List.filterMap_append]

/-- A `completion_state` brought from earlier turns of the loop. -/
def Carries (h : Applies) (r : Recipe) (c : UInt32) : Prop :=
  ∃ st : Status, c = st.word ∧ (st = .failed r ∨ st.Precedes (settled h))

/-- What a thread may rely on at its program point. -/
def Thread.Assumes (h : Applies) : Thread → Prop
  | .running r (.load c _) => Carries h r c
  | .running r (.exchange current c _) => Carries h r c ∧ ∃ st : Status, current = st.word ∧
    st.Settled ∧ (st = .unapplied ∨ st = .failed r ∨ st ≠ .unapplied ∧ r ≠ .Resume ∧ c = st.word)
  | .running r (.apply c) | .running r (.applying c) => c = ((settled h).restored r).word
  | .running _ (.drop c _) => c = (settled h).word
  | _ => True

/-- No thread holds the word. -/
def Free (c : Config T UInt32 Thread) : Prop := ∀ t, (c.loc t).holding = none

/-- Only `t` holds the word, for `r`. -/
def HeldBy (c : Config T UInt32 Thread) (t : T) (r : Recipe) : Prop :=
  (c.loc t).holding = some r ∧ ∀ u, (c.loc u).holding ≠ none → u = t

/-- The word is settled, or it is held. -/
def WordAgrees (h : Applies) (c : Config T UInt32 Thread) : Prop :=
  Free c ∧ c.mem = (settled h).word ∨
    ∃ t r, HeldBy c t r ∧ c.mem = (Status.applying r).word

structure Inv (tr : List (T × Event)) (c : Config T UInt32 Thread) : Prop where
  word : WordAgrees (applies tr) c
  assumes : ∀ t, (c.loc t).Assumes (applies tr)

/-! ## One step -/

theorem Carries.concat {h : Applies} {r : Recipe} {c : UInt32} (hc : Carries h r c)
    (a : Recipe × Bool) : Carries (h ++ [a]) r c := by
  obtain ⟨st, rfl, rfl | hp⟩ := hc
  · exact ⟨_, rfl, .inl rfl⟩
  · refine ⟨st, rfl, .inr (hp.trans (settled_precedes_concat ?_ a))⟩
    rintro heq
    rw [heq] at hp
    cases st <;> exact hp

/-- What a compare-exchange from the settled word has to put back. -/
theorem restored_of_exchange {h : Applies} {r : Recipe} {c : UInt32} {n : ℕ}
    (ha : (Thread.running r (.exchange (settled h).word c n)).Assumes h) :
    c = ((settled h).restored r).word := by
  obtain ⟨⟨st', rfl, hcarry⟩, st, hst, -, hkept⟩ := ha
  rw [Status.word_inj] at hst
  subst hst
  congr 1
  rcases hkept with h' | h' | ⟨hne, -, hw⟩
  · rw [h'] at hcarry ⊢
    rcases hcarry with rfl | hp
    · rfl
    · cases st' <;> exact hp.elim
  · -- A failure is the first apply's, so the remembered one is this one.
    rw [h'] at hcarry ⊢
    rcases hcarry with rfl | hp
    · rfl
    · cases st' with
      | failed r' => exact congrArg Status.failed hp
      | _ => exact hp.elim
  · rw [Status.word_inj] at hw
    cases hs : settled h with
    | unapplied => exact absurd hs hne
    | _ => rw [hw, hs]; rfl

/-- A step that neither moves the word nor gains or loses it. -/
theorem WordAgrees.quiet {h : Applies} {c : Config T UInt32 Thread} {t : T}
    {o : Outcome UInt32 Thread Event} (hw : WordAgrees h c) (hmem : o.mem = c.mem)
    (hhold : o.loc.holding = (c.loc t).holding) : WordAgrees h (c.after t o) := by
  have hall : ∀ u, ((c.after t o).loc u).holding = (c.loc u).holding := by
    intro u
    by_cases hu : u = t
    · rw [hu, Config.after_loc_self, hhold]
    · rw [Config.after_loc_of_ne _ _ hu]
  unfold WordAgrees Free HeldBy
  simp only [hall, Config.after_mem, hmem]
  exact hw

/-- A step that gains the word. -/
theorem Free.gains {c : Config T UInt32 Thread} {t : T} {o : Outcome UInt32 Thread Event}
    {r : Recipe} (hfree : Free c) (hhold : o.loc.holding = some r) : HeldBy (c.after t o) t r := by
  refine ⟨by rw [Config.after_loc_self, hhold], fun u hu => ?_⟩
  by_contra hne
  rw [Config.after_loc_of_ne _ _ hne] at hu
  exact hu (hfree u)

/-- A step of the holder that keeps the word. -/
theorem HeldBy.keeps {c : Config T UInt32 Thread} {t : T} {o : Outcome UInt32 Thread Event}
    {r : Recipe} (hheld : HeldBy c t r) (hhold : o.loc.holding = some r) :
    HeldBy (c.after t o) t r := by
  refine ⟨by rw [Config.after_loc_self, hhold], fun u hu => ?_⟩
  by_contra hne
  rw [Config.after_loc_of_ne _ _ hne] at hu
  exact hne (hheld.2 u hu)

/-- A step that gives the word up. -/
theorem HeldBy.loses {c : Config T UInt32 Thread} {t : T} {o : Outcome UInt32 Thread Event}
    {r : Recipe} (hheld : HeldBy c t r) (hhold : o.loc.holding = none) : Free (c.after t o) := by
  intro u
  by_cases hu : u = t
  · rw [hu, Config.after_loc_self, hhold]
  · rw [Config.after_loc_of_ne _ _ hu]
    by_contra hne
    exact hu (hheld.2 u hne)

omit [DecidableEq T] in
/-- While some thread holds the word it is APPLYING, for that thread only. -/
theorem WordAgrees.held {h : Applies} {c : Config T UInt32 Thread} (hw : WordAgrees h c) {t : T}
    {r : Recipe} (ht : (c.loc t).holding = some r) :
    HeldBy c t r ∧ c.mem = (Status.applying r).word := by
  rcases hw with ⟨hfree, -⟩ | ⟨u, r', hheld, hm⟩
  · rw [hfree t] at ht
    cases ht
  · obtain rfl : t = u := hheld.2 t (by simp [ht])
    obtain rfl : r = r' := Option.some.inj (ht.symm.trans hheld.1)
    exact ⟨hheld, hm⟩

omit [DecidableEq T] in
/-- A settled word is free. -/
theorem WordAgrees.free {h : Applies} {c : Config T UInt32 Thread} (hw : WordAgrees h c)
    {st : Status} (hm : c.mem = st.word) (hst : st.Settled) : Free c ∧ st = settled h := by
  rcases hw with ⟨hfree, hm'⟩ | ⟨t, r, -, hm'⟩
  · exact ⟨hfree, Status.word_injective (hm.symm.trans hm')⟩
  · rw [Status.word_injective (hm.symm.trans hm')] at hst
    exact hst.elim

/-- The word and its holder after a step. -/
theorem word_step {tr : List (T × Event)} {c : Config T UInt32 Thread} (hi : Inv tr c) {t : T}
    {th : Thread} (hl : c.loc t = th) {st : Status} (hm : c.mem = st.word)
    {o : Outcome UInt32 Thread Event} (hmv : Moves st th o) :
    WordAgrees (applies tr ++ applies_of o.events) (c.after t o) := by
  have ha := hl ▸ hi.assumes t
  cases hmv with
  | exchanged =>
    -- The word compare-exchanged from is settled, so nobody held it.
    obtain ⟨-, st', hw, hset, -⟩ := ha
    rw [Status.word_inj] at hw
    subst hw
    exact .inr ⟨t, _, (hi.word.free hm hset).1.gains rfl, rfl⟩
  | succeeded | failed =>
    obtain ⟨hheld, hm'⟩ := hi.word.held (t := t) (by rw [hl]; rfl)
    exact .inr ⟨t, _, hheld.keeps rfl, hm.symm.trans hm'⟩
  | stored =>
    obtain ⟨hheld, -⟩ := hi.word.held (t := t) (by rw [hl]; rfl)
    rw [show applies_of _ = [] from rfl, List.append_nil]
    exact .inl ⟨hheld.loses rfl, ha⟩
  | _ =>
    rw [show applies_of _ = [] from rfl, List.append_nil]
    exact hi.word.quiet hm.symm (by rw [hl]; rfl)

/-- What a thread that does not hold the word assumes outlives another apply. -/
theorem Thread.Assumes.concat {h : Applies} {th : Thread} (ha : th.Assumes h)
    (hfree : th.holding = none) (a : Recipe × Bool) : th.Assumes (h ++ [a]) := by
  rcases th with _ | ⟨r, pc⟩
  · trivial
  · cases pc with
    | load c n => exact Carries.concat ha a
    | exchange current c n =>
      exact ⟨ha.1.concat a, ha.2⟩
    | ret result => trivial
    | apply c => cases hfree
    | applying c => cases hfree
    | drop c result => cases hfree

omit [DecidableEq T] in
/-- What the thread that moved may rely on. -/
theorem assumes_self {tr : List (T × Event)} {c : Config T UInt32 Thread} (hi : Inv tr c) {t : T}
    {th : Thread} (hl : c.loc t = th) {st : Status} (hm : c.mem = st.word)
    {o : Outcome UInt32 Thread Event} (hmv : Moves st th o) :
    o.loc.Assumes (applies tr ++ applies_of o.events) := by
  have ha := hl ▸ hi.assumes t
  have hnil : applies tr ++ [] = applies tr := List.append_nil _
  cases hmv with
  | began r => exact ⟨_, rfl, .inl rfl⟩
  | ready | refused | stored | returned => trivial
  | waited =>
    rw [show applies_of _ = [] from rfl, hnil]
    exact ha
  | kept h =>
    rw [show applies_of _ = [] from rfl, hnil]
    exact ⟨ha, st, rfl, by rcases h with rfl | rfl <;> trivial, by tauto⟩
  | carried h _ hres =>
    rw [show applies_of _ = [] from rfl, hnil]
    have hset : st.Settled := by rcases h with rfl | rfl <;> trivial
    have hne : st ≠ .unapplied := by rcases h with rfl | rfl <;> simp
    obtain rfl := (hi.word.free hm hset).2
    exact ⟨⟨_, rfl, .inr (settled_precedes_self hne)⟩, _, rfl, hset, .inr (.inr ⟨hne, hres, rfl⟩)⟩
  | exchanged =>
    rw [show applies_of _ = [] from rfl, hnil]
    obtain ⟨-, st', hw, hset, -⟩ := id ha
    rw [Status.word_inj] at hw
    subst hw
    obtain rfl := (hi.word.free hm hset).2
    exact restored_of_exchange ha
  | retried =>
    rw [show applies_of _ = [] from rfl, hnil]
    exact ha.1
  | apply_began =>
    rw [show applies_of _ = [] from rfl, hnil]
    exact ha
  | succeeded => exact (congrArg Status.word (settled_concat_true _ _)).symm
  | failed => exact ha.trans (congrArg Status.word (settled_concat_false _ _)).symm

/-- A step that shows an apply is the holder's. -/
theorem Moves.holding_of_applies {st : Status} {th : Thread} {o : Outcome UInt32 Thread Event}
    (hmv : Moves st th o) : applies_of o.events = [] ∨
      (∃ a, applies_of o.events = [a]) ∧ th.holding ≠ none := by
  cases hmv with
  | succeeded | failed => exact .inr ⟨⟨_, rfl⟩, by simp [Thread.holding]⟩
  | _ => exact .inl rfl

omit [DecidableEq T] in
/-- What the other threads may rely on. -/
theorem assumes_other {tr : List (T × Event)} {c : Config T UInt32 Thread} (hi : Inv tr c) {t u : T}
    (hu : u ≠ t) {st : Status} {o : Outcome UInt32 Thread Event} (hmv : Moves st (c.loc t) o) :
    (c.loc u).Assumes (applies tr ++ applies_of o.events) := by
  rcases hmv.holding_of_applies with hnil | ⟨⟨a, ha⟩, hhold⟩
  · rw [hnil, List.append_nil]
    exact hi.assumes u
  · rw [ha]
    refine (hi.assumes u).concat ?_ a
    obtain ⟨r, hr⟩ := Option.ne_none_iff_exists'.mp hhold
    by_contra hne
    exact hu ((hi.word.held hr).1.2 u hne)

omit [DecidableEq T] in
theorem applies_concat (tr : List (T × Event)) (t : T) (es : List Event) :
    applies (tr ++ es.map (Prod.mk t)) = applies tr ++ applies_of es := by
  rw [applies_append]
  unfold applies
  rw [List.map_map]
  exact congrArg (_ ++ applies_of ·) (List.map_id _)

omit [DecidableEq T] in
theorem WordAgrees.status {h : Applies} {c : Config T UInt32 Thread} (hw : WordAgrees h c) :
    ∃ st : Status, c.mem = st.word := by
  rcases hw with ⟨-, hm⟩ | ⟨t, r, -, hm⟩
  · exact ⟨_, hm⟩
  · exact ⟨_, hm⟩

theorem inv_step {tr : List (T × Event)} {c : Config T UInt32 Thread} (hi : Inv tr c) (t : T)
    (x : Choice) : Inv (tr ++ (thread_step x c.mem (c.loc t)).events.map (Prod.mk t))
      (c.after t (thread_step x c.mem (c.loc t))) := by
  obtain ⟨st, hm⟩ := hi.word.status
  have hmv := hm ▸ moves x st (c.loc t)
  refine ⟨?_, fun u => ?_⟩
  · rw [applies_concat]
    exact word_step hi rfl hm hmv
  · rw [applies_concat]
    by_cases hu : u = t
    · rw [hu, Config.after_loc_self]
      exact assumes_self hi rfl hm hmv
    · rw [Config.after_loc_of_ne _ _ hu]
      exact assumes_other hi hu hmv

omit [DecidableEq T] in
theorem inv_start : Inv [] (start T) := ⟨.inl ⟨fun _ => rfl, rfl⟩, fun _ => trivial⟩

/-- **Every run keeps the word and the history together.** -/
theorem inv_run (s : List (T × Choice)) :
    Inv (trace (program T) (start T) s) (run (program T) (start T) s) :=
  Threads.run_induct_after (program T) inv_start (fun _ _ t x hi => inv_step hi t x) s

/-! ## Mutual exclusion -/

/-- **One apply at a time.** In every run at most one apply closure is running, and the word is
the APPLYING word of a recipe exactly while a thread of that recipe is between its successful
compare-exchange and its drop. -/
theorem patch_mutual_exclusion (s : List (T × Choice)) :
    (∀ t u, ((run (program T) (start T) s).loc t).in_apply = true →
      ((run (program T) (start T) s).loc u).in_apply = true → t = u) ∧
    (∀ r, (run (program T) (start T) s).mem = applying_state r ↔
      ∃ t, ((run (program T) (start T) s).loc t).holding = some r) ∧
    (∀ t u, ((run (program T) (start T) s).loc t).holding ≠ none →
      ((run (program T) (start T) s).loc u).holding ≠ none → t = u) := by
  have hw := (inv_run s).word
  have hone : ∀ t u, ((run (program T) (start T) s).loc t).holding ≠ none →
      ((run (program T) (start T) s).loc u).holding ≠ none → t = u := by
    intro t u ht hu
    obtain ⟨r, hr⟩ := Option.ne_none_iff_exists'.mp hu
    exact (hw.held hr).1.2 t ht
  refine ⟨fun t u ht hu => hone t u (Thread.holding_of_in_apply ht)
    (Thread.holding_of_in_apply hu), fun r => ⟨fun hm => ?_, ?_⟩, hone⟩
  · have hword : (Status.applying r).word = (run (program T) (start T) s).mem := hm.symm
    rcases hw with ⟨-, hm'⟩ | ⟨t, r', hheld, hm'⟩
    · -- A settled word is none of the three APPLYING words.
      have hset := settled_settled (applies (trace (program T) (start T) s))
      rw [← Status.word_injective (hword.trans hm')] at hset
      exact hset.elim
    · have hr := Status.word_injective (hword.trans hm')
      exact ⟨t, by rw [hheld.1, Status.applying.inj hr]⟩
  · rintro ⟨t, ht⟩
    exact (hw.held ht).2

/-! ## The settled word -/

/-- The word a failed apply of `recipe` stores when it compare-exchanged from `old`. -/
def restored_word (recipe : Recipe) (old : UInt32) : UInt32 :=
  if old = PATCH_UNAPPLIED then failed_state recipe else old

theorem restored_word_word {st : Status} (r : Recipe) (hst : st.Settled) :
    restored_word r st.word = (st.restored r).word := by
  rcases st with _ | r' | r' | r'
  · rfl
  · exact hst.elim
  all_goals cases r' <;> rfl

/-- What the events of a thread say at its program point: the compare-exchange it won, the apply
it ran, and the word it puts back. -/
def Thread.Shown (es : List Event) : Thread → Prop
  | .running r (.apply c) => ∃ l old, es = l ++ [.exchanged r old] ∧ c = restored_word r old
  | .running r (.applying c) => ∃ l old, es = l ++ [.exchanged r old, .apply_began r] ∧
    c = restored_word r old
  | .running r (.drop c result) => ∃ l old ok,
    es = l ++ [.exchanged r old, .apply_began r, .applied r ok] ∧
    c = (if ok then ready_state r else restored_word r old) ∧
    result = if ok then .ok () else .error .ApplyFailed
  | .running r (.ret result) => ∃ l old ok c,
    es = l ++ [.exchanged r old, .apply_began r, .applied r ok, .stored r c] ∧
    c = (if ok then ready_state r else restored_word r old) ∧
    result = if ok then .ok () else .error .ApplyFailed
  | _ => True

omit [DecidableEq T] in
theorem shown_self {tr : List (T × Event)} {c : Config T UInt32 Thread} (hi : Inv tr c) {t : T}
    {th : Thread} (hl : c.loc t = th) {es : List Event} (hsh : th.Shown es) {st : Status}
    (hm : c.mem = st.word) {o : Outcome UInt32 Thread Event} (hmv : Moves st th o) :
    o.loc.Shown (es ++ o.events) := by
  have ha := hl ▸ hi.assumes t
  cases hmv with
  | exchanged =>
    obtain ⟨-, st', hw, hset, -⟩ := id ha
    rw [Status.word_inj] at hw
    subst hw
    obtain rfl := (hi.word.free hm hset).2
    exact ⟨es, _, rfl, (restored_of_exchange ha).trans (restored_word_word _ hset).symm⟩
  | apply_began =>
    obtain ⟨l, old, rfl, hc⟩ := hsh
    exact ⟨l, old, by simp, hc⟩
  | succeeded =>
    obtain ⟨l, old, rfl, -⟩ := hsh
    exact ⟨l, old, true, by simp, rfl, rfl⟩
  | failed =>
    obtain ⟨l, old, rfl, hc⟩ := hsh
    exact ⟨l, old, false, by simp, hc, rfl⟩
  | stored =>
    obtain ⟨l, old, ok, rfl, hc, hres⟩ := hsh
    exact ⟨l, old, ok, _, by simp, hc, hres⟩
  | _ => trivial

/-- The invariant, and what every thread has shown. -/
def Recorded (tr : List (T × Event)) (c : Config T UInt32 Thread) : Prop :=
  Inv tr c ∧ ∀ t, (c.loc t).Shown (own t tr)

theorem recorded_start : Recorded [] (start T) := ⟨inv_start, fun _ => trivial⟩

theorem recorded_step {tr : List (T × Event)} {c : Config T UInt32 Thread} (hr : Recorded tr c)
    (t : T) (x : Choice) :
    Recorded (tr ++ (thread_step x c.mem (c.loc t)).events.map (Prod.mk t))
      (c.after t (thread_step x c.mem (c.loc t))) := by
  refine ⟨inv_step hr.1 t x, fun u => ?_⟩
  obtain ⟨st, hm⟩ := hr.1.word.status
  by_cases hu : u = t
  · subst hu
    rw [Config.after_loc_self, Threads.own_concat_self]
    exact shown_self hr.1 rfl (hr.2 u) hm (hm ▸ moves x st (c.loc u))
  · rw [Config.after_loc_of_ne _ _ hu, Threads.own_concat_of_ne hu]
    exact hr.2 u

theorem events_length_le (x : Choice) (word : UInt32) (th : Thread) :
    (thread_step x word th).events.length ≤ 1 := by
  rcases th with _ | ⟨r, pc⟩
  · exact le_rfl
  · simp only [thread_step]
    cases pc <;> simp only [access]
    all_goals repeat' split
    all_goals simp

/-- A thread that nobody disturbs returns `result` and leaves `word'`, having run `h`. -/
def Finishes (t : T) (x : Choice) (word : UInt32) (r : Recipe) (pc : Pc) (result : PatchResult)
    (word' : UInt32) (h : Applies) : Prop :=
  ∃ es, Threads.Completes (program T) .idle t x word (.running r pc)
    (es ++ [Event.returned r result]) word' ∧ applies_of es = h

theorem Finishes.ret {t : T} {x : Choice} {word : UInt32} {r : Recipe} {pc : Pc}
    {result : PatchResult} (h : access x word r pc = ⟨word, none, [.returned r result]⟩) :
    Finishes t x word r pc result word [] := by
  refine ⟨[], ?_, rfl⟩
  have hstep : program T t x word (.running r pc) = ⟨word, .idle, [.returned r result]⟩ := by
    simp only [program, thread_step, h]
    rfl
  exact .next (program T) _ hstep (.refl _ _ _ _ _)

theorem Finishes.next {t : T} {x : Choice} {word w word' : UInt32} {r : Recipe} {pc pc' : Pc}
    {result : PatchResult} {h : Applies} (es : List Event)
    (hstep : access x word r pc = ⟨w, some pc', es⟩)
    (hrest : Finishes t x w r pc' result word' h) :
    Finishes t x word r pc result word' (applies_of es ++ h) := by
  obtain ⟨es', hc, rfl⟩ := hrest
  refine ⟨es ++ es', ?_, by simp [applies_of, List.filterMap_append]⟩
  have hstep' : program T t x word (.running r pc) = ⟨w, .running r pc', es⟩ := by
    simp only [program, thread_step, hstep]
    rfl
  rw [List.append_assoc]
  exact .next (program T) _ hstep' hc

/-- A word that says APPLYING stays so, and the waits run out. -/
theorem finishes_waiting (t : T) (x : Choice) {word : UInt32} {r : Recipe} {c : UInt32}
    (hwait : ∀ n, admission r c n word = wait_or_conflict n) (k : ℕ) :
    ∀ {n : ℕ}, n + k = PATCH_WAIT_LIMIT →
      Finishes t x word r (.load c n) (.error .Conflict) word [] := by
  induction k with
  | zero =>
    intro n hn
    refine .ret ?_
    simp only [access, hwait, wait_or_conflict, if_pos (show n = PATCH_WAIT_LIMIT from hn)]
  | succ k ih =>
    intro n hn
    have hne : n ≠ PATCH_WAIT_LIMIT := by omega
    refine .next [] ?_ (ih (n := n + 1) (by omega))
    simp only [access, hwait, wait_or_conflict, if_neg hne]

/-- A won compare-exchange, the apply and the drop. -/
theorem finishes_exchange (t : T) (x : Choice) (hx : x.spurious = false) (word : UInt32)
    (r : Recipe) (c : UInt32) (n : ℕ) :
    Finishes t x word r (.exchange word c n)
      (if x.apply then .ok () else .error .ApplyFailed)
      (if x.apply then ready_state r else c) [(r, x.apply)] := by
  obtain ⟨recipe, spurious, apply⟩ := x
  subst hx
  have hwon : access ⟨recipe, false, apply⟩ word r (.exchange word c n)
      = ⟨applying_state r, some (.apply c), [.exchanged r word]⟩ := by
    simp [access]
  refine .next _ hwon (.next [.apply_began r] rfl ?_)
  cases apply with
  | true => exact .next [.applied r true] rfl (.next [.stored r _] rfl (.ret rfl))
  | false => exact .next [.applied r false] rfl (.next [.stored r _] rfl (.ret rfl))

/-- **The call in one go is the call alone.** A thread that nobody disturbs returns what
[`patch`] returns, leaves the word it leaves and runs the apply it runs. -/
theorem patch_alone (t : T) (x : Choice) (hx : x.spurious = false) (r : Recipe) (st : Status) :
    Finishes t x st.word r (.first r)
      (patch r (fun h : Applies => (x.apply, h ++ [(r, x.apply)])) st.word []).1
      (patch r (fun h : Applies => (x.apply, h ++ [(r, x.apply)])) st.word []).2.1
      (patch r (fun h : Applies => (x.apply, h ++ [(r, x.apply)])) st.word []).2.2 := by
  have hexchange : ∀ c, admission r (failed_state r) 0 st.word = .exchange c →
      Finishes t x st.word r (.first r) (if x.apply then .ok () else .error .ApplyFailed)
        (if x.apply then ready_state r else c) [(r, x.apply)] := by
    intro c hturn
    refine .next [] ?_ (finishes_exchange t x hx st.word r c 0)
    simp only [access, Pc.first, hturn]
  unfold patch
  cases hturn : admission r (failed_state r) 0 st.word with
  | ret result => exact .ret (by simp only [access, Pc.first, hturn])
  | exchange c =>
    have := hexchange c hturn
    cases hap : x.apply <;> simpa [hap] using this
  | wait =>
    exact finishes_waiting t x (admission_wait hturn _) PATCH_WAIT_LIMIT (Nat.zero_add _)

end Linuwux.Kuser
