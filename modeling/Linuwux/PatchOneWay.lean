/-
`PatchOneWay.lean` -- a protocol is selected once: after Dispatch or Selector there is
no way back to Resume.

The switch is an event of the trace: an apply of Dispatch or Selector that returned
true, or the first apply of all when it is not of Resume. From there on the word is
one of the six of those two recipes. Resume is admitted from none of them: it waits on
the two APPLYING words and conflicts on the other four, and a compare-exchange it
prepared before the switch finds another word. Before the switch a failed Dispatch or
Selector apply puts the READY word of Resume back, and Resume goes on as before.
-/
import Linuwux.PatchInvariant

set_option autoImplicit false

namespace Linuwux.Kuser

open Threads (Outcome Program Config events step run trace own)

variable {T : Type*}

/-! ## The switch -/

/-- The recipes of the applies that began, oldest first. -/
def begun_of (es : List Event) : List Recipe :=
  es.filterMap fun
    | .apply_began r => some r
    | _ => none

def begun (tr : List (T × Event)) : List Recipe := begun_of (tr.map Prod.snd)

/-- Dispatch or Selector has been selected: one of their applies returned true, or the first
apply of all is theirs. -/
def Switched (tr : List (T × Event)) : Prop :=
  (∃ r, r ≠ .Resume ∧ (r, true) ∈ applies tr) ∨ ∃ r, r ≠ .Resume ∧ (begun tr).head? = some r

/-- The word is of Dispatch or Selector. -/
def Status.Foreign : Status → Prop
  | .unapplied => False
  | .applying r | .ready r | .failed r => r ≠ .Resume

theorem begun_append (tr tr' : List (T × Event)) : begun (tr ++ tr') = begun tr ++ begun tr' := by
  simp [begun, begun_of, List.filterMap_append]

theorem begun_concat (tr : List (T × Event)) (t : T) (es : List Event) :
    begun (tr ++ es.map (Prod.mk t)) = begun tr ++ begun_of es := by
  rw [begun_append]
  unfold begun
  rw [List.map_map]
  exact congrArg (_ ++ begun_of ·) (List.map_id _)

theorem Switched.append {tr : List (T × Event)} (h : Switched tr) (tr' : List (T × Event)) :
    Switched (tr ++ tr') := by
  rcases h with ⟨r, hr, hmem⟩ | ⟨r, hr, hhead⟩
  · exact .inl ⟨r, hr, by rw [applies_append]; exact List.mem_append_left _ hmem⟩
  · refine .inr ⟨r, hr, ?_⟩
    rw [begun_append, List.head?_append, hhead]
    rfl

theorem settled_eq_unapplied {h : Applies} : settled h = .unapplied ↔ h = [] := by
  refine ⟨fun hs => ?_, fun hs => by rw [hs]; rfl⟩
  unfold settled at hs
  split at hs
  · cases hs
  · split at hs
    · cases hs
    · exact List.head?_eq_none_iff.mp ‹_›

/-! ## The word after the switch -/

/-- The applies a thread at its program point has shown to have begun or returned. -/
def Thread.Begun (tr : List (T × Event)) : Thread → Prop
  | .running _ (.applying _) => begun tr ≠ []
  | .running _ (.drop _ _) => applies tr ≠ []
  | _ => True

structure OneWay (tr : List (T × Event)) (c : Config T UInt32 Thread) : Prop where
  inv : Inv tr c
  begun_of_applies : applies tr ≠ [] → begun tr ≠ []
  thread_begun : ∀ t, (c.loc t).Begun tr
  foreign : Switched tr → ∃ st : Status, c.mem = st.word ∧ st.Foreign
  settled_foreign : Switched tr → applies tr ≠ [] → (settled (applies tr)).Foreign

theorem OneWay.foreign_of_word {tr : List (T × Event)} {c : Config T UInt32 Thread}
    (hw : OneWay tr c) (hsw : Switched tr) {st : Status} (hm : c.mem = st.word) : st.Foreign := by
  obtain ⟨st', hm', hf⟩ := hw.foreign hsw
  rw [Status.word_injective (hm.symm.trans hm')]
  exact hf

/-- After the switch only Dispatch and Selector hold the word. -/
theorem OneWay.holding_ne {tr : List (T × Event)} {c : Config T UInt32 Thread} (hw : OneWay tr c)
    (hsw : Switched tr) {t : T} {r : Recipe} (ht : (c.loc t).holding = some r) : r ≠ .Resume :=
  hw.foreign_of_word hsw (hw.inv.word.held ht).2

/-- The switch happens in a step that leaves the word where it is. -/
theorem switched_concat {tr : List (T × Event)} {t : T} {es : List Event}
    (h : Switched (tr ++ es.map (Prod.mk t))) : Switched tr
      ∨ (∃ r, r ≠ .Resume ∧ (r, true) ∈ applies_of es)
      ∨ begun tr = [] ∧ ∃ r, r ≠ .Resume ∧ (begun_of es).head? = some r := by
  rcases h with ⟨r, hr, hmem⟩ | ⟨r, hr, hhead⟩
  · rw [applies_concat, List.mem_append] at hmem
    rcases hmem with hmem | hmem
    · exact .inl (.inl ⟨r, hr, hmem⟩)
    · exact .inr (.inl ⟨r, hr, hmem⟩)
  · rw [begun_concat, List.head?_append] at hhead
    cases hb : (begun tr).head? with
    | some r' =>
      rw [hb] at hhead
      exact .inl (.inr ⟨r', by rwa [Option.some.inj hhead], hb⟩)
    | none =>
      rw [hb] at hhead
      exact .inr (.inr ⟨List.head?_eq_none_iff.mp hb, r, hr, hhead⟩)

/-- Resume does not compare-exchange from a word of another recipe. -/
theorem exchange_ne_resume {h : Applies} {r : Recipe} {st : Status} {c : UInt32} {n : ℕ}
    (ha : (Thread.running r (.exchange st.word c n)).Assumes h) (hf : st.Foreign) :
    r ≠ .Resume := by
  obtain ⟨-, st', hw, -, hkept⟩ := ha
  rw [Status.word_inj] at hw
  subst hw
  rcases hkept with h' | h' | h'
  · exact (h' ▸ hf : Status.unapplied.Foreign).elim
  · exact (h' ▸ hf : (Status.failed r).Foreign)
  · exact h'.2.1

theorem foreign_step {tr : List (T × Event)} {c : Config T UInt32 Thread} (hw : OneWay tr c) {t : T}
    {th : Thread} (hl : c.loc t = th) {st : Status} (hm : c.mem = st.word)
    {o : Outcome UInt32 Thread Event} (hmv : Moves st th o)
    (hsw : Switched (tr ++ o.events.map (Prod.mk t))) :
    ∃ st' : Status, o.mem = st'.word ∧ st'.Foreign := by
  have ha := hl ▸ hw.inv.assumes t
  have hb := hl ▸ hw.thread_begun t
  -- A thread that applies has its recipe in the word.
  have hold : ∀ r, th.holding = some r → st = .applying r := fun r hr =>
    Status.word_injective (hm.symm.trans (hw.inv.word.held (by rw [hl, hr])).2)
  rcases switched_concat hsw with hbefore | ⟨r, hr, hmem⟩ | ⟨-, r, hr, hhead⟩
  · have hf := hw.foreign_of_word hbefore hm
    cases hmv with
    | exchanged => exact ⟨.applying _, rfl, exchange_ne_resume ha hf⟩
    | stored => exact ⟨_, ha, hw.settled_foreign hbefore hb⟩
    | _ => exact ⟨st, rfl, hf⟩
  · cases hmv with
    | succeeded =>
      rw [show applies_of _ = [_] from rfl, List.mem_singleton] at hmem
      refine ⟨st, rfl, ?_⟩
      rw [hold _ rfl, ← (Prod.mk.inj hmem).1]
      exact hr
    | failed =>
      rw [show applies_of _ = [_] from rfl, List.mem_singleton] at hmem
      cases hmem
    | _ => cases hmem
  · cases hmv with
    | apply_began =>
      refine ⟨st, rfl, ?_⟩
      rw [hold _ rfl, show _ = r from Option.some.inj hhead]
      exact hr
    | _ => cases hhead

theorem settled_foreign_step {tr : List (T × Event)} {c : Config T UInt32 Thread}
    (hw : OneWay tr c) {t : T} {th : Thread} (hl : c.loc t = th) {st : Status}
    {o : Outcome UInt32 Thread Event} (hmv : Moves st th o)
    (hsw : Switched (tr ++ o.events.map (Prod.mk t)))
    (hne : applies tr ++ applies_of o.events ≠ []) :
    (settled (applies tr ++ applies_of o.events)).Foreign := by
  have hcases := switched_concat hsw
  cases hmv with
  | succeeded =>
    rw [show applies_of _ = [_] from rfl, settled_concat_true]
    rcases hcases with hsw | ⟨r, hr, hmem⟩ | ⟨-, r, -, hhead⟩
    · exact hw.holding_ne hsw (by rw [hl]; rfl)
    · rw [show applies_of _ = [_] from rfl, List.mem_singleton] at hmem
      exact (Prod.mk.inj hmem).1 ▸ hr
    · cases hhead
  | failed =>
    rw [show applies_of _ = [_] from rfl, settled_concat_false]
    rcases hcases with hsw | ⟨r, -, hmem⟩ | ⟨-, r, -, hhead⟩
    · by_cases hnil : applies tr = []
      · rw [hnil]
        exact hw.holding_ne hsw (by rw [hl]; rfl)
      · have hf := hw.settled_foreign hsw hnil
        cases hs : settled (applies tr) with
        | unapplied => exact absurd (settled_eq_unapplied.mp hs) hnil
        | _ => rw [hs] at hf; exact hf
    · rw [show applies_of _ = [_] from rfl, List.mem_singleton] at hmem
      cases hmem
    · cases hhead
  | _ =>
    rw [show applies_of _ = [] from rfl, List.append_nil] at hne ⊢
    rcases hcases with hsw | ⟨r, -, hmem⟩ | ⟨hnil, -⟩
    · exact hw.settled_foreign hsw hne
    · cases hmem
    · exact absurd hnil (hw.begun_of_applies hne)

theorem Thread.Begun.append {tr : List (T × Event)} {th : Thread} (h : th.Begun tr)
    (tr' : List (T × Event)) : th.Begun (tr ++ tr') := by
  unfold Thread.Begun at *
  rw [begun_append, applies_append]
  split at h
  · exact List.append_ne_nil_of_left_ne_nil h _
  · exact List.append_ne_nil_of_left_ne_nil h _
  · trivial

theorem begun_of_applies_step {tr : List (T × Event)} {c : Config T UInt32 Thread}
    (hw : OneWay tr c) {t : T} {th : Thread} (hl : c.loc t = th) {st : Status}
    {o : Outcome UInt32 Thread Event} (hmv : Moves st th o)
    (hne : applies tr ++ applies_of o.events ≠ []) : begun tr ++ begun_of o.events ≠ [] := by
  refine List.append_ne_nil_of_left_ne_nil ?_ _
  have hb := hl ▸ hw.thread_begun t
  cases hmv with
  | succeeded | failed => exact hb
  | _ =>
    rw [show applies_of _ = [] from rfl, List.append_nil] at hne
    exact hw.begun_of_applies hne

theorem begun_self {tr : List (T × Event)} {t : T} {th : Thread} {st : Status}
    {o : Outcome UInt32 Thread Event} (hmv : Moves st th o) :
    o.loc.Begun (tr ++ o.events.map (Prod.mk t)) := by
  cases hmv with
  | apply_began =>
    unfold Thread.Begun
    rw [begun_concat]
    exact List.append_ne_nil_of_right_ne_nil _ (List.cons_ne_nil _ _)
  | succeeded | failed =>
    unfold Thread.Begun
    rw [applies_concat]
    exact List.append_ne_nil_of_right_ne_nil _ (List.cons_ne_nil _ _)
  | _ => trivial

variable [DecidableEq T]

theorem oneWay_step {tr : List (T × Event)} {c : Config T UInt32 Thread} (hw : OneWay tr c) (t : T)
    (x : Choice) : OneWay (tr ++ (thread_step x c.mem (c.loc t)).events.map (Prod.mk t))
      (c.after t (thread_step x c.mem (c.loc t))) := by
  obtain ⟨st, hm⟩ := hw.inv.word.status
  have hmv := hm ▸ moves x st (c.loc t)
  refine ⟨inv_step hw.inv t x, ?_, ?_, foreign_step hw rfl hm hmv, ?_⟩
  · rw [applies_concat, begun_concat]
    exact begun_of_applies_step hw rfl hmv
  · intro u
    by_cases hu : u = t
    · rw [hu, Config.after_loc_self]
      exact begun_self hmv
    · rw [Config.after_loc_of_ne _ _ hu]
      exact (hw.thread_begun u).append _
  · rw [applies_concat]
    exact settled_foreign_step hw rfl hmv

omit [DecidableEq T] in
theorem oneWay_start : OneWay [] (start T) where
  inv := inv_start
  begun_of_applies h := absurd rfl h
  thread_begun _ := trivial
  foreign h := by rcases h with ⟨r, -, h⟩ | ⟨r, -, h⟩ <;> cases h
  settled_foreign _ h := absurd rfl h

theorem oneWay_run (s : List (T × Choice)) :
    OneWay (trace (program T) (start T) s) (run (program T) (start T) s) :=
  Threads.run_induct_after (program T) oneWay_start (fun _ _ t x hw => oneWay_step hw t x) s

/-! ## Resume after the switch -/

/-- What an event of a Resume call says of the switch. -/
def AfterSwitch (pre : List (T × Event)) (t : T) : Event → Prop
  | .apply_began .Resume => ¬Switched pre
  | .returned .Resume result => Switched pre → result = .error .Conflict ∨
    ∃ l old ok w, own t pre = l ++ [.exchanged .Resume old, .apply_began .Resume,
      .applied .Resume ok, .stored .Resume w]
  | _ => True

theorem afterSwitch_of_moves {tr : List (T × Event)} {c : Config T UInt32 Thread}
    (hw : OneWay tr c) (hr : Recorded tr c) {t : T} {th : Thread} (hl : c.loc t = th) {st : Status}
    (hm : c.mem = st.word) {o : Outcome UInt32 Thread Event} (hmv : Moves st th o) :
    ∀ e ∈ o.events, AfterSwitch tr t e := by
  have hsh := hl ▸ hr.2 t
  have hold : ∀ r, th.holding = some r → Switched tr → r ≠ .Resume := fun r h hsw =>
    hw.holding_ne hsw (by rw [hl, h])
  cases hmv with
  | @ready r _ _ h =>
    simp only [List.mem_singleton, forall_eq]
    cases r with
    | Resume =>
      intro hsw
      exact absurd rfl (h ▸ hw.foreign_of_word hsw hm : (Status.ready .Resume).Foreign)
    | _ => trivial
  | @refused r =>
    simp only [List.mem_singleton, forall_eq]
    cases r with
    | Resume => exact fun _ => .inl rfl
    | _ => trivial
  | @apply_began r =>
    simp only [List.mem_singleton, forall_eq]
    cases r with
    | Resume => exact fun hsw => hold .Resume rfl hsw rfl
    | _ => trivial
  | @returned r =>
    obtain ⟨l, old, ok, w, hes, -⟩ := hsh
    simp only [List.mem_singleton, forall_eq]
    cases r with
    | Resume => exact fun _ => .inr ⟨l, old, ok, w, hes⟩
    | _ => trivial
  | _ => simp [AfterSwitch]

theorem afterSwitch_run {s : List (T × Choice)} {pre : List (T × Event)} {t : T} {e : Event}
    (h : pre ++ [(t, e)] <+: trace (program T) (start T) s) : AfterSwitch pre t e := by
  refine Threads.event_induct (program T) (I := fun tr c => OneWay tr c ∧ Recorded tr c)
    (fun _ => events_length_le) ⟨oneWay_start, recorded_start⟩
    (fun _ _ t x hr => ⟨oneWay_step hr.1 t x, recorded_step hr.2 t x⟩)
    (fun tr d t x e hr he => ?_) h
  obtain ⟨st, hm⟩ := hr.1.inv.word.status
  refine afterSwitch_of_moves hr.1 hr.2 rfl hm (hm ▸ moves x st (d.loc t)) e ?_
  rw [show thread_step x d.mem (d.loc t) = program T t x d.mem (d.loc t) from rfl, he]
  exact List.mem_singleton_self e

/-- A Resume call that began after the switch conflicts: had it applied, its apply would have
begun after the switch. -/
theorem resume_conflicts {s : List (T × Choice)} {pre mid : List (T × Event)} {t : T}
    {result : PatchResult} (hsw : Switched pre)
    (h : pre ++ (t, Event.began .Resume) :: mid ++ [(t, Event.returned .Resume result)] <+:
      trace (program T) (start T) s) : result = .error .Conflict := by
  rcases afterSwitch_run h (hsw.append _) with hres | ⟨l, old, ok, w, hown⟩
  · exact hres
  · exfalso
    -- The four events are the last of the call, and so the apply is after its beginning.
    rw [Threads.own_append, Threads.own_cons_self] at hown
    have hsuf := List.suffix_append (own t pre) (Event.began .Resume :: own t mid)
    rw [hown] at hsuf
    have hmem : Event.apply_began .Resume ∈ own t mid := by
      rcases List.suffix_or_suffix_of_suffix hsuf (List.suffix_append l _) with h' | h'
      · have := h'.subset List.mem_cons_self
        simp at this
      · rcases List.suffix_cons_iff.mp h' with h' | h'
        · cases h'
        · exact h'.subset (by simp)
    obtain ⟨m, m', rfl⟩ := List.append_of_mem (Threads.mem_own.mp hmem)
    have hpre : pre ++ (t, Event.began .Resume) :: m ++ [(t, Event.apply_began .Resume)] <+:
        trace (program T) (start T) s := by
      refine List.IsPrefix.trans ?_ h
      simp
    exact afterSwitch_run hpre (hsw.append _)

/-- How many steps of a schedule are of thread `t`. -/
def own_steps (t : T) (s : List (T × Choice)) : ℕ := (s.filter fun x => x.1 = t).length

omit [DecidableEq T] in
/-- The load of a Resume call after the switch: it conflicts or it waits once more. -/
theorem resume_load {tr : List (T × Event)} {c : Config T UInt32 Thread} (hw : OneWay tr c)
    (hsw : Switched tr) {t : T} {w : UInt32} {n : ℕ}
    (hl : c.loc t = .running .Resume (.load w n)) (x : Choice) :
    (thread_step x c.mem (c.loc t)).events = [.returned .Resume (.error .Conflict)] ∨
      (thread_step x c.mem (c.loc t)).loc = .running .Resume (.load w (n + 1))
        ∧ n ≠ PATCH_WAIT_LIMIT := by
  obtain ⟨st, hm, hf⟩ := hw.foreign hsw
  have hmv := moves x st (.running .Resume (.load w n))
  rw [hl, hm]
  generalize thread_step x st.word (.running .Resume (.load w n)) = o at hmv ⊢
  cases hmv with
  | ready h => exact absurd rfl (h ▸ hf : (Status.ready .Resume).Foreign)
  | refused => exact .inl rfl
  | waited _ _ hn => exact .inr ⟨rfl, hn⟩
  | kept h =>
    rcases h with rfl | rfl
    · exact hf.elim
    · exact absurd rfl hf
  | carried _ _ hres => exact absurd rfl hres

/-- A Resume call after the switch returns in at most as many loads as it has waits left, and
one more. -/
theorem resume_returns (t : T) (s : List (T × Choice)) : ∀ {tr : List (T × Event)}
    {c : Config T UInt32 Thread} {w : UInt32} {n : ℕ}, OneWay tr c → Switched tr →
    c.loc t = .running .Resume (.load w n) → n ≤ PATCH_WAIT_LIMIT →
    PATCH_WAIT_LIMIT + 1 ≤ own_steps t s + n →
    (t, .returned .Resume (.error .Conflict)) ∈ trace (program T) c s := by
  induction s with
  | nil =>
    intro tr c w n _ _ _ hn hlen
    exact absurd hlen (by simp [own_steps]; omega)
  | cons x s ih =>
    intro tr c w n hw hsw hl hn hlen
    have hw' := oneWay_step hw x.1 x.2
    have hsw' := hsw.append ((thread_step x.2 c.mem (c.loc x.1)).events.map (Prod.mk x.1))
    by_cases hx : x.1 = t
    · subst hx
      rcases resume_load hw hsw hl x.2 with hret | ⟨hloc, hne⟩
      · refine List.mem_append_left _ (List.mem_map.mpr ⟨_, ?_, rfl⟩)
        rw [show (program T x.1 x.2 c.mem (c.loc x.1)).events = _ from hret]
        exact List.mem_singleton_self _
      · have hloc' := (c.after_loc_self x.1 (thread_step x.2 c.mem (c.loc x.1))).trans hloc
        refine List.mem_append_right _ (ih hw' hsw' hloc' (by omega) ?_)
        have : own_steps x.1 (x :: s) = own_steps x.1 s + 1 := by simp [own_steps]
        omega
    · have hloc' := (c.after_loc_of_ne (thread_step x.2 c.mem (c.loc x.1)) (Ne.symm hx)).trans hl
      refine List.mem_append_right _ (ih hw' hsw' hloc' hn ?_)
      have : own_steps t (x :: s) = own_steps t s := by simp [own_steps, hx]
      omega

/-! ## Resume before the switch -/

/-- Nothing moves a free word until a compare-exchange is won. -/
theorem free_until_exchange {c : Config T UInt32 Thread} {st : Status} (hfree : Free c)
    (hm : c.mem = st.word) (s : List (T × Choice))
    (hno : ∀ t r old, (t, .exchanged r old) ∉ trace (program T) c s) :
    Free (run (program T) c s) ∧ (run (program T) c s).mem = st.word := by
  refine Threads.run_induct_after (program T) (c := c)
    (I := fun tr d => (∀ t r old, (t, Event.exchanged r old) ∉ tr) → Free d ∧ d.mem = st.word)
    (fun _ => ⟨hfree, hm⟩) (fun tr d t x ih hno => ?_) s hno
  obtain ⟨hfree, hm⟩ := ih fun u r old hmem => hno u r old (List.mem_append_left _ hmem)
  have hmv := moves x st (d.loc t)
  rw [show program T t x d.mem (d.loc t) = thread_step x st.word (d.loc t) by rw [hm]; rfl] at hno ⊢
  -- No thread holds the word, and this step does not take it.
  have hquiet : ∀ o : Outcome UInt32 Thread Event, o.loc.holding = none → Free (d.after t o) := by
    intro o ho u
    by_cases hu : u = t
    · rw [hu, Config.after_loc_self, ho]
    · rw [Config.after_loc_of_ne _ _ hu, hfree u]
  have hth := hfree t
  generalize hl : d.loc t = th at hmv hth hno ⊢
  generalize thread_step x st.word th = o at hmv hno ⊢
  cases hmv with
  | @exchanged r => exact absurd (List.mem_append_right _ List.mem_cons_self) (hno t r st.word)
  | apply_began | succeeded | failed | stored => cases hth
  | _ => exact ⟨hquiet _ rfl, rfl⟩

/-- A thread about to drop the completion of a failed apply that started from READY of Resume
puts that word back. -/
theorem failed_drop_restores {tr : List (T × Event)} {c : Config T UInt32 Thread}
    (hr : Recorded tr c) {t : T} {r : Recipe} {w : UInt32} {result : PatchResult}
    {l : List Event} (hl : c.loc t = .running r (.drop w result))
    (hown : own t tr
      = l ++ [Event.exchanged r PATCH_RESUME_READY, Event.apply_began r, Event.applied r false])
    (x : Choice) :
    Free (c.after t (thread_step x c.mem (c.loc t))) ∧
      (c.after t (thread_step x c.mem (c.loc t))).mem = (Status.ready .Resume).word := by
  obtain ⟨l', old, ok, hown', hw, -⟩ := (hl ▸ hr.2 t : (Thread.running r (.drop w result)).Shown _)
  have hsame := List.append_inj_right' (hown.symm.trans hown') rfl
  simp only [List.cons.injEq, Event.exchanged.injEq, Event.applied.injEq] at hsame
  obtain ⟨⟨-, rfl⟩, -, ⟨-, rfl⟩, -⟩ := hsame
  have hheld := (hr.1.word.held (t := t) (r := r) (by rw [hl]; rfl)).1
  rw [hl]
  exact ⟨hheld.loses rfl, hw⟩

/-- **The selection is one-way.** Once a Dispatch or Selector apply has returned true, or when
the first apply of all is theirs, no Resume apply begins, every Resume call begun later returns
a conflict, and it does return, after one load and one more for each wait. Until then a
Dispatch or Selector apply that started from READY of Resume and fails leaves that word, and
until another apply starts every Resume call returns Ok at its load. -/
theorem patch_one_way (s : List (T × Choice)) :
    (∀ pre t, pre ++ [(t, Event.apply_began .Resume)] <+: trace (program T) (start T) s →
      ¬Switched pre) ∧
    (∀ pre mid t result, Switched pre →
      pre ++ (t, Event.began .Resume) :: mid ++ [(t, Event.returned .Resume result)] <+:
        trace (program T) (start T) s → result = .error .Conflict) ∧
    (∀ t x s', Switched (trace (program T) (start T) s) →
      (run (program T) (start T) s).loc t = .idle → x.recipe = .Resume →
      PATCH_WAIT_LIMIT + 1 ≤ own_steps t s' →
      (t, .returned .Resume (.error .Conflict)) ∈
        trace (program T) (step (program T) (run (program T) (start T) s) (t, x)) s') ∧
    (∀ t r l w result x s', r ≠ .Resume →
      (run (program T) (start T) s).loc t = .running r (.drop w result) →
      own t (trace (program T) (start T) s) =
        l ++ [Event.exchanged r PATCH_RESUME_READY, Event.apply_began r, Event.applied r false] →
      (∀ u r' old, (u, .exchanged r' old) ∉
        trace (program T) (step (program T) (run (program T) (start T) s) (t, x)) s') →
      (run (program T) (start T) (s ++ (t, x) :: s')).mem = PATCH_RESUME_READY ∧
      ∀ u w n y, (run (program T) (start T) (s ++ (t, x) :: s')).loc u
          = .running .Resume (.load w n) →
        events (program T) (run (program T) (start T) (s ++ (t, x) :: s')) (u, y)
          = [(u, .returned .Resume (.ok ()))]) := by
  refine ⟨fun pre t h => afterSwitch_run h, fun pre mid t result hsw h => resume_conflicts hsw h,
    fun t x s' hsw hidle hx hlen => ?_, fun t r l w result x s' _ hl hown hno => ?_⟩
  · have hloc : (step (program T) (run (program T) (start T) s) (t, x)).loc t
        = .running .Resume (.first .Resume) := by
      refine (Threads.step_loc_self (program T) _ (t, x)).trans ?_
      simp only [hidle, ← hx]
      rfl
    exact resume_returns t s' (oneWay_step (oneWay_run s) t x) (hsw.append _) hloc
      (Nat.zero_le _) hlen
  · have hr : Recorded (trace (program T) (start T) s) (run (program T) (start T) s) :=
      Threads.run_induct_after (program T) recorded_start (fun _ _ t x hr => recorded_step hr t x) s
    obtain ⟨hfree, hm⟩ := failed_drop_restores hr hl hown x
    obtain ⟨-, hm'⟩ := free_until_exchange hfree hm s' hno
    have hrun : (run (program T) (start T) (s ++ (t, x) :: s')).mem
        = (Status.ready .Resume).word := by
      rw [Threads.run_append, Threads.run_cons]
      exact hm'
    refine ⟨hrun, fun u w n y hload => ?_⟩
    unfold events
    rw [hload, hrun]
    rfl

end Linuwux.Kuser
