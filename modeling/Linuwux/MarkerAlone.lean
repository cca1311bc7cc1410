/-
`MarkerAlone.lean` -- the two models of the marker functions agree.

`MarkerThreads.lean` takes `dispatcher_target` and `redirect` one access at a time and
`MarkerCalls.lean` computes a call in one go. What is assumed there of the table a call starts
on is here shown of every reachable configuration: [`table_ok_run`], whatever the other threads
are in the middle of. And a call during which no other thread moves leaves the table that
`MarkerCalls.lean` computes and returns what it says: [`call_alone`].
-/
import Linuwux.MarkerCalls
import Linuwux.MarkerInvariant

set_option autoImplicit false

namespace Linuwux.Markers

open Threads (Outcome Program Config)

/-! ## The table in every run -/

/-- A marker that was never armed with instruction 0 does not have it. -/
def Life.Named : Life → Prop
  | .absent => True
  | .armed rip | .routed rip _ => rip ≠ 0

theorem Life.Named.run {stack : UInt64} {es : List Event} {l l' : Life} (h : l.Named)
    (harmed : ∀ s rip, Event.armed s rip ∈ es → rip ≠ 0) (hrun : Life.run stack l es = some l') :
    l'.Named := by
  induction es generalizing l with
  | nil =>
    obtain rfl := Option.some.inj hrun
    exact h
  | cons e es ih =>
    obtain ⟨l₁, hnext, hrest⟩ := Option.bind_eq_some_iff.mp hrun
    refine ih ?_ (fun s rip he => harmed s rip (List.mem_cons_of_mem e he)) hrest
    cases e with
    | armed s rip =>
      have hrip := harmed s rip List.mem_cons_self
      simp only [Life.next] at hnext
      split at hnext
      · obtain rfl := Option.some.inj hnext
        exact h
      · split at hnext
        · obtain rfl := Option.some.inj hnext
          exact hrip
        · cases hnext
    | routed s rip context =>
      simp only [Life.next] at hnext
      split at hnext
      · obtain rfl := Option.some.inj hnext
        exact h
      · split at hnext
        · rename_i hl
          obtain rfl := Option.some.inj hnext
          rw [hl] at h
          exact h
        · cases hnext
    | replayed s rip saved =>
      simp only [Life.next] at hnext
      split at hnext
      · obtain rfl := Option.some.inj hnext
        exact h
      · split at hnext
        · obtain rfl := Option.some.inj hnext
          trivial
        · cases hnext
    | dropped s =>
      simp only [Life.next] at hnext
      split at hnext
      · obtain rfl := Option.some.inj hnext
        exact h
      · split at hnext
        · cases hnext
        · obtain rfl := Option.some.inj hnext
          trivial
    | _ =>
      obtain rfl := Option.some.inj hnext
      exact h

theorem trap_rip_ne_zero (raw : UInt64) : Dispatch.trap_rip raw ≠ 0 := by
  unfold Dispatch.trap_rip saturating_add
  split
  · decide
  · rename_i hle
    intro h0
    have hle := UInt64.not_lt.mp hle
    have hnat := congrArg UInt64.toNat h0
    rw [UInt64.toNat_add] at hnat
    have hlt := UInt64.le_iff_toNat_le.mp hle
    change _ ≤ 0xfffffffffffffffd at hlt
    change (_ + 2) % 0x10000000000000000 = 0 at hnat
    omega

/-- No marker is armed with instruction 0. -/
theorem armed_rip_ne_zero (s : List (Tid × Op)) {t : Tid} {stack rip : UInt64}
    (h : (t, Event.armed stack rip) ∈ Threads.trace program start s) : rip ≠ 0 := by
  refine Threads.run_induct program (c := start)
    (I := fun tr _ => ∀ t stack rip, (t, Event.armed stack rip) ∈ tr → rip ≠ 0)
    (fun _ _ _ h => nomatch h) (fun tr c x hI t stack rip hmem => ?_) s t stack rip h
  rcases List.mem_append.mp hmem with hold | hnew
  · exact hI t stack rip hold
  · obtain ⟨e, he, heq⟩ := List.mem_map.mp hnew
    obtain ⟨rfl, rfl⟩ := Prod.mk.inj heq
    have hshows := thread_step_shows he
    generalize c.loc x.1 = th at hshows
    cases hshows
    exact trap_rip_ne_zero _

section Run

variable {tr : List (Tid × Event)} {c : Config Tid Table Thread}

/-- Whose a published slot is. -/
theorem Inv.owner (h : Inv tr c) {i : Index} (hi : (c.mem.markers i).published) :
    ∃ t : Tid, c.mem.marks t i = some (c.mem.markers i) := by
  rcases h.slots i with ⟨h0, -⟩ | ⟨hmax, -⟩ | ⟨-, t, ht⟩
  · exact absurd h0 hi.1
  · exact absurd hmax hi.2
  · exact ⟨t, Table.marks_eq_some.mpr ⟨rfl, ht, hi⟩⟩

/-- While its words are saved a marker is behind its life, but has its instruction. -/
theorem View.named {t : Tid} {m : Table} {th : Thread} {L : UInt64 → Life} (h : View t m th L)
    (hL : ∀ s, (L s).Named) {i : Index} {k : Marker} (hk : m.marks t i = some k) : k.rip ≠ 0 := by
  have hlife := hL k.stack
  by_cases hsaving : th.saving = some i
  · unfold Thread.saving at hsaving
    split at hsaving
    · rename_i r j w rest
      obtain rfl := Option.some.inj hsaving
      obtain ⟨k', ⟨hk', hstack, hrip⟩, -⟩ := h.ok
      obtain rfl := Option.some.inj (hk.symm.trans hk')
      have hliving : L r.rsp.val = .armed r.rip := h.living
      rw [hstack, hliving] at hlife
      rw [hrip]
      exact hlife
    · cases hsaving
  · rw [h.marked i k hk hsaving, Marker.life] at hlife
    split at hlife
    · exact hlife
    · exact hlife

theorem Inv.ok (h : Inv tr c) (harmed : ∀ t stack rip, (t, Event.armed stack rip) ∈ tr → rip ≠ 0) :
    c.mem.Ok where
  named i hi := by
    obtain ⟨t, ht⟩ := h.owner hi
    obtain ⟨-, htid, -⟩ := Table.marks_eq_some.mp ht
    obtain ⟨L, hlife, hv⟩ := h.view t
    have hnamed : ∀ s, (L s).Named := fun s =>
      Life.Named.run (l := .absent) trivial
        (fun s rip he => harmed t s rip (Threads.mem_own.mp he)) (hlife s)
    rw [htid]
    exact ⟨t.val_ne_zero, hv.named hnamed ht⟩
  unique i j hi hstack htid := by
    obtain ⟨t, ht⟩ := h.owner hi
    obtain ⟨-, hti, -⟩ := Table.marks_eq_some.mp ht
    obtain ⟨L, -, hv⟩ := h.view t
    have hj : (c.mem.markers j).published := by
      unfold Marker.published at hi ⊢
      rwa [← hstack]
    exact hv.one i j _ _ ht (Table.marks_eq_some.mpr ⟨rfl, htid.symm.trans hti, hj⟩) hstack
  counted := by
    have hle := h.published_le
    have hbound := h.active_le
    have hcard : Threads.count (fun k : Marker => decide k.published) c.mem.markers
        = c.mem.published.card := by
      unfold Threads.count Table.published
      simp only [decide_eq_true_eq]
    rw [hcard] at hle
    exact ⟨c.mem.active.toNat - c.mem.published.card, by omega, by omega⟩

/-- A reserved slot names at most the thread that has reserved it. -/
theorem Inv.idle (h : Inv tr c) {t : Tid} (ht : c.loc t = .idle) : c.mem.Idle t.val := by
  intro i hmax htid
  rcases h.slots i with ⟨h0, -⟩ | ⟨-, u, hu, hnone | hut⟩ | ⟨hp, -⟩
  · rw [h0] at hmax
    exact absurd hmax (by decide)
  · exact t.val_ne_zero (htid.symm.trans hnone)
  · obtain rfl := Tid.ext (htid.symm.trans hut)
    rw [ht] at hu
    cases hu
  · exact hp.2 hmax

end Run

/-- **The table a call starts on.** At every point of every run, the table is in order for a
thread that is in none of the functions. -/
theorem table_ok_run (s : List (Tid × Op)) (t : Tid)
    (ht : (Threads.run program start s).loc t = .idle) :
    (Threads.run program start s).mem.Ok ∧ (Threads.run program start s).mem.Idle t.val :=
  ⟨(inv_run s).ok fun _ _ _ h => armed_rip_ne_zero s h, (inv_run s).idle ht⟩

/-! ## One call alone -/

/-- What `redirect` shows last and the table it leaves, after `consume`. -/
def redirect_after (t : Tid) (r : Trap) : Option Phase × Table → List Event × Table
  | (some (.replay saved), m) => ([.replayed r.rsp.val r.rip saved, .redirected false], m)
  | (some .route, m) =>
    (if is_bypass r.context.xmm5 || !r.route then [cancelled r] else [.redirected true],
      if is_bypass r.context.xmm5 || !r.route then cancel m t.val r.rsp.val r.rip else m)
  | (none, m) => ([.redirected r.direct], m)

/-- What a call shows last and the table it leaves, in one go. -/
def Table.perform (m : Table) (t : Tid) : Op → List Event × Table
  | .dispatch d =>
    let m := retire_markers m t.val d.trap_rsp
    match d.replays with
    | none => ([.dispatched d.original], m)
    | some raw =>
      match remember_marker m t.val d.trap_rsp (Dispatch.trap_rip raw) with
      | (true, m) => ([.dispatched (raw ||| RAW_TARGET_TAG)], m)
      | (false, m) => ([.dispatched d.original], m)
  | .trap r => redirect_after t r (consume m t.val r.rsp.val r.rip r.context)
  | .returned stack => ([.returned stack], m)
  | .exited => ([.exited], m)

/-- Thread `t`, at `th` and with nobody else moving, returns: it shows `last` at the end, and
leaves the table `m'`. -/
def Returns (t : Tid) (op : Op) (m : Table) (th : Thread) (last : List Event) (m' : Table) : Prop :=
  ∃ es, Threads.Completes program .idle t op m th (es ++ last) m'

section Alone

variable {t : Tid} {op : Op} {m m₁ m' : Table} {th th₁ : Thread} {last : List Event}

theorem Returns.go (es : List Event) (h : thread_step t op m th = ⟨m₁, th₁, es⟩)
    (hrest : Returns t op m₁ th₁ last m') : Returns t op m th last m' :=
  Threads.Completes.ends_next program h hrest

theorem Returns.done (es : List Event) (h : thread_step t op m th = ⟨m', .idle, es ++ last⟩) :
    Returns t op m th last m' :=
  Threads.Completes.ends_last program es h

theorem finRange_drop (k : Index) :
    (List.finRange MARKER_CAPACITY).drop k.val
      = k :: (List.finRange MARKER_CAPACITY).drop (k.val + 1) := by
  have hk : k.val < (List.finRange MARKER_CAPACITY).length := by
    rw [List.length_finRange]
    exact k.isLt
  rw [List.drop_eq_getElem_cons hk, List.getElem_finRange]
  rfl

theorem finRange_drop_last {k : Index} (hk : ¬k.val + 1 < MARKER_CAPACITY) :
    (List.finRange MARKER_CAPACITY).drop (k.val + 1) = [] := by
  refine List.drop_of_length_le ?_
  rw [List.length_finRange]
  omega

theorem finRange_drop_first :
    (List.finRange MARKER_CAPACITY).drop first.val = List.finRange MARKER_CAPACITY :=
  List.drop_zero

/-! ### `release_marker` -/

section Release

variable {i : Index} {stack : UInt64} (at_pc : ReleasePc → Thread)
  (hat : ∀ {m m' pc pc'}, release_step m i stack pc = (m', some pc') →
    thread_step t op m (at_pc pc) = ⟨m', at_pc pc', []⟩)
include hat

theorem clear_words_alone (ws : List Word) (k : Marker)
    (h : Returns t op (m.set i { k with words := fun w => if w ∈ ws then 0 else k.words w })
      (at_pc .free) last m') :
    Returns t op (m.set i k) (at_pc (.words ws)) last m' := by
  induction ws generalizing k with
  | nil =>
    have hwords : (fun w => if w ∈ ([] : List Word) then 0 else k.words w) = k.words := by
      funext w
      simp
    rw [hwords] at h
    exact h
  | cons w ws ih =>
    have hclear : release_step (m.set i k) i stack (.clear_word w ws)
        = (m.set i { k with words := Function.update k.words w 0 }, some (.words ws)) := by
      simp only [release_step, Table.set_markers_self, Table.set_set]
    refine .go _ (hat hclear) (ih _ ?_)
    have hwords : (fun w' => if w' ∈ ws then 0 else Function.update k.words w 0 w')
        = fun w' => if w' ∈ w :: ws then 0 else k.words w' := by
      funext w'
      by_cases he : w' = w
      · subst he
        simp
      · simp [he]
    simp only [hwords]
    exact h

/-- A release that finds its marker clears the slot and has then still to count it out. -/
theorem release_alone (hst : (m.markers i).stack = stack)
    (h : Returns t op (m.set i .empty) (at_pc .uncount) last m') :
    Returns t op m (at_pc .cas) last m' := by
  obtain ⟨k, hk⟩ : ∃ k, k = m.markers i := ⟨_, rfl⟩
  have hcas : release_step m i stack .cas
      = (m.set i { k with stack := U64_MAX }, some .clear_tid) := by
    simp only [release_step, if_pos hst, hk]
  have htid : release_step (m.set i { k with stack := U64_MAX }) i stack .clear_tid
      = (m.set i { k with stack := U64_MAX, tid := 0 }, some .clear_rip) := by
    simp only [release_step, Table.set_markers_self, Table.set_set]
  have hrip : release_step (m.set i { k with stack := U64_MAX, tid := 0 }) i stack .clear_rip
      = (m.set i { k with stack := U64_MAX, tid := 0, rip := 0 }, some .clear_phase) := by
    simp only [release_step, Table.set_markers_self, Table.set_set]
  have hphase : release_step (m.set i { k with stack := U64_MAX, tid := 0, rip := 0 }) i stack
      .clear_phase
      = (m.set i { k with stack := U64_MAX, tid := 0, rip := 0, phase := 0 },
        some (.words Word.saved)) := by
    simp only [release_step, Table.set_markers_self, Table.set_set]
  have hfree : release_step (m.set i ⟨U64_MAX, 0, 0, 0, fun _ => 0⟩) i stack .free
      = (m.set i .empty, some .uncount) := by
    simp only [release_step, Table.set_markers_self, Table.set_set, Marker.empty]
  -- The slot is reserved first, and freed only when all of it is cleared.
  refine .go _ (hat hcas) (.go _ (hat htid) (.go _ (hat hrip) (.go _ (hat hphase) ?_)))
  refine clear_words_alone at_pc hat _ _ ?_
  simp only [Word.mem_saved, if_true]
  exact .go _ (hat hfree) h

end Release

/-! ### `dispatcher_target` -/

section Dispatch

variable {d : Dispatch}

/-- One index of `retire_markers`. -/
theorem retire_index_alone (i : Index)
    (h : Returns t op (retire_marker t.val d.trap_rsp m i) (.dispatching d (retire_next i)) last
      m') :
    Returns t op m (.dispatching d (.retire_tid i)) last m' := by
  unfold retire_marker at h
  dsimp only at h
  by_cases htid : (m.markers i).tid = t.val
  · have hpass : ¬(m.markers i).tid ≠ t.val := not_not.mpr htid
    -- The depth is loaded, and the thread is asked once more before the release.
    rw [if_neg hpass] at h
    have hload : thread_step t op m (.dispatching d (.retire_tid i))
        = ⟨m, .dispatching d (.retire_stack i), []⟩ := by
      simp only [thread_step, dispatch_step, if_neg hpass]
    refine .go [] hload ?_
    by_cases hout : (m.markers i).stack = 0 ∨ (m.markers i).stack = U64_MAX
        ∨ (m.markers i).stack > d.trap_rsp
    · rw [if_pos (by tauto)] at h
      refine .go [] ?_ h
      simp only [thread_step, dispatch_step, if_pos hout]
    · rw [if_neg (by tauto), release_marker_eq rfl] at h
      have hstack : thread_step t op m (.dispatching d (.retire_stack i))
          = ⟨m, .dispatching d (.retire_again i (m.markers i).stack), []⟩ := by
        simp only [thread_step, dispatch_step, if_neg hout]
      have hagain : thread_step t op m (.dispatching d (.retire_again i (m.markers i).stack))
          = ⟨m, .dispatching d (.retire_release i (m.markers i).stack .cas), []⟩ := by
        simp only [thread_step, dispatch_step, if_neg hpass]
      refine .go [] hstack (.go [] hagain (release_alone
        (fun pc => .dispatching d (.retire_release i (m.markers i).stack pc)) (fun hstep => ?_) rfl
        (.go _ rfl h)))
      simp only [thread_step, dispatch_step, hstep]
  · have hskip : (m.markers i).tid ≠ t.val := htid
    rw [if_pos hskip] at h
    refine .go [] ?_ h
    simp only [thread_step, dispatch_step, if_pos hskip]

/-- `retire_markers` from an index on. -/
theorem retire_loop_alone (m : Table) (k : Index)
    (h : Returns t op (((List.finRange MARKER_CAPACITY).drop k.val).foldl
      (retire_marker t.val d.trap_rsp) m) (.dispatching d .decide) last m') :
    Returns t op m (.dispatching d (.retire_tid k)) last m' := by
  rw [finRange_drop, List.foldl_cons] at h
  refine retire_index_alone k ?_
  unfold retire_next
  by_cases hk : k.val + 1 < MARKER_CAPACITY
  · rw [dif_pos hk]
    exact retire_loop_alone _ ⟨k.val + 1, hk⟩ h
  · rw [dif_neg hk]
    rw [finRange_drop_last hk] at h
    exact h
termination_by MARKER_CAPACITY - k.val

theorem retire_markers_alone
    (h : Returns t op (retire_markers m t.val d.trap_rsp) (.dispatching d .decide) last m') :
    Returns t op m (.dispatching d .has_active) last m' := by
  unfold retire_markers has_active_markers at h
  by_cases hactive : m.active = 0
  · rw [if_pos (Or.inr (by simp [hactive]))] at h
    refine .go [] ?_ h
    simp [thread_step, dispatch_step, hactive]
  · rw [if_neg (by simp [hactive, t.val_ne_zero])] at h
    have hasks : thread_step t op m (.dispatching d .has_active)
        = ⟨m, .dispatching d .retire_active, []⟩ := by
      simp [thread_step, dispatch_step, hactive]
    have hasks' : thread_step t op m (.dispatching d .retire_active)
        = ⟨m, .dispatching d (.retire_tid first), []⟩ := by
      simp [thread_step, dispatch_step, hactive]
    refine .go [] hasks (.go [] hasks' (retire_loop_alone m first ?_))
    rw [finRange_drop_first]
    exact h

/-- A reserved slot is counted and filled in. -/
theorem arm_alone {raw : UInt64} {i : Index} :
    Returns t op (m.set i { m.markers i with stack := U64_MAX }) (.dispatching d (.count raw i))
      [.dispatched (raw ||| RAW_TARGET_TAG)]
      (m.armed i t.val d.trap_rsp (Dispatch.trap_rip raw)) := by
  refine .go _ rfl (.go _ rfl (.go _ rfl (.go _ rfl
    (.done [.armed d.trap_rsp (Dispatch.trap_rip raw)] ?_))))
  simp only [thread_step, dispatch_step, Table.set, Table.armed, Function.update_self,
    Function.update_idem]
  rfl

/-- `remember_marker` from an offset on. -/
theorem reserve_alone (raw : UInt64) (k : Index) {result : Option Index}
    (hresult : (((List.finRange MARKER_CAPACITY).drop k.val).map (probe d.trap_rsp)).find?
      (fun i => (m.markers i).stack = 0) = result) :
    Returns t op m (.dispatching d (.reserve raw k))
      [.dispatched (result.elim d.original fun _ => raw ||| RAW_TARGET_TAG)]
      (result.elim m fun i => m.armed i t.val d.trap_rsp (Dispatch.trap_rip raw)) := by
  rw [finRange_drop, List.map_cons, List.find?_cons] at hresult
  by_cases hfree : (m.markers (probe d.trap_rsp k)).stack = 0
  · simp only [hfree, decide_true] at hresult
    subst hresult
    refine .go [] ?_ arm_alone
    simp only [thread_step, dispatch_step, if_pos hfree]
  · simp only [hfree, decide_false] at hresult
    by_cases hk : k.val + 1 < MARKER_CAPACITY
    · refine .go [] ?_ (reserve_alone raw ⟨k.val + 1, hk⟩ hresult)
      simp only [thread_step, dispatch_step, if_neg hfree, dif_pos hk]
    · rw [finRange_drop_last hk] at hresult
      subst hresult
      refine .done [.refused d.trap_rsp (Dispatch.trap_rip raw)] ?_
      simp only [thread_step, dispatch_step, if_neg hfree, dif_neg hk]
      rfl
termination_by MARKER_CAPACITY - k.val

theorem dispatch_alone :
    Returns t op m (.dispatching d .has_active) (m.perform t (.dispatch d)).1
      (m.perform t (.dispatch d)).2 := by
  refine retire_markers_alone ?_
  unfold Table.perform
  dsimp only
  generalize retire_markers m t.val d.trap_rsp = m
  cases hraw : d.replays with
  | none =>
    refine .done [] ?_
    simp only [thread_step, dispatch_step, remember, hraw]
    rfl
  | some raw =>
    -- `remember_marker` does not return at its first line.
    have hargs : ¬(t.val = 0 ∨ d.trap_rsp = 0 ∨ Dispatch.trap_rip raw = 0) := by
      simp [t.val_ne_zero, d.trap_rsp_ne_zero, trap_rip_ne_zero]
    have hcall : thread_step t op m (.dispatching d .decide)
        = ⟨m, .dispatching d (.reserve raw first),
          [.bridged d.trap_rsp (Dispatch.trap_rip raw)]⟩ := by
      simp only [thread_step, dispatch_step, remember, hraw, if_neg hargs]
    have hslots : ((List.finRange MARKER_CAPACITY).drop first.val).map (probe d.trap_rsp)
        = probe_slots d.trap_rsp := by
      rw [finRange_drop_first]
      rfl
    dsimp only
    cases hfind : (probe_slots d.trap_rsp).find? fun i => (m.markers i).stack = 0 with
    | none =>
      have hremember : remember_marker m t.val d.trap_rsp (Dispatch.trap_rip raw) = (false, m) := by
        simp only [remember_marker, if_neg hargs, hfind]
      rw [← hslots] at hfind
      rw [hremember]
      exact .go _ hcall (reserve_alone raw first hfind)
    | some i =>
      have hremember : remember_marker m t.val d.trap_rsp (Dispatch.trap_rip raw)
          = (true, m.armed i t.val d.trap_rsp (Dispatch.trap_rip raw)) := by
        simp only [remember_marker, if_neg hargs, hfind]
        rfl
      rw [← hslots] at hfind
      rw [hremember]
      exact .go _ hcall (reserve_alone raw first hfind)

end Dispatch

/-! ### `find_marker` -/

theorem find_marker_stack {tid stack rip : UInt64} {i : Index}
    (h : find_marker m tid stack rip = some i) : (m.markers i).stack = stack := by
  unfold find_marker at h
  split at h
  · cases h
  · have hi := List.find?_some h
    rw [decide_eq_true_eq] at hi
    exact hi.1

section Find

variable (stack rip : UInt64) (at_pc : FindPc → Thread)
  (hat : ∀ {pc pc'}, find_step t m stack rip pc = .more pc' →
    thread_step t op m (at_pc pc) = ⟨m, at_pc pc', []⟩)
include hat

/-- `find_marker` from an offset on. -/
theorem find_from_alone (k : Index) {result : Option Index}
    (hresult : (((List.finRange MARKER_CAPACITY).drop k.val).map (probe stack)).find? (fun i =>
      (m.markers i).stack = stack ∧ (m.markers i).tid = t.val ∧ (m.markers i).rip = rip) = result)
    (h : ∀ pc, find_step t m stack rip pc = .done result → Returns t op m (at_pc pc) last m') :
    Returns t op m (at_pc (.stack k)) last m' := by
  rw [finRange_drop, List.map_cons, List.find?_cons] at hresult
  -- Any of the three loads may send the search on to the next offset.
  have hnext : ¬((m.markers (probe stack k)).stack = stack
      ∧ (m.markers (probe stack k)).tid = t.val ∧ (m.markers (probe stack k)).rip = rip) →
      ∀ pc, find_step t m stack rip pc = find_next k → Returns t op m (at_pc pc) last m' := by
    intro hno pc hpc
    simp only [hno, decide_false] at hresult
    unfold find_next at hpc
    by_cases hk : k.val + 1 < MARKER_CAPACITY
    · rw [dif_pos hk] at hpc
      exact .go [] (hat hpc) (find_from_alone ⟨k.val + 1, hk⟩ hresult h)
    · rw [dif_neg hk] at hpc
      rw [finRange_drop_last hk] at hresult
      exact h pc (hpc.trans (congrArg Found.done hresult))
  by_cases hstack : (m.markers (probe stack k)).stack = stack
  · have hload : find_step t m stack rip (.stack k) = .more (.tid k) := by
      simp only [find_step, if_pos hstack]
    refine .go [] (hat hload) ?_
    by_cases htid : (m.markers (probe stack k)).tid = t.val
    · have hload' : find_step t m stack rip (.tid k) = .more (.rip k) := by
        simp only [find_step, if_pos htid]
      refine .go [] (hat hload') ?_
      by_cases hrip : (m.markers (probe stack k)).rip = rip
      · simp only [hstack, htid, hrip, and_self, decide_true] at hresult
        refine h _ ?_
        simp only [find_step, if_pos hrip, hresult]
      · refine hnext (fun hall => hrip hall.2.2) _ ?_
        simp only [find_step, if_neg hrip]
    · refine hnext (fun hall => htid hall.2.1) _ ?_
      simp only [find_step, if_neg htid]
  · refine hnext (fun hall => hstack hall.1) _ ?_
    simp only [find_step, if_neg hstack]
termination_by MARKER_CAPACITY - k.val

theorem find_alone
    (h : ∀ pc, find_step t m stack rip pc = .done (find_marker m t.val stack rip) →
      Returns t op m (at_pc pc) last m') :
    Returns t op m (at_pc .active) last m' := by
  by_cases hactive : m.active = 0
  · refine h _ ?_
    simp [find_step, find_marker, has_active_markers, hactive]
  · have hfind : find_marker m t.val stack rip
        = (probe_slots stack).find? fun i => (m.markers i).stack = stack
          ∧ (m.markers i).tid = t.val ∧ (m.markers i).rip = rip := by
      unfold find_marker has_active_markers
      rw [if_neg (by simp [hactive])]
    have hload : find_step t m stack rip .active = .more (.stack first) := by
      simp only [find_step, if_neg hactive]
    refine .go [] (hat hload) (find_from_alone stack rip at_pc hat first ?_ h)
    rw [finRange_drop_first, hfind]
    rfl

end Find

/-! ### `redirect` -/

section Trap

variable {r : Trap}

/-- `cancel`, and what `redirect` returns then. -/
theorem cancel_alone :
    Returns t op m (.trapping r (.cancel_find .active)) [cancelled r]
      (cancel m t.val r.rsp.val r.rip) := by
  refine find_alone r.rsp.val r.rip (fun pc => .trapping r (.cancel_find pc))
    (fun hstep => ?_) fun pc hpc => ?_
  · simp only [thread_step, trap_step, hstep]
  · unfold cancel
    cases hfind : find_marker m t.val r.rsp.val r.rip with
    | none =>
      rw [hfind] at hpc
      refine .done [] ?_
      simp only [thread_step, trap_step, hpc]
      rfl
    | some i =>
      rw [hfind] at hpc
      have hfound : thread_step t op m (.trapping r (.cancel_find pc))
          = ⟨m, .trapping r (.release i .cas .cancel), []⟩ := by
        simp only [thread_step, trap_step, hpc]
      dsimp only
      rw [release_marker_eq (find_marker_stack hfind)]
      refine .go [] hfound (release_alone (fun pc => .trapping r (.release i pc .cancel))
        (fun hstep => ?_) (find_marker_stack hfind) (.done [.dropped r.rsp.val] rfl))
      simp only [thread_step, trap_step, hstep]

/-- What follows once `consume` has returned `Route`. -/
theorem bridged_alone (h : thread_step t op m th = redirect_bridged m₁ r) :
    Returns t op m th
      (if is_bypass r.context.xmm5 || !r.route then [cancelled r] else [.redirected true])
      (if is_bypass r.context.xmm5 || !r.route then cancel m₁ t.val r.rsp.val r.rip else m₁) := by
  unfold redirect_bridged at h
  dsimp only at h
  split
  · rename_i hcancel
    rw [if_pos hcancel] at h
    exact .go _ h cancel_alone
  · rename_i hroute
    rw [if_neg hroute] at h
    exact .done [_] h

/-- The words are saved one after the other. -/
theorem save_alone {i : Index} (w : Word) (rest : List Word) (k : Marker)
    (hk : ∀ w', w' ∉ w :: rest → k.words w' = r.context.word w')
    (h : ∀ m₁ th, thread_step t op m₁ th
        = redirect_bridged (m.set i { k with words := r.context.word }) r →
      Returns t op m₁ th last m') :
    Returns t op (m.set i k) (.trapping r (.save i w rest)) last m' := by
  have hcopied := copied_word hk
  induction rest generalizing w k with
  | nil =>
    have hall : Function.update k.words w (r.context.word w) = r.context.word :=
      funext fun w' => hcopied w' List.not_mem_nil
    refine h _ _ ?_
    simp only [thread_step, trap_step, Table.set_markers_self, Table.set_set, hall]
  | cons w₁ rest ih =>
    have hstore : thread_step t op (m.set i k) (.trapping r (.save i w (w₁ :: rest)))
        = ⟨m.set i { k with words := Function.update k.words w (r.context.word w) },
          .trapping r (.save i w₁ rest), []⟩ := by
      simp only [thread_step, trap_step, Table.set_markers_self, Table.set_set]
    exact .go [] hstore (ih w₁ _ hcopied h (copied_word hcopied))

/-- And loaded one after the other. -/
theorem load_alone {i : Index} (w : Word) (rest : List Word) (got : Word → UInt64)
    (hgot : ∀ w', w' ∉ w :: rest → got w' = (m.markers i).words w')
    (h : Returns t op m
      (.trapping r (.release i .cas (.replay (.of_words (m.markers i).words)))) last m') :
    Returns t op m (.trapping r (.load i w rest got)) last m' := by
  have hcopied := copied_word hgot
  induction rest generalizing w got with
  | nil =>
    have hall : Function.update got w ((m.markers i).words w) = (m.markers i).words :=
      funext fun w' => hcopied w' List.not_mem_nil
    refine .go [] ?_ h
    simp only [thread_step, trap_step, hall]
  | cons w₁ rest ih =>
    have hload : thread_step t op m (.trapping r (.load i w (w₁ :: rest) got))
        = ⟨m, .trapping r (.load i w₁ rest (Function.update got w ((m.markers i).words w))), []⟩ :=
      rfl
    exact .go [] hload (ih w₁ _ hcopied (copied_word hcopied))

theorem trap_alone (hargs : ¬(t.val = 0 ∨ r.rsp.val = 0 ∨ r.rip = 0)) :
    Returns t op m (.trapping r (.consume_find .active)) (m.perform t (.trap r)).1
      (m.perform t (.trap r)).2 := by
  refine find_alone r.rsp.val r.rip (fun pc => .trapping r (.consume_find pc))
    (fun hstep => ?_) fun pc hpc => ?_
  · simp only [thread_step, trap_step, hstep]
  · unfold Table.perform
    dsimp only
    cases hfind : find_marker m t.val r.rsp.val r.rip with
    | none =>
      have hconsume : consume m t.val r.rsp.val r.rip r.context = (none, m) := by
        simp only [consume, if_neg hargs, hfind]
      rw [hfind] at hpc
      rw [hconsume]
      refine .done [] ?_
      simp only [thread_step, trap_step, hpc, redirect_direct]
      rfl
    | some i =>
      rw [hfind] at hpc
      have hstack := find_marker_stack hfind
      have hfound : thread_step t op m (.trapping r (.consume_find pc))
          = ⟨m, .trapping r (.route i), []⟩ := by
        simp only [thread_step, trap_step, hpc]
      refine .go [] hfound ?_
      by_cases h0 : (m.markers i).phase = 0
      · have hconsume : consume m t.val r.rsp.val r.rip r.context
            = (some .route, m.saving i 1 r.context.word) := by
          simp only [consume, if_neg hargs, hfind, if_pos h0]
          rfl
        have hroute : thread_step t op m (.trapping r (.route i))
            = ⟨m.set i { m.markers i with phase := 1 },
              .trapping r (.save i Word.first_saved Word.saved.tail), []⟩ := by
          simp only [thread_step, trap_step, if_pos h0]
        rw [hconsume]
        exact .go [] hroute (save_alone _ _ _ (fun w' hw' => absurd (Word.mem_saved w') hw')
          fun m₁ th hbridged => bridged_alone hbridged)
      · have hmiss : thread_step t op m (.trapping r (.route i))
            = ⟨m, .trapping r (.replay i), []⟩ := by
          simp only [thread_step, trap_step, if_neg h0]
        refine .go [] hmiss ?_
        by_cases h1 : (m.markers i).phase = 1
        · let m₁ := m.set i { m.markers i with phase := 2 }
          have hkey : (m₁.markers i).stack = r.rsp.val := by
            rw [Table.set_markers_self]
            exact hstack
          have hconsume : consume m t.val r.rsp.val r.rip r.context
              = (some (.replay (.of_words (m₁.markers i).words)), m₁.released i) := by
            simp only [consume, if_neg hargs, hfind, if_neg h0, if_pos h1]
            rw [release_marker_eq hkey, Table.set_markers_self]
          have hreplay : thread_step t op m (.trapping r (.replay i))
              = ⟨m₁, .trapping r (.load i .r11 Word.loaded.tail fun _ => 0), []⟩ := by
            simp only [thread_step, trap_step, if_pos h1]
            rfl
          rw [hconsume]
          refine .go [] hreplay (load_alone _ _ _ (fun w' hw' => absurd (Word.mem_loaded w') hw')
            (release_alone (fun pc => .trapping r (.release i pc (.replay _)))
              (fun hstep => ?_) hkey (.done [] rfl)))
          simp only [thread_step, trap_step, hstep]
        · have hconsume : consume m t.val r.rsp.val r.rip r.context = (none, m.released i) := by
            simp only [consume, if_neg hargs, hfind, if_neg h0, if_neg h1]
            rw [release_marker_eq hstack]
          have hfall : thread_step t op m (.trapping r (.replay i))
              = ⟨m, .trapping r (.release i .cas .fall_through),
                [.fell_through r.rsp.val r.rip]⟩ := by
            simp only [thread_step, trap_step, if_neg h1]
          rw [hconsume]
          refine .go _ hfall (release_alone (fun pc => .trapping r (.release i pc .fall_through))
            (fun hstep => ?_) hstack (.done [] rfl))
          simp only [thread_step, trap_step, hstep]

end Trap

end Alone

/-- **The two models agree.** A call during which no other thread moves returns, and leaves the
table that is computed in one go. -/
theorem call_alone (t : Tid) (op : Op) (m : Table) :
    Returns t op m .idle (m.perform t op).1 (m.perform t op).2 := by
  cases op with
  | dispatch d => exact .go [.entered d.trap_rsp] rfl dispatch_alone
  | trap r =>
    by_cases hargs : t.val = 0 ∨ r.rsp.val = 0 ∨ r.rip = 0
    · have hconsume : consume m t.val r.rsp.val r.rip r.context = (none, m) := by
        simp only [consume, if_pos hargs]
      unfold Table.perform
      dsimp only
      rw [hconsume]
      refine .done [.trapped r.rsp.val r.rip] ?_
      simp only [thread_step, enter, if_pos hargs, redirect_direct]
      rfl
    · refine .go [.trapped r.rsp.val r.rip] ?_ (trap_alone hargs)
      simp only [thread_step, enter, if_neg hargs]
  | returned stack => exact .done [] rfl
  | exited => exact .done [] rfl

end Linuwux.Markers
