/-
`MarkerCalls.lean` -- the functions of `runtime/src/syscall/reflex_markers.rs`, one call at a
time.

`MarkerThreads.lean` has the same code one atomic access at a time, for what threads can do to
each other. Here a call runs from start to end, on a table that other threads may have left in
the middle of theirs ([`Table.Ok`]): slots can be reserved, and `ACTIVE_MARKERS` can count more
than the markers there are, but no thread has two markers at one depth. Every function keeps
that, and for each one lemma says what it does to the markers.
-/
import Linuwux.MarkerTable
import Mathlib.Data.Fintype.Card
import Mathlib.Data.List.FinRange

set_option autoImplicit false

namespace Linuwux.Markers

/-! ## The functions -/

inductive Phase where
  | route
  | replay (saved : SavedContext)
  deriving DecidableEq

def has_active_markers (m : Table) : Bool := m.active ≠ 0

def probe_slots (stack : UInt64) : List Index := (List.finRange MARKER_CAPACITY).map (probe stack)

def find_marker (m : Table) (tid stack rip : UInt64) : Option Index :=
  if !has_active_markers m then none
  else
    (probe_slots stack).find? fun i =>
      (m.markers i).stack = stack ∧ (m.markers i).tid = tid ∧ (m.markers i).rip = rip

def remember_marker (m : Table) (tid stack rip : UInt64) : Bool × Table :=
  if tid = 0 ∨ stack = 0 ∨ rip = 0 then (false, m)
  else
    match (probe_slots stack).find? fun i => (m.markers i).stack = 0 with
    | none => (false, m)
    | some i =>
      (true, { m.set i { m.markers i with stack, tid, rip, phase := 0 } with
        active := m.active + 1 })

def release_marker (m : Table) (index : Index) (stack : UInt64) : Table :=
  if (m.markers index).stack ≠ stack then m
  else { m.set index .empty with active := m.active - 1 }

/-- The loop of `retire_markers` at one index. -/
def retire_marker (tid stack : UInt64) (m : Table) (index : Index) : Table :=
  if (m.markers index).tid ≠ tid then m
  else
    let recorded := (m.markers index).stack
    if recorded = 0 ∨ recorded = U64_MAX ∨ recorded > stack ∨ (m.markers index).tid ≠ tid then m
    else release_marker m index recorded

def retire_markers (m : Table) (tid stack : UInt64) : Table :=
  if tid = 0 ∨ !has_active_markers m then m
  else (List.finRange MARKER_CAPACITY).foldl (retire_marker tid stack) m

def consume (m : Table) (tid stack rip : UInt64) (context : SavedContext) :
    Option Phase × Table :=
  if tid = 0 ∨ stack = 0 ∨ rip = 0 then (none, m)
  else
    match find_marker m tid stack rip with
    | none => (none, m)
    | some i =>
      if (m.markers i).phase = 0 then
        (some .route, m.set i { m.markers i with phase := 1, words := context.word })
      else if (m.markers i).phase = 1 then
        let saved := SavedContext.of_words (m.markers i).words
        let m := m.set i { m.markers i with phase := 2 }
        (some (.replay saved), release_marker m i stack)
      else (none, release_marker m i stack)

def cancel (m : Table) (tid stack rip : UInt64) : Table :=
  match find_marker m tid stack rip with
  | none => m
  | some i => release_marker m i stack

/-! ## The table between two calls of a thread -/

/-- The slots with a marker. -/
def Table.published (m : Table) : Finset Index := {i | (m.markers i).published}

structure Table.Ok (m : Table) : Prop where
  /-- A marker has a thread and an instruction. -/
  named : ∀ i, (m.markers i).published → (m.markers i).tid ≠ 0 ∧ (m.markers i).rip ≠ 0
  /-- A thread has one marker at a depth. -/
  unique : ∀ i j, (m.markers i).published → (m.markers i).stack = (m.markers j).stack →
    (m.markers i).tid = (m.markers j).tid → i = j
  /-- The markers are counted, and so are calls of other threads that are under way. There are
  fewer of those than slots and thread ids together. -/
  counted : ∃ pending ≤ 0x80000100, m.active.toNat = m.published.card + pending

/-- The thread is in none of the functions: no reserved slot names it. -/
def Table.Idle (m : Table) (tid : UInt64) : Prop :=
  ∀ i, (m.markers i).stack = U64_MAX → (m.markers i).tid ≠ tid

/-- The marker of thread `tid` at `index`. -/
def Table.marker_of (m : Table) (tid : UInt64) (index : Index) : Option Marker :=
  if (m.markers index).published ∧ (m.markers index).tid = tid then some (m.markers index)
  else none

/-- There is a marker for this thread, depth and instruction at `index`. -/
def Table.Matches (m : Table) (tid stack rip : UInt64) (index : Index) : Prop :=
  (m.markers index).published ∧ (m.markers index).stack = stack ∧ (m.markers index).tid = tid
    ∧ (m.markers index).rip = rip

theorem Table.mem_published {m : Table} {i : Index} :
    i ∈ m.published ↔ (m.markers i).published := by
  simp [Table.published]

/-- The empty table is in order. -/
theorem ok_new : Table.new.Ok where
  named i h := absurd rfl h.1
  unique i j h := absurd rfl h.1
  counted := by
    have hempty : Table.new.published = ∅ :=
      Finset.eq_empty_of_forall_notMem fun i hi => (Table.mem_published.mp hi).1 rfl
    rw [hempty]
    exact ⟨0, by decide, rfl⟩

theorem idle_new (tid : UInt64) : Table.new.Idle tid :=
  fun i h => absurd h (by decide : (0 : UInt64) ≠ U64_MAX)

/-- The probe sequence of a depth goes through the whole table. -/
theorem mem_probe_slots (stack : UInt64) (i : Index) : i ∈ probe_slots stack := by
  obtain ⟨offset, rfl⟩ := probe_surjective stack i
  exact List.mem_map.mpr ⟨offset, List.mem_finRange _, rfl⟩

/-- Where there is a marker the counter is not zero, so that `find_marker` looks for it. -/
theorem Table.Ok.active_ne_zero {m : Table} (h : m.Ok) {i : Index}
    (hi : (m.markers i).published) : m.active ≠ 0 := by
  intro h0
  obtain ⟨pending, -, hcard⟩ := h.counted
  have hpos : 0 < m.published.card := Finset.card_pos.mpr ⟨i, Table.mem_published.mpr hi⟩
  rw [h0] at hcard
  change 0 = _ at hcard
  omega

/-- There are no more markers than slots. -/
theorem Table.card_published_le (m : Table) : m.published.card ≤ MARKER_CAPACITY :=
  (Finset.card_le_univ _).trans_eq (Fintype.card_fin _)

/-! ## Release -/

/-- The table without the marker at an index. -/
def Table.released (m : Table) (i : Index) : Table :=
  { m.set i .empty with active := m.active - 1 }

theorem Table.released_markers (m : Table) (i j : Index) :
    (m.released i).markers j = if j = i then .empty else m.markers j :=
  m.set_markers i j .empty

theorem Table.released_published {m : Table} {i j : Index}
    (hj : ((m.released i).markers j).published) :
    j ≠ i ∧ (m.released i).markers j = m.markers j := by
  rw [m.released_markers] at hj ⊢
  split at hj
  · exact absurd rfl hj.1
  · rename_i hji
    exact ⟨hji, if_neg hji⟩

/-- Giving up a marker keeps the table in order: it is no longer counted either. -/
theorem Table.Ok.released {m : Table} (h : m.Ok) {i : Index} (hi : (m.markers i).published) :
    (m.released i).Ok := by
  have hpublished : (m.released i).published = m.published.erase i := by
    ext j
    rw [Finset.mem_erase, Table.mem_published, Table.mem_published]
    constructor
    · intro hj
      obtain ⟨hji, heq⟩ := Table.released_published hj
      exact ⟨hji, heq ▸ hj⟩
    · rintro ⟨hji, hj⟩
      rwa [m.released_markers, if_neg hji]
  refine ⟨fun j hj => ?_, fun j k hj hst htid => ?_, ?_⟩
  · obtain ⟨-, heq⟩ := Table.released_published hj
    rw [heq] at hj ⊢
    exact h.named j hj
  · have hk : ((m.released i).markers k).published := by
      unfold Marker.published at hj ⊢
      rwa [← hst]
    obtain ⟨-, heq⟩ := Table.released_published hj
    rw [heq] at hj hst htid
    rw [(Table.released_published hk).2] at hst htid
    exact h.unique j k hj hst htid
  · obtain ⟨pending, hpending, hcount⟩ := h.counted
    have hmem := Table.mem_published.mpr hi
    -- The marker is counted, so the subtraction does not wrap.
    have hpos : 0 < m.published.card := Finset.card_pos.mpr ⟨i, hmem⟩
    have hone : 1 ≤ m.active := by
      rw [UInt32.le_iff_toNat_le, hcount]
      exact Nat.le_add_right_of_le hpos
    refine ⟨pending, hpending, ?_⟩
    rw [hpublished, Finset.card_erase_of_mem hmem]
    change (m.active - 1).toNat = _
    rw [UInt32.toNat_sub_of_le _ _ hone, hcount]
    change _ + _ - 1 = _
    omega

/-- A release whose depth matches empties the slot. -/
theorem release_marker_eq {m : Table} {i : Index} {stack : UInt64}
    (h : (m.markers i).stack = stack) : release_marker m i stack = m.released i :=
  if_neg (not_not.mpr h)

/-! ## `retire_markers` -/

/-- `retire_markers` drops this marker. -/
def Marker.Retired (k : Marker) (tid stack : UInt64) : Prop :=
  k.published ∧ k.tid = tid ∧ k.stack ≤ stack

instance (k : Marker) (tid stack : UInt64) : Decidable (k.Retired tid stack) :=
  inferInstanceAs (Decidable (_ ∧ _ ∧ _))

/-- One turn of the loop empties the slot if the marker is below the depth. -/
theorem retire_marker_eq (m : Table) (tid stack : UInt64) (i : Index) :
    retire_marker tid stack m i
      = if (m.markers i).Retired tid stack then m.released i else m := by
  unfold retire_marker
  by_cases htid : (m.markers i).tid = tid
  · rw [if_neg (not_not.mpr htid)]
    dsimp only
    split
    · rename_i hout
      rw [if_neg]
      rintro ⟨hp, -, hle⟩
      rcases hout with hz | hmax | hgt | ht
      · exact hp.1 hz
      · exact hp.2 hmax
      · exact absurd hle (UInt64.not_le.mpr hgt)
      · exact ht htid
    · rename_i hin
      obtain ⟨h0, hmax, hle, -⟩ : (m.markers i).stack ≠ 0 ∧ (m.markers i).stack ≠ U64_MAX
          ∧ ¬(m.markers i).stack > stack ∧ _ := by
        simpa only [not_or] using hin
      rw [if_pos ⟨⟨h0, hmax⟩, htid, UInt64.not_lt.mp hle⟩, release_marker_eq rfl]
  · rw [if_pos htid, if_neg fun hr => htid hr.2.1]

section Retire

variable {m : Table} (h : m.Ok) (tid stack : UInt64)
include h

/-- The loop drops the markers it comes by, each on its own. -/
theorem Table.Ok.retire_loop (l : List Index) :
    (l.foldl (Markers.retire_marker tid stack) m).Ok
      ∧ ∀ j, (l.foldl (Markers.retire_marker tid stack) m).markers j
        = if j ∈ l ∧ (m.markers j).Retired tid stack then .empty else m.markers j := by
  induction l generalizing m with
  | nil => exact ⟨h, fun j => by simp⟩
  | cons i l ih =>
    rw [List.foldl_cons, retire_marker_eq]
    by_cases hi : (m.markers i).Retired tid stack
    · rw [if_pos hi]
      obtain ⟨hok, hat⟩ := ih (h.released hi.1)
      refine ⟨hok, fun j => ?_⟩
      rw [hat j, m.released_markers]
      by_cases hj : j = i
      · subst hj
        rw [if_pos rfl, ite_self, if_pos ⟨List.mem_cons_self, hi⟩]
      · rw [if_neg hj]
        simp only [List.mem_cons, hj, false_or]
    · rw [if_neg hi]
      obtain ⟨hok, hat⟩ := ih h
      refine ⟨hok, fun j => ?_⟩
      rw [hat j]
      by_cases hj : j = i
      · subst hj
        rw [if_neg fun hr => hi hr.2, if_neg fun hr => hi hr.2]
      · simp only [List.mem_cons, hj, false_or]

/-- The whole loop empties just the slots with a retired marker. -/
theorem Table.Ok.retire_markers :
    (Markers.retire_markers m tid stack).Ok
      ∧ ∀ j, (Markers.retire_markers m tid stack).markers j
        = if (m.markers j).Retired tid stack then .empty else m.markers j := by
  unfold Markers.retire_markers
  split
  · rename_i hout
    refine ⟨h, fun j => (if_neg ?_).symm⟩
    rintro ⟨hp, htid, -⟩
    rcases hout with rfl | hactive
    · exact (h.named j hp).1 htid
    · -- A table with no active marker has nothing to retire.
      have hne := h.active_ne_zero hp
      simp [has_active_markers, hne] at hactive
  · obtain ⟨hok, hat⟩ := h.retire_loop tid stack (List.finRange MARKER_CAPACITY)
    refine ⟨hok, fun j => ?_⟩
    rw [hat j]
    simp only [List.mem_finRange, true_and]

end Retire

/-! ## `remember_marker` -/

/-- The table with a marker armed at an index. -/
def Table.armed (m : Table) (i : Index) (tid stack rip : UInt64) : Table :=
  { m.set i { m.markers i with stack, tid, rip, phase := 0 } with active := m.active + 1 }

theorem Table.armed_markers (m : Table) (i j : Index) (tid stack rip : UInt64) :
    (m.armed i tid stack rip).markers j
      = if j = i then { m.markers i with stack, tid, rip, phase := 0 } else m.markers j :=
  m.set_markers i j _

/-- Publishing a marker leaves no slot reserved. -/
theorem Table.Idle.armed {m : Table} {u : UInt64} (h : m.Idle u) (i : Index)
    {tid stack rip : UInt64} (hmax : stack ≠ U64_MAX) : (m.armed i tid stack rip).Idle u := by
  intro j hj
  rw [m.armed_markers] at hj ⊢
  split at hj
  · exact absurd hj hmax
  · rename_i hji
    rw [if_neg hji]
    exact h j hj

section Remember

variable {m : Table} (h : m.Ok) {tid stack rip : UInt64}
include h

/-- Arming a free slot keeps the table in order, if the thread has no marker at the depth yet. -/
theorem Table.Ok.armed {i : Index} (hfree : (m.markers i).stack = 0) (htid : tid ≠ 0)
    (hst : stack ≠ 0) (hmax : stack ≠ U64_MAX) (hrip : rip ≠ 0)
    (hgone : ∀ j, (m.markers j).stack = stack → (m.markers j).tid ≠ tid) :
    (m.armed i tid stack rip).Ok := by
  have hmarker := fun j => m.armed_markers i j tid stack rip
  have hpublished : (m.armed i tid stack rip).published = insert i m.published := by
    ext j
    rw [Finset.mem_insert, Table.mem_published, Table.mem_published, hmarker]
    by_cases hj : j = i
    · rw [if_pos hj]
      exact ⟨fun _ => Or.inl hj, fun _ => ⟨hst, hmax⟩⟩
    · rw [if_neg hj]
      exact ⟨Or.inr, fun hp => hp.resolve_left hj⟩
  have hnew : i ∉ m.published := fun hi => (Table.mem_published.mp hi).1 hfree
  refine ⟨fun j hj => ?_, fun j k hj hstack htid' => ?_, ?_⟩
  · rw [hmarker] at hj ⊢
    split
    · exact ⟨htid, hrip⟩
    · rename_i hji
      rw [if_neg hji] at hj
      exact h.named j hj
  · -- The thread had no marker at this depth, so the new one is alone there.
    rw [hmarker] at hj hstack htid'
    rw [hmarker] at hstack htid'
    by_cases hji : j = i
    · by_cases hki : k = i
      · rw [hji, hki]
      · rw [if_pos hji, if_neg hki] at hstack htid'
        exact absurd htid'.symm (hgone k hstack.symm)
    · rw [if_neg hji] at hj hstack htid'
      by_cases hki : k = i
      · rw [if_pos hki] at hstack htid'
        exact absurd htid' (hgone j hstack)
      · rw [if_neg hki] at hstack htid'
        exact h.unique j k hj hstack htid'
  · obtain ⟨pending, hpending, hcount⟩ := h.counted
    have hle := (m.armed i tid stack rip).card_published_le
    refine ⟨pending, hpending, ?_⟩
    rw [hpublished, Finset.card_insert_of_notMem hnew] at hle ⊢
    change (m.active + 1).toNat = _
    rw [UInt32.toNat_add, hcount]
    -- At most 256 markers and the calls under way: far from wrapping.
    change (_ + 1) % 0x100000000 = _
    simp only [MARKER_CAPACITY] at hle
    omega

/-- `remember_marker` arms a free slot, if there is one. -/
theorem Table.Ok.remember_marker (htid : tid ≠ 0) (hst : stack ≠ 0) (hmax : stack ≠ U64_MAX)
    (hrip : rip ≠ 0) (hgone : ∀ j, (m.markers j).stack = stack → (m.markers j).tid ≠ tid) :
    ((∀ i, (m.markers i).stack ≠ 0) ∧ Markers.remember_marker m tid stack rip = (false, m))
      ∨ ∃ i, (m.markers i).stack = 0
        ∧ Markers.remember_marker m tid stack rip = (true, m.armed i tid stack rip)
        ∧ (m.armed i tid stack rip).Ok := by
  unfold Markers.remember_marker
  rw [if_neg (by simp [htid, hst, hrip])]
  cases hfind : (probe_slots stack).find? fun i => (m.markers i).stack = 0 with
  | none =>
    refine Or.inl ⟨fun i h0 => ?_, rfl⟩
    exact List.find?_eq_none.mp hfind i (mem_probe_slots stack i) (by simpa using h0)
  | some i =>
    have hfree : (m.markers i).stack = 0 := by simpa using List.find?_some hfind
    exact Or.inr ⟨i, hfree, rfl, h.armed hfree htid hst hmax hrip hgone⟩

end Remember

/-! ## `find_marker`, `cancel` and `consume` -/

section Find

variable {m : Table} (h : m.Ok) {tid stack rip : UInt64}
include h

/-- A thread, a depth and an instruction have one marker. -/
theorem Table.Ok.matches_unique {i j : Index} (hi : m.Matches tid stack rip i)
    (hj : m.Matches tid stack rip j) : i = j :=
  h.unique i j hi.1 (hi.2.1.trans hj.2.1.symm) (hi.2.2.1.trans hj.2.2.1.symm)

/-- A reserved slot is not taken for a marker: it does not name the thread. -/
theorem Table.Ok.find_marker (hidle : m.Idle tid) (hst : stack ≠ 0) {i : Index} :
    Markers.find_marker m tid stack rip = some i ↔ m.Matches tid stack rip i := by
  have hpublished : ∀ j, (m.markers j).stack = stack → (m.markers j).tid = tid →
      (m.markers j).published := fun j hstack htid =>
    ⟨by rwa [hstack], fun hmax => hidle j hmax htid⟩
  unfold Markers.find_marker
  constructor
  · intro hfind
    split at hfind
    · cases hfind
    · have hi := List.find?_some hfind
      rw [decide_eq_true_eq] at hi
      exact ⟨hpublished i hi.1 hi.2.1, hi⟩
  · intro hi
    have hactive := h.active_ne_zero hi.1
    rw [if_neg (by simp [has_active_markers, hactive])]
    have hsome : ((probe_slots stack).find? fun i => (m.markers i).stack = stack
        ∧ (m.markers i).tid = tid ∧ (m.markers i).rip = rip).isSome := by
      rw [List.find?_isSome]
      exact ⟨i, mem_probe_slots stack i, decide_eq_true hi.2⟩
    -- The probe stops at the first match, and there is only one.
    obtain ⟨j, hj⟩ := Option.isSome_iff_exists.mp hsome
    have hmatch := List.find?_some hj
    rw [decide_eq_true_eq] at hmatch
    rw [hj, h.matches_unique ⟨hpublished j hmatch.1 hmatch.2.1, hmatch⟩ hi]

/-- Nothing is found where there is no marker. -/
theorem Table.Ok.find_marker_none (hidle : m.Idle tid) (hst : stack ≠ 0)
    (hnone : ∀ i, ¬m.Matches tid stack rip i) : Markers.find_marker m tid stack rip = none := by
  cases hfind : Markers.find_marker m tid stack rip with
  | none => rfl
  | some i => exact absurd ((h.find_marker hidle hst).mp hfind) (hnone i)

omit h in
theorem Table.Matches.stack_ne_zero {i : Index} (hi : m.Matches tid stack rip i) : stack ≠ 0 := by
  rw [← hi.2.1]
  exact hi.1.1

/-- Releasing the marker leaves none for the key. -/
theorem Table.Ok.released_not_matches {i : Index} (hi : m.Matches tid stack rip i) (j : Index) :
    ¬(m.released i).Matches tid stack rip j := by
  intro hj
  obtain ⟨hji, heq⟩ := Table.released_published hj.1
  unfold Table.Matches at hj
  rw [heq] at hj
  exact hji (h.matches_unique hj hi)

/-- To cancel is to find the marker and give it up. -/
theorem Table.Ok.cancel (hidle : m.Idle tid) {i : Index} (hi : m.Matches tid stack rip i) :
    Markers.cancel m tid stack rip = m.released i := by
  unfold Markers.cancel
  rw [(h.find_marker hidle hi.stack_ne_zero).mpr hi]
  exact release_marker_eq hi.2.1

end Find

/-! ### `consume` -/

/-- The marker at an index with its phase and saved words changed. -/
def Table.saving (m : Table) (i : Index) (phase : UInt64) (words : Word → UInt64) : Table :=
  m.set i { m.markers i with phase, words }

theorem Table.saving_markers (m : Table) (i j : Index) (phase : UInt64) (words : Word → UInt64) :
    (m.saving i phase words).markers j
      = if j = i then { m.markers i with phase, words } else m.markers j :=
  m.set_markers i j _

/-- Saving registers leaves the key of every marker alone. -/
theorem Table.saving_key (m : Table) (i j : Index) (phase : UInt64) (words : Word → UInt64) :
    ((m.saving i phase words).markers j).stack = (m.markers j).stack
      ∧ ((m.saving i phase words).markers j).tid = (m.markers j).tid
      ∧ ((m.saving i phase words).markers j).rip = (m.markers j).rip := by
  rw [m.saving_markers]
  split
  · rename_i h
    rw [h]
    exact ⟨rfl, rfl, rfl⟩
  · exact ⟨rfl, rfl, rfl⟩

theorem Table.saving_released (m : Table) (i : Index) (phase : UInt64) (words : Word → UInt64) :
    (m.saving i phase words).released i = m.released i := by
  unfold Table.released Table.saving
  rw [Table.set_set]
  rfl

theorem Table.saving_published {m : Table} {i j : Index} {phase : UInt64}
    {words : Word → UInt64} :
    ((m.saving i phase words).markers j).published ↔ (m.markers j).published := by
  unfold Marker.published
  rw [(m.saving_key i j phase words).1]

/-- Saving registers keeps the table in order. -/
theorem Table.Ok.saving {m : Table} (h : m.Ok) (i : Index) (phase : UInt64)
    (words : Word → UInt64) : (m.saving i phase words).Ok := by
  have hkey := fun j => m.saving_key i j phase words
  refine ⟨fun j hj => ?_, fun j k hj hst htid => ?_, ?_⟩
  · rw [(hkey j).2.1, (hkey j).2.2]
    exact h.named j (Table.saving_published.mp hj)
  · rw [(hkey j).1, (hkey k).1] at hst
    rw [(hkey j).2.1, (hkey k).2.1] at htid
    exact h.unique j k (Table.saving_published.mp hj) hst htid
  · have hpublished : (m.saving i phase words).published = m.published := by
      ext j
      rw [Table.mem_published, Table.mem_published, Table.saving_published]
    rw [hpublished]
    exact h.counted

theorem Table.Idle.saving {m : Table} {tid : UInt64} (h : m.Idle tid) (i : Index)
    (phase : UInt64) (words : Word → UInt64) : (m.saving i phase words).Idle tid := by
  intro j hmax
  obtain ⟨hst, htid, -⟩ := m.saving_key i j phase words
  rw [hst] at hmax
  rw [htid]
  exact h j hmax

theorem Table.saving_matches {m : Table} {tid stack rip : UInt64} {i j : Index} {phase : UInt64}
    {words : Word → UInt64} :
    (m.saving i phase words).Matches tid stack rip j ↔ m.Matches tid stack rip j := by
  obtain ⟨hst, htid, hrip⟩ := m.saving_key i j phase words
  unfold Table.Matches
  rw [Table.saving_published, hst, htid, hrip]

section Consume

variable {m : Table} (h : m.Ok) {tid stack rip : UInt64} (hidle : m.Idle tid)
  (context : SavedContext)
include h hidle

/-- Without a marker a trap is not one of a bridged call. -/
theorem Table.Ok.consume_none (hnone : ∀ i, ¬m.Matches tid stack rip i) :
    Markers.consume m tid stack rip context = (none, m) := by
  unfold Markers.consume
  split
  · rfl
  · rename_i hz
    obtain ⟨-, hst, -⟩ : tid ≠ 0 ∧ stack ≠ 0 ∧ rip ≠ 0 := by simpa only [not_or] using hz
    rw [h.find_marker_none hidle hst hnone]

/-- A marker is saved to and kept in phase 0, and released in any other. -/
theorem Table.Ok.consume {i : Index} (hi : m.Matches tid stack rip i) :
    Markers.consume m tid stack rip context
      = if (m.markers i).phase = 0 then (some .route, m.saving i 1 context.word)
        else if (m.markers i).phase = 1 then
          (some (.replay (.of_words (m.markers i).words)), m.released i)
        else (none, m.released i) := by
  have hst := hi.stack_ne_zero
  have hfind := (h.find_marker hidle hst).mpr hi
  obtain ⟨hp, hstack, htid, hrip⟩ := hi
  have hnamed := h.named i hp
  rw [htid, hrip] at hnamed
  -- A replayed marker goes through phase 2 on its way out; the released slot does not show it.
  have hrelease := m.saving_released i 2 (m.markers i).words
  unfold Markers.consume
  rw [if_neg (by simp [hnamed, hst]), hfind]
  dsimp only
  split
  · rfl
  · split
    · have hkey := (m.saving_key i i 2 (m.markers i).words).1.trans hstack
      exact congrArg (Prod.mk _) ((release_marker_eq hkey).trans hrelease)
    · rw [release_marker_eq hstack]

end Consume

end Linuwux.Markers
