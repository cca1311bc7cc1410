/-
`FreeGuard.lean` -- `malloc_inner` and `free_inner` of `hooks.rs` in any number of threads.

The guard is there for one bug of `win32u`: the same pointer reaches `free()` twice with no
allocation in between. A free by `win32u` marks the pointer in the history of
[`PendingFrees`], a `malloc` by `win32u` consumes the mark of the block it got, and a free of a
marked pointer is dropped.

A call is one step up to the call into the allocator or into the history that other threads can
see, and one step from there to its end: `malloc_inner` is the real `malloc` and then the
`consume_if_pending`, `free_inner` is the `seen_or_mark` and then the real `free`. The history is
only touched under `LOCK`, so each use of it is within one step. The allocator is whatever never
hands out a block that is live: which block it returns is the scheduler's choice, and a block it
may not return stands for a failed allocation.
-/
import Linuwux.Threads
import Linuwux.PendingFrees

set_option autoImplicit false

namespace Linuwux.FreeGuard

open Threads (Outcome Program Config Follows)
open PendingFrees (History CAPACITY)

/-! ## The bootstrap pool -/

def BOOTSTRAP_POOL_SIZE : UInt64 := 0x10000

/-- `bootstrap_alloc` on a pool that starts at `pool`: the pointer, and the offset that
`fetch_add` leaves. -/
def bootstrap_alloc (pool offset size : UInt64) : UInt64 × UInt64 :=
  let ALIGN : UInt64 := 16
  let aligned := (max size 1 + ALIGN - 1) &&& ~~~(ALIGN - 1)
  (if offset + aligned > BOOTSTRAP_POOL_SIZE then 0 else pool + offset, offset + aligned)

def is_bootstrap_ptr (pool candidate : UInt64) : Bool :=
  candidate ≥ pool && candidate < pool + BOOTSTRAP_POOL_SIZE

/-! ## The calls -/

/-- What does not change while the calls run: which symbols are resolved, the two flags, and the
address of the pool. -/
structure Env where
  REAL_MALLOC : Bool
  REAL_FREE : Bool
  WIN32U_FREE_GUARD_ENABLED : Bool
  game_process : Bool
  BOOTSTRAP_POOL : UInt64

/-- The guard enabled. `linuwux_setup_hooks` resolves the two symbols before it stores the flag. -/
def Env.guarding (pool : UInt64) : Env := ⟨true, true, true, true, pool⟩

/-- Whether a call goes through the guard. -/
def Env.guarded (env : Env) (win32u : Bool) : Bool :=
  env.WIN32U_FREE_GUARD_ENABLED && env.game_process && win32u

/-- The shared state, with the allocator's live blocks. -/
structure Mem where
  HISTORY : History
  BOOTSTRAP_OFFSET : UInt64
  live : UInt64 → Bool

/-- What a step shows: a block the allocator returned, the return of `malloc_inner` with it, a
`seen_or_mark` and its answer, a pointer given to the real `free`. -/
inductive Event where
  | allocated (block : UInt64) (guarded : Bool)
  | returned (block : UInt64) (guarded : Bool)
  | checked (ptr : UInt64) (seen : Bool)
  | released (ptr : UInt64)
  deriving DecidableEq, Repr

/-- A thread between calls, or between the two steps of one. A thread that panicked or spins in
`find` is `stuck`. -/
inductive Thread where
  | idle
  | allocated (block : UInt64) (guarded : Bool)
  | freeing (ptr : UInt64) (guarded : Bool)
  | stuck
  deriving DecidableEq, Repr

/-- The call an idle thread makes, and the block the allocator returns. -/
inductive Choice where
  | malloc (size block : UInt64) (win32u : Bool)
  | free (ptr : UInt64) (win32u : Bool)
  deriving DecidableEq, Repr

/-- The turns `find` may take; more than there are entries. -/
def TURNS : ℕ := CAPACITY + 1

/-- `pending_frees::consume_if_pending`. -/
def consume_if_pending (h : History) (ptr : UInt64) : Option (Bool × History) :=
  if ptr = 0 then some (false, h) else h.consume TURNS ptr

/-- `pending_frees::seen_or_mark`. -/
def seen_or_mark (h : History) (ptr : UInt64) : Option (Bool × History) :=
  if ptr = 0 then some (false, h) else h.seen_or_mark TURNS ptr

/-- The allocator returns the block if it may: not a live one, and none of the pool's memory. -/
def real_malloc (env : Env) (m : Mem) (block : UInt64) : UInt64 :=
  if m.live block || is_bootstrap_ptr env.BOOTSTRAP_POOL block then 0 else block

def Mem.allocate (m : Mem) (block : UInt64) : Mem :=
  if block = 0 then m else { m with live := Function.update m.live block true }

@[simp] theorem Mem.allocate_history (m : Mem) (block : UInt64) :
    (m.allocate block).HISTORY = m.HISTORY := by
  unfold Mem.allocate
  split <;> rfl

/-- An allocation makes its block live. -/
theorem Mem.allocate_live {m : Mem} {block ptr : UInt64} :
    (m.allocate block).live ptr = true ↔ m.live ptr = true ∨ ptr = block ∧ block ≠ 0 := by
  unfold Mem.allocate
  by_cases hb : block = 0
  · simp [hb]
  · simp only [hb, if_false, Function.update_apply, ne_eq, not_false_eq_true, and_true]
    by_cases hp : ptr = block
    · simp [hp]
    · simp [hp]

/-- The allocator gives out nothing of the bootstrap pool. -/
theorem real_malloc_not_bootstrap {env : Env} {m : Mem} {block : UInt64}
    (h : real_malloc env m block ≠ 0) :
    is_bootstrap_ptr env.BOOTSTRAP_POOL (real_malloc env m block) = false := by
  unfold real_malloc at h ⊢
  split
  · rename_i hno
    rw [if_pos hno] at h
    exact absurd rfl h
  · rename_i hno
    rw [Bool.or_eq_true, not_or, Bool.not_eq_true, Bool.not_eq_true] at hno
    exact hno.2

/-- `malloc_inner` up to the return of the real `malloc`. -/
def malloc_inner (env : Env) (m : Mem) (size block : UInt64) (win32u : Bool) :
    Outcome Mem Thread Event :=
  if env.REAL_MALLOC then
    ⟨m.allocate (real_malloc env m block),
      .allocated (real_malloc env m block) (env.guarded win32u),
      [.allocated (real_malloc env m block) (env.guarded win32u)]⟩
  else
    ⟨{ m with BOOTSTRAP_OFFSET := (bootstrap_alloc env.BOOTSTRAP_POOL m.BOOTSTRAP_OFFSET size).2 },
      .idle, []⟩

/-- The rest of `malloc_inner`. -/
def malloc_return (m : Mem) (block : UInt64) (guarded : Bool) : Outcome Mem Thread Event :=
  if guarded then
    match consume_if_pending m.HISTORY block with
    | some (_, h) => ⟨{ m with HISTORY := h }, .idle, [.returned block true]⟩
    | none => ⟨m, .stuck, []⟩
  else ⟨m, .idle, [.returned block false]⟩

/-- `free_inner` up to the call of the real `free`. -/
def free_inner (env : Env) (m : Mem) (ptr : UInt64) (win32u : Bool) : Outcome Mem Thread Event :=
  if is_bootstrap_ptr env.BOOTSTRAP_POOL ptr then ⟨m, .idle, []⟩
  else if !env.REAL_FREE then ⟨m, .idle, []⟩
  else if env.guarded win32u && ptr != 0 then
    match seen_or_mark m.HISTORY ptr with
    | some (true, h) => ⟨{ m with HISTORY := h }, .idle, [.checked ptr true]⟩
    | some (false, h) => ⟨{ m with HISTORY := h }, .freeing ptr true, [.checked ptr false]⟩
    | none => ⟨m, .stuck, []⟩
  else ⟨m, .freeing ptr false, []⟩

/-- The real `free`. -/
def real_free (m : Mem) (ptr : UInt64) : Outcome Mem Thread Event :=
  ⟨{ m with live := Function.update m.live ptr false }, .idle, [.released ptr]⟩

/-- One step of a thread. -/
def thread_step (env : Env) (a : Choice) (m : Mem) : Thread → Outcome Mem Thread Event
  | .idle =>
    match a with
    | .malloc size block win32u => malloc_inner env m size block win32u
    | .free ptr win32u => free_inner env m ptr win32u
  | .allocated block guarded => malloc_return m block guarded
  | .freeing ptr _ => real_free m ptr
  | .stuck => ⟨m, .stuck, []⟩

/-- The program every thread runs with the guard enabled. -/
def program (T : Type*) (pool : UInt64) : Program T Choice Mem Thread Event :=
  fun _ => thread_step (.guarding pool)

/-- Nothing allocated, nothing freed, and no call under way. -/
def start (T : Type*) : Config T Mem Thread := ⟨⟨.new, 0, fun _ => false⟩, fun _ => .idle⟩

/-! ## What a step can do -/

/-- Where a step leaves its thread and what it shows. -/
inductive Moves (pool : UInt64) : Thread → Thread → List Event → Prop
  | ended {l : Thread} (h : ∀ ptr guarded, l ≠ .freeing ptr guarded) : Moves pool l .idle []
  | stuck {l : Thread} (h : ∀ ptr guarded, l ≠ .freeing ptr guarded) : Moves pool l .stuck []
  | allocated (block : UInt64) (guarded : Bool) :
    Moves pool .idle (.allocated block guarded) [.allocated block guarded]
  | returned (block : UInt64) (guarded : Bool) :
    Moves pool (.allocated block guarded) .idle [.returned block guarded]
  | suppressed (ptr : UInt64) : Moves pool .idle .idle [.checked ptr true]
  | marked {ptr : UInt64} (h : ptr ≠ 0) (hb : is_bootstrap_ptr pool ptr = false) :
    Moves pool .idle (.freeing ptr true) [.checked ptr false]
  | unguarded (ptr : UInt64) : Moves pool .idle (.freeing ptr false) []
  | released (ptr : UInt64) (guarded : Bool) :
    Moves pool (.freeing ptr guarded) .idle [.released ptr]

/-- `free_inner`, as far as the real free. -/
theorem free_inner_moves (env : Env) (m : Mem) (ptr : UInt64) (win32u : Bool) :
    Moves env.BOOTSTRAP_POOL .idle (free_inner env m ptr win32u).loc
      (free_inner env m ptr win32u).events := by
  unfold free_inner
  split
  · exact .ended (by simp)
  · rename_i hb
    split
    · exact .ended (by simp)
    · split
      · rename_i hg
        rw [Bool.and_eq_true, bne_iff_ne] at hg
        split
        · exact .suppressed ptr
        · exact .marked hg.2 (Bool.not_eq_true _ ▸ hb)
        · exact .stuck (by simp)
      · exact .unguarded ptr

/-- Every step is one of the listed moves. -/
theorem moves (env : Env) (a : Choice) (m : Mem) (l : Thread) :
    Moves env.BOOTSTRAP_POOL l (thread_step env a m l).loc (thread_step env a m l).events := by
  cases l with
  | idle =>
    cases a with
    | malloc size block win32u =>
      show Moves _ _ (malloc_inner env m size block win32u).loc
        (malloc_inner env m size block win32u).events
      unfold malloc_inner
      split
      · exact .allocated _ _
      · exact .ended (by simp)
    | free ptr win32u => exact free_inner_moves env m ptr win32u
  | allocated block guarded =>
    show Moves _ _ (malloc_return m block guarded).loc (malloc_return m block guarded).events
    unfold malloc_return
    cases guarded with
    | false => exact .returned block false
    | true =>
      rw [if_pos rfl]
      split
      · exact .returned block true
      · exact .stuck (by simp)
  | freeing ptr guarded => exact .released ptr guarded
  | stuck => exact .stuck (by simp)

/-- A step shows one event at most. -/
theorem Moves.length {pool : UInt64} {l l' : Thread} {es : List Event} (h : Moves pool l l' es) :
    es.length ≤ 1 := by
  cases h <;> simp

/-- A step that shows nothing is not the real `free`, and does not end behind the real `malloc`. -/
theorem Moves.silent {pool : UInt64} {l l' : Thread} (h : Moves pool l l' []) (ptr : UInt64)
    (guarded : Bool) : l ≠ .freeing ptr guarded ∧ l' ≠ .allocated ptr guarded := by
  cases h with
  | ended h => exact ⟨h ptr guarded, by simp⟩
  | stuck h => exact ⟨h ptr guarded, by simp⟩
  | unguarded ptr => simp

/-- A step that ends behind the real `malloc` shows the block. -/
theorem Moves.shows_allocated {pool block : UInt64} {l l' : Thread} {guarded : Bool} {e : Event}
    (h : Moves pool l l' [e]) : l' = .allocated block guarded ↔ e = .allocated block guarded := by
  cases h <;> simp

/-- A block is returned by the call that was given it. -/
theorem Moves.of_returned {pool block : UInt64} {l l' : Thread} {guarded : Bool}
    (h : Moves pool l l' [.returned block guarded]) : l = .allocated block guarded := by
  cases h
  rfl

theorem Moves.from_allocated {pool block : UInt64} {l' : Thread} {guarded : Bool} {e : Event}
    (h : Moves pool (.allocated block guarded) l' [e]) : e = .returned block guarded := by
  cases h
  rfl

theorem Moves.from_freeing {pool ptr : UInt64} {l' : Thread} {guarded : Bool} {e : Event}
    (h : Moves pool (.freeing ptr guarded) l' [e]) : e = .released ptr := by
  cases h
  rfl

/-- After a fresh mark comes the real free. -/
theorem Moves.of_marked {pool ptr : UInt64} {l l' : Thread}
    (h : Moves pool l l' [.checked ptr false]) :
    l' = .freeing ptr true ∧ ptr ≠ 0 ∧ is_bootstrap_ptr pool ptr = false := by
  cases h with
  | marked h hb => exact ⟨rfl, h, hb⟩

/-- The guard frees nothing itself. -/
theorem free_inner_live (env : Env) (m : Mem) (ptr : UInt64) (win32u : Bool) :
    (free_inner env m ptr win32u).mem.live = m.live ∧
      ∀ q, .released q ∉ (free_inner env m ptr win32u).events := by
  unfold free_inner
  split
  · simp
  · split
    · simp
    · split
      · split <;> simp
      · simp

/-- A block is live after a step if it was and is not freed in it, or if the step is given it. -/
theorem live_step {env : Env} {a : Choice} {m : Mem} {l : Thread} {ptr : UInt64}
    (h : (thread_step env a m l).mem.live ptr = true) :
    (m.live ptr = true ∧ .released ptr ∉ (thread_step env a m l).events) ∨
      ∃ guarded, .allocated ptr guarded ∈ (thread_step env a m l).events := by
  cases l with
  | idle =>
    cases a with
    | malloc size block win32u =>
      have h' : (malloc_inner env m size block win32u).mem.live ptr = true := h
      show (_ ∧ _ ∉ (malloc_inner env m size block win32u).events) ∨
        ∃ _, _ ∈ (malloc_inner env m size block win32u).events
      unfold malloc_inner at h' ⊢
      split
      · rw [if_pos ‹_›] at h'
        rcases Mem.allocate_live.mp h' with hold | ⟨rfl, -⟩
        · exact .inl ⟨hold, by simp⟩
        · exact .inr ⟨_, List.mem_singleton_self _⟩
      · rw [if_neg ‹_›] at h'
        exact .inl ⟨h', List.not_mem_nil⟩
    | free q win32u =>
      have h' : (free_inner env m q win32u).mem.live ptr = true := h
      obtain ⟨hlive, hrel⟩ := free_inner_live env m q win32u
      rw [hlive] at h'
      exact .inl ⟨h', hrel ptr⟩
  | allocated block guarded =>
    have hsame : (malloc_return m block guarded).mem.live = m.live ∧
        ∀ q, .released q ∉ (malloc_return m block guarded).events := by
      unfold malloc_return
      split
      · split <;> simp
      · simp
    have h' : (malloc_return m block guarded).mem.live ptr = true := h
    rw [hsame.1] at h'
    exact .inl ⟨h', hsame.2 ptr⟩
  | freeing q guarded =>
    have h' : Function.update m.live q false ptr = true := h
    by_cases hq : ptr = q
    · rw [hq, Function.update_self] at h'
      exact absurd h' Bool.false_ne_true
    · rw [Function.update_of_ne hq] at h'
      exact .inl ⟨h', by simpa [thread_step, real_free] using hq⟩
  | stuck => exact .inl ⟨h, List.not_mem_nil⟩

/-! ## The marks of a trace -/

/-- A `seen_or_mark` that marked. -/
def Event.is_mark : Event → Bool
  | .checked _ false => true
  | _ => false

section Trace

variable {T : Type*}

/-- How many fresh marks a trace shows. -/
def fresh (tr : List (T × Event)) : ℕ := tr.countP fun e => e.2.is_mark

/-- **The mark of `ptr` still stands**: since it was made no `malloc` by `win32u` has returned
`ptr`, and fewer than `CAPACITY` fresh marks were made. -/
def Pending (tr : List (T × Event)) (ptr : UInt64) : Prop :=
  ∃ t post, Follows tr (t, .checked ptr false) post ∧ (∀ u, (u, .returned ptr true) ∉ post) ∧
    fresh post < CAPACITY

/-- The marks with one more event. -/
def note (log : List (Option UInt64)) : Event → List (Option UInt64)
  | .checked ptr false => some ptr :: log
  | .returned block true => Rings.cleared block log
  | _ => log

/-- The marks of a trace, the newest first, a consumed one `none`. -/
def log (tr : List (T × Event)) : List (Option UInt64) := tr.foldl (fun l e => note l e.2) []

theorem log_concat (tr : List (T × Event)) (e : T × Event) :
    log (tr ++ [e]) = note (log tr) e.2 := by
  simp [log]

theorem fresh_concat (tr : List (T × Event)) (e : T × Event) :
    fresh (tr ++ [e]) = fresh tr + if e.2.is_mark then 1 else 0 := by
  simp [fresh, List.countP_append, List.countP_singleton]

/-- A mark of `ptr` that was not consumed, with `k` fresh marks after it. -/
def MarkAt (tr : List (T × Event)) (ptr : UInt64) (k : ℕ) : Prop :=
  ∃ t post, Follows tr (t, .checked ptr false) post ∧ (∀ u, (u, .returned ptr true) ∉ post) ∧
    fresh post = k

/-- A pointer is pending while its latest mark is one of the last 1024. -/
theorem pending_iff {tr : List (T × Event)} {ptr : UInt64} :
    Pending tr ptr ↔ ∃ k < CAPACITY, MarkAt tr ptr k := by
  constructor
  · rintro ⟨t, post, hf, hc, hlt⟩
    exact ⟨_, hlt, t, post, hf, hc, rfl⟩
  · rintro ⟨k, hlt, t, post, hf, hc, rfl⟩
    exact ⟨t, post, hf, hc, hlt⟩

/-- How far back the mark of a pointer is after another event. -/
theorem markAt_concat {tr : List (T × Event)} {v : T} {e : Event} {ptr : UInt64} {k : ℕ} :
    MarkAt (tr ++ [(v, e)]) ptr k ↔ (e = .checked ptr false ∧ k = 0) ∨
      ∃ k', MarkAt tr ptr k' ∧ e ≠ .returned ptr true ∧
        k = k' + if e.is_mark then 1 else 0 := by
  constructor
  · rintro ⟨t, post, hf, hc, rfl⟩
    rcases Threads.follows_concat.mp hf with ⟨post', rfl, hf'⟩ | ⟨rfl, heq⟩
    · refine .inr ⟨fresh post', ⟨t, post', hf', fun u hmem => ?_, rfl⟩, fun heq => ?_,
        fresh_concat post' (v, e)⟩
      · exact hc u (List.mem_append_left _ hmem)
      · exact hc v (by simp [heq])
    · exact .inl ⟨(Prod.mk.inj heq).2.symm, rfl⟩
  · rintro (⟨rfl, rfl⟩ | ⟨k', ⟨t, post, hf, hc, rfl⟩, hne, rfl⟩)
    · exact ⟨v, [], Threads.follows_concat.mpr (.inr ⟨rfl, rfl⟩), by simp, rfl⟩
    · refine ⟨t, post ++ [(v, e)], Threads.follows_concat.mpr (.inl ⟨post, rfl, hf⟩),
        fun u hmem => ?_, fresh_concat post (v, e)⟩
      rcases List.mem_append.mp hmem with h | h
      · exact hc u h
      · exact hne (Prod.mk.inj (List.mem_singleton.mp h)).2.symm

/-- Entry `k` of the log is the mark with `k` fresh marks after it. -/
theorem log_getElem? (tr : List (T × Event)) (ptr : UInt64) : ∀ k : ℕ,
    (log tr)[k]? = some (some ptr) ↔ MarkAt tr ptr k := by
  -- By the last event: it marks, consumes, or leaves the log alone.
  induction tr using List.reverseRecOn with
  | nil => simp [log, MarkAt, Threads.not_follows_nil]
  | append_singleton tr e ih =>
    intro k
    obtain ⟨v, e⟩ := e
    rw [log_concat, markAt_concat]
    cases e with
    | allocated block guarded => simp [note, Event.is_mark, ih]
    | returned block guarded =>
      cases guarded with
      | true =>
        simp only [note, Rings.cleared_getElem?, ih]
        simp [Event.is_mark, eq_comm, and_comm]
      | false => simp [note, Event.is_mark, ih]
    | checked q seen =>
      cases seen with
      | true => simp [note, Event.is_mark, ih]
      | false =>
        cases k with
        | zero => simp [note, Event.is_mark]
        | succ k => simp [note, Event.is_mark, ih]
    | released q => simp [note, Event.is_mark, ih]

/-! ## What holds along a run -/

/-- The history holds the marks of the trace, and live blocks are the allocator's. -/
structure Tracks (pool : UInt64) (tr : List (T × Event)) (m : Mem) : Prop where
  recent : m.HISTORY.Recent (log tr)
  live : ∀ ptr, m.live ptr = true → ptr ≠ 0 ∧ is_bootstrap_ptr pool ptr = false

variable {pool : UInt64} {tr : List (T × Event)} {m : Mem} {ptr : UInt64}

theorem turns : CAPACITY < TURNS := Nat.lt_succ_self _

/-- The history holds what is pending. -/
theorem Tracks.held_iff (h : Tracks pool tr m) (hp : ptr ≠ 0) :
    m.HISTORY.Held ptr ↔ Pending tr ptr := by
  rw [h.recent.held_iff hp, pending_iff]
  simp only [log_getElem?]

/-- A free by `win32u` while the mark stands is dropped. -/
theorem Tracks.suppressed (h : Tracks pool tr m) (hp : ptr ≠ 0)
    (hb : is_bootstrap_ptr pool ptr = false) (hpend : Pending tr ptr) :
    free_inner (.guarding pool) m ptr true = ⟨m, .idle, [.checked ptr true]⟩ := by
  have hseen := h.recent.seen turns hp ((h.held_iff hp).mpr hpend)
  simp [free_inner, Env.guarding, Env.guarded, hb, hp, seen_or_mark, hseen]

/-- A free by `win32u` with no mark that stands goes on to the real `free`. -/
theorem Tracks.marked (h : Tracks pool tr m) (hp : ptr ≠ 0)
    (hb : is_bootstrap_ptr pool ptr = false) (hpend : ¬ Pending tr ptr) :
    ∃ h', h'.Recent (some ptr :: log tr) ∧ free_inner (.guarding pool) m ptr true
      = ⟨{ m with HISTORY := h' }, .freeing ptr true, [.checked ptr false]⟩ := by
  obtain ⟨h', hmark, hr⟩ := h.recent.mark turns hp fun hheld => hpend ((h.held_iff hp).mp hheld)
  refine ⟨h', hr, ?_⟩
  simp [free_inner, Env.guarding, Env.guarded, hb, hp, seen_or_mark, hmark]

/-- The end of a `malloc` by `win32u`. -/
theorem Tracks.consumed (h : Tracks pool tr m) (block : UInt64) :
    ∃ h', h'.Recent (Rings.cleared block (log tr)) ∧
      malloc_return m block true = ⟨{ m with HISTORY := h' }, .idle, [.returned block true]⟩ := by
  by_cases hb : block = 0
  · subst hb
    refine ⟨m.HISTORY, ⟨h.recent.indexed, h.recent.shows.clear_of_forall_ne fun j hj => ?_,
      h.recent.spaced.clear 0⟩, ?_⟩
    · unfold History.ring at hj
      by_cases h0 : (m.HISTORY.entries j).address = 0
      · simp [h0] at hj
      · simp [h0] at hj
    · simp [malloc_return, consume_if_pending]
  · obtain ⟨found, h', hc, hr⟩ := h.recent.consume turns hb
    refine ⟨h', hr, ?_⟩
    simp [malloc_return, consume_if_pending, hb, hc]

/-- Every step of `free_inner` keeps track. -/
theorem Tracks.free_inner (h : Tracks pool tr m) (t : T) (ptr : UInt64) (win32u : Bool) :
    Tracks pool
      (tr ++ (free_inner (.guarding pool) m ptr win32u).events.map (Prod.mk t))
      (free_inner (.guarding pool) m ptr win32u).mem := by
  by_cases hb : is_bootstrap_ptr pool ptr = true
  · simpa [FreeGuard.free_inner, Env.guarding, hb] using h
  · rw [Bool.not_eq_true] at hb
    by_cases hg : win32u = true ∧ ptr ≠ 0
    · obtain ⟨rfl, hp⟩ := hg
      by_cases hpend : Pending tr ptr
      · rw [h.suppressed hp hb hpend]
        exact ⟨by rw [List.map_singleton, log_concat]; exact h.recent, h.live⟩
      · obtain ⟨h', hr, heq⟩ := h.marked hp hb hpend
        rw [heq]
        exact ⟨by rw [List.map_singleton, log_concat]; exact hr, h.live⟩
    · have heq : FreeGuard.free_inner (.guarding pool) m ptr win32u
          = ⟨m, .freeing ptr false, []⟩ := by
        cases win32u with
        | false => simp [FreeGuard.free_inner, Env.guarding, Env.guarded, hb]
        | true => simp_all [FreeGuard.free_inner, Env.guarding, Env.guarded]
      rw [heq]
      simpa using h

/-- An allocation keeps the history in step with the trace. -/
theorem Tracks.malloc_inner (h : Tracks pool tr m) (t : T) (size block : UInt64) (win32u : Bool) :
    Tracks pool
      (tr ++ (malloc_inner (.guarding pool) m size block win32u).events.map (Prod.mk t))
      (malloc_inner (.guarding pool) m size block win32u).mem := by
  refine ⟨?_, fun ptr hl => ?_⟩
  · show (Mem.allocate _ _).HISTORY.Recent (log (tr ++ [_]))
    rw [log_concat, Mem.allocate_history]
    exact h.recent
  · rcases Mem.allocate_live.mp hl with hold | ⟨rfl, hne⟩
    · exact h.live ptr hold
    · exact ⟨hne, real_malloc_not_bootstrap hne⟩

/-- Every step keeps the history in step with the trace. -/
theorem Tracks.step (h : Tracks pool tr m) (t : T) (a : Choice) (l : Thread) :
    Tracks pool (tr ++ (program T pool t a m l).events.map (Prod.mk t))
      (program T pool t a m l).mem := by
  cases l with
  | idle =>
    cases a with
    | malloc size block win32u => exact h.malloc_inner t size block win32u
    | free ptr win32u => exact h.free_inner t ptr win32u
  | allocated block guarded =>
    cases guarded with
    | false =>
      refine ⟨?_, h.live⟩
      show m.HISTORY.Recent (log (tr ++ [_]))
      rw [log_concat]
      exact h.recent
    | true =>
      obtain ⟨h', hr, heq⟩ := h.consumed block
      show Tracks pool (tr ++ (malloc_return m block true).events.map _)
        (malloc_return m block true).mem
      rw [heq]
      exact ⟨by rw [List.map_singleton, log_concat]; exact hr, h.live⟩
  | freeing ptr guarded =>
    refine ⟨?_, fun q hl => ?_⟩
    · show m.HISTORY.Recent (log (tr ++ [_]))
      rw [log_concat]
      exact h.recent
    · have hl' : Function.update m.live ptr false q = true := hl
      rw [Function.update_apply] at hl'
      split at hl'
      · exact absurd hl' Bool.false_ne_true
      · exact h.live q hl'
  | stuck => simpa [program, thread_step] using h

theorem tracks_start (T : Type*) (pool : UInt64) :
    Tracks pool ([] : List (T × Event)) (start T).mem :=
  ⟨PendingFrees.History.recent_new, fun _ h => absurd h Bool.false_ne_true⟩

end Trace

/-! ## A free of a live block -/

section Live

variable {T : Type*} [DecidableEq T]

/-- The step is the start of a free by `win32u` of a live block. -/
def FreesLive (d : Config T Mem Thread) (x : T × Choice) (ptr : UInt64) : Prop :=
  d.loc x.1 = .idle ∧ x.2 = .free ptr true ∧ d.mem.live ptr = true

/-- Such a free goes on to the real `free`: its thread is left at the call, the one step it can
make next. -/
def Reaches (pool : UInt64) (_ : List (T × Event)) (d : Config T Mem Thread) (x : T × Choice) :
    Prop :=
  ∀ ptr, FreesLive d x ptr → (Threads.step (program T pool) d x).loc x.1 = .freeing ptr true

/-- A live block stands under the mark of an earlier free for one of three causes: that free has
not got to the real `free` yet, or a `malloc` by `win32u` was given the block and has not returned,
or somebody else than `win32u` was given it since. -/
def LeftStanding (tr : List (T × Event)) (d : Config T Mem Thread) (ptr : UInt64) : Prop :=
  ∃ t post, Follows tr (t, .checked ptr false) post ∧ fresh post < CAPACITY ∧
    (∀ u, (u, .returned ptr true) ∉ post) ∧
    (d.loc t = .freeing ptr true ∨ (∃ u, d.loc u = .allocated ptr true) ∨
      ∃ u, (u, .allocated ptr false) ∈ post)

/-- No such free is of a block with a mark left standing. -/
def NoneLeft (tr : List (T × Event)) (d : Config T Mem Thread) (x : T × Choice) : Prop :=
  ∀ ptr, FreesLive d x ptr → ¬ LeftStanding tr d ptr

/-- A free of a live block gets to the real free unless the pointer is pending. -/
theorem reaches_iff_not_pending {pool : UInt64} {tr : List (T × Event)} {d : Config T Mem Thread}
    (h : Tracks pool tr d.mem) {x : T × Choice} {ptr : UInt64} (hx : FreesLive d x ptr) :
    (Threads.step (program T pool) d x).loc x.1 = .freeing ptr true ↔ ¬ Pending tr ptr := by
  -- A live block is not zero and not from the bootstrap pool, so the guard is asked.
  obtain ⟨hloc, hcall, hlive⟩ := hx
  obtain ⟨hp, hb⟩ := h.live ptr hlive
  have hstep : (Threads.step (program T pool) d x).loc x.1
      = (free_inner (.guarding pool) d.mem ptr true).loc := by
    rw [Threads.step_loc_self, hloc, hcall]
    rfl
  rw [hstep]
  constructor
  · intro hfree hpend
    rw [h.suppressed hp hb hpend] at hfree
    exact Thread.noConfusion hfree
  · intro hpend
    obtain ⟨h', -, heq⟩ := h.marked hp hb hpend
    rw [heq]

/-- The history is in step with the trace of every run. -/
theorem tracks_run (pool : UInt64) (s : List (T × Choice)) :
    Tracks pool (Threads.trace (program T pool) (start T) s)
      (Threads.run (program T pool) (start T) s).mem :=
  Threads.run_induct_after (program T pool) (I := fun tr d => Tracks pool tr d.mem)
    (tracks_start T pool) (fun _ d t a h => h.step t a (d.loc t)) s

/-! ### How a mark comes to stand over a live block -/

/-- A mark of a live block that no `malloc` by `win32u` has returned since is left standing for one
of the three causes. -/
def Accounted (tr : List (T × Event)) (d : Config T Mem Thread) : Prop :=
  ∀ t ptr post, Follows tr (t, .checked ptr false) post →
    (∀ u, (u, .returned ptr true) ∉ post) → d.mem.live ptr = true →
    d.loc t = .freeing ptr true ∨ (∃ u, d.loc u = .allocated ptr true) ∨
      ∃ u, (u, .allocated ptr false) ∈ post

section Step

variable {pool : UInt64} {tr : List (T × Event)} {d d' : Config T Mem Thread} {x : T}

omit [DecidableEq T] in
/-- A step that shows nothing, of a thread that has no mark to consume. -/
theorem Accounted.silent (h : Accounted tr d) (hoff : ∀ u, u ≠ x → d'.loc u = d.loc u)
    (hm : Moves pool (d.loc x) (d'.loc x) []) (hx : ∀ ptr, d.loc x ≠ .allocated ptr true)
    (hlive : ∀ ptr, d'.mem.live ptr = true → d.mem.live ptr = true) : Accounted tr d' := by
  intro t ptr post hf hc hl
  rcases h t ptr post hf hc (hlive ptr hl) with hloc | ⟨u, hloc⟩ | hother
  · have hne : t ≠ x := by
      rintro rfl
      exact (hm.silent ptr true).1 hloc
    exact .inl ((hoff t hne).trans hloc)
  · have hne : u ≠ x := by
      rintro rfl
      exact hx ptr hloc
    exact .inr (.inl ⟨u, (hoff u hne).trans hloc⟩)
  · exact .inr (.inr hother)

omit [DecidableEq T] in
/-- A step that shows one event. -/
theorem Accounted.shown {e : Event} (h : Accounted tr d) (hoff : ∀ u, u ≠ x → d'.loc u = d.loc u)
    (hm : Moves pool (d.loc x) (d'.loc x) [e])
    (hlive : ∀ ptr, d'.mem.live ptr = true → (d.mem.live ptr = true ∧ e ≠ .released ptr) ∨
      ∃ guarded, e = .allocated ptr guarded) : Accounted (tr ++ [(x, e)]) d' := by
  intro t ptr post hf hc hl
  rcases Threads.follows_concat.mp hf with ⟨post', rfl, hf'⟩ | ⟨rfl, heq⟩
  · rcases hlive ptr hl with ⟨hold, hne⟩ | ⟨guarded, rfl⟩
    · rcases h t ptr post' hf' (fun u hmem => hc u (by simp [hmem])) hold with
        hloc | ⟨u, hloc⟩ | ⟨u, hmem⟩
      · have htx : t ≠ x := by
          rintro rfl
          rw [hloc] at hm
          exact hne hm.from_freeing
        exact .inl ((hoff t htx).trans hloc)
      · have hux : u ≠ x := by
          rintro rfl
          rw [hloc] at hm
          have he := hm.from_allocated
          exact hc u (by simp [he])
        exact .inr (.inl ⟨u, (hoff u hux).trans hloc⟩)
      · exact .inr (.inr ⟨u, List.mem_append_left _ hmem⟩)
    · cases guarded with
      | true => exact .inr (.inl ⟨x, hm.shows_allocated.mpr rfl⟩)
      | false => exact .inr (.inr ⟨x, by simp⟩)
  · obtain ⟨rfl, rfl⟩ := Prod.mk.inj heq
    exact .inl hm.of_marked.1

end Step

/-- A step shows nothing or one event. -/
theorem step_cases (pool : UInt64) (d : Config T Mem Thread) (x : T × Choice) :
    (Threads.events (program T pool) d x = [] ∧
      (program T pool x.1 x.2 d.mem (d.loc x.1)).events = [] ∧
      Moves pool (d.loc x.1) ((Threads.step (program T pool) d x).loc x.1) []) ∨
    ∃ e, Threads.events (program T pool) d x = [(x.1, e)] ∧
      (program T pool x.1 x.2 d.mem (d.loc x.1)).events = [e] ∧
      Moves pool (d.loc x.1) ((Threads.step (program T pool) d x).loc x.1) [e] := by
  have hm := moves (.guarding pool) x.2 d.mem (d.loc x.1)
  have hlen : (program T pool x.1 x.2 d.mem (d.loc x.1)).events.length ≤ 1 := hm.length
  have hm' : Moves pool (d.loc x.1) ((Threads.step (program T pool) d x).loc x.1)
      (program T pool x.1 x.2 d.mem (d.loc x.1)).events := by
    rw [Threads.step_loc_self]
    exact hm
  unfold Threads.events
  cases hes : (program T pool x.1 x.2 d.mem (d.loc x.1)).events with
  | nil =>
    rw [hes] at hm'
    exact .inl ⟨rfl, rfl, hm'⟩
  | cons e es =>
    rw [hes] at hm' hlen
    have hnil : es = [] := List.length_eq_zero_iff.mp (by simpa using hlen)
    subst hnil
    exact .inr ⟨e, rfl, rfl, hm'⟩

omit [DecidableEq T] in
/-- At the start there is no mark to account for. -/
theorem accounted_start (T : Type*) : Accounted ([] : List (T × Event)) (start T) :=
  fun _ _ _ h => absurd h Threads.not_follows_nil

/-- Every mark that stands is accounted for after a step too: by the free that made it, by a call
of win32u that has the pointer, or by one that was not win32u's. -/
theorem Accounted.step {pool : UInt64} {tr : List (T × Event)} {d : Config T Mem Thread}
    (htr : Tracks pool tr d.mem) (h : Accounted tr d) (x : T × Choice) :
    Accounted (tr ++ Threads.events (program T pool) d x) (Threads.step (program T pool) d x) := by
  have hoff : ∀ u, u ≠ x.1 → (Threads.step (program T pool) d x).loc u = d.loc u := fun u =>
    Threads.step_loc_of_ne _ d x
  have hlive : ∀ ptr, (Threads.step (program T pool) d x).mem.live ptr = true →
      (d.mem.live ptr = true ∧
        .released ptr ∉ (program T pool x.1 x.2 d.mem (d.loc x.1)).events) ∨
      ∃ guarded, .allocated ptr guarded ∈ (program T pool x.1 x.2 d.mem (d.loc x.1)).events :=
    fun ptr => live_step
  rcases step_cases pool d x with ⟨hev, hes, hm⟩ | ⟨e, hev, hes, hm⟩
  · rw [hev, List.append_nil]
    refine h.silent hoff hm (fun ptr hloc => ?_) fun ptr hl => ?_
    · obtain ⟨h', -, heq⟩ := htr.consumed ptr
      rw [hloc] at hes
      have hsome : (malloc_return d.mem ptr true).events = [] := hes
      rw [heq] at hsome
      exact List.cons_ne_nil _ _ hsome
    · rcases hlive ptr hl with ⟨hold, -⟩ | ⟨guarded, hmem⟩
      · exact hold
      · rw [hes] at hmem
        exact absurd hmem List.not_mem_nil
  · rw [hev]
    refine h.shown hoff hm fun ptr hl => ?_
    rcases hlive ptr hl with ⟨hold, hne⟩ | ⟨guarded, hmem⟩
    · rw [hes, List.mem_singleton] at hne
      exact .inl ⟨hold, Ne.symm hne⟩
    · rw [hes, List.mem_singleton] at hmem
      exact .inr ⟨guarded, hmem.symm⟩

omit [DecidableEq T] in
/-- Over a live block the marks that stand are the ones left standing. -/
theorem Accounted.pending_iff {tr : List (T × Event)} {d : Config T Mem Thread}
    (h : Accounted tr d) {ptr : UInt64} (hlive : d.mem.live ptr = true) :
    Pending tr ptr ↔ LeftStanding tr d ptr := by
  constructor
  · rintro ⟨t, post, hf, hc, hlt⟩
    exact ⟨t, post, hf, hlt, hc, h t ptr post hf hc hlive⟩
  · rintro ⟨t, post, hf, hlt, hc, -⟩
    exact ⟨t, post, hf, hc, hlt⟩

/-- A free of a live block gets to the real free if no mark of the pointer is left, for one of the
three causes. -/
theorem reaches_iff_noneLeft {pool : UInt64} {tr : List (T × Event)} {d : Config T Mem Thread}
    (htr : Tracks pool tr d.mem) (h : Accounted tr d) (x : T × Choice) :
    Reaches pool tr d x ↔ NoneLeft tr d x := by
  refine forall_congr' fun ptr => imp_congr_right fun hx => ?_
  rw [reaches_iff_not_pending htr hx, h.pending_iff hx.2.2]

/-- **When the guard drops no legitimate free.** In a run every free by `win32u` of a live block
reaches the real `free` exactly if none of them is of a block with a mark left standing. -/
theorem live_free_reaches_iff (pool : UInt64) (s : List (T × Choice)) :
    Threads.AllSteps (program T pool) (Reaches pool) (start T) s ↔
      Threads.AllSteps (program T pool) NoneLeft (start T) s :=
  Threads.allSteps_congr (program T pool) (I := fun tr d => Tracks pool tr d.mem ∧ Accounted tr d)
    ⟨tracks_start T pool, accounted_start T⟩
    (fun _ d x h => ⟨h.1.step x.1 x.2 (d.loc x.1), h.2.step h.1 x⟩)
    (fun _ _ x h => reaches_iff_noneLeft h.1 h.2 x) s

end Live

/-- `win32u` allocates a block and frees it, another library is given the block, and hands it to
`win32u` to free. -/
def handed_over : List (Fin 1 × Choice) :=
  [(0, .malloc 8 16 true), (0, .malloc 0 0 true), (0, .free 16 true), (0, .malloc 0 0 true),
    (0, .malloc 8 16 false), (0, .malloc 0 0 true)]

/-- The mark of the first free still stands when the second comes, and the live block is never
freed. -/
theorem handed_over_block_leaks : ¬ Threads.AllSteps (program (Fin 1) 0x100000)
    (Reaches 0x100000) (start (Fin 1)) (handed_over ++ [(0, .free 16 true)]) := by
  intro h
  have hlast := ((Threads.allSteps_concat _).mp h).2 16 ⟨by decide +kernel, rfl, by decide +kernel⟩
  revert hlast
  decide +kernel

end Linuwux.FreeGuard
