/-
`SnapshotThreads.lean` -- `sigaction` and `forward_signal` of `hooks.rs` in any number of threads.

A slot points to a snapshot of the action that was asked for. A thread that forwards a signal
copies the snapshot without a lock: it counts itself among the slot's readers, loads the pointer,
copies, and counts itself out. A thread that changes the action holds `SIGNAL_UPDATE_LOCK`, swaps
the pointer and frees what it took out once it has seen the counter at 0. New readers come all the
time, but what was taken out is not found by them ([`reclamation_is_safe`]).

A step is one access of another thread's interest, one call into the kernel or one into the
allocator. A thread of the model is an activation: a handler nested in another one is a thread of
its own. The allocator gives out what it likes that is not in use, and the blocks carry a number
that only the model reads.
-/
import Linuwux.MarkerInvariant
import Linuwux.SignalSlots
import Linuwux.Threads

set_option autoImplicit false

namespace Linuwux.Snapshots

open SignalSlots (Signal Sigaction Image Answer SIG_DFL SIG_IGN real kept action_is_bridge bridge_of
  handler_is_from_wine_ntdll)
open Threads (Program Config Outcome run trace)

/-! ## The program -/

/-- A snapshot: the action, and the slot and the number of the installation it is for. -/
structure Block where
  action : Sigaction
  slot : Signal
  serial : ℕ
  deriving DecidableEq

structure SignalSlot where
  current : UInt64
  readers : UInt32
  owned : Bool
  deriving DecidableEq

/-- `SignalSlot::new`. -/
def SignalSlot.new : SignalSlot := ⟨0, 0, false⟩

/-- The slots, what the kernel holds, and the snapshots that are allocated; `serial` is the number
of the next one. -/
structure Mem where
  slots : Signal → SignalSlot
  SIGNAL_UPDATE_LOCK : Bool
  kernel : Signal → Sigaction
  heap : UInt64 → Option Block
  serial : ℕ

/-- What an idle thread does: it has a signal to forward, or calls `sigaction`. -/
inductive Call where
  | forward (sig : Signal)
  | sigaction (sig : Signal) (act : Option Sigaction) (oldact : Bool)

/-- The call of an idle thread, whether the underlying call of the step succeeds, and the address
`malloc` returns. -/
structure Choice where
  call : Call
  succeeds : Bool
  address : UInt64

/-- What a step shows: a snapshot read, which one it was when the pointer was loaded and which one
it is; a snapshot freed; a one-shot handler reset, the snapshot copied and the one that was
current; what a call returned or a signal came to; a call that failed. -/
inductive Event where
  | read (loaded found : Option Block)
  | freed (found : Option Block)
  | reset (copied cleared : Option Block)
  | answered (answer : Answer)
  | failed
  deriving DecidableEq

/-- The arguments of `sigaction`. -/
structure Request where
  sig : Signal
  requested : Sigaction
  oldact : Bool

/-- What `copy_saved_action` returns; the model keeps the whole block. -/
structure Saved where
  snapshot : UInt64
  copied : Option Block

/-- The action copied, or `MaybeUninit::zeroed()`. -/
def Saved.action (saved : Saved) : Sigaction := saved.copied.elim .zeroed Block.action

/-- The access or the call a thread is about to make. -/
inductive Pc where
  | idle
  | enter (sig : Signal)
  | load (sig : Signal)
  | read (sig : Signal) (snapshot : UInt64) (loaded : Option Block)
  | leave (sig : Signal) (saved : Saved)
  | reset (sig : Signal) (saved : Saved)
  | invoke (saved : Saved)
  | acquire (r : Request)
  | load_owned (r : Request)
  | pass (r : Request)
  | query (r : Request)
  | malloc (r : Request) (previous : Sigaction)
  | swap (r : Request) (previous : Sigaction) (snapshot : UInt64)
  | copy_previous (r : Request) (previous : Sigaction) (previous_snapshot : UInt64)
    (loaded : Option Block)
  | install (r : Request) (previous_snapshot : UInt64) (old : Sigaction)
  | roll_back (r : Request) (previous_snapshot : UInt64)
  | wait (r : Request) (snapshot : UInt64) (old : Option Sigaction)
  | free (r : Request) (snapshot : UInt64) (old : Option Sigaction)
  | store_owned (r : Request) (old : Sigaction)
  | unlock (answer : Option Answer)

def Mem.store_current (m : Mem) (sig : Signal) (current : UInt64) : Mem :=
  { m with slots := Function.update m.slots sig { m.slots sig with current } }

def Mem.store_readers (m : Mem) (sig : Signal) (readers : UInt32) : Mem :=
  { m with slots := Function.update m.slots sig { m.slots sig with readers } }

def Mem.store_owned (m : Mem) (sig : Signal) (owned : Bool) : Mem :=
  { m with slots := Function.update m.slots sig { m.slots sig with owned } }

/-- What a forwarded signal comes to. -/
def forwarded (action : Sigaction) : Answer :=
  if action.sa_sigaction = SIG_DFL then .terminated
  else if action.sa_sigaction = SIG_IGN then .ignored
  else .invoked action.sa_sigaction action.siginfo

/-- `forward_signal` resets the handler before it calls it. -/
def one_shot (action : Sigaction) : Bool :=
  action.sa_sigaction ≠ SIG_DFL ∧ action.sa_sigaction ≠ SIG_IGN ∧ action.resethand

/-- Where `install_bridge` goes on behind `release_snapshot`; without an `old` action it has
failed. -/
def Pc.released (r : Request) : Option Sigaction → Pc
  | some old => .store_owned r old
  | none => .unlock none

/-- `release_snapshot`, which has nothing to do for a null pointer. -/
def Pc.release (r : Request) (snapshot : UInt64) (old : Option Sigaction) : Pc :=
  if snapshot = 0 then .released r old else .wait r snapshot old

/-- What the call returns with `old` for `oldact`. -/
def Request.returns (r : Request) (old : Sigaction) : Answer :=
  .returned (if r.oldact then some old else none)

/-- A step of `forward_signal`. -/
def forward_step (m : Mem) : Pc → Outcome Mem Pc Event
  | .enter sig =>
    ⟨m.store_readers sig ((m.slots sig).readers + 1), .load sig, []⟩
  | .load sig =>
    -- Where no action is installed there is nothing to copy.
    if (m.slots sig).current = 0 then ⟨m, .leave sig ⟨0, none⟩, []⟩
    else ⟨m, .read sig (m.slots sig).current (m.heap (m.slots sig).current), []⟩
  | .read sig snapshot loaded =>
    ⟨m, .leave sig ⟨snapshot, m.heap snapshot⟩, [.read loaded (m.heap snapshot)]⟩
  | .leave sig saved =>
    ⟨m.store_readers sig ((m.slots sig).readers - 1),
      if one_shot saved.action then .reset sig saved else .invoke saved, []⟩
  | .reset sig saved =>
    -- The thread is no reader any more: the address may be that of another snapshot by now.
    if (m.slots sig).current = saved.snapshot then
      ⟨m.store_current sig 0, .invoke saved,
        [.reset saved.copied (m.heap saved.snapshot)]⟩
    else ⟨m, .invoke saved, []⟩
  | .invoke saved => ⟨m, .idle, [.answered (forwarded saved.action)]⟩
  | pc => ⟨m, pc, []⟩

variable (image : Image)

/-- A step of `sigaction`, with `install_bridge` from `query` on. -/
def sigaction_step (a : Choice) (m : Mem) : Pc → Outcome Mem Pc Event
  | .acquire r =>
    if m.SIGNAL_UPDATE_LOCK then ⟨m, .acquire r, []⟩
    else ⟨{ m with SIGNAL_UPDATE_LOCK := true }, .load_owned r, []⟩
  | .load_owned r =>
    if !(m.slots r.sig).owned && !handler_is_from_wine_ntdll image r.requested then ⟨m, .pass r, []⟩
    else ⟨m, .query r, []⟩
  | .pass r =>
    if a.succeeds then
      ⟨{ m with kernel := Function.update m.kernel r.sig (kept image r.requested) },
        .unlock (some (r.returns (m.kernel r.sig))), []⟩
    else ⟨m, .unlock none, []⟩
  | .query r =>
    if !a.succeeds then ⟨m, .unlock none, []⟩
    else if action_is_bridge image r.sig r.requested then
      -- The bridge is handed back and stays.
      ⟨m, .unlock (some (r.returns (m.kernel r.sig))), []⟩
    else ⟨m, .malloc r (m.kernel r.sig), []⟩
  | .malloc r previous =>
    if a.succeeds ∧ a.address ≠ 0 ∧ m.heap a.address = none then
      ⟨{ m with
          heap := Function.update m.heap a.address (some ⟨r.requested, r.sig, m.serial⟩)
          serial := m.serial + 1 },
        .swap r previous a.address, []⟩
    else ⟨m, .unlock none, []⟩
  | .swap r previous snapshot =>
    ⟨m.store_current r.sig snapshot,
      if (m.slots r.sig).current = 0 then .install r 0 previous
      else .copy_previous r previous (m.slots r.sig).current (m.heap (m.slots r.sig).current), []⟩
  | .copy_previous r previous previous_snapshot loaded =>
    ⟨m, .install r previous_snapshot ((m.heap previous_snapshot).elim previous Block.action),
      [.read loaded (m.heap previous_snapshot)]⟩
  | .install r previous_snapshot old =>
    if a.succeeds then
      ⟨{ m with
          kernel := Function.update m.kernel r.sig
            (kept image (bridge_of image r.sig r.requested)) },
        .release r previous_snapshot (some old), []⟩
    else ⟨m, .roll_back r previous_snapshot, []⟩
  | .roll_back r previous_snapshot =>
    -- What is swapped out need not be what was swapped in: a signal may have reset it.
    ⟨m.store_current r.sig previous_snapshot,
      .release r (m.slots r.sig).current none, []⟩
  | .wait r snapshot old =>
    if (m.slots r.sig).readers = 0 then ⟨m, .free r snapshot old, []⟩
    else ⟨m, .wait r snapshot old, []⟩
  | .free r snapshot old =>
    ⟨{ m with heap := Function.update m.heap snapshot none }, .released r old,
      [.freed (m.heap snapshot)]⟩
  | .store_owned r old =>
    ⟨m.store_owned r.sig true, .unlock (some (r.returns old)), []⟩
  | .unlock answer =>
    ⟨{ m with SIGNAL_UPDATE_LOCK := false }, .idle, [answer.elim .failed .answered]⟩
  | pc => ⟨m, pc, []⟩

/-- The call of an idle thread, as far as the first access. -/
def begin_step (a : Choice) (m : Mem) : Outcome Mem Pc Event :=
  match a.call with
  | .forward sig => ⟨m, .enter sig, []⟩
  | .sigaction sig act oldact =>
    if !a.succeeds then ⟨m, .idle, [.failed]⟩
    else
      match act with
      | none => ⟨m, .idle, [.answered (real image (m.kernel sig) none oldact).1]⟩
      | some requested => ⟨m, .acquire ⟨sig, requested, oldact⟩, []⟩

def program (T : Type*) : Program T Choice Mem Pc Event := fun _ a m pc =>
  match pc with
  | .idle => begin_step image a m
  | .enter _ | .load _ | .read _ _ _ | .leave _ _ | .reset _ _ | .invoke _ => forward_step m pc
  | _ => sigaction_step image a m pc

/-- No action but what the kernel holds. -/
def start (T : Type*) (kernel : Signal → Sigaction) : Config T Mem Pc :=
  ⟨⟨fun _ => .new, false, kernel, fun _ => none, 0⟩, fun _ => .idle⟩

variable {image} {T : Type*} {t : T} {a : Choice} {m : Mem} {pc : Pc} {sig : Signal}

@[simp] theorem store_current_self (m : Mem) (sig : Signal) (current : UInt64) :
    ((m.store_current sig current).slots sig).current = current := by
  simp [Mem.store_current]

theorem store_current_of_ne (m : Mem) {sig sig' : Signal} (current : UInt64) (h : sig' ≠ sig) :
    ((m.store_current sig current).slots sig').current = (m.slots sig').current := by
  simp [Mem.store_current, h]

@[simp] theorem store_current_readers (m : Mem) (sig sig' : Signal) (current : UInt64) :
    ((m.store_current sig current).slots sig').readers = (m.slots sig').readers := by
  by_cases h : sig' = sig
  · simp [Mem.store_current, h]
  · simp [Mem.store_current, h]

@[simp] theorem store_readers_self (m : Mem) (sig : Signal) (readers : UInt32) :
    ((m.store_readers sig readers).slots sig).readers = readers := by
  simp [Mem.store_readers]

theorem store_readers_of_ne (m : Mem) {sig sig' : Signal} (readers : UInt32) (h : sig' ≠ sig) :
    ((m.store_readers sig readers).slots sig').readers = (m.slots sig').readers := by
  simp [Mem.store_readers, h]

@[simp] theorem store_readers_current (m : Mem) (sig sig' : Signal) (readers : UInt32) :
    ((m.store_readers sig readers).slots sig').current = (m.slots sig').current := by
  by_cases h : sig' = sig
  · simp [Mem.store_readers, h]
  · simp [Mem.store_readers, h]

/-! ## What a step can do -/

/-- The pointers, the counters and the heap are the same. -/
structure Same (m m' : Mem) : Prop where
  current : ∀ sig, (m'.slots sig).current = (m.slots sig).current
  readers : ∀ sig, (m'.slots sig).readers = (m.slots sig).readers
  heap : m'.heap = m.heap
  serial : m'.serial = m.serial

theorem Same.refl (m : Mem) : Same m m := ⟨fun _ => rfl, fun _ => rfl, rfl, rfl⟩

/-- The thread is outside `copy_saved_action` and holds no snapshot of its own. -/
def Pc.plain : Pc → Bool
  | .idle | .enter _ | .invoke _ | .acquire _ | .load_owned _ | .pass _ | .query _
  | .malloc _ _ | .store_owned _ _ | .unlock _ => true
  | _ => false

/-- Between the `fetch_add` and the `fetch_sub` of `copy_saved_action`. -/
def Pc.reading (sig : Signal) : Pc → Bool
  | .load s | .read s _ _ | .leave s _ => s = sig
  | _ => false

/-- Between the exchange that takes the lock and the store that gives it back. -/
def Pc.holds : Pc → Bool
  | .load_owned _ | .pass _ | .query _ | .malloc _ _ | .swap _ _ _ | .copy_previous _ _ _ _
  | .install _ _ _ | .roll_back _ _ | .wait _ _ _ | .free _ _ _ | .store_owned _ _
  | .unlock _ => true
  | _ => false

/-- At a plain program point the thread is no reader. -/
theorem Pc.plain_reading (h : pc.plain = true) : pc.reading sig = false := by
  cases pc with
  | load _ | read _ _ _ | leave _ _ => cases h
  | _ => rfl

theorem released_plain (r : Request) (old : Option Sigaction) :
    (Pc.released r old).plain = true := by
  cases old with
  | none => rfl
  | some old => rfl

/-- Behind `release_snapshot` the lock is still held. -/
theorem released_holds (r : Request) (old : Option Sigaction) :
    (Pc.released r old).holds = true := by
  cases old with
  | none => rfl
  | some old => rfl

theorem release_reading (r : Request) (snapshot : UInt64) (old : Option Sigaction) :
    (Pc.release r snapshot old).reading sig = false := by
  unfold Pc.release
  split
  · exact Pc.plain_reading (released_plain r old)
  · rfl

/-- The counter is looked at before anything is freed. -/
theorem release_ne_free (r r' : Request) (snapshot x : UInt64) (old old' : Option Sigaction) :
    Pc.release r snapshot old ≠ .free r' x old' := by
  intro h
  unfold Pc.release at h
  split at h
  · have hplain := released_plain r old
    rw [h] at hplain
    cases hplain
  · cases h

/-- It is held in `release_snapshot` as well. -/
theorem release_holds (r : Request) (snapshot : UInt64) (old : Option Sigaction) :
    (Pc.release r snapshot old).holds = true := by
  unfold Pc.release
  split
  · exact released_holds r old
  · rfl

/-- The event is about no snapshot. -/
def Event.plain : Event → Bool
  | .answered _ | .failed => true
  | _ => false

/-- What a step does to the memory and where it leaves the thread. -/
inductive Moves (m : Mem) : Pc → Mem → Pc → List Event → Prop
  | quiet {pc pc' : Pc} {m' : Mem} {es : List Event} (hs : Same m m') (h : pc.plain = true)
    (h' : pc'.plain = true) (he : ∀ e ∈ es, e.plain = true)
    (hl : Threads.LockStep Mem.SIGNAL_UPDATE_LOCK Pc.holds m pc ⟨m', pc', es⟩) :
    Moves m pc m' pc' es
  | enter (sig : Signal) : Moves m (.enter sig)
    (m.store_readers sig ((m.slots sig).readers + 1)) (.load sig) []
  | load_null (sig : Signal) : Moves m (.load sig) m (.leave sig ⟨0, none⟩) []
  | load {sig : Signal} (h : (m.slots sig).current ≠ 0) : Moves m (.load sig) m
    (.read sig (m.slots sig).current (m.heap (m.slots sig).current)) []
  | read (sig : Signal) (snapshot : UInt64) (loaded : Option Block) :
    Moves m (.read sig snapshot loaded) m (.leave sig ⟨snapshot, m.heap snapshot⟩)
      [.read loaded (m.heap snapshot)]
  | leave (sig : Signal) (saved : Saved) : Moves m (.leave sig saved)
    (m.store_readers sig ((m.slots sig).readers - 1))
    (if one_shot saved.action then .reset sig saved else .invoke saved) []
  | clear {sig : Signal} {saved : Saved} (h : (m.slots sig).current = saved.snapshot) :
    Moves m (.reset sig saved) (m.store_current sig 0) (.invoke saved)
      [.reset saved.copied (m.heap saved.snapshot)]
  | missed (sig : Signal) (saved : Saved) : Moves m (.reset sig saved) m (.invoke saved) []
  | malloc (r : Request) (previous : Sigaction) {address : UInt64} (h₀ : address ≠ 0)
    (h : m.heap address = none) : Moves m (.malloc r previous)
    { m with
      heap := Function.update m.heap address (some ⟨r.requested, r.sig, m.serial⟩)
      serial := m.serial + 1 }
    (.swap r previous address) []
  | swap (r : Request) (previous : Sigaction) (snapshot : UInt64) {pc' : Pc}
    (h : (m.slots r.sig).current = 0 ∧ pc' = .install r 0 previous
      ∨ (m.slots r.sig).current ≠ 0 ∧ pc' = .copy_previous r previous (m.slots r.sig).current
        (m.heap (m.slots r.sig).current)) :
    Moves m (.swap r previous snapshot) (m.store_current r.sig snapshot)
      pc' []
  | copy_previous (r : Request) (previous old : Sigaction) (snapshot : UInt64)
    (loaded : Option Block) : Moves m (.copy_previous r previous snapshot loaded) m
    (.install r snapshot old) [.read loaded (m.heap snapshot)]
  | installed (r : Request) (snapshot : UInt64) (old : Sigaction) {m' : Mem} (hs : Same m m')
    (hl : m'.SIGNAL_UPDATE_LOCK = m.SIGNAL_UPDATE_LOCK) :
    Moves m (.install r snapshot old) m' (.release r snapshot (some old)) []
  | refused (r : Request) (snapshot : UInt64) (old : Sigaction) :
    Moves m (.install r snapshot old) m (.roll_back r snapshot) []
  | roll_back (r : Request) (snapshot : UInt64) : Moves m (.roll_back r snapshot)
    (m.store_current r.sig snapshot)
    (.release r (m.slots r.sig).current none) []
  | wait (r : Request) (snapshot : UInt64) (old : Option Sigaction) :
    Moves m (.wait r snapshot old) m (.wait r snapshot old) []
  | unread {r : Request} (snapshot : UInt64) (old : Option Sigaction)
    (h : (m.slots r.sig).readers = 0) : Moves m (.wait r snapshot old) m (.free r snapshot old) []
  | free (r : Request) (snapshot : UInt64) (old : Option Sigaction) :
    Moves m (.free r snapshot old) { m with heap := Function.update m.heap snapshot none }
      (.released r old) [.freed (m.heap snapshot)]

theorem same_store_owned (m : Mem) (sig : Signal) (owned : Bool) :
    Same m (m.store_owned sig owned) := by
  refine ⟨fun sig' => ?_, fun sig' => ?_, rfl, rfl⟩
  · by_cases h : sig' = sig
    · simp [Mem.store_owned, h]
    · simp [Mem.store_owned, h]
  · by_cases h : sig' = sig
    · simp [Mem.store_owned, h]
    · simp [Mem.store_owned, h]

/-- A step that leaves the memory alone, at a place of no interest. -/
theorem Moves.silent {pc pc' : Pc} (h : pc.plain = true) (h' : pc'.plain = true)
    (hl : pc'.holds = pc.holds) : Moves m pc m pc' [] :=
  .quiet (.refl m) h h' (List.forall_mem_nil _) (Or.inl ⟨hl, rfl⟩)

theorem Moves.tells {pc pc' : Pc} {e : Event} (h : pc.plain = true) (h' : pc'.plain = true)
    (he : e.plain = true) (hl : pc'.holds = pc.holds) : Moves m pc m pc' [e] :=
  .quiet (.refl m) h h' (List.forall_mem_singleton.mpr he) (Or.inl ⟨hl, rfl⟩)

/-- An idle thread begins a call, or is done with it at once. -/
theorem begin_moves : Moves m .idle (begin_step image a m).mem
    (begin_step image a m).loc (begin_step image a m).events := by
  unfold begin_step
  split
  · exact .silent rfl rfl rfl
  · split
    · exact .tells rfl rfl rfl rfl
    · split
      · exact .tells rfl rfl rfl rfl
      · exact .silent rfl rfl rfl

/-- Every step is one of the listed moves. -/
theorem moves : Moves m pc (program image T t a m pc).mem (program image T t a m pc).loc
    (program image T t a m pc).events := by
  cases pc with
  | idle => exact begin_moves
  | enter sig => exact .enter sig
  | load sig =>
    simp only [program, forward_step]
    split
    · exact .load_null sig
    · rename_i h
      exact .load h
  | read sig snapshot loaded => exact .read sig snapshot loaded
  | leave sig saved => exact .leave sig saved
  | reset sig saved =>
    simp only [program, forward_step]
    split
    · rename_i h
      exact .clear h
    · exact .missed sig saved
  | invoke saved => exact .tells rfl rfl rfl rfl
  | acquire r =>
    simp only [program, sigaction_step]
    split
    · exact .silent rfl rfl rfl
    · rename_i h
      exact .quiet ⟨fun _ => rfl, fun _ => rfl, rfl, rfl⟩ rfl rfl (List.forall_mem_nil _)
        (Or.inr (Or.inl ⟨Bool.eq_false_iff.mpr h, rfl, rfl⟩))
  | load_owned r =>
    simp only [program, sigaction_step]
    split
    · exact .silent rfl rfl rfl
    · exact .silent rfl rfl rfl
  | pass r =>
    simp only [program, sigaction_step]
    split
    · exact .quiet ⟨fun _ => rfl, fun _ => rfl, rfl, rfl⟩ rfl rfl (List.forall_mem_nil _)
        (Or.inl ⟨rfl, rfl⟩)
    · exact .silent rfl rfl rfl
  | query r =>
    simp only [program, sigaction_step]
    split
    · exact .silent rfl rfl rfl
    · split
      · exact .silent rfl rfl rfl
      · exact .silent rfl rfl rfl
  | malloc r previous =>
    simp only [program, sigaction_step]
    split
    · rename_i h
      exact .malloc r previous h.2.1 h.2.2
    · exact .silent rfl rfl rfl
  | swap r previous snapshot =>
    refine .swap r previous snapshot ?_
    simp only [program, sigaction_step]
    split
    · rename_i h
      exact Or.inl ⟨h, rfl⟩
    · rename_i h
      exact Or.inr ⟨h, rfl⟩
  | copy_previous r previous snapshot loaded => exact .copy_previous r previous _ snapshot loaded
  | install r snapshot old =>
    simp only [program, sigaction_step]
    split
    · exact .installed r snapshot old ⟨fun _ => rfl, fun _ => rfl, rfl, rfl⟩ rfl
    · exact .refused r snapshot old
  | roll_back r snapshot => exact .roll_back r snapshot
  | wait r snapshot old =>
    simp only [program, sigaction_step]
    split
    · rename_i h
      exact .unread snapshot old h
    · exact .wait r snapshot old
  | free r snapshot old => exact .free r snapshot old
  | store_owned r old =>
    exact .quiet (same_store_owned m r.sig true) rfl rfl (List.forall_mem_nil _)
      (Or.inl ⟨rfl, rfl⟩)
  | unlock answer =>
    refine .quiet ⟨fun _ => rfl, fun _ => rfl, rfl, rfl⟩ rfl rfl (List.forall_mem_singleton.mpr ?_)
      (Or.inr (Or.inr ⟨rfl, rfl⟩))
    cases answer with
    | none => rfl
    | some answer => rfl

/-! ## What holds of the snapshots -/

/-- The address is that of a snapshot of the slot. -/
def Live (m : Mem) (sig : Signal) (snapshot : UInt64) : Prop :=
  ∃ b, m.heap snapshot = some b ∧ b.slot = sig

/-- A snapshot that is not the slot's current one. -/
structure Detached (m : Mem) (sig : Signal) (snapshot : UInt64) : Prop where
  ne_null : snapshot ≠ 0
  live : Live m sig snapshot
  not_current : (m.slots sig).current ≠ snapshot

/-- What the slots point to is allocated. -/
def Rooted (m : Mem) : Prop :=
  ∀ sig, (m.slots sig).current ≠ 0 → Live m sig (m.slots sig).current

/-- What a thread may rely on. -/
def Pc.Assumes (m : Mem) : Pc → Prop
  | .read sig snapshot loaded => snapshot ≠ 0 ∧ m.heap snapshot = loaded ∧ Live m sig snapshot
  | .swap r _ snapshot => Detached m r.sig snapshot
  | .copy_previous r _ snapshot loaded => m.heap snapshot = loaded ∧ Detached m r.sig snapshot
  | .install r snapshot _ | .roll_back r snapshot => snapshot ≠ 0 → Detached m r.sig snapshot
  | .wait r snapshot _ | .free r snapshot _ => Detached m r.sig snapshot
  | _ => True

/-- A snapshot is of one slot. -/
theorem Live.slot_unique {sig' : Signal} {snapshot : UInt64} (h : Live m sig snapshot)
    (h' : Live m sig' snapshot) : sig = sig' := by
  obtain ⟨b, hb, rfl⟩ := h
  obtain ⟨b', hb', rfl⟩ := h'
  rw [hb] at hb'
  cases hb'
  rfl

/-- A snapshot that is still allocated is still live. -/
theorem Live.keep {m' : Mem} {snapshot : UInt64} (h : Live m sig snapshot)
    (hheap : m'.heap snapshot = m.heap snapshot) : Live m' sig snapshot := by
  obtain ⟨b, hb, hslot⟩ := h
  exact ⟨b, hheap.trans hb, hslot⟩

/-- A detached snapshot stays so as long as it is allocated and not put back. -/
theorem Detached.keep {m' : Mem} {snapshot : UInt64} (h : Detached m sig snapshot)
    (hheap : m'.heap snapshot = m.heap snapshot)
    (hcur : (m'.slots sig).current = (m.slots sig).current ∨ (m'.slots sig).current = 0) :
    Detached m' sig snapshot := by
  refine ⟨h.ne_null, h.live.keep hheap, ?_⟩
  obtain hcur | hcur := hcur
  · rw [hcur]
    exact h.not_current
  · rw [hcur]
    exact Ne.symm h.ne_null

theorem Same.detached {m' : Mem} {snapshot : UInt64} (hs : Same m m')
    (h : Detached m sig snapshot) : Detached m' sig snapshot :=
  h.keep (congrFun hs.heap snapshot) (Or.inl (hs.current sig))

/-- A detached snapshot is current in no slot. -/
theorem Detached.ne_current {snapshot : UInt64} (h : Detached m sig snapshot) (hroot : Rooted m)
    (sig' : Signal) : (m.slots sig').current ≠ snapshot := by
  intro heq
  have hlive := hroot sig' (heq ▸ h.ne_null)
  rw [heq] at hlive
  obtain rfl := h.live.slot_unique hlive
  exact h.not_current heq

/-- A plain program point relies on nothing. -/
theorem Pc.Assumes.of_plain (h : pc.plain = true) : pc.Assumes m := by
  cases pc with
  | read _ _ _ | swap _ _ _ | copy_previous _ _ _ _ | install _ _ _ | roll_back _ _ | wait _ _ _
  | free _ _ _ => cases h
  | _ => trivial

theorem released_assumes (r : Request) (old : Option Sigaction) : (Pc.released r old).Assumes m :=
  .of_plain (released_plain r old)

/-- `release_snapshot` relies on its snapshot being detached, if there is one. -/
theorem release_assumes {r : Request} {snapshot : UInt64} (old : Option Sigaction)
    (h : snapshot ≠ 0 → Detached m r.sig snapshot) : (Pc.release r snapshot old).Assumes m := by
  unfold Pc.release
  split
  · exact released_assumes r old
  · rename_i hne
    exact h hne

/-- The slots point to what they pointed to, or to nothing, or to what is allocated. -/
theorem Rooted.keep {m' : Mem} (hroot : Rooted m) (h : ∀ sig, (m'.slots sig).current ≠ 0 →
    (m'.slots sig).current = (m.slots sig).current
        ∧ m'.heap (m.slots sig).current = m.heap (m.slots sig).current
      ∨ Live m' sig (m'.slots sig).current) : Rooted m' := by
  intro sig hne
  obtain ⟨hcur, hheap⟩ | hlive := h sig hne
  · rw [hcur] at hne ⊢
    exact (hroot sig hne).keep hheap
  · exact hlive

section Moves

variable {m' : Mem} {pc' : Pc} {es : List Event} (h : Moves m pc m' pc' es)
include h

/-- The counter goes with the readers. -/
theorem Moves.readers (sig : Signal) :
    (m'.slots sig).readers + .ofNat (pc.reading sig).toNat
      = (m.slots sig).readers + .ofNat (pc'.reading sig).toNat := by
  cases h with
  | quiet hs h h' he hl => rw [hs.readers, Pc.plain_reading h, Pc.plain_reading h']
  | enter s =>
    by_cases hs : sig = s
    · subst hs
      simp [Pc.reading]
    · rw [store_readers_of_ne m _ hs]
      simp [Pc.reading, Ne.symm hs]
  | leave s saved =>
    have hpc' : (if one_shot saved.action then Pc.reset s saved else .invoke saved).reading sig
        = false := by
      split <;> rfl
    rw [hpc']
    by_cases hs : sig = s
    · subst hs
      simp [Pc.reading]
    · rw [store_readers_of_ne m _ hs]
      simp [Pc.reading, Ne.symm hs]
  | load_null s | load hne | read s snapshot loaded | missed s saved => rfl
  | @clear s saved hcur =>
    rw [store_current_readers]
    rfl
  | malloc r previous h₀ hnone => rfl
  | swap r previous snapshot hcase =>
    rw [store_current_readers]
    obtain ⟨-, rfl⟩ | ⟨-, rfl⟩ := hcase
    · rfl
    · rfl
  | copy_previous r previous old snapshot loaded => rfl
  | installed r snapshot old hs hl =>
    rw [hs.readers, release_reading]
    rfl
  | refused r snapshot old => rfl
  | roll_back r snapshot =>
    rw [store_current_readers, release_reading]
    rfl
  | wait r snapshot old | unread snapshot old hr => rfl
  | free r snapshot old =>
    rw [Pc.plain_reading (released_plain r old)]
    rfl

/-- What is allocated stays so, but for what the thread frees. -/
theorem Moves.heap (x : UInt64) :
    m'.heap x = m.heap x ∨ m.heap x = none ∨ ∃ r old, pc = .free r x old := by
  cases h with
  | quiet hs h h' he hl => exact Or.inl (congrFun hs.heap x)
  | installed r snapshot old hs hl => exact Or.inl (congrFun hs.heap x)
  | @malloc r previous address h₀ hnone =>
    by_cases hx : x = address
    · exact Or.inr (Or.inl (hx ▸ hnone))
    · exact Or.inl (Function.update_of_ne hx ..)
  | free r snapshot old =>
    by_cases hx : x = snapshot
    · exact Or.inr (Or.inr ⟨r, old, hx ▸ rfl⟩)
    · exact Or.inl (Function.update_of_ne hx ..)
  | _ => exact Or.inl rfl

/-- Without the lock a thread can only clear a slot. -/
theorem Moves.current (hpc : pc.holds = false) (sig : Signal) :
    (m'.slots sig).current = (m.slots sig).current ∨ (m'.slots sig).current = 0 := by
  cases h with
  | quiet hs h h' he hl => exact Or.inl (hs.current sig)
  | enter s => exact Or.inl (store_readers_current ..)
  | leave s saved => exact Or.inl (store_readers_current ..)
  | @clear s saved hcur =>
    by_cases hs : sig = s
    · rw [hs]
      exact Or.inr (store_current_self ..)
    · exact Or.inl (store_current_of_ne m 0 hs)
  | load_null s | load hne | read s snapshot loaded | missed s saved => exact Or.inl rfl
  | _ => cases hpc

/-- The lock is taken by the exchange and given back by the store. -/
theorem Moves.lock_step : Threads.LockStep Mem.SIGNAL_UPDATE_LOCK Pc.holds m pc ⟨m', pc', es⟩ := by
  cases h with
  | quiet hs h h' he hl => exact hl
  | leave sig saved =>
    left
    dsimp only
    split
    · exact ⟨rfl, rfl⟩
    · exact ⟨rfl, rfl⟩
  | swap r previous snapshot hcase =>
    left
    obtain ⟨-, rfl⟩ | ⟨-, rfl⟩ := hcase
    · exact ⟨rfl, rfl⟩
    · exact ⟨rfl, rfl⟩
  | installed r snapshot old hs hl => exact Or.inl ⟨release_holds r snapshot _, hl⟩
  | roll_back r snapshot => exact Or.inl ⟨release_holds r _ _, rfl⟩
  | free r snapshot old => exact Or.inl ⟨released_holds r old, rfl⟩
  | _ => exact Or.inl ⟨rfl, rfl⟩

/-- **One step of the thread itself.** It comes to rely on what is so. -/
theorem Moves.assumes (ha : pc.Assumes m) (hroot : Rooted m) : pc'.Assumes m' := by
  cases h with
  | quiet hs h h' he hl => exact .of_plain h'
  | load hne => exact ⟨hne, rfl, hroot _ hne⟩
  | leave sig saved =>
    split
    · trivial
    · trivial
  | malloc r previous h₀ hnone =>
    refine ⟨h₀, ⟨_, Function.update_self .., rfl⟩, fun hcur => ?_⟩
    -- What is current is allocated, so `malloc` does not return it.
    obtain ⟨b, hb, -⟩ := hroot r.sig (hcur ▸ h₀)
    rw [hcur, hnone] at hb
    cases hb
  | swap r previous snapshot hcase =>
    have hnew : Detached m r.sig snapshot := ha
    obtain ⟨-, rfl⟩ | ⟨hne, rfl⟩ := hcase
    · exact fun h₀ => absurd rfl h₀
    · refine ⟨rfl, hne, hroot r.sig hne, ?_⟩
      rw [store_current_self]
      exact Ne.symm hnew.not_current
  | copy_previous r previous old snapshot loaded => exact fun _ => ha.2
  | installed r snapshot old hs hl => exact release_assumes _ fun hne => hs.detached (ha hne)
  | refused r snapshot old => exact ha
  | roll_back r snapshot =>
    refine release_assumes _ fun hne => ⟨hne, hroot r.sig hne, ?_⟩
    rw [store_current_self]
    by_cases h₀ : snapshot = 0
    · rw [h₀]
      exact Ne.symm hne
    · exact Ne.symm (ha h₀).not_current
  | wait r snapshot old => exact ha
  | unread snapshot old hr => exact ha
  | free r snapshot old => exact released_assumes r old
  | enter _ | load_null _ | read _ _ _ | clear _ | missed _ _ => trivial

theorem Moves.rooted (ha : pc.Assumes m) (hroot : Rooted m) : Rooted m' := by
  refine hroot.keep fun sig hne => ?_
  -- The slot whose pointer is stored is the only one that changes.
  have hstore {s : Signal} {snapshot : UInt64} (hm : m' = m.store_current s snapshot)
      (hlive : snapshot ≠ 0 → Live m s snapshot) : (m'.slots sig).current = (m.slots sig).current
        ∧ m'.heap (m.slots sig).current = m.heap (m.slots sig).current
      ∨ Live m' sig (m'.slots sig).current := by
    subst hm
    by_cases hs : sig = s
    · subst hs
      rw [store_current_self] at hne ⊢
      exact Or.inr (hlive hne)
    · exact Or.inl ⟨store_current_of_ne m snapshot hs, rfl⟩
  cases h with
  | quiet hs h h' he hl => exact Or.inl ⟨hs.current sig, congrFun hs.heap _⟩
  | installed r snapshot old hs hl => exact Or.inl ⟨hs.current sig, congrFun hs.heap _⟩
  | enter s => exact Or.inl ⟨store_readers_current .., rfl⟩
  | leave s saved => exact Or.inl ⟨store_readers_current .., rfl⟩
  | clear hcur => exact hstore rfl fun h₀ => absurd rfl h₀
  | malloc r previous h₀ hnone =>
    refine Or.inl ⟨rfl, Function.update_of_ne (fun heq => ?_) ..⟩
    obtain ⟨b, hb, -⟩ := hroot sig hne
    rw [heq, hnone] at hb
    cases hb
  | swap r previous snapshot hcase => exact hstore rfl fun _ => Detached.live ha
  | roll_back r snapshot => exact hstore rfl fun h₀ => (ha h₀).live
  | free r snapshot old =>
    exact Or.inl ⟨rfl, Function.update_of_ne (Detached.ne_current ha hroot sig) ..⟩
  | _ => exact Or.inl ⟨rfl, rfl⟩

/-- A snapshot is freed after its slot was seen without readers. -/
theorem Moves.to_free {r : Request} {x : UInt64} {old : Option Sigaction}
    (hpc' : pc' = .free r x old) : pc = .wait r x old ∧ (m.slots r.sig).readers = 0 := by
  cases h with
  | quiet hs h h' he hl =>
    subst hpc'
    cases h'
  | leave sig saved => split at hpc' <;> cases hpc'
  | swap r previous snapshot hcase =>
    subst hpc'
    obtain ⟨-, h⟩ | ⟨-, h⟩ := hcase <;> cases h
  | installed r snapshot old hs hl => exact absurd hpc' (release_ne_free r _ _ _ _ _)
  | roll_back r snapshot => exact absurd hpc' (release_ne_free r _ _ _ _ _)
  | free r' snapshot old' =>
    have hplain := released_plain r' old'
    rw [hpc'] at hplain
    cases hplain
  | unread snapshot old hr =>
    cases hpc'
    exact ⟨rfl, hr⟩
  | _ => cases hpc'

/-- A reader reads the snapshot that is current when it loads the pointer. -/
theorem Moves.to_read {x : UInt64} {loaded : Option Block} (hpc' : pc' = .read sig x loaded) :
    x = (m.slots sig).current := by
  have hreading : pc'.reading sig = true := by
    rw [hpc']
    exact decide_eq_true rfl
  cases h with
  | quiet hs h h' he hl =>
    rw [Pc.plain_reading h'] at hreading
    cases hreading
  | leave sig saved => split at hpc' <;> cases hpc'
  | swap r previous snapshot hcase =>
    subst hpc'
    obtain ⟨-, h⟩ | ⟨-, h⟩ := hcase <;> cases h
  | installed r snapshot old hs hl =>
    rw [release_reading] at hreading
    cases hreading
  | roll_back r snapshot =>
    rw [release_reading] at hreading
    cases hreading
  | free r snapshot old =>
    rw [Pc.plain_reading (released_plain r old)] at hreading
    cases hreading
  | load hne =>
    cases hpc'
    rfl
  | _ => cases hpc'

/-- **The step of another thread.** What a thread relies on stays so, if only one of the two
holds the lock and the other frees nothing the thread is reading. -/
theorem Pc.Assumes.other {pc₁ : Pc} (ha : pc₁.Assumes m) (hex : pc₁.holds = true → pc.holds = false)
    (hread : ∀ sig a loaded r old, pc₁ = .read sig a loaded → pc ≠ .free r a old) :
    pc₁.Assumes m' := by
  have hkeep {s : Signal} {x : UInt64} (hlive : Live m s x) (hno : ∀ r old, pc ≠ .free r x old) :
      m'.heap x = m.heap x := by
    obtain hheap | hnone | ⟨r, old, hpc⟩ := h.heap x
    · exact hheap
    · obtain ⟨b, hb, -⟩ := hlive
      rw [hnone] at hb
      cases hb
    · exact absurd hpc (hno r old)
  -- A thread without the lock frees nothing.
  have hheld {s : Signal} {x : UInt64} (hholds : pc₁.holds = true) (hd : Detached m s x) :
      m'.heap x = m.heap x := by
    refine hkeep hd.live fun r old hfree => ?_
    have hpc := hex hholds
    rw [hfree] at hpc
    cases hpc
  have hdet {s : Signal} {x : UInt64} (hholds : pc₁.holds = true) (hd : Detached m s x) :
      Detached m' s x := hd.keep (hheld hholds hd) (h.current (hex hholds) s)
  cases pc₁ with
  | read s snapshot loaded =>
    obtain ⟨hne, hload, hlive⟩ := ha
    have hheap := hkeep hlive fun r old => hread s snapshot loaded r old rfl
    exact ⟨hne, hheap.trans hload, hlive.keep hheap⟩
  | swap r previous snapshot => exact hdet rfl ha
  | copy_previous r previous snapshot loaded =>
    obtain ⟨hload, hd⟩ := ha
    exact ⟨(hheld rfl hd).trans hload, hdet rfl hd⟩
  | install r snapshot old => exact fun hne => hdet rfl (ha hne)
  | roll_back r snapshot => exact fun hne => hdet rfl (ha hne)
  | wait r snapshot old => exact hdet rfl ha
  | free r snapshot old => exact hdet rfl ha
  | _ => trivial

end Moves

/-! ## What the steps show -/

/-- No read or `free` of a snapshot that has been freed: what is read is the snapshot the pointer
was loaded for, and what is freed is allocated. -/
def Event.Safe : Event → Prop
  | .read loaded found => ∃ b, loaded = some b ∧ found = some b
  | .freed found => ∃ b, found = some b
  | _ => True

/-- The number of the snapshot freed. -/
def Event.freed? : Event → Option ℕ
  | .freed found => found.map Block.serial
  | _ => none

/-- The snapshots freed in a trace. -/
def freed (tr : List (T × Event)) : List ℕ := tr.filterMap fun e => e.2.freed?

/-- Snapshots have different numbers, below the next one, and those freed are not allocated. -/
structure Numbered (ns : List ℕ) (m : Mem) : Prop where
  below : ∀ a b, m.heap a = some b → b.serial < m.serial
  unique : ∀ a a' b b', m.heap a = some b → m.heap a' = some b' → b.serial = b'.serial → a = a'
  freed_below : ∀ n ∈ ns, n < m.serial
  freed_gone : ∀ n ∈ ns, ∀ a b, m.heap a = some b → b.serial ≠ n
  nodup : ns.Nodup

theorem freed_append (tr tr' : List (T × Event)) : freed (tr ++ tr') = freed tr ++ freed tr' :=
  List.filterMap_append

/-- What a thread's events free does not depend on the thread. -/
theorem freed_own (t : T) (es : List Event) :
    freed (es.map (Prod.mk t)) = es.filterMap Event.freed? :=
  List.filterMap_map

theorem Event.freed?_of_plain {e : Event} (he : e.plain = true) : e.freed? = none := by
  cases e with
  | freed _ => cases he
  | _ => rfl

theorem Event.Safe.of_plain {e : Event} (he : e.plain = true) : e.Safe := by
  cases e with
  | read _ _ | freed _ => cases he
  | _ => trivial

section Moves

variable {m' : Mem} {pc' : Pc} {es : List Event} (h : Moves m pc m' pc' es)
include h

/-- What a step reads or frees is allocated, and what it reads is what the pointer stood for. -/
theorem Moves.safe (ha : pc.Assumes m) : ∀ e ∈ es, e.Safe := by
  cases h with
  | quiet hs h h' he hl => exact fun e hmem => .of_plain (he e hmem)
  | read s snapshot loaded =>
    obtain ⟨-, hload, b, hb, -⟩ := ha
    exact List.forall_mem_singleton.mpr ⟨b, hload.symm.trans hb, hb⟩
  | copy_previous r previous old snapshot loaded =>
    obtain ⟨hload, -, ⟨b, hb, -⟩, -⟩ := ha
    exact List.forall_mem_singleton.mpr ⟨b, hload.symm.trans hb, hb⟩
  | clear hcur => exact List.forall_mem_singleton.mpr trivial
  | free r snapshot old =>
    obtain ⟨-, ⟨b, hb, -⟩, -⟩ := ha
    exact List.forall_mem_singleton.mpr ⟨b, hb⟩
  | _ => exact List.forall_mem_nil _

/-- A step allocates one snapshot, frees one, or does neither. -/
theorem Moves.blocks : (m'.heap = m.heap ∧ m'.serial = m.serial ∧ es.filterMap Event.freed? = [])
    ∨ (∃ a b, m.heap a = none ∧ b.serial = m.serial ∧ m'.heap = Function.update m.heap a (some b)
      ∧ m'.serial = m.serial + 1 ∧ es = [])
    ∨ ∃ a, m'.heap = Function.update m.heap a none ∧ m'.serial = m.serial
      ∧ es.filterMap Event.freed? = ((m.heap a).map Block.serial).toList := by
  cases h with
  | quiet hs h h' he hl =>
    refine Or.inl ⟨hs.heap, hs.serial, ?_⟩
    rw [List.filterMap_eq_nil_iff]
    exact fun e hmem => Event.freed?_of_plain (he e hmem)
  | installed r snapshot old hs hl => exact Or.inl ⟨hs.heap, hs.serial, rfl⟩
  | malloc r previous h₀ hnone => exact Or.inr (Or.inl ⟨_, _, hnone, rfl, rfl, rfl, rfl⟩)
  | free r snapshot old =>
    refine Or.inr (Or.inr ⟨snapshot, rfl, rfl, ?_⟩)
    simp only [List.filterMap_cons, Event.freed?]
    cases m.heap snapshot <;> rfl
  | _ => exact Or.inl ⟨rfl, rfl, rfl⟩

/-- The numbers stay different, and a number that is freed is gone. -/
theorem Moves.numbered {ns : List ℕ} (hn : Numbered ns m) :
    Numbered (ns ++ es.filterMap Event.freed?) m' := by
  obtain ⟨hheap, hser, hes⟩ | ⟨a, b, hnone, hb, hheap, hser, rfl⟩ | ⟨a, hheap, hser, hes⟩ :=
    h.blocks
  · rw [hes, List.append_nil]
    exact ⟨by rw [hheap, hser]; exact hn.below, by rw [hheap]; exact hn.unique,
      by rw [hser]; exact hn.freed_below, by rw [hheap]; exact hn.freed_gone, hn.nodup⟩
  · have hold {x : UInt64} {c : Block} (hx : m'.heap x = some c) :
        x = a ∧ c.serial = m.serial ∨ m.heap x = some c ∧ c.serial < m.serial := by
      rw [hheap, Function.update_apply] at hx
      split at hx
      · cases hx
        exact Or.inl ⟨‹x = a›, hb⟩
      · exact Or.inr ⟨hx, hn.below x c hx⟩
    rw [List.filterMap_nil, List.append_nil]
    refine ⟨fun x c hx => ?_, fun x x' c c' hx hx' heq => ?_, fun n hmem => ?_,
      fun n hmem x c hx => ?_, hn.nodup⟩
    · rw [hser]
      obtain ⟨-, hc⟩ | ⟨-, hc⟩ := hold hx
      · exact hc ▸ Nat.lt_succ_self _
      · exact hc.trans (Nat.lt_succ_self _)
    · obtain ⟨rfl, hc⟩ | ⟨hmx, hc⟩ := hold hx
      · obtain ⟨rfl, -⟩ | ⟨-, hc'⟩ := hold hx'
        · rfl
        · omega
      · obtain ⟨rfl, hc'⟩ | ⟨hmx', -⟩ := hold hx'
        · omega
        · exact hn.unique x x' c c' hmx hmx' heq
    · rw [hser]
      exact (hn.freed_below n hmem).trans (Nat.lt_succ_self _)
    · have hlt := hn.freed_below n hmem
      obtain ⟨-, hc⟩ | ⟨hmx, -⟩ := hold hx
      · omega
      · exact hn.freed_gone n hmem x c hmx
  · have hold {x : UInt64} {c : Block} (hx : m'.heap x = some c) : x ≠ a ∧ m.heap x = some c := by
      rw [hheap, Function.update_apply] at hx
      split at hx
      · cases hx
      · exact ⟨‹¬x = a›, hx⟩
    have hmem_es {n : ℕ} (hmem : n ∈ es.filterMap Event.freed?) :
        ∃ b, m.heap a = some b ∧ b.serial = n := by
      rw [hes, Option.mem_toList] at hmem
      exact Option.map_eq_some_iff.mp hmem
    refine ⟨fun x c hx => hser ▸ hn.below x c (hold hx).2,
      fun x x' c c' hx hx' => hn.unique x x' c c' (hold hx).2 (hold hx').2,
      fun n hmem => ?_, fun n hmem x c hx heq => ?_, ?_⟩
    · rw [hser]
      obtain hmem | hmem := List.mem_append.mp hmem
      · exact hn.freed_below n hmem
      · obtain ⟨b, hb, rfl⟩ := hmem_es hmem
        exact hn.below a b hb
    · obtain ⟨hne, hmx⟩ := hold hx
      obtain hmem | hmem := List.mem_append.mp hmem
      · exact hn.freed_gone n hmem x c hmx heq
      · obtain ⟨b, hb, rfl⟩ := hmem_es hmem
        exact hne (hn.unique x a c b hmx hb heq)
    · refine List.nodup_append.mpr ⟨hn.nodup, ?_, fun n hmem n' hmem' heq => ?_⟩
      · rw [hes]
        cases m.heap a with
        | none => exact List.nodup_nil
        | some b => exact List.nodup_singleton _
      · obtain ⟨b, hb, rfl⟩ := hmem_es hmem'
        exact hn.freed_gone n hmem a b hb heq.symm

end Moves

/-! ## Every run -/

/-- Nobody reads what is about to be freed. -/
def Unread (c : Config T Mem Pc) : Prop :=
  ∀ t u r sig a loaded old, c.loc t = .free r a old → c.loc u ≠ .read sig a loaded

structure Inv [Fintype T] (tr : List (T × Event)) (c : Config T Mem Pc) : Prop where
  lock : Threads.Exclusive Mem.SIGNAL_UPDATE_LOCK Pc.holds c
  readers : ∀ sig, (c.mem.slots sig).readers = .ofNat (Threads.count (Pc.reading sig) c.loc)
  rooted : Rooted c.mem
  assumes : ∀ t, (c.loc t).Assumes c.mem
  unread : Unread c
  numbered : Numbered (freed tr) c.mem
  safe : ∀ e ∈ tr, e.2.Safe

section Run

variable [DecidableEq T] [Fintype T]

omit [DecidableEq T] in
/-- At the start nothing is allocated and nobody reads. -/
theorem inv_start (kernel : Signal → Sigaction) : Inv [] (start T kernel) where
  lock t h := by cases h
  readers sig := by
    have hcount : Threads.count (Pc.reading sig) (start T kernel).loc = 0 := by
      simp [Threads.count, start, Pc.reading]
    rw [hcount]
    rfl
  rooted sig hne := absurd rfl hne
  assumes t := trivial
  unread t u r sig a loaded old hfree := by cases hfree
  numbered := by
    refine ⟨fun a b h => ?_, fun a a' b b' h => ?_, List.forall_mem_nil _, List.forall_mem_nil _,
      List.nodup_nil⟩
    · simp [start] at h
    · simp [start] at h
  safe := List.forall_mem_nil _

omit [DecidableEq T] in
/-- The counter at 0 says that nobody reads what was taken out of the slot. -/
theorem Inv.no_reader (hT : Fintype.card T < 2 ^ 32) {tr : List (T × Event)} {c : Config T Mem Pc}
    (h : Inv tr c) {t u : T} {r : Request} {x : UInt64} {old : Option Sigaction}
    {loaded : Option Block} (hwait : c.loc t = .wait r x old)
    (hzero : (c.mem.slots r.sig).readers = 0) : c.loc u ≠ .read sig x loaded := by
  intro hread
  have hdet := h.assumes t
  have hlive := h.assumes u
  rw [hwait] at hdet
  rw [hread] at hlive
  obtain rfl : sig = r.sig := hlive.2.2.slot_unique (Detached.live hdet)
  have hpos : 0 < Threads.count (Pc.reading r.sig) c.loc := by
    refine Threads.count_pos (i := u) ?_
    rw [hread]
    exact decide_eq_true rfl
  have hle := (Threads.count_le_card (Pc.reading r.sig) c.loc).trans_lt hT
  have hcount := congrArg UInt32.toNat ((h.readers r.sig).symm.trans hzero)
  rw [UInt32.toNat_ofNat', Nat.mod_eq_of_lt hle] at hcount
  exact hpos.ne' hcount

/-- What is about to be freed has no reader after the step either: whoever reads it had counted
itself in, and the counter was 0. -/
theorem Inv.unread_step (hT : Fintype.card T < 2 ^ 32) {tr : List (T × Event)}
    {c : Config T Mem Pc} (h : Inv tr c) {t : T} {o : Outcome Mem Pc Event}
    (hm : Moves c.mem (c.loc t) o.mem o.loc o.events) : Unread (c.after t o) := by
  intro u v r sig x loaded old hfree hread
  by_cases hu : u = t
  · subst hu
    rw [Threads.Config.after_loc_self] at hfree
    by_cases hv : v = u
    · rw [hv, Threads.Config.after_loc_self, hfree] at hread
      cases hread
    · rw [Threads.Config.after_loc_of_ne _ _ hv] at hread
      obtain ⟨hwait, hzero⟩ := hm.to_free hfree
      exact h.no_reader hT hwait hzero hread
  · rw [Threads.Config.after_loc_of_ne _ _ hu] at hfree
    by_cases hv : v = t
    · -- A new reader finds what is current, and that is not being freed.
      subst hv
      rw [Threads.Config.after_loc_self] at hread
      have hdet := h.assumes u
      rw [hfree] at hdet
      exact Detached.ne_current hdet h.rooted sig (hm.to_read hread).symm
    · rw [Threads.Config.after_loc_of_ne _ _ hv] at hread
      exact h.unread u v r sig x loaded old hfree hread

/-- The invariant survives every step. -/
theorem Inv.step (hT : Fintype.card T < 2 ^ 32) {tr : List (T × Event)} {c : Config T Mem Pc}
    (h : Inv tr c) (t : T) (a : Choice) :
    Inv (tr ++ (program image T t a c.mem (c.loc t)).events.map (Prod.mk t))
      (c.after t (program image T t a c.mem (c.loc t))) := by
  have hm := @moves image T t a c.mem (c.loc t)
  generalize program image T t a c.mem (c.loc t) = o at hm ⊢
  refine ⟨h.lock.after hm.lock_step, fun sig => ?_, hm.rooted (h.assumes t) h.rooted, fun u => ?_,
    h.unread_step hT hm, ?_, fun e hmem => ?_⟩
  · have hreaders := hm.readers sig
    have hcount := congrArg UInt32.ofNat (Threads.count_update (Pc.reading sig) c.loc t o.loc)
    rw [UInt32.ofNat_add, UInt32.ofNat_add] at hcount
    rw [h.readers sig, ← hcount] at hreaders
    exact (UInt32.add_left_inj _).mp hreaders
  · by_cases hu : u = t
    · rw [hu, Threads.Config.after_loc_self]
      exact hm.assumes (h.assumes t) h.rooted
    · rw [Threads.Config.after_loc_of_ne _ _ hu]
      refine Pc.Assumes.other hm (h.assumes u) (fun hholds => ?_) ?_
      · rw [← Bool.not_eq_true]
        exact fun ht => hu ((h.lock t ht).2 u hholds)
      · exact fun sig x loaded r old hread hfree =>
          h.unread t u r sig x loaded old hfree hread
  · rw [freed_append, freed_own]
    exact hm.numbered h.numbered
  · obtain hmem | hmem := List.mem_append.mp hmem
    · exact h.safe e hmem
    · obtain ⟨e', he', rfl⟩ := List.mem_map.mp hmem
      exact hm.safe (h.assumes t) e' he'

/-- The invariant holds after every run. -/
theorem inv_run (hT : Fintype.card T < 2 ^ 32) (kernel : Signal → Sigaction)
    (s : List (T × Choice)) : Inv (trace (program image T) (start T kernel) s)
      (run (program image T) (start T kernel) s) :=
  Threads.run_induct_after (program image T) (inv_start kernel) (fun _ _ t a h => h.step hT t a) s

end Run

/-- There are fewer thread ids than a counter of 32 bits can count. -/
theorem card_tid_lt : Fintype.card Markers.Tid < 2 ^ 32 :=
  Markers.card_tid_le.trans_lt (by decide)

/-- **Snapshots are reclaimed safely.** In every run of any threads, whatever fails, no snapshot is
read or freed after it was freed, and a slot points to one that is allocated for it, or to
nothing. -/
theorem reclamation_is_safe (image : Image) (kernel : Signal → Sigaction)
    (s : List (Markers.Tid × Choice)) :
    (∀ e ∈ trace (program image Markers.Tid) (start Markers.Tid kernel) s, e.2.Safe)
      ∧ (freed (trace (program image Markers.Tid) (start Markers.Tid kernel) s)).Nodup
      ∧ Rooted (run (program image Markers.Tid) (start Markers.Tid kernel) s).mem := by
  have h : Inv (trace (program image Markers.Tid) (start Markers.Tid kernel) s) _ :=
    inv_run card_tid_lt kernel s
  exact ⟨h.safe, h.numbered.nodup, h.rooted⟩

end Linuwux.Snapshots
