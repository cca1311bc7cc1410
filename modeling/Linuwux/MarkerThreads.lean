/-
`MarkerThreads.lean` -- the marker table one atomic access at a time.

Any thread can be inside `dispatcher_target` (which retires markers and may arm one) or
inside `redirect` (which consumes one and may cancel it). As in `ReflexThreads.lean`, a
thread is idle or at a program point, and one step makes one access. `find_marker` and
`release_marker` have their own program points ([`FindPc`], [`ReleasePc`]) and are run by
whoever called them.

Two more moves touch no memory: a bridged call returns to its caller, and a thread exits.
The source does nothing there, and that is what the leak and exhaustion results are about.
An exited thread's id is idle again, so it can be reused.
-/
import Linuwux.Threads
import Linuwux.MarkerTable

set_option autoImplicit false

namespace Linuwux.Markers

open Threads (Outcome Program Config)

/-! ## What a thread does and shows -/

/-- What an idle thread does next. -/
inductive Op where
  | dispatch (d : Dispatch)
  | trap (r : Trap)
  | returned (stack : UInt64)
  | exited

inductive Event where
  /-- `dispatcher_target` begins, with this `trap_rsp`. -/
  | entered (stack : UInt64)
  /-- `remember_marker` is called with nonzero arguments. -/
  | bridged (stack rip : UInt64)
  /-- `remember_marker` returns true. -/
  | armed (stack rip : UInt64)
  /-- `remember_marker` finds no free slot and returns false. -/
  | refused (stack rip : UInt64)
  /-- `dispatcher_target` returns. -/
  | dispatched (target : UInt64)
  /-- `redirect` begins. -/
  | trapped (stack rip : UInt64)
  /-- `consume` returns `Route`. -/
  | routed (stack rip : UInt64) (context : SavedContext)
  /-- `consume` returns `Replay`. -/
  | replayed (stack rip : UInt64) (saved : SavedContext)
  /-- `consume` reaches its last lines. -/
  | fell_through (stack rip : UInt64)
  /-- `retire_markers` or `cancel` has released a marker. -/
  | dropped (stack : UInt64)
  /-- `redirect` returns. -/
  | redirected (handled : Bool)
  | returned (stack : UInt64)
  | exited

/-! ## Program points -/

/-- The index the loops start from. -/
def first : Index := ⟨0, by decide⟩

/-- The access `find_marker` is about to make; the last three are at a probe offset. -/
inductive FindPc where
  | active
  | stack (offset : Index)
  | tid (offset : Index)
  | rip (offset : Index)

/-- The access `release_marker` is about to make. -/
inductive ReleasePc where
  | cas
  | clear_tid
  | clear_rip
  | clear_phase
  | clear_word (w : Word) (rest : List Word)
  | free
  | uncount

/-- The access `dispatcher_target` is about to make, in `retire_markers` and in
`remember_marker`. Between the two it looks at its caller and touches no marker. -/
inductive DispatchPc where
  | has_active
  | retire_active
  | retire_tid (index : Index)
  | retire_stack (index : Index)
  | retire_again (index : Index) (recorded : UInt64)
  | retire_release (index : Index) (recorded : UInt64) (pc : ReleasePc)
  | decide
  | reserve (raw : UInt64) (offset : Index)
  | count (raw : UInt64) (index : Index)
  | arm_tid (raw : UInt64) (index : Index)
  | arm_rip (raw : UInt64) (index : Index)
  | arm_phase (raw : UInt64) (index : Index)
  | publish (raw : UInt64) (index : Index)

/-- Why `redirect` releases a marker. -/
inductive Release where
  | replay (saved : SavedContext)
  | fall_through
  | cancel

/-- The access `redirect` is about to make, in `consume` and in `cancel`. -/
inductive TrapPc where
  | consume_find (pc : FindPc)
  | route (index : Index)
  | save (index : Index) (w : Word) (rest : List Word)
  | replay (index : Index)
  | load (index : Index) (w : Word) (rest : List Word) (got : Word → UInt64)
  | cancel_find (pc : FindPc)
  | release (index : Index) (pc : ReleasePc) (why : Release)

inductive Thread where
  | idle
  | dispatching (d : Dispatch) (pc : DispatchPc)
  | trapping (r : Trap) (pc : TrapPc)

/-! ## `find_marker` and `release_marker` -/

/-- `find_marker` goes on, or returns. -/
inductive Found where
  | more (pc : FindPc)
  | done (index : Option Index)

/-- The next offset of the probe. -/
def find_next (offset : Index) : Found :=
  if h : offset.val + 1 < MARKER_CAPACITY then .more (.stack ⟨offset.val + 1, h⟩) else .done none

def find_step (t : Tid) (m : Table) (stack rip : UInt64) : FindPc → Found
  | .active => if m.active = 0 then .done none else .more (.stack first)
  -- Three loads of one slot, each a step: the slot can change hands in between.
  | .stack k => if (m.markers (probe stack k)).stack = stack then .more (.tid k) else find_next k
  | .tid k => if (m.markers (probe stack k)).tid = t.val then .more (.rip k) else find_next k
  | .rip k =>
    if (m.markers (probe stack k)).rip = rip then .done (some (probe stack k)) else find_next k

/-- Clear these words, then free the slot. -/
def ReleasePc.words : List Word → ReleasePc
  | [] => .free
  | w :: rest => .clear_word w rest

/-- One access of `release_marker`. It has returned when there is no next one. -/
def release_step (m : Table) (index : Index) (stack : UInt64) :
    ReleasePc → Table × Option ReleasePc
  | .cas =>
    if (m.markers index).stack = stack then
      (m.set index { m.markers index with stack := U64_MAX }, some .clear_tid)
    else (m, none)
  -- The slot is reserved again while its words are cleared, and free only after that.
  | .clear_tid => (m.set index { m.markers index with tid := 0 }, some .clear_rip)
  | .clear_rip => (m.set index { m.markers index with rip := 0 }, some .clear_phase)
  | .clear_phase => (m.set index { m.markers index with phase := 0 }, some (.words Word.saved))
  | .clear_word w rest =>
    (m.set index { m.markers index with words := Function.update (m.markers index).words w 0 },
      some (.words rest))
  | .free => (m.set index { m.markers index with stack := 0 }, some .uncount)
  | .uncount => ({ m with active := m.active - 1 }, none)

/-- A marker is dropped when its release has run to the end. -/
def ReleasePc.dropped (stack : UInt64) : ReleasePc → List Event
  | .uncount => [.dropped stack]
  | _ => []

/-! ## `dispatcher_target` -/

/-- `dispatcher_target` after `retire_markers`, up to the first access of
`remember_marker`. -/
def remember (t : Tid) (m : Table) (d : Dispatch) : Outcome Table Thread Event :=
  match d.replays with
  | none => ⟨m, .idle, [.dispatched d.original]⟩
  | some raw =>
    if t.val = 0 ∨ d.trap_rsp = 0 ∨ Dispatch.trap_rip raw = 0 then
      ⟨m, .idle, [.dispatched d.original]⟩
    else
      ⟨m, .dispatching d (.reserve raw first), [.bridged d.trap_rsp (Dispatch.trap_rip raw)]⟩

/-- The next index of `retire_markers`. -/
def retire_next (index : Index) : DispatchPc :=
  if h : index.val + 1 < MARKER_CAPACITY then .retire_tid ⟨index.val + 1, h⟩ else .decide

def dispatch_step (t : Tid) (m : Table) (d : Dispatch) : DispatchPc → Outcome Table Thread Event
  -- `dispatcher_target` asks before it calls `retire_markers`, which asks again.
  | .has_active => ⟨m, .dispatching d (if m.active ≠ 0 then .retire_active else .decide), []⟩
  | .retire_active => ⟨m, .dispatching d (if m.active ≠ 0 then .retire_tid first else .decide), []⟩
  | .retire_tid i =>
    ⟨m, .dispatching d (if (m.markers i).tid ≠ t.val then retire_next i else .retire_stack i), []⟩
  | .retire_stack i =>
    let recorded := (m.markers i).stack
    ⟨m, .dispatching d
      (if recorded = 0 ∨ recorded = U64_MAX ∨ recorded > d.trap_rsp then retire_next i
        else .retire_again i recorded), []⟩
  | .retire_again i recorded =>
    ⟨m, .dispatching d (if (m.markers i).tid ≠ t.val then retire_next i
      else .retire_release i recorded .cas), []⟩
  | .retire_release i recorded pc =>
    match release_step m i recorded pc with
    | (m', some pc') => ⟨m', .dispatching d (.retire_release i recorded pc'), []⟩
    | (m', none) => ⟨m', .dispatching d (retire_next i), pc.dropped recorded⟩
  | .decide => remember t m d
  -- From here `remember_marker`: reserve, count, fill in, and publish the stack word last.
  | .reserve raw k =>
    let i := probe d.trap_rsp k
    if (m.markers i).stack = 0 then
      ⟨m.set i { m.markers i with stack := U64_MAX }, .dispatching d (.count raw i), []⟩
    else if h : k.val + 1 < MARKER_CAPACITY then
      ⟨m, .dispatching d (.reserve raw ⟨k.val + 1, h⟩), []⟩
    else ⟨m, .idle, [.refused d.trap_rsp (Dispatch.trap_rip raw), .dispatched d.original]⟩
  | .count raw i => ⟨{ m with active := m.active + 1 }, .dispatching d (.arm_tid raw i), []⟩
  | .arm_tid raw i =>
    ⟨m.set i { m.markers i with tid := t.val }, .dispatching d (.arm_rip raw i), []⟩
  | .arm_rip raw i =>
    ⟨m.set i { m.markers i with rip := Dispatch.trap_rip raw },
      .dispatching d (.arm_phase raw i), []⟩
  | .arm_phase raw i =>
    ⟨m.set i { m.markers i with phase := 0 }, .dispatching d (.publish raw i), []⟩
  | .publish raw i =>
    ⟨m.set i { m.markers i with stack := d.trap_rsp }, .idle,
      [.armed d.trap_rsp (Dispatch.trap_rip raw), .dispatched (raw ||| RAW_TARGET_TAG)]⟩

/-! ## `redirect` -/

/-- What `redirect` returns for a call with no marker: its own registers and the registered
process decide. -/
def Trap.direct (r : Trap) : Bool :=
  if is_bypass r.context.xmm5 then r.bypass_completed
  else r.is_registered_target_process && r.route

/-- The rest of `redirect` when `consume` returned none. -/
def redirect_direct (m : Table) (r : Trap) : Outcome Table Thread Event :=
  ⟨m, .idle, [.redirected r.direct]⟩

/-- The rest of `redirect` when `consume` returned `Route`. -/
def redirect_bridged (m : Table) (r : Trap) : Outcome Table Thread Event :=
  let routed := Event.routed r.rsp.val r.rip r.context
  if is_bypass r.context.xmm5 || !r.route then ⟨m, .trapping r (.cancel_find .active), [routed]⟩
  else ⟨m, .idle, [routed, .redirected true]⟩

/-- What `redirect` returns after `cancel`. -/
def cancelled (r : Trap) : Event :=
  .redirected (is_bypass r.context.xmm5 && r.bypass_completed)

def trap_step (t : Tid) (m : Table) (r : Trap) : TrapPc → Outcome Table Thread Event
  | .consume_find pc =>
    match find_step t m r.rsp.val r.rip pc with
    | .more pc' => ⟨m, .trapping r (.consume_find pc'), []⟩
    | .done none => redirect_direct m r
    | .done (some i) => ⟨m, .trapping r (.route i), []⟩
  | .route i =>
    if (m.markers i).phase = 0 then
      ⟨m.set i { m.markers i with phase := 1 },
        .trapping r (.save i Word.first_saved Word.saved.tail), []⟩
    else ⟨m, .trapping r (.replay i), []⟩
  -- The phase is 1 already while the words are stored.
  | .save i w rest =>
    let m' := m.set i { m.markers i with
      words := Function.update (m.markers i).words w (r.context.word w) }
    match rest with
    | w' :: rest' => ⟨m', .trapping r (.save i w' rest'), []⟩
    | [] => redirect_bridged m' r
  | .replay i =>
    if (m.markers i).phase = 1 then
      ⟨m.set i { m.markers i with phase := 2 },
        .trapping r (.load i .r11 Word.loaded.tail fun _ => 0), []⟩
    else
      ⟨m, .trapping r (.release i .cas .fall_through), [.fell_through r.rsp.val r.rip]⟩
  -- R11 and EFLAGS are loaded before the halves of the two registers.
  | .load i w rest got =>
    let got' := Function.update got w ((m.markers i).words w)
    match rest with
    | w' :: rest' => ⟨m, .trapping r (.load i w' rest' got'), []⟩
    | [] => ⟨m, .trapping r (.release i .cas (.replay (.of_words got'))), []⟩
  | .cancel_find pc =>
    match find_step t m r.rsp.val r.rip pc with
    | .more pc' => ⟨m, .trapping r (.cancel_find pc'), []⟩
    | .done none => ⟨m, .idle, [cancelled r]⟩
    | .done (some i) => ⟨m, .trapping r (.release i .cas .cancel), []⟩
  | .release i pc why =>
    match release_step m i r.rsp.val pc with
    | (m', some pc') => ⟨m', .trapping r (.release i pc' why), []⟩
    | (m', none) =>
      match why with
      -- The registers are overwritten and the call goes to Wine.
      | .replay saved =>
        ⟨m', .idle, [.replayed r.rsp.val r.rip saved, .redirected false]⟩
      | .fall_through => redirect_direct m' r
      | .cancel => ⟨m', .idle, pc.dropped r.rsp.val ++ [cancelled r]⟩

/-! ## The machine -/

/-- The first step of what a thread does. -/
def enter (t : Tid) (m : Table) : Op → Outcome Table Thread Event
  | .dispatch d => ⟨m, .dispatching d .has_active, [.entered d.trap_rsp]⟩
  | .trap r =>
    if t.val = 0 ∨ r.rsp.val = 0 ∨ r.rip = 0 then
      let o := redirect_direct m r
      { o with events := .trapped r.rsp.val r.rip :: o.events }
    else ⟨m, .trapping r (.consume_find .active), [.trapped r.rsp.val r.rip]⟩
  | .returned stack => ⟨m, .idle, [.returned stack]⟩
  | .exited => ⟨m, .idle, [.exited]⟩

def thread_step (t : Tid) (op : Op) (m : Table) : Thread → Outcome Table Thread Event
  | .idle => enter t m op
  | .dispatching d pc => dispatch_step t m d pc
  | .trapping r pc => trap_step t m r pc

/-- The program of every thread. -/
def program : Program Tid Op Table Thread Event := fun t op m => thread_step t op m

/-- Nobody inside, and an empty table. -/
def start : Config Tid Table Thread := ⟨.new, fun _ => .idle⟩

/-! ## Holding a slot -/

/-- The release has reserved the slot and not yet freed it. -/
def ReleasePc.holds : ReleasePc → Bool
  | .cas | .uncount => false
  | .clear_tid | .clear_rip | .clear_phase | .clear_word _ _ | .free => true

/-- The release has freed the slot and not yet counted it out. -/
def ReleasePc.uncounts : ReleasePc → Bool
  | .uncount => true
  | _ => false

/-- The slot a thread has reserved. -/
def Thread.holds : Thread → Option Index
  | .dispatching _ (.count _ i) | .dispatching _ (.arm_tid _ i) | .dispatching _ (.arm_rip _ i)
  | .dispatching _ (.arm_phase _ i) | .dispatching _ (.publish _ i) => some i
  | .dispatching _ (.retire_release i _ pc) | .trapping _ (.release i pc _) =>
    if pc.holds then some i else none
  | _ => none

/-- The thread has reserved a slot and not yet counted it. -/
def Thread.counts : Thread → Bool
  | .dispatching _ (.count _ _) => true
  | _ => false

/-- The thread has freed a slot and not yet counted it out. -/
def Thread.uncounts : Thread → Bool
  | .dispatching _ (.retire_release _ _ pc) | .trapping _ (.release _ pc _) => pc.uncounts
  | _ => false

/-! ## What a step shows -/

/-- The events of a step, each at the program point it comes from. -/
inductive Shows (op : Op) : Thread → Event → Prop
  | entered (d : Dispatch) (h : op = .dispatch d) : Shows op .idle (.entered d.trap_rsp)
  | trapped (r : Trap) (h : op = .trap r) : Shows op .idle (.trapped r.rsp.val r.rip)
  | returned (stack : UInt64) (h : op = .returned stack) : Shows op .idle (.returned stack)
  | exited (h : op = .exited) : Shows op .idle .exited
  | bridged (d : Dispatch) (raw : UInt64) :
    Shows op (.dispatching d .decide) (.bridged d.trap_rsp (Dispatch.trap_rip raw))
  | armed (d : Dispatch) (raw : UInt64) (i : Index) :
    Shows op (.dispatching d (.publish raw i)) (.armed d.trap_rsp (Dispatch.trap_rip raw))
  | refused (d : Dispatch) (raw : UInt64) (k : Index) :
    Shows op (.dispatching d (.reserve raw k)) (.refused d.trap_rsp (Dispatch.trap_rip raw))
  | retired (d : Dispatch) (i : Index) (recorded : UInt64) :
    Shows op (.dispatching d (.retire_release i recorded .uncount)) (.dropped recorded)
  | dispatched (d : Dispatch) (pc : DispatchPc) (target : UInt64) :
    Shows op (.dispatching d pc) (.dispatched target)
  | routed (r : Trap) (i : Index) (w : Word) :
    Shows op (.trapping r (.save i w [])) (.routed r.rsp.val r.rip r.context)
  | fell_through (r : Trap) (i : Index) :
    Shows op (.trapping r (.replay i)) (.fell_through r.rsp.val r.rip)
  | replayed (r : Trap) (i : Index) (pc : ReleasePc) (saved : SavedContext) :
    Shows op (.trapping r (.release i pc (.replay saved))) (.replayed r.rsp.val r.rip saved)
  | cancelled (r : Trap) (i : Index) :
    Shows op (.trapping r (.release i .uncount .cancel)) (.dropped r.rsp.val)
  | redirected (th : Thread) (handled : Bool) : Shows op th (.redirected handled)

/-- A finished release shows that the marker is dropped, if it had it. -/
theorem ReleasePc.mem_dropped {pc : ReleasePc} {stack : UInt64} {e : Event}
    (h : e ∈ pc.dropped stack) : pc = .uncount ∧ e = .dropped stack := by
  cases pc with
  | uncount => exact ⟨rfl, List.mem_singleton.mp h⟩
  | _ => cases h

theorem dispatch_shows {t : Tid} {m : Table} {d : Dispatch} {pc : DispatchPc} {e : Event}
    (h : e ∈ (dispatch_step t m d pc).events) (op : Op) : Shows op (.dispatching d pc) e := by
  cases pc with
  | decide =>
    simp only [dispatch_step, remember] at h
    repeat' split at h
    all_goals rw [List.mem_singleton.mp h]; constructor
  | reserve raw k =>
    simp only [dispatch_step] at h
    repeat' split at h
    · cases h
    · cases h
    · rcases List.mem_cons.mp h with rfl | h
      · exact .refused d raw k
      · rw [List.mem_singleton.mp h]
        exact .dispatched ..
  | publish raw i =>
    rcases List.mem_cons.mp h with rfl | h
    · exact .armed d raw i
    · rw [List.mem_singleton.mp h]
      exact .dispatched ..
  | retire_release i recorded pc =>
    simp only [dispatch_step] at h
    split at h
    · cases h
    · obtain ⟨rfl, rfl⟩ := ReleasePc.mem_dropped h
      exact .retired d i recorded
  | _ => cases h

theorem trap_shows {t : Tid} {m : Table} {r : Trap} {pc : TrapPc} {e : Event}
    (h : e ∈ (trap_step t m r pc).events) (op : Op) : Shows op (.trapping r pc) e := by
  cases pc with
  | consume_find pc | cancel_find pc =>
    simp only [trap_step, redirect_direct, cancelled] at h
    split at h
    · cases h
    · rw [List.mem_singleton.mp h]
      exact .redirected ..
    · cases h
  | route i =>
    simp only [trap_step] at h
    split at h <;> cases h
  | save i w rest =>
    cases rest with
    | cons w' rest => cases h
    | nil =>
      simp only [trap_step, redirect_bridged] at h
      split at h
      · rw [List.mem_singleton.mp h]
        exact .routed r i w
      · rcases List.mem_cons.mp h with rfl | h
        · exact .routed r i w
        · rw [List.mem_singleton.mp h]
          exact .redirected ..
  | replay i =>
    simp only [trap_step] at h
    split at h
    · cases h
    · rw [List.mem_singleton.mp h]
      exact .fell_through r i
  | load i w rest got => cases rest <;> cases h
  | release i pc why =>
    simp only [trap_step] at h
    split at h
    · cases h
    · cases why with
      | replay saved =>
        rcases List.mem_cons.mp h with rfl | h
        · exact .replayed r i pc saved
        · rw [List.mem_singleton.mp h]
          exact .redirected ..
      | fall_through =>
        rw [List.mem_singleton.mp h]
        exact .redirected ..
      | cancel =>
        rcases List.mem_append.mp h with h | h
        · obtain ⟨rfl, rfl⟩ := ReleasePc.mem_dropped h
          exact .cancelled r i
        · rw [List.mem_singleton.mp h]
          exact .redirected ..

/-- **Inversion of events.** What a step shows says where its thread was. -/
theorem thread_step_shows {t : Tid} {op : Op} {m : Table} {th : Thread} {e : Event}
    (h : e ∈ (thread_step t op m th).events) : Shows op th e := by
  cases th with
  | idle =>
    cases op with
    | trap r =>
      simp only [thread_step, enter, redirect_direct] at h
      split at h
      · rcases List.mem_cons.mp h with rfl | h
        · exact .trapped r rfl
        · rw [List.mem_singleton.mp h]
          exact .redirected ..
      · rw [List.mem_singleton.mp h]
        exact .trapped r rfl
    | dispatch d =>
      rw [List.mem_singleton.mp h]
      exact .entered d rfl
    | returned stack =>
      rw [List.mem_singleton.mp h]
      exact .returned stack rfl
    | exited =>
      rw [List.mem_singleton.mp h]
      exact .exited rfl
  | dispatching d pc => exact dispatch_shows h op
  | trapping r pc => exact trap_shows h op

end Linuwux.Markers
