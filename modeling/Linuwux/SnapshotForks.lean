/-
`SnapshotForks.lean` -- the signal slots across `fork`.

A child begins with a copy of its parent's memory and with one thread. The others are gone, wherever
they were: one may have held the update lock, one may have counted itself as a reader, one may have
taken a snapshot out of its slot and not freed it yet. `after_fork`, which the C library runs in the
child, gives the lock back and sets the counters to zero.

[`Born`] are the memories that processes begin with, over any number of forks. Whatever moment a
thread forks at, the child is as good as a first process: [`children_are_safe`].
-/
import Linuwux.SnapshotAlone
import Linuwux.SnapshotResets

set_option autoImplicit false

namespace Linuwux.Snapshots

open SignalSlots (Signal Sigaction Image)
open Threads (Config run trace)

/-- `after_fork`, as far as it is about signals. -/
def after_fork (m : Mem) : Mem :=
  { m with
    SIGNAL_UPDATE_LOCK := false
    slots := fun sig => { m.slots sig with readers := 0 } }

/-- A process that begins with this memory. -/
def beginning (T : Type*) (m : Mem) : Config T Mem Pc := ⟨m, fun _ => .idle⟩

/-- What processes begin with: the first one, and a child of one that was forked, after any run, by
a thread that was in no call. -/
inductive Born (image : Image) (kernel : Signal → Sigaction) : Mem → Prop where
  | first : Born image kernel (start Markers.Tid kernel).mem
  | child {m : Mem} (parent : Born image kernel m) (s : List (Markers.Tid × Choice))
      (t : Markers.Tid)
      (idle : (run (program image Markers.Tid) (beginning Markers.Tid m) s).loc t = .idle) :
      Born image kernel
        (after_fork (run (program image Markers.Tid) (beginning Markers.Tid m) s).mem)

/-- What a process can rely on when it begins. -/
structure Sound (m : Mem) : Prop where
  lock : m.SIGNAL_UPDATE_LOCK = false
  readers : ∀ sig, (m.slots sig).readers = 0
  rooted : Rooted m
  numbered : Numbered [] m
  null : m.heap 0 = none

variable {image : Image} {kernel : Signal → Sigaction} {m : Mem}

theorem Sound.alone (h : Sound m) : Alone m .idle where
  lock := h.lock
  readers := h.readers
  rooted := h.rooted
  assumes := trivial
  null := h.null

/-- The child finds what its parent's slots point to; what was freed before does not concern it. -/
theorem sound_after_fork {ns : List ℕ} (hroot : Rooted m) (hnumbered : Numbered ns m)
    (hnull : m.heap 0 = none) : Sound (after_fork m) where
  lock := rfl
  readers _ := rfl
  rooted := hroot
  numbered := by
    obtain ⟨below, unique, -, -, -⟩ := hnumbered
    exact ⟨below, unique, List.forall_mem_nil _, List.forall_mem_nil _, List.nodup_nil⟩
  null := hnull

section Run

variable {T : Type*} [Fintype T]

theorem inv_beginning (h : Sound m) : Inv [] (beginning T m) where
  lock t hholds := by cases hholds
  readers sig := by
    have hcount : Threads.count (Pc.reading sig) (beginning T m).loc = 0 := by
      simp [Threads.count, beginning, Pc.reading]
    rw [hcount]
    exact h.readers sig
  rooted := h.rooted
  assumes _ := trivial
  unread t u r sig a loaded old hfree := by cases hfree
  numbered := h.numbered
  safe := List.forall_mem_nil _

variable [DecidableEq T]

/-- What holds of a process in every run, whatever it began with. -/
theorem Sound.run (h : Sound m) (hT : Fintype.card T < 2 ^ 32) (s : List (T × Choice)) :
    Inv (trace (program image T) (beginning T m) s)
        (Threads.run (program image T) (beginning T m) s)
      ∧ Held (Threads.run (program image T) (beginning T m) s)
      ∧ (Threads.run (program image T) (beginning T m) s).mem.heap 0 = none := by
  refine Threads.run_induct_after (program image T)
    (I := fun tr c => Inv tr c ∧ Held c ∧ c.mem.heap 0 = none) ?_ ?_ s
  · refine ⟨inv_beginning h, fun hlock => ?_, h.null⟩
    exact absurd (h.lock.symm.trans hlock) Bool.false_ne_true
  · intro tr c t a hc
    obtain ⟨hinv, hheld, hnull⟩ := hc
    exact ⟨hinv.step hT t a, hheld.step t a, moves.null hnull⟩

end Run

/-- Every process begins soundly. The induction is on the forks that have led to it. -/
theorem Born.sound (h : Born image kernel m) : Sound m := by
  induction h with
  | first =>
    have hinv : Inv [] (start Markers.Tid kernel) := inv_start kernel
    exact ⟨rfl, fun _ => rfl, hinv.rooted, hinv.numbered, rfl⟩
  | child _ s _ _ ih =>
    obtain ⟨hinv, -, hnull⟩ := @Sound.run image _ Markers.Tid _ _ ih card_tid_lt s
    exact sound_after_fork hinv.rooted hinv.numbered hnull

/-- **A child is as good as a first process.** In every process, over any number of forks, and in
every run of its threads: no snapshot is read or freed after it was freed; the lock is only taken
by a thread of this process, and the counters count its threads. And at whatever moment a process
is forked, the next call of the child answers what `SignalSlots.lean` answers for what the slots
led to at the fork, and leaves the slots it leaves there. -/
theorem children_are_safe (h : Born image kernel m) (s : List (Markers.Tid × Choice)) :
    let tr := trace (program image Markers.Tid) (beginning Markers.Tid m) s
    let c := run (program image Markers.Tid) (beginning Markers.Tid m) s
    (∀ e ∈ tr, e.2.Safe) ∧ (freed tr).Nodup ∧ Rooted c.mem
      ∧ (c.mem.SIGNAL_UPDATE_LOCK = true → ∃ t, (c.loc t).holds = true)
      ∧ (∀ sig, (c.mem.slots sig).readers = .ofNat (Threads.count (Pc.reading sig) c.loc))
      ∧ ∀ (t : Markers.Tid) (a : Choice) (e : SignalSlots.Event), a.Makes image c.mem e →
        Returns image t a (after_fork c.mem) .idle (SignalSlots.interposed image c.mem.view e).1
          (SignalSlots.interposed image c.mem.view e).2 := by
  intro tr c
  obtain ⟨hinv, hheld, hnull⟩ := @Sound.run image _ Markers.Tid _ _ h.sound card_tid_lt s
  refine ⟨hinv.safe, hinv.numbered.nodup, hinv.rooted, hheld, hinv.readers, fun t a e ha => ?_⟩
  have halone : Alone (after_fork c.mem) .idle :=
    (sound_after_fork hinv.rooted hinv.numbered hnull).alone
  cases e with
  | sigaction sig act oldact =>
    have hfresh : a.Fresh (after_fork c.mem) := ⟨ha.2.succeeds, ha.2.ne_null, ha.2.unused⟩
    exact sigaction_returns image t a hfresh ha.1 halone
  | deliver sig =>
    have hforward : SignalSlots.deliver image (c.mem.view sig) sig = _ :=
      SignalSlots.Bridged.forwards ha.2
    simp only [SignalSlots.interposed, hforward]
    exact forward_signal_returns image t a ha.1 halone

/-- Wine installs an action for `SIGSEGV`, and the game is about to install another one when the
process is forked: its action has been swapped in, and the lock is held. -/
def interrupted : List (Markers.Tid × Choice) :=
  installs installer 9 wine_once 0x5000 ++ installs installer 7 SignalSlots.game_action 0x6000

def first_process : Config Markers.Tid Mem Pc :=
  run (program SignalSlots.wine_process Markers.Tid)
    (beginning Markers.Tid (start Markers.Tid SignalSlots.defaults).mem) interrupted

/-- The lock was held, and a child of the child forwards a signal to the game's action. -/
theorem forwarded_in_a_child : first_process.mem.SIGNAL_UPDATE_LOCK = true
    ∧ Returns SignalSlots.wine_process forwarder ⟨.forward .SIGSEGV, true, 0⟩
      (after_fork (after_fork first_process.mem)) .idle (.invoked 0x40000 true)
      (SignalSlots.interposed SignalSlots.wine_process (after_fork first_process.mem).view
        (.deliver .SIGSEGV)).2 := by
  have hborn : Born SignalSlots.wine_process SignalSlots.defaults (after_fork first_process.mem) :=
    .child .first interrupted forwarder rfl
  obtain ⟨-, -, -, -, -, hcall⟩ := children_are_safe hborn []
  refine ⟨by decide +kernel, ?_⟩
  exact hcall forwarder ⟨.forward .SIGSEGV, true, 0⟩ (.deliver .SIGSEGV)
    ⟨rfl, ⟨by decide +kernel, by decide +kernel⟩⟩

end Linuwux.Snapshots
