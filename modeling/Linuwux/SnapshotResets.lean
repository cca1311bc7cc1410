/-
`SnapshotResets.lean` -- the one-shot handlers of `forward_signal`.

A handler with `SA_RESETHAND` is taken out of its slot before it is called: a compare-exchange
replaces the pointer that was copied from by null. The thread is no reader any more by then, so the
snapshot may have been replaced and freed, and its address may be that of another installation,
which the compare-exchange takes for the one it knows ([`reset_of_later_installation`]). Unless a
snapshot is put in the slot at such an address, the handler resets only itself
([`resets_itself`]).
-/
import Linuwux.SnapshotThreads

set_option autoImplicit false

namespace Linuwux.Snapshots

open SignalSlots (Signal Sigaction Image)
open Threads (Program Config Outcome run trace)

variable {image : Image} {T : Type*} {m : Mem} {pc : Pc} {sig : Signal}

/-! ## What is to be reset -/

/-- What a thread has copied and is about to reset. -/
def Pc.awaits : Pc → Option (Signal × Saved)
  | .leave sig saved => if one_shot saved.action then some (sig, saved) else none
  | .reset sig saved => some (sig, saved)
  | _ => none

/-- The step puts a snapshot in its slot at the address of one that a thread is about to reset. -/
def Reuses (c : Config T Mem Pc) (x : T × Choice) : Prop :=
  ∃ r previous saved u, c.loc x.1 = .swap r previous saved.snapshot
    ∧ (c.loc u).awaits = some (r.sig, saved)

/-- The thread has allocated the snapshot and not stored it in the slot yet. -/
def Pc.Stores (snapshot : UInt64) (pc : Pc) : Prop := ∃ r previous, pc = .swap r previous snapshot

/-- At the address of a snapshot that a thread is about to reset is that snapshot, or none of the
slot, or one that is not in the slot yet. -/
def Kept (c : Config T Mem Pc) : Prop :=
  ∀ t sig saved, (c.loc t).awaits = some (sig, saved) → saved.snapshot ≠ 0
    ∧ ∀ b, c.mem.heap saved.snapshot = some b → b.slot = sig →
      saved.copied = some b ∨ ∃ u, (c.loc u).Stores saved.snapshot

theorem Pc.awaits_of_plain (h : pc.plain = true) : pc.awaits = none := by
  cases pc with
  | leave _ _ | reset _ _ => cases h
  | _ => rfl

theorem release_awaits (r : Request) (snapshot : UInt64) (old : Option Sigaction) :
    (Pc.release r snapshot old).awaits = none := by
  unfold Pc.release
  split
  · exact Pc.awaits_of_plain (released_plain r old)
  · rfl

section Moves

variable {m' : Mem} {pc' : Pc} {es : List Event} (h : Moves m pc m' pc' es)
include h

/-- A thread is about to reset what it was about to reset before, or what it has just copied. -/
theorem Moves.awaits (ha : pc.Assumes m) {saved : Saved} (hpc' : pc'.awaits = some (sig, saved)) :
    m'.heap = m.heap ∧ (pc.awaits = some (sig, saved)
      ∨ saved.snapshot ≠ 0 ∧ saved.copied = m.heap saved.snapshot) := by
  cases h with
  | quiet hs h h' he hl =>
    rw [Pc.awaits_of_plain h'] at hpc'
    cases hpc'
  | read s snapshot loaded =>
    obtain ⟨hne, -⟩ := ha
    simp only [Pc.awaits] at hpc'
    split at hpc'
    · cases hpc'
      exact ⟨rfl, Or.inr ⟨hne, rfl⟩⟩
    · cases hpc'
  | leave s saved' =>
    refine ⟨rfl, Or.inl ?_⟩
    split at hpc'
    · rename_i hone
      cases hpc'
      exact if_pos hone
    · cases hpc'
  | swap r previous snapshot hcase =>
    obtain ⟨-, rfl⟩ | ⟨-, rfl⟩ := hcase <;> cases hpc'
  | installed r snapshot old hs hl =>
    rw [release_awaits] at hpc'
    cases hpc'
  | roll_back r snapshot =>
    rw [release_awaits] at hpc'
    cases hpc'
  | free r snapshot old =>
    rw [Pc.awaits_of_plain (released_plain r old)] at hpc'
    cases hpc'
  | _ => cases hpc'

/-- What is allocated was so before, or has just been allocated and is not in its slot yet. -/
theorem Moves.filled {x : UInt64} {b : Block} (hx : m'.heap x = some b) :
    m.heap x = some b ∨ pc'.Stores x := by
  cases h with
  | quiet hs h h' he hl => exact Or.inl (hs.heap ▸ hx)
  | installed r snapshot old hs hl => exact Or.inl (hs.heap ▸ hx)
  | @malloc r previous address h₀ hnone =>
    by_cases heq : x = address
    · subst heq
      exact Or.inr ⟨r, previous, rfl⟩
    · exact Or.inl ((Function.update_of_ne heq ..).symm.trans hx)
  | free r snapshot old =>
    by_cases heq : x = snapshot
    · subst heq
      cases (Function.update_self ..).symm.trans hx
    · exact Or.inl ((Function.update_of_ne heq ..).symm.trans hx)
  | _ => exact Or.inl hx

/-- What a reset shows. -/
theorem Moves.resets {copied cleared : Option Block} (hmem : .reset copied cleared ∈ es) :
    ∃ sig saved, pc = .reset sig saved ∧ (m.slots sig).current = saved.snapshot
      ∧ copied = saved.copied ∧ cleared = m.heap saved.snapshot := by
  cases h with
  | quiet hs h h' he hl => cases he _ hmem
  | clear hcur =>
    cases List.mem_singleton.mp hmem
    exact ⟨_, _, rfl, hcur, rfl, rfl⟩
  | read s snapshot loaded => cases List.mem_singleton.mp hmem
  | copy_previous r previous old snapshot loaded => cases List.mem_singleton.mp hmem
  | free r snapshot old => cases List.mem_singleton.mp hmem
  | _ => cases hmem

end Moves

section Run

variable [DecidableEq T]

theorem Kept.step [Fintype T] {tr : List (T × Event)} {c : Config T Mem Pc} (hk : Kept c)
    (h : Inv tr c) {t : T} {a : Choice} {o : Outcome Mem Pc Event}
    (hm : Moves c.mem (c.loc t) o.mem o.loc o.events) (hno : ¬ Reuses c (t, a)) :
    Kept (c.after t o) := by
  -- A thread other than `t` that was about to store a snapshot still is.
  have hstores {v : T} {x : UInt64} (hv : v ≠ t) (hst : (c.loc v).Stores x) :
      ∃ u, ((c.after t o).loc u).Stores x :=
    ⟨v, by rw [Threads.Config.after_loc_of_ne _ _ hv]; exact hst⟩
  intro u sig saved hawaits
  by_cases hu : u = t
  · subst hu
    rw [Threads.Config.after_loc_self] at hawaits
    obtain ⟨hheap, hold | ⟨hne, hcopied⟩⟩ := hm.awaits (h.assumes u) hawaits
    · obtain ⟨hne, hkept⟩ := hk u sig saved hold
      refine ⟨hne, fun b hb hslot => ?_⟩
      rw [Threads.Config.after_mem, hheap] at hb
      obtain hcopied | ⟨v, hst⟩ := hkept b hb hslot
      · exact Or.inl hcopied
      · refine Or.inr (hstores (fun hv => ?_) hst)
        obtain ⟨r, previous, hpc⟩ := hst
        rw [← hv, hpc] at hold
        cases hold
    · refine ⟨hne, fun b hb _ => Or.inl ?_⟩
      rw [Threads.Config.after_mem, hheap] at hb
      exact hcopied.trans hb
  · rw [Threads.Config.after_loc_of_ne _ _ hu] at hawaits
    obtain ⟨hne, hkept⟩ := hk u sig saved hawaits
    refine ⟨hne, fun b hb hslot => ?_⟩
    obtain hold | hst := hm.filled hb
    · obtain hcopied | ⟨v, hst⟩ := hkept b hold hslot
      · exact Or.inl hcopied
      · refine Or.inr (hstores (fun hv => ?_) hst)
        -- The step stores the snapshot, and it is one of the slot that is to be reset.
        subst hv
        obtain ⟨r, previous, hpc⟩ := hst
        have hdet := h.assumes v
        rw [hpc] at hdet
        obtain rfl := (Detached.live hdet).slot_unique ⟨b, hold, hslot⟩
        exact hno ⟨r, previous, saved, u, hpc, hawaits⟩
    · refine Or.inr ⟨t, ?_⟩
      rw [Threads.Config.after_loc_self]
      exact hst

omit [DecidableEq T] in
/-- What is reset is what was copied. -/
theorem Kept.resets [Fintype T] {tr : List (T × Event)} {c : Config T Mem Pc} (hk : Kept c)
    (h : Inv tr c) {t : T} {o : Outcome Mem Pc Event}
    (hm : Moves c.mem (c.loc t) o.mem o.loc o.events) {copied cleared : Option Block}
    (hmem : .reset copied cleared ∈ o.events) : ∃ b, copied = some b ∧ cleared = some b := by
  obtain ⟨sig, saved, hpc, hcur, rfl, rfl⟩ := hm.resets hmem
  obtain ⟨hne, hkept⟩ := hk t sig saved (by rw [hpc]; rfl)
  obtain ⟨b, hb, hslot⟩ := h.rooted sig (hcur ▸ hne)
  rw [hcur] at hb
  obtain hcopied | ⟨v, r, previous, hst⟩ := hkept b hb hslot
  · exact ⟨b, hcopied, hb⟩
  · have hdet := h.assumes v
    rw [hst] at hdet
    exact absurd hcur (Detached.ne_current hdet h.rooted sig)

/-- Every reset of the trace is of the snapshot that was copied. -/
def ResetsItself (tr : List (T × Event)) : Prop :=
  ∀ t copied cleared, (t, .reset copied cleared) ∈ tr → ∃ b, copied = some b ∧ cleared = some b

theorem resets_run [Fintype T] (hT : Fintype.card T < 2 ^ 32) (kernel : Signal → Sigaction)
    {s : List (T × Choice)} (hs : Threads.AllSteps (program image T) (fun _ c x => ¬ Reuses c x)
      (start T kernel) s) : ResetsItself (trace (program image T) (start T kernel) s) := by
  have hstart : Kept (start T kernel) := by
    intro t sig saved h
    cases h
  have hrun := Threads.run_induct_of (program image T) (Q := fun _ => True)
    (I := fun tr c => Inv tr c ∧ Kept c ∧ ResetsItself tr)
    ⟨inv_start kernel, hstart, fun _ _ _ h => by cases h⟩ ?_ hs (fun _ _ => trivial)
  · exact hrun.2.2
  rintro tr c ⟨t, a⟩ hno - ⟨h, hk, hitself⟩
  have hm := @moves image T t a c.mem (c.loc t)
  refine ⟨h.step hT t a, hk.step h hm hno, fun u copied cleared hmem => ?_⟩
  obtain hmem | hmem := List.mem_append.mp hmem
  · exact hitself u copied cleared hmem
  · obtain ⟨e, he, heq⟩ := List.mem_map.mp hmem
    cases heq
    exact hk.resets h hm he

end Run

/-- **A one-shot handler resets only itself**, unless a snapshot is put in its slot at the address
of one that a thread has copied and is about to reset. -/
theorem resets_itself (image : Image) (kernel : Signal → Sigaction)
    (s : List (Markers.Tid × Choice))
    (hs : Threads.AllSteps (program image Markers.Tid) (fun _ c x => ¬ Reuses c x)
      (start Markers.Tid kernel) s) :
    ResetsItself (trace (program image Markers.Tid) (start Markers.Tid kernel) s) :=
  resets_run card_tid_lt kernel hs

/-! ### A reset of a later installation -/

/-- Wine's handler, as a one-shot handler. -/
def wine_once : Sigaction := { SignalSlots.wine_action with sa_flags := 0x80000004 }

def installer : Markers.Tid := ⟨1200, by decide, by decide⟩
def forwarder : Markers.Tid := ⟨1201, by decide, by decide⟩

/-- Steps of a thread that installs an action for `SIGSEGV`, with the snapshot at an address. -/
def installs (t : Markers.Tid) (n : ℕ) (act : Sigaction) (address : UInt64) :
    List (Markers.Tid × Choice) :=
  Threads.steps t n ⟨.sigaction .SIGSEGV (some act) false, true, address⟩

/-- Steps of a thread that forwards `SIGSEGV`. -/
def forwards (t : Markers.Tid) (n : ℕ) : List (Markers.Tid × Choice) :=
  Threads.steps t n ⟨.forward .SIGSEGV, true, 0⟩

/-- The program with Wine's `ntdll` and the default actions. -/
def trace_of (s : List (Markers.Tid × Choice)) : List (Markers.Tid × Event) :=
  trace (program SignalSlots.wine_process Markers.Tid) (start Markers.Tid SignalSlots.defaults) s

/-- The handler that a signal found is replaced twice before the signal resets it, and the second
time the allocator returns the address of the first snapshot: the reset is of the handler
installed last. -/
theorem reset_of_later_installation : ¬ ResetsItself (trace_of
    (installs installer 9 wine_once 0x5000 ++ forwards forwarder 5
      ++ installs installer 12 SignalSlots.game_action 0x6000
      ++ installs installer 12 SignalSlots.game_action 0x5000 ++ forwards forwarder 1)) := by
  intro h
  obtain ⟨b, hcopied, hcleared⟩ := h forwarder (some ⟨wine_once, .SIGSEGV, 0⟩)
    (some ⟨SignalSlots.game_action, .SIGSEGV, 2⟩) (by decide +kernel)
  cases hcopied
  cases hcleared

/-- The slot and the address of the snapshot that a thread is about to store. -/
def Pc.swaps : Pc → Option (Signal × UInt64)
  | .swap r _ snapshot => some (r.sig, snapshot)
  | _ => none

/-- The slot and the address of the snapshot that a thread is about to reset. -/
def Pc.awaited (pc : Pc) : Option (Signal × UInt64) :=
  pc.awaits.map fun (sig, saved) => (sig, saved.snapshot)

/-- The step is of one of these threads, and what it stores none of them is about to reset. -/
def KeepsAmong [DecidableEq T] (ts : List T) (c : Config T Mem Pc) (x : T × Choice) : Bool :=
  ts.contains x.1
    && ((c.loc x.1).swaps.isNone || ts.all fun u => (c.loc u).awaited != (c.loc x.1).swaps)

/-- Where only these threads run, the others are idle and need not be looked at. -/
theorem few_keep [DecidableEq T] {kernel : Signal → Sigaction} {s : List (T × Choice)} (ts : List T)
    (hs : Threads.AllSteps (program image T) (fun _ c x => KeepsAmong ts c x = true)
      (start T kernel) s) :
    Threads.AllSteps (program image T) (fun _ c x => ¬ Reuses c x) (start T kernel) s := by
  refine Threads.allSteps_of_invariant (program image T) (I := fun _ c => ∀ u ∉ ts, c.loc u = .idle)
    (fun _ _ => rfl) (fun _ c x hx h u hu => ?_) (fun _ c x hx h => ?_) hs
  · obtain ⟨hmem, -⟩ := Bool.and_eq_true_iff.mp hx
    have hne : u ≠ x.1 := fun heq => hu (heq ▸ List.contains_iff_mem.mp hmem)
    rw [Threads.step_loc_of_ne _ c x hne]
    exact h u hu
  · rintro ⟨r, previous, saved, u, hswap, hawaits⟩
    have hu : u ∈ ts := by
      by_contra hu
      rw [h u hu] at hawaits
      cases hawaits
    obtain ⟨-, hkeeps⟩ := Bool.and_eq_true_iff.mp hx
    rw [hswap] at hkeeps
    have hne := List.all_eq_true.mp hkeeps u hu
    rw [Pc.awaited, hawaits] at hne
    exact bne_iff_ne.mp hne rfl

/-- The game's handler, as a one-shot handler. -/
def game_once : Sigaction := { SignalSlots.game_action with sa_flags := 0x80000004 }

/-- Between the copy and the reset of Wine's handler the game installs its own, which that signal
leaves in the slot. The next signal resets it, while the game has allocated the snapshot of the
action after it and not stored it yet. -/
def replaced : List (Markers.Tid × Choice) :=
  installs installer 9 wine_once 0x5000 ++ forwards forwarder 5
    ++ installs installer 12 game_once 0x6000 ++ forwards forwarder 2
    ++ forwards forwarder 5 ++ installs installer 5 SignalSlots.game_action 0x5000
    ++ forwards forwarder 2 ++ installs installer 7 SignalSlots.game_action 0x5000

theorem resets_itself_of_two :
    ResetsItself (trace_of replaced)
      ∧ (forwarder, Event.reset (some ⟨game_once, .SIGSEGV, 1⟩) (some ⟨game_once, .SIGSEGV, 1⟩))
        ∈ trace_of replaced :=
  ⟨resets_itself SignalSlots.wine_process SignalSlots.defaults _
    (few_keep [installer, forwarder] (by decide +kernel)), by decide +kernel⟩

end Linuwux.Snapshots
