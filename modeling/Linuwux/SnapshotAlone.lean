/-
`SnapshotAlone.lean` -- the two models of `sigaction` and `forward_signal` agree.

`SignalSlots.lean` keeps the action in the slot and answers a call in one go;
`SnapshotThreads.lean` keeps it on the heap and takes the call one access at a time. A call during
which no other thread moves, and whose underlying calls succeed, ends with the answer that
`SignalSlots.lean` computes, and what the pointers lead to is then what it leaves in the slots.

What `SignalSlots.lean` says about the kernel LinUwUx stands in for is therefore about runs of the
threads, those in which one call comes after the other.
-/
import Linuwux.SnapshotThreads

set_option autoImplicit false

namespace Linuwux.Snapshots

open SignalSlots (Signal Sigaction Image Answer Interposed SIG_DFL SIG_IGN real kept
  action_is_bridge bridge_of handler_is_from_wine_ntdll)
open Threads (Outcome Config Completes run trace)

/-- The slots with the actions their pointers lead to, and what the kernel holds. -/
def Mem.view (m : Mem) (sig : Signal) : Interposed :=
  ⟨⟨(m.heap (m.slots sig).current).map Block.action, (m.slots sig).owned⟩, m.kernel sig⟩

/-- The memory as a thread finds it that nobody else is in the way of. -/
structure Alone (m : Mem) (pc : Pc) : Prop where
  lock : m.SIGNAL_UPDATE_LOCK = pc.holds
  readers : ∀ sig, (m.slots sig).readers = .ofNat (pc.reading sig).toNat
  rooted : Rooted m
  assumes : pc.Assumes m
  null : m.heap 0 = none

variable {image : Image} {T : Type*} {t : T} {a : Choice} {m : Mem} {pc : Pc} {sig : Signal}

/-! ## A step, alone -/

/-- Only the last step of a call gives the lock back. -/
theorem holds_kept (h : pc.holds = true) (hne : ∀ answer, pc ≠ .unlock answer) :
    (program image T t a m pc).loc.holds = true := by
  cases pc with
  | unlock answer => exact absurd rfl (hne answer)
  | load_owned r | pass r | malloc r previous | swap r previous snapshot | wait r snapshot old =>
    simp only [program, sigaction_step]
    split <;> rfl
  | query r =>
    simp only [program, sigaction_step]
    split
    · rfl
    · split <;> rfl
  | install r snapshot old =>
    simp only [program, sigaction_step]
    split
    · exact release_holds r snapshot (some old)
    · rfl
  | roll_back r snapshot => exact release_holds r _ none
  | free r snapshot old => exact released_holds r old
  | copy_previous r previous snapshot loaded | store_owned r old => rfl
  | _ => cases h

/-- Whoever stops holding the lock has given it back. -/
theorem lock_given (h : pc.holds = true) (h' : (program image T t a m pc).loc.holds = false) :
    (program image T t a m pc).mem.SIGNAL_UPDATE_LOCK = false := by
  by_cases hu : ∃ answer, pc = .unlock answer
  · obtain ⟨answer, rfl⟩ := hu
    rfl
  · have hkept : (program image T t a m pc).loc.holds = true :=
      holds_kept h fun answer heq => hu ⟨answer, heq⟩
    exact absurd (hkept.symm.trans h') Bool.noConfusion

/-- A thread that is alone has the lock exactly where it holds it. -/
theorem lock_step (h : m.SIGNAL_UPDATE_LOCK = pc.holds) :
    (program image T t a m pc).mem.SIGNAL_UPDATE_LOCK = (program image T t a m pc).loc.holds := by
  obtain ⟨hsame, hlock⟩ | ⟨-, htaken, hholds⟩ | ⟨hheld, hgiven⟩ :=
    (@moves image T t a m pc).lock_step
  · exact hlock.trans (h.trans hsame.symm)
  · exact htaken.trans hholds.symm
  · exact (lock_given hheld hgiven).trans hgiven.symm

/-- Nothing is ever allocated at null. -/
theorem Moves.null {m' : Mem} {pc' : Pc} {es : List Event} (h : Moves m pc m' pc' es)
    (h0 : m.heap 0 = none) : m'.heap 0 = none := by
  cases h with
  | quiet hs h h' he hl => exact (congrFun hs.heap 0).trans h0
  | installed r snapshot old hs hl => exact (congrFun hs.heap 0).trans h0
  | malloc r previous hne hnone => exact (Function.update_of_ne (Ne.symm hne) ..).trans h0
  | free r snapshot old =>
    by_cases hs : snapshot = 0
    · simp only [hs, Function.update_self]
    · exact (Function.update_of_ne (Ne.symm hs) ..).trans h0
  | _ => exact h0

/-- **A step, alone.** -/
theorem Alone.step (image : Image) (t : T) (a : Choice) (h : Alone m pc) :
    Alone (program image T t a m pc).mem (program image T t a m pc).loc := by
  have hm := @moves image T t a m pc
  refine ⟨lock_step h.lock, fun sig => ?_, hm.rooted h.assumes h.rooted,
    hm.assumes h.assumes h.rooted, hm.null h.null⟩
  have hreaders := hm.readers sig
  rw [h.readers, UInt32.add_comm] at hreaders
  exact (UInt32.add_right_inj _).mp hreaders

theorem Alone.next {o : Outcome Mem Pc Event} (h : Alone m pc)
    (ho : program image T t a m pc = o) : Alone o.mem o.loc :=
  ho ▸ h.step image t a

/-! ## What the pointers lead to -/

@[simp] theorem view_kernel (m : Mem) (sig : Signal) : (m.view sig).kernel = m.kernel sig := rfl

@[simp] theorem view_owned (m : Mem) (sig : Signal) :
    (m.view sig).slot.owned = (m.slots sig).owned := rfl

theorem view_current (m : Mem) (sig : Signal) :
    (m.view sig).slot.current = (m.heap (m.slots sig).current).map Block.action := rfl

/-- The counter is not part of the view. -/
theorem view_store_readers (m : Mem) (sig : Signal) (readers : UInt32) :
    (m.store_readers sig readers).view = m.view := by
  funext sig'
  by_cases h : sig' = sig
  · simp [Mem.view, Mem.store_readers, h]
  · simp [Mem.view, Mem.store_readers, h]

/-- The view has the action that the pointer stands for. -/
theorem view_store_current (m : Mem) (sig : Signal) (current : UInt64) :
    (m.store_current sig current).view = Function.update m.view sig
      ⟨⟨(m.heap current).map Block.action, (m.slots sig).owned⟩, m.kernel sig⟩ := by
  funext sig'
  by_cases h : sig' = sig
  · subst h
    simp [Mem.view, Mem.store_current]
  · simp [Mem.view, Mem.store_current, h]

theorem view_store_owned (m : Mem) (sig : Signal) (owned : Bool) :
    (m.store_owned sig owned).view = Function.update m.view sig
      ⟨⟨(m.view sig).slot.current, owned⟩, m.kernel sig⟩ := by
  funext sig'
  by_cases h : sig' = sig
  · subst h
    simp [Mem.view, Mem.store_owned]
  · simp [Mem.view, Mem.store_owned, h]

theorem view_kernel_update (m : Mem) (sig : Signal) (action : Sigaction) :
    { m with kernel := Function.update m.kernel sig action }.view
      = Function.update m.view sig ⟨(m.view sig).slot, action⟩ := by
  funext sig'
  by_cases h : sig' = sig
  · subst h
    simp [Mem.view]
  · simp [Mem.view, h]

/-- A change of the heap that no slot points to is not seen. -/
theorem view_heap {heap : UInt64 → Option Block} (serial : ℕ)
    (h : ∀ sig, heap (m.slots sig).current = m.heap (m.slots sig).current) :
    { m with heap, serial }.view = m.view := by
  funext sig
  simp only [Mem.view, h]

/-- What `malloc` returns is where no slot points. -/
theorem Alone.ne_current {address : UInt64} (h : Alone m pc) (h₀ : address ≠ 0)
    (hnone : m.heap address = none) (sig : Signal) : (m.slots sig).current ≠ address := by
  intro heq
  obtain ⟨b, hb, -⟩ := h.rooted sig (heq ▸ h₀)
  rw [heq, hnone] at hb
  cases hb

/-! ## A call, alone -/

section Call

variable [DecidableEq T] {answer : Answer} {s : Signal → Interposed}

/-- Thread `t`, alone at `pc`, answers `answer` and leaves the slots `s`. -/
def Returns (image : Image) (t : T) (a : Choice) (m : Mem) (pc : Pc) (answer : Answer)
    (s : Signal → Interposed) : Prop :=
  ∃ es m', Completes (program image T) .idle t a m pc (es ++ [.answered answer]) m'
    ∧ Alone m' .idle ∧ m'.view = s

/-- A call returns what it returns after its next step. -/
theorem Returns.next {o : Outcome Mem Pc Event} (h : program image T t a m pc = o)
    (hrest : Returns image t a o.mem o.loc answer s) : Returns image t a m pc answer s := by
  obtain ⟨es, m', hc, ha, hs⟩ := hrest
  obtain ⟨es', hc'⟩ := Completes.ends_next (program image T) h ⟨es, hc⟩
  exact ⟨es', m', hc', ha, hs⟩

/-- The last step returns. -/
theorem Returns.last {m' : Mem} (ha : Alone m pc)
    (h : program image T t a m pc = ⟨m', .idle, [.answered answer]⟩) (hs : m'.view = s) :
    Returns image t a m pc answer s := by
  obtain ⟨es, hc⟩ := Completes.ends_last (program image T) [] h
  exact ⟨es, m', hc, ha.next h, hs⟩

variable (image t a)

theorem unlock_returns (ha : Alone m (.unlock (some answer))) :
    Returns image t a m (.unlock (some answer)) answer m.view := by
  have hstep : program image T t a m (.unlock (some answer))
      = ⟨{ m with SIGNAL_UPDATE_LOCK := false }, .idle, [.answered answer]⟩ := rfl
  exact .last ha hstep rfl

/-- The slot is owned, and the call returns the old action. -/
theorem store_owned_returns {r : Request} {old : Sigaction} (ha : Alone m (.store_owned r old)) :
    Returns image t a m (.store_owned r old) (r.returns old) (Function.update m.view r.sig
      ⟨⟨(m.view r.sig).slot.current, true⟩, m.kernel r.sig⟩) := by
  rw [← view_store_owned]
  exact .next rfl (unlock_returns image t a (ha.step image t a))

/-- Nobody reads, so `release_snapshot` does not wait. -/
theorem release_returns {r : Request} {snapshot : UInt64} {old : Sigaction}
    (ha : Alone m (.release r snapshot (some old))) :
    Returns image t a m (.release r snapshot (some old)) (r.returns old)
      (Function.update m.view r.sig
        ⟨⟨(m.view r.sig).slot.current, true⟩, m.kernel r.sig⟩) := by
  unfold Pc.release at ha ⊢
  split at ha
  · rename_i h₀
    rw [if_pos h₀]
    exact store_owned_returns image t a ha
  · rename_i h₀
    rw [if_neg h₀]
    have hwait : program image T t a m (.wait r snapshot (some old))
        = ⟨m, .free r snapshot (some old), []⟩ := if_pos (ha.readers r.sig)
    have hview : { m with heap := Function.update m.heap snapshot none }.view = m.view :=
      view_heap m.serial fun sig =>
        Function.update_of_ne (Detached.ne_current ha.assumes ha.rooted sig) ..
    have hrest := store_owned_returns image t a ((ha.next hwait).step image t a)
    refine .next hwait (.next rfl ?_)
    rw [← hview]
    exact hrest

/-- The bridge is installed and the old snapshot freed. -/
theorem install_returns (hs : a.succeeds = true) {r : Request} {snapshot : UInt64}
    {old : Sigaction} (ha : Alone m (.install r snapshot old)) :
    Returns image t a m (.install r snapshot old) (r.returns old) (Function.update m.view r.sig
      ⟨⟨(m.view r.sig).slot.current, true⟩, kept image (bridge_of image r.sig r.requested)⟩) := by
  have hstep : program image T t a m (.install r snapshot old)
      = ⟨{ m with
            kernel := Function.update m.kernel r.sig
              (kept image (bridge_of image r.sig r.requested)) },
        .release r snapshot (some old), []⟩ := if_pos hs
  have hrest := release_returns image t a (ha.next hstep)
  rw [view_kernel_update, Function.update_self, Function.update_idem] at hrest
  dsimp only at hrest
  rw [Function.update_self] at hrest
  exact .next hstep hrest

/-- The old action is the one the swap takes out, or the kernel's. -/
theorem swap_returns (hs : a.succeeds = true) {r : Request} {previous : Sigaction}
    {snapshot : UInt64} {b : Block} (ha : Alone m (.swap r previous snapshot))
    (hb : m.heap snapshot = some b) (hrequested : b.action = r.requested) :
    Returns image t a m (.swap r previous snapshot)
      (r.returns ((m.view r.sig).slot.current.getD previous)) (Function.update m.view r.sig
        ⟨⟨some r.requested, true⟩, kept image (bridge_of image r.sig r.requested)⟩) := by
  have hview : Function.update (m.store_current r.sig snapshot).view r.sig
      ⟨⟨((m.store_current r.sig snapshot).view r.sig).slot.current, true⟩,
        kept image (bridge_of image r.sig r.requested)⟩
      = Function.update m.view r.sig
        ⟨⟨some r.requested, true⟩, kept image (bridge_of image r.sig r.requested)⟩ := by
    rw [view_store_current, Function.update_self, Function.update_idem, hb, Option.map_some,
      hrequested]
  rw [← hview, view_current]
  by_cases h₀ : (m.slots r.sig).current = 0
  · have hstep : program image T t a m (.swap r previous snapshot)
        = ⟨m.store_current r.sig snapshot, .install r 0 previous, []⟩ := by
      simp only [program, sigaction_step, if_pos h₀]
    rw [h₀, ha.null]
    exact .next hstep (install_returns image t a hs (ha.next hstep))
  · have hstep : program image T t a m (.swap r previous snapshot)
        = ⟨m.store_current r.sig snapshot, .copy_previous r previous (m.slots r.sig).current
          (m.heap (m.slots r.sig).current), []⟩ := by
      simp only [program, sigaction_step, if_neg h₀]
    have hold : ((m.heap (m.slots r.sig).current).map Block.action).getD previous
        = (m.heap (m.slots r.sig).current).elim previous Block.action := by
      cases m.heap (m.slots r.sig).current <;> rfl
    rw [hold]
    exact .next hstep (.next rfl (install_returns image t a hs
      ((ha.next hstep).step image t a)))

/-- What the allocator and the kernel do for a call that does not fail. -/
structure Choice.Fresh (a : Choice) (m : Mem) : Prop where
  succeeds : a.succeeds = true
  ne_null : a.address ≠ 0
  unused : m.heap a.address = none

/-- The action gets a snapshot, and from there it is installed. -/
theorem malloc_returns {r : Request} {previous : Sigaction} (hf : a.Fresh m)
    (ha : Alone m (.malloc r previous)) :
    Returns image t a m (.malloc r previous)
      (r.returns ((m.view r.sig).slot.current.getD previous)) (Function.update m.view r.sig
        ⟨⟨some r.requested, true⟩, kept image (bridge_of image r.sig r.requested)⟩) := by
  have hstep : program image T t a m (.malloc r previous)
      = ⟨{ m with
          heap := Function.update m.heap a.address (some ⟨r.requested, r.sig, m.serial⟩)
          serial := m.serial + 1 },
        .swap r previous a.address, []⟩ := if_pos ⟨hf.succeeds, hf.ne_null, hf.unused⟩
  have hrest := swap_returns image t a hf.succeeds (ha.next hstep) (Function.update_self ..) rfl
  rw [view_heap (m.serial + 1) fun sig =>
    Function.update_of_ne (ha.ne_current hf.ne_null hf.unused sig) ..] at hrest
  exact .next hstep hrest

/-- `install_bridge` by one thread is the function of the same name. -/
theorem install_bridge_returns {r : Request} (hf : a.Fresh m) (ha : Alone m (.query r)) :
    Returns image t a m (.query r)
      (SignalSlots.install_bridge image (m.view r.sig) r.sig r.requested r.oldact).1
      (Function.update m.view r.sig
        (SignalSlots.install_bridge image (m.view r.sig) r.sig r.requested r.oldact).2) := by
  have hs : ¬ (!a.succeeds) = true := by simp [hf.succeeds]
  unfold SignalSlots.install_bridge
  by_cases hb : action_is_bridge image r.sig r.requested = true
  · have hstep : program image T t a m (.query r)
        = ⟨m, .unlock (some (r.returns (m.kernel r.sig))), []⟩ := by
      simp only [program, sigaction_step, if_neg hs, if_pos hb]
    rw [if_pos hb, Function.update_eq_self]
    exact .next hstep (unlock_returns image t a (ha.next hstep))
  · have hstep : program image T t a m (.query r) = ⟨m, .malloc r (m.kernel r.sig), []⟩ := by
      simp only [program, sigaction_step, if_neg hs, if_neg hb]
    rw [if_neg hb]
    exact .next hstep (malloc_returns image t a hf (ha.next hstep))

/-- `sigaction` behind the lock, by one thread, is the function of the same name. -/
theorem guarded_returns {r : Request} (hf : a.Fresh m) (ha : Alone m (.load_owned r)) :
    Returns image t a m (.load_owned r)
      (SignalSlots.sigaction image (m.view r.sig) r.sig (some r.requested) r.oldact).1
      (Function.update m.view r.sig
        (SignalSlots.sigaction image (m.view r.sig) r.sig (some r.requested) r.oldact).2) := by
  unfold SignalSlots.sigaction
  rw [view_owned]
  dsimp only
  by_cases h : (!(m.slots r.sig).owned && !handler_is_from_wine_ntdll image r.requested) = true
  · have hstep : program image T t a m (.load_owned r) = ⟨m, .pass r, []⟩ := by
      simp only [program, sigaction_step, if_pos h]
    have hpass : program image T t a m (.pass r)
        = ⟨{ m with kernel := Function.update m.kernel r.sig (kept image r.requested) },
          .unlock (some (r.returns (m.kernel r.sig))), []⟩ := by
      simp only [program, sigaction_step, if_pos hf.succeeds]
    have hrest := unlock_returns image t a ((ha.next hstep).next hpass)
    rw [view_kernel_update] at hrest
    rw [if_pos h]
    exact .next hstep (.next hpass hrest)
  · have hstep : program image T t a m (.load_owned r) = ⟨m, .query r, []⟩ := by
      simp only [program, sigaction_step, if_neg h]
    rw [if_neg h]
    exact .next hstep (install_bridge_returns image t a hf (ha.next hstep))

/-- **`sigaction`, alone.** -/
theorem sigaction_returns {act : Option Sigaction} {oldact : Bool} (hf : a.Fresh m)
    (hcall : a.call = .sigaction sig act oldact) (ha : Alone m .idle) :
    Returns image t a m .idle (SignalSlots.sigaction image (m.view sig) sig act oldact).1
      (Function.update m.view sig
        (SignalSlots.sigaction image (m.view sig) sig act oldact).2) := by
  have hs : ¬ (!a.succeeds) = true := by simp [hf.succeeds]
  cases act with
  | none =>
    have hstep : program image T t a m .idle
        = ⟨m, .idle, [.answered (real image (m.kernel sig) none oldact).1]⟩ := by
      simp only [program, begin_step, hcall, if_neg hs]
    exact .last ha hstep (Function.update_eq_self ..).symm
  | some requested =>
    have hstep : program image T t a m .idle = ⟨m, .acquire ⟨sig, requested, oldact⟩, []⟩ := by
      simp only [program, begin_step, hcall, if_neg hs]
    have hfree : ¬ m.SIGNAL_UPDATE_LOCK = true := by
      rw [ha.lock]
      exact Bool.false_ne_true
    have hacquire : program image T t a m (.acquire ⟨sig, requested, oldact⟩)
        = ⟨{ m with SIGNAL_UPDATE_LOCK := true }, .load_owned ⟨sig, requested, oldact⟩, []⟩ :=
      if_neg hfree
    have hlocked : a.Fresh { m with SIGNAL_UPDATE_LOCK := true } :=
      ⟨hf.succeeds, hf.ne_null, hf.unused⟩
    exact .next hstep (.next hacquire
      (guarded_returns image t a hlocked ((ha.next hstep).next hacquire)))

omit [DecidableEq T] in
theorem saved_action (m : Mem) (sig : Signal) (snapshot : UInt64) :
    Saved.action ⟨snapshot, m.heap (m.slots sig).current⟩
      = (m.view sig).slot.current.getD .zeroed := by
  rw [view_current]
  unfold Saved.action
  cases m.heap (m.slots sig).current <;> rfl

/-- **`copy_saved_action`, alone.** -/
theorem copy_saved_action_returns (ha : Alone m (.enter sig))
    (hrest : ∀ saved : Saved, saved.snapshot = (m.slots sig).current →
      saved.copied = m.heap (m.slots sig).current →
      Alone (m.store_readers sig 1) (.leave sig saved) →
      Returns image t a (m.store_readers sig 1) (.leave sig saved) answer s) :
    Returns image t a m (.enter sig) answer s := by
  have hstep : program image T t a m (.enter sig) = ⟨m.store_readers sig 1, .load sig, []⟩ := by
    simp only [program, forward_step, ha.readers sig]
    rfl
  have hloading := ha.next hstep
  refine .next hstep ?_
  by_cases h₀ : (m.slots sig).current = 0
  · have hload : program image T t a (m.store_readers sig 1) (.load sig)
        = ⟨m.store_readers sig 1, .leave sig ⟨0, none⟩, []⟩ := by
      simp only [program, forward_step, store_readers_current, if_pos h₀]
    rw [h₀, ha.null] at hrest
    exact .next hload (hrest _ rfl rfl (hloading.next hload))
  · have hload : program image T t a (m.store_readers sig 1) (.load sig)
        = ⟨m.store_readers sig 1,
          .read sig (m.slots sig).current (m.heap (m.slots sig).current), []⟩ := by
      simp only [program, forward_step, store_readers_current, if_neg h₀]
      rfl
    exact .next hload (.next rfl (hrest _ rfl rfl ((hloading.next hload).step image t a)))

omit [DecidableEq T] in
/-- `forward_signal`, with the cases of the copied action taken together. -/
theorem forward_signal_eq (slot : SignalSlots.SignalSlot) : SignalSlots.forward_signal slot
    = (forwarded (slot.current.getD .zeroed),
      if one_shot (slot.current.getD .zeroed) then { slot with current := none } else slot) := by
  unfold SignalSlots.forward_signal forwarded one_shot
  generalize slot.current.getD .zeroed = saved
  by_cases h₀ : saved.sa_sigaction = SIG_DFL
  · simp [h₀]
  · by_cases h₁ : saved.sa_sigaction = SIG_IGN
    · simp [h₁, SIG_IGN, SIG_DFL]
    · simp [h₀, h₁]

theorem invoke_returns {saved : Saved} (ha : Alone m (.invoke saved)) :
    Returns image t a m (.invoke saved) (forwarded saved.action) m.view :=
  .last ha rfl rfl

/-- Nobody has installed anything since, so the reset finds what was copied. -/
theorem reset_returns {saved : Saved} (h : saved.snapshot = (m.slots sig).current)
    (ha : Alone m (.reset sig saved)) :
    Returns image t a m (.reset sig saved) (forwarded saved.action)
      (Function.update m.view sig ⟨⟨none, (m.slots sig).owned⟩, m.kernel sig⟩) := by
  have hstep : program image T t a m (.reset sig saved)
      = ⟨m.store_current sig 0, .invoke saved, [.reset saved.copied (m.heap saved.snapshot)]⟩ :=
    if_pos h.symm
  have hrest := invoke_returns image t a (ha.next hstep)
  rw [view_store_current, ha.null] at hrest
  exact .next hstep hrest

/-- From the copy on the signal is forwarded, and a one-shot handler reset. -/
theorem leave_returns {saved : Saved} (hsnapshot : saved.snapshot = (m.slots sig).current)
    (hcopied : saved.copied = m.heap (m.slots sig).current) (ha : Alone m (.leave sig saved)) :
    Returns image t a m (.leave sig saved) (SignalSlots.forward_signal (m.view sig).slot).1
      (Function.update m.view sig
        ⟨(SignalSlots.forward_signal (m.view sig).slot).2, m.kernel sig⟩) := by
  have hsaved : saved.action = (m.view sig).slot.current.getD .zeroed := by
    rw [← saved_action m sig saved.snapshot, ← hcopied]
  rw [forward_signal_eq, ← hsaved]
  dsimp only
  by_cases h : one_shot saved.action = true
  · have hstep : program image T t a m (.leave sig saved)
        = ⟨m.store_readers sig ((m.slots sig).readers - 1), .reset sig saved, []⟩ := by
      simp only [program, forward_step, if_pos h]
    have hcurrent : saved.snapshot = ((m.store_readers sig
        ((m.slots sig).readers - 1)).slots sig).current := by
      rw [store_readers_current]
      exact hsnapshot
    have hrest := reset_returns image t a hcurrent (ha.next hstep)
    rw [view_store_readers, ← view_owned, view_store_readers, ← view_kernel, view_store_readers]
      at hrest
    rw [if_pos h]
    exact .next hstep hrest
  · have hstep : program image T t a m (.leave sig saved)
        = ⟨m.store_readers sig ((m.slots sig).readers - 1), .invoke saved, []⟩ := by
      simp only [program, forward_step, if_neg h]
    have hrest := invoke_returns image t a (ha.next hstep)
    rw [view_store_readers] at hrest
    rw [if_neg h, ← view_kernel, Function.update_eq_self]
    exact .next hstep hrest

/-- **`forward_signal`, alone.** -/
theorem forward_signal_returns (hcall : a.call = .forward sig) (ha : Alone m .idle) :
    Returns image t a m .idle (SignalSlots.forward_signal (m.view sig).slot).1
      (Function.update m.view sig
        ⟨(SignalSlots.forward_signal (m.view sig).slot).2, m.kernel sig⟩) := by
  have hstep : program image T t a m .idle = ⟨m, .enter sig, []⟩ := by
    simp only [program, begin_step, hcall]
  refine .next hstep (copy_saved_action_returns image t a (ha.next hstep)
    fun saved hsnapshot hcopied hleave => ?_)
  have hcurrent := store_readers_current m sig sig 1
  have hrest := leave_returns image t a (hsnapshot.trans hcurrent.symm)
    (hcopied.trans (congrArg m.heap hcurrent.symm)) hleave
  rw [view_store_readers] at hrest
  exact hrest

end Call

/-! ## A call in a run -/

/-- Somebody holds the lock if the flag is set. -/
def Held (c : Config T Mem Pc) : Prop :=
  c.mem.SIGNAL_UPDATE_LOCK = true → ∃ t, (c.loc t).holds = true

section Run

variable [DecidableEq T]

theorem Held.step {c : Config T Mem Pc} (h : Held c) (t : T) (a : Choice) :
    Held (c.after t (program image T t a c.mem (c.loc t))) := by
  intro hlock
  rw [Threads.Config.after_mem] at hlock
  by_cases hholds : (program image T t a c.mem (c.loc t)).loc.holds = true
  · refine ⟨t, ?_⟩
    rw [Threads.Config.after_loc_self]
    exact hholds
  · rw [Bool.not_eq_true] at hholds
    obtain ⟨hsame, hkept⟩ | ⟨-, -, htaken⟩ | ⟨hheld, -⟩ :=
      (@moves image T t a c.mem (c.loc t)).lock_step
    · obtain ⟨u, hu⟩ := h (hkept.symm.trans hlock)
      -- It was another thread, which still holds it.
      have hne : u ≠ t := by
        rintro rfl
        exact Bool.false_ne_true ((hholds.symm.trans hsame).trans hu)
      refine ⟨u, ?_⟩
      rw [Threads.Config.after_loc_of_ne _ _ hne]
      exact hu
    · exact absurd (hholds.symm.trans htaken) Bool.false_ne_true
    · exact absurd ((lock_given hheld hholds).symm.trans hlock) Bool.false_ne_true

variable [Fintype T]

/-- **Between two calls.** Where every thread is idle, nobody is in the way of the next call. -/
theorem alone_of_idle (hT : Fintype.card T < 2 ^ 32) (kernel : Signal → Sigaction)
    (s : List (T × Choice))
    (hidle : ∀ t, (run (program image T) (start T kernel) s).loc t = .idle) :
    Alone (run (program image T) (start T kernel) s).mem .idle := by
  have hinv : Inv (trace (program image T) (start T kernel) s) _ := inv_run hT kernel s
  have hrun : Held (run (program image T) (start T kernel) s)
      ∧ (run (program image T) (start T kernel) s).mem.heap 0 = none :=
    Threads.run_induct_after (program image T)
      (I := fun _ c => Held c ∧ c.mem.heap 0 = none) ⟨fun h => absurd h Bool.false_ne_true, rfl⟩
      (fun _ _ t a h => ⟨h.1.step t a, moves.null h.2⟩) s
  refine ⟨?_, fun sig => ?_, hinv.rooted, trivial, hrun.2⟩
  · refine Bool.eq_false_iff.mpr fun hlock => ?_
    obtain ⟨t, ht⟩ := hrun.1 hlock
    rw [hidle t] at ht
    cases ht
  · have hcount : Threads.count (Pc.reading sig)
        (run (program image T) (start T kernel) s).loc = 0 := by
      simp [Threads.count, hidle, Pc.reading]
    rw [hinv.readers sig, hcount]
    rfl

end Run

/-- The step of `SignalSlots.lean` that a call of the threads is, when nothing fails. A signal is
forwarded where the kernel holds the bridge. -/
def Choice.Makes (image : Image) (m : Mem) (a : Choice) : SignalSlots.Event → Prop
  | .sigaction sig act oldact => a.call = .sigaction sig act oldact ∧ a.Fresh m
  | .deliver sig => a.call = .forward sig ∧ SignalSlots.Bridged image sig (m.kernel sig)

/-- **The two models agree.** Wherever a run has come to with every thread idle, a call that is
alone answers what LinUwUx answers in `SignalSlots.lean`, and leaves the slots it leaves there. -/
theorem interposed_alone (image : Image) (kernel : Signal → Sigaction)
    (s : List (Markers.Tid × Choice)) {c : Config Markers.Tid Mem Pc}
    (hc : run (program image Markers.Tid) (start Markers.Tid kernel) s = c)
    (hidle : ∀ t, c.loc t = .idle) (t : Markers.Tid) {a : Choice} {e : SignalSlots.Event}
    (ha : a.Makes image c.mem e) :
    Returns image t a c.mem .idle (SignalSlots.interposed image c.mem.view e).1
      (SignalSlots.interposed image c.mem.view e).2 := by
  have halone : Alone c.mem .idle := by
    subst hc
    exact alone_of_idle card_tid_lt kernel s hidle
  cases e with
  | sigaction sig act oldact => exact sigaction_returns image t a ha.2 ha.1 halone
  | deliver sig =>
    have hforward : SignalSlots.deliver image (c.mem.view sig) sig = _ :=
      SignalSlots.Bridged.forwards ha.2
    simp only [SignalSlots.interposed, hforward]
    exact forward_signal_returns image t a ha.1 halone

end Linuwux.Snapshots
