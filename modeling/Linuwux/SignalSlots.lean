/-
`SignalSlots.lean` -- `sigaction` and `forward_signal` of `hooks.rs`, and the kernel they stand
in for.

Once Wine has installed its handler, the kernel holds LinUwUx's own handler for `SIGSEGV` and
`SIGSYS`, the *bridge*, and the action that was asked for is a snapshot in the signal's slot.
`install_bridge` swaps the snapshot, `forward_signal` plays the kernel for signals LinUwUx does
not consume. Every other reader of the action has to look in the slot too; a query (`act` null)
does not, and neither does the path that answers `oldact` when there is no snapshot left.

The model is of one call or one signal at a time, all underlying calls succeeding. The kernel
terminates the process on `SIG_DFL` and resets the handler of a one-shot action before it calls it.
It does not keep an action quite as it was given: the C library makes every handler return through
its `restore_rt`, and the kernel drops the flags it does not know and the signals that cannot be
blocked ([`kept`]). The slot holds the action as it was given, so an `oldact` from it is the
kernel's up to these fields, and so the two are compared ([`Sigaction.essential`]).
-/
import Linuwux.Machines
import Mathlib.Logic.Function.Basic
import Mathlib.Data.BitVec

set_option autoImplicit false

namespace Linuwux.SignalSlots

/-! ## Actions -/

inductive Signal where
  | SIGSEGV
  | SIGSYS
  deriving DecidableEq, Repr

/-- `struct sigaction`. -/
structure Sigaction where
  sa_sigaction : UInt64
  sa_mask : BitVec 1024
  sa_flags : UInt32
  sa_restorer : UInt64
  deriving DecidableEq, Repr

def SIG_DFL : UInt64 := 0
def SIG_IGN : UInt64 := 1
def SA_SIGINFO : UInt32 := 0x4
def SA_RESETHAND : UInt32 := 0x80000000
def SA_RESTORER : UInt32 := 0x4000000

/-- The flags the kernel keeps. -/
def UAPI_SA_FLAGS : UInt32 := 0xdc000807

/-- The signals the kernel keeps in a mask: its 64, less `SIGKILL` and `SIGSTOP`. -/
def blockable : BitVec 1024 := 0xfffffffffffbfeff

/-- `MaybeUninit::zeroed()`. -/
def Sigaction.zeroed : Sigaction := ⟨0, 0, 0, 0⟩

def Sigaction.siginfo (a : Sigaction) : Bool := a.sa_flags &&& SA_SIGINFO != 0
def Sigaction.resethand (a : Sigaction) : Bool := a.sa_flags &&& SA_RESETHAND != 0

/-- What a program says with an action: all but the return from the handler, the flags the kernel
does not know and the signals that cannot be blocked. -/
def Sigaction.essential (a : Sigaction) : Sigaction :=
  { a with
    sa_mask := a.sa_mask &&& blockable
    sa_flags := a.sa_flags &&& UAPI_SA_FLAGS &&& ~~~SA_RESTORER
    sa_restorer := 0 }

/-- The part of a path behind the last slash. -/
def basename (name : List Char) : List Char := (name.reverse.takeWhile (· ≠ '/')).reverse

/-- The file names of Wine's `ntdll`. -/
def is_ntdll (name : List Char) : Bool :=
  basename name == "ntdll.so".toList || basename name == "ntdll.dll.so".toList ||
    basename name == "ntdll.dll".toList

/-- What the process is loaded with: where the two handlers of LinUwUx are, the file that `dladdr`
names for an address, and the C library's return from a handler. The handlers are functions of
LinUwUx's own library. -/
structure Image where
  bridge_handler : Signal → UInt64
  dladdr : UInt64 → Option (List Char)
  restore_rt : UInt64
  bridge_ne_dfl : ∀ sig, bridge_handler sig ≠ SIG_DFL
  bridge_ne_ign : ∀ sig, bridge_handler sig ≠ SIG_IGN
  bridge_not_ntdll : ∀ sig name, dladdr (bridge_handler sig) = some name → is_ntdll name = false

variable (image : Image)

def action_is_bridge (sig : Signal) (action : Sigaction) : Bool :=
  action.siginfo && image.bridge_handler sig != 0 &&
    action.sa_sigaction == image.bridge_handler sig

def handler_is_from_wine_ntdll (action : Sigaction) : Bool :=
  if action.sa_sigaction = SIG_DFL ∨ action.sa_sigaction = SIG_IGN then false
  else
    match image.dladdr action.sa_sigaction with
    | none => false
    | some name => is_ntdll name

/-! ## The kernel -/

/-- What the process sees: a `sigaction` that returned 0, with the action it wrote to `oldact`; a
handler called, with one argument or three; a signal ignored; the end of the process. -/
inductive Answer where
  | returned (oldact : Option Sigaction)
  | invoked (handler : UInt64) (siginfo : Bool)
  | ignored
  | terminated
  deriving DecidableEq, Repr

/-- What a program is told by an answer. -/
def Answer.essential : Answer → Answer
  | .returned oldact => .returned (oldact.map Sigaction.essential)
  | answer => answer

/-- A call of `sigaction`, `act` null or not and `oldact` asked for or not, or a signal that
LinUwUx does not consume. -/
inductive Event where
  | sigaction (sig : Signal) (act : Option Sigaction) (oldact : Bool)
  | deliver (sig : Signal)
  deriving DecidableEq, Repr

/-- What the C library and the kernel make of an action before they keep it. -/
def kept (a : Sigaction) : Sigaction :=
  { a with
    sa_mask := a.sa_mask &&& blockable
    sa_flags := (a.sa_flags ||| SA_RESTORER) &&& UAPI_SA_FLAGS
    sa_restorer := image.restore_rt }

/-- The kernel's `sigaction` on an action. -/
def real (kernel : Sigaction) (act : Option Sigaction) (oldact : Bool) : Answer × Sigaction :=
  (.returned (if oldact then some kernel else none), (act.map (kept image)).getD kernel)

/-- The kernel's delivery of a signal with an action. -/
def dispatch (kernel : Sigaction) : Answer × Sigaction :=
  if kernel.sa_sigaction = SIG_DFL then (.terminated, kernel)
  else if kernel.sa_sigaction = SIG_IGN then (.ignored, kernel)
  else (.invoked kernel.sa_sigaction kernel.siginfo,
    if kernel.resethand then { kernel with sa_sigaction := SIG_DFL } else kernel)

/-- The kernel with nothing in between. -/
def plain : Machines.Machine (Signal → Sigaction) Event Answer
  | k, .sigaction sig act oldact =>
    ((real image (k sig) act oldact).1, Function.update k sig (real image (k sig) act oldact).2)
  | k, .deliver sig => ((dispatch (k sig)).1, Function.update k sig (dispatch (k sig)).2)

/-! ## The interposer -/

/-- A `SignalSlot`, with the action its `current` points to. -/
structure SignalSlot where
  current : Option Sigaction
  owned : Bool
  deriving DecidableEq, Repr

def SignalSlot.new : SignalSlot := ⟨none, false⟩

/-- A slot and the kernel's action for its signal. -/
structure Interposed where
  slot : SignalSlot
  kernel : Sigaction

/-- The action `install_bridge` gives the kernel. -/
def bridge_of (sig : Signal) (requested : Sigaction) : Sigaction :=
  { requested with
    sa_flags := (requested.sa_flags ||| SA_SIGINFO) &&& ~~~SA_RESETHAND
    sa_sigaction := image.bridge_handler sig }

def install_bridge (s : Interposed) (sig : Signal) (requested : Sigaction) (oldact : Bool) :
    Answer × Interposed :=
  let previous := s.kernel
  -- Somebody hands back the bridge, which a query has given him.
  if action_is_bridge image sig requested then
    (.returned (if oldact then some previous else none), s)
  else
    (.returned (if oldact then some (s.slot.current.getD previous) else none),
      ⟨⟨some requested, true⟩, kept image (bridge_of image sig requested)⟩)

def sigaction (s : Interposed) (sig : Signal) (act : Option Sigaction) (oldact : Bool) :
    Answer × Interposed :=
  match act with
  | none => ((real image s.kernel none oldact).1, s)
  | some requested =>
    -- Until Wine's `ntdll` installs a handler, the calls go to the kernel.
    if !s.slot.owned && !handler_is_from_wine_ntdll image requested then
      ((real image s.kernel act oldact).1, { s with kernel := (real image s.kernel act oldact).2 })
    else install_bridge image s sig requested oldact

def forward_signal (slot : SignalSlot) : Answer × SignalSlot :=
  let saved := slot.current.getD .zeroed
  if saved.sa_sigaction = SIG_DFL then (.terminated, slot)
  else if saved.sa_sigaction ≠ SIG_IGN then
    (.invoked saved.sa_sigaction saved.siginfo,
      if saved.resethand then { slot with current := none } else slot)
  else (.ignored, slot)

/-- A signal: the kernel calls what it holds, and the bridge, which does not consume the signal,
forwards it. -/
def deliver (s : Interposed) (sig : Signal) : Answer × Interposed :=
  let (answer, kernel) := dispatch s.kernel
  match answer with
  | .invoked handler _ =>
    if handler = image.bridge_handler sig then
      ((forward_signal s.slot).1, ⟨(forward_signal s.slot).2, kernel⟩)
    else (answer, { s with kernel })
  | _ => (answer, { s with kernel })

/-- The kernel with LinUwUx in between. -/
def interposed : Machines.Machine (Signal → Interposed) Event Answer
  | s, .sigaction sig act oldact =>
    ((sigaction image (s sig) sig act oldact).1,
      Function.update s sig (sigaction image (s sig) sig act oldact).2)
  | s, .deliver sig =>
    ((deliver image (s sig) sig).1, Function.update s sig (deliver image (s sig) sig).2)

/-- Nothing installed over what the kernel holds. -/
def start (k : Signal → Sigaction) : Signal → Interposed := fun sig => ⟨.new, k sig⟩

/-- The process is gone. -/
def halts : Answer → Bool
  | .terminated => true
  | _ => false

/-! ## What is kept of an action -/

variable {image} {sig : Signal}

theorem and_or_distrib (a b c : UInt32) : (a ||| b) &&& c = a &&& c ||| b &&& c := by
  apply UInt32.toBitVec_inj.mp
  rw [UInt32.toBitVec_and, UInt32.toBitVec_or, BitVec.and_or_distrib_right, UInt32.toBitVec_or,
    UInt32.toBitVec_and, UInt32.toBitVec_and]

/-- A flag that the kernel knows is kept. -/
theorem kept_flag {flag : UInt32} (hflag : UAPI_SA_FLAGS &&& flag = flag)
    (hrestorer : SA_RESTORER &&& flag = 0) (a : Sigaction) :
    (kept image a).sa_flags &&& flag = a.sa_flags &&& flag := by
  show (a.sa_flags ||| SA_RESTORER) &&& UAPI_SA_FLAGS &&& flag = a.sa_flags &&& flag
  rw [UInt32.and_assoc, hflag, and_or_distrib, hrestorer, UInt32.or_zero]

@[simp] theorem kept_siginfo (a : Sigaction) : (kept image a).siginfo = a.siginfo := by
  unfold Sigaction.siginfo
  rw [kept_flag (by decide) (by decide)]

@[simp] theorem kept_resethand (a : Sigaction) : (kept image a).resethand = a.resethand := by
  unfold Sigaction.resethand
  rw [kept_flag (by decide) (by decide)]

@[simp] theorem kept_sa_sigaction (a : Sigaction) :
    (kept image a).sa_sigaction = a.sa_sigaction := rfl

@[simp] theorem essential_siginfo (a : Sigaction) : a.essential.siginfo = a.siginfo := by
  have hflag : UAPI_SA_FLAGS &&& (~~~SA_RESTORER &&& SA_SIGINFO) = SA_SIGINFO := by decide
  show (a.sa_flags &&& UAPI_SA_FLAGS &&& ~~~SA_RESTORER &&& SA_SIGINFO != 0) = a.siginfo
  rw [UInt32.and_assoc, UInt32.and_assoc, hflag]
  rfl

/-- What a program says with an action is kept. -/
@[simp] theorem essential_kept (a : Sigaction) : (kept image a).essential = a.essential := by
  have hflags : (a.sa_flags ||| SA_RESTORER) &&& UAPI_SA_FLAGS &&& UAPI_SA_FLAGS &&& ~~~SA_RESTORER
      = a.sa_flags &&& UAPI_SA_FLAGS &&& ~~~SA_RESTORER := by
    have hcancel : SA_RESTORER &&& (UAPI_SA_FLAGS &&& ~~~SA_RESTORER) = 0 := by decide
    rw [UInt32.and_assoc (_ ||| _), UInt32.and_self, UInt32.and_assoc, and_or_distrib,
      hcancel, UInt32.or_zero, UInt32.and_assoc]
  have hmask : a.sa_mask &&& blockable &&& blockable = a.sa_mask &&& blockable := by
    rw [BitVec.and_assoc, BitVec.and_self]
  unfold Sigaction.essential
  exact congrArg₂ (Sigaction.mk a.sa_sigaction · · 0) hmask hflags

@[simp] theorem halts_essential (o : Answer) : halts o.essential = halts o := by
  cases o <;> rfl

/-- Where nothing is returned, the program is told everything. -/
theorem eq_of_essential {o o' : Answer} (h : o.essential = o'.essential)
    (hno : ∀ oldact, o ≠ .returned oldact) : o = o' := by
  cases o with
  | returned oldact => exact absurd rfl (hno oldact)
  | invoked handler siginfo => cases o' <;> first | exact h | exact Answer.noConfusion h
  | ignored => cases o' <;> first | exact h | exact Answer.noConfusion h
  | terminated => cases o' <;> first | exact h | exact Answer.noConfusion h

/-! ## The bridge -/

/-- The bridge is LinUwUx's handler, called with `SA_SIGINFO`. -/
theorem action_is_bridge_iff {a : Sigaction} : action_is_bridge image sig a = true ↔
    a.siginfo = true ∧ a.sa_sigaction = image.bridge_handler sig := by
  have h0 : image.bridge_handler sig ≠ 0 := image.bridge_ne_dfl sig
  simp [action_is_bridge, h0]

/-- Wine's handlers are not LinUwUx's. -/
theorem from_wine_ne_bridge {a : Sigaction} (h : handler_is_from_wine_ntdll image a = true) :
    a.sa_sigaction ≠ image.bridge_handler sig := by
  intro heq
  unfold handler_is_from_wine_ntdll at h
  rw [heq, if_neg (not_or.mpr ⟨image.bridge_ne_dfl sig, image.bridge_ne_ign sig⟩)] at h
  cases hname : image.dladdr (image.bridge_handler sig) with
  | none =>
    rw [hname] at h
    exact Bool.false_ne_true h
  | some name =>
    rw [hname] at h
    exact Bool.false_ne_true ((image.bridge_not_ntdll sig name hname).symm.trans h)

/-- The bridge is never reset. -/
theorem bridge_of_resethand (a : Sigaction) : (bridge_of image sig a).resethand = false := by
  unfold Sigaction.resethand bridge_of
  simp [UInt32.and_assoc]

/-- A flag that was set is there. -/
theorem or_and_cancel (flags flag : UInt32) : (flags ||| flag) &&& flag = flag := by
  apply UInt32.toBitVec_inj.mp
  ext i hi
  rw [UInt32.toBitVec_and, UInt32.toBitVec_or, BitVec.getElem_and, BitVec.getElem_or]
  cases flags.toBitVec[i] <;> cases flag.toBitVec[i] <;> rfl

/-- What is installed for an action is the bridge. -/
theorem bridge_of_is_bridge (a : Sigaction) :
    action_is_bridge image sig (bridge_of image sig a) = true := by
  rw [action_is_bridge_iff]
  refine ⟨?_, rfl⟩
  have hflag : (bridge_of image sig a).sa_flags &&& SA_SIGINFO = SA_SIGINFO := by
    show ((a.sa_flags ||| SA_SIGINFO) &&& ~~~SA_RESETHAND) &&& SA_SIGINFO = SA_SIGINFO
    rw [UInt32.and_assoc, show ~~~SA_RESETHAND &&& SA_SIGINFO = SA_SIGINFO by decide, or_and_cancel]
  unfold Sigaction.siginfo
  rw [hflag]
  rfl

/-- The kernel holds the bridge of the signal, which it does not reset. -/
structure Bridged (image : Image) (sig : Signal) (kernel : Sigaction) : Prop where
  is_bridge : action_is_bridge image sig kernel = true
  kept : kernel.resethand = false

theorem action_is_bridge_kept (a : Sigaction) :
    action_is_bridge image sig (kept image a) = action_is_bridge image sig a := by
  simp [action_is_bridge]

/-- The kernel keeps it as the bridge. -/
theorem bridged (a : Sigaction) : Bridged image sig (kept image (bridge_of image sig a)) :=
  ⟨(action_is_bridge_kept _).trans (bridge_of_is_bridge a),
    (kept_resethand _).trans (bridge_of_resethand a)⟩

theorem Bridged.handler {kernel : Sigaction} (h : Bridged image sig kernel) :
    kernel.sa_sigaction = image.bridge_handler sig :=
  (action_is_bridge_iff.mp h.is_bridge).2

/-- A signal under the bridge is forwarded, and the bridge stays. -/
theorem Bridged.forwards {s : Interposed} (h : Bridged image sig s.kernel) :
    deliver image s sig = ((forward_signal s.slot).1, ⟨(forward_signal s.slot).2, s.kernel⟩) := by
  have hd : dispatch s.kernel
      = (.invoked (image.bridge_handler sig) s.kernel.siginfo, s.kernel) := by
    unfold dispatch
    rw [h.handler, if_neg (image.bridge_ne_dfl sig), if_neg (image.bridge_ne_ign sig), h.kept]
    rfl
  simp [deliver, hd]

/-- A signal under any other action is the kernel's own matter. -/
theorem deliver_plain {s : Interposed} (h : s.kernel.sa_sigaction ≠ image.bridge_handler sig) :
    deliver image s sig = ((dispatch s.kernel).1, { s with kernel := (dispatch s.kernel).2 }) := by
  unfold deliver dispatch
  by_cases h₀ : s.kernel.sa_sigaction = SIG_DFL
  · simp [h₀]
  · by_cases h₁ : s.kernel.sa_sigaction = SIG_IGN
    · simp [h₁, SIG_IGN, SIG_DFL]
    · simp [h₀, h₁, h]

/-- The kernel keeps the action or resets its handler. -/
theorem dispatch_keeps (k : Sigaction) :
    (dispatch k).2 = k ∨ (dispatch k).2 = { k with sa_sigaction := SIG_DFL } := by
  unfold dispatch
  split
  · exact .inl rfl
  · split
    · exact .inl rfl
    · split
      · exact .inr rfl
      · exact .inl rfl

/-- Forwarding to the action in the slot is what the kernel does with it: the same answer, and the
slot is emptied where the kernel resets the handler. -/
theorem forward_signal_some (a : Sigaction) (owned : Bool) :
    (forward_signal ⟨some a, owned⟩).1 = (dispatch (kept image a)).1 ∧
      ((forward_signal ⟨some a, owned⟩).2 = ⟨some a, owned⟩ ∧
          (dispatch (kept image a)).2 = kept image a ∨
        (forward_signal ⟨some a, owned⟩).2 = ⟨none, owned⟩ ∧
          (dispatch (kept image a)).2.sa_sigaction = SIG_DFL) := by
  unfold forward_signal dispatch
  rw [kept_sa_sigaction, kept_siginfo, kept_resethand]
  by_cases h₀ : a.sa_sigaction = SIG_DFL
  · simp [h₀]
  · by_cases h₁ : a.sa_sigaction = SIG_IGN
    · simp [h₁, SIG_IGN, SIG_DFL]
    · cases hr : a.resethand with
      | true => simp [h₀, h₁, hr]
      | false => simp [h₀, h₁, hr]

theorem forward_signal_none (owned : Bool) :
    forward_signal ⟨none, owned⟩ = (.terminated, ⟨none, owned⟩) := rfl

/-! ## The slot and the kernel it stands in for -/

/-- **What LinUwUx holds for a signal and what the kernel would hold.** Before the first bridge the
two are the same; then the kernel's action is in the slot, or has fired and been reset. -/
inductive SyncedAt (image : Image) (sig : Signal) : Interposed → Sigaction → Prop
  | free {k : Sigaction} (h : k.sa_sigaction ≠ image.bridge_handler sig) :
    SyncedAt image sig ⟨⟨none, false⟩, k⟩ k
  | held {a k : Sigaction} (h : Bridged image sig k) (ha : action_is_bridge image sig a = false) :
    SyncedAt image sig ⟨⟨some a, true⟩, k⟩ (kept image a)
  | fired {p k : Sigaction} (h : Bridged image sig k) (hp : p.sa_sigaction = SIG_DFL) :
    SyncedAt image sig ⟨⟨none, true⟩, k⟩ p

/-- The kernel's bridge is not the action it stands in for. -/
theorem bridged_ne {a k : Sigaction} (h : Bridged image sig k)
    (ha : action_is_bridge image sig a = false ∨ a.sa_sigaction = SIG_DFL) :
    k.essential ≠ a.essential := by
  intro heq
  have hhandler : k.essential.sa_sigaction = a.essential.sa_sigaction :=
    congrArg Sigaction.sa_sigaction heq
  change k.sa_sigaction = a.sa_sigaction at hhandler
  have hinfo : k.siginfo = a.siginfo := by
    rw [← essential_siginfo k, heq, essential_siginfo]
  rcases ha with ha | ha
  · have hb := h.is_bridge
    rw [action_is_bridge_iff, hinfo, hhandler, ← action_is_bridge_iff] at hb
    exact Bool.false_ne_true (ha.symm.trans hb)
  · exact image.bridge_ne_dfl sig (h.handler.symm.trans (hhandler.trans ha))

/-- A signal comes to the same in both, and leaves both in step. -/
theorem SyncedAt.signal {s : Interposed} {p : Sigaction} (h : SyncedAt image sig s p) :
    (deliver image s sig).1 = (dispatch p).1 ∧ (halts (deliver image s sig).1 = false →
      SyncedAt image sig (deliver image s sig).2 (dispatch p).2) := by
  cases h with
  | free h =>
    rw [deliver_plain h]
    refine ⟨rfl, fun _ => .free ?_⟩
    rcases dispatch_keeps p with heq | heq
    · rw [heq]
      exact h
    · rw [heq]
      exact Ne.symm (image.bridge_ne_dfl sig)
  | @held a k h ha =>
    obtain ⟨hans, hkeep⟩ := @forward_signal_some image a true
    rw [Bridged.forwards h]
    refine ⟨hans, fun _ => ?_⟩
    rcases hkeep with ⟨hslot, hk⟩ | ⟨hslot, hk⟩
    · rw [hslot, hk]
      exact .held h ha
    · rw [hslot]
      exact .fired h hk
  | fired h hp =>
    rw [Bridged.forwards h]
    -- The handler was reset, and the next signal ends the process in both.
    refine ⟨?_, fun hh => absurd hh (by simp [forward_signal_none, halts])⟩
    simp [forward_signal_none, dispatch, hp]

/-- What a call of `sigaction` must not be for LinUwUx to answer it as the kernel would. Under the
bridge it does not ask for the action by a query, does not hand the bridge back, and does not ask
for the old action when that has fired; before, it does not install the bridge by hand. -/
def Answerable (image : Image) (s : Interposed) (sig : Signal) : Option Sigaction → Bool → Prop
  | none, oldact => oldact = true → s.slot.owned = false
  | some act, oldact =>
    if s.slot.owned then
      action_is_bridge image sig act = false ∧ (oldact = true → s.slot.current ≠ none)
    else act.sa_sigaction ≠ image.bridge_handler sig

instance (s : Interposed) : (act : Option Sigaction) → (oldact : Bool) →
    Decidable (Answerable image s sig act oldact)
  | none, _ => inferInstanceAs (Decidable (_ → _))
  | some act, oldact =>
    inferInstanceAs (Decidable (if s.slot.owned then
      action_is_bridge image sig act = false ∧ (oldact = true → s.slot.current ≠ none)
      else act.sa_sigaction ≠ image.bridge_handler sig))

/-- A query is answered alike exactly where it may be asked. -/
theorem SyncedAt.query {s : Interposed} {p : Sigaction} {oldact : Bool}
    (h : SyncedAt image sig s p) :
    Answerable image s sig none oldact ↔
      (sigaction image s sig none oldact).1.essential = (real image p none oldact).1.essential := by
  cases oldact with
  | false => simp [Answerable, sigaction, real]
  | true =>
    cases h with
    | free h => simp [Answerable, sigaction, real]
    | held h ha =>
      simpa [Answerable, sigaction, real, Answer.essential] using bridged_ne h (.inl ha)
    | fired h hp =>
      simpa [Answerable, sigaction, real, Answer.essential] using bridged_ne h (.inr hp)

/-- The step of a new action that may be answered. -/
theorem SyncedAt.install {s : Interposed} {p act : Sigaction} {oldact : Bool}
    (h : SyncedAt image sig s p) (hok : Answerable image s sig (some act) oldact) :
    (sigaction image s sig (some act) oldact).1.essential
        = (real image p (some act) oldact).1.essential ∧
      SyncedAt image sig (sigaction image s sig (some act) oldact).2 (kept image act) := by
  cases h with
  | free h =>
    have hne : act.sa_sigaction ≠ image.bridge_handler sig := hok
    have hb : action_is_bridge image sig act = false := by
      rw [← Bool.not_eq_true, action_is_bridge_iff]
      exact fun h' => hne h'.2
    by_cases hw : handler_is_from_wine_ntdll image act = true
    · simp only [sigaction, hw, install_bridge, hb]
      exact ⟨rfl, .held (bridged act) hb⟩
    · rw [Bool.not_eq_true] at hw
      simp only [sigaction, hw]
      exact ⟨rfl, .free hne⟩
  | held h ha =>
    obtain ⟨hb, -⟩ := hok
    simp only [sigaction, install_bridge, hb]
    -- The slot has the action as it was given, the kernel as it was kept.
    refine ⟨?_, .held (bridged act) hb⟩
    cases oldact with
    | false => rfl
    | true => simp [real, Answer.essential]
  | fired h hp =>
    obtain ⟨hb, hold⟩ := hok
    -- What has fired cannot be returned: the slot is empty.
    have hno : oldact = false := by
      cases oldact with
      | false => rfl
      | true => exact absurd rfl (hold rfl)
    subst hno
    simp only [sigaction, install_bridge, hb]
    exact ⟨rfl, .held (bridged act) hb⟩

/-- The kernel calls the bridge if it holds it. -/
theorem dispatch_bridge {a : Sigaction} (h : a.sa_sigaction = image.bridge_handler sig) :
    (dispatch a).1 = .invoked (image.bridge_handler sig) a.siginfo := by
  unfold dispatch
  rw [h, if_neg (image.bridge_ne_dfl sig), if_neg (image.bridge_ne_ign sig)]

/-- What is invoked is the handler of the action. -/
theorem dispatch_eq_invoked {a : Sigaction} {handler : UInt64} {siginfo : Bool}
    (h : (dispatch a).1 = .invoked handler siginfo) :
    a.sa_sigaction = handler ∧ a.siginfo = siginfo := by
  unfold dispatch at h
  split at h
  · exact Answer.noConfusion h
  · split at h
    · exact Answer.noConfusion h
    · exact Answer.invoked.inj h

/-- The bridge handed back changes nothing. -/
theorem sigaction_bridge {s : Interposed} {act : Sigaction} (hs : s.slot.owned = true)
    (hb : action_is_bridge image sig act = true) (oldact : Bool) :
    (sigaction image s sig (some act) oldact).2 = s := by
  simp [sigaction, install_bridge, hs, hb]

/-- The bridge installed by hand, or handed back: the next signal shows it. -/
theorem SyncedAt.not_install {s : Interposed} {p act : Sigaction} {oldact : Bool}
    (h : SyncedAt image sig s p) (hno : ¬ Answerable image s sig (some act) oldact)
    (heq : (sigaction image s sig (some act) oldact).1.essential
      = (real image p (some act) oldact).1.essential) :
    (deliver image (sigaction image s sig (some act) oldact).2 sig).1
      ≠ (dispatch (kept image act)).1 := by
  cases h with
  | free h =>
    have hact : act.sa_sigaction = image.bridge_handler sig := not_not.mp hno
    have hw : handler_is_from_wine_ntdll image act = false := by
      rw [← Bool.not_eq_true]
      exact fun hw => from_wine_ne_bridge hw hact
    have hs : (sigaction image ⟨⟨none, false⟩, p⟩ sig (some act) oldact).2
        = ⟨⟨none, false⟩, kept image act⟩ := by
      simp [sigaction, hw, real]
    -- The kernel calls the bridge, and the bridge has nothing to forward to.
    have hd : (deliver image ⟨⟨none, false⟩, kept image act⟩ sig).1 = .terminated := by
      unfold deliver
      have hinv := dispatch_bridge (a := kept image act) hact
      generalize dispatch (kept image act) = o at hinv
      obtain ⟨answer, kernel⟩ := o
      subst hinv
      simp [forward_signal_none]
    rw [hs, hd, dispatch_bridge (a := kept image act) hact]
    exact fun h' => Answer.noConfusion h'
  | @held a k h ha =>
    have hb : action_is_bridge image sig act = true := by
      rw [← Bool.not_eq_false]
      exact fun hb => hno ⟨hb, fun _ => Option.some_ne_none _⟩
    obtain ⟨hinfo, hact⟩ := action_is_bridge_iff.mp hb
    rw [sigaction_bridge rfl hb, Bridged.forwards h,
      (@forward_signal_some image a true).1,
      dispatch_bridge (a := kept image act) hact, kept_siginfo, hinfo]
    -- The signal still goes to the action in the slot, which is not the bridge.
    intro h'
    obtain ⟨hp, hpi⟩ := dispatch_eq_invoked h'
    rw [kept_sa_sigaction] at hp
    rw [kept_siginfo] at hpi
    exact Bool.false_ne_true (ha.symm.trans (action_is_bridge_iff.mpr ⟨hpi, hp⟩))
  | fired h hp =>
    cases hb : action_is_bridge image sig act with
    | false =>
      have hold : oldact = true := by
        rw [← Bool.not_eq_false]
        exact fun hold => hno ⟨hb, fun h' => absurd (hold.symm.trans h') Bool.false_ne_true⟩
      subst hold
      simp only [sigaction, install_bridge, hb, real] at heq
      exact absurd (Option.some.inj (Answer.returned.inj heq)) (bridged_ne h (.inr hp))
    | true =>
      obtain ⟨-, hact⟩ := action_is_bridge_iff.mp hb
      rw [sigaction_bridge rfl hb, Bridged.forwards h, forward_signal_none,
        dispatch_bridge (a := kept image act) hact]
      exact fun h' => Answer.noConfusion h'

/-- A signal is never the answer of a call. -/
theorem dispatch_ne_returned (k : Sigaction) (oldact : Option Sigaction) :
    (dispatch k).1 ≠ .returned oldact := by
  unfold dispatch
  split
  · simp
  · split <;> simp

/-! ## Runs -/

/-- The slots of both signals and what the kernel would hold. -/
def Synced (image : Image) (s : Signal → Interposed) (k : Signal → Sigaction) : Prop :=
  ∀ sig, SyncedAt image sig (s sig) (k sig)

/-- An input LinUwUx answers as the kernel would: every signal, and the calls that are
[`Answerable`]. -/
def Transparent (image : Image) (s : Signal → Interposed) : Event → Prop
  | .sigaction sig act oldact => Answerable image (s sig) sig act oldact
  | .deliver _ => True

instance (s : Signal → Interposed) : (e : Event) → Decidable (Transparent image s e)
  | .sigaction _ _ _ => inferInstanceAs (Decidable (Answerable _ _ _ _ _))
  | .deliver _ => isTrue trivial

/-- A signal could be delivered next. -/
def IsSignal (e : Event) : Prop := ∃ sig, e = .deliver sig

/-- What becomes of one signal leaves the other in step. -/
theorem Synced.update {s : Signal → Interposed} {k : Signal → Sigaction} (h : Synced image s k)
    {s' : Interposed} {k' : Sigaction} (h' : SyncedAt image sig s' k') :
    Synced image (Function.update s sig s') (Function.update k sig k') := by
  intro sig'
  by_cases heq : sig' = sig
  · subst heq
    rw [Function.update_self, Function.update_self]
    exact h'
  · rw [Function.update_of_ne heq, Function.update_of_ne heq]
    exact h sig'

/-- Any signal comes to the same in both. -/
theorem Synced.signal {s : Signal → Interposed} {k : Signal → Sigaction} (h : Synced image s k)
    {e : Event} (he : IsSignal e) : (interposed image s e).1 = (plain image k e).1 := by
  obtain ⟨sig, rfl⟩ := he
  exact (h sig).signal.1

/-- A transparent input is answered alike and leaves both in step. -/
theorem Synced.keep {s : Signal → Interposed} {k : Signal → Sigaction} (h : Synced image s k)
    {e : Event} (he : Transparent image s e) :
    (interposed image s e).1.essential = (plain image k e).1.essential ∧
      (halts (interposed image s e).1 = false →
        Synced image (interposed image s e).2 (plain image k e).2) := by
  cases e with
  | deliver sig =>
    obtain ⟨heq, hnext⟩ := (h sig).signal
    exact ⟨congrArg Answer.essential heq, fun hh => h.update (hnext hh)⟩
  | sigaction sig act oldact =>
    cases act with
    | none =>
      refine ⟨(h sig).query.mp he, fun _ => ?_⟩
      show Synced image (Function.update s sig (s sig)) (Function.update k sig (k sig))
      rw [Function.update_eq_self, Function.update_eq_self]
      exact h
    | some act =>
      obtain ⟨heq, hnext⟩ := (h sig).install he
      exact ⟨heq, fun _ => h.update hnext⟩

/-- After any other input the answers differ, or those of the next signal do. -/
theorem Synced.breaks {s : Signal → Interposed} {k : Signal → Sigaction} (h : Synced image s k)
    {e : Event} (he : ¬ Transparent image s e)
    (heq : (interposed image s e).1.essential = (plain image k e).1.essential) :
    halts (interposed image s e).1 = false ∧ ∃ q, IsSignal q ∧
      (interposed image (interposed image s e).2 q).1.essential
        ≠ (plain image (plain image k e).2 q).1.essential := by
  cases e with
  | deliver sig => exact absurd trivial he
  | sigaction sig act oldact =>
    cases act with
    | none => exact absurd ((h sig).query.mpr heq) he
    | some act =>
      refine ⟨by rw [← halts_essential, heq]; rfl, .deliver sig, ⟨sig, rfl⟩, fun hsame => ?_⟩
      have hnext := (h sig).not_install he heq
      have heq' := eq_of_essential hsame.symm (dispatch_ne_returned _)
      change (dispatch (Function.update k sig _ sig)).1
        = (deliver image (Function.update s sig _ sig) sig).1 at heq'
      rw [Function.update_self, Function.update_self] at heq'
      exact hnext heq'.symm

/-- **When interposition is transparent.** From any actions that are not the bridge, a sequence of
calls and signals is answered as the kernel would answer it, and so would any signal delivered at
any point of it be, exactly if every call LinUwUx gets is one it can answer. An `oldact` is
compared up to what the C library and the kernel write into an action. -/
theorem sigaction_transparent_iff (image : Image) (k : Signal → Sigaction)
    (hk : ∀ sig, (k sig).sa_sigaction ≠ image.bridge_handler sig) (es : List Event) :
    ((Machines.answers (interposed image) halts (start k) es).map Answer.essential
        = (Machines.answers (plain image) halts k es).map Answer.essential ∧
      ∀ es₁, es₁ <+: es → ∀ sig,
        (Machines.answers (interposed image) halts (start k) (es₁ ++ [.deliver sig])).map
            Answer.essential
          = (Machines.answers (plain image) halts k (es₁ ++ [.deliver sig])).map
            Answer.essential) ↔
      Machines.AllInputs (interposed image) halts (Transparent image) (start k) es := by
  have hstart : Synced image (start k) k := fun sig => .free (hk sig)
  have hrule : Machines.Agree ((interposed image).through Answer.essential)
        ((plain image).through Answer.essential) halts IsSignal (start k) k es ↔
      Machines.AllInputs ((interposed image).through Answer.essential) halts (Transparent image)
        (start k) es := by
    refine Machines.agree_iff_allInputs (fun _ _ _ h he => congrArg Answer.essential (h.signal he))
      (fun _ _ _ h he => ?_) (fun _ _ _ h he heq => ?_) hstart
    · obtain ⟨heq, hnext⟩ := h.keep he
      exact ⟨heq, fun hh => hnext ((halts_essential _).symm.trans hh)⟩
    · obtain ⟨hh, hq⟩ := h.breaks he heq
      exact ⟨(halts_essential _).trans hh, hq⟩
  rw [Machines.allInputs_through halts_essential, Machines.agree_iff_answers] at hrule
  simp only [Machines.answers_through halts_essential] at hrule
  rw [← hrule]
  refine and_congr_right fun _ => forall_congr' fun es₁ => imp_congr_right fun _ => ?_
  constructor
  · rintro h q ⟨sig, rfl⟩
    exact h sig
  · exact fun h sig => h (.deliver sig) ⟨sig, rfl⟩

/-! ### Saving an action by a query -/

/-- A process with Wine's `ntdll` at `0x30000`. -/
def wine_process : Image where
  bridge_handler
    | .SIGSEGV => 0x10000
    | .SIGSYS => 0x11000
  dladdr a := if a = 0x30000 then some "/usr/lib/wine/ntdll.so".toList else none
  restore_rt := 0x50000
  bridge_ne_dfl sig := by cases sig <;> decide
  bridge_ne_ign sig := by cases sig <;> decide
  bridge_not_ntdll sig name h := by cases sig <;> simp at h

/-- The default action for every signal. -/
def defaults : Signal → Sigaction := fun _ => .zeroed

/-- Wine's handler, and one of the game. -/
def wine_action : Sigaction := ⟨0x30000, 0, SA_SIGINFO, 0⟩
def game_action : Sigaction := ⟨0x40000, 0, SA_SIGINFO, 0⟩

/-- Wine installs its handler, and the game replaces it and asks for the old one. -/
theorem replaced_handler_is_returned :
    (Machines.answers (interposed wine_process) halts (start defaults)
        [.sigaction .SIGSEGV (some wine_action) true, .sigaction .SIGSEGV (some game_action) true,
          .deliver .SIGSEGV]).map Answer.essential
      = (Machines.answers (plain wine_process) halts defaults
        [.sigaction .SIGSEGV (some wine_action) true, .sigaction .SIGSEGV (some game_action) true,
          .deliver .SIGSEGV]).map Answer.essential :=
  ((sigaction_transparent_iff wine_process defaults (fun sig => by cases sig <;> decide) _).mpr
    (by decide +kernel)).1

/-- Wine installs its handler; somebody queries the action, installs the game's, puts `saved` back,
and a signal comes. -/
def save_and_restore (saved : Sigaction) : List Event :=
  [.sigaction .SIGSEGV (some wine_action) false, .sigaction .SIGSEGV none true,
    .sigaction .SIGSEGV (some game_action) false, .sigaction .SIGSEGV (some saved) false,
    .deliver .SIGSEGV]

/-- The query is answered with the bridge and not with Wine's action, so what is put back is the
bridge, and the signal goes to the game's handler where the kernel would call Wine's. -/
theorem queried_action_is_lost :
    (Machines.answers (interposed wine_process) halts (start defaults)
        [.sigaction .SIGSEGV (some wine_action) false, .sigaction .SIGSEGV none true]).map
          Answer.essential
      ≠ (Machines.answers (plain wine_process) halts defaults
        [.sigaction .SIGSEGV (some wine_action) false, .sigaction .SIGSEGV none true]).map
          Answer.essential ∧
    Machines.answers (interposed wine_process) halts (start defaults)
        (save_and_restore (kept wine_process (bridge_of wine_process .SIGSEGV wine_action)))
      = [.returned none,
          .returned (some (kept wine_process (bridge_of wine_process .SIGSEGV wine_action))),
          .returned none, .returned none, .invoked game_action.sa_sigaction true] ∧
    Machines.answers (plain wine_process) halts defaults
        (save_and_restore (kept wine_process wine_action))
      = [.returned none, .returned (some (kept wine_process wine_action)), .returned none,
          .returned none, .invoked wine_action.sa_sigaction true] := by
  decide +kernel

end Linuwux.SignalSlots
