/-
`BridgeInstall.lean` -- `install` of `syscall/kuser_dispatch.rs` in any number of threads.

`install` puts the bridge into Wine's dispatcher slot. Three words change one after the other: the
original target is saved, the slot is written, and, when the page is read-only again, the flag is
set that lets later calls return at once. Either call of `mprotect` can fail in between, and Wine
can write the slot. The page guard admits one thread at a time; its owner may be a process that is
gone when this one was forked.

A step is one access of shared memory or one call into the kernel. Wine is a thread of its own,
which writes what it likes at any time, but never the bridge.
-/
import Linuwux.Threads

set_option autoImplicit false

namespace Linuwux.BridgeInstall

open Threads (Config Exclusive LockStep Outcome Program WillShow run trace)

/-! ## The program -/

/-- The words that `install` reads and writes, and whether the page of the slot is writable. -/
structure Mem where
  slot : UInt64
  ORIGINAL_DISPATCHER : UInt64
  BRIDGE_INSTALLED : Bool
  BRIDGE_INSTALL_SUCCESS_LOGGED : Bool
  BRIDGE_INSTALL_FAILURE_LOGGED : Bool
  OWNER : Int32
  writable : Bool
  deriving DecidableEq

/-- Whether the call into the kernel succeeds, and what Wine writes. -/
structure Choice where
  sigprocmask : Bool
  mprotect : Bool
  wine : UInt64

/-- What a step shows. -/
inductive Shown
  | recorded (original : UInt64)
  | wrote_bridge
  | faulted
  | not_restored
  | logged (original : UInt64)
  | returned (result : Bool)
  deriving DecidableEq

/-- The access or the call a thread is about to make; `guarded` says whether `_guard` is there to
be dropped. -/
inductive Pc
  | idle
  | first_load
  | block_signals
  | load_owner
  | exchange (owner : Int32)
  | recover
  | second_load
  | unprotect
  | read_slot
  | load_original
  | store_original (original : UInt64)
  | write_slot
  | faulted
  | protect (ready : Bool)
  | set_installed
  | log_success
  | log_failure (guarded : Bool)
  | drop (result : Bool)
  deriving DecidableEq

/-- `getpid()` is never zero. -/
abbrev Pid := {pid : Int32 // pid ≠ 0}

/-- The address of `dispatcher_bridge`, which is never null. -/
abbrev Bridge := {address : UInt64 // address ≠ 0}

variable (pid : Pid) (bridge : Bridge)

/-- One step of `install`. -/
def install_step (x : Choice) (m : Mem) : Pc → Outcome Mem Pc Shown
  | .idle => ⟨m, .first_load, []⟩
  | .first_load =>
    if m.BRIDGE_INSTALLED then ⟨m, .idle, [.returned true]⟩ else ⟨m, .block_signals, []⟩
  | .block_signals => ⟨m, if x.sigprocmask then .load_owner else .log_failure false, []⟩
  | .load_owner => ⟨m, if m.OWNER = pid then .log_failure false else .exchange m.OWNER, []⟩
  | .exchange owner =>
    if m.OWNER = owner then
      ⟨{ m with OWNER := pid }, if owner ≠ 0 then .recover else .second_load, []⟩
    else ⟨m, .log_failure false, []⟩
  -- `recover_patch_after_fork` is about another word.
  | .recover => ⟨m, .second_load, []⟩
  | .second_load => ⟨m, if m.BRIDGE_INSTALLED then .drop true else .unprotect, []⟩
  | .unprotect =>
    if x.mprotect then ⟨{ m with writable := true }, .read_slot, []⟩
    else ⟨m, .log_failure true, []⟩
  | .read_slot =>
    ⟨m, if m.slot = bridge then .load_original
      else if m.slot ≠ 0 then .store_original m.slot
      else .protect false, []⟩
  | .load_original => ⟨m, .protect (m.ORIGINAL_DISPATCHER ≠ 0), []⟩
  | .store_original original =>
    ⟨{ m with ORIGINAL_DISPATCHER := original }, .write_slot, [.recorded original]⟩
  | .write_slot =>
    if m.writable then ⟨{ m with slot := bridge }, .protect true, [.wrote_bridge]⟩
    else ⟨m, .faulted, [.faulted]⟩
  | .faulted => ⟨m, .faulted, []⟩
  | .protect ready =>
    if x.mprotect then
      ⟨{ m with writable := false }, if ready then .set_installed else .log_failure true, []⟩
    else ⟨m, .log_failure true, [.not_restored]⟩
  | .set_installed => ⟨{ m with BRIDGE_INSTALLED := true }, .log_success, []⟩
  | .log_success =>
    ⟨{ m with BRIDGE_INSTALL_SUCCESS_LOGGED := true }, .drop true,
      if m.BRIDGE_INSTALL_SUCCESS_LOGGED then [] else [.logged m.ORIGINAL_DISPATCHER]⟩
  | .log_failure guarded =>
    ⟨{ m with BRIDGE_INSTALL_FAILURE_LOGGED := true }, if guarded then .drop false else .idle,
      if guarded then [] else [.returned false]⟩
  | .drop result => ⟨{ m with OWNER := 0 }, .idle, [.returned result]⟩

/-- Wine writes the slot. -/
def wine_step (x : Choice) (m : Mem) : Mem :=
  if x.wine = bridge then m else { m with slot := x.wine }

/-- The threads of the process, and Wine. -/
def program (T : Type*) : Program (Option T) Choice Mem Pc Shown := fun t x m pc =>
  match t with
  | some _ => install_step pid bridge x m pc
  | none => ⟨wine_step bridge x m, pc, []⟩

/-- Nothing installed, Wine not yet there; the guard is free, or a forked process inherited it. -/
def start (T : Type*) (owner : {owner : Int32 // owner ≠ pid}) : Config (Option T) Mem Pc where
  mem := ⟨0, 0, false, false, false, owner, false⟩
  loc := fun _ => .idle

/-! ## What holds at each place -/

/-- The thread has the guard. -/
def Pc.holds : Pc → Bool
  | .idle | .first_load | .block_signals | .load_owner | .exchange _ | .log_failure false => false
  | _ => true

/-- What holds of the words; `written` says that the bridge was written to the slot. -/
structure MemOk (written : Prop) (m : Mem) : Prop where
  original : m.ORIGINAL_DISPATCHER ≠ bridge
  saved : m.slot = bridge → m.ORIGINAL_DISPATCHER ≠ 0
  slot : m.slot = bridge → written
  installed : m.BRIDGE_INSTALLED = true → written

/-- What a thread has found out. -/
def PcOk (written : Prop) (m : Mem) : Pc → Prop
  | .exchange owner => owner ≠ pid
  | .read_slot => m.writable = true
  | .load_original => m.writable = true ∧ written
  | .store_original original => m.writable = true ∧ original ≠ 0 ∧ original ≠ bridge
  | .write_slot => m.writable = true ∧ m.ORIGINAL_DISPATCHER ≠ 0
  | .protect ready => ready = true → written
  | .set_installed => written
  | .log_success => m.BRIDGE_INSTALLED = true
  | .drop result => result = true → m.BRIDGE_INSTALLED = true
  | _ => True

/-- The guard is taken by this process. -/
def guarded (m : Mem) : Bool := m.OWNER = pid

variable {pid bridge} {written : Prop} {m m' : Mem} {pc : Pc}

/-- The words are in order as long as these three are what they were. -/
theorem MemOk.keep {written' : Prop} (h : MemOk bridge written m) (hw : written → written')
    (horiginal : m'.ORIGINAL_DISPATCHER = m.ORIGINAL_DISPATCHER) (hslot : m'.slot = m.slot)
    (hinstalled : m'.BRIDGE_INSTALLED = m.BRIDGE_INSTALLED) : MemOk bridge written' m' where
  original := horiginal ▸ h.original
  saved heq := horiginal ▸ h.saved (hslot ▸ heq)
  slot heq := hw (h.slot (hslot ▸ heq))
  installed heq := hw (h.installed (hinstalled ▸ heq))

theorem MemOk.mono {written' : Prop} (h : MemOk bridge written m) (hw : written → written') :
    MemOk bridge written' m := h.keep hw rfl rfl rfl

/-- What a thread knows is not changed by the others: the saved original and the flag stay, and the
page is the business of who has the guard. -/
theorem PcOk.other {written' : Prop} (h : PcOk pid bridge written m pc)
    (hw : written → written') (hsaved : m.ORIGINAL_DISPATCHER ≠ 0 → m'.ORIGINAL_DISPATCHER ≠ 0)
    (hflag : m.BRIDGE_INSTALLED = true → m'.BRIDGE_INSTALLED = true)
    (hpage : pc.holds = true → m'.writable = m.writable) : PcOk pid bridge written' m' pc := by
  cases pc with
  | exchange owner => exact h
  | read_slot => exact (hpage rfl).trans h
  | load_original => exact ⟨(hpage rfl).trans h.1, hw h.2⟩
  | store_original original => exact ⟨(hpage rfl).trans h.1, h.2⟩
  | write_slot => exact ⟨(hpage rfl).trans h.1, hsaved h.2⟩
  | protect ready => exact fun heq => hw (h heq)
  | set_installed => exact hw h
  | log_success => exact hflag h
  | drop result => exact fun heq => hflag (h heq)
  | _ => trivial

/-- What a step of `install` does. -/
structure StepOk (pid : Pid) (bridge : Bridge) (written : Prop) (m : Mem) (pc : Pc)
    (o : Outcome Mem Pc Shown) : Prop where
  lock : LockStep (guarded pid) Pc.holds m pc o
  released : o.mem.OWNER = pid → m.OWNER = pid ∧ o.loc.holds = pc.holds ∨ o.loc.holds = true
  words : MemOk bridge (written ∨ Shown.wrote_bridge ∈ o.events) o.mem
  place : PcOk pid bridge (written ∨ Shown.wrote_bridge ∈ o.events) o.mem o.loc
  saved : m.ORIGINAL_DISPATCHER ≠ 0 → o.mem.ORIGINAL_DISPATCHER ≠ 0
  flag : m.BRIDGE_INSTALLED = true → o.mem.BRIDGE_INSTALLED = true
  returned : Shown.returned true ∈ o.events → o.mem.BRIDGE_INSTALLED = true
  page : pc.holds = false → o.mem.writable = m.writable
  recorded : ∀ v, Shown.recorded v ∈ o.events → v ≠ 0 ∧ v ≠ bridge
  faulted : Shown.faulted ∉ o.events

/-- A step that leaves the words alone that matter. -/
theorem StepOk.quiet {pc' : Pc} {es : List Shown} (hm : MemOk bridge written m)
    (hpc : PcOk pid bridge written m pc') (hholds : pc'.holds = pc.holds)
    (hes : ∀ v, Shown.recorded v ∉ es) (hf : Shown.faulted ∉ es)
    (hret : Shown.returned true ∈ es → m.BRIDGE_INSTALLED = true) :
    StepOk pid bridge written m pc ⟨m, pc', es⟩ where
  lock := .inl ⟨hholds, rfl⟩
  released h := .inl ⟨h, hholds⟩
  words := hm.mono .inl
  place := hpc.other .inl id id fun _ => rfl
  saved := id
  flag := id
  returned := hret
  page _ := rfl
  recorded v h := absurd h (hes v)
  faulted := hf

/-- Nothing is shown of such a step. -/
theorem StepOk.silent {pc' : Pc} (hm : MemOk bridge written m)
    (hpc : PcOk pid bridge written m pc') (hholds : pc'.holds = pc.holds) :
    StepOk pid bridge written m pc ⟨m, pc', []⟩ :=
  .quiet hm hpc hholds (fun _ => List.not_mem_nil) List.not_mem_nil
    fun h => absurd h List.not_mem_nil

/-- A step of a thread with the guard that keeps it. -/
theorem StepOk.guarded {pc' : Pc} {es : List Shown} (hpc : pc.holds = true)
    (hpc' : pc'.holds = true) (howner : m'.OWNER = m.OWNER)
    (hwords : MemOk bridge (written ∨ Shown.wrote_bridge ∈ es) m')
    (hplace : PcOk pid bridge (written ∨ Shown.wrote_bridge ∈ es) m' pc')
    (hsaved : m.ORIGINAL_DISPATCHER ≠ 0 → m'.ORIGINAL_DISPATCHER ≠ 0)
    (hflag : m.BRIDGE_INSTALLED = true → m'.BRIDGE_INSTALLED = true)
    (hrec : ∀ v, Shown.recorded v ∈ es → v ≠ 0 ∧ v ≠ bridge) (hf : Shown.faulted ∉ es)
    (hret : Shown.returned true ∉ es) :
    StepOk pid bridge written m pc ⟨m', pc', es⟩ where
  lock := .inl ⟨hpc'.trans hpc.symm, by simp [BridgeInstall.guarded, howner]⟩
  released _ := .inr hpc'
  words := hwords
  place := hplace
  saved := hsaved
  flag := hflag
  returned h := absurd h hret
  page h := by
    rw [hpc] at h
    cases h
  recorded := hrec
  faulted := hf

/-- The guard is taken from nobody. -/
theorem StepOk.taken {pc' : Pc} (hm : MemOk bridge written m)
    (hfree : BridgeInstall.guarded pid m = false) (hpc' : pc'.holds = true)
    (hplace : ∀ written m, PcOk pid bridge written m pc') :
    StepOk pid bridge written m pc ⟨{ m with OWNER := pid }, pc', []⟩ where
  lock := .inr (.inl ⟨hfree, by simp [BridgeInstall.guarded], hpc'⟩)
  released _ := .inr hpc'
  words := hm.keep .inl rfl rfl rfl
  place := hplace _ _
  saved := id
  flag := id
  returned h := absurd h List.not_mem_nil
  page _ := rfl
  recorded _ h := absurd h List.not_mem_nil
  faulted := List.not_mem_nil

/-- **Every step of `install`.** -/
theorem install_step_ok (x : Choice) (hm : MemOk bridge written m)
    (hpc : PcOk pid bridge written m pc) :
    StepOk pid bridge written m pc (install_step pid bridge x m pc) := by
  cases pc with
  | idle => exact .silent hm trivial rfl
  | first_load =>
    simp only [install_step]
    split
    · next hflag => exact .quiet hm trivial rfl (by simp) (by simp) fun _ => hflag
    · exact .silent hm trivial rfl
  | block_signals =>
    simp only [install_step]
    split
    · exact .silent hm trivial rfl
    · exact .silent hm trivial rfl
  | load_owner =>
    simp only [install_step]
    split
    · exact .silent hm trivial rfl
    · next howner => exact .silent hm (show m.OWNER ≠ pid from howner) rfl
  | exchange owner =>
    have hforeign : owner ≠ pid := hpc
    simp only [install_step]
    split
    · next howner =>
      -- The owner found is not this process, so nobody here has the guard.
      have hfree : guarded pid m = false := by simp [guarded, howner, hforeign]
      split
      · exact .taken hm hfree rfl fun _ _ => trivial
      · exact .taken hm hfree rfl fun _ _ => trivial
    · exact .silent hm trivial rfl
  | recover => exact .silent hm trivial rfl
  | second_load =>
    simp only [install_step]
    split
    · next hflag => exact .silent hm (fun _ => hflag) rfl
    · exact .silent hm trivial rfl
  | unprotect =>
    simp only [install_step]
    split
    · exact .guarded rfl rfl rfl (hm.keep .inl rfl rfl rfl) rfl id id (by simp) (by simp) (by simp)
    · exact .silent hm trivial rfl
  | read_slot =>
    have hpage : m.writable = true := hpc
    simp only [install_step]
    split
    · next hbridge => exact .silent hm ⟨hpage, hm.slot hbridge⟩ rfl
    · next hbridge =>
      split
      · next hslot => exact .silent hm ⟨hpage, hslot, hbridge⟩ rfl
      · exact .silent hm (fun h => by cases h) rfl
  | load_original => exact .silent hm (fun _ => hpc.2) rfl
  | store_original original =>
    obtain ⟨hpage, hne, hbridge⟩ := hpc
    exact .guarded rfl rfl rfl ⟨hbridge, fun _ => hne, fun h => .inl (hm.slot h),
      fun h => .inl (hm.installed h)⟩ ⟨hpage, hne⟩ (fun _ => hne) id
      (fun v hv => by
        rw [List.mem_singleton] at hv
        cases hv
        exact ⟨hne, hbridge⟩) (by simp) (by simp)
  | write_slot =>
    obtain ⟨hpage, hsaved⟩ := hpc
    simp only [install_step, if_pos hpage]
    exact .guarded rfl rfl rfl ⟨hm.original, fun _ => hsaved, fun _ => .inr (by simp),
      fun h => .inl (hm.installed h)⟩ (fun _ => .inr (by simp)) id id (by simp) (by simp) (by simp)
  | faulted => exact .silent hm trivial rfl
  | protect ready =>
    simp only [install_step]
    split
    · have hwords : MemOk bridge (written ∨ Shown.wrote_bridge ∈ ([] : List Shown))
          { m with writable := false } :=
        hm.keep .inl rfl rfl rfl
      split
      · next hready =>
        exact .guarded rfl rfl rfl hwords (.inl (hpc hready)) id id (by simp) (by simp) (by simp)
      · exact .guarded rfl rfl rfl hwords trivial id id (by simp) (by simp) (by simp)
    · exact .quiet hm trivial rfl (by simp) (by simp) (by simp)
  | set_installed =>
    exact .guarded rfl rfl rfl ⟨hm.original, hm.saved, fun h => .inl (hm.slot h),
      fun _ => .inl hpc⟩ rfl id (fun _ => rfl) (by simp) (by simp) (by simp)
  | log_success =>
    refine .guarded rfl rfl rfl (hm.keep .inl rfl rfl rfl) (fun _ => hpc) id id (fun v hv => ?_) ?_
      ?_
    · split at hv <;> simp at hv
    · split <;> simp
    · split <;> simp
  | log_failure has_guard =>
    have hwords : MemOk bridge written { m with BRIDGE_INSTALL_FAILURE_LOGGED := true } :=
      hm.keep id rfl rfl rfl
    cases has_guard with
    | true =>
      exact .guarded rfl rfl rfl (hwords.mono .inl) (fun h => by cases h) id id (by simp) (by simp)
        (by simp)
    | false =>
      exact ⟨.inl ⟨rfl, rfl⟩, fun h => .inl ⟨h, rfl⟩, hwords.mono .inl, trivial, id, id,
        by simp [install_step], fun _ => rfl, by simp [install_step], by simp [install_step]⟩
  | drop result =>
    refine ⟨.inr (.inr ⟨rfl, rfl⟩), fun h => absurd h.symm pid.2, hm.keep .inl rfl rfl rfl, trivial,
      id, id, fun h => hpc ?_, fun h => (by cases h), by simp [install_step],
      by simp [install_step]⟩
    simpa [install_step, eq_comm] using h

/-- What Wine writes keeps them in order. -/
theorem wine_words (x : Choice) (hm : MemOk bridge written m) :
    MemOk bridge written (wine_step bridge x m) := by
  unfold wine_step
  split
  · exact hm
  · next hne =>
    exact ⟨hm.original, fun h => absurd h hne, fun h => absurd h hne, hm.installed⟩

/-! ## Every run -/

variable {T : Type*}

/-- The bridge was written to the slot. -/
def Wrote (tr : List (Option T × Shown)) : Prop := ∃ t, (t, Shown.wrote_bridge) ∈ tr

/-- The invariant. -/
structure Inv (pid : Pid) (bridge : Bridge) (tr : List (Option T × Shown))
    (c : Config (Option T) Mem Pc) : Prop where
  exclusive : Exclusive (guarded pid) Pc.holds c
  held : c.mem.OWNER = pid → ∃ t, (c.loc t).holds = true
  words : MemOk bridge (Wrote tr) c.mem
  places : ∀ t, PcOk pid bridge (Wrote tr) c.mem (c.loc t)
  returned : ∀ t, (t, Shown.returned true) ∈ tr → c.mem.BRIDGE_INSTALLED = true
  recorded : ∀ t v, (t, Shown.recorded v) ∈ tr → v ≠ 0 ∧ v ≠ bridge
  faulted : ∀ t, (t, Shown.faulted) ∉ tr

/-- At the start nothing is installed, and the guard is not this process's. -/
theorem inv_start (owner : {owner : Int32 // owner ≠ pid}) :
    Inv pid bridge [] (start pid T owner) where
  exclusive _ h := by cases h
  held h := absurd h owner.2
  words := ⟨fun h => bridge.2 h.symm, fun h => absurd h.symm bridge.2,
    fun h => absurd h.symm bridge.2, fun h => by cases h⟩
  places _ := trivial
  returned _ h := by cases h
  recorded _ _ h := by cases h
  faulted _ h := by cases h

variable {tr : List (Option T × Shown)} {c : Config (Option T) Mem Pc} {t : Option T}

/-- That the bridge was written is not forgotten. -/
theorem wrote_step {es : List Shown} (h : Wrote tr ∨ Shown.wrote_bridge ∈ es) :
    Wrote (tr ++ es.map (Prod.mk t)) := by
  obtain ⟨u, hu⟩ | hes := h
  · exact ⟨u, List.mem_append_left _ hu⟩
  · exact ⟨t, List.mem_append_right _ (List.mem_map.mpr ⟨_, hes, rfl⟩)⟩

theorem mem_step {u : Option T} {e : Shown} {es : List Shown}
    (h : (u, e) ∈ tr ++ es.map (Prod.mk t)) : (u, e) ∈ tr ∨ e ∈ es := by
  obtain h | h := List.mem_append.mp h
  · exact .inl h
  · obtain ⟨e', he', heq⟩ := List.mem_map.mp h
    cases heq
    exact .inr he'

variable [DecidableEq T]

/-- A step of one thread of the process. -/
theorem Inv.install (hi : Inv pid bridge tr c) {o : Outcome Mem Pc Shown}
    (ho : StepOk pid bridge (Wrote tr) c.mem (c.loc t) o) :
    Inv pid bridge (tr ++ o.events.map (Prod.mk t)) (c.after t o) where
  exclusive := hi.exclusive.after ho.lock
  held howner := by
    obtain ⟨hold, hsame⟩ | hholds := ho.released howner
    · obtain ⟨u, hu⟩ := hi.held hold
      refine ⟨u, ?_⟩
      by_cases hut : u = t
      · rw [hut, Config.after_loc_self, hsame, ← hut]
        exact hu
      · rw [Config.after_loc_of_ne _ _ hut]
        exact hu
    · exact ⟨t, by rw [Config.after_loc_self]; exact hholds⟩
  words := ho.words.mono wrote_step
  places := by
    refine Config.forall_after (ho.place.other wrote_step id id fun _ => rfl) fun u hut => ?_
    refine (hi.places u).other (fun h => wrote_step (.inl h)) ho.saved ho.flag fun hholds => ?_
    -- `u` has the guard, so `t` has not and leaves the page alone.
    refine ho.page ?_
    by_contra hheld
    exact hut ((hi.exclusive u hholds).2 t (Bool.eq_true_of_not_eq_false hheld)).symm
  returned u h := by
    obtain h | h := mem_step h
    · exact ho.flag (hi.returned u h)
    · exact ho.returned h
  recorded u v h := by
    obtain h | h := mem_step h
    · exact hi.recorded u v h
    · exact ho.recorded v h
  faulted u h := by
    obtain h | h := mem_step h
    · exact hi.faulted u h
    · exact ho.faulted h

/-- Wine's writes. -/
theorem Inv.wine (hi : Inv pid bridge tr c) (x : Choice) :
    Inv pid bridge (tr ++ ([] : List Shown).map (Prod.mk t))
      (c.after t ⟨wine_step bridge x c.mem, c.loc t, ([] : List Shown)⟩) := by
  have hrest : (wine_step bridge x c.mem).OWNER = c.mem.OWNER ∧
      (wine_step bridge x c.mem).writable = c.mem.writable ∧
      (wine_step bridge x c.mem).ORIGINAL_DISPATCHER = c.mem.ORIGINAL_DISPATCHER ∧
      (wine_step bridge x c.mem).BRIDGE_INSTALLED = c.mem.BRIDGE_INSTALLED := by
    unfold wine_step
    split <;> exact ⟨rfl, rfl, rfl, rfl⟩
  obtain ⟨howner, hpage, hsaved, hflag⟩ := hrest
  have hloc : ∀ u, (c.after t ⟨wine_step bridge x c.mem, c.loc t, ([] : List Shown)⟩).loc u
      = c.loc u := by
    intro u
    by_cases hut : u = t
    · rw [hut, Config.after_loc_self]
    · rw [Config.after_loc_of_ne _ _ hut]
  rw [List.map_nil, List.append_nil]
  refine ⟨hi.exclusive.after (.inl ⟨rfl, by simp [guarded, howner]⟩), fun h => ?_,
    wine_words x hi.words, fun u => ?_, fun u h => hflag.trans (hi.returned u h), hi.recorded,
    hi.faulted⟩
  · rw [Config.after_mem, howner] at h
    obtain ⟨u, hu⟩ := hi.held h
    exact ⟨u, by rw [hloc]; exact hu⟩
  · rw [hloc]
    exact (hi.places u).other id (fun h => by rw [Config.after_mem, hsaved]; exact h)
      (fun h => hflag.trans h) fun _ => hpage

/-- The invariant goes on from any state that has it. -/
theorem Inv.run (hi : Inv pid bridge tr c) (s : List (Option T × Choice)) :
    Inv pid bridge (tr ++ trace (program pid bridge T) c s)
      (Threads.run (program pid bridge T) c s) := by
  refine Threads.run_induct_after _ (I := fun tr' c' => Inv pid bridge (tr ++ tr') c')
    (by rw [List.append_nil]; exact hi) (fun tr' d t x hi => ?_) s
  rw [← List.append_assoc]
  cases t with
  | some t => exact hi.install (install_step_ok x hi.words (hi.places (some t)))
  | none => exact hi.wine x

/-! ## Trying again -/

/-- The flag is set, or the slot has something to save or the bridge with something saved. -/
def Promising (bridge : Bridge) (m : Mem) : Prop :=
  m.BRIDGE_INSTALLED = true ∨ m.slot ≠ 0 ∧ (m.slot = bridge → m.ORIGINAL_DISPATCHER ≠ 0)

/-- From here a thread that is not disturbed comes to return true. -/
def Ready (pid : Pid) (bridge : Bridge) (m : Mem) : Pc → Prop
  | .idle | .first_load | .block_signals => m.OWNER ≠ pid ∧ Promising bridge m
  | .load_owner => m.OWNER ≠ pid ∧ Promising bridge m
  | .exchange owner => m.OWNER = owner ∧ Promising bridge m
  | .recover | .second_load => Promising bridge m
  | .unprotect => m.slot ≠ 0 ∧ (m.slot = bridge → m.ORIGINAL_DISPATCHER ≠ 0)
  | .read_slot => m.writable = true ∧ m.slot ≠ 0 ∧
      (m.slot = bridge → m.ORIGINAL_DISPATCHER ≠ 0)
  | .load_original => m.ORIGINAL_DISPATCHER ≠ 0
  | .store_original _ | .write_slot => m.writable = true
  | .protect ready => ready = true
  | .set_installed | .log_success => True
  | .drop result => result = true
  | .faulted | .log_failure _ => False

/-- How many steps are left, at most. -/
def Pc.left : Pc → ℕ
  | .idle => 15
  | .first_load => 14
  | .block_signals => 13
  | .load_owner => 12
  | .exchange _ => 11
  | .recover => 10
  | .second_load => 9
  | .unprotect => 8
  | .read_slot => 7
  | .load_original | .store_original _ => 6
  | .write_slot => 5
  | .protect _ => 4
  | .set_installed => 3
  | .log_success => 2
  | .drop _ => 1
  | .faulted | .log_failure _ => 0

/-- The choice of a step in which every call into the kernel succeeds. -/
def all_succeed : Choice := ⟨true, true, 0⟩

/-- **A step towards the end.** -/
theorem ready_step (h : Ready pid bridge m pc) :
    Shown.returned true ∈ (install_step pid bridge all_succeed m pc).events ∨
      Ready pid bridge (install_step pid bridge all_succeed m pc).mem
          (install_step pid bridge all_succeed m pc).loc ∧
        (install_step pid bridge all_succeed m pc).loc.left < pc.left := by
  cases pc with
  | idle => exact .inr ⟨h, by simp [install_step, Pc.left]⟩
  | first_load =>
    simp only [install_step]
    split
    · exact .inl (by simp)
    · exact .inr ⟨h, by simp [Pc.left]⟩
  | block_signals => exact .inr ⟨h, by simp [install_step, all_succeed, Pc.left]⟩
  | load_owner =>
    simp only [install_step, if_neg h.1]
    exact .inr ⟨⟨rfl, h.2⟩, by simp [Pc.left]⟩
  | exchange owner =>
    simp only [install_step, if_pos h.1]
    split
    · exact .inr ⟨h.2, by simp [Pc.left]⟩
    · exact .inr ⟨h.2, by simp [Pc.left]⟩
  | recover => exact .inr ⟨h, by simp [install_step, Pc.left]⟩
  | second_load =>
    simp only [install_step]
    split
    · exact .inr ⟨rfl, by simp [Pc.left]⟩
    · next hflag => exact .inr ⟨h.resolve_left hflag, by simp [Pc.left]⟩
  | unprotect => exact .inr ⟨⟨rfl, h⟩, by simp [install_step, all_succeed, Pc.left]⟩
  | read_slot =>
    obtain ⟨hpage, hslot, hsaved⟩ := h
    simp only [install_step]
    split
    · next hbridge => exact .inr ⟨hsaved hbridge, by simp [Pc.left]⟩
    · exact .inr ⟨hpage, by simp [Pc.left]⟩
  | load_original => exact .inr ⟨decide_eq_true h, by simp [install_step, Pc.left]⟩
  | store_original original => exact .inr ⟨h, by simp [install_step, Pc.left]⟩
  | write_slot =>
    simp only [install_step, if_pos (show m.writable = true from h)]
    exact .inr ⟨rfl, by simp [Pc.left]⟩
  | protect ready =>
    have hready : ready = true := h
    subst hready
    exact .inr ⟨trivial, by simp [install_step, all_succeed, Pc.left]⟩
  | set_installed => exact .inr ⟨trivial, by simp [install_step, Pc.left]⟩
  | log_success => exact .inr ⟨rfl, by simp [install_step, Pc.left]⟩
  | drop result =>
    have hresult : result = true := h
    exact .inl (by simp [install_step, hresult])
  | faulted | log_failure _ => exact h.elim

/-- An undisturbed call returns true from everywhere on its way. -/
theorem will_return {t : T} (h : Ready pid bridge c.mem (c.loc (some t))) :
    WillShow (program pid bridge T) c (some t) all_succeed (.returned true) := by
  induction hn : (c.loc (some t)).left using Nat.strongRecOn generalizing c with
  | ind n ih =>
    obtain hnow | ⟨hready, hlt⟩ := ready_step h
    · exact .now _ rfl hnow
    · refine .next _ rfl rfl (ih _ (hn ▸ hlt) ?_ ?_)
      · rw [Config.after_loc_self]
        exact hready
      · rw [Config.after_loc_self]
        rfl

/-- The thread, if it is not disturbed and every call into the kernel succeeds, comes to return
true, with the flag set. -/
def Installs (pid : Pid) (bridge : Bridge) (c : Config (Option T) Mem Pc) (t : T) : Prop :=
  ∃ n, (some t, Shown.returned true)
      ∈ trace (program pid bridge T) c (Threads.steps (some t) n all_succeed) ∧
    (run (program pid bridge T) c (Threads.steps (some t) n all_succeed)).mem.BRIDGE_INSTALLED
      = true

/-- An undisturbed call leaves the bridge installed. -/
theorem Inv.installs (hi : Inv pid bridge tr c) {t : T}
    (h : Ready pid bridge c.mem (c.loc (some t))) : Installs pid bridge c t := by
  obtain ⟨n, hn⟩ := will_return h
  exact ⟨n, hn, (hi.run _).returned (some t) (List.mem_append_right _ hn)⟩

/-- **What holds after any schedule.** -/
structure Safe (pid : Pid) (bridge : Bridge) (tr : List (Option T × Shown))
    (c : Config (Option T) Mem Pc) : Prop where
  /-- The bridge never jumps to itself, or to address zero. -/
  target : c.mem.slot = bridge → c.mem.ORIGINAL_DISPATCHER ≠ 0 ∧ c.mem.ORIGINAL_DISPATCHER ≠ bridge
  installed : c.mem.BRIDGE_INSTALLED = true → Wrote tr
  /-- A call that has returned true has left the bridge installed. -/
  returned : ∀ t, (t, Shown.returned true) ∈ tr → c.mem.BRIDGE_INSTALLED = true ∧ Wrote tr
  recorded : ∀ t v, (t, Shown.recorded v) ∈ tr → v ≠ 0 ∧ v ≠ bridge
  faulted : ∀ t, (t, Shown.faulted) ∉ tr
  /-- While nobody has the guard, a call can be made that installs the bridge, if the slot is
  populated... -/
  again : ∀ t, c.loc (some t) = .idle → (∀ u, (c.loc u).holds = false) →
    c.mem.BRIDGE_INSTALLED = true ∨ c.mem.slot ≠ 0 → Installs pid bridge c t
  /-- ...and when Wine has populated it. -/
  once_populated : ∀ t, c.loc (some t) = .idle → (∀ u, (c.loc u).holds = false) →
    ∀ x : Choice, x.wine ≠ 0 → x.wine ≠ bridge →
      Installs pid bridge (Threads.step (program pid bridge T) c (none, x)) t

omit [DecidableEq T] in
/-- Nobody has the guard. -/
theorem Inv.free (hi : Inv pid bridge tr c) (hfree : ∀ u, (c.loc u).holds = false) :
    c.mem.OWNER ≠ pid := by
  intro howner
  obtain ⟨u, hu⟩ := hi.held howner
  rw [hfree u] at hu
  cases hu

/-- The invariant is more than is promised. -/
theorem Inv.safe (hi : Inv pid bridge tr c) : Safe pid bridge tr c where
  target h := ⟨hi.words.saved h, hi.words.original⟩
  installed := hi.words.installed
  returned t h := ⟨hi.returned t h, hi.words.installed (hi.returned t h)⟩
  recorded := hi.recorded
  faulted := hi.faulted
  again t hidle hfree h := by
    refine hi.installs ?_
    rw [hidle]
    exact ⟨hi.free hfree, h.imp_right fun hslot => ⟨hslot, hi.words.saved⟩⟩
  once_populated t hidle hfree x hne hbridge := by
    have hslot : wine_step bridge x c.mem = { c.mem with slot := x.wine } := if_neg hbridge
    refine (hi.run [(none, x)]).installs ?_
    show Ready pid bridge (wine_step bridge x c.mem)
      ((Threads.step (program pid bridge T) c (none, x)).loc (some t))
    rw [Threads.step_loc_of_ne _ _ _ (by simp), hidle, hslot]
    exact ⟨hi.free hfree, .inr ⟨hne, fun h => absurd h hbridge⟩⟩

/-- **`install` is safe, and can be tried again**: after any steps of any threads, whatever calls
into the kernel failed and whatever Wine wrote. -/
theorem install_is_safe (pid : Pid) (bridge : Bridge) (owner : {owner : Int32 // owner ≠ pid})
    (s : List (Option T × Choice)) :
    Safe pid bridge (trace (program pid bridge T) (start pid T owner) s)
      (run (program pid bridge T) (start pid T owner) s) :=
  ((inv_start owner).run s).safe

end Linuwux.BridgeInstall
