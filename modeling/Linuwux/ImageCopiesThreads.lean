/-
`ImageCopiesThreads.lean` -- `note_header` of `runtime/src/syscall/pe_stub_layout.rs` among
several threads.

A call looks through the slots for its file and, if it did not find it, through the slots for a
free one. Both are loops of single accesses: `slot` compares the inode of a slot and then its
device, and a slot is taken by a compare-exchange of its inode, with the device stored after
that. So a call may look at a slot that has an inode but no device yet, and a slot may be taken
for a file that the search has already looked for there.

[`two_first_calls`] is a run in which two calls for one file both return false. Where no call
does either of the two ([`Orderly`]), one call for each file does ([`one_first_call`]). The
invariant follows a file from the call that takes its slot to the return of this call ([`Phase`]).
-/
import Linuwux.ImageCopies
import Linuwux.Threads

set_option autoImplicit false

namespace Linuwux.Images

open ProcMem (saturating_add)
open Threads (Program Config Outcome AllSteps run trace)

variable {T : Type*}

/-! ## Program points -/

theorem slots_pos : 0 < IMAGE_TRACK_SLOTS := by decide

/-- The slot the loops start from. -/
def first : Slot := ⟨0, slots_pos⟩

inductive Event where
  | called (header : Header)
  /-- The compare-exchange on the inode of the slot was won. -/
  | took (header : Header) (index : Slot)
  | returned (header : Header) (answer : Bool)
  deriving DecidableEq

/-- The access that `note_header` is about to make. -/
inductive Pc where
  | idle
  | inode (header : Header) (index : Slot)
  | device (header : Header) (index : Slot)
  | move_start (header : Header) (index : Slot)
  | move_end (header : Header) (index : Slot)
  | claim (header : Header) (index : Slot)
  | set_device (header : Header) (index : Slot)
  | clear_start (header : Header) (index : Slot)
  | clear_end (header : Header) (index : Slot)

/-- `slot` has not found the file here. -/
def Pc.search_on (header : Header) (index : Slot) : Pc :=
  if h : index.val + 1 < IMAGE_TRACK_SLOTS then .inode header ⟨index.val + 1, h⟩
  else .claim header first

/-- The program; an idle thread calls `note_header` with the header it is given. -/
def program (T : Type*) : Program T Header ImageCopies Pc Event := fun _ header m pc =>
  match pc with
  | .idle => ⟨m, .inode header first, [.called header]⟩
  | .inode header index =>
    if m.inode index = header.inode then ⟨m, .device header index, []⟩
    else ⟨m, .search_on header index, []⟩
  | .device header index =>
    if m.device index = header.device then ⟨m, .move_start header index, []⟩
    else ⟨m, .search_on header index, []⟩
  | .move_start header index =>
    ⟨{ m with copy_start := Function.update m.copy_start index header.base },
      .move_end header index, []⟩
  | .move_end header index =>
    let copy_end := saturating_add header.base header.image_size.toNat
    ⟨{ m with copy_end := Function.update m.copy_end index copy_end },
      .idle, [.returned header true]⟩
  | .claim header index =>
    if m.inode index = 0 then
      ⟨{ m with inode := Function.update m.inode index header.inode },
        .set_device header index, [.took header index]⟩
    else if h : index.val + 1 < IMAGE_TRACK_SLOTS then ⟨m, .claim header ⟨index.val + 1, h⟩, []⟩
    else ⟨m, .idle, [.returned header false]⟩
  | .set_device header index =>
    ⟨{ m with device := Function.update m.device index header.device },
      .clear_start header index, []⟩
  | .clear_start header index =>
    ⟨{ m with copy_start := Function.update m.copy_start index 0 }, .clear_end header index, []⟩
  | .clear_end header index =>
    ⟨{ m with copy_end := Function.update m.copy_end index 0 }, .idle, [.returned header false]⟩

def start (T : Type*) : Config T ImageCopies Pc := ⟨.new, fun _ => .idle⟩

/-! ## What a trace shows of a file -/

/-- The files that calls were made for. -/
def called_files (tr : List (T × Event)) : Finset File :=
  (tr.filterMap fun e =>
    match e.2 with
    | .called header => some header.toFile
    | _ => none).toFinset

/-- How many calls for the file have returned false. -/
def first_calls (file : File) (tr : List (T × Event)) : ℕ :=
  tr.countP fun e =>
    match e.2 with
    | .returned header false => header.toFile = file
    | _ => false

/-- The slot was taken for the file. -/
def Taken (tr : List (T × Event)) (file : File) (index : Slot) : Prop :=
  ∃ t header, (t, Event.took header index) ∈ tr ∧ header.toFile = file

/-- The file that the thread is in a call for. -/
def Pc.file : Pc → Option File
  | .idle => none
  | .inode header _ | .device header _ | .move_start header _ | .move_end header _
  | .claim header _ | .set_device header _ | .clear_start header _ | .clear_end header _ =>
    some header.toFile

/-! ## The condition -/

/-- The call is for the file and has not found it at the slot. -/
def Pc.Past (file : File) (index : Slot) : Pc → Prop
  | .inode header j | .device header j => header.toFile = file ∧ index < j
  | .claim header _ => header.toFile = file
  | _ => False

/-- The step does not go wrong: a device is only compared where a store that is still to come
does not change the result, and a slot is only taken for a file if no other call for the file
is past the slot. -/
def Orderly (_ : List (T × Event)) (c : Config T ImageCopies Pc) (x : T × Header) : Prop :=
  match c.loc x.1 with
  | .device header index => ∀ t other, c.loc t = .set_device other index →
      (c.mem.device index = header.device ↔ other.device = header.device)
  | .claim header index => c.mem.inode index = 0 →
      ∀ t, t ≠ x.1 → ¬ (c.loc t).Past header.toFile index
  | _ => True

/-- Two calls for one file, the second past the slot that the first takes: both return false. -/
theorem two_first_calls : ∃ (s : List (Bool × Header)) (file : File),
    (∀ x ∈ s, x.2.inode ≠ 0)
      ∧ (called_files (trace (program Bool) (start Bool) s)).card < IMAGE_TRACK_SLOTS
      ∧ first_calls file (trace (program Bool) (start Bool) s) = 2 := by
  refine ⟨Threads.steps false 65 ⟨⟨7, 100⟩, 0x10000, 0xb9000⟩
    ++ Threads.steps true 65 ⟨⟨7, 100⟩, 0x80000, 0xb9000⟩
    ++ Threads.steps false 4 ⟨⟨7, 100⟩, 0x10000, 0xb9000⟩
    ++ Threads.steps true 5 ⟨⟨7, 100⟩, 0x80000, 0xb9000⟩, ⟨7, 100⟩, ?_, ?_, ?_⟩
  · decide +kernel
  · decide +kernel
  · decide +kernel

/-! ## The invariant -/

/-- The thread has taken a slot for the file and not returned. -/
def Pc.Taking (file : File) : Pc → Prop
  | .set_device header _ | .clear_start header _ | .clear_end header _ => header.toFile = file
  | _ => False

/-- A slot was taken for the file, or the call that took it returned. -/
def Event.of_file (file : File) : Event → Bool
  | .took header _ => header.toFile = file
  | .returned header false => header.toFile = file
  | _ => false

def history (file : File) (tr : List (T × Event)) : List (T × Event) :=
  tr.filter fun e => e.2.of_file file

/-- No call has taken a slot for the file, or one has and is not back, or one has and is. -/
inductive Phase (file : File) (c : Config T ImageCopies Pc) : List (T × Event) → Prop where
  | untaken (h : ∀ t, ¬ (c.loc t).Taking file) : Phase file c []
  | taking (t : T) (header : Header) (index : Slot) (hfile : header.toFile = file)
      (h : ∀ u, (c.loc u).Taking file ↔ u = t) : Phase file c [(t, .took header index)]
  | taken (t : T) (header header' : Header) (index : Slot) (hfile : header.toFile = file)
      (hfile' : header'.toFile = file) (h : ∀ t, ¬ (c.loc t).Taking file) :
      Phase file c [(t, .took header index), (t, .returned header' false)]

/-- What a thread may rely on at its program point. -/
def Pc.Assumes (tr : List (T × Event)) (m : ImageCopies) (t : T) : Pc → Prop
  | .idle => True
  | .inode header j => header.inode ≠ 0 ∧ ∀ k, Taken tr header.toFile k → j ≤ k
  | .device header j =>
    header.inode ≠ 0 ∧ m.inode j = header.inode ∧ ∀ k, Taken tr header.toFile k → j ≤ k
  | .move_start header _ | .move_end header _ => ∃ k, Taken tr header.toFile k
  | .claim header j =>
    header.inode ≠ 0 ∧ (∀ k, ¬ Taken tr header.toFile k) ∧ ∀ k < j, m.inode k ≠ 0
  | .set_device header k | .clear_start header k | .clear_end header k =>
    (t, .took header k) ∈ tr

structure Inv (tr : List (T × Event)) (c : Config T ImageCopies Pc) : Prop where
  slot : ∀ t header k, (t, .took header k) ∈ tr → c.mem.inode k = header.inode ∧ header.inode ≠ 0
    ∧ (c.mem.device k = header.device ∨ c.loc t = .set_device header k)
  once : ∀ k file file', Taken tr file k → Taken tr file' k → file = file'
  taken : ∀ k, c.mem.inode k ≠ 0 → ∃ file ∈ called_files tr, Taken tr file k
  called : ∀ t file, (c.loc t).file = some file → file ∈ called_files tr
  assumes : ∀ t, (c.loc t).Assumes tr c.mem t
  phase : ∀ file, Phase file c (history file tr)
  found : ∀ t header answer, (t, .returned header answer) ∈ tr → ∃ k, Taken tr header.toFile k

/-! ## Histories -/

theorem history_append (file : File) (tr tr' : List (T × Event)) :
    history file (tr ++ tr') = history file tr ++ history file tr' := List.filter_append ..

/-- Whether a slot was taken for a file is part of the file's history. -/
theorem taken_iff_history {tr : List (T × Event)} {file : File} {k : Slot} :
    Taken tr file k ↔ ∃ t header, (t, .took header k) ∈ history file tr := by
  unfold Taken history
  simp only [List.mem_filter, Event.of_file, decide_eq_true_eq]

/-- It is not forgotten. -/
theorem Taken.append {tr : List (T × Event)} {file : File} {k : Slot} (h : Taken tr file k)
    (tr' : List (T × Event)) : Taken (tr ++ tr') file k := by
  obtain ⟨t, header, hmem, hfile⟩ := h
  exact ⟨t, header, List.mem_append_left _ hmem, hfile⟩

theorem called_files_append (tr tr' : List (T × Event)) :
    called_files (tr ++ tr') = called_files tr ∪ called_files tr' := by
  unfold called_files
  rw [List.filterMap_append, List.toFinset_append]

theorem mem_called_files {tr : List (T × Event)} {t : T} {header : Header}
    (h : (t, .called header) ∈ tr) : header.toFile ∈ called_files tr :=
  List.mem_toFinset.mpr (List.mem_filterMap.mpr ⟨_, h, rfl⟩)

section Phase

variable {file : File} {c : Config T ImageCopies Pc} {l : List (T × Event)}

/-- One slot is taken for a file at most. -/
theorem Phase.unique (h : Phase file c l) {t u : T} {header header' : Header} {i j : Slot}
    (hi : (t, .took header i) ∈ l) (hj : (u, .took header' j) ∈ l) :
    t = u ∧ header = header' ∧ i = j := by
  cases h with
  | untaken => cases hi
  | taking =>
    cases List.mem_singleton.mp hi
    cases List.mem_singleton.mp hj
    exact ⟨rfl, rfl, rfl⟩
  | taken =>
    simp only [List.mem_cons, Prod.mk.injEq, Event.took.injEq, reduceCtorEq, and_false,
      List.not_mem_nil, or_false] at hi hj
    obtain ⟨rfl, rfl, rfl⟩ := hi
    obtain ⟨rfl, rfl, rfl⟩ := hj
    exact ⟨rfl, rfl, rfl⟩

theorem Phase.eq_nil (h : Phase file c l) (hnot : ∀ t header k, (t, .took header k) ∉ l) :
    l = [] := by
  cases h with
  | untaken => rfl
  | taking t header index => exact absurd List.mem_cons_self (hnot t header index)
  | taken t header header' index => exact absurd List.mem_cons_self (hnot t header index)

/-- The phase of a file does not change when no thread begins or ends taking a slot for it. -/
theorem Phase.congr {c' : Config T ImageCopies Pc} (h : Phase file c l)
    (hc : ∀ t, (c'.loc t).Taking file ↔ (c.loc t).Taking file) : Phase file c' l := by
  cases h with
  | untaken h => exact .untaken fun t => (hc t).not.mpr (h t)
  | taking t header index hfile h => exact .taking t header index hfile fun u => (hc u).trans (h u)
  | taken t header header' index hfile hfile' h =>
    exact .taken t header header' index hfile hfile' fun t => (hc t).not.mpr (h t)

end Phase

/-! ## One step -/

section Step

variable [DecidableEq T] {tr : List (T × Event)} {c : Config T ImageCopies Pc} {t : T}

omit [DecidableEq T] in
/-- Where a step takes no slot, a slot was taken before it. -/
theorem took_of_append {ev : List Event} (hev : ∀ header k, .took header k ∉ ev) {u : T}
    {header : Header} {k : Slot} (h : (u, .took header k) ∈ tr ++ ev.map (Prod.mk t)) :
    (u, .took header k) ∈ tr := by
  rcases List.mem_append.mp h with h | h
  · exact h
  · obtain ⟨e, he, heq⟩ := List.mem_map.mp h
    cases heq
    exact absurd he (hev header k)

omit [DecidableEq T] in
theorem taken_of_append {ev : List Event} (hev : ∀ header k, .took header k ∉ ev) {file : File}
    {k : Slot} (h : Taken (tr ++ ev.map (Prod.mk t)) file k) : Taken tr file k := by
  obtain ⟨u, header, hmem, hfile⟩ := h
  exact ⟨u, header, took_of_append hev hmem, hfile⟩

/-- The phases after a step that shows nothing of a file. -/
theorem Inv.phase_quiet (h : Inv tr c) {o : Outcome ImageCopies Pc Event} {file : File}
    (hev : ∀ e ∈ o.events, e.of_file file = false)
    (htaking : o.loc.Taking file ↔ (c.loc t).Taking file) :
    Phase file (c.after t o) (history file (tr ++ o.events.map (Prod.mk t))) := by
  have hnil : history file (o.events.map (Prod.mk t)) = [] := by
    unfold history
    rw [List.filter_eq_nil_iff]
    intro e he hof
    obtain ⟨e', he', rfl⟩ := List.mem_map.mp he
    rw [hev e' he'] at hof
    exact absurd hof (by decide)
  rw [history_append, hnil, List.append_nil]
  refine (h.phase file).congr fun u => ?_
  by_cases heq : u = t
  · rw [heq, c.after_loc_self]
    exact htaking
  · rw [c.after_loc_of_ne _ heq]

omit [DecidableEq T] in
/-- What a thread relies on survives a step that takes no slot. -/
theorem Pc.Assumes.mono {pc : Pc} {tr' : List (T × Event)} {m m' : ImageCopies}
    (h : pc.Assumes tr m t) (hsub : ∀ e ∈ tr, e ∈ tr')
    (htaken : ∀ file k, Taken tr' file k → Taken tr file k) (hinode : m'.inode = m.inode) :
    pc.Assumes tr' m' t := by
  have hold : ∀ {file k}, Taken tr file k → Taken tr' file k := by
    rintro file k ⟨u, header, hmem, hfile⟩
    exact ⟨u, header, hsub _ hmem, hfile⟩
  cases pc with
  | idle => trivial
  | inode header j => exact ⟨h.1, fun k hk => h.2 k (htaken _ k hk)⟩
  | device header j => exact ⟨h.1, by rw [hinode]; exact h.2.1, fun k hk => h.2.2 k (htaken _ k hk)⟩
  | claim header j =>
    exact ⟨h.1, fun k hk => h.2.1 k (htaken _ k hk), fun k hk => by rw [hinode]; exact h.2.2 k hk⟩
  | move_start header j | move_end header j =>
    obtain ⟨k, hk⟩ := h
    exact ⟨k, hold hk⟩
  | set_device header j | clear_start header j | clear_end header j => exact hsub _ h

omit [DecidableEq T] in
/-- What a thread relies on survives that another takes a slot it is not past. -/
theorem Pc.Assumes.took {pc : Pc} {u : T} {header : Header} {index : Slot}
    (h : pc.Assumes tr c.mem u)
    (htaken : ∀ {file k}, Taken (tr ++ [(t, .took header index)]) file k →
      Taken tr file k ∨ file = header.toFile ∧ k = index)
    (hne : header.inode ≠ 0) (hfree : c.mem.inode index = 0)
    (hpast : ¬ pc.Past header.toFile index) :
    pc.Assumes (tr ++ [(t, .took header index)])
      { c.mem with inode := Function.update c.mem.inode index header.inode } u := by
  -- A slot taken for a file that a thread is looking for is not behind it.
  have hahead : ∀ {other : Header} {j : Slot}, ¬ (other.toFile = header.toFile ∧ index < j) →
      (∀ k, Taken tr other.toFile k → j ≤ k) →
      ∀ k, Taken (tr ++ [(t, .took header index)]) other.toFile k → j ≤ k := by
    intro other j hnot hold k hk
    rcases htaken hk with hk | ⟨hfile, rfl⟩
    · exact hold k hk
    · exact not_lt.mp fun hlt => hnot ⟨hfile, hlt⟩
  cases pc with
  | idle => trivial
  | inode other j => exact ⟨h.1, hahead hpast h.2⟩
  | device other j =>
    refine ⟨h.1, ?_, hahead hpast h.2.2⟩
    have hj : j ≠ index := by
      rintro rfl
      exact h.1 (h.2.1.symm.trans hfree)
    exact (Function.update_of_ne hj ..).trans h.2.1
  | claim other j =>
    refine ⟨h.1, fun k hk => ?_, fun k hk => ?_⟩
    · rcases htaken hk with hk | ⟨hfile, -⟩
      · exact h.2.1 k hk
      · exact hpast hfile
    · by_cases heq : k = index
      · subst heq
        exact fun hzero => hne ((Function.update_self ..).symm.trans hzero)
      · exact fun hzero => h.2.2 k hk ((Function.update_of_ne heq ..).symm.trans hzero)
  | move_start other j | move_end other j =>
    obtain ⟨k, hk⟩ := h
    exact ⟨k, hk.append _⟩
  | set_device other j | clear_start other j | clear_end other j => exact List.mem_append_left _ h

/-- A step that takes no slot. -/
theorem Inv.keep (h : Inv tr c) {o : Outcome ImageCopies Pc Event}
    (hev : ∀ header k, .took header k ∉ o.events)
    (hfound : ∀ header answer, .returned header answer ∈ o.events →
      ∃ k, Taken tr header.toFile k)
    (hinode : o.mem.inode = c.mem.inode)
    (hdevice : ∀ u header k, (u, .took header k) ∈ tr → o.mem.device k = header.device
      ∨ (c.after t o).loc u = .set_device header k)
    (hphase : ∀ file, Phase file (c.after t o) (history file (tr ++ o.events.map (Prod.mk t))))
    (hcalled : ∀ file, o.loc.file = some file →
      file ∈ called_files (tr ++ o.events.map (Prod.mk t)))
    (hassumes : o.loc.Assumes (tr ++ o.events.map (Prod.mk t)) o.mem t) :
    Inv (tr ++ o.events.map (Prod.mk t)) (c.after t o) where
  slot u header k hmem := by
    have hold := took_of_append hev hmem
    obtain ⟨hk, hne, -⟩ := h.slot u header k hold
    exact ⟨(congrFun hinode k).trans hk, hne, hdevice u header k hold⟩
  once k file file' hfile hfile' :=
    h.once k file file' (taken_of_append hev hfile) (taken_of_append hev hfile')
  taken k hk := by
    rw [c.after_mem, hinode] at hk
    obtain ⟨file, hcall, htaken⟩ := h.taken k hk
    refine ⟨file, ?_, htaken.append _⟩
    rw [called_files_append]
    exact Finset.mem_union_left _ hcall
  called u file hu := by
    by_cases heq : u = t
    · subst heq
      rw [c.after_loc_self] at hu
      exact hcalled file hu
    · rw [c.after_loc_of_ne _ heq] at hu
      rw [called_files_append]
      exact Finset.mem_union_left _ (h.called u file hu)
  assumes := Config.forall_after hassumes fun u _ =>
    (h.assumes u).mono (fun e he => List.mem_append_left _ he)
      (fun file k hk => taken_of_append hev hk) hinode
  phase := hphase
  found u header answer hmem := by
    rcases List.mem_append.mp hmem with hmem | hmem
    · obtain ⟨k, hk⟩ := h.found u header answer hmem
      exact ⟨k, hk.append _⟩
    · obtain ⟨e, he, heq⟩ := List.mem_map.mp hmem
      cases heq
      obtain ⟨k, hk⟩ := hfound header answer he
      exact ⟨k, hk.append _⟩

/-- A step that leaves all devices alone. -/
theorem Inv.device_kept (h : Inv tr c) {o : Outcome ImageCopies Pc Event}
    (hdevice : o.mem.device = c.mem.device) (hloc : ∀ header k, c.loc t ≠ .set_device header k)
    (u : T) (header : Header) (k : Slot) (hmem : (u, .took header k) ∈ tr) :
    o.mem.device k = header.device ∨ (c.after t o).loc u = .set_device header k := by
  obtain ⟨-, -, hdev | hset⟩ := h.slot u header k hmem
  · exact Or.inl ((congrFun hdevice k).trans hdev)
  · have hne : u ≠ t := by
      rintro rfl
      exact hloc header k hset
    exact Or.inr (by rwa [c.after_loc_of_ne _ hne])

/-- A silent step that leaves inodes and devices alone. -/
theorem Inv.silent (h : Inv tr c) {o : Outcome ImageCopies Pc Event} (hev : o.events = [])
    (hinode : o.mem.inode = c.mem.inode) (hdevice : o.mem.device = c.mem.device)
    (hloc : ∀ header k, c.loc t ≠ .set_device header k)
    (htaking : ∀ file, o.loc.Taking file ↔ (c.loc t).Taking file)
    (hfile : o.loc.file = (c.loc t).file) (hassumes : o.loc.Assumes tr o.mem t) :
    Inv (tr ++ o.events.map (Prod.mk t)) (c.after t o) := by
  have hnil : ∀ e, e ∉ o.events := fun e he => by simp [hev] at he
  have htr : tr ++ o.events.map (Prod.mk t) = tr := by simp [hev]
  refine h.keep (fun _ _ => hnil _) (fun _ _ hmem => absurd hmem (hnil _)) hinode
    (h.device_kept hdevice hloc) (fun file => ?_) (fun file hf => ?_) ?_
  · exact h.phase_quiet (fun e he => absurd he (hnil e)) (htaking file)
  · rw [hfile] at hf
    rw [htr]
    exact h.called t file hf
  · rwa [htr]

/-- The call that took a slot for a file stores its device. -/
theorem Inv.stored (h : Inv tr c) {header : Header} {index : Slot}
    (hloc : c.loc t = .set_device header index) :
    Inv (tr ++ (program T t header c.mem (c.loc t)).events.map (Prod.mk t))
      (c.after t (program T t header c.mem (c.loc t))) := by
  have htook : (t, .took header index) ∈ tr := by
    have hassumes := h.assumes t
    rwa [hloc] at hassumes
  rw [hloc]
  refine h.keep (fun _ _ => List.not_mem_nil) (fun _ _ hmem => absurd hmem List.not_mem_nil)
    rfl (fun u other k hmem => ?_) (fun file => ?_) (fun file hf => ?_) ?_
  · by_cases hk : k = index
    · subst hk
      have hfile := h.once k _ _ ⟨t, header, htook, rfl⟩ ⟨u, other, hmem, rfl⟩
      left
      exact (Function.update_self ..).trans (congrArg File.device hfile)
    · obtain ⟨-, -, hdev | hset⟩ := h.slot u other k hmem
      · exact Or.inl ((Function.update_of_ne hk ..).trans hdev)
      · have hne : u ≠ t := by
          rintro rfl
          rw [hloc] at hset
          cases hset
          exact hk rfl
        exact Or.inr (by rwa [c.after_loc_of_ne _ hne])
  · refine h.phase_quiet (fun e he => absurd he List.not_mem_nil) ?_
    rw [hloc]
    exact Iff.rfl
  · rw [called_files_append]
    refine Finset.mem_union_left _ (h.called t file ?_)
    rw [hloc]
    exact hf
  · exact List.mem_append_left _ htook

/-- The call that took a slot for a file returns false. -/
theorem Inv.returned (h : Inv tr c) {header : Header} {index : Slot}
    (hloc : c.loc t = .clear_end header index) :
    Inv (tr ++ (program T t header c.mem (c.loc t)).events.map (Prod.mk t))
      (c.after t (program T t header c.mem (c.loc t))) := by
  have htook : (t, .took header index) ∈ tr := by
    have hassumes := h.assumes t
    rwa [hloc] at hassumes
  have hset : ∀ other k, c.loc t ≠ .set_device other k := by
    intro other k heq
    rw [hloc] at heq
    cases heq
  have htaking : (c.loc t).Taking header.toFile := by
    rw [hloc]
    exact rfl
  rw [hloc]
  refine h.keep (fun _ _ hmem => by simp [program] at hmem) (fun other answer hmem => ?_)
    rfl (h.device_kept rfl hset) (fun file => ?_) (fun file hf => by cases hf) trivial
  · cases List.mem_singleton.mp hmem
    exact ⟨index, t, header, htook, rfl⟩
  · by_cases hfile : header.toFile = file
    · subst hfile
      have hevents : history header.toFile
          ((program T t header c.mem (.clear_end header index)).events.map (Prod.mk t))
          = [(t, .returned header false)] := by
        simp [history, program, Event.of_file]
      have hmem : (t, Event.took header index) ∈ history header.toFile tr :=
        List.mem_filter.mpr ⟨htook, decide_eq_true rfl⟩
      have hphase := h.phase header.toFile
      rw [history_append, hevents]
      -- A thread is taking a slot for the file, so its history has just begun.
      generalize history header.toFile tr = l at hmem hphase
      cases hphase with
      | untaken hnone => exact absurd htaking (hnone t)
      | taken _ _ _ _ _ _ hnone => exact absurd htaking (hnone t)
      | taking u other k hother honly =>
        cases (honly t).mp htaking
        refine .taken t other header k hother rfl fun u => ?_
        by_cases hu : u = t
        · rw [hu, c.after_loc_self]
          exact fun hf => hf
        · rw [c.after_loc_of_ne _ hu]
          exact fun hf => hu ((honly u).mp hf)
    · refine h.phase_quiet (fun e he => ?_) ?_
      · cases List.mem_singleton.mp he
        exact decide_eq_false hfile
      · rw [hloc]
        exact iff_of_false (fun hf => hf) hfile

/-- A call takes a free slot, and no other call for the file is past it. -/
theorem Inv.took (h : Inv tr c) {header : Header} {index : Slot}
    (hloc : c.loc t = .claim header index) (hfree : c.mem.inode index = 0)
    (hpast : ∀ u, u ≠ t → ¬ (c.loc u).Past header.toFile index) :
    Inv (tr ++ (program T t header c.mem (c.loc t)).events.map (Prod.mk t))
      (c.after t (program T t header c.mem (c.loc t))) := by
  have hassumes := h.assumes t
  rw [hloc] at hassumes
  obtain ⟨hne, hnone, hbefore⟩ := hassumes
  have hout : program T t header c.mem (c.loc t)
      = ⟨{ c.mem with inode := Function.update c.mem.inode index header.inode },
        .set_device header index, [.took header index]⟩ := by
    rw [hloc]
    exact if_pos hfree
  -- No slot but this one has changed hands.
  have hslot : ∀ {u other k}, (u, Event.took other k) ∈ tr → k ≠ index := by
    rintro u other k hmem rfl
    obtain ⟨hk, hother, -⟩ := h.slot u other k hmem
    exact hother (hk.symm.trans hfree)
  have hmem : ∀ {u other k}, (u, Event.took other k) ∈ tr ++ [(t, .took header index)] →
      (u, Event.took other k) ∈ tr ∨ u = t ∧ other = header ∧ k = index := by
    intro u other k hmem
    rcases List.mem_append.mp hmem with hmem | hmem
    · exact Or.inl hmem
    · cases List.mem_singleton.mp hmem
      exact Or.inr ⟨rfl, rfl, rfl⟩
  have htaken : ∀ {file k}, Taken (tr ++ [(t, .took header index)]) file k →
      Taken tr file k ∨ file = header.toFile ∧ k = index := by
    rintro file k ⟨u, other, hin, rfl⟩
    rcases hmem hin with hin | ⟨rfl, rfl, rfl⟩
    · exact Or.inl ⟨u, other, hin, rfl⟩
    · exact Or.inr ⟨rfl, rfl⟩
  rw [hout]
  change Inv (tr ++ [(t, .took header index)]) (c.after t _)
  refine ⟨fun u other k hin => ?_, fun k file file' hfile hfile' => ?_, fun k hk => ?_,
    fun u file hu => ?_, fun u => ?_, fun file => ?_, fun u other answer hin => ?_⟩
  · rcases hmem hin with hold | ⟨rfl, rfl, rfl⟩
    · obtain ⟨hk, hother, hdev⟩ := h.slot u other k hold
      refine ⟨(Function.update_of_ne (hslot hold) ..).trans hk, hother, hdev.imp_right ?_⟩
      intro hset
      have hu : u ≠ t := by
        rintro rfl
        rw [hloc] at hset
        cases hset
      rwa [c.after_loc_of_ne _ hu]
    · exact ⟨Function.update_self .., hne, Or.inr (c.after_loc_self ..)⟩
  · rcases htaken hfile with hold | ⟨rfl, rfl⟩
    · rcases htaken hfile' with hold' | ⟨rfl, rfl⟩
      · exact h.once k file file' hold hold'
      · obtain ⟨_, _, hin, -⟩ := hold
        exact absurd rfl (hslot hin)
    · rcases htaken hfile' with ⟨_, _, hin, -⟩ | ⟨rfl, -⟩
      · exact absurd rfl (hslot hin)
      · rfl
  · have hcalls : called_files (tr ++ [(t, .took header index)]) = called_files tr := by
      rw [called_files_append]
      exact Finset.union_empty _
    rw [hcalls]
    by_cases heq : k = index
    · subst heq
      refine ⟨header.toFile, h.called t _ (by rw [hloc]; rfl), t, header, ?_, rfl⟩
      exact List.mem_append_right _ (List.mem_singleton.mpr rfl)
    · obtain ⟨file, hcall, hold⟩ :=
        h.taken k fun hzero => hk ((Function.update_of_ne heq ..).trans hzero)
      exact ⟨file, hcall, hold.append _⟩
  · rw [called_files_append]
    refine Finset.mem_union_left _ ?_
    by_cases heq : u = t
    · subst heq
      rw [c.after_loc_self] at hu
      exact h.called u file (by rw [hloc]; exact hu)
    · rw [c.after_loc_of_ne _ heq] at hu
      exact h.called u file hu
  · by_cases heq : u = t
    · subst heq
      rw [c.after_loc_self]
      exact List.mem_append_right _ (List.mem_singleton.mpr rfl)
    · rw [c.after_loc_of_ne _ heq]
      exact (h.assumes u).took htaken hne hfree (hpast u heq)
  · by_cases hfile : header.toFile = file
    · subst hfile
      have hnil : history header.toFile tr = [] :=
        (h.phase _).eq_nil fun u other k hin => hnone k (taken_iff_history.mpr ⟨u, other, hin⟩)
      have hphase := h.phase header.toFile
      have hevents : history header.toFile [(t, Event.took header index)]
          = [(t, .took header index)] := by
        simp [history, Event.of_file]
      rw [hnil] at hphase
      rw [history_append, hnil, hevents]
      cases hphase with
      | untaken hnot =>
        refine .taking t header index rfl fun u => ?_
        by_cases hu : u = t
        · rw [hu, c.after_loc_self]
          exact iff_of_true rfl rfl
        · rw [c.after_loc_of_ne _ hu]
          exact iff_of_false (hnot u) hu
    · refine h.phase_quiet (fun e he => ?_) ?_
      · cases List.mem_singleton.mp he
        exact decide_eq_false hfile
      · rw [hloc]
        exact iff_of_false hfile (fun hf => hf)
  · rcases List.mem_append.mp hin with hin | hin
    · obtain ⟨k, hk⟩ := h.found u other answer hin
      exact ⟨k, hk.append _⟩
    · cases List.mem_singleton.mp hin

omit [DecidableEq T] in
/-- The search goes on past a slot that was not taken for the file. -/
theorem search_on_assumes {header : Header} {index : Slot} {m : ImageCopies}
    (hne : header.inode ≠ 0) (hahead : ∀ k, Taken tr header.toFile k → index ≤ k)
    (hnot : ¬ Taken tr header.toFile index) : (Pc.search_on header index).Assumes tr m t := by
  have hlt : ∀ k, Taken tr header.toFile k → index < k := by
    intro k hk
    refine lt_of_le_of_ne (hahead k hk) ?_
    rintro rfl
    exact hnot hk
  unfold Pc.search_on
  split
  · exact ⟨hne, fun k hk => Fin.le_def.mpr (Fin.lt_def.mp (hlt k hk))⟩
  · refine ⟨hne, fun k hk => ?_, fun k hk => absurd hk (Nat.not_lt_zero _)⟩
    have hlt' := Fin.lt_def.mp (hlt k hk)
    have hk' := k.isLt
    omega

/-- A search that goes on is for the same file, and takes nothing. -/
theorem search_on_file (header : Header) (index : Slot) :
    (Pc.search_on header index).file = some header.toFile
      ∧ ∀ file, ¬ (Pc.search_on header index).Taking file := by
  unfold Pc.search_on
  split
  · exact ⟨rfl, fun file hf => hf⟩
  · exact ⟨rfl, fun file hf => hf⟩

omit [DecidableEq T] in
/-- Where the step is orderly, comparing the device tells whether the slot is the file's. -/
theorem Inv.device_tells (h : Inv tr c) {header : Header} {index : Slot} {a : Header}
    (hloc : c.loc t = .device header index) (horder : Orderly tr c (t, a)) :
    c.mem.device index = header.device ↔ Taken tr header.toFile index := by
  have hassumes := h.assumes t
  unfold Orderly at horder
  rw [hloc] at hassumes
  dsimp only at horder
  rw [hloc] at horder
  obtain ⟨hne, hinode, -⟩ := hassumes
  obtain ⟨file, -, htaken⟩ := h.taken index fun hzero => hne (hinode.symm.trans hzero)
  obtain ⟨u, other, hmem, rfl⟩ := htaken
  obtain ⟨hother, -, hdev⟩ := h.slot u other index hmem
  have hsame : c.mem.device index = header.device ↔ other.device = header.device := by
    rcases hdev with hdev | hset
    · rw [hdev]
    · exact horder u other hset
  rw [hsame]
  constructor
  · intro heq
    exact ⟨u, other, hmem, File.ext heq (hother.symm.trans hinode)⟩
  · intro hfile
    exact congrArg File.device (h.once index _ _ ⟨u, other, hmem, rfl⟩ hfile)

omit [DecidableEq T] in
/-- With fewer files than slots there is a free slot. -/
theorem Inv.exists_free (h : Inv tr c) (hfew : (called_files tr).card < IMAGE_TRACK_SLOTS) :
    ∃ k, c.mem.inode k = 0 := by
  by_contra hfull
  have hfull : ∀ k, c.mem.inode k ≠ 0 := not_exists.mp hfull
  choose file hcall htaken using fun k => h.taken k (hfull k)
  have hinj : Function.Injective file := by
    intro i j hij
    have hi := htaken i
    rw [hij] at hi
    obtain ⟨t, header, hi⟩ := taken_iff_history.mp hi
    obtain ⟨u, header', hj⟩ := taken_iff_history.mp (htaken j)
    exact ((h.phase _).unique hi hj).2.2
  have hcard : IMAGE_TRACK_SLOTS ≤ (called_files tr).card := by
    rw [← Fintype.card_fin IMAGE_TRACK_SLOTS, ← Finset.card_univ]
    exact Finset.card_le_card_of_injOn file (fun k _ => hcall k) hinj.injOn
  omega

/-- **One step.** -/
theorem Inv.step (h : Inv tr c) (a : Header) (ha : a.inode ≠ 0) (horder : Orderly tr c (t, a))
    (hfew : (called_files tr).card < IMAGE_TRACK_SLOTS) :
    Inv (tr ++ (program T t a c.mem (c.loc t)).events.map (Prod.mk t))
      (c.after t (program T t a c.mem (c.loc t))) := by
  have hassumes := h.assumes t
  cases hloc : c.loc t with
  | idle =>
    have hset : ∀ other k, c.loc t ≠ .set_device other k := by simp [hloc]
    refine h.keep (by simp [program]) (by simp [program]) rfl (h.device_kept rfl hset)
      (fun file => ?_) (fun file hf => ?_) ?_
    · refine h.phase_quiet (fun e he => ?_) (by rw [hloc]; exact Iff.rfl)
      cases List.mem_singleton.mp he
      rfl
    · cases hf
      exact mem_called_files (List.mem_append_right _ List.mem_cons_self)
    · exact ⟨ha, fun k _ => Nat.zero_le _⟩
  | inode header index =>
    have hset : ∀ other k, c.loc t ≠ .set_device other k := by simp [hloc]
    rw [hloc] at hassumes
    obtain ⟨hne, hahead⟩ := hassumes
    by_cases hinode : c.mem.inode index = header.inode
    · have hout : program T t a c.mem (.inode header index)
          = ⟨c.mem, .device header index, []⟩ := if_pos hinode
      rw [hout]
      exact h.silent rfl rfl rfl hset (by rw [hloc]; exact fun _ => Iff.rfl) (by rw [hloc]; rfl)
        ⟨hne, hinode, hahead⟩
    · have hout : program T t a c.mem (.inode header index)
          = ⟨c.mem, .search_on header index, []⟩ := if_neg hinode
      have hnot : ¬ Taken tr header.toFile index := by
        rintro ⟨u, other, hmem, hfile⟩
        exact hinode ((h.slot u other index hmem).1.trans (congrArg File.inode hfile))
      obtain ⟨hfile, htaking⟩ := search_on_file header index
      rw [hout]
      refine h.silent rfl rfl rfl hset (fun file => ?_) (by rw [hloc]; exact hfile)
        (search_on_assumes hne hahead hnot)
      rw [hloc]
      exact iff_of_false (htaking file) (fun hf => hf)
  | device header index =>
    have hset : ∀ other k, c.loc t ≠ .set_device other k := by simp [hloc]
    have htells := h.device_tells hloc horder
    rw [hloc] at hassumes
    obtain ⟨hne, hinode, hahead⟩ := hassumes
    by_cases hdevice : c.mem.device index = header.device
    · have hout : program T t a c.mem (.device header index)
          = ⟨c.mem, .move_start header index, []⟩ := if_pos hdevice
      rw [hout]
      exact h.silent rfl rfl rfl hset (by rw [hloc]; exact fun _ => Iff.rfl) (by rw [hloc]; rfl)
        ⟨index, htells.mp hdevice⟩
    · have hout : program T t a c.mem (.device header index)
          = ⟨c.mem, .search_on header index, []⟩ := if_neg hdevice
      obtain ⟨hfile, htaking⟩ := search_on_file header index
      rw [hout]
      refine h.silent rfl rfl rfl hset (fun file => ?_) (by rw [hloc]; exact hfile)
        (search_on_assumes hne hahead (htells.not.mp hdevice))
      rw [hloc]
      exact iff_of_false (htaking file) (fun hf => hf)
  | move_start header index =>
    have hset : ∀ other k, c.loc t ≠ .set_device other k := by simp [hloc]
    rw [hloc] at hassumes
    exact h.silent rfl rfl rfl hset (by rw [hloc]; exact fun _ => Iff.rfl) (by rw [hloc]; rfl)
      hassumes
  | move_end header index =>
    have hset : ∀ other k, c.loc t ≠ .set_device other k := by simp [hloc]
    rw [hloc] at hassumes
    refine h.keep (by simp [program]) (fun other answer hmem => ?_) rfl (h.device_kept rfl hset)
      (fun file => ?_) (fun file hf => by cases hf) trivial
    · cases List.mem_singleton.mp hmem
      exact hassumes
    · refine h.phase_quiet (fun e he => ?_) (by rw [hloc]; exact Iff.rfl)
      cases List.mem_singleton.mp he
      rfl
  | claim header index =>
    have hset : ∀ other k, c.loc t ≠ .set_device other k := by simp [hloc]
    by_cases hfree : c.mem.inode index = 0
    · have hpast : ∀ u, u ≠ t → ¬ (c.loc u).Past header.toFile index := by
        unfold Orderly at horder
        dsimp only at horder
        rw [hloc] at horder
        exact horder hfree
      -- The header that the scheduler offers plays no role inside a call.
      have htook := h.took hloc hfree hpast
      rw [hloc] at htook
      exact htook
    · rw [hloc] at hassumes
      obtain ⟨hne, hnone, hbefore⟩ := hassumes
      have hupto : ∀ k, k.val ≤ index.val → c.mem.inode k ≠ 0 := by
        intro k hk
        rcases hk.lt_or_eq with hlt | heq
        · exact hbefore k hlt
        · rwa [Fin.ext heq]
      obtain ⟨k, hk⟩ := h.exists_free hfew
      have hnext : index.val + 1 < IMAGE_TRACK_SLOTS := by
        have hlt : index.val < k.val := not_le.mp fun hle => hupto k hle hk
        exact lt_of_le_of_lt hlt k.isLt
      have hout : program T t a c.mem (.claim header index)
          = ⟨c.mem, .claim header ⟨index.val + 1, hnext⟩, []⟩ :=
        (if_neg hfree).trans (dif_pos hnext)
      rw [hout]
      exact h.silent rfl rfl rfl hset (by rw [hloc]; exact fun _ => Iff.rfl) (by rw [hloc]; rfl)
        ⟨hne, hnone, fun k hk => hupto k (Nat.lt_succ_iff.mp hk)⟩
  | set_device header index =>
    have hstored := h.stored hloc
    rw [hloc] at hstored
    exact hstored
  | clear_start header index =>
    have hset : ∀ other k, c.loc t ≠ .set_device other k := by simp [hloc]
    rw [hloc] at hassumes
    exact h.silent rfl rfl rfl hset (by rw [hloc]; exact fun _ => Iff.rfl) (by rw [hloc]; rfl)
      hassumes
  | clear_end header index =>
    have hreturned := h.returned hloc
    rw [hloc] at hreturned
    exact hreturned

end Step

/-! ## Runs -/

section Run

variable [DecidableEq T]

omit [DecidableEq T] in
/-- At the start no slot is taken. -/
theorem inv_start : Inv [] (start T) where
  slot _ _ _ hmem := by cases hmem
  once _ _ _ h := by
    obtain ⟨_, _, hmem, -⟩ := h
    cases hmem
  taken _ hne := absurd rfl hne
  called _ _ hf := by cases hf
  assumes _ := trivial
  phase _ := .untaken fun _ hf => hf
  found _ _ _ hmem := by cases hmem

/-- The invariant holds of every orderly run, as long as there are fewer files than slots. -/
theorem inv_run {s : List (T × Header)} (hinode : ∀ x ∈ s, x.2.inode ≠ 0)
    (horder : AllSteps (program T) Orderly (start T) s)
    (hfew : (called_files (trace (program T) (start T) s)).card < IMAGE_TRACK_SLOTS) :
    Inv (trace (program T) (start T) s) (run (program T) (start T) s) := by
  refine Threads.run_induct_of (program T) (Q := fun x => x.2.inode ≠ 0)
    (I := fun tr c => (called_files tr).card < IMAGE_TRACK_SLOTS → Inv tr c)
    (fun _ => inv_start) (fun tr c x hx hne ih hfew => ?_) horder hinode hfew
  have hold : (called_files tr).card < IMAGE_TRACK_SLOTS := by
    rw [called_files_append] at hfew
    exact (Finset.card_le_card Finset.subset_union_left).trans_lt hfew
  exact (ih hold).step x.2 hne hx hold

omit [DecidableEq T] in
/-- The first calls of a file are those of its history. -/
theorem first_calls_eq (file : File) (tr : List (T × Event)) :
    first_calls file tr = first_calls file (history file tr) := by
  unfold first_calls history
  rw [List.countP_filter]
  refine List.countP_congr fun e _ => ?_
  obtain ⟨t, e⟩ := e
  cases e with
  | called header => simp
  | took header index => simp
  | returned header answer => cases answer <;> simp [Event.of_file]

omit [DecidableEq T] in
/-- A phase says how many calls have returned false. -/
theorem Phase.first_calls {file : File} {c : Config T ImageCopies Pc} {l : List (T × Event)}
    (h : Phase file c l) : Images.first_calls file l ≤ 1
      ∧ ((∃ t header k, (t, .took header k) ∈ l) → (∀ t, ¬ (c.loc t).Taking file) →
        Images.first_calls file l = 1) := by
  cases h with
  | untaken h =>
    refine ⟨Nat.zero_le _, ?_⟩
    rintro ⟨t, header, k, hmem⟩ -
    cases hmem
  | taking t header index hfile h =>
    exact ⟨Nat.zero_le _, fun _ hnone => absurd ((h t).mpr rfl) (hnone t)⟩
  | taken t header header' index hfile hfile' h =>
    have hone : Images.first_calls file
        [(t, Event.took header index), (t, .returned header' false)] = 1 := by
      simp [Images.first_calls, hfile']
    exact ⟨hone.le, fun _ _ => hone⟩

/-- **One call for a file returns false.** In every orderly run with fewer files than slots at
most one call for a file has returned false; and once a call for it has returned and none is
under way, exactly one has. -/
theorem one_first_call (T : Type*) [DecidableEq T] (s : List (T × Header))
    (hinode : ∀ x ∈ s, x.2.inode ≠ 0)
    (hfew : (called_files (trace (program T) (start T) s)).card < IMAGE_TRACK_SLOTS)
    (horder : AllSteps (program T) Orderly (start T) s) (file : File) :
    first_calls file (trace (program T) (start T) s) ≤ 1
      ∧ ((∃ t header answer, (t, Event.returned header answer) ∈ trace (program T) (start T) s
            ∧ header.toFile = file) →
          (∀ t, ((run (program T) (start T) s).loc t).file ≠ some file) →
          first_calls file (trace (program T) (start T) s) = 1) := by
  have h := inv_run hinode horder hfew
  obtain ⟨hle, hone⟩ := (h.phase file).first_calls
  rw [first_calls_eq]
  refine ⟨hle, ?_⟩
  rintro ⟨t, header, answer, hmem, rfl⟩ hidle
  obtain ⟨k, hk⟩ := h.found t header answer hmem
  obtain ⟨u, other, hin⟩ := taken_iff_history.mp hk
  refine hone ⟨u, other, k, hin⟩ fun v htaking => hidle v ?_
  generalize (run (program T) (start T) s).loc v = pc at htaking
  cases pc with
  | set_device other k | clear_start other k | clear_end other k => exact congrArg some htaking
  | _ => exact htaking.elim

end Run

/-! ### Two calls at once -/

instance (file : File) (index : Slot) : (pc : Pc) → Decidable (pc.Past file index)
  | .inode header j | .device header j =>
    inferInstanceAs (Decidable (header.toFile = file ∧ index < j))
  | .claim header _ => inferInstanceAs (Decidable (header.toFile = file))
  | .idle | .move_start _ _ | .move_end _ _ | .set_device _ _ | .clear_start _ _
  | .clear_end _ _ => isFalse id

/-- The device that a thread is about to store in the slot. -/
def Pc.storing (index : Slot) : Pc → Option UInt64
  | .set_device header j => if j = index then some header.device else none
  | _ => none

theorem storing_iff {pc : Pc} {index : Slot} {p : UInt64 → Prop} :
    (∀ other, pc = .set_device other index → p other.device)
      ↔ ∀ device ∈ pc.storing index, p device := by
  constructor
  · intro h device hmem
    cases pc with
    | set_device header j =>
      by_cases hj : j = index
      · subst hj
        rw [Pc.storing, if_pos rfl] at hmem
        cases hmem
        exact h header rfl
      · rw [Pc.storing, if_neg hj] at hmem
        cases hmem
    | _ => cases hmem
  · rintro h other rfl
    exact h other.device (by rw [Pc.storing, if_pos rfl]; rfl)

/-- Whether comparing the device is orderly at a thread about to store this one, if any. -/
def unchanged (found sought : UInt64) : Option UInt64 → Bool
  | some device => decide (found = sought ↔ device = sought)
  | none => true

theorem unchanged_iff {found sought : UInt64} {storing : Option UInt64} :
    unchanged found sought storing = true
      ↔ ∀ device ∈ storing, (found = sought ↔ device = sought) := by
  cases storing with
  | none => simp [unchanged]
  | some device => simp [unchanged]

/-- [`Orderly`] of a thread at this program point. -/
def OrderlyAt (c : Config T ImageCopies Pc) (t : T) : Pc → Prop
  | .device header index =>
    ∀ u, unchanged (c.mem.device index) header.device ((c.loc u).storing index) = true
  | .claim header index =>
    c.mem.inode index = 0 → ∀ u, u ≠ t → ¬ (c.loc u).Past header.toFile index
  | _ => True

/-- The two ways to say it agree. -/
theorem orderly_iff {tr : List (T × Event)} {c : Config T ImageCopies Pc} {x : T × Header} :
    OrderlyAt c x.1 (c.loc x.1) ↔ Orderly tr c x := by
  unfold Orderly
  cases c.loc x.1 with
  | device header index => exact forall_congr' fun u => unchanged_iff.trans storing_iff.symm
  | _ => exact Iff.rfl

instance [Fintype T] [DecidableEq T] (c : Config T ImageCopies Pc) (t : T) :
    (pc : Pc) → Decidable (OrderlyAt c t pc)
  | .device header index => inferInstanceAs (Decidable
    (∀ u, unchanged (c.mem.device index) header.device ((c.loc u).storing index) = true))
  | .claim header index => inferInstanceAs (Decidable
    (c.mem.inode index = 0 → ∀ u, u ≠ t → ¬ (c.loc u).Past header.toFile index))
  | .idle | .inode _ _ | .move_start _ _ | .move_end _ _ | .set_device _ _ | .clear_start _ _
  | .clear_end _ _ => isTrue trivial

instance [Fintype T] [DecidableEq T] (tr : List (T × Event)) (c : Config T ImageCopies Pc)
    (x : T × Header) : Decidable (Orderly tr c x) :=
  decidable_of_iff _ orderly_iff

/-- A library is mapped by two threads. The second begins its search while the first goes through
the slots, and finds the file before the first has returned: only the first call returns false. -/
def two_calls : List (Bool × Header) :=
  let early : Header := ⟨⟨7, 100⟩, 0x10000, 0xb9000⟩
  let late : Header := ⟨⟨7, 100⟩, 0x80000, 0xb9000⟩
  Threads.steps true 1 late ++ Threads.steps false 67 early ++ Threads.steps true 4 late
    ++ Threads.steps false 2 early

/-- Both calls overlap, and one of them is told that it is the first. -/
theorem one_first_call_of_two :
    first_calls ⟨7, 100⟩ (trace (program Bool) (start Bool) two_calls) = 1 :=
  (one_first_call Bool two_calls (by decide +kernel) (by decide +kernel) (by decide +kernel)
    ⟨7, 100⟩).2 ⟨true, ⟨⟨7, 100⟩, 0x80000, 0xb9000⟩, true, by decide +kernel, rfl⟩
    (by decide +kernel)

end Linuwux.Images
