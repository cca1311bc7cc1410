/-
`TrampolineThreads.lean` -- `private_syscall_trampoline` of `runtime/src/syscall/int2e.rs` among
several threads.

The table is open-addressed and lock-free: a site takes the first empty slot of its probe by a
compare-exchange, and whoever has found the slot of its site builds a page on its own and
publishes it by another one. So a site may be built several times, and all but one of the pages
are given back.

A call ends in one of the ways of [`Call`], which says what it has mapped and unmapped, and
[`Call.Right`] is what that way has to mean. The table itself is an instance of `Probing.lean`.
-/
import Linuwux.Int2e
import Linuwux.Probing
import Linuwux.Threads

set_option autoImplicit false

namespace Linuwux.Trampolines

variable {T : Type*}

open Int2e
open Threads (Program Config Outcome run trace own)

/-! ## The table and the pages -/

/-- An index of `TRAMPOLINE_SITES` and `TRAMPOLINE_TARGETS`. -/
abbrev Slot := Fin TRAMPOLINE_CAPACITY

theorem capacity_pos : 0 < TRAMPOLINE_CAPACITY := by decide

/-- The offset the probe starts from. -/
def first : Slot := ⟨0, capacity_pos⟩

/-- The slot at an offset of the probe. -/
def probe (site : UInt64) (offset : Slot) : Slot :=
  ⟨((site >>> 1).toNat % TRAMPOLINE_CAPACITY + offset.val) % TRAMPOLINE_CAPACITY,
    Nat.mod_lt _ capacity_pos⟩

def probes (site : UInt64) : List Slot := (List.finRange TRAMPOLINE_CAPACITY).map (probe site)

/-- A private mapping: its first bytes, and whether it is `PROT_READ | PROT_EXEC` or still
`PROT_READ | PROT_WRITE`. -/
structure Page where
  code : List UInt8
  executable : Bool
  deriving DecidableEq, Repr

/-- What `mmap` gives. -/
def Page.fresh : Page := ⟨List.replicate TRAMPOLINE_LENGTH 0, false⟩

structure Mem where
  sites : Slot → UInt64
  targets : Slot → UInt64
  pages : UInt64 → Option Page

/-- Empty tables, no pages. -/
def Mem.new : Mem := ⟨fun _ => 0, fun _ => 0, fun _ => none⟩

/-- What the kernel answers: the mappings around the site, `mmap`, `mprotect`. An idle thread
faults at the site. -/
structure Choice where
  site : UInt64
  executable : Bool
  mapped : Option UInt64
  protects : Bool

/-- `mmap` with a null hint. A page that is null, unaligned or taken is no answer the kernel
gives, and counts as a failure. -/
def Mem.mmap (m : Mem) (answer : Option UInt64) : Option UInt64 :=
  answer.filter fun page => page ≠ 0 ∧ page % PAGE_SIZE = 0 ∧ (m.pages page).isNone

/-- A site of which `next_instruction` is some. -/
structure Site where
  address : UInt64
  next : UInt64
  next_eq : next_instruction address = some next

/-! ## What a call shows -/

inductive Event where
  | called (site : UInt64)
  | mapped (page : UInt64)
  | build_failed (site : UInt64)
  | unmapped (page : UInt64)
  | returned (site : UInt64) (target : Option UInt64)
  deriving DecidableEq

/-- How a call ends. -/
inductive Call where
  | overflow (site : UInt64)
  | full (site : UInt64)
  /-- The site is not in an executable mapping, or `mmap` failed. -/
  | unmappable (site : UInt64)
  | unprotectable (site page : UInt64)
  | reused (site target : UInt64)
  | built (site page : UInt64)
  | lost (site page target : UInt64)

def Call.site : Call → UInt64
  | .overflow site | .full site | .unmappable site | .unprotectable site _ | .reused site _
  | .built site _ | .lost site _ _ => site

def Call.result : Call → Option UInt64
  | .overflow _ | .full _ | .unmappable _ | .unprotectable _ _ => none
  | .reused _ target | .lost _ _ target => some target
  | .built _ page => some page

/-- What the call shows before it returns. -/
def Call.before : Call → List Event
  | .overflow site | .full site | .reused site _ => [.called site]
  | .unmappable site => [.called site, .build_failed site]
  | .unprotectable site page =>
    [.called site, .mapped page, .build_failed site, .unmapped page]
  | .built site page => [.called site, .mapped page]
  | .lost site page _ => [.called site, .mapped page, .unmapped page]

def Call.events (call : Call) : List Event := call.before ++ [.returned call.site call.result]

/-! ## Program points -/

/-- The access that `private_syscall_trampoline` is about to make, in its probe, in
`build_or_reuse_private_trampoline` and in `build_private_trampoline`. -/
inductive Pc where
  | idle
  | start (site : UInt64)
  | load_site (s : Site) (offset : Slot)
  | claim (s : Site) (offset : Slot)
  | load_target (s : Site) (index : Slot)
  | check (s : Site) (index : Slot)
  | map (s : Site) (index : Slot)
  | write (s : Site) (index : Slot) (page : UInt64)
  | protect (s : Site) (index : Slot) (page : UInt64)
  | discard (s : Site) (page : UInt64)
  | publish (s : Site) (index : Slot) (page : UInt64)
  | unmap (s : Site) (page existing : UInt64)
  | done (call : Call)

def Pc.probe_on (s : Site) (offset : Slot) : Pc :=
  if h : offset.val + 1 < TRAMPOLINE_CAPACITY then .load_site s ⟨offset.val + 1, h⟩
  else .done (.full s.address)

def program (T : Type*) : Program T Choice Mem Pc Event := fun _ a m pc =>
  match pc with
  | .idle => ⟨m, .start a.site, [.called a.site]⟩
  | .start site =>
    match h : next_instruction site with
    | none => ⟨m, .done (.overflow site), []⟩
    | some next => ⟨m, .load_site ⟨site, next, h⟩ first, []⟩
  | .load_site s offset =>
    if m.sites (probe s.address offset) = s.address then
      ⟨m, .load_target s (probe s.address offset), []⟩
    else if m.sites (probe s.address offset) ≠ 0 then ⟨m, .probe_on s offset, []⟩
    else ⟨m, .claim s offset, []⟩
  | .claim s offset =>
    if m.sites (probe s.address offset) = 0 then
      ⟨{ m with sites := Function.update m.sites (probe s.address offset) s.address },
        .load_target s (probe s.address offset), []⟩
    else ⟨m, .load_site s offset, []⟩
  | .load_target s index =>
    if m.targets index ≠ 0 then ⟨m, .done (.reused s.address (m.targets index)), []⟩
    else ⟨m, .check s index, []⟩
  | .check s index =>
    if a.executable then ⟨m, .map s index, []⟩
    else ⟨m, .done (.unmappable s.address), [.build_failed s.address]⟩
  | .map s index =>
    match m.mmap a.mapped with
    | none => ⟨m, .done (.unmappable s.address), [.build_failed s.address]⟩
    | some page =>
      ⟨{ m with pages := Function.update m.pages page (some .fresh) }, .write s index page,
        [.mapped page]⟩
  | .write s index page =>
    let written := (m.pages page).map fun p => { p with code := trampoline_code s.next }
    ⟨{ m with pages := Function.update m.pages page written }, .protect s index page, []⟩
  | .protect s index page =>
    let protected' := (m.pages page).map fun p => { p with executable := true }
    if a.protects then
      ⟨{ m with pages := Function.update m.pages page protected' }, .publish s index page, []⟩
    else ⟨m, .discard s page, [.build_failed s.address]⟩
  | .discard s page =>
    ⟨{ m with pages := Function.update m.pages page none },
      .done (.unprotectable s.address page), [.unmapped page]⟩
  | .publish s index page =>
    if m.targets index = 0 then
      ⟨{ m with targets := Function.update m.targets index page },
        .done (.built s.address page), []⟩
    else ⟨m, .unmap s page (m.targets index), []⟩
  | .unmap s page existing =>
    ⟨{ m with pages := Function.update m.pages page none },
      .done (.lost s.address page existing), [.unmapped page]⟩
  | .done call => ⟨m, .idle, [.returned call.site call.result]⟩

def start (T : Type*) : Config T Mem Pc := ⟨.new, fun _ => .idle⟩

/-! ## What holds of the table -/

/-- The site has this trampoline. -/
def Stored (m : Mem) (site target : UInt64) : Prop :=
  site ≠ 0 ∧ target ≠ 0 ∧ ∃ index, m.sites index = site ∧ m.targets index = target

/-- The slots are taken by other sites. -/
def Full (m : Mem) (site : UInt64) : Prop := ∀ index, m.sites index ≠ 0 ∧ m.sites index ≠ site

/-- The page of a site, finished. -/
def Finished (m : Mem) (site page : UInt64) : Prop :=
  ∃ next, next_instruction site = some next ∧ m.pages page = some ⟨trampoline_code next, true⟩

/-- What has to be so where a call ends this way. -/
def Call.Right (m : Mem) : Call → Prop
  | .overflow site => next_instruction site = none
  | .full site => Full m site
  | .unmappable _ | .unprotectable _ _ => True
  | .reused site target | .built site target => Stored m site target
  | .lost site page target => Stored m site target ∧ page ≠ target

/-- The page that the call has mapped and neither published nor unmapped. -/
def Pc.page : Pc → Option UInt64
  | .write _ _ page | .protect _ _ page | .discard _ page | .publish _ _ page
  | .unmap _ page _ => some page
  | _ => none

/-- What a thread has shown of the call it is in. -/
def Pc.shown : Pc → List Event
  | .idle => []
  | .start site => [.called site]
  | .load_site s _ | .claim s _ | .load_target s _ | .check s _ | .map s _ => [.called s.address]
  | .write s _ page | .protect s _ page | .publish s _ page | .unmap s page _ =>
    [.called s.address, .mapped page]
  | .discard s page => [.called s.address, .mapped page, .build_failed s.address]
  | .done call => call.before

/-- The slots before this offset of the probe are taken by other sites. -/
def Searched (m : Mem) (site : UInt64) (offset : Slot) : Prop :=
  site ≠ 0 ∧ ∀ j < offset, m.sites (probe site j) ≠ 0 ∧ m.sites (probe site j) ≠ site

def At (m : Mem) (s : Site) (index : Slot) : Prop :=
  s.address ≠ 0 ∧ m.sites index = s.address

/-- What a thread may rely on at its program point. -/
def Pc.Assumes (m : Mem) : Pc → Prop
  | .idle => True
  | .start site => site ≠ 0
  | .load_site s offset | .claim s offset => Searched m s.address offset
  | .load_target s index | .check s index | .map s index | .write s index _ => At m s index
  | .protect s index page =>
    At m s index ∧ ∃ executable, m.pages page = some ⟨trampoline_code s.next, executable⟩
  | .discard s _ => ∃ index, At m s index
  | .publish s index page => At m s index ∧ m.pages page = some ⟨trampoline_code s.next, true⟩
  | .unmap s page existing => Stored m s.address existing ∧ page ≠ existing
  | .done call => call.Right m

variable [DecidableEq T]

structure Inv (tr : List (T × Event)) (c : Config T Mem Pc) : Prop where
  settled : Probing.Settled probes 0 c.mem.sites
  finished : ∀ index, c.mem.targets index ≠ 0 → c.mem.sites index ≠ 0
    ∧ Finished c.mem (c.mem.sites index) (c.mem.targets index)
  apart : ∀ i j, c.mem.targets i ≠ 0 → c.mem.targets i = c.mem.targets j → i = j
  owned : ∀ t page, (c.loc t).page = some page → page ≠ 0 ∧ (c.mem.pages page).isSome
    ∧ (∀ index, c.mem.targets index ≠ page) ∧ ∀ u, (c.loc u).page = some page → u = t
  assumes : ∀ t, (c.loc t).Assumes c.mem
  returned : ∀ t site target, (t, .returned site (some target)) ∈ tr → Stored c.mem site target
  failed : ∀ t site, (t, .build_failed site) ∈ tr →
    site ≠ 0 ∧ (next_instruction site).isSome ∧ ∃ index, c.mem.sites index = site
  own : ∀ t, ∃ calls : List Call, own t tr = calls.flatMap Call.events ++ (c.loc t).shown
    ∧ ∀ call ∈ calls, call.Right c.mem

/-! ## Probes -/

/-- Every slot is probed. -/
theorem exists_probe (site : UInt64) (index : Slot) : ∃ offset, probe site offset = index := by
  have hindex : index.val < 16384 := index.isLt
  refine ⟨⟨(16384 + index.val - (site >>> 1).toNat % 16384) % 16384, Nat.mod_lt _ (by decide)⟩,
    Fin.ext ?_⟩
  change ((site >>> 1).toNat % 16384
    + (16384 + index.val - (site >>> 1).toNat % 16384) % 16384) % 16384 = index.val
  omega

/-- The probe settles at the first slot that is empty or the site's. -/
theorem settle_probes {m : Mem} {site : UInt64} {offset : Slot}
    (hbefore : ∀ j < offset, m.sites (probe site j) ≠ 0 ∧ m.sites (probe site j) ≠ site)
    (h : m.sites (probe site offset) = 0 ∨ m.sites (probe site offset) = site) :
    Probing.settle m.sites 0 site (probes site) = some (probe site offset) := by
  unfold Probing.settle probes
  rw [List.find?_map, Option.map_eq_some_iff]
  refine ⟨offset, List.find?_eq_some_iff_getElem.mpr ⟨decide_eq_true h, offset.val, ?_, ?_, ?_⟩,
    rfl⟩
  · rw [List.length_finRange]
    exact offset.isLt
  · rw [List.getElem_finRange]
    rfl
  · intro j hj
    rw [List.getElem_finRange, Bool.not_eq_true', Function.comp_apply, decide_eq_false_iff_not]
    exact not_or.mpr (hbefore _ (Fin.lt_def.mpr hj))

/-- Where a stored site is in its own probe. -/
theorem exists_offset {m : Mem} (hsettled : Probing.Settled probes 0 m.sites) {site : UInt64}
    (hsite : site ≠ 0) {index : Slot} (hindex : m.sites index = site) :
    ∃ offset, probe site offset = index
      ∧ ∀ j < offset, m.sites (probe site j) ≠ 0 ∧ m.sites (probe site j) ≠ site := by
  have hfind := hsettled index (by rwa [hindex])
  rw [hindex] at hfind
  unfold Probing.settle probes at hfind
  rw [List.find?_map, Option.map_eq_some_iff] at hfind
  obtain ⟨offset, hoffset, rfl⟩ := hfind
  obtain ⟨-, i, hi, rfl, hbefore⟩ := List.find?_eq_some_iff_getElem.mp hoffset
  refine ⟨_, rfl, fun j hj => ?_⟩
  rw [List.getElem_finRange, Fin.lt_def] at hj
  have hnot := hbefore j.val hj
  rw [List.getElem_finRange, Bool.not_eq_true', Function.comp_apply, decide_eq_false_iff_not,
    not_or] at hnot
  exact hnot

/-! ## What one step changes -/

/-- Sites and targets that are there stay. -/
structure Grows (m m' : Mem) : Prop where
  sites : ∀ index, m.sites index ≠ 0 → m'.sites index = m.sites index
  targets : ∀ index, m.targets index ≠ 0 → m'.targets index = m.targets index

theorem Grows.refl (m : Mem) : Grows m m := ⟨fun _ _ => rfl, fun _ _ => rfl⟩

section Grows

variable {m m' : Mem} (h : Grows m m')
include h

theorem Grows.stored {site target : UInt64} (hs : Stored m site target) :
    Stored m' site target := by
  obtain ⟨hsite, htarget, index, rfl, rfl⟩ := hs
  exact ⟨hsite, htarget, index, h.sites index hsite, h.targets index htarget⟩

theorem Grows.full {site : UInt64} (hs : Full m site) : Full m' site := by
  intro index
  rw [h.sites index (hs index).1]
  exact hs index

theorem Grows.right {call : Call} (hr : call.Right m) : call.Right m' := by
  cases call with
  | overflow site => exact hr
  | full site => exact h.full hr
  | unmappable site | unprotectable site page => trivial
  | reused site target | built site target => exact h.stored hr
  | lost site page target => exact ⟨h.stored hr.1, hr.2⟩

theorem Grows.at_slot {s : Site} {index : Slot} (ha : At m s index) : At m' s index := by
  refine ⟨ha.1, (h.sites index ?_).trans ha.2⟩
  rw [ha.2]
  exact ha.1

theorem Grows.searched {site : UInt64} {offset : Slot} (hs : Searched m site offset) :
    Searched m' site offset := by
  refine ⟨hs.1, fun j hj => ?_⟩
  rw [h.sites _ (hs.2 j hj).1]
  exact hs.2 j hj

/-- What a thread relies on survives a step that leaves its page alone. -/
theorem Grows.assumes {pc : Pc} (ha : pc.Assumes m)
    (hpage : ∀ page, pc.page = some page → m'.pages page = m.pages page) : pc.Assumes m' := by
  cases pc with
  | idle => trivial
  | start site => exact ha
  | load_site s offset | claim s offset => exact h.searched ha
  | load_target s index | check s index | map s index | write s index page => exact h.at_slot ha
  | protect s index page =>
    obtain ⟨hat, executable, hcode⟩ := ha
    exact ⟨h.at_slot hat, executable, (hpage page rfl).trans hcode⟩
  | discard s page =>
    obtain ⟨index, hat⟩ := ha
    exact ⟨index, h.at_slot hat⟩
  | publish s index page => exact ⟨h.at_slot ha.1, (hpage page rfl).trans ha.2⟩
  | unmap s page existing => exact ⟨h.stored ha.1, ha.2⟩
  | done call => exact h.right ha

end Grows

/-- The step only loads. -/
def Pc.loads : Pc → Bool
  | .start _ | .load_site _ _ | .load_target _ _ | .check _ _ => true
  | _ => false

section Program

variable (t : T) (a : Choice) (m : Mem) (pc : Pc)

omit [DecidableEq T] in
theorem program_loads (h : pc.loads = true) : (program T t a m pc).mem = m := by
  unfold program
  cases pc with
  | start site =>
    dsimp only
    split <;> rfl
  | load_site s offset =>
    dsimp only
    split
    · rfl
    · split <;> rfl
  | load_target s index | check s index =>
    dsimp only
    split <;> rfl
  | _ => cases h

omit [DecidableEq T] in
/-- Only a won claim writes a site. -/
theorem program_sites : (program T t a m pc).mem.sites = m.sites
    ∨ ∃ s offset, pc = .claim s offset ∧ m.sites (probe s.address offset) = 0
      ∧ (program T t a m pc).mem.sites
        = Function.update m.sites (probe s.address offset) s.address := by
  cases pc with
  | claim s offset =>
    by_cases h : m.sites (probe s.address offset) = 0
    · refine Or.inr ⟨s, offset, rfl, h, ?_⟩
      unfold program
      dsimp only
      rw [if_pos h]
    · left
      unfold program
      dsimp only
      rw [if_neg h]
  | map s index | protect s index page | publish s index page =>
    left
    unfold program
    dsimp only
    split <;> rfl
  | start site | load_site s offset | load_target s index | check s index =>
    exact Or.inl (congrArg Mem.sites (program_loads t a m _ rfl))
  | _ => exact Or.inl rfl

omit [DecidableEq T] in
/-- Only a won publication writes a target. -/
theorem program_targets : (program T t a m pc).mem.targets = m.targets
    ∨ ∃ s index page, pc = .publish s index page ∧ m.targets index = 0
      ∧ (program T t a m pc).mem.targets = Function.update m.targets index page
      ∧ (program T t a m pc).mem.pages = m.pages
      ∧ (program T t a m pc).loc = .done (.built s.address page) := by
  cases pc with
  | publish s index page =>
    by_cases h : m.targets index = 0
    · refine Or.inr ⟨s, index, page, rfl, h, ?_⟩
      unfold program
      dsimp only
      rw [if_pos h]
      exact ⟨rfl, rfl, rfl⟩
    · left
      unfold program
      dsimp only
      rw [if_neg h]
  | map s index | claim s offset | protect s index page =>
    left
    unfold program
    dsimp only
    split <;> rfl
  | start site | load_site s offset | load_target s index | check s index =>
    exact Or.inl (congrArg Mem.targets (program_loads t a m _ rfl))
  | _ => exact Or.inl rfl

omit [DecidableEq T] in
theorem program_grows : Grows m (program T t a m pc).mem where
  sites index hne := by
    rcases program_sites t a m pc with h | ⟨s, offset, -, hzero, h⟩
    · rw [h]
    · rw [h, Function.update_of_ne]
      rintro rfl
      exact hne hzero
  targets index hne := by
    rcases program_targets t a m pc with h | ⟨s, i, page, -, hzero, h, -, -⟩
    · rw [h]
    · rw [h, Function.update_of_ne]
      rintro rfl
      exact hne hzero

theorem mmap_eq_some {answer : Option UInt64} {page : UInt64} :
    m.mmap answer = some page
      ↔ answer = some page ∧ page ≠ 0 ∧ page % PAGE_SIZE = 0 ∧ m.pages page = none := by
  unfold Mem.mmap
  rw [Option.filter_eq_some_iff, decide_eq_true_eq, Option.isNone_iff_eq_none]

omit [DecidableEq T] in
/-- A step that changes pages changes the page of its call, which may be a fresh one. -/
theorem program_pages (page : UInt64) :
    (program T t a m pc).mem.pages page = m.pages page ∨ pc.page = some page
      ∨ m.pages page = none := by
  cases pc with
  | map s index =>
    unfold program
    dsimp only
    cases hmap : m.mmap a.mapped with
    | none => exact Or.inl rfl
    | some fresh =>
      by_cases h : page = fresh
      · subst h
        exact Or.inr (Or.inr ((mmap_eq_some m).mp hmap).2.2.2)
      · exact Or.inl (Function.update_of_ne h ..)
  | write s index own | discard s own | unmap s own existing =>
    by_cases h : page = own
    · exact Or.inr (Or.inl (congrArg some h.symm))
    · exact Or.inl (Function.update_of_ne h ..)
  | protect s index own =>
    by_cases h : page = own
    · exact Or.inr (Or.inl (congrArg some h.symm))
    · left
      unfold program
      dsimp only
      split
      · exact Function.update_of_ne h ..
      · rfl
  | claim s offset | publish s index own =>
    left
    unfold program
    dsimp only
    split <;> rfl
  | start site | load_site s offset | load_target s index | check s index =>
    exact Or.inl (congrFun (congrArg Mem.pages (program_loads t a m _ rfl)) page)
  | _ => exact Or.inl rfl

/-- A call that is to probe on has no page. -/
theorem probe_on_page (s : Site) (offset : Slot) : (Pc.probe_on s offset).page = none := by
  unfold Pc.probe_on
  split <;> rfl

omit [DecidableEq T] in
/-- The page of a call after a step: the call had it and it is mapped if it was, or it was free
and is mapped now. -/
theorem program_page {page : UInt64} (h : (program T t a m pc).loc.page = some page) :
    (pc.page = some page
        ∧ ((program T t a m pc).mem.pages page).isSome = (m.pages page).isSome)
      ∨ page ≠ 0 ∧ m.pages page = none ∧ ((program T t a m pc).mem.pages page).isSome := by
  unfold program at h ⊢
  cases pc with
  | map s index =>
    dsimp only at h ⊢
    cases hmap : m.mmap a.mapped with
    | none =>
      rw [hmap] at h
      cases h
    | some fresh =>
      rw [hmap] at h
      cases h
      obtain ⟨-, hne, -, hfree⟩ := (mmap_eq_some m).mp hmap
      refine Or.inr ⟨hne, hfree, ?_⟩
      dsimp only
      rw [Function.update_self]
      rfl
  | write s index own =>
    cases h
    refine Or.inl ⟨rfl, ?_⟩
    dsimp only
    rw [Function.update_self, Option.isSome_map]
  | protect s index own =>
    dsimp only at h ⊢
    by_cases hprotects : a.protects
    · rw [if_pos hprotects] at h ⊢
      cases h
      refine Or.inl ⟨rfl, ?_⟩
      dsimp only
      rw [Function.update_self, Option.isSome_map]
    · rw [if_neg hprotects] at h ⊢
      cases h
      exact Or.inl ⟨rfl, rfl⟩
  | publish s index own =>
    dsimp only at h ⊢
    by_cases htarget : m.targets index = 0
    · rw [if_pos htarget] at h
      cases h
    · rw [if_neg htarget] at h ⊢
      cases h
      exact Or.inl ⟨rfl, rfl⟩
  | start site =>
    dsimp only at h
    split at h <;> cases h
  | load_site s offset =>
    dsimp only at h
    split at h
    · cases h
    · split at h
      · rw [probe_on_page] at h
        cases h
      · cases h
  | claim s offset | load_target s index | check s index =>
    dsimp only at h
    split at h <;> cases h
  | idle | discard s own | unmap s own existing | done call => cases h

omit [DecidableEq T] in
/-- A call says what it did when it returns, and not before. -/
theorem program_shown : pc.shown ++ (program T t a m pc).events = (program T t a m pc).loc.shown
    ∨ ∃ call, pc = .done call ∧ pc.shown ++ (program T t a m pc).events = call.events
      ∧ (program T t a m pc).loc.shown = [] := by
  unfold program
  cases pc with
  | done call => exact Or.inr ⟨call, rfl, rfl, rfl⟩
  | map s index =>
    left
    dsimp only
    cases m.mmap a.mapped <;> rfl
  | load_site s offset =>
    left
    dsimp only
    split
    · rfl
    · split
      · unfold Pc.probe_on
        split <;> rfl
      · rfl
  | start site =>
    left
    dsimp only
    split
    · rfl
    · rfl
  | claim s offset | load_target s index | check s index | protect s index page
  | publish s index page =>
    left
    dsimp only
    split <;> rfl
  | idle | write s index page | discard s page | unmap s page existing => exact Or.inl rfl

omit [DecidableEq T] in
/-- What is returned, and what a call is in when it fails to build. -/
theorem program_events {e : Event} (h : e ∈ (program T t a m pc).events) :
    (∀ site target, e = .returned site (some target) →
        ∃ call, pc = .done call ∧ call.site = site ∧ call.result = some target)
      ∧ ∀ site, e = .build_failed site → pc.Assumes m →
        site ≠ 0 ∧ (next_instruction site).isSome ∧ ∃ i, m.sites i = site := by
  unfold program at h
  cases pc with
  | done call =>
    cases List.mem_singleton.mp h
    exact ⟨fun site target heq => ⟨call, rfl, Event.returned.inj heq⟩, nofun⟩
  | idle | discard s page | unmap s page existing =>
    cases List.mem_singleton.mp h
    exact ⟨nofun, nofun⟩
  | check s index =>
    dsimp only at h
    split at h
    · cases h
    · cases List.mem_singleton.mp h
      refine ⟨nofun, fun site heq ha => ?_⟩
      cases heq
      exact ⟨ha.1, by rw [s.next_eq]; rfl, index, ha.2⟩
  | map s index =>
    dsimp only at h
    cases hmap : m.mmap a.mapped with
    | none =>
      rw [hmap] at h
      cases List.mem_singleton.mp h
      refine ⟨nofun, fun site heq ha => ?_⟩
      cases heq
      exact ⟨ha.1, by rw [s.next_eq]; rfl, index, ha.2⟩
    | some page =>
      rw [hmap] at h
      cases List.mem_singleton.mp h
      exact ⟨nofun, nofun⟩
  | protect s index page =>
    dsimp only at h
    split at h
    · cases h
    · cases List.mem_singleton.mp h
      refine ⟨nofun, fun site heq ha => ?_⟩
      cases heq
      exact ⟨ha.1.1, by rw [s.next_eq]; rfl, index, ha.1.2⟩
  | start site | claim s offset | load_target s index | publish s index page =>
    dsimp only at h
    split at h <;> cases h
  | load_site s offset =>
    dsimp only at h
    split at h
    · cases h
    · split at h <;> cases h
  | write s index page => cases h

end Program

/-! ## One step -/

section Step

variable {tr : List (T × Event)} {c : Config T Mem Pc} {t : T}

omit [DecidableEq T] in
/-- A slot that the whole probe has passed is another site's. -/
theorem full_of_searched {m : Mem} {s : Site} {offset : Slot}
    (h : Searched m s.address offset) (hstored : m.sites (probe s.address offset) ≠ 0)
    (hother : m.sites (probe s.address offset) ≠ s.address) :
    (Pc.probe_on s offset).Assumes m := by
  have hupto : ∀ j : Slot, j.val ≤ offset.val →
      m.sites (probe s.address j) ≠ 0 ∧ m.sites (probe s.address j) ≠ s.address := by
    intro j hj
    rcases hj.lt_or_eq with hlt | heq
    · exact h.2 j hlt
    · rw [Fin.ext heq]
      exact ⟨hstored, hother⟩
  unfold Pc.probe_on
  split
  · exact ⟨h.1, fun j hj => hupto j (Nat.lt_succ_iff.mp hj)⟩
  · rename_i hlast
    intro index
    obtain ⟨j, rfl⟩ := exists_probe s.address index
    exact hupto j (by have hj := j.isLt; omega)

/-- What the thread may rely on after its step. -/
theorem Inv.assumes_self (h : Inv tr c) (a : Choice) (ha : a.site ≠ 0) :
    (program T t a c.mem (c.loc t)).loc.Assumes (program T t a c.mem (c.loc t)).mem := by
  have hassumes := h.assumes t
  have howned := h.owned t
  cases hloc : c.loc t with
  | idle => exact ha
  | start site =>
    rw [hloc] at hassumes
    unfold program
    dsimp only
    split
    · assumption
    · exact ⟨hassumes, fun j hj => absurd hj (Nat.not_lt_zero _)⟩
  | load_site s offset =>
    rw [hloc] at hassumes
    unfold program
    dsimp only
    split
    · rename_i heq
      exact ⟨hassumes.1, heq⟩
    · rename_i hne
      split
      · rename_i hzero
        exact full_of_searched hassumes hzero hne
      · exact hassumes
  | claim s offset =>
    rw [hloc] at hassumes
    unfold program
    dsimp only
    split
    · exact ⟨hassumes.1, Function.update_self ..⟩
    · exact hassumes
  | load_target s index =>
    rw [hloc] at hassumes
    unfold program
    dsimp only
    split
    · rename_i hne
      exact ⟨hassumes.1, hne, index, hassumes.2, rfl⟩
    · exact hassumes
  | check s index =>
    rw [hloc] at hassumes
    unfold program
    dsimp only
    split
    · exact hassumes
    · trivial
  | map s index =>
    rw [hloc] at hassumes
    unfold program
    dsimp only
    cases c.mem.mmap a.mapped with
    | none => trivial
    | some page => exact hassumes
  | write s index page =>
    rw [hloc] at hassumes howned
    obtain ⟨-, hmapped, -, -⟩ := howned page rfl
    obtain ⟨old, hold⟩ := Option.isSome_iff_exists.mp hmapped
    refine ⟨hassumes, old.executable, (Function.update_self ..).trans ?_⟩
    rw [hold]
    rfl
  | protect s index page =>
    rw [hloc] at hassumes
    obtain ⟨hat, executable, hcode⟩ := hassumes
    unfold program
    dsimp only
    split
    · refine ⟨hat, (Function.update_self ..).trans ?_⟩
      rw [hcode]
      rfl
    · exact ⟨index, hat⟩
  | discard s page => trivial
  | publish s index page =>
    rw [hloc] at hassumes howned
    obtain ⟨hnull, -, hother, -⟩ := howned page rfl
    obtain ⟨hat, -⟩ := hassumes
    unfold program
    dsimp only
    split
    · exact ⟨hat.1, hnull, index, hat.2, Function.update_self ..⟩
    · rename_i htarget
      exact ⟨⟨hat.1, htarget, index, hat.2, rfl⟩, fun heq => hother index heq.symm⟩
  | unmap s page existing =>
    rw [hloc] at hassumes
    exact hassumes
  | done call => trivial

theorem Inv.settled_step (h : Inv tr c) (a : Choice) :
    Probing.Settled probes 0 (program T t a c.mem (c.loc t)).mem.sites := by
  rcases program_sites t a c.mem (c.loc t) with hs | ⟨s, offset, hloc, hzero, hs⟩
  · rw [hs]
    exact h.settled
  · have hassumes := h.assumes t
    rw [hloc] at hassumes
    rw [hs]
    exact h.settled.store (settle_probes hassumes.2 (Or.inl hzero)) hzero

/-- A page that is a target stays. -/
theorem Inv.finished_stays (h : Inv tr c) (a : Choice) {index : Slot}
    (hne : c.mem.targets index ≠ 0) :
    (program T t a c.mem (c.loc t)).mem.sites index ≠ 0
      ∧ Finished (program T t a c.mem (c.loc t)).mem
        ((program T t a c.mem (c.loc t)).mem.sites index) (c.mem.targets index) := by
  obtain ⟨hsite, next, hnext, hpage⟩ := h.finished index hne
  rw [(program_grows t a c.mem (c.loc t)).sites index hsite]
  refine ⟨hsite, next, hnext, ?_⟩
  rcases program_pages t a c.mem (c.loc t) (c.mem.targets index) with hp | hp | hp
  · rw [hp]
    exact hpage
  · exact absurd rfl ((h.owned t _ hp).2.2.1 index)
  · rw [hp] at hpage
    cases hpage

theorem Inv.finished_step (h : Inv tr c) (a : Choice) {index : Slot}
    (hne : (program T t a c.mem (c.loc t)).mem.targets index ≠ 0) :
    (program T t a c.mem (c.loc t)).mem.sites index ≠ 0
      ∧ Finished (program T t a c.mem (c.loc t)).mem
        ((program T t a c.mem (c.loc t)).mem.sites index)
        ((program T t a c.mem (c.loc t)).mem.targets index) := by
  rcases program_targets t a c.mem (c.loc t) with ht | ⟨s, i, page, hloc, hzero, ht, hpages, -⟩
  · rw [ht] at hne ⊢
    exact h.finished_stays a hne
  · rw [ht] at hne ⊢
    by_cases hi : index = i
    · subst hi
      have hassumes := h.assumes t
      rw [hloc] at hassumes
      obtain ⟨⟨hsite, hat⟩, hcode⟩ := hassumes
      rw [Function.update_self, (program_grows t a c.mem (c.loc t)).sites index (by rwa [hat]), hat]
      refine ⟨hsite, s.next, s.next_eq, ?_⟩
      rw [hpages]
      exact hcode
    · rw [Function.update_of_ne hi] at hne ⊢
      exact h.finished_stays a hne

theorem Inv.apart_step (h : Inv tr c) (a : Choice) (i j : Slot)
    (hne : (program T t a c.mem (c.loc t)).mem.targets i ≠ 0)
    (heq : (program T t a c.mem (c.loc t)).mem.targets i
      = (program T t a c.mem (c.loc t)).mem.targets j) : i = j := by
  rcases program_targets t a c.mem (c.loc t) with ht | ⟨s, k, page, hloc, hzero, ht, -, -⟩
  · rw [ht] at hne heq
    exact h.apart i j hne heq
  · have hother := (h.owned t page (by rw [hloc]; rfl)).2.2.1
    rw [ht] at hne heq
    by_cases hi : i = k
    · by_cases hj : j = k
      · rw [hi, hj]
      · rw [hi, Function.update_self, Function.update_of_ne hj] at heq
        exact absurd heq.symm (hother j)
    · rw [Function.update_of_ne hi] at hne heq
      by_cases hj : j = k
      · rw [hj, Function.update_self] at heq
        exact absurd heq (hother i)
      · rw [Function.update_of_ne hj] at heq
        exact h.apart i j hne heq

/-- The page of a call is nobody else's and not a target. -/
theorem Inv.owned_step (h : Inv tr c) (a : Choice) {u : T} {page : UInt64}
    (hu : ((c.after t (program T t a c.mem (c.loc t))).loc u).page = some page) :
    page ≠ 0 ∧ ((program T t a c.mem (c.loc t)).mem.pages page).isSome
      ∧ (∀ index, (program T t a c.mem (c.loc t)).mem.targets index ≠ page)
      ∧ ∀ v, ((c.after t (program T t a c.mem (c.loc t))).loc v).page = some page → v = u := by
  -- A thread that has the page now had it before, or it was free and `t` has just mapped it.
  have hbefore : ∀ v, ((c.after t (program T t a c.mem (c.loc t))).loc v).page = some page →
      (c.loc v).page = some page ∨ v = t ∧ c.mem.pages page = none := by
    intro v hv
    by_cases heq : v = t
    · subst heq
      rw [c.after_loc_self] at hv
      rcases program_page v a c.mem (c.loc v) hv with ⟨hold, -⟩ | ⟨-, hfree, -⟩
      · exact Or.inl hold
      · exact Or.inr ⟨rfl, hfree⟩
    · rw [c.after_loc_of_ne _ heq] at hv
      exact Or.inl hv
  have hunique : ∀ v, ((c.after t (program T t a c.mem (c.loc t))).loc v).page = some page →
      v = u := by
    intro v hv
    rcases hbefore u hu with hold | ⟨rfl, hfree⟩
    · obtain ⟨-, hmapped, -, honly⟩ := h.owned u page hold
      rcases hbefore v hv with hv | ⟨-, hfree⟩
      · exact honly v hv
      · rw [hfree] at hmapped
        cases hmapped
    · rcases hbefore v hv with hv | ⟨rfl, -⟩
      · obtain ⟨-, hmapped, -, -⟩ := h.owned v page hv
        rw [hfree] at hmapped
        cases hmapped
      · rfl
  have htarget : ∀ index, (program T t a c.mem (c.loc t)).mem.targets index = page →
      c.mem.targets index = page ∨ (c.loc t).page = some page ∧ u ≠ t := by
    intro index hindex
    rcases program_targets t a c.mem (c.loc t) with ht | ⟨s, i, own, hloc, -, ht, -, hdone⟩
    · rw [ht] at hindex
      exact Or.inl hindex
    · rw [ht] at hindex
      by_cases hi : index = i
      · subst hi
        rw [Function.update_self] at hindex
        subst hindex
        refine Or.inr ⟨by rw [hloc]; rfl, ?_⟩
        rintro rfl
        rw [c.after_loc_self, hdone] at hu
        cases hu
      · rw [Function.update_of_ne hi] at hindex
        exact Or.inl hindex
  by_cases heq : u = t
  · subst heq
    rw [c.after_loc_self] at hu
    rcases program_page u a c.mem (c.loc u) hu with ⟨hold, hsome⟩ | ⟨hne, hfree, hsome⟩
    · obtain ⟨hnull, hmapped, hother, -⟩ := h.owned u page hold
      refine ⟨hnull, by rw [hsome]; exact hmapped, fun index hindex => ?_, hunique⟩
      rcases htarget index hindex with hold | ⟨-, hne⟩
      · exact hother index hold
      · exact hne rfl
    · refine ⟨hne, hsome, fun index hindex => ?_, hunique⟩
      rcases htarget index hindex with hold | ⟨-, hne'⟩
      · obtain ⟨-, next, -, hpage⟩ := h.finished index (by rwa [hold])
        rw [hold, hfree] at hpage
        cases hpage
      · exact hne' rfl
  · rcases hbefore u hu with hold | ⟨heq', -⟩
    · obtain ⟨hnull, hmapped, hother, honly⟩ := h.owned u page hold
      refine ⟨hnull, ?_, fun index hindex => ?_, hunique⟩
      · rcases program_pages t a c.mem (c.loc t) page with hp | hp | hp
        · rw [hp]
          exact hmapped
        · exact absurd (honly t hp).symm heq
        · rw [hp] at hmapped
          cases hmapped
      · rcases htarget index hindex with hold | ⟨hpage, -⟩
        · exact hother index hold
        · exact heq (honly t hpage).symm
    · exact absurd heq' heq

theorem Inv.own_step (h : Inv tr c) (a : Choice) (u : T) :
    ∃ calls : List Call,
      Threads.own u (tr ++ (program T t a c.mem (c.loc t)).events.map (Prod.mk t))
        = calls.flatMap Call.events ++ ((c.after t (program T t a c.mem (c.loc t))).loc u).shown
      ∧ ∀ call ∈ calls, call.Right (program T t a c.mem (c.loc t)).mem := by
  have hgrows := program_grows t a c.mem (c.loc t)
  obtain ⟨calls, hown, hright⟩ := h.own u
  by_cases hu : u = t
  · subst hu
    rw [Threads.own_concat_self, hown, List.append_assoc, c.after_loc_self]
    rcases program_shown u a c.mem (c.loc u) with heq | ⟨call, hloc, heq, hnil⟩
    · exact ⟨calls, by rw [heq], fun call hcall => hgrows.right (hright call hcall)⟩
    · have hdone := h.assumes u
      rw [hloc] at hdone
      refine ⟨calls ++ [call], ?_, fun other hother => hgrows.right ?_⟩
      · rw [heq, hnil, List.flatMap_append, List.flatMap_singleton, List.append_nil]
      · rcases List.mem_append.mp hother with hold | hnew
        · exact hright other hold
        · rw [List.mem_singleton.mp hnew]
          exact hdone
  · rw [Threads.own_concat_of_ne hu, c.after_loc_of_ne _ hu]
    exact ⟨calls, hown, fun call hcall => hgrows.right (hright call hcall)⟩

/-- **One step.** -/
theorem Inv.step (h : Inv tr c) (a : Choice) (ha : a.site ≠ 0) :
    Inv (tr ++ (program T t a c.mem (c.loc t)).events.map (Prod.mk t))
      (c.after t (program T t a c.mem (c.loc t))) := by
  have hgrows := program_grows t a c.mem (c.loc t)
  refine ⟨h.settled_step a, fun index => h.finished_step a, h.apart_step a,
    fun u page => h.owned_step a, fun u => ?_, fun u site target hmem => ?_,
    fun u site hmem => ?_, h.own_step a⟩
  · by_cases hu : u = t
    · subst hu
      rw [c.after_loc_self]
      exact h.assumes_self a ha
    · rw [c.after_loc_of_ne _ hu]
      refine hgrows.assumes (h.assumes u) fun page hpage => ?_
      obtain ⟨-, hmapped, -, honly⟩ := h.owned u page hpage
      rcases program_pages t a c.mem (c.loc t) page with hp | hp | hp
      · exact hp
      · exact absurd (honly t hp).symm hu
      · rw [hp] at hmapped
        cases hmapped
  · rcases List.mem_append.mp hmem with hold | hnew
    · exact hgrows.stored (h.returned u site target hold)
    · obtain ⟨e, he, heq⟩ := List.mem_map.mp hnew
      cases heq
      obtain ⟨call, hloc, rfl, hresult⟩ :=
        (program_events t a c.mem (c.loc t) he).1 site target rfl
      have hdone := h.assumes t
      rw [hloc] at hdone
      refine hgrows.stored ?_
      cases call with
      | overflow site | full site | unmappable site | unprotectable site page => cases hresult
      | reused site other | built site other =>
        cases hresult
        exact hdone
      | lost site page other =>
        cases hresult
        exact hdone.1
  · rcases List.mem_append.mp hmem with hold | hnew
    · obtain ⟨hne, hnext, index, hindex⟩ := h.failed u site hold
      refine ⟨hne, hnext, index, (hgrows.sites index ?_).trans hindex⟩
      rwa [hindex]
    · obtain ⟨e, he, heq⟩ := List.mem_map.mp hnew
      cases heq
      obtain ⟨hne, hnext, index, hindex⟩ :=
        (program_events t a c.mem (c.loc t) he).2 site rfl (h.assumes t)
      refine ⟨hne, hnext, index, (hgrows.sites index ?_).trans hindex⟩
      rwa [hindex]

end Step

/-! ## Runs -/

section Run

omit [DecidableEq T] in
theorem probes_settled : Probing.Settled probes 0 (fun _ : Slot => (0 : UInt64)) :=
  Probing.settled_const probes 0

theorem inv_start : Inv [] (start T) where
  settled := probes_settled
  finished _ hne := absurd rfl hne
  apart _ _ hne := absurd rfl hne
  owned _ _ h := by cases h
  assumes _ := trivial
  returned _ _ _ h := by cases h
  failed _ _ h := by cases h
  own _ := ⟨[], rfl, nofun⟩

theorem inv_run {s : List (T × Choice)} (hsites : ∀ x ∈ s, x.2.site ≠ 0) :
    Inv (trace (program T) (start T) s) (run (program T) (start T) s) :=
  Threads.run_induct_choices (program T) (Q := fun x => x.2.site ≠ 0) inv_start
    (fun _ _ x hx h => h.step x.2 hx) hsites

end Run

/-! ## Trying again -/

section Again

variable {c : Config T Mem Pc} {t : T} {a : Choice}

/-- The call of the thread, alone from here on, returns a trampoline. -/
def Succeeds (c : Config T Mem Pc) (t : T) (a : Choice) (site : UInt64) : Prop :=
  ∃ target, Threads.WillShow (program T) c t a (.returned site (some target))

theorem Succeeds.next {site : UInt64} {pc : Pc} (hloc : c.loc t = pc)
    (o : Outcome Mem Pc Event) (hout : program T t a c.mem pc = o)
    (h : Succeeds (c.after t o) t a site) : Succeeds c t a site := by
  obtain ⟨target, htarget⟩ := h
  exact ⟨target, htarget.next (program T) hloc hout⟩

end Again

/-! ## What the table is good for -/

/-- A call unmaps the page that it has mapped, once, unless it returns it. -/
def Call.Tidy (call : Call) : Prop :=
  ∀ page, call.before.count (.unmapped page)
    = if .mapped page ∈ call.before ∧ call.result ≠ some page then 1 else 0

/-- A call that returns none has failed to build, or there is no next instruction, or 16384 other
sites are stored. -/
def Call.Excused (m : Mem) (call : Call) : Prop :=
  call.result = none → .build_failed call.site ∈ call.before
    ∨ next_instruction call.site = none
    ∨ call.site ∉ Probing.stored 0 m.sites
      ∧ (Probing.stored 0 m.sites).card = TRAMPOLINE_CAPACITY

structure Sound (tr : List (T × Event)) (c : Config T Mem Pc) : Prop where
  /-- A site has one slot at most. -/
  one_slot : ∀ i j, c.mem.sites i ≠ 0 → c.mem.sites i = c.mem.sites j → i = j
  /-- Calls for one site return one trampoline, and calls for another site another. -/
  one_target : ∀ t u site site' target target', (t, .returned site (some target)) ∈ tr →
    (u, .returned site' (some target')) ∈ tr → (site = site' ↔ target = target')
  /-- A trampoline that was returned is mapped, and has the code for its site. -/
  code : ∀ t site target, (t, .returned site (some target)) ∈ tr →
    ∃ next, next_instruction site = some next ∧ c.mem.pages target
      = some ⟨[.syscall, .movabs_rcx next, .jmp next].flatMap Instr.encode, true⟩
  calls : ∀ t, ∃ calls : List Call, Threads.own t tr = calls.flatMap Call.events ++ (c.loc t).shown
    ∧ ∀ call ∈ calls, call.Tidy ∧ call.Excused c.mem
  /-- Where a build has failed, the next call whose build succeeds has a trampoline. -/
  again : ∀ u site t page, (u, .build_failed site) ∈ tr → c.loc t = .idle →
    c.mem.mmap (some page) = some page → Succeeds c t ⟨site, true, some page, true⟩ site

/-- A full table has as many sites as slots. -/
theorem Full.card {m : Mem} (hsettled : Probing.Settled probes 0 m.sites) {site : UInt64}
    (h : Full m site) : site ∉ Probing.stored 0 m.sites
      ∧ (Probing.stored 0 m.sites).card = TRAMPOLINE_CAPACITY := by
  have hinj : Function.Injective m.sites := fun i j hij => hsettled.unique hij rfl (h j).1
  have hstored : Probing.stored 0 m.sites = Finset.univ.image m.sites := by
    refine Finset.erase_eq_of_notMem fun hmem => ?_
    obtain ⟨index, -, hindex⟩ := Finset.mem_image.mp hmem
    exact (h index).1 hindex
  constructor
  · intro hmem
    obtain ⟨-, index, hindex⟩ := Probing.mem_stored.mp hmem
    exact (h index).2 hindex
  · rw [hstored, Finset.card_image_of_injective _ hinj, Finset.card_univ, Fintype.card_fin]

end Linuwux.Trampolines
