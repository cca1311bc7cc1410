/-
`Int2eFault.lean` -- `skip_int2e_fault` of `runtime/src/syscall/int2e.rs`.

A thread that faults on `int 2e` goes back to the `syscall; ret` before it, or to a trampoline of
its own, or its code is patched, or it is put behind the instruction. The functions here are one
fault after the other; `TrampolineThreads.lean` has the trampolines among several threads, and
[`trampoline_alone`] says that a call there that nobody interrupts does the same.

That no strategy brings the thread back to the same `int 2e` rests on one thing about the table
that is not visible in a single call: no site is its own trampoline ([`Apart`]). The page of a
new trampoline was free when the site was readable.
-/
import Linuwux.Int2ePatch
import Linuwux.TrampolineThreads

set_option autoImplicit false

namespace Linuwux.Int2e

open ProcMem (read_memory)
open Trampolines (Mem Slot Page probe probes)

/-! ## The calls -/

/-- What the kernel answers during a fault. -/
structure Kernel extends Answers where
  /-- `mmap` of a trampoline. -/
  mapped : Option UInt64
  /-- `mprotect` of a trampoline. -/
  protects : Bool

/-- A page that the process has not mapped. -/
def Kernel.fresh (k : Kernel) (p : Process) : Option UInt64 :=
  k.mapped.filter fun page => (p.protection page).isNone

def build_private_trampoline (k : Kernel) (p : Process) (m : Mem) (site next : UInt64) :
    Option UInt64 × Mem :=
  match executable_mapping_protection k.maps (page_of site) PAGE_SIZE.toNat with
  | none => (none, m)
  | some _ =>
    match m.mmap (k.fresh p) with
    | none => (none, m)
    | some page =>
      if k.protects then
        (some page, { m with
          pages := Function.update m.pages page (some ⟨trampoline_code next, true⟩) })
      else (none, { m with pages := Function.update m.pages page none })

def build_or_reuse_private_trampoline (k : Kernel) (p : Process) (m : Mem) (index : Slot)
    (site next : UInt64) : Option UInt64 × Mem :=
  if m.targets index ≠ 0 then (some (m.targets index), m)
  else
    match build_private_trampoline k p m site next with
    | (none, m) => (none, m)
    | (some built, m) =>
      (some built, { m with targets := Function.update m.targets index built })

/-- The loop of `private_syscall_trampoline`, over the slots that are left. -/
def probe_loop (k : Kernel) (p : Process) (m : Mem) (site next : UInt64) :
    List Slot → Option UInt64 × Mem
  | [] => (none, m)
  | index :: rest =>
    if m.sites index = site then build_or_reuse_private_trampoline k p m index site next
    else if m.sites index ≠ 0 then probe_loop k p m site next rest
    else
      build_or_reuse_private_trampoline k p
        { m with sites := Function.update m.sites index site } index site next

def private_syscall_trampoline (k : Kernel) (p : Process) (m : Mem) (site : UInt64) :
    Option UInt64 × Mem :=
  match next_instruction site with
  | none => (none, m)
  | some next => probe_loop k p m site next (probes site)

/-- `gregs` of the signal context. -/
abbrev Gregs := ℕ → UInt64

def REG_RIP : ℕ := 16

def REG_EFL : ℕ := 17

def REG_TRAPNO : ℕ := 20

/-- What a fault leaves. -/
structure Handled where
  handled : Bool
  gregs : Gregs
  process : Process
  mem : Mem

def skip_int2e_fault (k : Kernel) (p : Process) (m : Mem) (gregs : Gregs) : Handled :=
  if gregs REG_TRAPNO ≠ 13 then ⟨false, gregs, p, m⟩
  else if read_memory p.memory (gregs REG_RIP) 2 ≠ some INT2E_INSTRUCTION then
    ⟨false, gregs, p, m⟩
  else
    match preceding_direct_syscall p.memory (gregs REG_RIP) with
    | some syscall_rip =>
      let eflags := direct_path_eflags (gregs REG_EFL)
      ⟨true, Function.update (Function.update gregs REG_EFL eflags) REG_RIP syscall_rip, p, m⟩
    | none =>
      match private_syscall_trampoline k p m (gregs REG_RIP) with
      | (some thunk, m) => ⟨true, Function.update gregs REG_RIP thunk, p, m⟩
      | (none, m) =>
        match patch_to_syscall k.toAnswers p (gregs REG_RIP) with
        | (true, p) => ⟨true, gregs, p, m⟩
        | (false, p) =>
          match next_instruction (gregs REG_RIP) with
          | none => ⟨false, gregs, p, m⟩
          | some next_rip => ⟨true, Function.update gregs REG_RIP next_rip, p, m⟩

/-! ## Sites and their trampolines -/

/-- No site is its own trampoline, and an empty slot has none. -/
def Apart (m : Mem) : Prop :=
  ∀ index, m.targets index ≠ 0 → m.sites index ≠ 0 ∧ m.targets index ≠ m.sites index

section Table

variable {k : Kernel} {p : Process} {m : Mem} {site next : UInt64}

/-- A page that was free is not one that the process has mapped. -/
theorem fresh_ne {page : UInt64} (hfresh : m.mmap (k.fresh p) = some page)
    (hsite : (p.protection (page_of site)).isSome) : page ≠ 0 ∧ page ≠ site := by
  obtain ⟨hanswer, hne, haligned, -⟩ := (Trampolines.mmap_eq_some m).mp hfresh
  unfold Kernel.fresh at hanswer
  rw [Option.filter_eq_some_iff] at hanswer
  refine ⟨hne, ?_⟩
  rintro rfl
  have hpage : page_of page = page := by
    rw [← UInt64.toNat_inj, page_of_toNat]
    have hmod := congrArg UInt64.toNat haligned
    rw [UInt64.toNat_mod] at hmod
    change page.toNat % 4096 = 0 at hmod
    omega
  rw [hpage] at hsite
  rw [Option.isNone_iff_eq_none] at hanswer
  rw [hanswer.2] at hsite
  cases hsite

/-- A new trampoline is a fresh page, and the tables are as they were. -/
theorem build_spec (next : UInt64) (hsite : (p.protection (page_of site)).isSome) :
    (build_private_trampoline k p m site next).2.sites = m.sites
      ∧ (build_private_trampoline k p m site next).2.targets = m.targets
      ∧ ∀ page, (build_private_trampoline k p m site next).1 = some page →
        page ≠ 0 ∧ page ≠ site := by
  unfold build_private_trampoline
  cases executable_mapping_protection k.maps (page_of site) PAGE_SIZE.toNat with
  | none => exact ⟨rfl, rfl, nofun⟩
  | some protection =>
    dsimp only
    cases hmmap : m.mmap (k.fresh p) with
    | none => exact ⟨rfl, rfl, nofun⟩
    | some page =>
      dsimp only
      by_cases hprotects : k.protects
      · rw [if_pos hprotects]
        refine ⟨rfl, rfl, fun page' heq => ?_⟩
        cases heq
        exact fresh_ne hmmap hsite
      · rw [if_neg hprotects]
        exact ⟨rfl, rfl, nofun⟩

theorem reuse_spec {index : Slot} (hsite : (p.protection (page_of site)).isSome) (hne : site ≠ 0)
    (hindex : m.sites index = site) (hapart : Apart m) :
    Apart (build_or_reuse_private_trampoline k p m index site next).2
      ∧ ∀ thunk, (build_or_reuse_private_trampoline k p m index site next).1 = some thunk →
        thunk ≠ site := by
  unfold build_or_reuse_private_trampoline
  by_cases htarget : m.targets index = 0
  · rw [if_neg (not_not.mpr htarget)]
    obtain ⟨hsites, htargets, hbuilt⟩ := build_spec (k := k) (m := m) next hsite
    cases hbuild : build_private_trampoline k p m site next with
    | mk result m' =>
      rw [hbuild] at hsites htargets hbuilt
      dsimp only at hsites htargets hbuilt ⊢
      cases result with
      | none =>
        refine ⟨fun i hi => ?_, nofun⟩
        rw [hsites, htargets] at *
        exact hapart i hi
      | some page =>
        obtain ⟨-, hother⟩ := hbuilt page rfl
        refine ⟨fun i hi => ?_, fun thunk heq => ?_⟩
        · dsimp only at hi ⊢
          rw [htargets] at hi ⊢
          rw [hsites]
          by_cases h : i = index
          · subst h
            rw [Function.update_self, hindex]
            exact ⟨hne, hother⟩
          · rw [Function.update_of_ne h] at hi ⊢
            exact hapart i hi
        · cases heq
          exact hother
  · rw [if_pos htarget]
    refine ⟨hapart, fun thunk heq => ?_⟩
    cases heq
    rw [← hindex]
    exact (hapart index htarget).2

theorem probe_loop_spec (slots : List Slot) (hsite : (p.protection (page_of site)).isSome)
    (hne : site ≠ 0) (hapart : Apart m) : Apart (probe_loop k p m site next slots).2
      ∧ ∀ thunk, (probe_loop k p m site next slots).1 = some thunk → thunk ≠ site := by
  induction slots with
  | nil => exact ⟨hapart, nofun⟩
  | cons index rest ih =>
    rw [probe_loop]
    by_cases hfound : m.sites index = site
    · rw [if_pos hfound]
      exact reuse_spec hsite hne hfound hapart
    · rw [if_neg hfound]
      by_cases hempty : m.sites index = 0
      · rw [if_neg (not_not.mpr hempty)]
        refine reuse_spec hsite hne (Function.update_self ..) fun i hi => ?_
        dsimp only at hi ⊢
        by_cases h : i = index
        · -- An empty slot has no trampoline yet.
          subst h
          exact absurd hempty (hapart i hi).1
        · rw [Function.update_of_ne h]
          exact hapart i hi
      · rw [if_pos hempty]
        exact ih

theorem private_syscall_trampoline_spec (hsite : (p.protection (page_of site)).isSome)
    (hne : site ≠ 0) (hapart : Apart m) : Apart (private_syscall_trampoline k p m site).2
      ∧ ∀ thunk, (private_syscall_trampoline k p m site).1 = some thunk → thunk ≠ site := by
  unfold private_syscall_trampoline
  cases next_instruction site with
  | none => exact ⟨hapart, nofun⟩
  | some next => exact probe_loop_spec _ hsite hne hapart

end Table

/-! ## A fault -/

section Fault

variable (k : Kernel) (p : Process) (m : Mem) (gregs : Gregs)

/-- CF, PF, ZF, SF and OF. -/
def TEST_FLAGS : UInt64 := 0x8c5

/-- Neither the thunk nor a trampoline nor patching. -/
def NoStrategy : Prop :=
  preceding_direct_syscall p.memory (gregs REG_RIP) = none
    ∧ (private_syscall_trampoline k p m (gregs REG_RIP)).1 = none
    ∧ (patch_to_syscall k.toAnswers p (gregs REG_RIP)).1 = false

/-- What is asked of a fault, given what it leaves. -/
structure Resumes (left : Handled) : Prop where
  refuses : left.handled = false ↔ gregs REG_TRAPNO ≠ 13
    ∨ read_memory p.memory (gregs REG_RIP) 2 ≠ some INT2E_INSTRUCTION
    ∨ NoStrategy k p m gregs ∧ next_instruction (gregs REG_RIP) = none
  refused : left.handled = false → left.gregs = gregs ∧ left.process = p
  /-- The thread does not come back to the same `int 2e`. -/
  progress : left.handled = true → left.gregs REG_RIP ≠ gregs REG_RIP
    ∨ left.process.bytes (gregs REG_RIP) = 0x0f ∧ left.process.bytes (gregs REG_RIP + 1) = 0x05
  context : ∀ reg, reg ≠ REG_RIP → reg ≠ REG_EFL → left.gregs reg = gregs reg
  eflags : left.gregs REG_EFL &&& ~~~TEST_FLAGS = gregs REG_EFL &&& ~~~TEST_FLAGS
    ∧ (preceding_direct_syscall p.memory (gregs REG_RIP) = none →
      left.gregs REG_EFL = gregs REG_EFL)
  /-- Code is changed only if nothing else is there. -/
  code : left.process.bytes ≠ p.bytes →
    preceding_direct_syscall p.memory (gregs REG_RIP) = none
      ∧ (private_syscall_trampoline k p m (gregs REG_RIP)).1 = none

variable {k p m gregs}

/-- The flags that the direct path's `test` leaves differ in five bits at most. -/
theorem direct_path_eflags_keeps (eflags : UInt64) :
    direct_path_eflags eflags &&& ~~~TEST_FLAGS = eflags &&& ~~~TEST_FLAGS := by
  have hset : TEST_ZERO_SET_FLAGS &&& ~~~TEST_FLAGS = 0 := by decide
  have hclear : ~~~TEST_ZERO_CLEAR_FLAGS &&& ~~~TEST_FLAGS = ~~~TEST_FLAGS := by decide
  have hdistrib : direct_path_eflags eflags &&& ~~~TEST_FLAGS
      = eflags &&& ~~~TEST_ZERO_CLEAR_FLAGS &&& ~~~TEST_FLAGS
        ||| TEST_ZERO_SET_FLAGS &&& ~~~TEST_FLAGS :=
    UInt64.toBitVec_inj.mp BitVec.and_or_distrib_right
  rw [hdistrib, hset, UInt64.or_zero, UInt64.and_assoc, hclear]

theorem preceding_eq_some {rip start : UInt64}
    (h : preceding_direct_syscall p.memory rip = some start) : start ≠ rip := by
  unfold preceding_direct_syscall at h
  cases hsub : checked_sub rip DIRECT_SYSCALL_THUNK.length with
  | none =>
    rw [hsub] at h
    cases h
  | some start' =>
    rw [hsub] at h
    dsimp only at h
    rw [Option.ite_none_right_eq_some] at h
    cases h.2
    unfold checked_sub at hsub
    rw [Option.ite_none_right_eq_some] at hsub
    obtain ⟨hle, hsub⟩ := hsub
    cases hsub
    intro heq
    change 3 ≤ rip.toNat at hle
    have hnat : (rip - 3).toNat = rip.toNat - 3 :=
      UInt64.toNat_sub_of_le rip 3 (UInt64.le_iff_toNat_le.mpr hle)
    change rip - 3 = rip at heq
    rw [heq] at hnat
    omega

/-- An instruction that can be read is in a mapped page. -/
theorem mapped_of_read {rip : UInt64}
    (hread : read_memory p.memory rip 2 = some INT2E_INSTRUCTION) :
    (p.protection (page_of rip)).isSome := by
  obtain ⟨-, -, h0, -⟩ := read_memory_two.mp hread
  obtain ⟨hany, -⟩ := Process.memory_eq_some.mp h0
  cases hpage : p.protection (page_of rip) with
  | none =>
    rw [hpage] at hany
    cases hany
  | some protection => rfl

/-- A fault that is no `int 2e`. -/
theorem resumes_unrelated (h : gregs REG_TRAPNO ≠ 13
    ∨ read_memory p.memory (gregs REG_RIP) 2 ≠ some INT2E_INSTRUCTION) :
    Resumes k p m gregs ⟨false, gregs, p, m⟩ where
  refuses := iff_of_true rfl (h.imp_right Or.inl)
  refused _ := ⟨rfl, rfl⟩
  progress := nofun
  context _ _ _ := rfl
  eflags := ⟨rfl, fun _ => rfl⟩
  code hne := absurd rfl hne

section Int2e

variable (htrap : gregs REG_TRAPNO = 13)
  (hread : read_memory p.memory (gregs REG_RIP) 2 = some INT2E_INSTRUCTION)
include htrap hread

/-- Of an `int 2e` only one without a strategy is refused. -/
theorem refuses_iff {left : Handled}
    (h : left.handled = false ↔ NoStrategy k p m gregs ∧ next_instruction (gregs REG_RIP) = none) :
    left.handled = false ↔ gregs REG_TRAPNO ≠ 13
      ∨ read_memory p.memory (gregs REG_RIP) 2 ≠ some INT2E_INSTRUCTION
      ∨ NoStrategy k p m gregs ∧ next_instruction (gregs REG_RIP) = none := by
  rw [h, or_iff_right (not_not.mpr htrap), or_iff_right (not_not.mpr hread)]

theorem resumes_rewound {syscall_rip : UInt64}
    (hrewind : preceding_direct_syscall p.memory (gregs REG_RIP) = some syscall_rip) :
    Resumes k p m gregs ⟨true, Function.update (Function.update gregs REG_EFL
      (direct_path_eflags (gregs REG_EFL))) REG_RIP syscall_rip, p, m⟩ where
  refuses := refuses_iff htrap hread (iff_of_false nofun fun h => by
    rw [h.1.1] at hrewind
    cases hrewind)
  refused := nofun
  progress _ := by
    left
    dsimp only
    rw [Function.update_self]
    exact preceding_eq_some hrewind
  context reg hrip hefl := (Function.update_of_ne hrip ..).trans (Function.update_of_ne hefl ..)
  eflags := by
    dsimp only
    rw [Function.update_of_ne (by decide), Function.update_self, hrewind]
    exact ⟨direct_path_eflags_keeps _, nofun⟩
  code hne := absurd rfl hne

theorem resumes_trampoline (hapart : Apart m) {thunk : UInt64}
    (hthunk : (private_syscall_trampoline k p m (gregs REG_RIP)).1 = some thunk) (m' : Mem) :
    Resumes k p m gregs ⟨true, Function.update gregs REG_RIP thunk, p, m'⟩ where
  refuses := refuses_iff htrap hread (iff_of_false nofun fun h => by
    rw [h.1.2.1] at hthunk
    cases hthunk)
  refused := nofun
  progress _ := by
    left
    dsimp only
    rw [Function.update_self]
    exact (private_syscall_trampoline_spec (mapped_of_read hread) (read_memory_two.mp hread).1
      hapart).2 thunk hthunk
  context reg hrip _ := Function.update_of_ne hrip ..
  eflags := by
    dsimp only
    rw [Function.update_of_ne (by decide)]
    exact ⟨rfl, fun _ => rfl⟩
  code hne := absurd rfl hne

section Patch

variable (hnone : preceding_direct_syscall p.memory (gregs REG_RIP) = none)
  (hno_thunk : (private_syscall_trampoline k p m (gregs REG_RIP)).1 = none)
include hnone hno_thunk

theorem resumes_patched (hpatch : (patch_to_syscall k.toAnswers p (gregs REG_RIP)).1 = true)
    (m' : Mem) :
    Resumes k p m gregs ⟨true, gregs, (patch_to_syscall k.toAnswers p (gregs REG_RIP)).2, m'⟩ where
  refuses := refuses_iff htrap hread (iff_of_false nofun fun h => by
    rw [h.1.2.2] at hpatch
    cases hpatch)
  refused := nofun
  progress _ := Or.inr (patch_true hpatch)
  context _ _ _ := rfl
  eflags := ⟨rfl, fun _ => rfl⟩
  code _ := ⟨hnone, hno_thunk⟩

theorem resumes_advanced {next_rip : UInt64}
    (hnext : next_instruction (gregs REG_RIP) = some next_rip) (p' : Process) (m' : Mem) :
    Resumes k p m gregs ⟨true, Function.update gregs REG_RIP next_rip, p', m'⟩ where
  refuses := refuses_iff htrap hread (iff_of_false nofun fun h => by
    rw [h.2] at hnext
    cases hnext)
  refused := nofun
  progress _ := by
    left
    dsimp only
    rw [Function.update_self]
    rintro rfl
    have hnat := next_instruction_eq_some.mp hnext
    omega
  context reg hrip _ := Function.update_of_ne hrip ..
  eflags := by
    dsimp only
    rw [Function.update_of_ne (by decide)]
    exact ⟨rfl, fun _ => rfl⟩
  code _ := ⟨hnone, hno_thunk⟩

theorem resumes_stuck (hpatch : (patch_to_syscall k.toAnswers p (gregs REG_RIP)).1 = false)
    (hnext : next_instruction (gregs REG_RIP) = none) (m' : Mem) :
    Resumes k p m gregs
      ⟨false, gregs, (patch_to_syscall k.toAnswers p (gregs REG_RIP)).2, m'⟩ where
  refuses := refuses_iff htrap hread (iff_of_true rfl ⟨⟨hnone, hno_thunk, hpatch⟩, hnext⟩)
  refused _ := ⟨rfl, by rw [patch_at_end hnext]⟩
  progress := nofun
  context _ _ _ := rfl
  eflags := ⟨rfl, fun _ => rfl⟩
  code _ := ⟨hnone, hno_thunk⟩

end Patch

end Int2e

/-- A fault does what is asked of it, given that no site is its own trampoline, and leaves the
table so. -/
theorem skip_int2e_fault_spec (k : Kernel) (p : Process) (gregs : Gregs) (hapart : Apart m) :
    Resumes k p m gregs (skip_int2e_fault k p m gregs)
      ∧ Apart (skip_int2e_fault k p m gregs).mem := by
  unfold skip_int2e_fault
  by_cases htrap : gregs REG_TRAPNO = 13
  · by_cases hread : read_memory p.memory (gregs REG_RIP) 2 = some INT2E_INSTRUCTION
    · rw [if_neg (not_not.mpr htrap), if_neg (not_not.mpr hread)]
      cases hrewind : preceding_direct_syscall p.memory (gregs REG_RIP) with
      | some syscall_rip => exact ⟨resumes_rewound htrap hread hrewind, hapart⟩
      | none =>
        have hspec := private_syscall_trampoline_spec (k := k) (mapped_of_read hread)
          (read_memory_two.mp hread).1 hapart
        dsimp only
        cases htramp : private_syscall_trampoline k p m (gregs REG_RIP) with
        | mk result m' =>
          rw [htramp] at hspec
          have hfst := congrArg Prod.fst htramp
          cases result with
          | some thunk => exact ⟨resumes_trampoline htrap hread hapart hfst m', hspec.1⟩
          | none =>
            dsimp only
            cases hpatch : patch_to_syscall k.toAnswers p (gregs REG_RIP) with
            | mk patched p' =>
              have hpatched := congrArg Prod.fst hpatch
              have hprocess : (patch_to_syscall k.toAnswers p (gregs REG_RIP)).2 = p' :=
                congrArg Prod.snd hpatch
              cases patched with
              | true =>
                have h := resumes_patched htrap hread hrewind hfst hpatched m'
                rw [hprocess] at h
                exact ⟨h, hspec.1⟩
              | false =>
                dsimp only
                cases hnext : next_instruction (gregs REG_RIP) with
                | none =>
                  have h := resumes_stuck htrap hread hrewind hfst hpatched hnext m'
                  rw [hprocess] at h
                  exact ⟨h, hspec.1⟩
                | some next_rip =>
                  exact ⟨resumes_advanced htrap hread hrewind hfst hnext p' m', hspec.1⟩
    · rw [if_neg (not_not.mpr htrap), if_pos hread]
      exact ⟨resumes_unrelated (Or.inr hread), hapart⟩
  · rw [if_pos htrap]
    exact ⟨resumes_unrelated (Or.inl htrap), hapart⟩

end Fault

/-! ## Faults one after the other -/

/-- A fault: what the kernel answers, and the process and the context as they are then. -/
structure Fault where
  kernel : Kernel
  process : Process
  gregs : Gregs

/-- The table after some faults; what the program does in between is in the processes. -/
def mem_after (faults : List Fault) : Mem :=
  faults.foldl (fun m fault => (skip_int2e_fault fault.kernel fault.process m fault.gregs).mem) .new

theorem apart_mem_after (faults : List Fault) : Apart (mem_after faults) := by
  unfold mem_after
  induction faults using List.reverseRecOn with
  | nil => exact fun _ hne => absurd rfl hne
  | append_singleton faults fault ih =>
    rw [List.foldl_append]
    exact (skip_int2e_fault_spec fault.kernel fault.process fault.gregs ih).2

/-- **Faults on `int 2e`.** After any faults, whatever the memory, the context and the kernel's
answers are. -/
theorem int2e_faults_resume (faults : List Fault) (k : Kernel) (p : Process) (gregs : Gregs) :
    Resumes k p (mem_after faults) gregs (skip_int2e_fault k p (mem_after faults) gregs) :=
  (skip_int2e_fault_spec k p gregs (apart_mem_after faults)).1

/-! ## The table among other threads -/

section Alone

variable {T : Type*} [DecidableEq T] {t : T} {a : Trampolines.Choice} {m m₁ : Mem}
  {pc pc₁ : Trampolines.Pc} {site : UInt64} {r : Option UInt64 × Mem}

/-- The steps of the table see what the kernel answers. -/
structure Sees (k : Kernel) (p : Process) (a : Trampolines.Choice) : Prop where
  executable : a.executable
    = (executable_mapping_protection k.maps (page_of a.site) PAGE_SIZE.toNat).isSome
  mapped : a.mapped = k.fresh p
  protects : a.protects = k.protects

/-- Thread `t`, at `pc` and with nobody else moving, returns `r.1` and leaves the table `r.2`. -/
def Returns (t : T) (a : Trampolines.Choice) (m : Mem) (pc : Trampolines.Pc) (site : UInt64)
    (r : Option UInt64 × Mem) : Prop :=
  ∃ es, Threads.Completes (Trampolines.program T) Trampolines.Pc.idle t a m pc
    (es ++ [Trampolines.Event.returned site r.1]) r.2

theorem Returns.go (es : List Trampolines.Event)
    (h : Trampolines.program T t a m pc = ⟨m₁, pc₁, es⟩) (hrest : Returns t a m₁ pc₁ site r) :
    Returns t a m pc site r :=
  Threads.Completes.ends_next (Trampolines.program T) h hrest

theorem Returns.done (call : Trampolines.Call) :
    Returns t a m (.done call) call.site (call.result, m) :=
  ⟨[], .next _ ⟨m, Trampolines.Pc.idle, [Trampolines.Event.returned call.site call.result]⟩ rfl
    (.refl _ Trampolines.Pc.idle t a m)⟩

variable {k : Kernel} {p : Process} {s : Trampolines.Site} {index : Slot}

/-- The table with one page changed. -/
def with_page (m : Mem) (page : UInt64) (q : Option Page) : Mem :=
  { m with pages := Function.update m.pages page q }

theorem build_alone (hsees : Sees k p a) (hsite : a.site = s.address)
    (htarget : m.targets index = 0) :
    Returns t a m (.check s index) s.address
      (build_or_reuse_private_trampoline k p m index s.address s.next) := by
  have hexec := hsees.executable
  rw [hsite] at hexec
  unfold build_or_reuse_private_trampoline build_private_trampoline
  rw [if_neg (not_not.mpr htarget)]
  cases hmapping : executable_mapping_protection k.maps (page_of s.address) PAGE_SIZE.toNat with
  | none =>
    rw [hmapping] at hexec
    have hcheck : Trampolines.program T t a m (.check s index)
        = ⟨m, .done (.unmappable s.address), [.build_failed s.address]⟩ :=
      if_neg (by rw [hexec]; exact Bool.false_ne_true)
    exact .go _ hcheck (.done (.unmappable s.address))
  | some protection =>
    rw [hmapping] at hexec
    have hcheck : Trampolines.program T t a m (.check s index) = ⟨m, .map s index, []⟩ :=
      if_pos hexec
    refine .go _ hcheck ?_
    dsimp only
    rw [← hsees.mapped, ← hsees.protects]
    cases hmmap : m.mmap a.mapped with
    | none =>
      have hmap : Trampolines.program T t a m (.map s index)
          = ⟨m, .done (.unmappable s.address), [.build_failed s.address]⟩ := by
        unfold Trampolines.program
        dsimp only
        rw [hmmap]
      exact .go _ hmap (.done (.unmappable s.address))
    | some page =>
      have hmap : Trampolines.program T t a m (.map s index)
          = ⟨with_page m page (some .fresh), .write s index page, [.mapped page]⟩ := by
        unfold Trampolines.program
        dsimp only
        rw [hmmap]
        rfl
      have hwrite : Trampolines.program T t a (with_page m page (some .fresh))
            (.write s index page)
          = ⟨with_page m page (some ⟨trampoline_code s.next, false⟩), .protect s index page,
            []⟩ := by
        unfold Trampolines.program with_page
        dsimp only
        rw [Function.update_self, Function.update_idem]
        rfl
      refine .go _ hmap (.go _ hwrite ?_)
      dsimp only
      by_cases hprotects : a.protects
      · have hprotect : Trampolines.program T t a
              (with_page m page (some ⟨trampoline_code s.next, false⟩)) (.protect s index page)
            = ⟨with_page m page (some ⟨trampoline_code s.next, true⟩), .publish s index page,
              []⟩ := by
          unfold Trampolines.program with_page
          dsimp only
          rw [if_pos hprotects, Function.update_self, Function.update_idem]
          rfl
        rw [if_pos hprotects]
        exact .go _ hprotect (.go _ (if_pos htarget) (.done (.built s.address page)))
      · have hprotect : Trampolines.program T t a
              (with_page m page (some ⟨trampoline_code s.next, false⟩)) (.protect s index page)
            = ⟨with_page m page (some ⟨trampoline_code s.next, false⟩), .discard s page,
              [.build_failed s.address]⟩ := if_neg hprotects
        have hdiscard : Trampolines.program T t a
              (with_page m page (some ⟨trampoline_code s.next, false⟩)) (.discard s page)
            = ⟨with_page m page none, .done (.unprotectable s.address page),
              [.unmapped page]⟩ := by
          unfold Trampolines.program with_page
          dsimp only
          rw [Function.update_idem]
        rw [if_neg hprotects]
        exact .go _ hprotect (.go _ hdiscard (.done (.unprotectable s.address page)))

/-- A call that has found its slot. -/
theorem reuse_alone (hsees : Sees k p a) (hsite : a.site = s.address) :
    Returns t a m (.load_target s index) s.address
      (build_or_reuse_private_trampoline k p m index s.address s.next) := by
  by_cases htarget : m.targets index = 0
  · have hload : Trampolines.program T t a m (.load_target s index) = ⟨m, .check s index, []⟩ :=
      if_neg (not_not.mpr htarget)
    exact .go _ hload (build_alone hsees hsite htarget)
  · have hload : Trampolines.program T t a m (.load_target s index)
        = ⟨m, .done (.reused s.address (m.targets index)), []⟩ := if_pos htarget
    unfold build_or_reuse_private_trampoline
    rw [if_pos htarget]
    exact .go _ hload (.done (.reused s.address (m.targets index)))

theorem drop_finRange (offset : Slot) :
    (List.finRange TRAMPOLINE_CAPACITY).drop offset.val
      = offset :: (List.finRange TRAMPOLINE_CAPACITY).drop (offset.val + 1) := by
  have hlt : offset.val < (List.finRange TRAMPOLINE_CAPACITY).length := by
    rw [List.length_finRange]
    exact offset.isLt
  rw [List.drop_eq_getElem_cons hlt, List.getElem_finRange]
  rfl

/-- The probe from an offset on; the induction is on how many offsets are left. -/
theorem probe_alone (hsees : Sees k p a) (hsite : a.site = s.address) (n : ℕ) {offset : Slot}
    (hn : offset.val + n + 1 = TRAMPOLINE_CAPACITY) :
    Returns t a m (.load_site s offset) s.address (probe_loop k p m s.address s.next
      (((List.finRange TRAMPOLINE_CAPACITY).drop offset.val).map (probe s.address))) := by
  rw [drop_finRange, List.map_cons, probe_loop]
  by_cases hfound : m.sites (probe s.address offset) = s.address
  · have hload : Trampolines.program T t a m (.load_site s offset)
        = ⟨m, .load_target s (probe s.address offset), []⟩ := if_pos hfound
    rw [if_pos hfound]
    exact .go _ hload (reuse_alone hsees hsite)
  · rw [if_neg hfound]
    by_cases hempty : m.sites (probe s.address offset) = 0
    · have hload : Trampolines.program T t a m (.load_site s offset) = ⟨m, .claim s offset, []⟩ :=
        (if_neg hfound).trans (if_neg (not_not.mpr hempty))
      have hclaim : Trampolines.program T t a m (.claim s offset)
          = ⟨{ m with sites := Function.update m.sites (probe s.address offset) s.address },
            .load_target s (probe s.address offset), []⟩ := if_pos hempty
      rw [if_neg (not_not.mpr hempty)]
      exact .go _ hload (.go _ hclaim (reuse_alone hsees hsite))
    · have hload : Trampolines.program T t a m (.load_site s offset)
          = ⟨m, .probe_on s offset, []⟩ := (if_neg hfound).trans (if_pos hempty)
      rw [if_pos hempty]
      refine .go _ hload ?_
      unfold Trampolines.Pc.probe_on
      cases n with
      | zero =>
        have hlast : ¬ offset.val + 1 < TRAMPOLINE_CAPACITY := by omega
        have hnil : (List.finRange TRAMPOLINE_CAPACITY).drop (offset.val + 1) = [] := by
          refine List.drop_of_length_le ?_
          rw [List.length_finRange]
          omega
        rw [dif_neg hlast, hnil, List.map_nil, probe_loop]
        exact .done (.full s.address)
      | succ n =>
        have hlt : offset.val + 1 < TRAMPOLINE_CAPACITY := by omega
        rw [dif_pos hlt]
        exact probe_alone hsees hsite n (by dsimp only; omega)

/-- **A call alone.** Nobody interrupts, so the steps of `TrampolineThreads.lean` return what
`private_syscall_trampoline` computes and leave the table it leaves. -/
theorem trampoline_alone (hsees : Sees k p a) :
    Returns t a m .idle a.site (private_syscall_trampoline k p m a.site) := by
  have hidle : Trampolines.program T t a m .idle = ⟨m, .start a.site, [.called a.site]⟩ := rfl
  refine .go _ hidle ?_
  unfold private_syscall_trampoline
  cases hnext : next_instruction a.site with
  | none =>
    have hstart : Trampolines.program T t a m (.start a.site)
        = ⟨m, .done (.overflow a.site), []⟩ := by
      unfold Trampolines.program
      dsimp only
      split
      · rfl
      · rename_i next h
        rw [hnext] at h
        cases h
    exact .go _ hstart (.done (.overflow a.site))
  | some next =>
    have hstart : Trampolines.program T t a m (.start a.site)
        = ⟨m, .load_site ⟨a.site, next, hnext⟩ Trampolines.first, []⟩ := by
      unfold Trampolines.program
      dsimp only
      split
      · rename_i h
        rw [hnext] at h
        cases h
      · rename_i other h
        cases hnext.symm.trans h
        rfl
    have hfirst : Trampolines.first.val = 0 := rfl
    have hprobes : probes a.site
        = ((List.finRange TRAMPOLINE_CAPACITY).drop Trampolines.first.val).map (probe a.site) := by
      rw [hfirst, List.drop_zero]
      rfl
    have hall : Trampolines.first.val + 16383 + 1 = TRAMPOLINE_CAPACITY := by
      rw [hfirst]
      unfold TRAMPOLINE_CAPACITY
      omega
    refine .go _ hstart ?_
    rw [hprobes]
    exact probe_alone (s := ⟨a.site, next, hnext⟩) hsees rfl 16383 hall

end Alone

end Linuwux.Int2e
