/-
`LateHooks.lean` -- when the IAT scan is repeated, and what it then misses.

`maybe_scan_main_image_iat` is called on every dispatcher entry. It scans on a schedule, at
attempt 0, at powers of two and at multiples of 1024, but only while the stub set is empty:
the first scan that stores a stub is the last one. Trampolines that Reflex writes after that
are never found, although the schedule was made for late hooks.

A run is a list of dispatcher entries, each with the process as it is then. [`late_hooks_iff`]
says for which runs the stub set catches up with an IAT that stays as it is.
-/
import Linuwux.IatScan

set_option autoImplicit false

namespace Linuwux.LateHooks

open IatScan (Process iat_destinations scan_main_image_iat_locked)
open StubSet (Stubs IAT_CAPACITY store)

def IAT_SCAN_MAX_RETRY_INTERVAL : UInt64 := 1024

/-! ## The scanner -/

/-- `u64::is_power_of_two`. -/
def is_power_of_two (n : UInt64) : Bool := n != 0 && n &&& (n - 1) == 0

def should_retry_iat_scan (attempt : UInt64) : Bool :=
  attempt == 0 || is_power_of_two attempt || attempt % IAT_SCAN_MAX_RETRY_INTERVAL == 0

/-- The stub set, `IAT_SCAN_ATTEMPTS` and `IAT_SCAN_LOCK`. -/
structure Scanner where
  stubs : Stubs
  attempts : UInt64
  lock : Bool

def Scanner.new : Scanner := ⟨.new, 0, false⟩

/-- A dispatcher entry: the process as it is, and `REFLEX_IMAGE_START`. -/
structure Hit where
  process : Process
  reflex_image_start : UInt64

def scan_main_image_iat (s : Scanner) (p : Process) : ℕ × Scanner :=
  -- Another thread is scanning, and its scan will do.
  if s.lock then (0, s)
  else
    let (found, stubs) := scan_main_image_iat_locked p StubSet.remember_stub s.stubs
    (found, { s with stubs := stubs, lock := false })

def maybe_scan_main_image_iat (s : Scanner) (h : Hit) : Scanner :=
  if s.stubs.count ≠ 0 ∨ h.reflex_image_start = 0 then s
  else
    let attempt := s.attempts
    let s := { s with attempts := attempt + 1 }
    if should_retry_iat_scan attempt then (scan_main_image_iat s h.process).2 else s

/-- The scanner after these dispatcher entries. -/
def run (hits : List Hit) : Scanner := hits.foldl maybe_scan_main_image_iat .new

theorem run_append (history stable : List Hit) :
    run (history ++ stable) = stable.foldl maybe_scan_main_image_iat (run history) :=
  List.foldl_append ..

/-! ## What a scan stores -/

theorem foldl_pass (destinations : List UInt64) (acc : ℕ × Stubs) :
    (destinations.foldl (IatScan.pass StubSet.remember_stub) acc).2
      = StubSet.remember_stubs acc.2 destinations := by
  induction destinations generalizing acc with
  | nil => rfl
  | cons destination destinations ih => exact ih _

/-- With room for them all, the nonzero destinations are stored. -/
theorem foldl_store (destinations : List UInt64) (S : Finset UInt64)
    (h : (S ∪ destinations.toFinset.erase 0).card ≤ IAT_CAPACITY) :
    destinations.foldl store S = S ∪ destinations.toFinset.erase 0 := by
  induction destinations generalizing S with
  | nil => simp
  | cons d destinations ih =>
    rw [List.foldl_cons]
    by_cases hd : d = 0
    · -- Zero is not stored.
      have hset : (d :: destinations).toFinset.erase 0 = destinations.toFinset.erase 0 := by
        rw [List.toFinset_cons, hd, Finset.erase_insert_eq_erase]
      have hstore : store S d = S := if_neg fun hin => hin.1 hd
      rw [hset] at h ⊢
      rw [hstore, ih S h]
    · have hset : S ∪ (d :: destinations).toFinset.erase 0
          = insert d S ∪ destinations.toFinset.erase 0 := by
        rw [List.toFinset_cons, Finset.erase_insert_of_ne hd, Finset.union_insert,
          Finset.insert_union]
      have hstore : store S d = insert d S := by
        unfold store
        by_cases hroom : S.card < IAT_CAPACITY
        · rw [if_pos ⟨hd, hroom⟩]
        · -- The set is full, so the address must be in it.
          rw [if_neg fun hin => hroom hin.2]
          have hsub : S ⊆ S ∪ (d :: destinations).toFinset.erase 0 := Finset.subset_union_left
          have heq := Finset.eq_of_subset_of_card_le hsub (by omega)
          have hmem : d ∈ S := by
            rw [heq, hset]
            exact Finset.mem_union_left _ (Finset.mem_insert_self d S)
          rw [Finset.insert_eq_of_mem hmem]
      rw [hset] at h ⊢
      rw [hstore, ih (insert d S) h]

/-- The scanner between two dispatcher entries. -/
structure Scanner.Ok (s : Scanner) : Prop where
  stubs : s.stubs.Ok
  unlocked : s.lock = false

/-- What one dispatcher entry can do: nothing, count an attempt, or scan. -/
theorem maybe_scan_cases {s : Scanner} (h : s.Ok) (hit : Hit) :
    ((s.stubs.count ≠ 0 ∨ hit.reflex_image_start = 0) ∧ maybe_scan_main_image_iat s hit = s)
      ∨ (s.stubs.count = 0 ∧ hit.reflex_image_start ≠ 0
        ∧ should_retry_iat_scan s.attempts = false
        ∧ maybe_scan_main_image_iat s hit = { s with attempts := s.attempts + 1 })
      ∨ (s.stubs.count = 0 ∧ hit.reflex_image_start ≠ 0
        ∧ should_retry_iat_scan s.attempts = true
        ∧ maybe_scan_main_image_iat s hit = ⟨StubSet.remember_stubs s.stubs
          (iat_destinations hit.process), s.attempts + 1, false⟩) := by
  unfold maybe_scan_main_image_iat
  split
  · rename_i hout
    exact Or.inl ⟨hout, rfl⟩
  · rename_i hout
    obtain ⟨hcount, hstart⟩ := not_or.mp hout
    have hcount := not_not.mp hcount
    dsimp only
    cases hretry : should_retry_iat_scan s.attempts with
    | false => exact Or.inr (Or.inl ⟨hcount, hstart, rfl, rfl⟩)
    | true =>
      refine Or.inr (Or.inr ⟨hcount, hstart, rfl, ?_⟩)
      rw [if_pos rfl, scan_main_image_iat, if_neg (by simp [h.unlocked]),
        IatScan.scan_locked_eq]
      exact congrArg (Scanner.mk · (s.attempts + 1) false) (foldl_pass _ _)

theorem Scanner.Ok.step {s : Scanner} (h : s.Ok) (hit : Hit) :
    (maybe_scan_main_image_iat s hit).Ok := by
  rcases maybe_scan_cases h hit with ⟨-, he⟩ | ⟨-, -, -, he⟩ | ⟨-, -, -, he⟩
  · rwa [he]
  · rw [he]
    exact ⟨h.stubs, h.unlocked⟩
  · rw [he]
    exact ⟨(h.stubs.remember_stubs _).1, rfl⟩

theorem Scanner.Ok.steps {s : Scanner} (h : s.Ok) (hits : List Hit) :
    (hits.foldl maybe_scan_main_image_iat s).Ok := by
  induction hits generalizing s with
  | nil => exact h
  | cons hit hits ih => exact ih (h.step hit)

theorem ok_run (hits : List Hit) : (run hits).Ok :=
  Scanner.Ok.steps ⟨StubSet.ok_new, rfl⟩ hits

/-! ## An IAT that stays -/

/-- Among 1024 attempts in a row there is one that scans. -/
theorem exists_retry (attempt : UInt64) :
    ∃ j < 1024, should_retry_iat_scan (attempt + .ofNat j) = true := by
  refine ⟨(1024 - attempt.toNat % 1024) % 1024, Nat.mod_lt _ (by decide), ?_⟩
  have hmod : (attempt + UInt64.ofNat ((1024 - attempt.toNat % 1024) % 1024))
      % IAT_SCAN_MAX_RETRY_INTERVAL = 0 := by
    apply UInt64.toNat_inj.mp
    rw [UInt64.toNat_mod, UInt64.toNat_add, UInt64.toNat_ofNat']
    change _ % 1024 = 0
    have hlt := attempt.toNat_lt
    omega
  unfold should_retry_iat_scan
  rw [hmod]
  simp

section Stable

variable {destinations : List UInt64} {stable : List Hit}

/-- Once something is stored, no entry changes anything. -/
theorem steps_of_count {s : Scanner} (h : s.Ok) (hcount : s.stubs.count ≠ 0) (hits : List Hit) :
    hits.foldl maybe_scan_main_image_iat s = s := by
  induction hits with
  | nil => rfl
  | cons hit hits ih =>
    rcases maybe_scan_cases h hit with ⟨-, he⟩ | ⟨h0, -⟩ | ⟨h0, -⟩
    · rw [List.foldl_cons, he, ih]
    · exact absurd h0 hcount
    · exact absurd h0 hcount

/-- A scan of an empty set stores the nonzero destinations. -/
theorem stored_scan {s : Scanner} (h : s.Ok) (hempty : s.stubs.stored = ∅)
    (hcap : destinations.toFinset.card ≤ IAT_CAPACITY) :
    (StubSet.remember_stubs s.stubs destinations).stored = destinations.toFinset.erase 0 := by
  rw [(h.stubs.remember_stubs destinations).2, hempty, foldl_store, Finset.empty_union]
  rw [Finset.empty_union]
  exact (Finset.card_le_card (Finset.erase_subset _ _)).trans hcap

variable (hcap : destinations.toFinset.card ≤ IAT_CAPACITY)
include hcap

/-- What is stored stays right while the IAT stays as it is. -/
theorem stored_step {s : Scanner} (h : s.Ok) {hit : Hit}
    (hhit : iat_destinations hit.process = destinations)
    (hs : s.stubs.stored = destinations.toFinset.erase 0) :
    (maybe_scan_main_image_iat s hit).stubs.stored = destinations.toFinset.erase 0 := by
  rcases maybe_scan_cases h hit with ⟨-, he⟩ | ⟨-, -, -, he⟩ | ⟨h0, -, -, he⟩
  · rw [he, hs]
  · rw [he]
    exact hs
  · rw [he, hhit]
    exact stored_scan h (h.stubs.count_eq_zero_iff.mp h0) hcap

/-- From an empty set, either a scan has found what there is, or no attempt so far was on the
schedule. -/
theorem stored_or_waiting {s : Scanner} (h : s.Ok) (hempty : s.stubs.stored = ∅)
    (hstable : ∀ hit ∈ stable, hit.reflex_image_start ≠ 0
      ∧ iat_destinations hit.process = destinations) :
    let s' := stable.foldl maybe_scan_main_image_iat s
    s'.stubs.stored = destinations.toFinset.erase 0
      ∨ s'.stubs.stored = ∅ ∧ s'.attempts = s.attempts + .ofNat stable.length
        ∧ ∀ j < stable.length, should_retry_iat_scan (s.attempts + .ofNat j) = false := by
  -- By the last entry: what the entries before it have done is the induction hypothesis.
  induction stable using List.reverseRecOn with
  | nil =>
    refine Or.inr ⟨hempty, ?_, fun j hj => absurd hj (Nat.not_lt_zero j)⟩
    exact (UInt64.add_zero _).symm
  | append_singleton hits hit ih =>
    obtain ⟨hstart, hhit⟩ := hstable hit (by simp)
    have hok := h.steps hits
    rw [List.foldl_append, List.foldl_cons, List.foldl_nil]
    rcases ih fun hit hmem => hstable hit (by simp [hmem]) with hs | ⟨hs, hattempts, hnone⟩
    · exact Or.inl (stored_step hcap hok hhit hs)
    · rcases maybe_scan_cases hok hit with ⟨hout, -⟩ | ⟨-, -, hretry, he⟩ | ⟨-, -, -, he⟩
      · rcases hout with h0 | h0
        · exact absurd (hok.stubs.count_eq_zero_iff.mpr hs) h0
        · exact absurd h0 hstart
      · refine Or.inr ⟨by rw [he]; exact hs, ?_, fun j hj => ?_⟩
        · rw [he]
          change _ + 1 = _
          rw [hattempts, List.length_append, UInt64.add_assoc, UInt64.ofNat_add]
          rfl
        · rw [List.length_append, List.length_singleton] at hj
          by_cases hlast : j = hits.length
          · rw [hlast, ← hattempts]
            exact hretry
          · exact hnone j (by omega)
      · left
        rw [he, hhit]
        exact stored_scan hok hs hcap

end Stable

/-- **Late hooks.** After any run, let the IAT stay as it is for 1024 further entries, with the
Reflex image known and at most 4096 trampolines. All trampoline destinations are then stored
exactly if they were already, or if nothing was and no trampoline leads to address 0. -/
theorem late_hooks_iff (history stable : List Hit) (destinations : List UInt64)
    (hlen : stable.length = 1024)
    (hstable : ∀ hit ∈ stable, hit.reflex_image_start ≠ 0
      ∧ iat_destinations hit.process = destinations)
    (hcap : destinations.toFinset.card ≤ IAT_CAPACITY) :
    (∀ d ∈ destinations, d ∈ (run (history ++ stable)).stubs.stored)
      ↔ (∀ d ∈ destinations, d ∈ (run history).stubs.stored)
        ∨ ((run history).stubs.count = 0 ∧ 0 ∉ destinations) := by
  have hok := ok_run history
  by_cases hcount : (run history).stubs.count = 0
  · have hempty := hok.stubs.count_eq_zero_iff.mp hcount
    have hstored : (run (history ++ stable)).stubs.stored = destinations.toFinset.erase 0 := by
      rw [run_append]
      rcases stored_or_waiting hcap hok hempty hstable with hs | ⟨-, -, hnone⟩
      · exact hs
      · obtain ⟨j, hj, hretry⟩ := exists_retry (run history).attempts
        rw [hnone j (by omega)] at hretry
        cases hretry
    rw [hstored, hempty]
    simp only [Finset.mem_erase, List.mem_toFinset, hcount, true_and, Finset.notMem_empty]
    constructor
    · intro hall
      exact Or.inr fun h0 => (hall 0 h0).1 rfl
    · rintro (hnone | h0) d hd
      · exact absurd (hnone d hd) not_false
      · refine ⟨?_, hd⟩
        rintro rfl
        exact h0 hd
  · rw [run_append, steps_of_count hok hcount]
    simp only [hcount, false_and, or_false]

/-! ## A late hook -/

/-- A memory in which these numbers stand, each with its address and size, and zeros
elsewhere. -/
def image (numbers : List (ℕ × ℕ × ℕ)) : ProcMem.Memory := fun a =>
  some (match numbers.find? fun (start, size, _) => start ≤ a.toNat && a.toNat < start + size with
    | some (start, _, value) => .ofNat (value / 0x100 ^ (a.toNat - start))
    | none => 0)

/-- TEB, PEB and headers of an image with one import, and two trampolines. -/
def headers : List (ℕ × ℕ × ℕ) := [
  (0x1060, 8, 0x2000), (0x2010, 8, 0x10000),
  (0x10000, 2, 0x5a4d), (0x1003c, 4, 0x40), (0x10040, 4, 0x4550), (0x10058, 2, 0x20b),
  (0x10090, 4, 0x1000), (0x100d0, 4, 0x100), (0x1010c, 4, 0x200), (0x10110, 4, 0x140),
  (0x20000, 8, 0x225ff), (0x20008, 8, 0x300000), (0x20010, 8, 0x225ff), (0x20018, 8, 0x400000)]

/-- A dispatcher entry with these IAT entries. -/
def hooked (entries : List (ℕ × ℕ × ℕ)) : Hit :=
  ⟨⟨some 0x1000, image (headers ++ entries)⟩, 0x180000000⟩

/-- Reflex has hooked the first import. -/
def early : Hit := hooked [(0x10140, 8, 0x20000)]

/-- Reflex has hooked the second import, too. -/
def later : Hit := hooked [(0x10140, 8, 0x20000), (0x10148, 8, 0x20010)]

theorem early_destinations : iat_destinations early.process = [0x300000] := by decide +kernel

theorem later_destinations : iat_destinations later.process = [0x300000, 0x400000] := by
  decide +kernel

theorem stored_early : (run [early]).stubs.stored = {0x300000} := by
  have hnew : Scanner.new.Ok := ⟨StubSet.ok_new, rfl⟩
  change (maybe_scan_main_image_iat .new early).stubs.stored = _
  rcases maybe_scan_cases hnew early with ⟨hout, -⟩ | ⟨-, -, hretry, -⟩ | ⟨-, -, -, he⟩
  · exact absurd hout (by decide)
  · exact absurd hretry (by decide)
  · rw [he, early_destinations, stored_scan hnew StubSet.stored_new (by decide)]
    decide

/-- The scan at the first entry has found the first hook, so the second is not found in 1024
further entries, nor in any number of them. -/
theorem late_hook_missed :
    ¬∀ (history stable : List Hit) (destinations : List UInt64), stable.length = 1024 →
      (∀ hit ∈ stable, hit.reflex_image_start ≠ 0
        ∧ iat_destinations hit.process = destinations) →
      destinations.toFinset.card ≤ IAT_CAPACITY →
      ∀ d ∈ destinations, d ∈ (run (history ++ stable)).stubs.stored := by
  intro h
  have hok := ok_run [early]
  have hcount : (run [early]).stubs.count ≠ 0 := by
    rw [ne_eq, hok.stubs.count_eq_zero_iff, stored_early]
    exact Finset.singleton_ne_empty _
  have hlate := h [early] (List.replicate 1024 later) [0x300000, 0x400000]
    List.length_replicate
    (fun hit hmem => by
      rw [List.eq_of_mem_replicate hmem]
      exact ⟨by decide, later_destinations⟩)
    (by decide) 0x400000 (by decide)
  rw [run_append, steps_of_count hok hcount, stored_early] at hlate
  exact absurd hlate (by decide)

/-- Where Reflex is done before the first entry, both hooks are found. -/
theorem late_hooks_found :
    0x300000 ∈ (run ([] ++ List.replicate 1024 later)).stubs.stored
      ∧ 0x400000 ∈ (run ([] ++ List.replicate 1024 later)).stubs.stored := by
  have hlater : ∀ hit ∈ List.replicate 1024 later,
      hit.reflex_image_start ≠ 0 ∧ iat_destinations hit.process = [0x300000, 0x400000] := by
    intro hit hmem
    rw [List.eq_of_mem_replicate hmem]
    exact ⟨by decide, later_destinations⟩
  have hfound := (late_hooks_iff [] (List.replicate 1024 later) [0x300000, 0x400000]
    List.length_replicate hlater (by decide)).mpr (Or.inr ⟨rfl, by decide⟩)
  exact ⟨hfound _ List.mem_cons_self, hfound _ (List.mem_cons_of_mem _ List.mem_cons_self)⟩

end Linuwux.LateHooks
