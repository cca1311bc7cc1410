/-
`ArtifactScan.lean` -- `artifact_module_newly_mapped` of `runtime/src/cpuid.rs` and the counter of
`runtime/src/maps.rs`.

That no `artifact.dll` is mapped is remembered together with the number of file mappings there
had been when the scan was decided on. A mapping is made first and counted afterwards, so a scan
that was decided on after the count sees it, and an answer that was remembered before has a
smaller number. [`noted_artifact_is_found`] is this argument. The numbers are of 64 bits and the
largest stands for no answer, so it ends with the mapping that is counted as the largest
([`answer_of_no_scan`]).
-/
import Linuwux.CallerCache
import Linuwux.Threads

set_option autoImplicit false

namespace Linuwux.ArtifactScan

variable {T : Type*}

open Threads (Program Config Outcome run trace own AllSteps)

def is_artifact (mapping : Maps.Mapping) : Bool := Callers.path_kind mapping.path = .Artifact

def artifact_module_mapped (maps : Option (List UInt8)) : Bool :=
  Maps.find_line maps fun line => (Maps.parse line).any is_artifact

def ARTIFACT_RESCAN_INTERVAL_MS : UInt64 := 1000

/-- `u64::MAX`. -/
def MAX : UInt64 := 0xffffffffffffffff

/-- A scan of a file that says what is mapped. -/
theorem artifact_module_mapped_eq {text : List UInt8} {live : List Maps.Mapping}
    (h : (Maps.lines text).filterMap Maps.parse = live) :
    artifact_module_mapped (some text) = live.any is_artifact := by
  rw [← h, List.any_filterMap]
  rfl

/-! ## The program -/

structure Mem where
  /-- The mappings of the process. -/
  live : List Maps.Mapping
  file_mappings : UInt64
  scan_generation : UInt64
  scan_milliseconds : UInt64

/-- What an idle thread does: a successful file-backed `mmap`, which leaves these other mappings;
some other change of the mappings; a call of `artifact_module_newly_mapped`. -/
inductive Request where
  | mmap (mapping : Maps.Mapping) (others : List Maps.Mapping)
  | remap (live : List Maps.Mapping)
  | newly_mapped

/-- The request of an idle thread, and what the clock says. -/
structure Choice where
  request : Request
  now : UInt64

inductive Event where
  | noted (mapping : Maps.Mapping)
  | called
  | returned (found : Bool)
  deriving DecidableEq

/-- The access that `mmap` or `artifact_module_newly_mapped` is about to make. -/
inductive Pc where
  | idle
  | note (mapping : Maps.Mapping)
  | load_generation
  | read_clock (generation : UInt64)
  | load_scanned (generation now : UInt64)
  | load_milliseconds (generation now : UInt64)
  | scan (generation now : UInt64)
  | store_milliseconds (generation now : UInt64)
  | store_generation (generation : UInt64)
  | done (found : Bool)

def program (T : Type*) : Program T Choice Mem Pc Event := fun _ a m pc =>
  match pc with
  | .idle =>
    match a.request with
    | .mmap mapping others => ⟨{ m with live := mapping :: others }, .note mapping, []⟩
    | .remap live => ⟨{ m with live }, .idle, []⟩
    | .newly_mapped => ⟨m, .load_generation, [.called]⟩
  | .note mapping =>
    ⟨{ m with file_mappings := m.file_mappings + 1 }, .idle, [.noted mapping]⟩
  | .load_generation => ⟨m, .read_clock m.file_mappings, []⟩
  | .read_clock generation => ⟨m, .load_scanned generation a.now, []⟩
  | .load_scanned generation now =>
    if generation = m.scan_generation then ⟨m, .load_milliseconds generation now, []⟩
    else ⟨m, .scan generation now, []⟩
  | .load_milliseconds generation now =>
    if now - m.scan_milliseconds < ARTIFACT_RESCAN_INTERVAL_MS then ⟨m, .done false, []⟩
    else ⟨m, .scan generation now, []⟩
  -- `artifact_module_mapped`, of a file that says what is mapped.
  | .scan generation now =>
    if m.live.any is_artifact then ⟨m, .done true, []⟩
    else ⟨m, .store_milliseconds generation now, []⟩
  | .store_milliseconds generation now =>
    ⟨{ m with scan_milliseconds := now }, .store_generation generation, []⟩
  | .store_generation generation =>
    ⟨{ m with scan_generation := generation }, .done false, []⟩
  | .done found => ⟨m, .idle, [.returned found]⟩

def start (T : Type*) (live : List Maps.Mapping) : Config T Mem Pc :=
  ⟨⟨live, 0, MAX, 0⟩, fun _ => .idle⟩

/-! ## What is remembered -/

def Event.isNoted : Event → Bool
  | .noted _ => true
  | _ => false

/-- How many mappings have been counted. -/
def noted (tr : List (T × Event)) : ℕ := tr.countP fun x => x.2.isNoted

theorem noted_append (tr tr' : List (T × Event)) : noted (tr ++ tr') = noted tr + noted tr' :=
  List.countP_append

/-- The number that a call holds. -/
def Pc.generation : Pc → Option UInt64
  | .read_clock generation | .load_scanned generation _ | .load_milliseconds generation _
  | .scan generation _ | .store_milliseconds generation _ | .store_generation generation =>
    some generation
  | _ => none

/-- The number that a call is about to store. -/
def Pc.storing : Pc → Option UInt64
  | .store_milliseconds generation _ | .store_generation generation => some generation
  | _ => none

/-- `n` mappings have been counted, and what the calls hold are counts. -/
structure Counts (n : ℕ) (c : Config T Mem Pc) : Prop where
  count : c.mem.file_mappings = .ofNat n
  held : ∀ t g, (c.loc t).generation = some g → ∃ j ≤ n, g = .ofNat j

/-- What is remembered, or will be, is a count below `k`. -/
structure Below (k : ℕ) (c : Config T Mem Pc) : Prop where
  stored : c.mem.scan_generation = MAX ∨ ∃ j < k, c.mem.scan_generation = .ofNat j
  storing : ∀ t g, (c.loc t).storing = some g → ∃ j < k, g = .ofNat j

theorem Below.mono {k k' : ℕ} {c : Config T Mem Pc} (h : Below k c) (hk : k ≤ k') :
    Below k' c where
  stored := h.stored.imp_right fun ⟨j, hj, he⟩ => ⟨j, hj.trans_le hk, he⟩
  storing t g hg := by
    obtain ⟨j, hj, he⟩ := h.storing t g hg
    exact ⟨j, hj.trans_le hk, he⟩

theorem counts_start (live : List Maps.Mapping) : Counts 0 (start T live) := ⟨rfl, nofun⟩

theorem below_start (live : List Maps.Mapping) : Below 0 (start T live) := ⟨Or.inl rfl, nofun⟩

/-- The call decides where to go on. -/
def Pc.decides : Pc → Bool
  | .load_scanned _ _ | .load_milliseconds _ _ | .scan _ _ => true
  | _ => false

/-- A decision leaves the memory alone and shows nothing. The number goes along or the call is over,
and it is about to be stored only after a scan that has not found anything. -/
theorem decision_step (t : T) (a : Choice) (m : Mem) {pc : Pc} (hpc : pc.decides = true) :
    ∃ pc', program T t a m pc = ⟨m, pc', []⟩
      ∧ (∀ g, pc'.generation = some g → pc.generation = some g)
      ∧ ∀ g, pc'.storing = some g → pc.generation = some g ∧ m.live.any is_artifact = false := by
  cases pc with
  | load_scanned generation now =>
    unfold program
    dsimp only
    split
    · exact ⟨_, rfl, fun _ hg => hg, nofun⟩
    · exact ⟨_, rfl, fun _ hg => hg, nofun⟩
  | load_milliseconds generation now =>
    unfold program
    dsimp only
    split
    · exact ⟨_, rfl, nofun, nofun⟩
    · exact ⟨_, rfl, fun _ hg => hg, nofun⟩
  | scan generation now =>
    unfold program
    dsimp only
    split
    · exact ⟨_, rfl, nofun, nofun⟩
    · rename_i hnone
      exact ⟨_, rfl, fun _ hg => hg, fun _ hg => ⟨hg, Bool.eq_false_iff.mpr hnone⟩⟩
  | _ => cases hpc

/-- A number that a thread holds after a step it held before, or has just loaded. -/
theorem generation_step {t : T} {a : Choice} {m : Mem} {pc : Pc} {g : UInt64}
    (h : (program T t a m pc).loc.generation = some g) :
    pc.generation = some g ∨ g = m.file_mappings := by
  cases hpc : pc.decides with
  | true =>
    obtain ⟨pc', hstep, hgeneration, -⟩ := decision_step t a m hpc
    rw [hstep] at h
    exact Or.inl (hgeneration g h)
  | false =>
    cases pc with
    | idle =>
      obtain ⟨request, now⟩ := a
      cases request <;> cases h
    | load_generation => exact Or.inr (Option.some.inj h).symm
    | read_clock generation => exact Or.inl h
    | store_milliseconds generation now => exact Or.inl h
    | _ => first | cases h | cases hpc

/-- A number that a thread is about to store after a step it was about to store before, or it
has just seen that no artifact is mapped. -/
theorem storing_step {t : T} {a : Choice} {m : Mem} {pc : Pc} {g : UInt64}
    (h : (program T t a m pc).loc.storing = some g) :
    pc.storing = some g ∨ pc.generation = some g ∧ m.live.any is_artifact = false := by
  cases hpc : pc.decides with
  | true =>
    obtain ⟨pc', hstep, -, hstoring⟩ := decision_step t a m hpc
    rw [hstep] at h
    exact Or.inr (hstoring g h)
  | false =>
    cases pc with
    | idle =>
      obtain ⟨request, now⟩ := a
      cases request <;> cases h
    | store_milliseconds generation now => exact Or.inl h
    | _ => first | cases h | cases hpc

/-- What a step remembers was about to be stored. -/
theorem scan_generation_step (t : T) (a : Choice) (m : Mem) (pc : Pc) :
    (program T t a m pc).mem.scan_generation = m.scan_generation
      ∨ pc.storing = some (program T t a m pc).mem.scan_generation := by
  cases hpc : pc.decides with
  | true =>
    obtain ⟨pc', hstep, -⟩ := decision_step t a m hpc
    rw [hstep]
    exact Or.inl rfl
  | false =>
    cases pc with
    | idle =>
      obtain ⟨request, now⟩ := a
      cases request <;> exact Or.inl rfl
    | store_generation generation => exact Or.inr rfl
    | _ => first | exact Or.inl rfl | cases hpc

theorem count_step (t : T) (a : Choice) (m : Mem) (pc : Pc) :
    (program T t a m pc).mem.file_mappings
      = m.file_mappings + .ofNat (noted ((program T t a m pc).events.map (Prod.mk t))) := by
  cases hpc : pc.decides with
  | true =>
    obtain ⟨pc', hstep, -⟩ := decision_step t a m hpc
    rw [hstep]
    exact (UInt64.add_zero _).symm
  | false =>
    cases pc with
    | idle =>
      obtain ⟨request, now⟩ := a
      cases request <;> exact (UInt64.add_zero _).symm
    | note mapping => rfl
    | _ => first | exact (UInt64.add_zero _).symm | cases hpc

/-! ## A call after the mapping is counted -/

/-- A call that has started when `k` mappings were counted is on the way to a scan. -/
def Pc.Late (k n : ℕ) : Pc → Prop
  | .load_generation => True
  | .read_clock generation | .load_scanned generation _ | .scan generation _ =>
    ∃ j, k ≤ j ∧ j ≤ n ∧ generation = .ofNat j
  | .done found => found = true
  | _ => False

theorem Pc.Late.mono {k n n' : ℕ} {pc : Pc} (h : pc.Late k n) (hn : n ≤ n') : pc.Late k n' := by
  cases pc with
  | read_clock generation =>
    obtain ⟨j, hk, hj, he⟩ := h
    exact ⟨j, hk, hj.trans hn, he⟩
  | load_scanned generation now =>
    obtain ⟨j, hk, hj, he⟩ := h
    exact ⟨j, hk, hj.trans hn, he⟩
  | scan generation now =>
    obtain ⟨j, hk, hj, he⟩ := h
    exact ⟨j, hk, hj.trans hn, he⟩
  | _ => exact h

/-- Counts below `2 ^ 64 - 1` are apart, and none of them is `MAX`. -/
theorem not_remembered {k j : ℕ} {g : UInt64} (hk : k ≤ j) (hj : j < 2 ^ 64 - 1)
    (h : g = MAX ∨ ∃ i < k, g = .ofNat i) : UInt64.ofNat j ≠ g := by
  rintro rfl
  obtain h | ⟨i, hi, h⟩ := h
  · rw [← UInt64.toNat_inj, UInt64.toNat_ofNat'] at h
    change j % 2 ^ 64 = 2 ^ 64 - 1 at h
    omega
  · rw [← UInt64.toNat_inj, UInt64.toNat_ofNat', UInt64.toNat_ofNat'] at h
    omega

/-- **One step of the call.** It goes on to the scan, finds the artifact there, or returns that it
has. -/
theorem late_step {n k : ℕ} {c : Config T Mem Pc} (hc : Counts n c) (hb : Below k c) {t : T}
    (a : Choice) (hk : k ≤ n) (hn : n < 2 ^ 64 - 1) (hlive : c.mem.live.any is_artifact)
    (h : (c.loc t).Late k n) :
    (program T t a c.mem (c.loc t)).loc.Late k n
        ∧ (program T t a c.mem (c.loc t)).events = []
      ∨ (program T t a c.mem (c.loc t)).loc = .idle
        ∧ (program T t a c.mem (c.loc t)).events = [.returned true] := by
  cases hpc : c.loc t with
  | load_generation => exact Or.inl ⟨⟨n, hk, Nat.le_refl n, hc.count⟩, rfl⟩
  | read_clock generation =>
    rw [hpc] at h
    exact Or.inl ⟨h, rfl⟩
  | load_scanned generation now =>
    rw [hpc] at h
    obtain ⟨j, hkj, hjn, rfl⟩ := h
    have hscan : program T t a c.mem (.load_scanned (.ofNat j) now)
        = ⟨c.mem, .scan (.ofNat j) now, []⟩ :=
      if_neg (not_remembered hkj (by omega) hb.stored)
    rw [hscan]
    exact Or.inl ⟨⟨j, hkj, hjn, rfl⟩, rfl⟩
  | scan generation now =>
    have hfound : program T t a c.mem (.scan generation now) = ⟨c.mem, .done true, []⟩ :=
      if_pos hlive
    rw [hfound]
    exact Or.inl ⟨rfl, rfl⟩
  | done found =>
    rw [hpc] at h
    obtain rfl : found = true := h
    exact Or.inr ⟨rfl, rfl⟩
  | _ =>
    rw [hpc] at h
    cases h

theorem events_step (t : T) (a : Choice) (m : Mem) (pc : Pc) :
    (program T t a m pc).events = []
      ∨ (program T t a m pc).events = [.called] ∧ (program T t a m pc).loc = .load_generation
      ∨ ∃ e, (program T t a m pc).events = [e] ∧ e ≠ .called := by
  cases hpc : pc.decides with
  | true =>
    obtain ⟨pc', hstep, -⟩ := decision_step t a m hpc
    rw [hstep]
    exact Or.inl rfl
  | false =>
    cases pc with
    | idle =>
      obtain ⟨request, now⟩ := a
      cases request with
      | mmap mapping others => exact Or.inl rfl
      | remap live => exact Or.inl rfl
      | newly_mapped => exact Or.inr (Or.inl ⟨rfl, rfl⟩)
    | note mapping => exact Or.inr (Or.inr ⟨_, rfl, nofun⟩)
    | done found => exact Or.inr (Or.inr ⟨_, rfl, nofun⟩)
    | _ => first | exact Or.inl rfl | cases hpc

/-! ## Runs -/

variable [DecidableEq T]

section Step

variable {n k : ℕ} {c : Config T Mem Pc} (hc : Counts n c) (t : T) (a : Choice)
include hc

theorem Counts.step :
    Counts (n + noted ((program T t a c.mem (c.loc t)).events.map (Prod.mk t)))
      (c.after t (program T t a c.mem (c.loc t))) where
  count := by
    rw [Threads.Config.after_mem, count_step, hc.count, UInt64.ofNat_add]
  held u g hg := by
    by_cases hu : u = t
    · rw [hu, Threads.Config.after_loc_self] at hg
      obtain hg | rfl := generation_step hg
      · obtain ⟨j, hj, he⟩ := hc.held t g hg
        exact ⟨j, by omega, he⟩
      · exact ⟨n, by omega, hc.count⟩
    · rw [Threads.Config.after_loc_of_ne _ _ hu] at hg
      obtain ⟨j, hj, he⟩ := hc.held u g hg
      exact ⟨j, by omega, he⟩

/-- As long as there are fewer counts, or an artifact is mapped, nothing else is remembered. -/
theorem Counts.below_step (hb : Below k c) (h : n < k ∨ c.mem.live.any is_artifact) :
    Below k (c.after t (program T t a c.mem (c.loc t))) where
  stored := by
    rw [Threads.Config.after_mem]
    obtain hsame | hstored := scan_generation_step t a c.mem (c.loc t)
    · rw [hsame]
      exact hb.stored
    · exact Or.inr (hb.storing t _ hstored)
  storing u g hg := by
    by_cases hu : u = t
    · rw [hu, Threads.Config.after_loc_self] at hg
      obtain hg | ⟨hheld, hnone⟩ := storing_step hg
      · exact hb.storing t g hg
      · obtain ⟨j, hj, he⟩ := hc.held t g hheld
        obtain hlt | hlive := h
        · exact ⟨j, by omega, he⟩
        · rw [hnone] at hlive
          cases hlive
    · rw [Threads.Config.after_loc_of_ne _ _ hu] at hg
      exact hb.storing u g hg

end Step

theorem run_counts (live : List Maps.Mapping) (s : List (T × Choice)) :
    Counts (noted (trace (program T) (start T live) s)) (run (program T) (start T live) s)
      ∧ Below (noted (trace (program T) (start T live) s) + 1)
        (run (program T) (start T live) s) := by
  refine Threads.run_induct_after (program T)
    (I := fun tr d => Counts (noted tr) d ∧ Below (noted tr + 1) d)
    ⟨counts_start live, (below_start live).mono (Nat.zero_le 1)⟩ (fun tr d t a hi => ?_) s
  obtain ⟨hc, hb⟩ := hi
  rw [noted_append]
  exact ⟨hc.step t a, (hc.below_step t a hb (Or.inl (Nat.lt_succ_self _))).mono (by omega)⟩

/-- **The run in which the mapping is counted.** What is remembered afterwards is a count from
before. -/
theorem run_noted {n : ℕ} {c : Config T Mem Pc} (hc : Counts n c) (hb : Below (n + 1) c)
    {mapping : Maps.Mapping} {u : T} {s : List (T × Choice)}
    (hlive : AllSteps (program T) (fun _ d _ => d.mem.live.any is_artifact) c s)
    (hnoted : (u, .noted mapping) ∈ trace (program T) c s) :
    ∃ k ≤ n + noted (trace (program T) c s), Below k (run (program T) c s) := by
  have hrun := Threads.run_induct_of (program T) (Q := fun _ => True) (c := c)
    (I := fun tr d => Counts (n + noted tr) d ∧ Below (n + noted tr + 1) d
      ∧ ((u, .noted mapping) ∈ tr → ∃ k ≤ n + noted tr, Below k d))
    ⟨hc, hb, nofun⟩ (fun tr d x hlive _ ⟨hc, hb, hi⟩ => ?_) hlive fun _ _ => trivial
  · exact hrun.2.2 hnoted
  · change Counts _ (d.after x.1 (program T x.1 x.2 d.mem (d.loc x.1)))
      ∧ Below _ (d.after x.1 (program T x.1 x.2 d.mem (d.loc x.1)))
      ∧ (_ → ∃ k ≤ _, Below k (d.after x.1 (program T x.1 x.2 d.mem (d.loc x.1))))
    rw [noted_append, ← Nat.add_assoc]
    have hc' := hc.step x.1 x.2
    have hb' := hc.below_step x.1 x.2 hb (Or.inl (Nat.lt_succ_self _))
    refine ⟨hc', hb'.mono (Nat.succ_le_succ (Nat.le_add_right _ _)), fun hmem => ?_⟩
    obtain hmem | hmem := List.mem_append.mp hmem
    · obtain ⟨k, hk, hbelow⟩ := hi hmem
      exact ⟨k, hk.trans (Nat.le_add_right _ _), hc.below_step x.1 x.2 hbelow (Or.inr hlive)⟩
    · -- This step counts the mapping: it is the one after all that were counted.
      have hone : 1 ≤ noted (Threads.events (program T) d x) :=
        List.countP_pos_iff.mpr ⟨_, hmem, rfl⟩
      exact ⟨n + noted tr + 1, Nat.add_le_add_left hone _, hb'⟩

/-- **The run in which the call is made.** -/
theorem run_called {n k : ℕ} {c : Config T Mem Pc} (hc : Counts n c) (hb : Below k c)
    (hk : k ≤ n) {t : T} {s : List (T × Choice)}
    (hlive : AllSteps (program T) (fun _ d _ => d.mem.live.any is_artifact) c s)
    (hfew : n + noted (trace (program T) c s) < 2 ^ 64 - 1) {found : Bool}
    (hcall : own t (trace (program T) c s) = [.called, .returned found]) : found = true := by
  have hrun := Threads.run_induct_of (program T) (Q := fun _ => True) (c := c)
    (I := fun tr d => Counts (n + noted tr) d ∧ Below k d ∧ (n + noted tr < 2 ^ 64 - 1 →
      (own t tr = [.called] → (d.loc t).Late k (n + noted tr))
        ∧ ∀ found, own t tr = [.called, .returned found] → found = true))
    ⟨hc, hb, fun _ => ⟨nofun, nofun⟩⟩ (fun tr d x hlive _ ⟨hc, hb, hi⟩ => ?_) hlive
    fun _ _ => trivial
  · exact (hrun.2.2 hfew).2 found hcall
  · refine ⟨?_, hc.below_step x.1 x.2 hb (Or.inr hlive), fun hfew => ?_⟩
    · rw [noted_append, ← Nat.add_assoc]
      exact hc.step x.1 x.2
    · rw [noted_append] at hfew ⊢
      obtain ⟨hlate, hfound⟩ := hi (by omega)
      by_cases ht : t = x.1
      · subst ht
        rw [Threads.own_step_self, Threads.step_loc_self]
        have hnext := fun hown => late_step hc hb x.2 (hk.trans (Nat.le_add_right n _))
          (by omega) hlive (hlate hown)
        obtain hnone | ⟨hone, hloc⟩ | ⟨e, hone, he⟩ :=
          events_step x.1 x.2 d.mem (d.loc x.1)
        · rw [hnone, List.append_nil]
          refine ⟨fun hown => ?_, hfound⟩
          obtain ⟨hlater, -⟩ | ⟨-, hreturned⟩ := hnext hown
          · exact hlater.mono (by omega)
          · rw [hnone] at hreturned
            cases hreturned
        · rw [hone, hloc]
          refine ⟨fun _ => trivial, fun found hown => ?_⟩
          have hsplit : own x.1 tr ++ [.called] = [.called] ++ [.returned found] := hown
          cases (List.append_inj' hsplit rfl).2
        · rw [hone]
          refine ⟨fun hown => ?_, fun found hown => ?_⟩
          · have hsplit : own x.1 tr ++ [e] = [] ++ [.called] := hown
            exact absurd (List.cons.inj (List.append_inj' hsplit rfl).2).1 he
          · have hsplit : own x.1 tr ++ [e] = [.called] ++ [.returned found] := hown
            obtain ⟨hcalled, hlast⟩ := List.append_inj' hsplit rfl
            obtain ⟨-, hnot⟩ | ⟨-, hreturned⟩ := hnext hcalled
            · rw [hone] at hnot
              cases hnot
            · rw [hone, hlast] at hreturned
              cases hreturned
              rfl
      · rw [Threads.own_step_of_ne _ _ _ ht, Threads.step_loc_of_ne _ _ _ ht]
        exact ⟨fun hown => (hlate hown).mono (by omega), hfound⟩

theorem any_of_live {c : Config T Mem Pc} {mapping : Maps.Mapping} {s : List (T × Choice)}
    (hartifact : is_artifact mapping)
    (hlive : AllSteps (program T) (fun _ d _ => mapping ∈ d.mem.live) c s) :
    AllSteps (program T) (fun _ d _ => d.mem.live.any is_artifact) c s := by
  induction s using List.reverseRecOn with
  | nil => trivial
  | append_singleton s x ih =>
    obtain ⟨hpre, hx⟩ := (Threads.allSteps_concat (program T)).mp hlive
    exact (Threads.allSteps_concat (program T)).mpr
      ⟨ih hpre, List.any_eq_true.mpr ⟨mapping, hx, hartifact⟩⟩

/-- **A mapping that is counted is found.** From some moment on an artifact is mapped. It is counted
in `s₁`, and in `s₂` thread `t` calls and returns. Where fewer than `2 ^ 64 - 1` mappings are
counted in all, the answer is that it is there, whatever the other threads do and the clock
says. -/
theorem noted_artifact_is_found (live : List Maps.Mapping) (s₀ s₁ s₂ : List (T × Choice))
    (mapping : Maps.Mapping) (t u : T) (found : Bool) (hartifact : is_artifact mapping)
    (hlive₁ : AllSteps (program T) (fun _ c _ => mapping ∈ c.mem.live)
      (run (program T) (start T live) s₀) s₁)
    (hlive₂ : AllSteps (program T) (fun _ c _ => mapping ∈ c.mem.live)
      (run (program T) (start T live) (s₀ ++ s₁)) s₂)
    (hnoted : (u, .noted mapping) ∈ trace (program T) (run (program T) (start T live) s₀) s₁)
    (hcall : own t (trace (program T) (run (program T) (start T live) (s₀ ++ s₁)) s₂)
      = [.called, .returned found])
    (hfew : noted (trace (program T) (start T live) (s₀ ++ s₁ ++ s₂)) < 2 ^ 64 - 1) :
    found = true := by
  obtain ⟨hc, hb⟩ := run_counts live s₀
  obtain ⟨k, hk, hbelow⟩ := run_noted hc hb (any_of_live hartifact hlive₁) hnoted
  obtain ⟨hc', -⟩ := run_counts live (s₀ ++ s₁)
  rw [← noted_append, ← Threads.trace_append] at hk
  rw [← Threads.run_append] at hbelow
  refine run_called hc' hbelow hk (any_of_live hartifact hlive₂) ?_ hcall
  rwa [← noted_append, ← Threads.trace_append]

/-- A mapping of the module. -/
def artifact : Maps.Mapping :=
  ⟨0x10000, 0x20000, LibC.b_str "r--p", LibC.b_str "7", LibC.b_str "/game/artifact.dll"⟩

def map_artifact : Choice := ⟨.mmap artifact [], 0⟩

def ask : Choice := ⟨.newly_mapped, 0⟩

theorem noted_artifact_is_found_of_one :
    ∃ found, own true (trace (program Bool) (run (program Bool) (start Bool [])
        (Threads.steps true 8 ask ++ [(false, map_artifact)] ++ [(false, map_artifact)]))
          (Threads.steps true 6 ask)) = [.called, .returned found]
      ∧ found = true :=
  ⟨true, by decide +kernel, noted_artifact_is_found []
    (Threads.steps true 8 ask ++ [(false, map_artifact)]) [(false, map_artifact)]
    (Threads.steps true 6 ask) artifact true false true (by decide +kernel) (by decide +kernel)
    (by decide +kernel) (by decide +kernel) (by decide +kernel) (by decide +kernel)⟩

/-! ### The largest number -/

/-- The artifact has been mapped and counted this often, and nobody has asked. -/
def counted (n : ℕ) : Config Unit Mem Pc := ⟨⟨[artifact], .ofNat n, MAX, 0⟩, fun _ => .idle⟩

/-- It is mapped once more. -/
def uncounted (n : ℕ) : Config Unit Mem Pc :=
  ⟨⟨[artifact], .ofNat n, MAX, 0⟩, fun _ => .note artifact⟩

theorem step_counted (n : ℕ) :
    Threads.step (program Unit) (counted n) ((), map_artifact) = uncounted n := by
  unfold Threads.step uncounted
  congr 1

theorem step_uncounted (n : ℕ) :
    Threads.step (program Unit) (uncounted n) ((), map_artifact) = counted (n + 1) := by
  unfold Threads.step counted
  congr 1
  rw [UInt64.ofNat_add]
  rfl

/-- Two steps count it once, and the first of an odd number of steps does. -/
theorem run_counted (n k : ℕ) :
    run (program Unit) (uncounted k) (Threads.steps () (2 * n + 1) map_artifact)
      = counted (k + n + 1) := by
  induction n generalizing k with
  | zero => exact step_uncounted k
  | succ n ih =>
    have hsteps : Threads.steps () (2 * (n + 1) + 1) map_artifact
        = ((), map_artifact) :: ((), map_artifact) :: Threads.steps () (2 * n + 1) map_artifact :=
      rfl
    have hcount : k + 1 + n + 1 = k + (n + 1) + 1 := by omega
    rw [hsteps, Threads.run_cons, Threads.run_cons, step_uncounted, step_counted, ih, hcount]

/-- It stays mapped. -/
theorem live_again (n k : ℕ) (tr : List (Unit × Event)) :
    Threads.AllStepsFrom (program Unit) (fun _ d _ => artifact ∈ d.mem.live) tr (uncounted k)
        (Threads.steps () n map_artifact)
      ∧ ∀ tr', Threads.AllStepsFrom (program Unit) (fun _ d _ => artifact ∈ d.mem.live) tr'
        (counted k) (Threads.steps () n map_artifact) := by
  induction n generalizing k tr with
  | zero => exact ⟨trivial, fun _ => trivial⟩
  | succ n ih =>
    refine ⟨⟨List.mem_singleton_self _, ?_⟩, fun tr' => ⟨List.mem_singleton_self _, ?_⟩⟩
    · rw [step_uncounted]
      exact (ih (k + 1) tr).2 _
    · rw [step_counted]
      exact (ih k _).1

/-- Where as many mappings are counted as `MAX` says, it looks as if that had been scanned. -/
theorem asked_at_max {n : ℕ} (hn : UInt64.ofNat n = MAX) :
    own () (trace (program Unit) (counted n) (Threads.steps () 6 ask)) = [.called, .returned false]
      ∧ AllSteps (program Unit) (fun _ c _ => artifact ∈ c.mem.live) (counted n)
        (Threads.steps () 6 ask) := by
  unfold counted
  rw [hn]
  decide +kernel

/-- **With `2 ^ 64 - 1` mappings counted and no scan made**, the artifact is said not to be there.
The thread maps it as often and asks within the first second of the clock. -/
theorem answer_of_no_scan :
    ¬∀ (live : List Maps.Mapping) (s₀ s₁ s₂ : List (Unit × Choice)) (mapping : Maps.Mapping)
      (t u : Unit) (found : Bool), is_artifact mapping →
      AllSteps (program Unit) (fun _ c _ => mapping ∈ c.mem.live)
        (run (program Unit) (start Unit live) s₀) s₁ →
      AllSteps (program Unit) (fun _ c _ => mapping ∈ c.mem.live)
        (run (program Unit) (start Unit live) (s₀ ++ s₁)) s₂ →
      (u, .noted mapping) ∈ trace (program Unit) (run (program Unit) (start Unit live) s₀) s₁ →
      own t (trace (program Unit) (run (program Unit) (start Unit live) (s₀ ++ s₁)) s₂)
        = [.called, .returned found] →
      found = true := by
  obtain ⟨n, hn⟩ : ∃ n, UInt64.ofNat (n + 1) = MAX := ⟨2 ^ 64 - 2, by decide⟩
  intro h
  have hfirst : run (program Unit) (start Unit []) [((), map_artifact)] = uncounted 0 :=
    congrArg (Config.mk _) (funext fun _ => Function.update_self ..)
  have hrest : run (program Unit) (start Unit [])
      ([((), map_artifact)] ++ Threads.steps () (2 * n + 1) map_artifact) = counted (n + 1) := by
    rw [Threads.run_append, hfirst, run_counted, Nat.zero_add]
  obtain ⟨hasked, hlive⟩ := asked_at_max hn
  have hfalse := h [] [((), map_artifact)] (Threads.steps () (2 * n + 1) map_artifact)
    (Threads.steps () 6 ask) artifact () () false (by decide +kernel)
  rw [hfirst, hrest] at hfalse
  cases hfalse (live_again _ 0 []).1 hlive (List.mem_append_left _ (List.mem_singleton_self _))
    hasked

end Linuwux.ArtifactScan
