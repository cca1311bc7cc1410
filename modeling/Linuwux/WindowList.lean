/-
`WindowList.lean` -- `window_list_service` of `runtime/src/syscall/win32u_zero_list.rs`.

Every bypassed call in the range of win32u asks for the number of the window-list service. The
first to find it in the export table of `win32u.dll` stores it, and from then on it is loaded. A
DLL that is not there yet is searched for again, but only 16 times.

The threads of a process ask at the same time, so the accesses are steps as in `Threads.lean`; one
search is one step. [`service_is_resolved_once`] says what all calls of a run come to. The counter
of the searches is a `u32` that is never reset, so after 2^32 calls without a result there are 16
more. One call by itself is `window_list_service` of `SigsysRouter.lean`
([`window_list_service_alone`]).
-/
import Linuwux.LoaderList
import Linuwux.SigsysRouter
import Linuwux.Threads

set_option autoImplicit false

namespace Linuwux.WindowList

open LoaderList (Guest discover)
open ProcMem (Memory)
open SigsysRouter (RESOLVE_ATTEMPT_LIMIT)
open Threads (Program Config Completes trace run own)

/-! ## The code -/

structure Shared where
  WINDOW_LIST_SERVICE : UInt32
  RESOLVE_ATTEMPTS : UInt32

/-- What a search of this step would read. -/
structure Choice where
  memory : Memory
  gs_base : Option UInt64

/-- Where a thread is, named after the access it is about to make. -/
inductive Pc where
  | idle
  | load
  | fetch_add
  | search
  | store (number : UInt32)
  | load_again

inductive Event where
  | begins
  /-- The attempt is counted, and whether it is one that searches. -/
  | tries (searches : Bool)
  | finds (found : Option UInt32)
  | returns (service : Option UInt32)
  deriving DecidableEq

/-- `(known != 0).then_some(known)`. -/
def nonzero (known : UInt32) : Option UInt32 := if known ≠ 0 then some known else none

variable {T : Type*} [DecidableEq T]

def program (T : Type*) : Program T Choice Shared Pc Event := fun _ a m pc =>
  match pc with
  | .idle => ⟨m, .load, [.begins]⟩
  | .load =>
    if m.WINDOW_LIST_SERVICE ≠ 0 then ⟨m, .idle, [.returns (some m.WINDOW_LIST_SERVICE)]⟩
    else ⟨m, .fetch_add, []⟩
  | .fetch_add =>
    let attempt := m.RESOLVE_ATTEMPTS
    let m := { m with RESOLVE_ATTEMPTS := attempt + 1 }
    if RESOLVE_ATTEMPT_LIMIT ≤ attempt then ⟨m, .load_again, [.tries false]⟩
    else ⟨m, .search, [.tries true]⟩
  | .search =>
    match discover a.memory a.gs_base with
    | some number => ⟨m, .store number, [.finds (some number)]⟩
    | none => ⟨m, .load_again, [.finds none]⟩
  | .store number =>
    ⟨{ m with WINDOW_LIST_SERVICE := number }, .idle, [.returns (some number)]⟩
  | .load_again => ⟨m, .idle, [.returns (nonzero m.WINDOW_LIST_SERVICE)]⟩

/-- Nothing is known, and no thread is in a call. -/
def initial (T : Type*) : Config T Shared Pc := ⟨⟨0, 0⟩, fun _ => .idle⟩

/-! ## What is said of a run -/

def Event.is_try : Event → Bool
  | .tries _ => true
  | _ => false

def Event.is_search : Event → Bool
  | .tries searches => searches
  | _ => false

/-- How many attempts there were. -/
def tries (tr : List (T × Event)) : ℕ := tr.countP fun e => e.2.is_try

/-- How many of them have searched. -/
def searches (tr : List (T × Event)) : ℕ := tr.countP fun e => e.2.is_search

/-- What the calls of a run come to, where the service has this number. -/
structure Resolved (number : UInt32) (tr : List (T × Event)) : Prop where
  /-- No call returns another number, and what it returns has been found by a search. -/
  found : ∀ pre t service, pre ++ [(t, .returns (some service))] <+: tr →
    service = number ∧ ∃ u, (u, .finds (some number)) ∈ pre
  /-- Once a call has returned it, a call that begins returns it, without a search. -/
  lasting : ∀ before t service mid u rest,
    tr = before ++ (t, .returns (some service)) :: (mid ++ (u, .begins) :: rest) →
    ∀ e ∈ (own u rest).head?, e = .returns (some number)
  /-- Of 2^32 attempts the first 16 search. -/
  searched : searches tr = 16 * (tries tr / 2 ^ 32) + min (tries tr % 2 ^ 32) 16

/-- The loader list can be read, and its first `win32u.dll`, if there is one, has the service under
this number. -/
def Choice.Serves (number : UInt32) (a : Choice) : Prop :=
  ∀ gs_base ∈ a.gs_base, ∃ guest : Guest a.memory gs_base, ∀ service ∈ guest.service,
    service = number

theorem Choice.Serves.discover {number : UInt32} {a : Choice} (h : a.Serves number)
    {service : UInt32} (hfound : discover a.memory a.gs_base = some service) :
    service = number ∧ service ≠ 0 := by
  constructor
  · cases hgs : a.gs_base with
    | none =>
      rw [hgs] at hfound
      cases hfound
    | some gs_base =>
      obtain ⟨guest, hservice⟩ := h gs_base hgs
      rw [hgs, LoaderList.discover_spec guest] at hfound
      exact hservice service hfound
  · unfold LoaderList.discover at hfound
    obtain ⟨-, hne⟩ := Option.filter_eq_some_iff.mp hfound
    exact of_decide_eq_true hne

/-! ## The number -/

section Number

variable {number : UInt32}

/-- A search has found the number. -/
def Found (number : UInt32) (tr : List (T × Event)) : Prop := ∃ u, (u, .finds (some number)) ∈ tr

omit [DecidableEq T] in
theorem Found.append {tr : List (T × Event)} (h : Found number tr) (tr' : List (T × Event)) :
    Found number (tr ++ tr') :=
  h.imp fun _ hmem => List.mem_append_left _ hmem

/-- A thread that is about to store has found the number. -/
def Storing (number : UInt32) (tr : List (T × Event)) (pc : Pc) : Prop :=
  ∀ value, pc = .store value → value = number ∧ value ≠ 0 ∧ Found number tr

omit [DecidableEq T] in
theorem Storing.append {tr : List (T × Event)} {pc : Pc} (h : Storing number tr pc)
    (tr' : List (T × Event)) : Storing number (tr ++ tr') pc := fun value hat =>
  (h value hat).imp_right (And.imp_right fun hfound => hfound.append tr')

/-- What is stored, or about to be, is the number, and it has been found. -/
structure Sound (number : UInt32) (tr : List (T × Event)) (c : Config T Shared Pc) : Prop where
  cached : c.mem.WINDOW_LIST_SERVICE ≠ 0 → c.mem.WINDOW_LIST_SERVICE = number ∧ Found number tr
  storing : ∀ u, Storing number tr (c.loc u)
  answered : ∀ t service, (t, .returns (some service)) ∈ tr → c.mem.WINDOW_LIST_SERVICE ≠ 0

omit [DecidableEq T] in
theorem sound_initial : Sound number [] (initial T) where
  cached h := absurd rfl h
  storing _ _ h := nomatch h
  answered _ _ h := absurd h List.not_mem_nil

variable {tr : List (T × Event)} {c : Config T Shared Pc} {a : Choice}

/-- A step that stores nothing, and shows the number only if it is known. -/
theorem Sound.quiet (h : Sound number tr c) {t : T} {o : Threads.Outcome Shared Pc Event}
    (hmem : o.mem.WINDOW_LIST_SERVICE = c.mem.WINDOW_LIST_SERVICE)
    (hloc : ∀ value, o.loc ≠ .store value)
    (hshown : ∀ service, .returns (some service) ∈ o.events → c.mem.WINDOW_LIST_SERVICE ≠ 0) :
    Sound number (tr ++ o.events.map (Prod.mk t)) (c.after t o) where
  cached hne := by
    rw [Config.after_mem, hmem] at hne ⊢
    exact (h.cached hne).imp_right fun hfound => hfound.append _
  storing := Config.forall_after (motive := fun _ => Storing number _)
    (fun value hat => absurd hat (hloc value)) fun u _ => (h.storing u).append _
  answered u service hmem' := by
    rw [Config.after_mem, hmem]
    rcases List.mem_append.mp hmem' with hold | hnew
    · exact h.answered u service hold
    · obtain ⟨e, he, heq⟩ := List.mem_map.mp hnew
      obtain ⟨-, rfl⟩ := Prod.mk.inj heq
      exact hshown service he

theorem nonzero_eq_some {known service : UInt32} :
    nonzero known = some service ↔ known ≠ 0 ∧ known = service := by
  unfold nonzero
  split
  · rename_i hne
    rw [Option.some.injEq]
    exact (and_iff_right hne).symm
  · rename_i hzero
    exact ⟨nofun, fun h => absurd h.1 hzero⟩

theorem Sound.after (h : Sound number tr c) (ha : a.Serves number) (t : T) :
    Sound number (tr ++ (program T t a c.mem (c.loc t)).events.map (Prod.mk t))
      (c.after t (program T t a c.mem (c.loc t))) := by
  cases hpc : c.loc t with
  | idle => exact h.quiet rfl nofun (by simp [program])
  | load =>
    unfold program
    by_cases hne : c.mem.WINDOW_LIST_SERVICE ≠ 0
    · rw [if_pos hne]
      exact h.quiet rfl nofun fun _ _ => hne
    · rw [if_neg hne]
      exact h.quiet rfl nofun nofun
  | fetch_add =>
    by_cases hlimit : RESOLVE_ATTEMPT_LIMIT ≤ c.mem.RESOLVE_ATTEMPTS
    · have hout : program T t a c.mem .fetch_add = ⟨{ c.mem with
          RESOLVE_ATTEMPTS := c.mem.RESOLVE_ATTEMPTS + 1 }, .load_again, [.tries false]⟩ :=
        if_pos hlimit
      rw [hout]
      exact h.quiet rfl nofun (by simp)
    · have hout : program T t a c.mem .fetch_add = ⟨{ c.mem with
          RESOLVE_ATTEMPTS := c.mem.RESOLVE_ATTEMPTS + 1 }, .search, [.tries true]⟩ :=
        if_neg hlimit
      rw [hout]
      exact h.quiet rfl nofun (by simp)
  | search =>
    cases hfound : discover a.memory a.gs_base with
    | none =>
      have hout : program T t a c.mem .search = ⟨c.mem, .load_again, [.finds none]⟩ := by
        simp only [program, hfound]
      rw [hout]
      exact h.quiet rfl nofun (by simp)
    | some value =>
      -- The number is found now.
      obtain ⟨rfl, hne⟩ := ha.discover hfound
      have hout : program T t a c.mem .search
          = ⟨c.mem, .store value, [.finds (some value)]⟩ := by
        simp only [program, hfound]
      rw [hout]
      have hnow : Found value (tr ++ [(t, Event.finds (some value))]) :=
        ⟨t, List.mem_append_right _ (List.mem_singleton.mpr rfl)⟩
      constructor
      · exact fun hcached => ⟨(h.cached hcached).1, hnow⟩
      · refine Config.forall_after (motive := fun _ => Storing value _) (fun value' hat => ?_)
          fun u _ => (h.storing u).append _
        cases hat
        exact ⟨rfl, hne, hnow⟩
      · intro u service hmem
        simp only [List.map_cons, List.map_nil, List.mem_append, List.mem_singleton, Prod.mk.injEq,
          reduceCtorEq, and_false, or_false] at hmem
        exact h.answered u service hmem
  | store value =>
    obtain ⟨rfl, hne, hfound⟩ := h.storing t value hpc
    constructor
    · exact fun _ => ⟨rfl, hfound.append _⟩
    · exact Config.forall_after (motive := fun _ => Storing value _) nofun fun u _ =>
        (h.storing u).append _
    · exact fun _ _ _ => hne
  | load_again =>
    refine h.quiet rfl nofun fun service hmem => ?_
    have hservice : some service = nonzero c.mem.WINDOW_LIST_SERVICE := by
      simpa [program] using hmem
    exact (nonzero_eq_some.mp hservice.symm).1

omit [DecidableEq T] in
/-- Every number that is returned has been found before. -/
theorem Sound.shown (h : Sound number tr c) {t : T} {service : UInt32}
    (he : (program T t a c.mem (c.loc t)).events = [.returns (some service)]) :
    service = number ∧ Found number tr := by
  cases hpc : c.loc t with
  | idle => simp [program, hpc] at he
  | load =>
    by_cases hne : c.mem.WINDOW_LIST_SERVICE ≠ 0
    · have hservice : c.mem.WINDOW_LIST_SERVICE = service := by
        simpa [program, hpc, hne] using he
      rw [← hservice]
      exact h.cached hne
    · simp [program, hpc, not_not.mp hne] at he
  | fetch_add =>
    by_cases hlimit : RESOLVE_ATTEMPT_LIMIT ≤ c.mem.RESOLVE_ATTEMPTS
    · simp [program, hpc, hlimit] at he
    · simp [program, hpc, hlimit] at he
  | search =>
    cases hfound : discover a.memory a.gs_base with
    | none => simp [program, hpc, hfound] at he
    | some value => simp [program, hpc, hfound] at he
  | store value =>
    obtain rfl : value = service := by simpa [program, hpc] using he
    obtain ⟨hvalue, -, hfound⟩ := h.storing t value hpc
    exact ⟨hvalue, hfound⟩
  | load_again =>
    have hservice : nonzero c.mem.WINDOW_LIST_SERVICE = some service := by
      simpa [program, hpc] using he
    obtain ⟨hne, rfl⟩ := nonzero_eq_some.mp hservice
    exact h.cached hne

omit [DecidableEq T] in
/-- Only a store writes the number. -/
theorem Sound.known (h : Sound number tr c) (t : T) (hknown : c.mem.WINDOW_LIST_SERVICE = number) :
    (program T t a c.mem (c.loc t)).mem.WINDOW_LIST_SERVICE = number := by
  cases hpc : c.loc t with
  | idle => exact hknown
  | load =>
    unfold program
    dsimp only
    split <;> exact hknown
  | fetch_add =>
    unfold program
    dsimp only
    split <;> exact hknown
  | search =>
    unfold program
    dsimp only
    split <;> exact hknown
  | store value => exact (h.storing t value hpc).1
  | load_again => exact hknown

/-- What a thread has shown since it began, when the number was known. -/
def Answers (number : UInt32) (u : T) (tr : List (T × Event)) (c : Config T Shared Pc) : Prop :=
  c.mem.WINDOW_LIST_SERVICE = number
    ∧ ∀ rest, tr = (u, .begins) :: rest →
      own u rest = [] ∧ c.loc u = .load ∨ (own u rest).head? = some (.returns (some number))

omit [DecidableEq T] in
/-- A step shows one event at most. -/
theorem program_one (t : T) (a : Choice) (m : Shared) (pc : Pc) :
    (program T t a m pc).events.length ≤ 1 := by
  cases pc with
  | idle | store value | load_again => exact Nat.le_refl 1
  | load | fetch_add | search =>
    unfold program
    dsimp only
    split <;> simp

omit [DecidableEq T] in
/-- Only an idle thread begins. -/
theorem loc_of_begins {t : T} {m : Shared} {pc : Pc}
    (h : (program T t a m pc).events = [.begins]) : (program T t a m pc).loc = .load := by
  cases pc with
  | idle => rfl
  | store value | load_again => simp [program] at h
  | load | fetch_add | search =>
    unfold program at h
    dsimp only at h
    split at h <;> simp at h

/-- The first thing that a thread shows after it has begun is its answer. -/
theorem Answers.after {u : T} {tr' : List (T × Event)} (h : Sound number tr c)
    (hans : Answers number u tr' c) (hne : number ≠ 0) (t : T) :
    Answers number u (tr' ++ (program T t a c.mem (c.loc t)).events.map (Prod.mk t))
      (c.after t (program T t a c.mem (c.loc t))) := by
  obtain ⟨hknown, hrest⟩ := hans
  refine ⟨h.known t hknown, fun rest htr => ?_⟩
  cases tr' with
  | nil =>
    -- The step is the one that begins.
    have hone := program_one t a c.mem (c.loc t)
    rw [List.nil_append, List.map_eq_cons_iff] at htr
    obtain ⟨e, es, hev, heq, rfl⟩ := htr
    obtain ⟨rfl, rfl⟩ := Prod.mk.inj heq
    rw [hev, List.length_cons] at hone
    obtain rfl := List.length_eq_zero_iff.mp (Nat.le_zero.mp (Nat.le_of_succ_le_succ hone))
    rw [Config.after_loc_self]
    exact Or.inl ⟨rfl, loc_of_begins hev⟩
  | cons e tr' =>
    rw [List.cons_append, List.cons.injEq] at htr
    obtain ⟨rfl, rfl⟩ := htr
    by_cases htu : t = u
    · subst htu
      rw [Threads.own_concat_self]
      obtain ⟨hnil, hload⟩ | hshown := hrest tr' rfl
      · right
        rw [hnil, hload, program]
        simp [hknown, hne]
      · right
        rw [List.head?_append, hshown]
        rfl
    · rw [Threads.own_concat_of_ne (Ne.symm htu), Config.after_loc_of_ne _ _ (Ne.symm htu)]
      exact hrest tr' rfl

end Number

/-! ## The number of searches -/

/-- The counter is the number of attempts, and what it was tells which of them have searched. -/
structure Counted (tr : List (T × Event)) (m : Shared) : Prop where
  attempts : m.RESOLVE_ATTEMPTS = .ofNat (tries tr)
  searched : searches tr = 16 * (tries tr / 2 ^ 32) + min (tries tr % 2 ^ 32) 16

omit [DecidableEq T] in
theorem tries_append (tr : List (T × Event)) (t : T) (es : List Event) :
    tries (tr ++ es.map (Prod.mk t)) = tries tr + es.countP Event.is_try := by
  rw [tries, List.countP_append, List.countP_map]
  rfl

omit [DecidableEq T] in
theorem searches_append (tr : List (T × Event)) (t : T) (es : List Event) :
    searches (tr ++ es.map (Prod.mk t)) = searches tr + es.countP Event.is_search := by
  rw [searches, List.countP_append, List.countP_map]
  rfl

omit [DecidableEq T] in
/-- A step that is not an attempt. -/
theorem Counted.quiet {tr : List (T × Event)} {m : Shared} (h : Counted tr m) (t : T)
    {o : Threads.Outcome Shared Pc Event} (hmem : o.mem.RESOLVE_ATTEMPTS = m.RESOLVE_ATTEMPTS)
    (htry : o.events.countP Event.is_try = 0) (hsearch : o.events.countP Event.is_search = 0) :
    Counted (tr ++ o.events.map (Prod.mk t)) o.mem := by
  constructor
  · rw [tries_append, htry, hmem]
    exact h.attempts
  · rw [tries_append, searches_append, htry, hsearch]
    exact h.searched

omit [DecidableEq T] in
theorem Counted.after {tr : List (T × Event)} {m : Shared} (h : Counted tr m) (t : T) (a : Choice)
    (pc : Pc) :
    Counted (tr ++ (program T t a m pc).events.map (Prod.mk t)) (program T t a m pc).mem := by
  cases pc with
  | idle | store value | load_again => exact h.quiet t rfl rfl rfl
  | load | search =>
    unfold program
    dsimp only
    split <;> exact h.quiet t rfl rfl rfl
  | fetch_add =>
    obtain ⟨hattempts, hsearched⟩ := h
    have hnext : m.RESOLVE_ATTEMPTS + 1 = .ofNat (tries tr + 1) := by
      rw [hattempts, UInt32.ofNat_add]
      rfl
    have hlimit : RESOLVE_ATTEMPT_LIMIT ≤ m.RESOLVE_ATTEMPTS ↔ 16 ≤ tries tr % 2 ^ 32 := by
      rw [hattempts, UInt32.le_iff_toNat_le, UInt32.toNat_ofNat']
      rfl
    by_cases hge : RESOLVE_ATTEMPT_LIMIT ≤ m.RESOLVE_ATTEMPTS
    · have hout : program T t a m .fetch_add = ⟨{ m with
          RESOLVE_ATTEMPTS := m.RESOLVE_ATTEMPTS + 1 }, .load_again, [.tries false]⟩ := if_pos hge
      have hover := hlimit.mp hge
      rw [hout]
      refine ⟨by rw [tries_append]; exact hnext, ?_⟩
      rw [tries_append, searches_append]
      change searches tr = 16 * ((tries tr + 1) / 2 ^ 32) + min ((tries tr + 1) % 2 ^ 32) 16
      omega
    · have hout : program T t a m .fetch_add = ⟨{ m with
          RESOLVE_ATTEMPTS := m.RESOLVE_ATTEMPTS + 1 }, .search, [.tries true]⟩ := if_neg hge
      have hunder := mt hlimit.mpr hge
      rw [hout]
      refine ⟨by rw [tries_append]; exact hnext, ?_⟩
      rw [tries_append, searches_append]
      change searches tr + 1 = 16 * ((tries tr + 1) / 2 ^ 32) + min ((tries tr + 1) % 2 ^ 32) 16
      omega

theorem counted_run (s : List (T × Choice)) :
    Counted (trace (program T) (initial T) s) (run (program T) (initial T) s).mem :=
  Threads.run_induct_after (program T) (I := fun tr d => Counted tr d.mem)
    ⟨rfl, by simp [searches, tries]⟩ (fun _ _ t a h => h.after t a _) s

/-! ## Runs -/

section Runs

variable {number : UInt32} {s : List (T × Choice)}

theorem sound_run (h : ∀ x ∈ s, x.2.Serves number) :
    Sound number (trace (program T) (initial T) s) (run (program T) (initial T) s) :=
  Threads.run_induct_choices (program T) sound_initial (fun _ _ x hx hs => hs.after hx x.1) h

theorem found_run (h : ∀ x ∈ s, x.2.Serves number) {pre : List (T × Event)} {t : T}
    {service : UInt32}
    (hpre : pre ++ [(t, .returns (some service))] <+: trace (program T) (initial T) s) :
    service = number ∧ Found number pre :=
  Threads.event_induct_of (program T) program_one
    (G := fun pre _ e => ∀ service, e = .returns (some service) →
      service = number ∧ Found number pre)
    sound_initial (fun _ _ t _ ha hs => hs.after ha t)
    (fun _ _ _ _ _ _ hs he _ hservice => hs.shown (hservice ▸ he))
    (Threads.allSteps_of_choices (program T) h) hpre service rfl

theorem lasting_run (h : ∀ x ∈ s, x.2.Serves number) {before mid rest : List (T × Event)} {t u : T}
    {service : UInt32} (htr : trace (program T) (initial T) s
      = before ++ (t, .returns (some service)) :: (mid ++ (u, .begins) :: rest)) :
    ∀ e ∈ (own u rest).head?, e = .returns (some number) := by
  have hpre : before ++ (t, .returns (some service)) :: mid <+: trace (program T) (initial T) s :=
    ⟨(u, .begins) :: rest, by rw [htr]; simp⟩
  obtain ⟨s₁, ⟨s₂, rfl⟩, htr₁⟩ := Threads.exists_prefix_of_trace (program T) program_one hpre
  -- The number is known from `s₁` on.
  have hsound := sound_run fun x hx => h x (List.mem_append_left s₂ hx)
  have hstored := hsound.answered t service (by rw [htr₁]; simp)
  obtain ⟨hknown, -⟩ := hsound.cached hstored
  have hne : number ≠ 0 := hknown ▸ hstored
  have hrest : trace (program T) (run (program T) (initial T) s₁) s₂ = (u, .begins) :: rest := by
    rw [Threads.trace_append, htr₁, List.append_assoc, List.cons_append] at htr
    exact List.append_cancel_left (List.cons.inj (List.append_cancel_left htr)).2
  obtain ⟨-, -, hanswers⟩ := Threads.run_induct_choices (program T)
    (I := fun tr' d => Sound number (trace (program T) (initial T) s₁ ++ tr') d
      ∧ Answers number u tr' d)
    ⟨by rwa [List.append_nil], hknown, nofun⟩
    (fun tr' d x hx ⟨hs, hans⟩ =>
      ⟨by rw [← List.append_assoc]; exact hs.after hx x.1, hans.after hs hne x.1⟩)
    fun x hx => h x (List.mem_append_right s₁ hx)
  rintro e he
  obtain ⟨hnil, -⟩ | hhead := hanswers rest hrest
  · rw [hnil] at he
    cases he
  · rw [hhead] at he
    exact (Option.some.inj he).symm

/-- **The service is resolved once.** Whatever the threads do, no call returns a number that was
not found, after one has returned it all that begin do, and of 2^32 attempts 16 search. -/
theorem service_is_resolved_once (h : ∀ x ∈ s, x.2.Serves number) :
    Resolved number (trace (program T) (initial T) s) where
  found _ _ _ hpre := found_run h hpre
  lasting _ _ _ _ _ _ htr := lasting_run h htr
  searched := (counted_run s).searched

end Runs

/-- Two threads search for the service, after a search that was too early. -/
def meeting : List (Bool × Choice) :=
  let early : Choice := ⟨LoaderList.guest_memory, none⟩
  let late : Choice := ⟨LoaderList.guest_memory, some 0x20000⟩
  Threads.steps false 5 early ++ Threads.steps false 4 late ++ Threads.steps true 4 late
    ++ [(true, late), (false, late)] ++ Threads.steps true 2 late

theorem meeting_is_resolved :
    (∀ x ∈ meeting, x.2.Serves 0x135a)
      ∧ Resolved 0x135a (trace (program Bool) (initial Bool) meeting)
      ∧ (trace (program Bool) (initial Bool) meeting).map Prod.snd
        = [.begins, .tries true, .finds none, .returns none,
          .begins, .tries true, .finds (some 0x135a), .begins, .tries true, .finds (some 0x135a),
          .returns (some 0x135a), .returns (some 0x135a), .begins, .returns (some 0x135a)] := by
  have hserves : ∀ x ∈ meeting, x.2.Serves 0x135a := by
    intro x hx gs_base hgs
    have hguest : x.2 = ⟨LoaderList.guest_memory, none⟩
        ∨ x.2 = ⟨LoaderList.guest_memory, some 0x20000⟩ := by
      simp only [meeting, Threads.steps, List.mem_append, List.mem_replicate, List.mem_cons,
        List.not_mem_nil, or_false] at hx
      rcases hx with (((⟨-, rfl⟩ | ⟨-, rfl⟩) | ⟨-, rfl⟩) | rfl | rfl) | ⟨-, rfl⟩ <;> simp
    rcases hguest with h | h
    · rw [h] at hgs
      cases hgs
    · rw [h] at hgs ⊢
      cases hgs
      refine ⟨LoaderList.guest, fun service hservice => ?_⟩
      rw [LoaderList.guest_service] at hservice
      exact (Option.some.inj hservice).symm
  exact ⟨hserves, service_is_resolved_once hserves, by decide +kernel⟩

/-! ## One call -/

/-- A call that no other thread meets is `window_list_service` of `SigsysRouter.lean`. -/
theorem window_list_service_alone (w : SigsysRouter.Router) (trap : SigsysRouter.Trap) (t : T)
    (a : Choice)
    (hfinds : trap.discovered.filter (· ≠ 0) = discover a.memory a.gs_base) :
    ∃ es, Completes (program T) .idle t a ⟨w.WINDOW_LIST_SERVICE, w.RESOLVE_ATTEMPTS⟩ .load
      (es ++ [.returns (SigsysRouter.window_list_service w trap).1])
      ⟨(SigsysRouter.window_list_service w trap).2.WINDOW_LIST_SERVICE,
        (SigsysRouter.window_list_service w trap).2.RESOLVE_ATTEMPTS⟩ := by
  have hagain (attempts : UInt32) (hzero : w.WINDOW_LIST_SERVICE = 0) :
      program T t a ⟨w.WINDOW_LIST_SERVICE, attempts⟩ .load_again
        = ⟨⟨w.WINDOW_LIST_SERVICE, attempts⟩, .idle, [.returns none]⟩ := by
    rw [hzero]
    rfl
  unfold SigsysRouter.window_list_service
  by_cases hknown : w.WINDOW_LIST_SERVICE ≠ 0
  · rw [if_pos hknown]
    exact Completes.ends_last _ [] (if_pos hknown)
  · have hzero := not_not.mp hknown
    rw [if_neg hknown]
    refine Completes.ends_next _ (if_neg hknown) ?_
    by_cases hlimit : RESOLVE_ATTEMPT_LIMIT ≤ w.RESOLVE_ATTEMPTS
    · simp only [ge_iff_le, if_pos hlimit]
      exact Completes.ends_next _ (if_pos hlimit) (Completes.ends_last _ [] (hagain _ hzero))
    · simp only [ge_iff_le, if_neg hlimit, hfinds]
      refine Completes.ends_next _ (if_neg hlimit) ?_
      cases hfound : discover a.memory a.gs_base with
      | none =>
        have hsearch : program T t a ⟨w.WINDOW_LIST_SERVICE, w.RESOLVE_ATTEMPTS + 1⟩ .search
            = ⟨⟨w.WINDOW_LIST_SERVICE, w.RESOLVE_ATTEMPTS + 1⟩, .load_again, [.finds none]⟩ := by
          simp only [program, hfound]
        exact Completes.ends_next _ hsearch (Completes.ends_last _ [] (hagain _ hzero))
      | some number =>
        have hsearch : program T t a ⟨w.WINDOW_LIST_SERVICE, w.RESOLVE_ATTEMPTS + 1⟩ .search
            = ⟨⟨w.WINDOW_LIST_SERVICE, w.RESOLVE_ATTEMPTS + 1⟩, .store number,
              [.finds (some number)]⟩ := by
          simp only [program, hfound]
        exact Completes.ends_next _ hsearch (Completes.ends_last _ [] rfl)

end Linuwux.WindowList
