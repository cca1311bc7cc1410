/-
`CallerCacheThreads.lean` -- `CallerCache::lookup` and `CallerCache::insert` among several
threads.

An entry has no lock a reader takes. A writer makes the entry's sequence number odd, stores
the three fields and makes it even again, and a reader that finds the same even number before
and after its loads has seen no store in between, unless the number has come all the way
round: [`same_version`] is that argument. Writers are kept apart by `lock`, which
is only tried.

A handler that interrupts another one is a thread of its own here, one that moves while the
other stands still. All orders of the steps are allowed, and those are among them.
-/
import Linuwux.CallerCache
import Linuwux.Threads

set_option autoImplicit false

namespace Linuwux.Callers

variable {T : Type*}

open Threads (Program Config Outcome run trace own Completes)

/-- What is inserted, and what is found. -/
structure Range where
  start : UInt64
  stop : UInt64
  kind : CallerKind
  deriving DecidableEq, Repr

/-- What an idle thread calls. -/
inductive Choice where
  | insert (range : Range)
  | lookup (address : UInt64)

inductive Event where
  /-- A lookup is called. -/
  | began (address : UInt64)
  /-- The sequence of this entry is odd from now on. -/
  | opened (index : ℕ)
  /-- The entry is written, and its sequence is even again. -/
  | published (index : ℕ) (range : Range)
  /-- A lookup returns `Some(kind)`, from this entry and these loads. -/
  | found (address : UInt64) (index : ℕ) (range : Range)
  /-- A lookup returns `None`. -/
  | missed (address : UInt64)
  deriving DecidableEq

/-- The access that `insert` or `lookup` is about to make. -/
inductive Pc where
  | idle
  | acquire (range : Range)
  | load_next (range : Range)
  | store_next (range : Range) (index : ℕ)
  | load_sequence (range : Range) (index : ℕ)
  | store_odd (range : Range) (index : ℕ) (sequence : UInt32)
  | store_start (range : Range) (index : ℕ) (sequence : UInt32)
  | store_end (range : Range) (index : ℕ) (sequence : UInt32)
  | store_kind (range : Range) (index : ℕ) (sequence : UInt32)
  | store_even (range : Range) (index : ℕ) (sequence : UInt32)
  | release
  | load_before (address : UInt64) (index : ℕ)
  | load_start (address : UInt64) (index : ℕ) (before : UInt32)
  | load_end (address : UInt64) (index : ℕ) (before : UInt32) (start : UInt64)
  | load_kind (address : UInt64) (index : ℕ) (before : UInt32) (start stop : UInt64)
  | reload (address : UInt64) (index : ℕ) (before : UInt32) (start stop : UInt64) (kind : UInt32)

/-- The turn of the loop for this entry is over. -/
def turn (m : CallerCache) (address : UInt64) (index : ℕ) : Outcome CallerCache Pc Event :=
  if index + 1 < CALLER_CACHE_CAP then ⟨m, .load_before address (index + 1), []⟩
  else ⟨m, .idle, [.missed address]⟩

def program (T : Type*) : Program T Choice CallerCache Pc Event := fun _ a m pc =>
  match pc with
  | .idle =>
    match a with
    | .insert range => ⟨m, .acquire range, []⟩
    | .lookup address => ⟨m, .load_before address 0, [.began address]⟩
  | .acquire range =>
    if m.lock then ⟨m, .idle, []⟩ else ⟨{ m with lock := true }, .load_next range, []⟩
  | .load_next range => ⟨m, .store_next range (m.next.toNat % CALLER_CACHE_CAP), []⟩
  | .store_next range index =>
    ⟨{ m with next := .ofNat (index + 1) }, .load_sequence range index, []⟩
  | .load_sequence range index => ⟨m, .store_odd range index (m.sequences index), []⟩
  | .store_odd range index sequence =>
    ⟨{ m with sequences := Function.update m.sequences index (sequence + 1) },
      .store_start range index sequence, [.opened index]⟩
  | .store_start range index sequence =>
    ⟨{ m with starts := Function.update m.starts index range.start },
      .store_end range index sequence, []⟩
  | .store_end range index sequence =>
    ⟨{ m with ends := Function.update m.ends index range.stop },
      .store_kind range index sequence, []⟩
  | .store_kind range index sequence =>
    ⟨{ m with kinds := Function.update m.kinds index range.kind.raw },
      .store_even range index sequence, []⟩
  | .store_even range index sequence =>
    ⟨{ m with sequences := Function.update m.sequences index (sequence + 2) },
      .release, [.published index range]⟩
  | .release => ⟨{ m with lock := false }, .idle, []⟩
  | .load_before address index =>
    if m.sequences index &&& 1 ≠ 0 then turn m address index
    else ⟨m, .load_start address index (m.sequences index), []⟩
  | .load_start address index before =>
    ⟨m, .load_end address index before (m.starts index), []⟩
  | .load_end address index before start =>
    ⟨m, .load_kind address index before start (m.ends index), []⟩
  | .load_kind address index before start stop =>
    ⟨m, .reload address index before start stop (m.kinds index), []⟩
  | .reload address index before start stop kind =>
    if m.sequences index = before ∧ start ≤ address ∧ address < stop then
      ⟨m, .idle, [.found address index ⟨start, stop, .from_raw kind⟩]⟩
    else turn m address index

def start (T : Type*) : Config T CallerCache Pc := ⟨.new, fun _ => .idle⟩

/-! ## Versions

The sequence of an entry counts its openings and its publications. -/

def Event.opens (index : ℕ) : Event → Bool
  | .opened i => i = index
  | _ => false

def Event.publishes (index : ℕ) : Event → Bool
  | .published i _ => i = index
  | _ => false

def opened (index : ℕ) (tr : List (T × Event)) : ℕ := tr.countP fun x => x.2.opens index

def published (index : ℕ) (tr : List (T × Event)) : ℕ := tr.countP fun x => x.2.publishes index

@[simp] theorem opened_append (index : ℕ) (tr tr' : List (T × Event)) :
    opened index (tr ++ tr') = opened index tr + opened index tr' := List.countP_append

@[simp] theorem published_append (index : ℕ) (tr tr' : List (T × Event)) :
    published index (tr ++ tr') = published index tr + published index tr' := List.countP_append

@[simp] theorem opened_nil (index : ℕ) : opened index ([] : List (T × Event)) = 0 := rfl

@[simp] theorem published_nil (index : ℕ) : published index ([] : List (T × Event)) = 0 := rfl

@[simp] theorem opened_singleton (index : ℕ) (t : T) (e : Event) :
    opened index [(t, e)] = if e.opens index then 1 else 0 := List.countP_singleton

@[simp] theorem published_singleton (index : ℕ) (t : T) (e : Event) :
    published index [(t, e)] = if e.publishes index then 1 else 0 := List.countP_singleton

/-- The test of `load_before` looks at the lowest bit of the sequence. -/
theorem even_iff (n : ℕ) : UInt32.ofNat n &&& 1 = 0 ↔ n % 2 = 0 := by
  rw [← UInt32.toNat_inj, UInt32.toNat_and, UInt32.toNat_ofNat']
  change n % 2 ^ 32 &&& 1 = 0 ↔ _
  rw [Nat.and_one_is_mod]
  omega

/-- **The version argument.** `k` publications ago the sequence was the same even number, and it
has not come all the way round: nothing has been opened since. -/
theorem same_version {k o p : ℕ} (hk : k ≤ p) (hp : p ≤ o) (ho : o ≤ p + 1)
    (hround : p - k < 2 ^ 31) (h : UInt32.ofNat (o + p) = .ofNat (2 * k)) : o = k := by
  rw [← UInt32.toNat_inj, UInt32.toNat_ofNat', UInt32.toNat_ofNat'] at h
  omega

/-! ## What one step changes -/

/-- Between the exchange that takes the lock and the store that gives it back. -/
def Pc.holds : Pc → Bool
  | .load_next _ | .store_next _ _ | .load_sequence _ _ | .store_odd _ _ _ | .store_start _ _ _
  | .store_end _ _ _ | .store_kind _ _ _ | .store_even _ _ _ | .release => true
  | _ => false

/-- The entry whose sequence the thread has made odd. -/
def Pc.writes : Pc → Option ℕ
  | .store_start _ index _ | .store_end _ index _ | .store_kind _ index _
  | .store_even _ index _ => some index
  | _ => none

/-- The fields of an entry. -/
def fields (m : CallerCache) (index : ℕ) : UInt64 × UInt64 × UInt32 :=
  (m.starts index, m.ends index, m.kinds index)

/-- Opens and publishes nothing. -/
def Quiet (es : List Event) : Prop := ∀ e ∈ es, ∀ i, e.opens i = false ∧ e.publishes i = false

/-- What a step does that is not a store of a sequence. -/
structure Plain (m : CallerCache) (pc : Pc) (o : Outcome CallerCache Pc Event) : Prop where
  sequences : o.mem.sequences = m.sequences
  fields : ∀ i, pc.writes ≠ some i → fields o.mem i = fields m i
  writes : o.loc.writes = pc.writes
  quiet : Quiet o.events

/-- The step stores a sequence. -/
def Pc.storesSequence : Pc → Bool
  | .store_odd _ _ _ | .store_even _ _ _ => true
  | _ => false

/-- Most steps show nothing. -/
theorem quiet_nil : Quiet [] := nofun

/-- A lookup that goes on to the next entry, or gives up, stores nothing. -/
theorem plain_turn {m : CallerCache} {pc : Pc} (hpc : pc.writes = none) (address : UInt64)
    (index : ℕ) : Plain m pc (turn m address index) := by
  unfold turn
  split
  · exact ⟨rfl, fun _ _ => rfl, hpc.symm, quiet_nil⟩
  · exact ⟨rfl, fun _ _ => rfl, hpc.symm, by simp [Quiet, Event.opens, Event.publishes]⟩

/-! The three steps that decide, one equation for each way to go on. -/

/-- The exchange finds the lock taken, and the insert is given up, or takes it. -/
theorem acquire_step (t : T) (a : Choice) (m : CallerCache) (range : Range) :
    program T t a m (.acquire range) = ⟨m, .idle, []⟩
      ∨ m.lock = false
        ∧ program T t a m (.acquire range) = ⟨{ m with lock := true }, .load_next range, []⟩ := by
  cases hlock : m.lock with
  | true => exact Or.inl (if_pos hlock)
  | false => exact Or.inr ⟨rfl, if_neg (by rw [hlock]; decide)⟩

/-- A lookup passes over an entry that is being written. -/
theorem load_before_step (t : T) (a : Choice) (m : CallerCache) (address : UInt64) (index : ℕ) :
    program T t a m (.load_before address index) = turn m address index
      ∨ m.sequences index &&& 1 = 0 ∧ program T t a m (.load_before address index)
        = ⟨m, .load_start address index (m.sequences index), []⟩ := by
  by_cases heven : m.sequences index &&& 1 = 0
  · exact Or.inr ⟨heven, if_neg (not_not.mpr heven)⟩
  · exact Or.inl (if_pos heven)

/-- A lookup answers from an entry only if its sequence is still what it was and the address lies
in the range. -/
theorem reload_step (t : T) (a : Choice) (m : CallerCache) (address : UInt64) (index : ℕ)
    (before : UInt32) (start stop : UInt64) (kind : UInt32) :
    program T t a m (.reload address index before start stop kind) = turn m address index
      ∨ (m.sequences index = before ∧ start ≤ address ∧ address < stop)
        ∧ program T t a m (.reload address index before start stop kind)
          = ⟨m, .idle, [.found address index ⟨start, stop, .from_raw kind⟩]⟩ := by
  by_cases hin : m.sequences index = before ∧ start ≤ address ∧ address < stop
  · exact Or.inr ⟨hin, if_pos hin⟩
  · exact Or.inl (if_neg hin)

/-- Every step but the two stores of a sequence leaves the sequences alone, and the fields of
every entry but the one the thread writes. -/
theorem plain_step (t : T) (a : Choice) (m : CallerCache) {pc : Pc}
    (h : pc.storesSequence = false) : Plain m pc (program T t a m pc) := by
  have hload {pc pc' : Pc} {es : List Event} (hpc : pc'.writes = pc.writes) (hes : Quiet es) :
      Plain m pc ⟨m, pc', es⟩ := ⟨rfl, fun _ _ => rfl, hpc, hes⟩
  cases pc with
  | idle =>
    cases a with
    | insert range => exact hload rfl quiet_nil
    | lookup address => exact hload rfl (by simp [Quiet, Event.opens, Event.publishes])
  | acquire range =>
    obtain hstep | ⟨-, hstep⟩ := acquire_step t a m range
    · rw [hstep]
      exact hload rfl quiet_nil
    · rw [hstep]
      exact ⟨rfl, fun _ _ => rfl, rfl, quiet_nil⟩
  | load_next range => exact hload rfl quiet_nil
  | store_next range index => exact ⟨rfl, fun _ _ => rfl, rfl, quiet_nil⟩
  | load_sequence range index => exact hload rfl quiet_nil
  | store_odd range index sequence => cases h
  | store_start range index sequence =>
    refine ⟨rfl, fun i hi => ?_, rfl, quiet_nil⟩
    have hne : i ≠ index := fun heq => hi (congrArg some heq.symm)
    simp [fields, program, Function.update_of_ne hne]
  | store_end range index sequence =>
    refine ⟨rfl, fun i hi => ?_, rfl, quiet_nil⟩
    have hne : i ≠ index := fun heq => hi (congrArg some heq.symm)
    simp [fields, program, Function.update_of_ne hne]
  | store_kind range index sequence =>
    refine ⟨rfl, fun i hi => ?_, rfl, quiet_nil⟩
    have hne : i ≠ index := fun heq => hi (congrArg some heq.symm)
    simp [fields, program, Function.update_of_ne hne]
  | store_even range index sequence => cases h
  | release => exact ⟨rfl, fun _ _ => rfl, rfl, quiet_nil⟩
  | load_before address index =>
    obtain hstep | ⟨-, hstep⟩ := load_before_step t a m address index
    · rw [hstep]
      exact plain_turn rfl address index
    · rw [hstep]
      exact hload rfl quiet_nil
  | load_start address index before => exact hload rfl quiet_nil
  | load_end address index before start => exact hload rfl quiet_nil
  | load_kind address index before start stop => exact hload rfl quiet_nil
  | reload address index before start stop kind =>
    obtain hstep | ⟨-, hstep⟩ := reload_step t a m address index before start stop kind
    · rw [hstep]
      exact plain_turn rfl address index
    · rw [hstep]
      exact hload rfl (by simp [Quiet, Event.opens, Event.publishes])

/-- Quiet events open no entry. -/
theorem Quiet.opened {es : List Event} (h : Quiet es) (t : T) (i : ℕ) :
    opened i (es.map (Prod.mk t)) = 0 := by
  unfold Callers.opened
  rw [List.countP_eq_zero]
  intro x hx
  obtain ⟨e, he, rfl⟩ := List.mem_map.mp hx
  rw [(h e he i).1]
  decide

/-- Quiet events publish no entry. -/
theorem Quiet.published {es : List Event} (h : Quiet es) (t : T) (i : ℕ) :
    published i (es.map (Prod.mk t)) = 0 := by
  unfold Callers.published
  rw [List.countP_eq_zero]
  intro x hx
  obtain ⟨e, he, rfl⟩ := List.mem_map.mp hx
  rw [(h e he i).2]
  decide

/-- The store of an odd sequence opens its entry. -/
theorem opened_store_odd (t : T) (a : Choice) (m : CallerCache) (range : Range) (i index : ℕ)
    (sequence : UInt32) :
    opened i ((program T t a m (.store_odd range index sequence)).events.map (Prod.mk t))
      = if i = index then 1 else 0 := by
  simp [program, Event.opens, eq_comm]

theorem published_store_odd (t : T) (a : Choice) (m : CallerCache) (range : Range) (i index : ℕ)
    (sequence : UInt32) :
    published i ((program T t a m (.store_odd range index sequence)).events.map (Prod.mk t))
      = 0 := rfl

theorem opened_store_even (t : T) (a : Choice) (m : CallerCache) (range : Range) (i index : ℕ)
    (sequence : UInt32) :
    opened i ((program T t a m (.store_even range index sequence)).events.map (Prod.mk t))
      = 0 := rfl

/-- The store of an even sequence publishes its entry. -/
theorem published_store_even (t : T) (a : Choice) (m : CallerCache) (range : Range)
    (i index : ℕ) (sequence : UInt32) :
    published i ((program T t a m (.store_even range index sequence)).events.map (Prod.mk t))
      = if i = index then 1 else 0 := by
  simp [program, Event.publishes, eq_comm]

/-- Only a holder stores sequences and fields. -/
theorem Pc.holds_of_writes {pc : Pc} {i : ℕ} (h : pc.writes = some i) : pc.holds = true := by
  cases pc <;> first | rfl | cases h

/-- The lock is kept like every spin lock: the program points that hold it are entered by the
exchange and left by the store. -/
theorem lock_step (t : T) (a : Choice) (m : CallerCache) (pc : Pc) :
    Threads.LockStep CallerCache.lock Pc.holds m pc (program T t a m pc) := by
  have hturn (address : UInt64) (index : ℕ) :
      (turn m address index).loc.holds = false ∧ (turn m address index).mem.lock = m.lock := by
    unfold turn
    split <;> exact ⟨rfl, rfl⟩
  cases pc with
  | idle => cases a <;> exact Or.inl ⟨rfl, rfl⟩
  | acquire range =>
    obtain hstep | ⟨hfree, hstep⟩ := acquire_step t a m range
    · rw [hstep]
      exact Or.inl ⟨rfl, rfl⟩
    · rw [hstep]
      exact Or.inr (Or.inl ⟨hfree, rfl, rfl⟩)
  | release => exact Or.inr (Or.inr ⟨rfl, rfl⟩)
  | load_before address index =>
    obtain hstep | ⟨-, hstep⟩ := load_before_step t a m address index
    · rw [hstep]
      exact Or.inl (hturn address index)
    · rw [hstep]
      exact Or.inl ⟨rfl, rfl⟩
  | reload address index before start stop kind =>
    obtain hstep | ⟨-, hstep⟩ := reload_step t a m address index before start stop kind
    · rw [hstep]
      exact Or.inl (hturn address index)
    · rw [hstep]
      exact Or.inl ⟨rfl, rfl⟩
  | _ => exact Or.inl ⟨rfl, rfl⟩

variable [DecidableEq T]

/-- An insert that finds the lock free. -/
theorem insert_unlocked (t : T) (a : Choice) {m : CallerCache} (hfree : m.lock = false)
    (range : Range) :
    Completes (program T) .idle t a m (.acquire range)
      [.opened (m.next.toNat % CALLER_CACHE_CAP),
        .published (m.next.toNat % CALLER_CACHE_CAP) range]
      (m.insert range.start range.stop range.kind) := by
  have hacquire : program T t a m (.acquire range)
      = ⟨{ m with lock := true }, .load_next range, []⟩ := if_neg (by rw [hfree]; decide)
  -- The two stores of the sequence are one.
  have hinsert : m.insert range.start range.stop range.kind =
      let index := m.next.toNat % CALLER_CACHE_CAP
      { lock := false
        next := .ofNat (index + 1)
        sequences := Function.update (Function.update m.sequences index (m.sequences index + 1))
          index (m.sequences index + 2)
        starts := Function.update m.starts index range.start
        ends := Function.update m.ends index range.stop
        kinds := Function.update m.kinds index range.kind.raw } := by
    unfold CallerCache.insert
    rw [if_neg (by rw [hfree]; decide), hfree]
    dsimp only
    rw [Function.update_idem]
  rw [hinsert]
  refine .next _ _ hacquire (.next _ _ rfl (.next _ _ rfl (.next _ _ rfl (.next _ _ rfl ?_))))
  exact .next _ _ rfl (.next _ _ rfl (.next _ _ rfl (.next _ _ rfl (.next _ _ rfl
    (.refl _ _ t a _)))))

/-- **Insert, alone.** -/
theorem insert_alone (t : T) (a : Choice) (m : CallerCache) (range : Range) :
    ∃ es, Completes (program T) .idle t a m (.acquire range) es
      (m.insert range.start range.stop range.kind) := by
  cases hlock : m.lock with
  | false => exact ⟨_, insert_unlocked t a hlock range⟩
  | true =>
    have hbusy : program T t a m (.acquire range) = ⟨m, .idle, []⟩ := if_pos hlock
    have hinsert : m.insert range.start range.stop range.kind = m := if_pos hlock
    rw [hinsert]
    exact ⟨[], .next _ _ hbusy (.refl _ _ t a m)⟩

/-- A turn of `lookup` that finds the address. -/
theorem turn_hit (t : T) (a : Choice) {m : CallerCache} {address : UInt64} {index : ℕ}
    {kind : CallerKind} (h : m.entry address index = some kind) :
    Completes (program T) .idle t a m (.load_before address index)
      [.found address index ⟨m.starts index, m.ends index, kind⟩] m := by
  obtain ⟨heven, hin, hkind⟩ := entry_eq_some.mp h
  have hbefore : program T t a m (.load_before address index)
      = ⟨m, .load_start address index (m.sequences index), []⟩ := if_neg (not_not.mpr heven)
  have hreload : program T t a m (.reload address index (m.sequences index) (m.starts index)
        (m.ends index) (m.kinds index))
      = ⟨m, .idle, [.found address index ⟨m.starts index, m.ends index, kind⟩]⟩ := by
    rw [← hkind]
    exact if_pos ⟨rfl, hin⟩
  exact .next _ _ hbefore (.next _ _ rfl (.next _ _ rfl (.next _ _ rfl (.next _ _ hreload
    (.refl _ _ t a m)))))

/-- A turn of `lookup` that does not. -/
theorem turn_miss (t : T) (a : Choice) {m : CallerCache} {address : UInt64} {index : ℕ}
    (h : m.entry address index = none) (es : List Event)
    (hrest : Completes (program T) .idle t a m (turn m address index).loc es m) :
    Completes (program T) .idle t a m (.load_before address index)
      ((turn m address index).events ++ es) m := by
  have hmem : (turn m address index).mem = m := by
    unfold turn
    split <;> rfl
  have hrest' : Completes (program T) .idle t a (turn m address index).mem
      (turn m address index).loc es m := by
    rw [hmem]
    exact hrest
  by_cases heven : m.sequences index &&& 1 = 0
  · have hbefore : program T t a m (.load_before address index)
        = ⟨m, .load_start address index (m.sequences index), []⟩ := if_neg (not_not.mpr heven)
    have hreload : program T t a m (.reload address index (m.sequences index) (m.starts index)
        (m.ends index) (m.kinds index)) = turn m address index := by
      refine if_neg fun hin => ?_
      rw [entry_eq_some.mpr ⟨heven, hin.2, rfl⟩] at h
      cases h
    have hturns := Completes.next (program T) _ hbefore (.next _ _ rfl (.next _ _ rfl
      (.next _ _ rfl (.next _ _ hreload hrest'))))
    exact hturns
  · have hbefore : program T t a m (.load_before address index) = turn m address index :=
      if_pos heven
    exact .next _ _ hbefore hrest'

/-- What a return says. -/
def Event.answer : Event → Option CallerKind
  | .found _ _ range => some range.kind
  | _ => none

/-- The turns from `index` on, alone. The induction is on how many there are. -/
theorem turns_alone (t : T) (a : Choice) (m : CallerCache) (address : UInt64) (index n : ℕ)
    (hn : index + n + 1 = CALLER_CACHE_CAP) :
    ∃ e, Completes (program T) .idle t a m (.load_before address index) [e] m
      ∧ (List.range' index (n + 1)).findSome? (m.entry address) = e.answer := by
  induction n generalizing index with
  | zero =>
    rw [List.range'_one, List.findSome?_singleton]
    cases h : m.entry address index with
    | some kind => exact ⟨_, turn_hit t a h, rfl⟩
    | none =>
      have hturn : turn m address index = ⟨m, .idle, [.missed address]⟩ := if_neg (by omega)
      refine ⟨.missed address, ?_, rfl⟩
      have hmiss := turn_miss t a h [] (by rw [hturn]; exact .refl _ _ t a m)
      rwa [hturn] at hmiss
  | succ n ih =>
    rw [List.range'_succ, List.findSome?_cons]
    cases h : m.entry address index with
    | some kind => exact ⟨_, turn_hit t a h, rfl⟩
    | none =>
      have hturn : turn m address index = ⟨m, .load_before address (index + 1), []⟩ :=
        if_pos (by omega)
      obtain ⟨e, he, hanswer⟩ := ih (index + 1) (by omega)
      refine ⟨e, ?_, hanswer⟩
      have hmiss := turn_miss t a h [e] (by rw [hturn]; exact he)
      rwa [hturn] at hmiss

/-- **Lookup, alone.** -/
theorem lookup_alone (t : T) (a : Choice) (m : CallerCache) (address : UInt64) :
    ∃ e, Completes (program T) .idle t a m (.load_before address 0) [e] m
      ∧ m.lookup address = e.answer := by
  rw [CallerCache.lookup, List.range_eq_range']
  exact turns_alone t a m address 0 63 rfl

/-! ## The invariant -/

/-- What the thread has shown since it called `lookup` is nothing, and the others have shown
`post`. -/
def Since (tr : List (T × Event)) (t : T) (post : List (T × Event)) : Prop :=
  ∃ pre address, tr = pre ++ (t, .began address) :: post ∧ own t post = []

/-- The thread has loaded the sequence `before` in its lookup. Where the entry has not been opened
since, `P` holds. -/
def Reading (tr : List (T × Event)) (t : T) (index : ℕ) (before : UInt32) (P : Prop) : Prop :=
  ∃ k post, Since tr t post ∧ before = .ofNat (2 * k) ∧ k ≤ published index tr
    ∧ published index tr - k ≤ published index post ∧ (opened index tr = k → P)

/-- The thread has opened the entry, `sequence` being its number before. -/
def Writing (tr : List (T × Event)) (m : CallerCache) (index : ℕ) (sequence : UInt32) : Prop :=
  m.sequences index = sequence + 1 ∧ opened index tr = published index tr + 1

/-- What a thread may rely on. -/
def Pc.Assumes (tr : List (T × Event)) (m : CallerCache) (t : T) : Pc → Prop
  | .idle | .acquire _ | .load_next _ | .store_next _ _ | .load_sequence _ _ | .release => True
  | .store_odd _ index sequence => m.sequences index = sequence
  | .store_start _ index sequence => Writing tr m index sequence
  | .store_end range index sequence =>
    Writing tr m index sequence ∧ m.starts index = range.start
  | .store_kind range index sequence =>
    Writing tr m index sequence ∧ m.starts index = range.start ∧ m.ends index = range.stop
  | .store_even range index sequence =>
    Writing tr m index sequence ∧ fields m index = (range.start, range.stop, range.kind.raw)
  | .load_before _ _ => ∃ post, Since tr t post
  | .load_start _ index before => Reading tr t index before True
  | .load_end _ index before start => Reading tr t index before (m.starts index = start)
  | .load_kind _ index before start stop =>
    Reading tr t index before (m.starts index = start ∧ m.ends index = stop)
  | .reload _ index before start stop kind =>
    Reading tr t index before (fields m index = (start, stop, kind))

structure Inv (tr : List (T × Event)) (c : Config T CallerCache Pc) : Prop where
  lock : Threads.Exclusive CallerCache.lock Pc.holds c
  sequences : ∀ i, c.mem.sequences i = .ofNat (opened i tr + published i tr)
  balance : ∀ i, opened i tr = published i tr
    ∨ opened i tr = published i tr + 1 ∧ ∃ t, (c.loc t).writes = some i
  settled : ∀ i, opened i tr = published i tr → c.mem.ends i = 0 ∨ ∃ range u,
    fields c.mem i = (range.start, range.stop, range.kind.raw) ∧ (u, .published i range) ∈ tr
  assumes : ∀ t, (c.loc t).Assumes tr c.mem t

/-- A writer's entry is open. -/
theorem Pc.Assumes.is_open {tr : List (T × Event)} {m : CallerCache} {t : T} {pc : Pc} {i : ℕ}
    (h : pc.Assumes tr m t) (hw : pc.writes = some i) : opened i tr = published i tr + 1 := by
  cases pc with
  | store_start range index sequence =>
    cases hw
    exact h.2
  | store_end range index sequence =>
    cases hw
    exact h.1.2
  | store_kind range index sequence =>
    cases hw
    exact h.1.2
  | store_even range index sequence =>
    cases hw
    exact h.1.2
  | _ => cases hw

section Keep

variable {tr tr₂ : List (T × Event)} {m m' : CallerCache} {t : T}

/-- A lookup that is under way stays so while its thread shows nothing. -/
theorem Since.append {post : List (T × Event)} (h : Since tr t post) (hown : own t tr₂ = []) :
    Since (tr ++ tr₂) t (post ++ tr₂) := by
  obtain ⟨pre, address, rfl, hpost⟩ := h
  refine ⟨pre, address, by rw [List.append_assoc, List.cons_append], ?_⟩
  rw [Threads.own_append, hpost, hown, List.append_nil]

/-- What a reader relies on stays, where a step keeps it as long as the entry is closed. -/
theorem Reading.append {index : ℕ} {before : UInt32} {P P' : Prop}
    (h : Reading tr t index before P) (hown : own t tr₂ = [])
    (hle : published index tr ≤ opened index tr)
    (hP : opened index tr = published index tr → P → P') :
    Reading (tr ++ tr₂) t index before P' := by
  obtain ⟨k, post, hsince, hbefore, hk, hbound, hpre⟩ := h
  refine ⟨k, post ++ tr₂, hsince.append hown, hbefore, ?_, ?_, fun ho => ?_⟩
  · rw [published_append]
    omega
  · rw [published_append, published_append]
    omega
  · rw [opened_append] at ho
    exact hP (by omega) (hpre (by omega))

/-- What a thread relies on survives the step of another one: an entry that is closed keeps its
fields, and a holder's entry is left alone. -/
theorem Pc.Assumes.other {pc : Pc} (h : pc.Assumes tr m t) (hown : own t tr₂ = [])
    (hle : ∀ i, published i tr ≤ opened i tr)
    (hfields : ∀ i, opened i tr = published i tr → fields m' i = fields m i)
    (hhold : pc.holds → m'.sequences = m.sequences ∧ (∀ i, fields m' i = fields m i)
      ∧ ∀ i, opened i tr₂ = 0 ∧ published i tr₂ = 0) :
    pc.Assumes (tr ++ tr₂) m' t := by
  have hstart {i : ℕ} (hf : fields m' i = fields m i) : m'.starts i = m.starts i :=
    congrArg Prod.fst hf
  have hend {i : ℕ} (hf : fields m' i = fields m i) : m'.ends i = m.ends i :=
    congrArg (fun f => f.2.1) hf
  have hwriting {i : ℕ} {sequence : UInt32} (hpc : pc.holds) (hw : Writing tr m i sequence) :
      Writing (tr ++ tr₂) m' i sequence := by
    obtain ⟨hsequences, -, hcounts⟩ := hhold hpc
    refine ⟨by rw [hsequences]; exact hw.1, ?_⟩
    rw [opened_append, published_append, (hcounts i).1, (hcounts i).2]
    exact hw.2
  cases pc with
  | store_odd range index sequence =>
    change m'.sequences index = sequence
    rw [(hhold rfl).1]
    exact h
  | store_start range index sequence => exact hwriting rfl h
  | store_end range index sequence =>
    obtain ⟨hw, hs⟩ := h
    exact ⟨hwriting rfl hw, (hstart ((hhold rfl).2.1 index)).trans hs⟩
  | store_kind range index sequence =>
    obtain ⟨hw, hs, he⟩ := h
    have hf := (hhold rfl).2.1 index
    exact ⟨hwriting rfl hw, (hstart hf).trans hs, (hend hf).trans he⟩
  | store_even range index sequence =>
    obtain ⟨hw, hf⟩ := h
    exact ⟨hwriting rfl hw, ((hhold rfl).2.1 index).trans hf⟩
  | load_before address index =>
    obtain ⟨post, hsince⟩ := h
    exact ⟨_, hsince.append hown⟩
  | load_start address index before => exact h.append hown (hle index) fun _ _ => trivial
  | load_end address index before start =>
    exact h.append hown (hle index) fun hclosed hs => (hstart (hfields index hclosed)).trans hs
  | load_kind address index before start stop =>
    refine h.append hown (hle index) fun hclosed hse => ?_
    have hf := hfields index hclosed
    exact ⟨(hstart hf).trans hse.1, (hend hf).trans hse.2⟩
  | reload address index before start stop kind =>
    exact h.append hown (hle index) fun hclosed hf => (hfields index hclosed).trans hf
  | _ => trivial

end Keep

section Step

variable {tr : List (T × Event)} {c : Config T CallerCache Pc} (hi : Inv tr c) (t : T) (a : Choice)
include hi

/-- No more than one version of an entry is open. -/
theorem Inv.counts (i : ℕ) :
    published i tr ≤ opened i tr ∧ opened i tr ≤ published i tr + 1 := by
  obtain h | ⟨h, -⟩ := hi.balance i <;> omega

/-- A closed entry has no writer. -/
theorem Inv.no_writer {i : ℕ} (hclosed : opened i tr = published i tr) :
    (c.loc t).writes ≠ some i := by
  intro hw
  have hopen := (hi.assumes t).is_open hw
  omega

/-- While one thread holds the lock, no other writes. -/
theorem Inv.closed_of_holds (hholds : (c.loc t).holds) (hw : (c.loc t).writes = none) (i : ℕ) :
    opened i tr = published i tr := by
  obtain h | ⟨-, u, hu⟩ := hi.balance i
  · exact h
  · obtain rfl := (hi.lock t hholds).2 u (Pc.holds_of_writes hu)
    rw [hw] at hu
    cases hu

/-- A step that is not the holder's leaves sequences, fields and counts alone. -/
theorem Inv.beside {u : T} (hu : (c.loc u).holds) (hne : u ≠ t) :
    (program T t a c.mem (c.loc t)).mem.sequences = c.mem.sequences
      ∧ (∀ i, fields (program T t a c.mem (c.loc t)).mem i = fields c.mem i)
      ∧ Quiet (program T t a c.mem (c.loc t)).events := by
  have hnot : ¬(c.loc t).holds = true := fun ht => hne.symm ((hi.lock u hu).2 t ht)
  have hstores : (c.loc t).storesSequence = false := by
    cases hpc : c.loc t <;> first | rfl | exact absurd (by rw [hpc]; rfl) hnot
  have hplain := plain_step t a c.mem hstores
  exact ⟨hplain.sequences, fun i => hplain.fields i fun hw => hnot (Pc.holds_of_writes hw),
    hplain.quiet⟩

/-- A closed entry keeps its fields. -/
theorem Inv.closed_fields {i : ℕ} (hclosed : opened i tr = published i tr) :
    fields (program T t a c.mem (c.loc t)).mem i = fields c.mem i := by
  cases hstores : (c.loc t).storesSequence with
  | false => exact (plain_step t a c.mem hstores).fields i (hi.no_writer t hclosed)
  | true =>
    cases hpc : c.loc t with
    | store_odd range index sequence => rfl
    | store_even range index sequence => rfl
    | _ =>
      rw [hpc] at hstores
      cases hstores

/-- The sequence of an entry counts its openings and its publications: a step that stores it shows
one of the two. -/
theorem Inv.sequences_step (i : ℕ) :
    (program T t a c.mem (c.loc t)).mem.sequences i = .ofNat
      (opened i (tr ++ (program T t a c.mem (c.loc t)).events.map (Prod.mk t))
        + published i (tr ++ (program T t a c.mem (c.loc t)).events.map (Prod.mk t))) := by
  have hold := hi.sequences i
  have hassumes := hi.assumes t
  rw [opened_append, published_append]
  cases hstores : (c.loc t).storesSequence with
  | false =>
    have hplain := plain_step t a c.mem hstores
    rw [hplain.sequences, hplain.quiet.opened, hplain.quiet.published, hold]
    rfl
  | true =>
    cases hpc : c.loc t with
    | store_odd range index sequence =>
      rw [hpc] at hassumes
      obtain rfl : c.mem.sequences index = sequence := hassumes
      rw [opened_store_odd, published_store_odd]
      by_cases hindex : i = index
      · subst hindex
        have hsum : opened i tr + 1 + (published i tr + 0) = opened i tr + published i tr + 1 := by
          omega
        rw [if_pos rfl, hsum, UInt32.ofNat_add, ← hold]
        exact Function.update_self ..
      · rw [if_neg hindex]
        exact (Function.update_of_ne hindex ..).trans hold
    | store_even range index sequence =>
      rw [hpc] at hassumes
      have hseq : c.mem.sequences index = sequence + 1 := hassumes.1.1
      rw [opened_store_even, published_store_even]
      by_cases hindex : i = index
      · subst hindex
        have hsum : opened i tr + 0 + (published i tr + 1) = opened i tr + published i tr + 1 := by
          omega
        rw [if_pos rfl, hsum, UInt32.ofNat_add, ← hold, hseq, UInt32.add_assoc]
        exact Function.update_self ..
      · rw [if_neg hindex]
        exact (Function.update_of_ne hindex ..).trans hold
    | _ =>
      rw [hpc] at hstores
      cases hstores

/-- An entry is open while a thread writes it. An opening makes the thread its writer, a
publication ends that, and the lock keeps the other threads out. -/
theorem Inv.balance_step (i : ℕ) :
    opened i (tr ++ (program T t a c.mem (c.loc t)).events.map (Prod.mk t))
        = published i (tr ++ (program T t a c.mem (c.loc t)).events.map (Prod.mk t))
      ∨ opened i (tr ++ (program T t a c.mem (c.loc t)).events.map (Prod.mk t))
          = published i (tr ++ (program T t a c.mem (c.loc t)).events.map (Prod.mk t)) + 1
        ∧ ∃ u, ((c.after t (program T t a c.mem (c.loc t))).loc u).writes = some i := by
  have hassumes := hi.assumes t
  have hother {u : T} (hne : u ≠ t) (hu : (c.loc u).writes = some i) :
      ∃ u, ((c.after t (program T t a c.mem (c.loc t))).loc u).writes = some i :=
    ⟨u, by rwa [Threads.Config.after_loc_of_ne _ _ hne]⟩
  rw [opened_append, published_append]
  cases hstores : (c.loc t).storesSequence with
  | false =>
    have hplain := plain_step t a c.mem hstores
    rw [hplain.quiet.opened, hplain.quiet.published]
    obtain h | ⟨h, u, hu⟩ := hi.balance i
    · exact Or.inl h
    · refine Or.inr ⟨h, ?_⟩
      by_cases hne : u = t
      · subst hne
        exact ⟨u, by rw [Threads.Config.after_loc_self, hplain.writes, hu]⟩
      · exact hother hne hu
  | true =>
    cases hpc : c.loc t with
    | store_odd range index sequence =>
      rw [hpc] at hother
      rw [opened_store_odd, published_store_odd]
      have hclosed := hi.closed_of_holds t (by rw [hpc]; rfl) (by rw [hpc]; rfl) i
      by_cases hindex : i = index
      · subst hindex
        rw [if_pos rfl, hclosed]
        exact Or.inr ⟨rfl, t, by rw [Threads.Config.after_loc_self]; rfl⟩
      · rw [if_neg hindex]
        exact Or.inl hclosed
    | store_even range index sequence =>
      rw [hpc] at hother hassumes
      rw [opened_store_even, published_store_even]
      by_cases hindex : i = index
      · subst hindex
        rw [if_pos rfl, hassumes.is_open rfl]
        exact Or.inl rfl
      · rw [if_neg hindex]
        obtain h | ⟨h, u, hu⟩ := hi.balance i
        · exact Or.inl h
        · refine Or.inr ⟨h, hother ?_ hu⟩
          rintro rfl
          rw [hpc] at hu
          exact hindex (Option.some.inj hu).symm
    | _ =>
      rw [hpc] at hstores
      cases hstores

/-- The fields of an entry that nobody has open are those of its last publication. -/
theorem Inv.settled_step (i : ℕ)
    (hclosed : opened i (tr ++ (program T t a c.mem (c.loc t)).events.map (Prod.mk t))
      = published i (tr ++ (program T t a c.mem (c.loc t)).events.map (Prod.mk t))) :
    (program T t a c.mem (c.loc t)).mem.ends i = 0 ∨ ∃ range u,
      fields (program T t a c.mem (c.loc t)).mem i = (range.start, range.stop, range.kind.raw)
        ∧ (u, .published i range)
          ∈ tr ++ (program T t a c.mem (c.loc t)).events.map (Prod.mk t) := by
  have hassumes := hi.assumes t
  -- An entry that was closed is what it was.
  have hkept (hold : opened i tr = published i tr) :
      (program T t a c.mem (c.loc t)).mem.ends i = 0 ∨ ∃ range u,
        fields (program T t a c.mem (c.loc t)).mem i = (range.start, range.stop, range.kind.raw)
          ∧ (u, .published i range)
            ∈ tr ++ (program T t a c.mem (c.loc t)).events.map (Prod.mk t) := by
    have hf := hi.closed_fields t a hold
    obtain h | ⟨range, u, h, hmem⟩ := hi.settled i hold
    · exact Or.inl ((congrArg (fun f => f.2.1) hf).trans h)
    · exact Or.inr ⟨range, u, hf.trans h, List.mem_append_left _ hmem⟩
  rw [opened_append, published_append] at hclosed
  cases hstores : (c.loc t).storesSequence with
  | false =>
    have hplain := plain_step t a c.mem hstores
    rw [hplain.quiet.opened, hplain.quiet.published] at hclosed
    exact hkept hclosed
  | true =>
    cases hpc : c.loc t with
    | store_odd range index sequence =>
      rw [hpc] at hclosed hkept
      rw [opened_store_odd, published_store_odd] at hclosed
      exact hkept (hi.closed_of_holds t (by rw [hpc]; rfl) (by rw [hpc]; rfl) i)
    | store_even range index sequence =>
      rw [hpc] at hclosed hkept hassumes
      rw [opened_store_even, published_store_even] at hclosed
      by_cases hindex : i = index
      · subst hindex
        exact Or.inr ⟨range, t, hassumes.2, List.mem_append_right _ (List.mem_singleton.mpr rfl)⟩
      · rw [if_neg hindex] at hclosed
        exact hkept hclosed
    | _ =>
      rw [hpc] at hstores
      cases hstores

end Step

/-- A lookup that goes on to the next entry relies on nothing yet. -/
theorem turn_assumes {tr : List (T × Event)} {t : T} {post : List (T × Event)}
    (h : Since tr t post) (m : CallerCache) (address : UInt64) (index : ℕ) :
    (turn m address index).loc.Assumes
      (tr ++ (turn m address index).events.map (Prod.mk t)) (turn m address index).mem t := by
  unfold turn
  split
  · refine ⟨post, ?_⟩
    rwa [List.map_nil, List.append_nil]
  · trivial

section Step

variable {tr : List (T × Event)} {c : Config T CallerCache Pc} (hi : Inv tr c) (t : T) (a : Choice)
include hi

/-- What the thread may rely on after its step. One case per program point; a reader notes with
every load how many publications of the entry there were. -/
theorem Inv.assumes_step :
    (program T t a c.mem (c.loc t)).loc.Assumes
      (tr ++ (program T t a c.mem (c.loc t)).events.map (Prod.mk t))
      (program T t a c.mem (c.loc t)).mem t := by
  have h := hi.assumes t
  have hle (i : ℕ) : published i tr ≤ opened i tr := (hi.counts i).1
  cases hpc : c.loc t with
  | idle =>
    cases a with
    | insert range => trivial
    | lookup address => exact ⟨[], tr, address, rfl, rfl⟩
  | acquire range =>
    obtain hstep | ⟨-, hstep⟩ := acquire_step t a c.mem range
    · rw [hstep]
      trivial
    · rw [hstep]
      trivial
  | load_sequence range index => rfl
  | store_odd range index sequence =>
    have hclosed := hi.closed_of_holds t (by rw [hpc]; rfl) (by rw [hpc]; rfl) index
    refine ⟨Function.update_self .., ?_⟩
    rw [opened_append, published_append, opened_store_odd, published_store_odd, if_pos rfl,
      hclosed]
  | store_start range index sequence =>
    rw [hpc] at h
    refine ⟨?_, Function.update_self ..⟩
    rwa [program, List.map_nil, List.append_nil]
  | store_end range index sequence =>
    rw [hpc] at h
    obtain ⟨hw, hs⟩ := h
    refine ⟨?_, hs, Function.update_self ..⟩
    rwa [program, List.map_nil, List.append_nil]
  | store_kind range index sequence =>
    rw [hpc] at h
    obtain ⟨hw, hs, he⟩ := h
    refine ⟨?_, ?_⟩
    · rwa [program, List.map_nil, List.append_nil]
    · have hk : (program T t a c.mem (.store_kind range index sequence)).mem.kinds index
          = range.kind.raw := Function.update_self ..
      exact Prod.ext hs (Prod.ext he hk)
  | load_before address index =>
    rw [hpc] at h
    obtain ⟨post, hsince⟩ := h
    obtain hstep | ⟨heven, hstep⟩ := load_before_step t a c.mem address index
    · rw [hstep]
      exact turn_assumes hsince c.mem address index
    · rw [hstep]
      -- The sequence is even, so the entry is closed.
      rw [hi.sequences, even_iff] at heven
      have hclosed : opened index tr = published index tr := by
        have hcounts := hi.counts index
        omega
      refine ⟨published index tr, post, ?_, ?_, ?_, ?_, fun _ => trivial⟩
      · rwa [List.map_nil, List.append_nil]
      · rw [hi.sequences, hclosed, Nat.two_mul]
      · rw [List.map_nil, List.append_nil]
      · rw [List.map_nil, List.append_nil, Nat.sub_self]
        exact Nat.zero_le _
  | load_start address index before =>
    rw [hpc] at h
    exact Reading.append h rfl (hle index) fun _ _ => rfl
  | load_end address index before start =>
    rw [hpc] at h
    exact Reading.append h rfl (hle index) fun _ hs => ⟨hs, rfl⟩
  | load_kind address index before start stop =>
    rw [hpc] at h
    exact Reading.append h rfl (hle index) fun _ hse => Prod.ext hse.1 (Prod.ext hse.2 rfl)
  | reload address index before start stop kind =>
    rw [hpc] at h
    obtain ⟨k, post, hsince, -⟩ := h
    obtain hstep | ⟨-, hstep⟩ := reload_step t a c.mem address index before start stop kind
    · rw [hstep]
      exact turn_assumes hsince c.mem address index
    · rw [hstep]
      trivial
  | _ => trivial

/-- **One step.** -/
theorem Inv.step : Inv (tr ++ (program T t a c.mem (c.loc t)).events.map (Prod.mk t))
    (c.after t (program T t a c.mem (c.loc t))) where
  lock := hi.lock.after (lock_step t a c.mem (c.loc t))
  sequences := hi.sequences_step t a
  balance := hi.balance_step t a
  settled := hi.settled_step t a
  assumes u := by
    by_cases hu : u = t
    · rw [hu, Threads.Config.after_loc_self]
      exact hi.assumes_step t a
    · rw [Threads.Config.after_loc_of_ne _ _ hu]
      refine (hi.assumes u).other (Threads.own_concat_of_ne hu [] _) (fun i => (hi.counts i).1)
        (fun i => hi.closed_fields t a) fun hholds => ?_
      obtain ⟨hsequences, hfields, hquiet⟩ := hi.beside t a hholds hu
      exact ⟨hsequences, hfields, fun i => ⟨hquiet.opened t i, hquiet.published t i⟩⟩

/-- **A return.** What a lookup returns was published, unless the sequence has come all the way
round since the lookup was called. -/
theorem Inv.found {address : UInt64} {index : ℕ} {range : Range}
    (hround : ∀ post, Since tr t post → published index post < 2 ^ 31)
    (he : (program T t a c.mem (c.loc t)).events = [.found address index range]) :
    (∃ u, (u, .published index range) ∈ tr) ∧ range.start ≤ address ∧ address < range.stop := by
  have hturn (address' : UInt64) (index' : ℕ) :
      (turn c.mem address' index').events ≠ [.found address index range] := by
    unfold turn
    split <;> nofun
  have h := hi.assumes t
  cases hpc : c.loc t with
  | reload address' index' before start stop kind =>
    rw [hpc] at h he
    obtain hstep | ⟨⟨hsame, hle, hlt⟩, hstep⟩ :=
      reload_step t a c.mem address' index' before start stop kind
    · rw [hstep] at he
      exact absurd he (hturn address' index')
    · rw [hstep] at he
      cases he
      obtain ⟨k, post, hsince, hbefore, hk, hbound, hfields⟩ := h
      have hpost := hround post hsince
      obtain ⟨hpo, hop⟩ := hi.counts index
      rw [hi.sequences, hbefore] at hsame
      have hk' : opened index tr = k := same_version hk hpo hop (by omega) hsame
      have hf := hfields hk'
      obtain hempty | ⟨range, u, hrange, hmem⟩ := hi.settled index (by omega)
      · -- An entry that was never written is an empty range.
        have hstop : c.mem.ends index = stop := congrArg (fun f => f.2.1) hf
        rw [← hstop, hempty] at hlt
        exact absurd hlt UInt64.not_lt_zero
      · rw [hf] at hrange
        cases hrange
        rw [CallerKind.from_raw_raw]
        exact ⟨⟨u, hmem⟩, hle, hlt⟩
  | idle =>
    rw [hpc] at he
    cases a <;> cases he
  | acquire range' =>
    rw [hpc] at he
    obtain hstep | ⟨-, hstep⟩ := acquire_step t a c.mem range'
    · rw [hstep] at he
      cases he
    · rw [hstep] at he
      cases he
  | load_before address' index' =>
    rw [hpc] at he
    obtain hstep | ⟨-, hstep⟩ := load_before_step t a c.mem address' index'
    · rw [hstep] at he
      exact absurd he (hturn address' index')
    · rw [hstep] at he
      cases he
  | _ =>
    rw [hpc] at he
    cases he

end Step

/-- At the start all entries are empty and everything is even. -/
theorem inv_start : Inv [] (start T) where
  lock t h := by cases h
  sequences _ := rfl
  balance _ := Or.inl rfl
  settled _ _ := Or.inl rfl
  assumes _ := trivial

end Linuwux.Callers
