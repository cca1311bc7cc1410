/-
`FakeTime.lean` -- the clock offset of `runtime/src/faketime.rs`, across processes.

`set_offset` stores the offset in its own process and sends it as a datagram to the socket pair
that all processes of the prefix inherit. `current_offset` answers from the process's own word
and, while that is 0, peeks at the pair. Nothing ever takes a datagram out, so a peek sees the
first offset that was published, and a process that has seen one never looks again.

A thread's accesses are steps as in `Threads.lean`; a function returns with its last access.
[`offsets_agree_iff`] says which requests keep all processes on the offset published last: those
that all ask for the same one.
-/
import Linuwux.Threads

set_option autoImplicit false

namespace Linuwux.FakeTime

open Threads (Program Config Leads trace)

/-! ## The offset of a request -/

def TICKS_PER_SECOND : UInt64 := 10000000

def SECONDS_1601_TO_1970 : UInt64 := 86400 * (369 * 365 + 89)

def offset_from_filetime (now_seconds : Int64) (filetime : UInt64) : UInt64 :=
  now_seconds.toUInt64 - (filetime / TICKS_PER_SECOND - SECONDS_1601_TO_1970)

/-- A call of `set_offset` that reads the clock: what the clock says, and the argument. -/
structure Request where
  seconds : Int64
  filetime : UInt64
  deriving DecidableEq

def Request.offset (r : Request) : UInt64 := offset_from_filetime r.seconds r.filetime

/-! ## The processes -/

def PEEK_INTERVAL_MS : UInt64 := 10

def U64_MAX : UInt64 := 0xffffffffffffffff

/-- The statics of one process, and whether its `PageGuard` is taken. -/
structure Process where
  OFFSET : UInt64
  LAST_PEEK_MS : UInt64
  SOCKETPAIR_READY : Bool
  guarded : Bool

/-- A process that has inherited the socket pair. -/
def Process.new : Process := ⟨0, U64_MAX, true, false⟩

/-- All processes, and the datagrams in the pair, oldest first. -/
structure Shared where
  process : ℕ → Process
  queue : List UInt64

def Shared.set (m : Shared) (p : ℕ) (value : Process) : Shared :=
  { m with process := Function.update m.process p value }

structure Thread where
  process : ℕ
  id : ℕ
  deriving DecidableEq

inductive Call where
  | set_offset (filetime : UInt64)
  | current_offset

/-- What the environment decides: the call an idle thread makes, whether the guard is refused
(some other code of the process may hold it), and what the two clocks say. -/
structure Choice where
  call : Call
  busy : Bool
  seconds : Option Int64
  milliseconds : UInt64

/-- Where a thread is, named after the access it is about to make. -/
inductive Pc where
  | idle
  -- `set_offset`
  | acquire (filetime : UInt64)
  | clock (filetime : UInt64)
  | store (offset : UInt64)
  | check_ready (offset : UInt64)
  | write (offset : UInt64)
  | release (published : Option UInt64)
  -- `current_offset`
  | load
  | load_ready
  | load_last_peek
  | store_last_peek (now : UInt64)
  | load_ready_again
  | recv
  | cache (received : UInt64)

inductive Event where
  | set_begins
  | set_asks (request : Request)
  | set_returns (published : Option UInt64)
  | get_begins
  | get_returns (value : UInt64) (rate_limited : Bool)
  deriving DecidableEq

def program : Program Thread Choice Shared Pc Event := fun t a m pc =>
  let p := m.process t.process
  match pc with
  | .idle =>
    match a.call with
    | .set_offset filetime => ⟨m, .acquire filetime, [.set_begins]⟩
    | .current_offset => ⟨m, .load, [.get_begins]⟩
  | .acquire filetime =>
    if a.busy || p.guarded then ⟨m, .idle, [.set_returns none]⟩
    else ⟨m.set t.process { p with guarded := true }, .clock filetime, []⟩
  | .clock filetime =>
    match a.seconds with
    | none => ⟨m, .release none, []⟩
    | some seconds =>
      ⟨m, .store (offset_from_filetime seconds filetime), [.set_asks ⟨seconds, filetime⟩]⟩
  | .store offset => ⟨m.set t.process { p with OFFSET := offset }, .check_ready offset, []⟩
  | .check_ready offset => ⟨m, if p.SOCKETPAIR_READY then .write offset else .release none, []⟩
  | .write offset => ⟨{ m with queue := m.queue ++ [offset] }, .release (some offset), []⟩
  | .release published =>
    ⟨m.set t.process { p with guarded := false }, .idle, [.set_returns published]⟩
  | .load =>
    if p.OFFSET ≠ 0 then ⟨m, .idle, [.get_returns p.OFFSET false]⟩ else ⟨m, .load_ready, []⟩
  | .load_ready => ⟨m, if p.SOCKETPAIR_READY then .load_last_peek else .load_ready_again, []⟩
  | .load_last_peek =>
    if p.LAST_PEEK_MS ≠ U64_MAX ∧ a.milliseconds - p.LAST_PEEK_MS < PEEK_INTERVAL_MS then
      ⟨m, .idle, [.get_returns 0 true]⟩
    else ⟨m, .store_last_peek a.milliseconds, []⟩
  | .store_last_peek now =>
    ⟨m.set t.process { p with LAST_PEEK_MS := now }, .load_ready_again, []⟩
  | .load_ready_again =>
    if p.SOCKETPAIR_READY then ⟨m, .recv, []⟩ else ⟨m, .idle, [.get_returns 0 false]⟩
  | .recv =>
    match m.queue with
    | [] => ⟨m, .idle, [.get_returns 0 false]⟩
    | received :: _ => ⟨m, .cache received, []⟩
  | .cache received =>
    ⟨m.set t.process { p with OFFSET := received }, .idle, [.get_returns received false]⟩

/-- Nothing has been published, and no thread is in a call. -/
def initial : Config Thread Shared Pc := ⟨⟨fun _ => .new, []⟩, fun _ => .idle⟩

/-! ## Agreement -/

/-- Where a `set_offset` has published an offset and returned, a `current_offset` that comes
next returns that offset, if it is not rate-limited and no `set_offset` begins before it
returns. -/
def Agreement (tr : List (Thread × Event)) : Prop :=
  ∀ (setter t : Thread) (offset value : UInt64) (before calm call after : List (Thread × Event)),
    tr = before ++ (setter, .set_returns (some offset)) :: (calm ++ (t, .get_begins)
      :: (call ++ (t, .get_returns value false) :: after)) →
    (∀ e ∈ calm ++ call, e.2 ≠ .set_begins) → Threads.own t call = [] → value = offset

/-- Every `set_offset` of the trace makes one of these requests. -/
def Among (requests : Set Request) (tr : List (Thread × Event)) : Prop :=
  ∀ t r, (t, .set_asks r) ∈ tr → r ∈ requests

/-! ## Where offsets come from -/

@[simp] theorem Shared.set_process_self (m : Shared) (p : ℕ) (value : Process) :
    (m.set p value).process p = value := by
  simp [Shared.set]

@[simp] theorem Shared.set_set (m : Shared) (p : ℕ) (value value' : Process) :
    (m.set p value).set p value' = m.set p value' := by
  simp [Shared.set]

theorem Shared.set_process (m : Shared) (p q : ℕ) (value : Process) :
    (m.set p value).process q = if q = p then value else m.process q :=
  Function.update_apply m.process p value q

/-- Every offset a process has or a datagram holds was asked for. -/
structure Sound (offsets : Set UInt64) (m : Shared) : Prop where
  cached : ∀ p, (m.process p).OFFSET = 0 ∨ (m.process p).OFFSET ∈ offsets
  ready : ∀ p, (m.process p).SOCKETPAIR_READY = true
  queued : ∀ o ∈ m.queue, o ∈ offsets

/-- The offset a thread carries was asked for, and once published it is in the queue. -/
def Carries (offsets : Set UInt64) (queue : List UInt64) : Pc → Prop
  | .store o | .check_ready o | .write o | .cache o => o ∈ offsets
  | .release published => ∀ o ∈ published, o ∈ offsets ∧ queue ≠ []
  | _ => True

/-- What an event says about the offset it shows, given the datagrams there were. -/
def Told (offsets : Set UInt64) (queue : List UInt64) : Event → Prop
  | .set_returns published => ∀ o ∈ published, o ∈ offsets ∧ queue ≠ []
  | .get_returns value false => value ∈ offsets ∨ queue = []
  | _ => True

section Step

variable {offsets : Set UInt64} {m : Shared} (h : Sound offsets m)
include h

/-- A process keeps its offset, or gets one that was asked for. -/
theorem Sound.set {p : ℕ} {value : Process}
    (hoffset : value.OFFSET = (m.process p).OFFSET ∨ value.OFFSET ∈ offsets)
    (hready : value.SOCKETPAIR_READY = (m.process p).SOCKETPAIR_READY) :
    Sound offsets (m.set p value) := by
  refine ⟨fun q => ?_, fun q => ?_, h.queued⟩
  · rw [m.set_process]
    split
    · rcases hoffset with heq | hmem
      · rw [heq]
        exact h.cached p
      · exact Or.inr hmem
    · exact h.cached q
  · rw [m.set_process]
    split
    · rw [hready]
      exact h.ready p
    · exact h.ready q

/-- What one step does to all that is said above. The queue only grows. -/
theorem Sound.program {t : Thread} {a : Choice} {pc : Pc} (hpc : Carries offsets m.queue pc)
    (hasks : ∀ r, .set_asks r ∈ (program t a m pc).events → r.offset ∈ offsets) :
    Sound offsets (program t a m pc).mem
      ∧ Carries offsets (program t a m pc).mem.queue (program t a m pc).loc
      ∧ (m.queue ≠ [] → (program t a m pc).mem.queue ≠ [])
      ∧ ∀ e ∈ (program t a m pc).events, Told offsets m.queue e := by
  have hnone : ∀ e ∈ ([] : List Event), Told offsets m.queue e := nofun
  have hone : ∀ {e : Event}, Told offsets m.queue e → ∀ e' ∈ [e], Told offsets m.queue e' := by
    intro e he e' hmem
    rwa [List.mem_singleton.mp hmem]
  unfold FakeTime.program at hasks ⊢
  cases pc with
  | idle =>
    dsimp only
    split
    · exact ⟨h, trivial, id, hone trivial⟩
    · exact ⟨h, trivial, id, hone trivial⟩
  | acquire filetime =>
    dsimp only
    split
    · exact ⟨h, trivial, id, hone nofun⟩
    · exact ⟨h.set (Or.inl rfl) rfl, trivial, id, hnone⟩
  | clock filetime =>
    cases hseconds : a.seconds with
    | none => exact ⟨h, nofun, id, hnone⟩
    | some seconds =>
      rw [hseconds] at hasks
      exact ⟨h, hasks ⟨seconds, filetime⟩ List.mem_cons_self, id, hone trivial⟩
  | store offset => exact ⟨h.set (Or.inr hpc) rfl, hpc, id, hnone⟩
  | check_ready offset =>
    dsimp only
    rw [if_pos (h.ready _)]
    exact ⟨h, hpc, id, hnone⟩
  | write offset =>
    have hqueue : m.queue ++ [offset] ≠ [] := List.append_ne_nil_of_right_ne_nil _ (by simp)
    refine ⟨⟨h.cached, h.ready, fun o ho => ?_⟩, ?_, fun _ => hqueue, hnone⟩
    · rcases List.mem_append.mp ho with hold | hnew
      · exact h.queued o hold
      · rw [List.mem_singleton.mp hnew]
        exact hpc
    · rintro o ⟨⟩
      exact ⟨hpc, hqueue⟩
  | release published => exact ⟨h.set (Or.inl rfl) rfl, trivial, id, hone hpc⟩
  | load =>
    dsimp only
    split
    · rename_i hne
      exact ⟨h, trivial, id, hone (Or.inl ((h.cached _).resolve_left hne))⟩
    · exact ⟨h, trivial, id, hnone⟩
  | load_ready =>
    dsimp only
    rw [if_pos (h.ready _)]
    exact ⟨h, trivial, id, hnone⟩
  | load_last_peek =>
    dsimp only
    split
    · exact ⟨h, trivial, id, hone trivial⟩
    · exact ⟨h, trivial, id, hnone⟩
  | store_last_peek now => exact ⟨h.set (Or.inl rfl) rfl, trivial, id, hnone⟩
  | load_ready_again =>
    dsimp only
    rw [if_pos (h.ready _)]
    exact ⟨h, trivial, id, hnone⟩
  | recv =>
    dsimp only
    split
    · rename_i hempty
      exact ⟨h, trivial, id, hone (Or.inr hempty)⟩
    · rename_i received rest hqueue
      exact ⟨h, h.queued received (by rw [hqueue]; exact List.mem_cons_self), id, hnone⟩
  | cache received =>
    exact ⟨h.set (Or.inr hpc) rfl, trivial, id, hone (Or.inl hpc)⟩

end Step

theorem program_events_length (t : Thread) (a : Choice) (m : Shared) (pc : Pc) :
    (program t a m pc).events.length ≤ 1 := by
  unfold program
  cases pc with
  | idle =>
    dsimp only
    split
    · exact le_rfl
    · exact le_rfl
  | acquire filetime =>
    dsimp only
    split
    · exact le_rfl
    · exact Nat.zero_le 1
  | clock filetime =>
    dsimp only
    split
    · exact Nat.zero_le 1
    · exact le_rfl
  | load =>
    dsimp only
    split
    · exact le_rfl
    · exact Nat.zero_le 1
  | load_last_peek =>
    dsimp only
    split
    · exact le_rfl
    · exact Nat.zero_le 1
  | load_ready_again =>
    dsimp only
    split
    · exact Nat.zero_le 1
    · exact le_rfl
  | recv =>
    dsimp only
    split
    · exact le_rfl
    · exact Nat.zero_le 1
  | release published => exact le_rfl
  | cache received => exact le_rfl
  | _ => exact Nat.zero_le 1

/-! ## Runs -/

/-- The offsets the requests ask for. -/
def asked (requests : Set Request) : Set UInt64 := Request.offset '' requests

/-- What has been published stays in the queue. -/
structure Inv (requests : Set Request) (tr : List (Thread × Event))
    (c : Config Thread Shared Pc) : Prop where
  sound : Sound (asked requests) c.mem
  carries : ∀ t, Carries (asked requests) c.mem.queue (c.loc t)
  published : ∀ t o, (t, .set_returns (some o)) ∈ tr → c.mem.queue ≠ []

theorem inv_initial (requests : Set Request) : Inv requests [] initial where
  sound := ⟨fun _ => Or.inl rfl, fun _ => rfl, nofun⟩
  carries _ := trivial
  published _ _ h := absurd h List.not_mem_nil

theorem Carries.mono {offsets : Set UInt64} {queue queue' : List UInt64} {pc : Pc}
    (hqueue : queue ≠ [] → queue' ≠ []) (h : Carries offsets queue pc) :
    Carries offsets queue' pc := by
  cases pc with
  | release published => exact fun o ho => ⟨(h o ho).1, hqueue (h o ho).2⟩
  | _ => exact h

section Run

variable {requests : Set Request} {tr : List (Thread × Event)} {c : Config Thread Shared Pc}

theorem Inv.step {t : Thread} {a : Choice} (h : Inv requests tr c)
    (hamong : Among requests (tr ++ (program t a c.mem (c.loc t)).events.map (Prod.mk t))) :
    Inv requests (tr ++ (program t a c.mem (c.loc t)).events.map (Prod.mk t))
        (c.after t (program t a c.mem (c.loc t)))
      ∧ ∀ e ∈ (program t a c.mem (c.loc t)).events, Told (asked requests) c.mem.queue e := by
  have hasks : ∀ r, .set_asks r ∈ (program t a c.mem (c.loc t)).events →
      r.offset ∈ asked requests := by
    intro r hr
    have hmem : (t, .set_asks r) ∈ (program t a c.mem (c.loc t)).events.map (Prod.mk t) :=
      List.mem_map_of_mem hr
    exact ⟨r, hamong t r (List.mem_append_right _ hmem), rfl⟩
  obtain ⟨hsound, hcarries, hgrows, htold⟩ := h.sound.program (h.carries t) hasks
  refine ⟨⟨hsound, fun u => ?_, fun u o hmem => ?_⟩, htold⟩
  · by_cases hu : u = t
    · rw [hu, c.after_loc_self]
      exact hcarries
    · rw [c.after_loc_of_ne _ hu]
      exact (h.carries u).mono hgrows
  · rcases List.mem_append.mp hmem with hold | hnew
    · exact hgrows (h.published u o hold)
    · obtain ⟨e, he, heq⟩ := List.mem_map.mp hnew
      cases heq
      exact hgrows (htold _ he o rfl).2

theorem Among.of_prefix {pre : List (Thread × Event)} (h : Among requests tr) (hpre : pre <+: tr) :
    Among requests pre :=
  fun t r hr => h t r (hpre.subset hr)

end Run

/-- What an event of a run says about the offset it shows: after a publication, `current_offset`
returns one that was asked for. -/
def Reports (requests : Set Request) (pre : List (Thread × Event)) : Event → Prop
  | .set_returns published => ∀ o ∈ published, o ∈ asked requests
  | .get_returns value false =>
    ∀ t o, (t, .set_returns (some o)) ∈ pre → value ∈ asked requests
  | _ => True

theorem reports {requests : Set Request} {s : List (Thread × Choice)}
    {pre : List (Thread × Event)} {t : Thread} {e : Event}
    (he : pre ++ [(t, e)] <+: trace program initial s) (hamong : Among requests (pre ++ [(t, e)])) :
    Reports requests pre e := by
  refine Threads.event_induct program program_events_length
    (I := fun tr c => Among requests tr → Inv requests tr c)
    (G := fun pre t e => Among requests (pre ++ [(t, e)]) → Reports requests pre e)
    (fun _ => inv_initial requests)
    (fun tr d t a h hamong => ((h (hamong.of_prefix (List.prefix_append _ _))).step hamong).1)
    (fun tr d t a e h hev hamong => ?_) he hamong
  have hinv := h (hamong.of_prefix (List.prefix_append _ _))
  have htold := (hinv.step (t := t) (a := a) (by rwa [hev])).2
  rw [hev] at htold
  have he := htold e List.mem_cons_self
  cases e with
  | set_returns published => exact fun o ho => (he o ho).1
  | get_returns value limited =>
    cases limited with
    | false => exact fun u o hmem => he.resolve_right (hinv.published u o hmem)
    | true => trivial
  | _ => trivial

/-! ## A process that comes late -/

/-- No thread is in a call. -/
def quiet (m : Shared) : Config Thread Shared Pc := ⟨m, fun _ => .idle⟩

theorem alone_idle (t : Thread) (m : Shared) : Threads.alone Pc.idle t m .idle = quiet m := by
  unfold Threads.alone quiet
  rw [Function.update_eq_self]

/-- The memory after `set_offset` in process `p`. -/
def Shared.publish (m : Shared) (p : ℕ) (offset : UInt64) : Shared :=
  { m.set p { m.process p with OFFSET := offset, guarded := false } with
    queue := m.queue ++ [offset] }

/-- A whole call of `set_offset`. -/
theorem set_offset_leads {m : Shared} (t : Thread) (r : Request)
    (hready : (m.process t.process).SOCKETPAIR_READY = true)
    (hguard : (m.process t.process).guarded = false) :
    Leads program (quiet m)
      (Threads.steps t 7 ⟨.set_offset r.filetime, false, some r.seconds, 0⟩)
      [(t, .set_begins), (t, .set_asks r), (t, .set_returns (some r.offset))]
      (quiet (m.publish t.process r.offset)) := by
  let p := m.process t.process
  let choice : Choice := ⟨.set_offset r.filetime, false, some r.seconds, 0⟩
  let guarded := m.set t.process { p with guarded := true }
  let stored := m.set t.process { p with guarded := true, OFFSET := r.offset }
  have hacquire : program t choice m (.acquire r.filetime) = ⟨guarded, .clock r.filetime, []⟩ := by
    simp [program, choice, hguard, guarded, p]
  have hstore : program t choice guarded (.store r.offset)
      = ⟨stored, .check_ready r.offset, []⟩ := by
    simp [program, guarded, stored]
  have hcheck : program t choice stored (.check_ready r.offset)
      = ⟨stored, .write r.offset, []⟩ := by
    simp [program, stored, p, hready]
  have hrelease : program t choice { stored with queue := stored.queue ++ [r.offset] }
      (.release (some r.offset))
        = ⟨m.publish t.process r.offset, .idle, [.set_returns (some r.offset)]⟩ := by
    simp [program, stored, Shared.publish, Shared.set, p]
  rw [← alone_idle t m, ← alone_idle t (m.publish t.process r.offset)]
  refine Leads.alone program [.set_begins] rfl ?_
  refine Leads.alone program [] hacquire ?_
  refine Leads.alone program [.set_asks r] rfl ?_
  refine Leads.alone program [] hstore ?_
  refine Leads.alone program [] hcheck ?_
  refine Leads.alone program [] rfl ?_
  exact Leads.alone program [.set_returns (some r.offset)] hrelease ⟨rfl, rfl⟩

/-- A whole call of `current_offset` in a process that has no offset and has not peeked. -/
theorem current_offset_leads {m : Shared} (t : Thread) {first : UInt64} {rest : List UInt64}
    (hnew : m.process t.process = .new) (hqueue : m.queue = first :: rest) :
    ∃ m', Leads program (quiet m) (Threads.steps t 8 ⟨.current_offset, false, none, 0⟩)
      [(t, .get_begins), (t, .get_returns first false)] (quiet m') := by
  let choice : Choice := ⟨.current_offset, false, none, 0⟩
  let peeked := m.set t.process { Process.new with LAST_PEEK_MS := 0 }
  have hload : program t choice m .load = ⟨m, .load_ready, []⟩ := by
    simp [program, hnew, Process.new]
  have hready : program t choice m .load_ready = ⟨m, .load_last_peek, []⟩ := by
    simp [program, hnew, Process.new]
  have hdue : program t choice m .load_last_peek = ⟨m, .store_last_peek 0, []⟩ := by
    simp [program, hnew, Process.new, choice]
  have hmark : program t choice m (.store_last_peek 0) = ⟨peeked, .load_ready_again, []⟩ := by
    simp [program, hnew, peeked]
  have hagain : program t choice peeked .load_ready_again = ⟨peeked, .recv, []⟩ := by
    simp [program, peeked, Process.new]
  have hrecv : program t choice peeked .recv = ⟨peeked, .cache first, []⟩ := by
    have hsame : peeked.queue = first :: rest := hqueue
    simp [program, hsame]
  refine ⟨peeked.set t.process { peeked.process t.process with OFFSET := first }, ?_⟩
  rw [← alone_idle t m, ← alone_idle t (peeked.set _ _)]
  refine Leads.alone program [.get_begins] rfl ?_
  refine Leads.alone program [] hload ?_
  refine Leads.alone program [] hready ?_
  refine Leads.alone program [] hdue ?_
  refine Leads.alone program [] hmark ?_
  refine Leads.alone program [] hagain ?_
  refine Leads.alone program [] hrecv ?_
  exact Leads.alone program [.get_returns first false] rfl ⟨rfl, rfl⟩

/-- Two publications by one process, then a call in another that has none. -/
def late (a b : Request) : List (Thread × Event) :=
  [(⟨0, 0⟩, .set_begins), (⟨0, 0⟩, .set_asks a), (⟨0, 0⟩, .set_returns (some a.offset)),
    (⟨0, 0⟩, .set_begins), (⟨0, 0⟩, .set_asks b), (⟨0, 0⟩, .set_returns (some b.offset)),
    (⟨1, 0⟩, .get_begins), (⟨1, 0⟩, .get_returns a.offset false)]

/-- The other process is given the first. -/
theorem late_trace (a b : Request) : ∃ s, trace program initial s = late a b := by
  have hfirst := set_offset_leads (m := initial.mem) ⟨0, 0⟩ a rfl rfl
  have hsecond := set_offset_leads (m := initial.mem.publish 0 a.offset) ⟨0, 0⟩ b rfl rfl
  obtain ⟨m', hlate⟩ := current_offset_leads
    (m := (initial.mem.publish 0 a.offset).publish 0 b.offset) ⟨1, 0⟩ rfl rfl
  exact ⟨_, ((hfirst.trans program hsecond).trans program hlate).2⟩

theorem late_agreement {a b : Request} (h : Agreement (late a b)) : a.offset = b.offset :=
  h ⟨0, 0⟩ ⟨1, 0⟩ b.offset a.offset
    [(⟨0, 0⟩, .set_begins), (⟨0, 0⟩, .set_asks a), (⟨0, 0⟩, .set_returns (some a.offset)),
      (⟨0, 0⟩, .set_begins), (⟨0, 0⟩, .set_asks b)] [] [] [] rfl nofun rfl

/-! ## Which requests agree -/

/-- All processes stay on the offset published last exactly when every request asks for the same
one. -/
theorem offsets_agree_iff (requests : Set Request) :
    (∀ s, Among requests (trace program initial s) → Agreement (trace program initial s))
      ↔ ∀ a ∈ requests, ∀ b ∈ requests, a.offset = b.offset := by
  constructor
  · intro hall a ha b hb
    obtain ⟨s, htrace⟩ := late_trace a b
    have hagree := hall s
    rw [htrace] at hagree
    refine late_agreement (hagree fun t r hr => ?_)
    simp only [late, List.mem_cons, Prod.mk.injEq, Event.set_asks.injEq, reduceCtorEq, and_false,
      false_or, List.not_mem_nil, or_false] at hr
    rcases hr with ⟨-, rfl⟩ | ⟨-, rfl⟩
    · exact ha
    · exact hb
  · rintro hsame s hamong setter t offset value before calm call after htrace - -
    -- Both offsets were asked for.
    have hset : before ++ [(setter, .set_returns (some offset))] <+: trace program initial s := by
      rw [htrace]
      exact ⟨_, by rw [List.append_assoc, List.singleton_append]⟩
    have hget : before ++ (setter, .set_returns (some offset)) :: (calm ++ (t, .get_begins) :: call)
        ++ [(t, .get_returns value false)] <+: trace program initial s := by
      rw [htrace]
      exact ⟨after, by simp only [List.append_assoc, List.cons_append, List.nil_append]⟩
    obtain ⟨a, ha, rfl⟩ := reports hset (hamong.of_prefix hset) offset rfl
    obtain ⟨b, hb, rfl⟩ := reports hget (hamong.of_prefix hget) setter a.offset (by simp)
    exact hsame b hb a ha

/-- At 22:13:20 on 2023-11-14, one request for an hour ago and one for two hours ago. -/
def hour_ago : Request := ⟨1700000000, 133444700000000000⟩

def two_hours_ago : Request := ⟨1700000000, 133444664000000000⟩

/-- A process that asks after both gets the offset of the first. -/
theorem late_process_disagrees :
    ∃ s, trace program initial s
        = [(⟨0, 0⟩, .set_begins), (⟨0, 0⟩, .set_asks hour_ago), (⟨0, 0⟩, .set_returns (some 3600)),
          (⟨0, 0⟩, .set_begins), (⟨0, 0⟩, .set_asks two_hours_ago),
          (⟨0, 0⟩, .set_returns (some 7200)),
          (⟨1, 0⟩, .get_begins), (⟨1, 0⟩, .get_returns 3600 false)]
      ∧ ¬Agreement (trace program initial s) := by
  obtain ⟨s, htrace⟩ := late_trace hour_ago two_hours_ago
  refine ⟨s, htrace, fun hagree => ?_⟩
  rw [htrace] at hagree
  exact absurd (late_agreement hagree) (by decide)

end Linuwux.FakeTime
