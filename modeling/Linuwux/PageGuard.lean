/-
`PageGuard.lean` -- `page_guard.rs` over processes that fork.

A process has two words: `OWNER`, the pid that holds the page guard, and the word of
`PATCH_STATE`. Its threads take the guard by compare-exchanging the pid in, run
`PatchState::patch` or something that leaves that word alone, and store zero. A fork
copies the two words as they are and none of the threads but the one that forks, so a
child can start with its parent's pid in `OWNER` and with APPLYING in the patch word,
for an apply that no thread of it is running. The first thread of the child to take the
guard sees the foreign pid and recovers the patch word before it goes on.

Pids are not used twice. A process that has not been forked yet has no memory, and its
threads do not move. Which operation a thread starts, whether `sigprocmask` succeeds and
the choices inside `patch` are the scheduler's.
-/
import Linuwux.PatchThreads

set_option autoImplicit false

namespace Linuwux.PageGuard

open Threads (Outcome Program Config run)
open Kuser (Recipe Status)

/-! ## Processes and their threads -/

/-- `getpid()` is never zero, the word of a free guard. -/
abbrev Pid := {pid : Int32 // pid ≠ 0}

/-- The two words a fork copies. -/
structure Process where
  owner : Int32
  word : UInt32
  deriving DecidableEq, Repr

/-- Who takes the guard: `patch_kuser_shared_data_recipe`, or a user that does not touch the patch
word. -/
inductive User where
  | patch (recipe : Recipe)
  | other
  deriving Repr

/-- Where a thread is. -/
inductive Thread where
  | idle
  | acquire_load (user : User)
  | acquire_exchange (user : User) (owner : Int32)
  | recover_load (user : User)
  | recover_exchange (user : User) (state : UInt32)
  | patching (recipe : Recipe) (pc : Kuser.Pc)
  | working
  | dropping
  deriving Repr

/-- What a thread does next when it is between operations. -/
inductive Operation where
  | guarded (user : User)
  | fork (child : Pid)

structure Choice where
  operation : Operation
  sigprocmask : Bool
  spurious : Bool
  patch : Kuser.Choice

/-- `acquire` has returned the guard. -/
def User.enter : User → Thread
  | .patch recipe => .patching recipe (.first recipe)
  | .other => .working

/-- A turn of `try_update` with the value it has read. -/
def recover_turn (user : User) (state : UInt32) : Thread :=
  match Kuser.recovered state with
  | some _ => .recover_exchange user state
  | none => user.enter

/-- One step of a thread of process `pid`, a fork apart. -/
def process_step (x : Choice) (pid : Pid) (s : Process) : Thread → Process × Thread
  | .idle =>
    match x.operation with
    | .guarded user => (s, if x.sigprocmask then .acquire_load user else .idle)
    | .fork _ => (s, .idle)
  | .acquire_load user =>
    if s.owner = pid then (s, .idle) else (s, .acquire_exchange user s.owner)
  | .acquire_exchange user owner =>
    if s.owner = owner then
      ({ s with owner := pid }, if owner ≠ 0 then .recover_load user else user.enter)
    else (s, .idle)
  | .recover_load user => (s, recover_turn user s.word)
  | .recover_exchange user state =>
    match Kuser.recovered state with
    | some new =>
      if s.word = state ∧ x.spurious = false then ({ s with word := new }, user.enter)
      else (s, recover_turn user s.word)
    | none => (s, user.enter)
  | .patching recipe pc =>
    let o := Kuser.access x.patch s.word recipe pc
    ({ s with word := o.mem },
      match o.loc with
      | some pc => .patching recipe pc
      | none => .dropping)
  | .working => (s, .dropping)
  | .dropping => ({ s with owner := 0 }, .idle)

/-- All processes; those not yet forked have no memory. -/
abbrev Memory := Pid → Option Process

/-- A fork copies the two words to a process that did not exist. -/
def Memory.fork (m : Memory) (s : Process) (child : Pid) : Memory :=
  if m child = none then Function.update m child (some s) else m

def thread_step {Tid : Type*} (t : Pid × Tid) (x : Choice) (m : Memory) (th : Thread) :
    Outcome Memory Thread Empty :=
  match m t.1 with
  | none => ⟨m, th, []⟩
  | some s =>
    match th, x.operation with
    | .idle, .fork child => ⟨m.fork s child, .idle, []⟩
    | _, _ =>
      ⟨Function.update m t.1 (some (process_step x t.1 s th).1), (process_step x t.1 s th).2, []⟩

def program (Tid : Type*) : Program (Pid × Tid) Choice Memory Thread Empty := thread_step

/-- One process, `root`, with no guard taken and nothing applied. -/
def start (Tid : Type*) (root : Pid) : Config (Pid × Tid) Memory Thread where
  mem := Function.update (fun _ => none) root (some ⟨0, Kuser.PATCH_UNAPPLIED⟩)
  loc := fun _ => .idle

/-! ## What a thread holds and may rely on -/

/-- The thread has the guard: its compare-exchange succeeded and it has not stored zero. -/
def Thread.holds : Thread → Bool
  | .recover_load _ | .recover_exchange _ _ | .patching _ _ | .working | .dropping => true
  | .idle | .acquire_load _ | .acquire_exchange _ _ => false

/-- The word of no apply under way. -/
def SettledWord (word : UInt32) : Prop := ∃ st : Status, word = st.word ∧ st.Settled

/-- What the word is while the holder is inside `patch`: settled until its own compare-exchange
and after its own drop, so it has never waited. -/
def GuardedPc (recipe : Recipe) (word : UInt32) : Kuser.Pc → Prop
  | .load c n | .exchange _ c n => SettledWord word ∧ SettledWord c ∧ n = 0
  | .apply c | .applying c | .drop c _ => word = (Status.applying recipe).word ∧ SettledWord c
  | .ret _ => SettledWord word

/-- What a thread may rely on. -/
def Thread.Guarded (pid : Pid) (word : UInt32) : Thread → Prop
  | .acquire_exchange _ owner => owner ≠ pid
  | .recover_exchange _ state => ∃ r, state = (Status.applying r).word
  | .patching recipe pc => GuardedPc recipe word pc
  | .working | .dropping => SettledWord word
  | .idle | .acquire_load _ | .recover_load _ => True

theorem Thread.Guarded.of_not_holds {pid : Pid} {word : UInt32} {th : Thread}
    (h : th.Guarded pid word) (hh : th.holds = false) (word' : UInt32) :
    th.Guarded pid word' := by
  cases th with
  | idle | acquire_load user => trivial
  | acquire_exchange user owner => exact h
  | _ => cases hh

theorem settledWord_failed (r : Recipe) : SettledWord (Kuser.failed_state r) :=
  ⟨.failed r, rfl, trivial⟩

theorem settledWord_ready (r : Recipe) : SettledWord (Kuser.ready_state r) :=
  ⟨.ready r, rfl, trivial⟩

/-- A user that gets the guard over a settled word. -/
theorem User.enter_guarded (user : User) (pid : Pid) {word : UInt32} (h : SettledWord word) :
    user.enter.Guarded pid word := by
  cases user with
  | patch r => exact ⟨h, settledWord_failed r, rfl⟩
  | other => exact h

theorem User.enter_holds (user : User) : user.enter.holds = true := by
  cases user <;> rfl

/-! ## One step inside `patch` -/

/-- The load finds a settled word: it returns or goes on to the compare-exchange. -/
theorem load_guarded (x : Kuser.Choice) (recipe : Recipe) {word c : UInt32}
    (hw : SettledWord word) (hc : SettledWord c) :
    (Kuser.access x word recipe (.load c 0)).mem = word ∧
      ((Kuser.access x word recipe (.load c 0)).loc = none ∨
        ∃ c', (Kuser.access x word recipe (.load c 0)).loc = some (.exchange word c' 0)
          ∧ SettledWord c') := by
  obtain ⟨st, rfl, hst⟩ := hw
  rcases Kuser.admission_settled recipe c 0 hst with ⟨result, hturn⟩ | ⟨c', hturn, hc'⟩
  · have heq : Kuser.access x st.word recipe (.load c 0)
        = ⟨st.word, none, [.returned recipe result]⟩ := by simp only [Kuser.access, hturn]
    rw [heq]
    exact ⟨rfl, .inl rfl⟩
  · have heq : Kuser.access x st.word recipe (.load c 0)
        = ⟨st.word, some (.exchange st.word c' 0), []⟩ := by simp only [Kuser.access, hturn]
    rw [heq]
    refine ⟨rfl, .inr ⟨c', rfl, ?_⟩⟩
    rcases hc' with rfl | rfl
    · exact hc
    · exact ⟨st, rfl, hst⟩

theorem access_guarded {x : Kuser.Choice} {word : UInt32} {recipe : Recipe} {pc : Kuser.Pc}
    (h : GuardedPc recipe word pc) :
    match (Kuser.access x word recipe pc).loc with
    | some pc' => GuardedPc recipe (Kuser.access x word recipe pc).mem pc'
    | none => SettledWord (Kuser.access x word recipe pc).mem := by
  cases pc with
  | load c n =>
    obtain ⟨hw, hc, rfl⟩ := h
    obtain ⟨hmem, hloc | ⟨c', hloc, hc'⟩⟩ := load_guarded x recipe hw hc
    · rw [hloc, hmem]
      exact hw
    · rw [hloc, hmem]
      exact ⟨hw, hc', rfl⟩
  | exchange current c n =>
    obtain ⟨hw, hc, hn⟩ := h
    by_cases hwon : word = current ∧ x.spurious = false
    · simp only [Kuser.access, if_pos hwon]
      exact ⟨rfl, hc⟩
    · simp only [Kuser.access, if_neg hwon]
      exact ⟨hw, hc, hn⟩
  | apply c => exact h
  | applying c =>
    by_cases hap : x.apply = true
    · simp only [Kuser.access, if_pos hap]
      exact ⟨h.1, settledWord_ready recipe⟩
    · simp only [Kuser.access, if_neg hap]
      exact h
  | drop c result => exact h.2
  | ret result => exact h

theorem GuardedPc.status {recipe : Recipe} {word : UInt32} {pc : Kuser.Pc}
    (h : GuardedPc recipe word pc) : ∃ st : Status, word = st.word := by
  have hset : SettledWord word → ∃ st : Status, word = st.word := fun ⟨st, hw, _⟩ => ⟨st, hw⟩
  cases pc with
  | load c n | exchange current c n => exact hset h.1
  | apply c | applying c | drop c result => exact ⟨_, h.1⟩
  | ret result => exact hset h

/-! ## One step of a process -/

/-- What a step does to the two words and to the guard, for a thread that may rely on what it
should. -/
inductive Effect (pid : Pid) (s : Process) (th : Thread) : Process → Thread → Prop
  | quiet {th' : Thread} (hh : th'.holds = th.holds) (hg : th'.Guarded pid s.word) :
    Effect pid s th s th'
  | acquires {th' : Thread} (hne : s.owner ≠ pid) (hh : th'.holds = true)
    (hg : th'.Guarded pid s.word) : Effect pid s th { s with owner := pid } th'
  | writes {th' : Thread} {word : UInt32} (hh : th.holds = true) (hh' : th'.holds = true)
    (hst : ∃ st : Status, word = st.word) (hg : th'.Guarded pid word) :
    Effect pid s th { s with word := word } th'
  | drops (hh : th.holds = true) (hw : SettledWord s.word) :
    Effect pid s th { s with owner := 0 } .idle

theorem recover_turn_guarded (user : User) (pid : Pid) {word : UInt32}
    (hst : ∃ st : Status, word = st.word) :
    (recover_turn user word).holds = true ∧ (recover_turn user word).Guarded pid word := by
  obtain ⟨st, rfl⟩ := hst
  unfold recover_turn
  rw [Kuser.recovered_word]
  cases st with
  | applying r => exact ⟨rfl, r, rfl⟩
  | unapplied => exact ⟨user.enter_holds, user.enter_guarded pid ⟨.unapplied, rfl, trivial⟩⟩
  | ready r => exact ⟨user.enter_holds, user.enter_guarded pid (settledWord_ready r)⟩
  | failed r => exact ⟨user.enter_holds, user.enter_guarded pid (settledWord_failed r)⟩

theorem process_step_effect (x : Choice) {pid : Pid} {s : Process} {th : Thread}
    (hg : th.Guarded pid s.word) (hst : ∃ st : Status, s.word = st.word)
    (hfree : s.owner = 0 → SettledWord s.word) :
    Effect pid s th (process_step x pid s th).1 (process_step x pid s th).2 := by
  cases th with
  | idle =>
    simp only [process_step]
    split
    · split
      · exact .quiet rfl trivial
      · exact .quiet rfl trivial
    · exact .quiet rfl trivial
  | acquire_load user =>
    simp only [process_step]
    split
    · exact .quiet rfl trivial
    · rename_i hne
      exact .quiet rfl hne
  | acquire_exchange user owner =>
    simp only [process_step]
    split
    · rename_i heq
      subst heq
      refine .acquires hg ?_ ?_
      · split
        · rfl
        · exact user.enter_holds
      · split
        · trivial
        · rename_i h0
          exact user.enter_guarded pid (hfree (by simpa using h0))
    · exact .quiet rfl trivial
  | recover_load user =>
    obtain ⟨hh, hg'⟩ := recover_turn_guarded user pid hst
    exact .quiet hh hg'
  | recover_exchange user state =>
    obtain ⟨r, rfl⟩ := hg
    obtain ⟨hh, hg'⟩ := recover_turn_guarded user pid hst
    simp only [process_step, Kuser.recovered_word]
    split
    · exact .writes rfl user.enter_holds ⟨_, rfl⟩ (user.enter_guarded pid (settledWord_failed r))
    · exact .quiet hh hg'
  | patching recipe pc =>
    have hacc := access_guarded (x := x.patch) hg
    simp only [process_step]
    cases hloc : (Kuser.access x.patch s.word recipe pc).loc with
    | some pc' =>
      rw [hloc] at hacc
      exact .writes rfl rfl hacc.status hacc
    | none =>
      rw [hloc] at hacc
      obtain ⟨st, hw, hset⟩ := hacc
      exact .writes rfl rfl ⟨st, hw⟩ ⟨st, hw, hset⟩
  | working => exact .quiet rfl hg
  | dropping => exact .drops rfl hg

/-! ## One process -/

section OneProcess

variable {Tid : Type*}

/-- The two words of a process and its threads. A foreign pid in `owner` promises nothing about
the word: nobody holds the guard then, and who takes it recovers first. -/
structure ProcessInv (pid : Pid) (s : Process) (locs : Tid → Thread) : Prop where
  unique : ∀ t u, (locs t).holds = true → (locs u).holds = true → t = u
  owner_of_holds : ∀ t, (locs t).holds = true → s.owner = pid
  holds_of_owner : s.owner = pid → ∃ t, (locs t).holds = true
  status : ∃ st : Status, s.word = st.word
  free : s.owner = 0 → SettledWord s.word
  guarded : ∀ t, (locs t).Guarded pid s.word

variable [DecidableEq Tid] {pid : Pid} {s s' : Process} {locs : Tid → Thread} {t : Tid}
  {th' : Thread}

/-- After a step only `t` can hold what it did not hold before. -/
theorem holds_update {u : Tid} (h : (Function.update locs t th' u).holds = true) :
    u = t ∧ th'.holds = true ∨ u ≠ t ∧ (locs u).holds = true := by
  by_cases hu : u = t
  · subst hu
    rw [Function.update_self] at h
    exact .inl ⟨rfl, h⟩
  · rw [Function.update_of_ne hu] at h
    exact .inr ⟨hu, h⟩

theorem unique_update (hi : ProcessInv pid s locs)
    (hh : th'.holds = true → ∀ u, u ≠ t → (locs u).holds = false) :
    ∀ u v, (Function.update locs t th' u).holds = true →
      (Function.update locs t th' v).holds = true → u = v := by
  intro u v hu hv
  rcases holds_update hu with ⟨hut, hu'⟩ | ⟨hut, hu'⟩
  · rcases holds_update hv with ⟨hvt, -⟩ | ⟨hvt, hv'⟩
    · rw [hut, hvt]
    · rw [hh hu' v hvt] at hv'
      cases hv'
  · rcases holds_update hv with ⟨-, hv'⟩ | ⟨-, hv'⟩
    · rw [hh hv' u hut] at hu'
      cases hu'
    · exact hi.unique u v hu' hv'

theorem guarded_update {word : UInt32} (hg : th'.Guarded pid word)
    (hrest : ∀ u, u ≠ t → (locs u).Guarded pid word) (u : Tid) :
    (Function.update locs t th' u).Guarded pid word := by
  by_cases hu : u = t
  · rw [hu, Function.update_self]
    exact hg
  · rw [Function.update_of_ne hu]
    exact hrest u hu

omit [DecidableEq Tid] in
/-- Where `t` holds the guard no other thread does. -/
theorem ProcessInv.others (hi : ProcessInv pid s locs) (ht : (locs t).holds = true) (u : Tid)
    (hu : u ≠ t) : (locs u).holds = false := by
  by_contra hne
  exact hu (hi.unique u t (by simpa using hne) ht)

/-- One step keeps the process in order. -/
theorem processInv_effect (hi : ProcessInv pid s locs) (he : Effect pid s (locs t) s' th') :
    ProcessInv pid s' (Function.update locs t th') := by
  cases he with
  | quiet hh hg =>
    refine ⟨unique_update hi fun h u hu => hi.others (hh ▸ h) u hu, fun u hu => ?_,
      fun howner => ?_, hi.status, hi.free, guarded_update hg fun u _ => hi.guarded u⟩
    · rcases holds_update hu with ⟨-, h⟩ | ⟨-, h⟩
      · exact hi.owner_of_holds t (hh ▸ h)
      · exact hi.owner_of_holds u h
    · obtain ⟨u, hu⟩ := hi.holds_of_owner howner
      refine ⟨u, ?_⟩
      by_cases hut : u = t
      · rw [hut, Function.update_self, hh, ← hut, hu]
      · rw [Function.update_of_ne hut, hu]
  | acquires hne hh hg =>
    -- Another pid was in `owner`, so no thread held the guard.
    have hnone : ∀ u, (locs u).holds = false := by
      intro u
      by_contra h
      exact hne (hi.owner_of_holds u (by simpa using h))
    exact ⟨unique_update hi fun _ u _ => hnone u, fun _ _ => rfl,
      fun _ => ⟨t, by rw [Function.update_self, hh]⟩, hi.status,
      fun h0 => absurd h0 pid.2, guarded_update hg fun u _ => hi.guarded u⟩
  | writes hh hh' hst hg =>
    have howner := hi.owner_of_holds t hh
    refine ⟨unique_update hi fun _ u hu => hi.others hh u hu, fun _ _ => howner,
      fun _ => ⟨t, by rw [Function.update_self, hh']⟩, hst,
      fun h0 => absurd (howner.symm.trans h0) pid.2,
      guarded_update hg fun u hu => (hi.guarded u).of_not_holds (hi.others hh u hu) _⟩
  | drops hh hw =>
    refine ⟨unique_update hi fun h => ?_, fun u hu => ?_,
      fun h0 => absurd h0.symm pid.2, hi.status, fun _ => hw,
      guarded_update trivial fun u _ => hi.guarded u⟩
    · cases h
    · rcases holds_update hu with ⟨-, h⟩ | ⟨hut, h⟩
      · cases h
      · rw [hi.others hh u hut] at h
        cases h

end OneProcess

/-! ## All processes -/

section AllProcesses

variable {Tid : Type*}

/-- Every process is in order, one that does not exist has no thread under way, and a pid in
`owner` is that of a process that exists. -/
structure Inv (c : Config (Pid × Tid) Memory Thread) : Prop where
  process : ∀ pid s, c.mem pid = some s → ProcessInv pid s fun t => c.loc (pid, t)
  absent : ∀ pid t, c.mem pid = none → c.loc (pid, t) = .idle
  owner : ∀ pid s, c.mem pid = some s → s.owner = 0 ∨ ∃ q : Pid, s.owner = q ∧ c.mem q ≠ none

theorem inv_start (root : Pid) : Inv (start Tid root) := by
  have hroot : ∀ pid s, (start Tid root).mem pid = some s → s = ⟨0, Kuser.PATCH_UNAPPLIED⟩ := by
    intro pid s hs
    by_cases hp : pid = root
    · subst hp
      simpa [start] using hs.symm
    · simp [start, hp] at hs
  refine ⟨fun pid s hs => ?_, fun _ _ _ => rfl, fun pid s hs => .inl (by rw [hroot pid s hs])⟩
  rw [hroot pid s hs]
  have hset : SettledWord Kuser.PATCH_UNAPPLIED := ⟨.unapplied, rfl, trivial⟩
  refine ⟨fun t u h => ?_, fun t h => ?_, fun h0 => absurd h0.symm pid.2, ⟨.unapplied, rfl⟩,
    fun _ => hset, fun _ => trivial⟩
  · cases h
  · cases h

/-- The effect of a step leaves `owner` zero, what it was, or the pid of the process. -/
theorem Effect.owner_cases {pid : Pid} {s s' : Process} {th th' : Thread}
    (he : Effect pid s th s' th') : s'.owner = s.owner ∨ s'.owner = pid ∨ s'.owner = 0 := by
  cases he with
  | quiet | writes => exact .inl rfl
  | acquires => exact .inr (.inl rfl)
  | drops => exact .inr (.inr rfl)

variable [DecidableEq Tid]

/-- A step inside one process. -/
theorem inv_process_step {c : Config (Pid × Tid) Memory Thread} (hi : Inv c) {p : Pid} {t : Tid}
    {s s' : Process} {th' : Thread} (hs : c.mem p = some s)
    (he : Effect p s (c.loc (p, t)) s' th') :
    Inv ⟨Function.update c.mem p (some s'), Function.update c.loc (p, t) th'⟩ := by
  have hother : ∀ pid u, pid ≠ p → Function.update c.loc (p, t) th' (pid, u) = c.loc (pid, u) :=
    fun pid u hp => Function.update_of_ne (by simp [hp]) _ _
  have hmem : ∀ pid, c.mem pid ≠ none → Function.update c.mem p (some s') pid ≠ none := by
    intro pid hne
    by_cases hp : pid = p
    · simp [hp]
    · rwa [Function.update_of_ne hp]
  refine ⟨fun pid s₁ hs₁ => ?_, fun pid u hnone => ?_, fun pid s₁ hs₁ => ?_⟩
  · by_cases hp : pid = p
    · subst hp
      have hs' : s' = s₁ := by simpa using hs₁
      have hlocs : (fun u => Function.update c.loc (pid, t) th' (pid, u))
          = Function.update (fun u => c.loc (pid, u)) t th' := by
        funext u
        by_cases hu : u = t
        · simp [hu]
        · rw [Function.update_of_ne (by simp [hu]), Function.update_of_ne hu]
      simp only [hlocs, ← hs']
      exact processInv_effect (hi.process pid s hs) he
    · simp only [Function.update_of_ne hp] at hs₁
      simp only [hother pid _ hp]
      exact hi.process pid s₁ hs₁
  · by_cases hp : pid = p
    · simp [hp] at hnone
    · simp only [Function.update_of_ne hp] at hnone
      simp only [hother pid u hp]
      exact hi.absent pid u hnone
  · have hold : ∀ s₀, c.mem pid = some s₀ → s₁.owner = s₀.owner →
        s₁.owner = 0 ∨ ∃ q : Pid, s₁.owner = q ∧ Function.update c.mem p (some s') q ≠ none := by
      intro s₀ hs₀ heq
      rcases hi.owner pid s₀ hs₀ with h0 | ⟨q, hq, hne⟩
      · exact .inl (heq.trans h0)
      · exact .inr ⟨q, heq.trans hq, hmem q hne⟩
    by_cases hp : pid = p
    · subst hp
      have hs' : s' = s₁ := by simpa using hs₁
      subst hs'
      rcases he.owner_cases with h | h | h
      · exact hold s hs h
      · exact .inr ⟨pid, h, by simp⟩
      · exact .inl h
    · simp only [Function.update_of_ne hp] at hs₁
      exact hold s₁ hs₁ rfl

omit [DecidableEq Tid] in
/-- A fork: the child has the words of its parent, and no thread of it is under way. -/
theorem inv_fork {c : Config (Pid × Tid) Memory Thread} (hi : Inv c) {p q : Pid} {s : Process}
    (hs : c.mem p = some s) (hq : c.mem q = none) :
    Inv ⟨Function.update c.mem q (some s), c.loc⟩ := by
  have hmem : ∀ pid, c.mem pid ≠ none → Function.update c.mem q (some s) pid ≠ none := by
    intro pid hne
    by_cases hp : pid = q
    · simp [hp]
    · rwa [Function.update_of_ne hp]
  refine ⟨fun pid s₁ hs₁ => ?_, fun pid u hnone => ?_, fun pid s₁ hs₁ => ?_⟩
  · by_cases hp : pid = q
    · subst hp
      have hs' : s = s₁ := by simpa using hs₁
      subst hs'
      have hidle : ∀ u, c.loc (pid, u) = .idle := fun u => hi.absent pid u hq
      refine ⟨fun t u h => ?_, fun t h => ?_, fun howner => ?_, (hi.process p s hs).status,
        (hi.process p s hs).free, fun t => ?_⟩
      · simp [hidle, Thread.holds] at h
      · simp [hidle, Thread.holds] at h
      · -- The copied owner is a process that exists, so it is not the child.
        rcases hi.owner p s hs with h0 | ⟨q', hq', hne⟩
        · exact absurd (howner.symm.trans h0) pid.2
        · exact absurd hq (Subtype.ext (howner.symm.trans hq') ▸ hne)
      · simp only [hidle]
        trivial
    · simp only [Function.update_of_ne hp] at hs₁
      exact hi.process pid s₁ hs₁
  · by_cases hp : pid = q
    · simp [hp] at hnone
    · simp only [Function.update_of_ne hp] at hnone
      exact hi.absent pid u hnone
  · have hold : ∀ p', c.mem p' = some s₁ → s₁.owner = 0 ∨
        ∃ q' : Pid, s₁.owner = q' ∧ Function.update c.mem q (some s) q' ≠ none := by
      intro p' hs'
      rcases hi.owner p' s₁ hs' with h0 | ⟨q', hq', hne⟩
      · exact .inl h0
      · exact .inr ⟨q', hq', hmem q' hne⟩
    by_cases hp : pid = q
    · subst hp
      have hs' : s = s₁ := by simpa using hs₁
      exact hold p (hs' ▸ hs)
    · simp only [Function.update_of_ne hp] at hs₁
      exact hold pid hs₁

theorem inv_step {c : Config (Pid × Tid) Memory Thread} (hi : Inv c) (t : Pid × Tid) (x : Choice) :
    Inv (c.after t (thread_step t x c.mem (c.loc t))) := by
  obtain ⟨p, t⟩ := t
  cases hs : c.mem p with
  | none =>
    simp only [thread_step, hs, Config.after, Function.update_eq_self]
    exact hi
  | some s =>
    have hp := hi.process p s hs
    have he := process_step_effect x (hp.guarded t) hp.status hp.free
    have hstep := inv_process_step hi hs he
    simp only [thread_step, hs]
    split
    · rename_i child hidle hop
      simp only [Config.after, ← hidle, Function.update_eq_self]
      unfold Memory.fork
      split
      · exact inv_fork hi hs ‹_›
      · exact hi
    · exact hstep

/-- **The guard and the patch word stay in order in every process of every run.** -/
theorem inv_run (root : Pid) (s : List ((Pid × Tid) × Choice)) :
    Inv (run (program Tid) (start Tid root) s) :=
  Threads.run_invariant (program Tid) (inv_start root) (fun _ x hi => inv_step hi x.1 x.2) s

/-- `owner` has the pid of its own process only while a thread of it holds the guard, so `acquire`
is refused only for a thread that will drop it. -/
theorem owner_is_held (root : Pid) (s : List ((Pid × Tid) × Choice)) {pid : Pid} {proc : Process}
    (hproc : (run (program Tid) (start Tid root) s).mem pid = some proc)
    (howner : proc.owner = pid) :
    ∃ t, ((run (program Tid) (start Tid root) s).loc (pid, t)).holds = true :=
  ((inv_run root s).process pid proc hproc).holds_of_owner howner

end AllProcesses

end Linuwux.PageGuard
