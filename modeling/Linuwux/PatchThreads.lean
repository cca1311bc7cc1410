/-
`PatchThreads.lean` -- `PatchState::patch` of `protocol/kuser.rs` in any number of threads.

A thread is idle or inside one `patch(recipe)`, at the access it is about to make
([`Pc`]). The loop's load and the checks on what it loaded are one step, the weak
compare-exchange is one, the closure begins and returns in a step each, and the drop
of `Completion` is the last store. What the closure answers, a spurious failure of
the compare-exchange and the recipe an idle thread asks for are the scheduler's
choice, and the number of waits is counted, so a time-out is a run like any other.

`completion_state` is a local that survives the turns of the loop. What carries it is
the order in which settled words follow one another ([`Status.Precedes`]): the word a
thread remembered from an earlier turn still precedes the one it compare-exchanges
from, and the only such word that is not the remembered one is a READY.
-/
import Linuwux.Threads
import Linuwux.PatchState

set_option autoImplicit false

namespace Linuwux.Kuser

open Threads (Outcome Program Config)

/-! ## Program points -/

/-- What a step shows. -/
inductive Event where
  | began (recipe : Recipe)
  | exchanged (recipe : Recipe) (current : UInt32)
  | apply_began (recipe : Recipe)
  | applied (recipe : Recipe) (ok : Bool)
  | stored (recipe : Recipe) (completion_state : UInt32)
  | returned (recipe : Recipe) (result : PatchResult)
  deriving Repr

/-- What the scheduler chooses for one step. -/
structure Choice where
  recipe : Recipe
  spurious : Bool
  apply : Bool
  deriving Repr

/-- The access `patch` is about to make, with the locals that outlive it. -/
inductive Pc where
  | load (completion_state : UInt32) (waits : ℕ)
  | exchange (current completion_state : UInt32) (waits : ℕ)
  | apply (completion_state : UInt32)
  | applying (completion_state : UInt32)
  | drop (completion_state : UInt32) (result : PatchResult)
  | ret (result : PatchResult)
  deriving Repr

/-- A thread between calls, or inside `patch(recipe)`. -/
inductive Thread where
  | idle
  | running (recipe : Recipe) (pc : Pc)
  deriving Repr

/-- The access at a program point; no program point is left when `patch` has returned. -/
def access (x : Choice) (word : UInt32) (recipe : Recipe) : Pc → Outcome UInt32 (Option Pc) Event
  | .load completion_state waits =>
    match admission recipe completion_state waits word with
    | .ret result => ⟨word, none, [.returned recipe result]⟩
    | .wait => ⟨word, some (.load completion_state (waits + 1)), []⟩
    | .exchange completion_state => ⟨word, some (.exchange word completion_state waits), []⟩
  | .exchange current completion_state waits =>
    if word = current ∧ x.spurious = false then
      ⟨applying_state recipe, some (.apply completion_state), [.exchanged recipe current]⟩
    else ⟨word, some (.load completion_state waits), []⟩
  | .apply completion_state => ⟨word, some (.applying completion_state), [.apply_began recipe]⟩
  | .applying completion_state =>
    if x.apply then
      ⟨word, some (.drop (ready_state recipe) (.ok ())), [.applied recipe true]⟩
    else
      ⟨word, some (.drop completion_state (.error .ApplyFailed)), [.applied recipe false]⟩
  | .drop completion_state result =>
    ⟨completion_state, some (.ret result), [.stored recipe completion_state]⟩
  | .ret result => ⟨word, none, [.returned recipe result]⟩

/-- The first program point of `patch(recipe)`. -/
def Pc.first (recipe : Recipe) : Pc := .load (failed_state recipe) 0

def Thread.resume (recipe : Recipe) : Option Pc → Thread
  | some pc => .running recipe pc
  | none => .idle

/-- One step of a thread. -/
def thread_step (x : Choice) (word : UInt32) : Thread → Outcome UInt32 Thread Event
  | .idle => ⟨word, .running x.recipe (.first x.recipe), [.began x.recipe]⟩
  | .running recipe pc =>
    ⟨(access x word recipe pc).mem, .resume recipe (access x word recipe pc).loc,
      (access x word recipe pc).events⟩

/-- The program every thread runs. -/
def program (T : Type*) : Program T Choice UInt32 Thread Event := fun _ => thread_step

/-- `PatchState::new()`, and no call under way. -/
def start (T : Type*) : Config T UInt32 Thread := ⟨PATCH_UNAPPLIED, fun _ => .idle⟩

/-! ## What a step can do -/

/-- The loop gives up: the time-out of a wait, another recipe's apply of Resume, or a settled
word of another recipe that Resume may not replace. -/
def Refuses (recipe : Recipe) (waits : ℕ) : Status → Prop
  | .unapplied => False
  | .applying r => r ≠ recipe ∧ r = .Resume ∨ waits = PATCH_WAIT_LIMIT
  | .ready r | .failed r => r ≠ recipe ∧ recipe = .Resume

/-- Every step of a thread while the word says `st`. -/
inductive Moves (st : Status) : Thread → Outcome UInt32 Thread Event → Prop
  | began (r : Recipe) : Moves st .idle ⟨st.word, .running r (.first r), [.began r]⟩
  | ready {r : Recipe} {c : UInt32} {n : ℕ} (h : st = .ready r) :
    Moves st (.running r (.load c n)) ⟨st.word, .idle, [.returned r (.ok ())]⟩
  | refused {r : Recipe} {c : UInt32} {n : ℕ} (h : Refuses r n st) :
    Moves st (.running r (.load c n)) ⟨st.word, .idle, [.returned r (.error .Conflict)]⟩
  | waited {r r' : Recipe} {c : UInt32} {n : ℕ} (h : st = .applying r')
    (hr : r' = r ∨ r' ≠ .Resume) (hn : n ≠ PATCH_WAIT_LIMIT) :
    Moves st (.running r (.load c n)) ⟨st.word, .running r (.load c (n + 1)), []⟩
  | kept {r : Recipe} {c : UInt32} {n : ℕ} (h : st = .unapplied ∨ st = .failed r) :
    Moves st (.running r (.load c n)) ⟨st.word, .running r (.exchange st.word c n), []⟩
  | carried {r r' : Recipe} {c : UInt32} {n : ℕ} (h : st = .ready r' ∨ st = .failed r')
    (hr : r' ≠ r) (hres : r ≠ .Resume) :
    Moves st (.running r (.load c n)) ⟨st.word, .running r (.exchange st.word st.word n), []⟩
  | exchanged {r : Recipe} {c : UInt32} {n : ℕ} :
    Moves st (.running r (.exchange st.word c n))
      ⟨(Status.applying r).word, .running r (.apply c), [.exchanged r st.word]⟩
  | retried {r : Recipe} {current c : UInt32} {n : ℕ} :
    Moves st (.running r (.exchange current c n)) ⟨st.word, .running r (.load c n), []⟩
  | apply_began {r : Recipe} {c : UInt32} :
    Moves st (.running r (.apply c)) ⟨st.word, .running r (.applying c), [.apply_began r]⟩
  | succeeded {r : Recipe} {c : UInt32} :
    Moves st (.running r (.applying c))
      ⟨st.word, .running r (.drop (Status.ready r).word (.ok ())), [.applied r true]⟩
  | failed {r : Recipe} {c : UInt32} :
    Moves st (.running r (.applying c))
      ⟨st.word, .running r (.drop c (.error .ApplyFailed)), [.applied r false]⟩
  | stored {r : Recipe} {c : UInt32} {result : PatchResult} :
    Moves st (.running r (.drop c result)) ⟨c, .running r (.ret result), [.stored r c]⟩
  | returned {r : Recipe} {result : PatchResult} :
    Moves st (.running r (.ret result)) ⟨st.word, .idle, [.returned r result]⟩

theorem moves_load (x : Choice) (st : Status) (r : Recipe) (c : UInt32) (n : ℕ) :
    Moves st (.running r (.load c n)) (thread_step x st.word (.running r (.load c n))) := by
  simp only [thread_step, access, admission_word]
  rcases st with _ | r' | r' | r'
  · exact .kept (.inl rfl)
  · by_cases hr : r' = r ∨ r' ≠ .Resume
    · simp only [if_pos hr, wait_or_conflict]
      by_cases hn : n = PATCH_WAIT_LIMIT
      · simp only [if_pos hn]
        exact .refused (.inr hn)
      · simp only [if_neg hn]
        exact .waited rfl hr hn
    · simp only [if_neg hr]
      push Not at hr
      exact .refused (.inl hr)
  · by_cases hr : r' = r
    · simp only [if_pos hr]
      exact .ready (by rw [hr])
    · by_cases hres : r = .Resume
      · simp only [if_neg hr, if_pos hres]
        exact .refused ⟨hr, hres⟩
      · simp only [if_neg hr, if_neg hres]
        exact .carried (.inl rfl) hr hres
  · by_cases hr : r' = r
    · simp only [if_pos hr]
      exact .kept (.inr (by rw [hr]))
    · by_cases hres : r = .Resume
      · simp only [if_neg hr, if_pos hres]
        exact .refused ⟨hr, hres⟩
      · simp only [if_neg hr, if_neg hres]
        exact .carried (.inr rfl) hr hres

/-- **What a step can do.** Everything below is a case analysis on this. -/
theorem moves (x : Choice) (st : Status) (th : Thread) :
    Moves st th (thread_step x st.word th) := by
  rcases th with _ | ⟨r, pc⟩
  · exact .began x.recipe
  · cases pc with
    | load c n => exact moves_load x st r c n
    | exchange current c n =>
      simp only [thread_step, access]
      split
      · rename_i h
        rw [← h.1]
        exact .exchanged
      · exact .retried
    | apply c => exact .apply_began
    | applying c =>
      simp only [thread_step, access]
      split
      · exact .succeeded
      · exact .failed
    | drop c result => exact .stored
    | ret result => exact .returned

end Linuwux.Kuser
