/-
`ReflexIds.lean` -- which syscall numbers select a dispatch slot.

`DispatchRegistrations` has two slots, each an id word and a target. An id word that has
never been registered holds `u32::MAX`, and `route_syscall` compares it with the low half
of the syscall number like any other id. The targets can be set before the ids (the system
target is even inherited from the resume handler), so an unset slot is not inert.

The id word is the last id registered, or `u32::MAX` where there was none ([`IdWord`]).
That is the invariant; the rest reads `route_syscall` against it.
-/
import Linuwux.ReflexInvariant

set_option autoImplicit false

namespace Linuwux.Reflex

open Threads (Outcome Program Config)

variable {T : Type}

/-! ## Slots -/

/-- The two slots of `DispatchRegistrations`. -/
inductive Slot where
  | system
  | attributes
  deriving DecidableEq, Repr

namespace Slot

/-- The leaf that registers the slot's id. -/
def leaf : Slot → Leaf
  | .system => .register_system_syscall_id
  | .attributes => .register_attributes_syscall_id

def id (d : DispatchRegistrations) : Slot → UInt32
  | .system => d.system_id
  | .attributes => d.attributes_id

def target (d : DispatchRegistrations) : Slot → UInt64
  | .system => d.system_target
  | .attributes => d.attributes_target

end Slot

/-- The slot `route_syscall` selects when the convention is DualDispatch. -/
def State.selected_slot (s : State) (number : UInt64) (r10 : Int64) (rcx : UInt64) :
    Option Slot :=
  if s.routing = .Unregistered ∨ s.routing = .RegisteringDualDispatch then none
  else if number = DISPATCH_BYPASS_SYSCALL then none
  else if number.toUInt32 = s.dispatch.system_id then
    if r10 ≠ 0 ∨ rcx > USER_RCX_MAX then none else some .system
  else if number.toUInt32 = s.dispatch.attributes_id ∧ rcx ≤ USER_RCX_MAX then some .attributes
  else none

theorem route_syscall_dual {s : State} (hc : s.syscall_convention = .DualDispatch)
    (number : UInt64) (r10 : Int64) (rcx : UInt64) :
    s.route_syscall number r10 rcx
      = (s.selected_slot number r10 rcx).bind fun slot =>
          State.route_to (slot.target s.dispatch) false := by
  unfold State.route_syscall State.selected_slot
  rw [hc]
  simp only
  repeat' split
  all_goals rfl

/-- A selected slot's id is the low half of the number. -/
theorem State.id_of_selected {s : State} {number : UInt64} {r10 : Int64} {rcx : UInt64}
    {slot : Slot} (h : s.selected_slot number r10 rcx = some slot) :
    slot.id s.dispatch = number.toUInt32 := by
  unfold State.selected_slot at h
  repeat' split at h
  all_goals cases h
  all_goals
    simp only [Slot.id]
    grind

/-! ## Registered ids -/

/-- The id a consumed leaf has registered for a slot. -/
def Event.registered_id (slot : Slot) : Event → Option UInt32
  | .returned call (.action .Consumed) =>
    if call.leaf = slot.leaf then some call.argument.toUInt32 else none
  | _ => none

/-- A leaf of the trace registered this id for the slot. -/
def IdRegistered (tr : List (T × Event)) (slot : Slot) (id : UInt32) : Prop :=
  ∃ e ∈ tr, e.2.registered_id slot = some id

/-- No leaf of the trace registered an id for the slot. -/
def Unset (tr : List (T × Event)) (slot : Slot) : Prop :=
  ∀ e ∈ tr, e.2.registered_id slot = none

instance (tr : List (T × Event)) (slot : Slot) (id : UInt32) :
    Decidable (IdRegistered tr slot id) :=
  inferInstanceAs (Decidable (∃ e ∈ tr, _ = _))

instance (tr : List (T × Event)) (slot : Slot) : Decidable (Unset tr slot) :=
  inferInstanceAs (Decidable (∀ e ∈ tr, _ = _))

theorem unset_iff {tr : List (T × Event)} {slot : Slot} :
    Unset tr slot ↔ ∀ id, ¬IdRegistered tr slot id := by
  constructor
  · rintro h id ⟨e, he, hid⟩
    rw [h e he] at hid
    cases hid
  · intro h e he
    cases hid : e.2.registered_id slot with
    | none => rfl
    | some id => exact absurd ⟨e, he, hid⟩ (h id)

theorem IdRegistered.append_left {tr : List (T × Event)} {slot : Slot} {id : UInt32}
    (h : IdRegistered tr slot id) (tr' : List (T × Event)) : IdRegistered (tr ++ tr') slot id := by
  obtain ⟨e, he, hid⟩ := h
  exact ⟨e, List.mem_append_left _ he, hid⟩

theorem IdRegistered.append_right {tr' : List (T × Event)} {slot : Slot} {id : UInt32}
    (h : IdRegistered tr' slot id) (tr : List (T × Event)) : IdRegistered (tr ++ tr') slot id := by
  obtain ⟨e, he, hid⟩ := h
  exact ⟨e, List.mem_append_right _ he, hid⟩

theorem unset_append {tr tr' : List (T × Event)} {slot : Slot} :
    Unset (tr ++ tr') slot ↔ Unset tr slot ∧ Unset tr' slot := by
  simp only [Unset, List.mem_append, or_imp, forall_and]

/-! ## One step -/

/-- A dual leaf is consumed by its store. -/
theorem dual_consumed {x : Choice} {s : State} {call : Call} {pc : Pc}
    (hd : call.is_dual = true) (hc : pc.of_call call)
    (h : .returned call (.action .Consumed) ∈ (access x s call pc).events) : pc = .dual_store := by
  have hdual : call.leaf = .register_system_syscall_id ∨ call.leaf = .register_attributes_handler
      ∨ call.leaf = .register_attributes_syscall_id := by
    simpa [Call.is_dual, or_assoc] using hd
  cases pc with
  | dual_store => rfl
  | add_load | add_cas_unregistered | add_cas_resume | add_wait | add_target | add_system
  | add_copy | add_convention | add_publish =>
    simp only [access, wait_step, cas_routing] at h
    repeat' split at h
    all_goals simp [go, put, ret] at h
  | routing_load | has_pid | has_routing | unarmed_routing | unarmed_target | route_routing
  | route_convention | route_resume | route_system_id | route_system_target
  | route_attributes_id | route_attributes_target =>
    rw [Pc.of_call] at hc
    rw [hc] at hdual
    simp [Call.leaf] at hdual
  | _ =>
    simp only [Pc.of_call, Call.is_resume, decide_eq_true_eq] at hc
    simp [hc] at hdual

theorem Slot.is_dual {slot : Slot} {call : Call} (h : call.leaf = slot.leaf) :
    call.is_dual = true := by
  cases slot <;> simp [Call.is_dual, h, Slot.leaf]

/-- The write of a dual leaf sets a slot's id if and only if it is the slot's leaf. -/
theorem id_dual_write (slot : Slot) (s : State) {call : Call} (hd : call.is_dual = true) :
    slot.id ((dual_write call.leaf call.argument).apply s).dispatch
      = if call.leaf = slot.leaf then call.argument.toUInt32 else slot.id s.dispatch := by
  have hdual : call.leaf = .register_system_syscall_id ∨ call.leaf = .register_attributes_handler
      ∨ call.leaf = .register_attributes_syscall_id := by
    simpa [Call.is_dual, or_assoc] using hd
  rcases hdual with h | h | h <;> rw [h] <;> cases slot <;> rfl

/-- Only the store of a dual leaf touches an id word. -/
theorem id_apply (slot : Slot) {s : State} {call : Call} {pc : Pc} {w : Write} {th : Thread}
    (hw : Writes s call pc w th) (hp : pc ≠ .dual_store) :
    slot.id (w.apply s).dispatch = slot.id s.dispatch := by
  cases hw with
  | dual_store h => exact absurd rfl hp
  | _ => cases slot <;> rfl

section Runs

variable [DecidableEq T]

/-- An id registered in a step is the slot's id after it. -/
theorem Inv.id_of_registered {c : Config T State Thread} (h : Inv c) {x : T × Choice}
    {slot : Slot} {id : UInt32}
    (hr : IdRegistered (Threads.events (program T) c x) slot id) :
    slot.id (Threads.step (program T) c x).mem.dispatch = id := by
  obtain ⟨⟨u, e⟩, he, hid⟩ := hr
  change e.registered_id slot = some id at hid
  unfold Event.registered_id at hid
  split at hid
  case h_2 => cases hid
  rename_i call
  split at hid
  case isFalse => cases hid
  rename_i hleaf
  cases hid
  obtain ⟨-, ⟨hi, -⟩ | ⟨pc, hl, hev⟩⟩ := returned_step he
  · -- A dual leaf does not return as it begins.
    exfalso
    obtain ⟨e, he, heq⟩ := List.mem_map.mp he
    obtain ⟨rfl, rfl⟩ := Prod.mk.inj heq
    simp only [program, hi, thread_step, enter] at he
    repeat' split at he
    all_goals cases slot <;> simp_all [Call.leaf, Slot.leaf]
  · have hcall := h.pc_of_call hl
    have hd := Slot.is_dual hleaf
    obtain rfl := dual_consumed hd hcall hev
    rw [Threads.step_mem]
    simp only [program, hl, thread_step, access, put_ret]
    rw [id_dual_write slot _ hd, if_pos hleaf]

/-- A step that registers no id for the slot keeps the slot's id. -/
theorem Inv.id_of_unset {c : Config T State Thread} (h : Inv c) {x : T × Choice} {slot : Slot}
    (hu : Unset (Threads.events (program T) c x) slot) :
    slot.id (Threads.step (program T) c x).mem.dispatch = slot.id c.mem.dispatch := by
  rw [Threads.step_mem]
  rcases thread_step_effect x.2 c.mem (c.loc x.1) with ⟨hm, -⟩ | ⟨call, pc, w, hth, hw, hm, -⟩
  · exact congrArg (fun s : State => slot.id s.dispatch) hm
  · refine (congrArg (fun s : State => slot.id s.dispatch) hm).trans ?_
    by_cases hp : pc = .dual_store
    · subst hp
      have hcall := h.pc_of_call hth
      have hwr : w = dual_write call.leaf call.argument := by
        generalize (thread_step x.2 c.mem (c.loc x.1)).loc = th at hw
        cases hw with
        | dual_store h => exact h
      have hev : (x.1, Event.returned call (.action .Consumed))
          ∈ Threads.events (program T) c x := by
        simp [Threads.events, program, hth, thread_step, access, put_ret]
      have hne : call.leaf ≠ slot.leaf := by
        intro hleaf
        have hnone := hu _ hev
        simp [Event.registered_id, hleaf] at hnone
      rw [hwr, id_dual_write slot _ hcall, if_neg hne]
    · exact id_apply slot hw hp

/-! ## Every run -/

/-- The id word is the `u32::MAX` it started with, or an id that was registered. -/
def IdWord (tr : List (T × Event)) (s : State) (slot : Slot) : Prop :=
  (Unset tr slot ∧ slot.id s.dispatch = U32_MAX) ∨ IdRegistered tr slot (slot.id s.dispatch)

theorem IdWord.step {tr : List (T × Event)} {c : Config T State Thread} {slot : Slot}
    (hi : IdWord tr c.mem slot) (h : Inv c) (x : T × Choice) :
    IdWord (tr ++ Threads.events (program T) c x) (Threads.step (program T) c x).mem slot := by
  by_cases hu : Unset (Threads.events (program T) c x) slot
  · have hid := h.id_of_unset hu
    rcases hi with ⟨hun, hmax⟩ | hr
    · exact Or.inl ⟨unset_append.mpr ⟨hun, hu⟩, hid.trans hmax⟩
    · exact Or.inr (hid ▸ hr.append_left _)
  · obtain ⟨id, hr⟩ : ∃ id, IdRegistered (Threads.events (program T) c x) slot id := by
      by_contra hn
      exact hu (unset_iff.mpr (not_exists.mp hn))
    rw [← h.id_of_registered hr] at hr
    exact Or.inr (hr.append_right _)

theorem idWord_run (s : List (T × Choice)) (slot : Slot) :
    IdWord (Threads.trace (program T) (start T) s) (Threads.run (program T) (start T) s).mem
      slot := by
  refine (Threads.run_induct (program T) (I := fun tr d => Inv d ∧ IdWord tr d.mem slot)
    ⟨inv_start, Or.inl ⟨nofun, ?_⟩⟩ (fun _ d x h => ⟨h.1.step x, h.2.step h.1 x⟩) s).2
  cases slot <;> rfl

/-- Once dual dispatch is the convention, a route comes from a slot whose registered id is
the low half of the number, and no slot is selected before an id has been registered for
it. -/
def SelectsRegistered (tr : List (T × Event)) (s : State) (number : UInt64) (r10 : Int64)
    (rcx : UInt64) : Prop :=
  s.syscall_convention = .DualDispatch →
    (∀ r, s.route_syscall number r10 rcx = some r →
      ∃ slot, s.selected_slot number r10 rcx = some slot
        ∧ r.target = slot.target s.dispatch ∧ IdRegistered tr slot number.toUInt32)
    ∧ ∀ slot, s.selected_slot number r10 rcx = some slot → ¬Unset tr slot

/-- The low half of the number is the unset id, the filters let it through, and the slot it
reaches first is unset. -/
def HitsUnset (tr : List (T × Event)) (s : State) (number : UInt64) (r10 : Int64)
    (rcx : UInt64) : Prop :=
  s.syscall_convention = .DualDispatch ∧ s.routing ≠ .RegisteringDualDispatch
    ∧ number.toUInt32 = U32_MAX ∧ number ≠ DISPATCH_BYPASS_SYSCALL ∧ rcx ≤ USER_RCX_MAX
    ∧ ((Unset tr .system ∧ r10 = 0)
      ∨ (s.dispatch.system_id ≠ U32_MAX ∧ Unset tr .attributes))

omit [DecidableEq T] in
/-- The slot a number selects is unset exactly when the number hits an unset slot. -/
theorem selected_unset_iff {tr : List (T × Event)} {c : Config T State Thread} (h : Inv c)
    (hid : ∀ slot, IdWord tr c.mem slot) (hc : c.mem.syscall_convention = .DualDispatch)
    (number : UInt64) (r10 : Int64) (rcx : UInt64) :
    (∃ slot, c.mem.selected_slot number r10 rcx = some slot ∧ Unset tr slot)
      ↔ HitsUnset tr c.mem number r10 rcx := by
  have hmax : ∀ {slot}, Unset tr slot → slot.id c.mem.dispatch = U32_MAX := by
    intro slot hu
    rcases hid slot with ⟨-, hm⟩ | hr
    · exact hm
    · exact absurd hr (unset_iff.mp hu _)
  have hreg : c.mem.routing ≠ .Unregistered := by
    intro hr
    have hm := h.mem
    unfold MemOk at hm
    rw [hr] at hm
    rw [hm.1] at hc
    cases hc
  constructor
  · rintro ⟨slot, hs, hu⟩
    have hnum : number.toUInt32 = U32_MAX := (State.id_of_selected hs).symm.trans (hmax hu)
    unfold State.selected_slot at hs
    split at hs
    · cases hs
    split at hs
    · cases hs
    rename_i hroute hby
    have hrd : c.mem.routing ≠ .RegisteringDualDispatch := fun hr => hroute (Or.inr hr)
    split at hs
    · split at hs
      · cases hs
      · rename_i hg
        cases hs
        rw [not_or, not_not] at hg
        exact ⟨hc, hrd, hnum, hby, UInt64.not_lt.mp hg.2, Or.inl ⟨hu, hg.1⟩⟩
    · split at hs
      · rename_i hne hg
        cases hs
        exact ⟨hc, hrd, hnum, hby, hg.2, Or.inr ⟨fun he => hne (hnum.trans he.symm), hu⟩⟩
      · cases hs
  · rintro ⟨-, hrd, hnum, hby, hrcx, hslot⟩
    have hroute : ¬(c.mem.routing = .Unregistered ∨ c.mem.routing = .RegisteringDualDispatch) :=
      not_or.mpr ⟨hreg, hrd⟩
    unfold State.selected_slot
    rw [if_neg hroute, if_neg hby]
    rcases hslot with ⟨hu, hr10⟩ | ⟨hne, hu⟩
    · refine ⟨.system, ?_, hu⟩
      have hword : c.mem.dispatch.system_id = U32_MAX := hmax hu
      rw [if_pos (hnum.trans hword.symm), if_neg (by simp [hr10, hrcx])]
    · refine ⟨.attributes, ?_, hu⟩
      have hword : c.mem.dispatch.attributes_id = U32_MAX := hmax hu
      rw [if_neg (fun he => hne (he.symm.trans hnum)),
        if_pos ⟨hnum.trans hword.symm, hrcx⟩]

/-- **Only registered ids select a slot, `u32::MAX` apart.** At every point of every run, a
syscall number is routed by an id that was registered for the slot it selects, except
exactly when its low half is `u32::MAX` and the slot it reaches is unset. -/
theorem selects_registered_iff (s : List (T × Choice)) (number : UInt64) (r10 : Int64)
    (rcx : UInt64) :
    SelectsRegistered (Threads.trace (program T) (start T) s)
        (Threads.run (program T) (start T) s).mem number r10 rcx
      ↔ ¬HitsUnset (Threads.trace (program T) (start T) s)
        (Threads.run (program T) (start T) s).mem number r10 rcx := by
  have hinv := inv_run (T := T) s
  have hid := idWord_run (T := T) s
  constructor
  · intro h hits
    obtain ⟨slot, hs, hu⟩ := (selected_unset_iff hinv hid hits.1 number r10 rcx).mpr hits
    exact (h hits.1).2 slot hs hu
  · intro hno hc
    have hset : ∀ slot, (Threads.run (program T) (start T) s).mem.selected_slot number r10 rcx
        = some slot → ¬Unset (Threads.trace (program T) (start T) s) slot :=
      fun slot hs hu => hno ((selected_unset_iff hinv hid hc number r10 rcx).mp ⟨slot, hs, hu⟩)
    refine ⟨fun r hr => ?_, hset⟩
    rw [route_syscall_dual hc, Option.bind_eq_some_iff] at hr
    obtain ⟨slot, hs, hto⟩ := hr
    refine ⟨slot, hs, ?_, ?_⟩
    · unfold State.route_to at hto
      split at hto
      · rw [← Option.some.inj hto]
      · cases hto
    · rw [← State.id_of_selected hs]
      rcases hid slot with ⟨hu, -⟩ | hr
      · exact absurd hu (hset slot hs)
      · exact hr

/-- A resume handler is registered, and dual dispatch is entered by a leaf that registers
no id. -/
def unset_id_run : List (ℕ × Choice) :=
  steps false 0 8 (.handle_cpuid REGISTER_RESUME_HANDLER 0x1000 0)
    ++ steps false 0 9 (.handle_cpuid REGISTER_ATTRIBUTES_HANDLER 0x2000 0)

/-- Syscall number 0xffffffff goes to the inherited handler. -/
theorem unset_id_run_routes :
    (Threads.run (program ℕ) (start ℕ) unset_id_run).mem.route_syscall 0xffffffff 0 0
        = some ⟨0x1000, false⟩
      ∧ ¬SelectsRegistered (Threads.trace (program ℕ) (start ℕ) unset_id_run)
          (Threads.run (program ℕ) (start ℕ) unset_id_run).mem 0xffffffff 0 0 := by
  refine ⟨by decide, fun h => ?_⟩
  obtain ⟨slot, -, -, hreg⟩ := (h (by decide)).1 ⟨0x1000, false⟩ (by decide)
  cases slot
  · exact absurd hreg (by decide)
  · exact absurd hreg (by decide)

end Runs

end Linuwux.Reflex
