/-
`ReflexHandler.lean` -- where a registered handler ends up.

The handler lives in `resume_target` before a promotion and in `system_target` after it.
A REGISTER_RESUME_HANDLER that finds ResumeTarget calls the host and only then stores, so a
promotion that copies the old handler in between leaves the new one where nobody looks.
This file shows that this is the only way to lose an update.
-/
import Linuwux.ReflexInvariant
import Mathlib.Data.Fintype.Basic

set_option autoImplicit false

namespace Linuwux.Reflex

open Threads (Outcome Program Config)

variable {T : Type}

/-! ## The handler across a promotion -/

/-- The promoting call has read `resume_target` and not yet published what it copied. -/
def Thread.copying : Thread → Bool
  | .running _ (.add_system _) | .running _ (.add_copy _) | .running _ .add_convention
  | .running _ .add_publish => true
  | _ => false

theorem Thread.owner_of_copying {th : Thread} (h : th.copying = true) : th.owner = true := by
  unfold Thread.copying at h
  split at h
  all_goals first
    | rfl
    | cases h

/-- The thread is about to store the handler of a REGISTER_RESUME_HANDLER that found
ResumeTarget. -/
def Thread.stores_resume : Thread → Bool
  | .running _ .rrt_resume => true
  | _ => false

/-- A REGISTER_RESUME_HANDLER that found ResumeTarget stores before any promotion has read
the handler. -/
def BeforeCopy (_ : List (T × Event)) (c : Config T State Thread) (x : T × Choice) : Prop :=
  (c.loc x.1).stores_resume = true →
    c.mem.routing ≠ .DualDispatch ∧ ∀ u, (c.loc u).copying = false

instance [Fintype T] (tr : List (T × Event)) (c : Config T State Thread) (x : T × Choice) :
    Decidable (BeforeCopy tr c x) :=
  inferInstanceAs (Decidable (_ → _ ∧ _))

/-- What a promoting call carries while the handler is `t`. -/
def Thread.Copies (t : UInt64) (s : State) : Thread → Prop
  | .running _ (.add_system v) | .running _ (.add_copy v) => v = t
  | .running _ .add_convention | .running _ .add_publish => s.dispatch.system_target = t
  | _ => True

theorem Thread.copies_of_not_copying {t : UInt64} {s : State} {th : Thread}
    (h : th.copying = false) : th.Copies t s := by
  unfold Thread.Copies
  split
  all_goals trivial

/-- The handler is `t`, wherever it is on its way from `resume_target` to
`system_target`. -/
structure HandlerIs (t : UInt64) (c : Config T State Thread) : Prop where
  registered : c.mem.routing.registered = true
  dual : c.mem.routing = .DualDispatch → c.mem.dispatch.system_target = t
  pending : c.mem.routing ≠ .DualDispatch → (∀ u, (c.loc u).copying = false) →
    c.mem.resume_target = t
  copies : ∀ u, (c.loc u).Copies t c.mem

/-- A first registration that has stored its handler. -/
def Thread.Stored (t : UInt64) (s : State) : Thread → Prop
  | .running _ .rrt_legacy | .running _ .rrt_selector | .running _ .rrt_publish =>
    s.resume_target = t
  | _ => True

/-! ### One access -/

theorem resume_target_apply {s : State} {call : Call} {pc : Pc} {w : Write} {th : Thread}
    (hw : Writes s call pc w th) :
    (w.apply s).resume_target = s.resume_target
      ∨ (pc = .rrt_resume ∨ pc = .rrt_target) ∧ (w.apply s).resume_target = call.argument := by
  cases hw with
  | rrt_resume | rrt_target => exact Or.inr ⟨by simp, rfl⟩
  | dual_store h =>
    subst h
    exact Or.inl (dual_write_frame call.leaf call.argument s).2.2.1
  | _ => exact Or.inl rfl

theorem system_target_apply {s : State} {call : Call} {pc : Pc} {w : Write} {th : Thread}
    (hw : Writes s call pc w th) :
    (w.apply s).dispatch.system_target = s.dispatch.system_target
      ∨ (pc = .rrt_system ∧ (w.apply s).dispatch.system_target = call.argument)
      ∨ ∃ v, pc = .add_copy v := by
  cases hw with
  | rrt_system => exact Or.inr (Or.inl ⟨rfl, rfl⟩)
  | add_copy v => exact Or.inr (Or.inr ⟨v, rfl⟩)
  | dual_store h =>
    subst h
    exact Or.inl (dual_write_frame call.leaf call.argument s).2.2.2.2
  | _ => exact Or.inl rfl

theorem dual_apply {s : State} {call : Call} {pc : Pc} {w : Write} {th : Thread}
    (hw : Writes s call pc w th) (h : (w.apply s).routing = .DualDispatch) :
    s.routing = .DualDispatch
      ∨ pc = .add_publish ∧ (w.apply s).dispatch.system_target = s.dispatch.system_target := by
  cases hw with
  | rrt_cas | rrt_publish | add_cas_unregistered | add_cas_resume => cases h
  | add_publish => exact Or.inr ⟨rfl, rfl⟩
  | dual_store hd =>
    subst hd
    rw [(dual_write_frame call.leaf call.argument s).1] at h
    exact Or.inl h
  | _ => exact Or.inl h

/-- A promoting call keeps carrying the handler it found. -/
theorem copies_access {t : UInt64} (x : Choice) {s : State} {call : Call} {pc : Pc}
    (hok : pc.Ok s) (hc : (Thread.running call pc).Copies t s)
    (hp : pc = .add_target → s.resume_target = t) :
    (access x s call pc).loc.Copies t (access x s call pc).mem := by
  cases pc with
  | add_target => exact hp rfl
  | add_system v =>
    obtain ⟨-, -, -, hz⟩ := hok
    simp only [access, hz, if_true]
    exact hc
  | add_copy v => exact hc
  | add_convention => exact hc
  | _ =>
    simp only [access, observe, wait_step, cas_routing]
    repeat' split
    all_goals trivial

/-- Copying ends with the word at DualDispatch. -/
theorem copying_access (x : Choice) {s : State} {call : Call} {pc : Pc}
    (h : (Thread.running call pc).copying = true) :
    (access x s call pc).loc.copying = true
      ∨ (access x s call pc).mem.routing = .DualDispatch := by
  cases pc with
  | add_system v =>
    left
    simp only [access]
    split <;> rfl
  | add_copy v => exact Or.inl rfl
  | add_convention => exact Or.inl rfl
  | add_publish => exact Or.inr rfl
  | _ => cases h

theorem stored_access {t : UInt64} (x : Choice) {s : State} {call : Call} {pc : Pc}
    (hc : (Thread.running call pc).Stored t s) (hp : pc = .rrt_target → call.argument = t) :
    (access x s call pc).loc.Stored t (access x s call pc).mem := by
  cases pc with
  | rrt_target => exact hp rfl
  | rrt_legacy =>
    simp only [access]
    split <;> exact hc
  | rrt_selector => exact hc
  | _ =>
    simp only [access, observe, wait_step, cas_routing]
    repeat' split
    all_goals trivial

/-- The three points where a REGISTER_RESUME_HANDLER is consumed. -/
theorem resume_consumed {x : Choice} {s : State} {call : Call} {pc : Pc}
    (hr : call.is_resume = true)
    (hc : pc.of_call call)
    (h : .returned call (.action .Consumed) ∈ (access x s call pc).events) :
    pc = .rrt_system ∨ pc = .rrt_resume ∨ pc = .rrt_publish := by
  have hleaf : call.leaf = .register_resume_handler := by simpa [Call.is_resume] using hr
  cases pc with
  | rrt_system | rrt_resume | rrt_publish => simp
  | rrh_identity | rrh_routing | rrt_load | rrt_recipe | rrt_patch | rrt_cas | rrt_wait
  | rrt_target | rrt_legacy | rrt_selector =>
    simp only [access, observe, wait_step, cas_routing] at h
    repeat' split at h
    all_goals simp [go, put, ret] at h
  | routing_load | has_pid | has_routing | unarmed_routing | unarmed_target | route_routing
  | route_convention | route_resume | route_system_id | route_system_target
  | route_attributes_id | route_attributes_target =>
    rw [Pc.of_call] at hc
    rw [hc] at hleaf
    cases hleaf
  | _ => simp [Pc.of_call, Call.is_dual, hleaf] at hc

/-! ### One step -/

/-- Everything the calls under way know when every handler being registered is `t`. -/
structure Registers (t : UInt64) (c : Config T State Thread) : Prop where
  inv : Inv c
  argument : ∀ u call pc, c.loc u = .running call pc → call.is_resume = true → call.argument = t
  stored : ∀ u, (c.loc u).Stored t c.mem

/-- A thread that copies owns the routing word, so it is the only one and the word is
neither ResumeTarget nor DualDispatch. -/
theorem Inv.routing_of_copying {c : Config T State Thread} (h : Inv c) {u : T}
    (hu : (c.loc u).copying = true) : Activating c.mem := by
  have hok := h.loc u
  unfold Thread.copying at hu
  split at hu
  case h_5 => cases hu
  all_goals
    rename_i heq
    rw [heq] at hok
    exact hok.1

/-- Nobody copies once the word says DualDispatch. -/
theorem Inv.not_copying_of_dual {c : Config T State Thread} (h : Inv c)
    (hd : c.mem.routing = .DualDispatch) (u : T) : (c.loc u).copying = false := by
  by_contra hcp
  have hcp : (c.loc u).copying = true := by simpa using hcp
  rcases h.routing_of_copying hcp with hb | hb
  · rw [hd] at hb
    cases hb
  · rw [hd] at hb
    cases hb

/-- Nobody copies beside an owner of the word. -/
theorem Inv.not_copying_of_owner {c : Config T State Thread} (h : Inv c) {t : T}
    (ho : (c.loc t).owner = true) {u : T} (hu : u ≠ t) : (c.loc u).copying = false := by
  by_contra hcp
  have hcp : (c.loc u).copying = true := by simpa using hcp
  exact hu (h.unique u t (Thread.owner_of_copying hcp) ho)

/-- While nobody copies, the handler is where the routing word says it is. -/
theorem HandlerIs.of_not_copying {t : UInt64} {c : Config T State Thread}
    (hreg : c.mem.routing.registered = true) (hnone : ∀ u, (c.loc u).copying = false)
    (hd : c.mem.routing = .DualDispatch → c.mem.dispatch.system_target = t)
    (hp : c.mem.routing ≠ .DualDispatch → c.mem.resume_target = t) : HandlerIs t c :=
  ⟨hreg, hd, fun hnd _ => hp hnd, fun u => Thread.copies_of_not_copying (hnone u)⟩

variable [DecidableEq T]

/-- What dual dispatch routes to is the handler that was promoted. -/
theorem HandlerIs.dual_step {t : UInt64} {c : Config T State Thread} (h : HandlerIs t c)
    (hr : Registers t c) (x : T × Choice)
    (hd : (Threads.step (program T) c x).mem.routing = .DualDispatch) :
    (Threads.step (program T) c x).mem.dispatch.system_target = t := by
  rw [Threads.step_mem] at hd ⊢
  simp only [program] at hd ⊢
  rcases thread_step_effect x.2 c.mem (c.loc x.1) with ⟨hm, -⟩ | ⟨call, pc, w, hth, hw, hm, -⟩
  · rw [hm] at hd ⊢
    exact h.dual hd
  · rw [hm] at hd ⊢
    rcases dual_apply hw hd with hold | ⟨rfl, he⟩
    · rcases system_target_apply hw with he | ⟨rfl, he⟩ | ⟨v, rfl⟩
      · exact he.trans (h.dual hold)
      · exact he.trans (hr.argument x.1 call _ hth (hr.inv.pc_of_call hth))
      · -- A promoter copies only before the word says so.
        rcases (hr.inv.pc_ok hth).1 with hb | hb <;> rw [hold] at hb <;> cases hb
    · have hc := h.copies x.1
      rw [hth] at hc
      exact he.trans hc

/-- Nobody copies after a step that publishes nothing only if nobody did before. -/
theorem HandlerIs.not_copying_before {c : Config T State Thread} (x : T × Choice)
    (hnd : (Threads.step (program T) c x).mem.routing ≠ .DualDispatch)
    (hnone : ∀ u, ((Threads.step (program T) c x).loc u).copying = false) (u : T) :
    (c.loc u).copying = false := by
  by_cases hu : u = x.1
  · subst hu
    by_contra hcp
    have hcp : (c.loc x.1).copying = true := by simpa using hcp
    have hself := hnone x.1
    rw [Threads.step_loc_self] at hself
    rw [Threads.step_mem] at hnd
    simp only [program] at hself hnd
    cases hl : c.loc x.1 with
    | idle =>
      rw [hl] at hcp
      cases hcp
    | running call pc =>
      rw [hl] at hcp hself hnd
      -- A copying thread goes on copying, or publishes.
      rcases copying_access x.2 (s := c.mem) hcp with hk | hk
      · cases hself.symm.trans hk
      · exact hnd hk
  · rw [← Threads.step_loc_of_ne (program T) c x hu]
    exact hnone u

/-- Until the handler is copied it stays in `resume_target`. -/
theorem HandlerIs.pending_step {t : UInt64} {c : Config T State Thread} (h : HandlerIs t c)
    (hr : Registers t c) (x : T × Choice)
    (hnd : (Threads.step (program T) c x).mem.routing ≠ .DualDispatch)
    (hnone : ∀ u, ((Threads.step (program T) c x).loc u).copying = false) :
    (Threads.step (program T) c x).mem.resume_target = t := by
  have hrely := thread_step_rely x.2 (hr.inv.loc x.1) false nofun
  have hold : c.mem.routing ≠ .DualDispatch := fun hd => hnd (hrely.dual hd)
  have hval := h.pending hold (HandlerIs.not_copying_before x hnd hnone)
  rw [Threads.step_mem]
  simp only [program]
  rcases thread_step_effect x.2 c.mem (c.loc x.1) with ⟨hm, -⟩ | ⟨call, pc, w, hth, hw, hm, -⟩
  · rw [hm]
    exact hval
  · rw [hm]
    rcases resume_target_apply hw with he | ⟨rfl | rfl, he⟩
    · exact he.trans hval
    · exact he.trans (hr.argument x.1 call _ hth (hr.inv.pc_of_call hth))
    · exact he.trans (hr.argument x.1 call _ hth (hr.inv.pc_of_call hth))

/-- A promoter carries the handler. -/
theorem HandlerIs.copies_step {t : UInt64} {c : Config T State Thread} (h : HandlerIs t c)
    (hr : Registers t c) (x : T × Choice) (u : T) :
    ((Threads.step (program T) c x).loc u).Copies t (Threads.step (program T) c x).mem := by
  have hc := h.copies u
  by_cases hu : u = x.1
  · subst hu
    rw [Threads.step_loc_self, Threads.step_mem]
    simp only [program]
    cases hl : c.loc x.1 with
    | idle =>
      apply Thread.copies_of_not_copying
      simp only [thread_step, enter]
      repeat' split
      all_goals rfl
    | running call pc =>
      rw [hl] at hc
      refine copies_access x.2 (hr.inv.pc_ok hl) hc ?_
      rintro rfl
      -- The promoter is the only owner, so nobody has copied yet.
      refine h.pending ?_ fun v => ?_
      · rcases (hr.inv.pc_ok hl).1 with hb | hb <;> simp [hb]
      · by_cases hv : v = x.1
        · rw [hv, hl]
          rfl
        · exact hr.inv.not_copying_of_owner (by rw [hl]; rfl) hv
  · rw [Threads.step_loc_of_ne (program T) c x hu]
    cases hcp : (c.loc u).copying with
    | false => exact Thread.copies_of_not_copying hcp
    | true =>
      obtain ⟨-, -, hs⟩ := (hr.inv.rely x hu).kept (Thread.owner_of_copying hcp)
      revert hc
      unfold Thread.Copies
      split
      all_goals simp_all

theorem HandlerIs.step {t : UInt64} {c : Config T State Thread} (h : HandlerIs t c)
    (hr : Registers t c) (x : T × Choice) : HandlerIs t (Threads.step (program T) c x) where
  registered := (thread_step_rely x.2 (hr.inv.loc x.1) false nofun).registered h.registered
  dual := h.dual_step hr x
  pending := h.pending_step hr x
  copies := h.copies_step hr x

/-- The handler of a first registration is its own until the word is published. -/
theorem Registers.stored_step {t : UInt64} {c : Config T State Thread} (h : Registers t c)
    (x : T × Choice) {u : T} (hu : u ≠ x.1) :
    (c.loc u).Stored t (Threads.step (program T) c x).mem := by
  have hst := h.stored u
  have hok := h.inv.loc u
  -- Other writers of `resume_target` are past a registration, or own the word themselves.
  have hkeep : c.mem.routing = .RegisteringResumeTarget → (c.loc u).owner = true →
      (Threads.step (program T) c x).mem.resume_target = c.mem.resume_target := by
    intro hr ho
    rw [Threads.step_mem]
    rcases thread_step_effect x.2 c.mem (c.loc x.1) with ⟨hm, -⟩ | ⟨call, pc, w, hth, hw, hm, -⟩
    · exact congrArg State.resume_target hm
    · refine (congrArg State.resume_target hm).trans ?_
      have hokx := h.inv.pc_ok hth
      rcases resume_target_apply hw with he | ⟨rfl | rfl, -⟩
      · exact he
      · change c.mem.routing.registered = true at hokx
        rw [hr] at hokx
        cases hokx
      · exact absurd (h.inv.unique u x.1 ho (by rw [hth]; rfl)) hu
  revert hst
  unfold Thread.Stored
  split
  case h_4 => exact fun _ => trivial
  case h_3 heq =>
    rw [heq] at hok
    exact (hkeep hok (by rw [heq]; rfl)).trans
  all_goals
    rename_i heq
    rw [heq] at hok
    exact (hkeep hok.1 (by rw [heq]; rfl)).trans

theorem Registers.step {t : UInt64} {c : Config T State Thread} (h : Registers t c)
    (x : T × Choice)
    (hx : ∀ call, (x.1, .began call) ∈ Threads.events (program T) c x → call.is_resume = true →
      call.argument = t) : Registers t (Threads.step (program T) c x) := by
  have hother : ∀ {u}, u ≠ x.1 → (Threads.step (program T) c x).loc u = c.loc u :=
    fun hu => Threads.step_loc_of_ne _ c x hu
  refine ⟨h.inv.step x, fun u call pc hl hr => ?_, fun u => ?_⟩
  · by_cases hu : u = x.1
    · subst hu
      rcases running_step (h.inv.call x.1) hl with ⟨hi, -⟩ | ⟨pc', hl'⟩
      · exact hx call (began_step hi hl) hr
      · exact h.argument x.1 call pc' hl' hr
    · rw [hother hu] at hl
      exact h.argument u call pc hl hr
  · by_cases hu : u = x.1
    · subst hu
      rw [Threads.step_loc_self, Threads.step_mem]
      have hst := h.stored x.1
      cases hl : c.loc x.1 with
      | idle =>
        simp only [program, thread_step, enter]
        repeat' split
        all_goals trivial
      | running call pc =>
        rw [hl] at hst
        refine stored_access x.2 hst ?_
        rintro rfl
        have hcall := h.inv.pc_of_call hl
        exact h.argument x.1 call _ hl hcall
    · rw [hother hu]
      exact h.stored_step x hu

omit [DecidableEq T] in
/-- A registration is not answered as it begins. -/
theorem resume_not_begins {c : Config T State Thread} {x : T × Choice} {u : T} {call : Call}
    {a : Answer} (hr : call.is_resume = true) (hi : c.loc x.1 = .idle) :
    (u, Event.returned call a) ∉ Threads.events (program T) c x := by
  intro he
  obtain ⟨e, he, heq⟩ := List.mem_map.mp he
  obtain ⟨rfl, rfl⟩ := Prod.mk.inj heq
  simp only [program, hi, thread_step, enter] at he
  repeat' split at he
  all_goals simp_all [Call.is_resume, Call.leaf]

/-- A registration that is consumed puts the handler where the routing word says it is. -/
theorem Registers.consumed_step {t : UInt64} {tr : List (T × Event)} {c : Config T State Thread}
    (h : Registers t c) (x : T × Choice) (hb : BeforeCopy tr c x) {u : T} {call : Call}
    (hr : call.is_resume = true)
    (he : (u, .returned call (.action .Consumed)) ∈ Threads.events (program T) c x) :
    HandlerIs t (Threads.step (program T) c x) := by
  obtain ⟨-, ⟨hi, -⟩ | ⟨pc, hl, hev⟩⟩ := returned_step he
  · exact absurd he (resume_not_begins hr hi)
  · have hok := h.inv.pc_ok hl
    have hstored := h.stored x.1
    rw [hl] at hstored
    have harg := h.argument x.1 call pc hl hr
    have hmem : (Threads.step (program T) c x).mem = (access x.2 c.mem call pc).mem := by
      rw [Threads.step_mem]
      simp only [program, hl, thread_step]
    have hnone : (access x.2 c.mem call pc).loc = .idle →
        (∀ v, v ≠ x.1 → (c.loc v).copying = false) →
        ∀ v, ((Threads.step (program T) c x).loc v).copying = false := by
      intro hidle hn v
      by_cases hv : v = x.1
      · subst hv
        rw [Threads.step_loc_self]
        simp only [program, hl, thread_step, hidle]
        rfl
      · rw [Threads.step_loc_of_ne _ c x hv]
        exact hn v hv
    rcases resume_consumed hr (h.inv.pc_of_call hl) hev with rfl | rfl | rfl
    · -- It found DualDispatch, and stores where dual dispatch looks.
      refine .of_not_copying ?_ (hnone rfl fun v _ => h.inv.not_copying_of_dual hok v)
        (fun _ => ?_) fun hnd => ?_
      · rw [hmem]
        change c.mem.routing.registered = true
        rw [show c.mem.routing = .DualDispatch from hok]
        rfl
      · rw [hmem]
        exact harg
      · rw [hmem] at hnd
        exact absurd hok hnd
    · -- It found ResumeTarget, and stores before a promotion has read the handler.
      obtain ⟨hnd, hcp⟩ := hb (by rw [hl]; rfl)
      refine .of_not_copying ?_ (hnone rfl fun v _ => hcp v) (fun hd => ?_) fun _ => ?_
      · rw [hmem]
        exact hok
      · rw [hmem] at hd
        exact absurd hd hnd
      · rw [hmem]
        exact harg
    · -- It publishes a first registration, whose handler is stored.
      refine .of_not_copying ?_ (hnone rfl fun v hv =>
        h.inv.not_copying_of_owner (by rw [hl]; rfl) hv) (fun hd => ?_) fun _ => ?_
      · rw [hmem]
        rfl
      · rw [hmem] at hd
        cases hd
      · rw [hmem]
        exact hstored

/-! ### Every run -/

/-- The syscall number asks for the resume handler: any number before dual dispatch, the
system id after it. -/
def SystemRole (s : State) (number : UInt64) : Prop :=
  s.syscall_convention = .DualDispatch → number.toUInt32 = s.dispatch.system_id

omit [DecidableEq T] in
/-- Between calls the handler is the target of every route for the system role. -/
theorem HandlerIs.target_of_route {t : UInt64} {c : Config T State Thread} (h : HandlerIs t c)
    (hinv : Inv c) (hidle : ∀ u, c.loc u = .idle) {number : UInt64} {r10 : Int64} {rcx : UInt64}
    {r : SyscallRoute} (hr : c.mem.route_syscall number r10 rcx = some r)
    (hrole : SystemRole c.mem number) : r.target = t := by
  have hto : ∀ {v b}, State.route_to v b = some r → r.target = v := by
    intro v b hv
    unfold State.route_to at hv
    split at hv
    · rw [← Option.some.inj hv]
    · cases hv
  have hstable : c.mem.routing.transient = false := by
    by_contra htr
    obtain ⟨u, hu⟩ := hinv.owned (by simpa using htr)
    rw [hidle u] at hu
    cases hu
  have hmem := hinv.mem
  have hreg := h.registered
  unfold MemOk at hmem
  unfold State.route_syscall at hr
  cases hs : c.mem.routing with
  | ResumeTarget =>
    rw [hs] at hmem hr
    have hval : c.mem.resume_target = t :=
      h.pending (by rw [hs]; nofun) fun u => by rw [hidle u]; rfl
    rw [← hval]
    cases hcv : c.mem.syscall_convention with
    | ResumeReplay => exact hto (by simpa [hcv] using hr)
    | SelectorDispatch =>
      simp only [hcv, reduceCtorEq, or_self, if_false] at hr
      split at hr
      · cases hr
      · exact hto hr
    | DualDispatch => exact absurd hcv hmem.1
  | DualDispatch =>
    rw [hs] at hmem hr
    rw [← h.dual hs]
    simp only [hmem, reduceCtorEq, or_self, if_false, hrole hmem, if_true] at hr
    repeat' split at hr
    all_goals first
      | cases hr
      | exact hto hr
  | Unregistered | RegisteringResumeTarget | RegisteringDualDispatch =>
    rw [hs] at hreg
    cases hreg
  | PromotingDualDispatch =>
    rw [hs] at hstable
    cases hstable

/-- A registration is under way. -/
def Thread.registers : Thread → Bool
  | .running call _ => call.is_resume
  | .idle => false

/-- A registration that begins is for `t`. -/
def Event.registers_only (t : UInt64) : Event → Bool
  | .began call => !call.is_resume || call.argument == t
  | _ => true

/-- A registration is consumed. -/
def Event.consumes_resume : Event → Bool
  | .returned call (.action .Consumed) => call.is_resume
  | _ => false

/-- Registrations of `t`, and of nothing else, run from `c` under the schedule, and one is
consumed. When all calls have returned, every route for the system role goes to `t`. -/
def HandlerKept (t : UInt64) (c : Config T State Thread) (s : List (T × Choice)) : Prop :=
  (∀ u, (c.loc u).registers = false) →
    (∀ e ∈ Threads.trace (program T) c s, e.2.registers_only t = true) →
    (∃ e ∈ Threads.trace (program T) c s, e.2.consumes_resume = true) →
    (∀ u, (Threads.run (program T) c s).loc u = .idle) →
    ∀ number r10 rcx r, (Threads.run (program T) c s).mem.route_syscall number r10 rcx = some r →
      SystemRole (Threads.run (program T) c s).mem number → r.target = t

omit [DecidableEq T] in
theorem registers_start {t : UInt64} {c : Config T State Thread} (h : Inv c)
    (hnone : ∀ u, (c.loc u).registers = false) : Registers t c := by
  refine ⟨h, fun u call pc hl hres => ?_, fun u => ?_⟩
  · have hn := hnone u
    rw [hl] at hn
    exact absurd (hn.symm.trans hres) nofun
  · have hcall := h.call u
    have hn := hnone u
    unfold Thread.Stored
    split
    case h_4 => trivial
    all_goals
      rename_i heq
      rw [heq] at hcall hn
      exact absurd (hn.symm.trans hcall) nofun

/-- **No handler is lost.** From any reachable configuration, in every run in which a
registration that found ResumeTarget stores before a promotion has read the handler, the
handler of a consumed registration is kept. -/
theorem handler_update_kept (s₀ s : List (T × Choice)) (t : UInt64)
    (hbefore : Threads.AllSteps (program T) BeforeCopy (Threads.run (program T) (start T) s₀) s) :
    HandlerKept t (Threads.run (program T) (start T) s₀) s := by
  intro hnone honly hconsumed hidle number r10 rcx r hr hrole
  -- The registrations of the run so far are all for `t`, and the first that is consumed
  -- settles the handler.
  obtain ⟨hreg, hhandler⟩ := Threads.run_induct_of (program T) (Q := fun _ => True)
    (I := fun tr d => (∀ e ∈ tr, e.2.registers_only t = true) →
      Registers t d ∧ ((∃ e ∈ tr, e.2.consumes_resume = true) → HandlerIs t d))
    (fun _ => ⟨registers_start (inv_run s₀) hnone, by simp⟩)
    (fun tr d x hb _ ih hall => by
      obtain ⟨hreg, hh⟩ := ih fun e hm => hall e (List.mem_append_left _ hm)
      refine ⟨hreg.step x fun call hm hres => ?_, ?_⟩
      · have hcall := hall _ (List.mem_append_right _ hm)
        simpa [Event.registers_only, hres] using hcall
      · rintro ⟨⟨u, e⟩, hm, hres⟩
        rcases List.mem_append.mp hm with hm | hm
        · exact (hh ⟨_, hm, hres⟩).step hreg x
        · change e.consumes_resume = true at hres
          unfold Event.consumes_resume at hres
          split at hres
          · exact hreg.consumed_step x hb hres hm
          · cases hres)
    hbefore (fun _ _ => trivial) honly
  exact (hhandler hconsumed).target_of_route hreg.inv hidle hr hrole

/-- Thread `false` has registered the handler 0x1000. In the runs it registers 0x2000, and
thread `true` promotes. -/
def first_handler : Config Bool State Thread :=
  Threads.run (program Bool) (start Bool)
    (steps false false 8 (.handle_cpuid REGISTER_RESUME_HANDLER 0x1000 0))

/-- A second handler is stored and then promoted. -/
def stored_run : List (Bool × Choice) :=
  steps false false 7 (.handle_cpuid REGISTER_RESUME_HANDLER 0x2000 0)
    ++ steps false true 9 (.handle_cpuid REGISTER_SYSTEM_SYSCALL_ID 0xffe 0)

/-- The second handler is patched, the first one promoted, and the second one stored. -/
def promoted_between_run : List (Bool × Choice) :=
  steps false false 6 (.handle_cpuid REGISTER_RESUME_HANDLER 0x2000 0)
    ++ steps false true 9 (.handle_cpuid REGISTER_SYSTEM_SYSCALL_ID 0xffe 0)
    ++ steps false false 1 (.handle_cpuid REGISTER_RESUME_HANDLER 0x2000 0)

theorem stored_run_kept :
    (Threads.run (program Bool) first_handler stored_run).mem.route_syscall 0xffe 0 0
        = some ⟨0x2000, false⟩
      ∧ HandlerKept 0x2000 first_handler stored_run :=
  ⟨by decide, handler_update_kept _ stored_run 0x2000 (by decide)⟩

/-- Both calls are consumed and have returned, and the route still goes to the first
handler. -/
theorem promoted_between_run_loses : ¬HandlerKept 0x2000 first_handler promoted_between_run := by
  intro h
  have htarget := h (by decide) (by decide) (by decide) (by decide) 0xffe 0 0 ⟨0x1000, false⟩
    (by decide) (fun _ => by decide)
  exact absurd htarget (by decide)

end Linuwux.Reflex
