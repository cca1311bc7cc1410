/-
`RuntimeHost.lean` -- `State` driven through the host of `runtime/src/reflex.rs`.

Three state machines meet in a control leaf. `State` (`ReflexState.lean`) keeps the
convention and asks its host for a recipe; the CPU identity (`CpuIdentity.lean`) answers
which presentation is active and which recipe the selector convention uses; the arbiter
(`KuserPage.lean`) admits the recipe or not. Here they are one runtime: the host answers
from the identity and the arbiter, and what `State` asked for is performed on them.

The convention is fixed at the first registration and the presentation may change after
it, so the recipes asked for can change too. They change one way only: Resume is asked
for by no convention but the first, which is never stored again.
-/
import Linuwux.CpuIdentity
import Linuwux.KuserPage
import Linuwux.ReflexHistory

set_option autoImplicit false

namespace Linuwux.Reflex

open Kuser (Setup Answers World PatchResult Status)

/-- `REFLEX_STATE`, `ACTIVE_IDENTITY`, and `PATCH_STATE` with its page. -/
structure Runtime where
  state : State
  identity : UInt32
  world : World

def Runtime.new (page : Kuser.Page) : Runtime :=
  ⟨.new, Cpuid.ActiveCpuIdentity.new, .new page⟩

namespace Runtime

/-! ## The host -/

def legacy_presentation_active (rt : Runtime) : Bool :=
  Cpuid.cpuid_kuser_recipe rt.identity != Kuser.Recipe.raw .Resume

def selector_kuser_recipe (rt : Runtime) : KuserRecipe :=
  if Cpuid.cpuid_kuser_recipe rt.identity = 2 then .Dispatch else .Selector

/-- `RuntimeHost::patch_kuser`. -/
def patch_kuser (setup : Setup) (env : Answers) (rt : Runtime) (recipe : KuserRecipe) : Bool :=
  (Kuser.patch_kuser_shared_data_recipe setup (Kuser.Recipe.raw recipe) env rt.world).1 = 0

/-- The recipe a call of `patch_kuser` is about: the one the convention asks for. -/
def recipe (rt : Runtime) : KuserRecipe :=
  State.recipe_of rt.state.syscall_convention
    ⟨rt.legacy_presentation_active, rt.selector_kuser_recipe, false⟩

/-- What the host answers during one leaf. -/
def host (setup : Setup) (env : Answers) (rt : Runtime) : HostReply where
  legacy_presentation_active := rt.legacy_presentation_active
  selector_kuser_recipe := rt.selector_kuser_recipe
  patch_kuser := rt.patch_kuser setup env rt.recipe

/-- One host call performed, with what `PatchState::patch` returned if it was called. -/
def perform_one (setup : Setup) (env : Answers) (rt : Runtime) : HostCall →
    Runtime × List PatchResult
  | .select_legacy_presentation =>
    ({ rt with identity := Cpuid.select_legacy_presentation rt.identity }, [])
  | .patch_kuser recipe =>
    let (result, world) := Kuser.guarded_patch setup recipe env rt.world
    ({ rt with world := world }, result.toList)
  | _ => (rt, [])

/-- The host calls of a leaf performed in order. -/
def perform (setup : Setup) (env : Answers) (rt : Runtime) : List HostCall →
    Runtime × List PatchResult
  | [] => (rt, [])
  | call :: calls =>
    let (rt₁, results) := rt.perform_one setup env call
    let (rt₂, results') := rt₁.perform setup env calls
    (rt₂, results ++ results')

/-- `reflex_handle_cpuid`: one control leaf, with what every `PatchState::patch` in it
returned. -/
def handle_cpuid (setup : Setup) (env : Answers) (rt : Runtime) (leaf : UInt32)
    (rcx rdx : UInt64) : Action × Runtime × List PatchResult :=
  let (action, state, calls) := rt.state.handle_cpuid leaf rcx rdx (rt.host setup env)
  let (rt', results) := rt.perform setup env calls
  (action, { rt' with state := state }, results)

end Runtime

/-- What happens to the runtime: a control leaf, or a change of the identity between leaves. -/
inductive RuntimeEvent where
  | leaf (leaf : UInt32) (rcx rdx : UInt64) (env : Answers)
  | select_legacy_presentation
  | configure_host (vendor : Cpuid.Vendor) (avx_enabled : Bool)

namespace Runtime

def step (setup : Setup) (rt : Runtime) : RuntimeEvent → Runtime × List PatchResult
  | .leaf leaf rcx rdx env => (rt.handle_cpuid setup env leaf rcx rdx).2
  | .select_legacy_presentation =>
    ({ rt with identity := Cpuid.select_legacy_presentation rt.identity }, [])
  | .configure_host vendor avx_enabled =>
    ({ rt with identity := Cpuid.configure_host vendor avx_enabled rt.identity }, [])

/-- A run: the runtime it leads to and every result of `PatchState::patch`, oldest first. -/
def run (setup : Setup) (rt : Runtime) : List RuntimeEvent → Runtime × List PatchResult
  | [] => (rt, [])
  | e :: es =>
    let (rt₁, results) := rt.step setup e
    let (rt₂, results') := rt₁.run setup es
    (rt₂, results ++ results')

/-! ## What a leaf asks for -/

/-- A wait only yields. -/
theorem wait_loop_calls (s : State) (n : ℕ) : ∀ c ∈ (s.wait_loop n).2, c = .yield_thread := by
  induction n with
  | zero => simp [State.wait_loop]
  | succ n ih =>
    unfold State.wait_loop
    split
    · simp
    · simpa using ih

theorem patch_kuser_not_mem_wait (s : State) (r : KuserRecipe) :
    .patch_kuser r ∉ s.wait_for_transition.2 := fun h => by
  cases wait_loop_calls s _ _ h

theorem patch_kuser_not_mem_activate (s : State) (r : KuserRecipe) :
    .patch_kuser r ∉ s.activate_dual_dispatch.2.2 := by
  unfold State.activate_dual_dispatch
  split
  · simp
  · simp
  · simp
  all_goals exact patch_kuser_not_mem_wait s r

theorem patch_kuser_mem_register {s : State} {target : UInt64} {host : HostReply}
    {r : KuserRecipe} (h : .patch_kuser r ∈ (s.register_resume_target target host).2.2) :
    r = State.recipe_of s.syscall_convention host := by
  have hasked : .patch_kuser r ∉ (s.kuser_recipe host).2 := by
    unfold State.kuser_recipe
    split <;> simp
  unfold State.register_resume_target at h
  split at h
  · simp at h
  · split at h
    · simpa [hasked, State.kuser_recipe] using h
    · simpa [hasked, State.kuser_recipe] using h
  · simp at h
  all_goals exact absurd h (patch_kuser_not_mem_wait s r)

theorem infer_identity_convention (s : State) :
    s.infer_identity.1.syscall_convention = s.syscall_convention := by
  unfold State.infer_identity
  split <;> rfl

theorem patch_kuser_not_mem_infer (s : State) (r : KuserRecipe) :
    .patch_kuser r ∉ s.infer_identity.2 := by
  unfold State.infer_identity
  split <;> simp

/-- Every recipe a leaf patches is the one the convention asks for. -/
theorem patch_kuser_mem {s : State} {leaf : UInt32} {rcx rdx : UInt64} {host : HostReply}
    {r : KuserRecipe} (h : .patch_kuser r ∈ (s.handle_cpuid leaf rcx rdx host).2.2) :
    r = State.recipe_of s.syscall_convention host := by
  have hlog : ∀ argument, .patch_kuser r ∉ State.log_control leaf argument := by
    simp [State.log_control]
  have hdual : ∀ argument, .patch_kuser r ∉ (s.handle_dual leaf argument).2.2 := by
    intro argument hmem
    have hact := patch_kuser_not_mem_activate s r
    unfold State.handle_dual at hmem
    split at hmem
    all_goals
      rename_i heq
      rw [heq] at hact
      rcases List.mem_append.mp hmem with hmem | hmem
      · exact hlog argument hmem
      · exact hact hmem
  unfold State.handle_cpuid at h
  split at h
  case h_3 =>
    -- REGISTER_RESUME_HANDLER: the registration has the only patch.
    simp only [List.mem_append, hlog, patch_kuser_not_mem_infer, false_or] at h
    rcases h with (h | h) | h
    · simp at h
    · split at h <;> simp at h
    · rw [patch_kuser_mem_register h, infer_identity_convention]
  case h_5 =>
    -- REGISTER_TARGET_PID.
    split at h
    · simp at h
    · have hasked : .patch_kuser r ∉
          ({ s with target_pid := cpuid_argument leaf rcx rdx }.kuser_recipe host).2 := by
        unfold State.kuser_recipe
        split <;> simp
      split at h
      · simpa [hasked, State.kuser_recipe] using h
      · simpa [hasked, State.kuser_recipe] using h
  case h_6 | h_7 | h_8 => exact absurd h (hdual _)
  case h_1 =>
    simp only at h
    split at h
    · exact absurd h (hlog _)
    · simp [State.log_control] at h
  all_goals simp [State.log_control] at h

theorem register_dual_convention (s : State) (leaf : Leaf) (argument : UInt64) :
    (s.register_dual leaf argument).syscall_convention = s.syscall_convention := by
  unfold State.register_dual
  split <;> rfl

theorem handle_dual_convention (s : State) (leaf : UInt32) (argument : UInt64) :
    (s.handle_dual leaf argument).2.1.syscall_convention = s.syscall_convention ∨
      (s.handle_dual leaf argument).2.1.syscall_convention = .DualDispatch := by
  unfold State.handle_dual State.activate_dual_dispatch
  cases s.routing with
  | DualDispatch => exact .inl (register_dual_convention _ _ _)
  | Unregistered | ResumeTarget => exact .inr (register_dual_convention _ _ _)
  | RegisteringResumeTarget | RegisteringDualDispatch | PromotingDualDispatch => exact .inl rfl

theorem register_resume_convention (s : State) (target : UInt64) (host : HostReply) :
    (s.register_resume_target target host).2.1.syscall_convention = s.syscall_convention ∨
      (s.register_resume_target target host).2.1.syscall_convention = .SelectorDispatch := by
  unfold State.register_resume_target
  cases s.routing with
  | ResumeTarget =>
    simp only
    split
    · exact .inl rfl
    · exact .inl rfl
  | Unregistered =>
    simp only
    split
    · exact .inr rfl
    · exact .inl rfl
  | _ => exact .inl rfl

/-- No leaf brings the first convention back. -/
theorem convention_kept {s : State} {leaf : UInt32} {rcx rdx : UInt64} {host : HostReply}
    (h : (s.handle_cpuid leaf rcx rdx host).2.1.syscall_convention = .ResumeReplay) :
    s.syscall_convention = .ResumeReplay := by
  let c : Control := ⟨leaf, rcx, rdx, host⟩
  by_cases hd : c.is_dual = true
  · rw [handle_cpuid_dual s hd] at h
    rcases handle_dual_convention s leaf rcx with heq | heq
    · rw [← heq, h]
    · rw [h] at heq
      cases heq
  · by_cases hr : c.is_resume = true
    · have hleaf : c.leaf = REGISTER_RESUME_HANDLER := of_decide_eq_true hr
      rw [show (s.handle_cpuid leaf rcx rdx host).2.1 = _ from handle_cpuid_resume s hleaf] at h
      rcases register_resume_convention s.infer_identity.1 rcx host with heq | heq
      · rw [h, infer_identity_convention] at heq
        exact heq.symm
      · rw [h] at heq
        cases heq
    · have hneutral := handle_cpuid_neutral s c (by simpa using hd) (by simpa using hr)
      rw [← hneutral.2.1]
      exact h

/-! ## Admissible requests -/

/-- Resume is asked for by the first convention and by no other. -/
theorem recipe_eq_resume_iff (rt : Runtime) :
    rt.recipe = .Resume ↔ rt.state.syscall_convention = .ResumeReplay := by
  unfold recipe State.recipe_of selector_kuser_recipe
  cases rt.state.syscall_convention with
  | ResumeReplay => simp
  | SelectorDispatch =>
    simp only
    split <;> simp
  | DualDispatch => simp

/-- The word says nothing, or something about Resume. -/
def ResumeFamily (st : Status) : Prop :=
  st = .unapplied ∨ st = .ready .Resume ∨ st = .failed .Resume

/-- The word is settled, and of Resume when `r` is. -/
def AdmissibleFor (r : KuserRecipe) (w : World) : Prop :=
  ∃ st : Status, w.word = st.word ∧ st.Settled ∧ (r = .Resume → ResumeFamily st)

theorem ResumeFamily.restored {st : Status} (h : ResumeFamily st) :
    ResumeFamily (st.restored .Resume) := by
  rcases h with rfl | rfl | rfl
  · exact .inr (.inr rfl)
  · exact .inr (.inl rfl)
  · exact .inr (.inr rfl)

/-- A recipe that is not admitted there is the one that is READY. -/
theorem eq_ready_of_not_admits {r : KuserRecipe} {st : Status} (hst : st.Settled)
    (hfam : r = .Resume → ResumeFamily st) (h : ¬st.Admits r) : st = .ready r := by
  cases st with
  | unapplied => exact absurd trivial h
  | applying r' => exact hst.elim
  | ready r' =>
    by_contra hne
    have hr : r' ≠ r := fun hr => hne (by rw [hr])
    have hres : r = .Resume := by
      by_contra hres
      exact h ⟨hr, hres⟩
    rcases hfam hres with h' | h' | h'
    · cases h'
    · exact hr ((Status.ready.inj h').trans hres.symm)
    · cases h'
  | failed r' =>
    exfalso
    have hres : r = .Resume := by
      by_contra hres
      exact h (.inr hres)
    rcases hfam hres with h' | h' | h'
    · cases h'
    · cases h'
    · exact h (.inl ((Status.failed.inj h').trans hres.symm))

/-- Where the request follows the convention, the patch does not conflict and the word stays
admissible. -/
theorem guarded_patch_admissible (setup : Setup) (env : Answers) {r : KuserRecipe} {w : World}
    (h : AdmissibleFor r w) :
    (Kuser.guarded_patch setup r env w).1 ≠ some (.error .Conflict) ∧
      AdmissibleFor r (Kuser.guarded_patch setup r env w).2 := by
  have hw := h
  obtain ⟨st, hm, hst, hfam⟩ := h
  have hrestored : AdmissibleFor r ⟨(st.restored r).word, w.shared⟩ :=
    ⟨_, rfl, Status.restored_settled hst r, fun hres => by
      rw [hres]
      exact (hfam hres).restored⟩
  rcases Kuser.guarded_patch_cases setup r env w hm hst with heq | ⟨hnot, heq⟩ | ⟨-, -, heq⟩
  · rw [heq]
    exact ⟨by simp, hw⟩
  · rw [heq, if_pos (eq_ready_of_not_admits hst hfam hnot)]
    exact ⟨by simp, hw⟩
  · rw [heq]
    by_cases hwr : env.writes setup = true
    · by_cases hro : env.restore_read_only = true
      · simp only [if_pos hwr, if_pos hro]
        exact ⟨by simp, .ready r, rfl, trivial, fun hres => by rw [hres]; exact .inr (.inl rfl)⟩
      · simp only [if_pos hwr, if_neg hro]
        exact ⟨by simp, hrestored⟩
    · simp only [if_neg hwr]
      exact ⟨by simp, hrestored⟩

/-- The host calls of a leaf that patches only `r`. -/
theorem perform_admissible (setup : Setup) (env : Answers) {r : KuserRecipe}
    (calls : List HostCall) : ∀ {rt : Runtime}, (∀ r', .patch_kuser r' ∈ calls → r' = r) →
    AdmissibleFor r rt.world →
    AdmissibleFor r (rt.perform setup env calls).1.world ∧
      .error .Conflict ∉ (rt.perform setup env calls).2 := by
  induction calls with
  | nil => exact fun _ h => ⟨h, by simp [perform]⟩
  | cons call calls ih =>
    intro rt hall h
    have hone : AdmissibleFor r (rt.perform_one setup env call).1.world ∧
        .error .Conflict ∉ (rt.perform_one setup env call).2 := by
      cases call with
      | patch_kuser r' =>
        obtain rfl := hall r' List.mem_cons_self
        obtain ⟨hne, hadm⟩ := guarded_patch_admissible setup env h
        refine ⟨hadm, fun hmem => hne ?_⟩
        exact Option.mem_toList.mp hmem
      | _ => exact ⟨h, by simp [perform_one]⟩
    obtain ⟨hadm, hres⟩ := ih (fun r' hr' => hall r' (List.mem_cons_of_mem _ hr')) hone.1
    refine ⟨hadm, fun hmem => ?_⟩
    rcases List.mem_append.mp hmem with hmem | hmem
    · exact hone.2 hmem
    · exact hres hmem

/-! ## Every run -/

/-- The word is settled, and of Resume as long as Resume can be asked for. -/
def Admissible (rt : Runtime) : Prop :=
  ∃ st : Status, rt.world.word = st.word ∧ st.Settled ∧
    (rt.state.syscall_convention = .ResumeReplay → ResumeFamily st)

theorem step_admissible (setup : Setup) {rt : Runtime} (h : rt.Admissible) (e : RuntimeEvent) :
    (rt.step setup e).1.Admissible ∧ .error .Conflict ∉ (rt.step setup e).2 := by
  cases e with
  | select_legacy_presentation => exact ⟨h, by simp [step]⟩
  | configure_host vendor avx => exact ⟨h, by simp [step]⟩
  | leaf leaf rcx rdx env =>
    obtain ⟨st, hm, hst, hfam⟩ := h
    have hfor : AdmissibleFor rt.recipe rt.world :=
      ⟨st, hm, hst, fun hres => hfam ((recipe_eq_resume_iff rt).mp hres)⟩
    obtain ⟨⟨st', hm', hst', hfam'⟩, hres⟩ := perform_admissible setup env
      (rt.state.handle_cpuid leaf rcx rdx (rt.host setup env)).2.2
      (fun r' hr' => patch_kuser_mem hr') hfor
    refine ⟨⟨st', hm', hst', fun hconv => ?_⟩, hres⟩
    exact hfam' ((recipe_eq_resume_iff rt).mpr (convention_kept hconv))

/-- **The recipes `State` asks for are always admissible.** In every sequence of control leaves
and changes of the CPU identity, whatever the applies do, no patch returns a conflict. -/
theorem no_patch_conflict (setup : Setup) (page : Kuser.Page) (events : List RuntimeEvent) :
    .error .Conflict ∉ ((Runtime.new page).run setup events).2 := by
  have hrun : ∀ (es : List RuntimeEvent) (rt : Runtime), rt.Admissible →
      .error .Conflict ∉ (rt.run setup es).2 := by
    intro es
    induction es with
    | nil => exact fun _ _ => by simp [run]
    | cons e es ih =>
      intro rt h
      obtain ⟨hadm, hres⟩ := step_admissible setup h e
      intro hmem
      rcases List.mem_append.mp hmem with hmem | hmem
      · exact hres hmem
      · exact ih _ hadm hmem
  exact hrun events _ ⟨.unapplied, rfl, trivial, fun _ => .inl rfl⟩

end Runtime

end Linuwux.Reflex
