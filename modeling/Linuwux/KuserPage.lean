/-
`KuserPage.lean` -- the KUSER_SHARED_DATA page behind the patch word.

`runtime/src/kuser.rs` owns the page: `patch_kuser_shared_data_recipe` takes the page
guard and lets `PatchState::patch` decide whether `apply_recipe_to_shared_page` runs,
which makes the page writable, writes the recipe byte by byte and makes it read-only
again. Every one of these steps can fail, and the arbiter only learns that the apply
as a whole has: it puts the word back that it found. Whether that word still says what
is on the page depends on where the apply failed.

Offsets are those of the page at `ADDRESS`. The answers of the system and of the code
around (`PageGuard::acquire`, the check for Wine's mapping, each `mprotect`, the
dispatcher bridge) are inputs of a call; what `linuwux_setup_kuser` stored once is a
[`Setup`].
-/
import Linuwux.PatchState
import Mathlib.Data.List.Infix

set_option autoImplicit false

namespace Linuwux.Kuser

/-! ## Recipes as byte writes -/

def PAGE_SIZE : ℕ := 4096

/-- `KUSER_SHARED_DATA.SystemCall`. -/
def SYSTEM_CALL_OFFSET : ℕ := 0x308

/-- An entry of the tables: offset, size and value. -/
abbrev Op := ℕ × ℕ × UInt64

def RESUME_OPS : List Op := [
  (0x260, 8, 0x0000000100006658),
  (0x268, 4, 0x00090001),
  (0x26c, 4, 0x0000000a),
  (0x270, 4, 0),
  (0x274, 4, 0x01010000),
  (0x278, 4, 0x00010000),
  (0x27c, 4, 0x00010101),
  (0x280, 4, 0x00010101),
  (0x284, 4, 0x00000100),
  (0x288, 4, 0x01010101),
  (0x28c, 4, 0),
  (0x290, 4, 1),
  (0x294, 4, 0x01000101),
  (0x298, 4, 0x01010101),
  (0x29c, 4, 0x00010001),
  (0x2a0, 4, 0),
  (0x2a4, 4, 0),
  (0x2a8, 4, 0),
  (0x2ac, 4, 0),
  (0x2b0, 4, 1),
  (0x3d8, 8, 0),
  (0x3e0, 8, 0),
  (0x3ec, 4, 0),
  (0x5f0, 8, 0),
  (0x5f8, 8, 0),
  (0x808, 8, 0),
  (0x810, 8, 0),
  (0x2d0, 8, 0x00320A0000000110),
  (0x2e8, 8, 0x00000100007FB10B),
  (0x2f4, 4, 0),
  (0x36c, 8, 0),
  (0x374, 8, 0),
  (0x37c, 4, 1),
  (0x3c0, 8, 0x0083000100000010),
  (0xffc, 4, 0x13371337)]

def DISPATCH_OPS : List Op := [
  (0x26e, 8, 0),
  (0x283, 8, 0x0101010000010000),
  (0x288, 8, 0x0000000001010101),
  (0x268, 8, 0x0000000A00090001),
  (0x261, 8, 0x0100000001000066),
  (0x272, 8, 0x0000010100000000),
  (0x3c0, 4, 0x10),
  (0x260, 8, 0x0000000100006658),
  (0x282, 8, 0x0101000001000001),
  (0x2d0, 4, 0x0110),
  (0x2e8, 4, 0x007FB10B),
  (0x378, 4, 0),
  (0x2e8, 8, 0x00000100007FB10B),
  (0x273, 8, 0x0100000101000000),
  (0x2d0, 8, 0x00320A0000000110),
  (0x000, 8, 0x0FA0000000000000),
  (0x378, 8, 0x0000000100000000),
  (0x3c0, 8, 0x0083000100000010),
  (0x26c, 8, 0x000000000000000A),
  (0x2f4, 4, 0),
  (0x264, 4, 1),
  (0x270, 4, 0),
  (0x281, 8, 0x0100000100000101)]

def SELECTOR_OPS : List Op := [
  (0x2d6, 4, 0x00010034),
  (0x2e8, 4, 0x00bf9c8f),
  (0x3c0, 4, 0x00000010),
  (0x288, 4, 0x01010101),
  (0x268, 4, 0x00090001),
  (0x2f4, 4, 0),
  (0x264, 4, 1),
  (0x2d0, 4, 0x00000310),
  (0x260, 4, 0x00006658),
  (0x26c, 4, 0x0000000a),
  (0x270, 4, 0)]

/-- `b"C:\\Windows\0"`. -/
def WINDOWS : List UInt8 := [0x43, 0x3a, 0x5c, 0x57, 0x69, 0x6e, 0x64, 0x6f, 0x77, 0x73, 0]

/-- `value.to_le_bytes()[..size]` written from `offset` on. -/
def op_writes : Op → List (ℕ × UInt8)
  | (offset, size, value) =>
    (List.range size).map fun index =>
      (offset + index, (value >>> (8 * index).toUInt64).toUInt8)

/-- A zero at each offset. -/
def zeros (offsets : List ℕ) : List (ℕ × UInt8) := offsets.map fun offset => (offset, 0)

/-- The writes of `Recipe::visit_writes`, in order. -/
def Recipe.visit_writes (recipe : Recipe) (avx_enabled : Bool) : List (ℕ × UInt8) :=
  match recipe with
  | .Dispatch => DISPATCH_OPS.flatMap op_writes
  | .Selector => SELECTOR_OPS.flatMap op_writes
  | .Resume =>
    (WINDOWS.zipIdx.flatMap fun (byte, index) =>
        [(0x30 + index * 2, byte), (0x31 + index * 2, 0)])
      ++ zeros (List.range' 0x46 (0x134 - 0x46))
      ++ RESUME_OPS.flatMap op_writes
      ++ zeros [0x290, 0x294, 0x295, 0x297]
      ++ (if avx_enabled then [] else zeros [0x285, 0x29b, 0x29c])
      ++ zeros (List.range' 0x3f0 (0x5f0 - 0x3f0) ++ List.range' 0x604 (0x804 - 0x604))

/-- The bytes of the page, by offset. -/
abbrev Page := ℕ → UInt8

def write (page : Page) (w : ℕ × UInt8) : Page := Function.update page w.1 w.2

/-- No recipe writes outside the page. -/
theorem visit_writes_in_page (recipe : Recipe) (avx_enabled : Bool) :
    ∀ w ∈ Recipe.visit_writes recipe avx_enabled, w.1 < PAGE_SIZE := by
  cases recipe <;> cases avx_enabled <;> decide +kernel

/-! ## The apply -/

/-- What `linuwux_setup_kuser` and the environment fixed before the first call. -/
structure Setup where
  page_geometry_supported : Bool
  avx_enabled : Bool
  syscall_hack_enabled : Bool
  deriving DecidableEq, Repr

/-- The answers during one call, `true` for success. -/
structure Answers where
  guard : Bool
  shared_page_available : Bool
  mprotect_write : Bool
  mprotect_read : Bool × Bool
  dispatcher_bridge : Bool
  deriving DecidableEq, Repr

/-- The page, and the recipes whose writes have reached it, oldest first. The second is what the
source does not keep. -/
structure Shared where
  page : Page
  passes : List Recipe

/-- Two tries. -/
def Answers.restore_read_only (env : Answers) : Bool := env.mprotect_read.1 || env.mprotect_read.2

/-- `kuser_apply_to_buffer`; a null page is `none`, and so is the answer -1. -/
def kuser_apply_to_buffer (page : Option Page) (length : ℕ) (recipe : Int32)
    (avx_enabled : Bool) : Option Page :=
  match page with
  | none => none
  | some page =>
    if length < PAGE_SIZE then none
    else
      match Recipe.from_raw recipe with
      | none => none
      | some recipe => some ((Recipe.visit_writes recipe avx_enabled).foldl write page)

/-- `apply_recipe_to_shared_page`. -/
def apply_recipe_to_shared_page (setup : Setup) (env : Answers) (recipe : Recipe) (s : Shared) :
    Bool × Shared :=
  if !setup.page_geometry_supported then (false, s)
  else if !env.shared_page_available then (false, s)
  else if !env.mprotect_write then (false, s)
  else
    let applied := kuser_apply_to_buffer (some s.page) PAGE_SIZE (Recipe.raw recipe)
      setup.avx_enabled
    let page := applied.getD s.page
    let page := if setup.syscall_hack_enabled then write page (SYSTEM_CALL_OFFSET, 0) else page
    -- The writes stay when the page cannot be made read-only again.
    if !env.restore_read_only then (false, ⟨page, s.passes ++ [recipe]⟩)
    else (applied.isSome, ⟨page, s.passes ++ [recipe]⟩)

/-! ## The call -/

structure World where
  word : UInt32
  shared : Shared

def World.new (page : Page) : World := ⟨PATCH_UNAPPLIED, ⟨page, []⟩⟩

/-- `patch_kuser_shared_data_recipe` from the guard to its drop; no result when the guard is
refused. -/
def guarded_patch (setup : Setup) (recipe : Recipe) (env : Answers) (w : World) :
    Option PatchResult × World :=
  if !env.guard then (none, w)
  else
    let (result, word, shared) :=
      patch recipe (apply_recipe_to_shared_page setup env recipe) w.word w.shared
    (some result, ⟨word, shared⟩)

/-- `patch_kuser_shared_data_recipe`. -/
def patch_kuser_shared_data_recipe (setup : Setup) (recipe : Int32) (env : Answers) (w : World) :
    Int32 × World :=
  match Recipe.from_raw recipe with
  | none => (-1, w)
  | some recipe =>
    match guarded_patch setup recipe env w with
    | (none, w') => (-1, w')
    | (some (.ok ()), w') => (if env.dispatcher_bridge then 0 else -1, w')
    | (some (.error _), w') => (-1, w')

/-- The calls of a process, one after the other. -/
def World.run (setup : Setup) (w : World) (calls : List (Int32 × Answers)) : World :=
  calls.foldl (fun w call => (patch_kuser_shared_data_recipe setup call.1 call.2 w).2) w

/-! ## What a call does -/

/-- What an apply that gets as far as the writes leaves of the page. -/
def pass (setup : Setup) (page : Page) (recipe : Recipe) : Page :=
  let page := (Recipe.visit_writes recipe setup.avx_enabled).foldl write page
  if setup.syscall_hack_enabled then write page (SYSTEM_CALL_OFFSET, 0) else page

/-- The apply gets as far as the writes. -/
def Answers.writes (setup : Setup) (env : Answers) : Bool :=
  setup.page_geometry_supported && env.shared_page_available && env.mprotect_write

/-- The apply writes and makes the page read-only again, writes and does not, or does not
write. -/
theorem apply_recipe_eq (setup : Setup) (env : Answers) (recipe : Recipe) (s : Shared) :
    apply_recipe_to_shared_page setup env recipe s =
      if env.writes setup then
        (env.restore_read_only, ⟨pass setup s.page recipe, s.passes ++ [recipe]⟩)
      else (false, s) := by
  unfold apply_recipe_to_shared_page Answers.writes pass kuser_apply_to_buffer
  rw [Recipe.from_raw_raw]
  cases setup.page_geometry_supported <;> cases env.shared_page_available <;>
    cases env.mprotect_write <;> cases env.restore_read_only <;> rfl

/-- The guarded part of a call: the guard is refused, the recipe is not admitted, or it is and the
apply gets somewhere. -/
theorem guarded_patch_cases (setup : Setup) (r : Recipe) (env : Answers) (w : World) {st : Status}
    (hm : w.word = st.word) (hst : st.Settled) :
    guarded_patch setup r env w = (none, w) ∨
    (¬st.Admits r ∧ guarded_patch setup r env w =
      (some (if st = .ready r then .ok () else .error .Conflict), w)) ∨
    (env.guard = true ∧ st.Admits r ∧ guarded_patch setup r env w =
      if env.writes setup then
        (some (if env.restore_read_only then .ok () else .error .ApplyFailed),
          ⟨if env.restore_read_only then (Status.ready r).word else (st.restored r).word,
            ⟨pass setup w.shared.page r, w.shared.passes ++ [r]⟩⟩)
      else (some (.error .ApplyFailed), ⟨(st.restored r).word, w.shared⟩)) := by
  obtain ⟨word, shared⟩ := w
  subst hm
  unfold guarded_patch
  cases hg : env.guard with
  | false => exact .inl rfl
  | true =>
    right
    by_cases had : st.Admits r
    · refine .inr ⟨rfl, had, ?_⟩
      simp only [Bool.not_true, Bool.false_eq_true, if_false, patch_of_admits had, apply_recipe_eq]
      cases env.writes setup <;> cases env.restore_read_only <;> rfl
    · refine .inl ⟨had, ?_⟩
      simp only [Bool.not_true, Bool.false_eq_true, if_false, patch_of_not_admits hst had]

/-- What a call leaves is what its guarded part leaves. -/
theorem patch_kuser_world {setup : Setup} {raw : Int32} {r : Recipe}
    (hraw : Recipe.from_raw raw = some r) (env : Answers) (w : World) :
    (patch_kuser_shared_data_recipe setup raw env w).2 = (guarded_patch setup r env w).2 := by
  unfold patch_kuser_shared_data_recipe
  rw [hraw]
  simp only
  split <;> simp_all

/-- **What a call can do** to a settled word and the page. -/
theorem call_cases (setup : Setup) (call : Int32 × Answers) (w : World) {st : Status}
    (hm : w.word = st.word) (hst : st.Settled) :
    (patch_kuser_shared_data_recipe setup call.1 call.2 w).2 = w ∨
    ∃ r, Recipe.from_raw call.1 = some r ∧ call.2.guard = true ∧ st.Admits r ∧
      (patch_kuser_shared_data_recipe setup call.1 call.2 w).2 =
        if call.2.writes setup then
          ⟨if call.2.restore_read_only then (Status.ready r).word else (st.restored r).word,
            ⟨pass setup w.shared.page r, w.shared.passes ++ [r]⟩⟩
        else ⟨(st.restored r).word, w.shared⟩ := by
  cases hraw : Recipe.from_raw call.1 with
  | none =>
    refine .inl ?_
    unfold patch_kuser_shared_data_recipe
    rw [hraw]
  | some r =>
    rw [patch_kuser_world hraw]
    rcases guarded_patch_cases setup r call.2 w hm hst with heq | ⟨-, heq⟩ | ⟨hg, had, heq⟩
    · exact .inl (by rw [heq])
    · exact .inl (by rw [heq])
    · refine .inr ⟨r, rfl, hg, had, ?_⟩
      rw [heq]
      split <;> rfl

/-! ## The word and the page -/

/-- The page after the passes of some recipes. -/
def replay (setup : Setup) (page : Page) (recipes : List Recipe) : Page :=
  recipes.foldl (pass setup) page

/-- **The arbiter agrees with the page**: where the word says READY, the writes of that recipe
are the last that reached the page. -/
def Agrees (setup : Setup) (page : Page) (w : World) : Prop :=
  ∀ r, w.word = ready_state r → ∃ earlier, w.shared.passes = earlier ++ [r] ∧
    w.shared.page = pass setup (replay setup page earlier) r

/-- A call of another recipe finds READY, is let through to the writes, and both tries to make
the page read-only again fail. -/
def LosesTrack (setup : Setup) (word : UInt32) (call : Int32 × Answers) : Prop :=
  ∃ r r', Recipe.from_raw call.1 = some r ∧ word = ready_state r' ∧ r' ≠ r ∧ r ≠ .Resume ∧
    call.2.guard = true ∧ call.2.writes setup = true ∧ call.2.restore_read_only = false

/-- What holds after every call: the word is settled and the page is what the passes left. -/
structure PageInv (setup : Setup) (page : Page) (w : World) : Prop where
  settled : ∃ st : Status, w.word = st.word ∧ st.Settled
  page_eq : w.shared.page = replay setup page w.shared.passes

theorem pageInv_call {setup : Setup} {page : Page} {w : World} (hi : PageInv setup page w)
    (call : Int32 × Answers) :
    PageInv setup page (patch_kuser_shared_data_recipe setup call.1 call.2 w).2 := by
  obtain ⟨st, hm, hst⟩ := hi.settled
  rcases call_cases setup call w hm hst with heq | ⟨r, -, -, -, heq⟩
  · rw [heq]
    exact hi
  · rw [heq]
    split
    · refine ⟨?_, ?_⟩
      · split
        · exact ⟨.ready r, rfl, trivial⟩
        · exact ⟨_, rfl, Status.restored_settled hst r⟩
      · rw [replay, List.foldl_append, hi.page_eq]
        rfl
    · exact ⟨⟨_, rfl, Status.restored_settled hst r⟩, hi.page_eq⟩

theorem World.run_concat (setup : Setup) (w : World) (calls : List (Int32 × Answers))
    (call : Int32 × Answers) : w.run setup (calls ++ [call]) =
      (patch_kuser_shared_data_recipe setup call.1 call.2 (w.run setup calls)).2 := by
  simp [World.run, List.foldl_append]

theorem pageInv_run (setup : Setup) (page : Page) (calls : List (Int32 × Answers)) :
    PageInv setup page ((World.new page).run setup calls) := by
  induction calls using List.reverseRecOn with
  | nil => exact ⟨⟨.unapplied, rfl, trivial⟩, rfl⟩
  | append_singleton calls call ih =>
    rw [World.run_concat]
    exact pageInv_call ih call

/-- A call that does not lose track keeps the word and the page together. -/
theorem agrees_call {setup : Setup} {page : Page} {w : World} (hi : PageInv setup page w)
    (ha : Agrees setup page w) {call : Int32 × Answers}
    (hno : ¬LosesTrack setup w.word call) :
    Agrees setup page (patch_kuser_shared_data_recipe setup call.1 call.2 w).2 := by
  obtain ⟨st, hm, hst⟩ := hi.settled
  rcases call_cases setup call w hm hst with heq | ⟨r, hraw, hg, had, heq⟩
  · rw [heq]
    exact ha
  · rw [heq]
    by_cases hwr : call.2.writes setup = true
    · rw [if_pos hwr]
      by_cases hro : call.2.restore_read_only = true
      · rw [if_pos hro]
        intro r₀ hr₀
        obtain rfl := Status.ready.inj (Status.word_injective hr₀ : _ = Status.ready r₀)
        exact ⟨w.shared.passes, rfl, by rw [hi.page_eq]⟩
      · rw [if_neg hro]
        intro r₀ hr₀
        -- The word the failed apply restores is READY of another recipe: the excluded call.
        have hst₀ := Status.restored_eq_ready (Status.word_injective hr₀ : _ = Status.ready r₀)
        subst hst₀
        exact absurd ⟨r, r₀, hraw, hm, had.1, had.2, hg, hwr, Bool.not_eq_true _ ▸ hro⟩ hno
    · rw [if_neg hwr]
      intro r₀ hr₀
      have hst₀ := Status.restored_eq_ready (Status.word_injective hr₀ : _ = Status.ready r₀)
      rw [hst₀] at hm
      exact ha r₀ hm

/-- A call that loses track leaves READY of one recipe over the writes of another. -/
theorem not_agrees_of_losesTrack {setup : Setup} (page : Page) {w : World}
    {call : Int32 × Answers} (h : LosesTrack setup w.word call) :
    ¬Agrees setup page (patch_kuser_shared_data_recipe setup call.1 call.2 w).2 := by
  obtain ⟨r, r', hraw, hm, hne, hres, hg, hwr, hro⟩ := h
  have heq : (patch_kuser_shared_data_recipe setup call.1 call.2 w).2
      = ⟨ready_state r', ⟨pass setup w.shared.page r, w.shared.passes ++ [r]⟩⟩ := by
    have had : (Status.ready r').Admits r := ⟨hne, hres⟩
    rw [patch_kuser_world hraw, guarded_patch, hg, hm]
    simp only [Bool.not_true, Bool.false_eq_true, if_false]
    rw [show ready_state r' = (Status.ready r').word from rfl, patch_of_admits had,
      apply_recipe_eq, hwr, if_pos rfl, hro]
    rfl
  rw [heq]
  intro ha
  obtain ⟨earlier, hp, -⟩ := ha r' rfl
  exact hne (List.concat_inj.mp (by simpa using hp)).2.symm

/-- **When the arbiter agrees with the page.** It does after every call of a sequence exactly
when none of them loses track. -/
theorem agrees_iff_keeps_track (setup : Setup) (page : Page) (calls : List (Int32 × Answers)) :
    (∀ pre, pre <+: calls → Agrees setup page ((World.new page).run setup pre)) ↔
      ∀ pre call, pre ++ [call] <+: calls →
        ¬LosesTrack setup ((World.new page).run setup pre).word call := by
  constructor
  · intro ha pre call hpre hloses
    refine not_agrees_of_losesTrack page hloses ?_
    rw [← World.run_concat]
    exact ha _ hpre
  · intro hno pre hpre
    induction pre using List.reverseRecOn with
    | nil =>
      intro r hr
      cases r <;> cases hr
    | append_singleton pre call ih =>
      rw [World.run_concat]
      exact agrees_call (pageInv_run setup page pre)
        (ih ((List.prefix_append _ _).trans hpre)) (hno pre call hpre)

/-- Resume is applied; then a Dispatch apply writes and cannot make the page read-only again. -/
def stuck_calls : List (Int32 × Answers) :=
  [(0, ⟨true, true, true, (true, true), true⟩), (2, ⟨true, true, true, (false, false), true⟩)]

/-- The call for Dispatch answers -1 and the word still says that Resume is READY, over the eight
bytes only Dispatch writes. -/
theorem stuck_calls_lose_track :
    (patch_kuser_shared_data_recipe ⟨true, true, false⟩ 2 ⟨true, true, true, (false, false), true⟩
        ((World.new fun _ => 0).run ⟨true, true, false⟩ (stuck_calls.take 1))).1 = -1 ∧
      ((World.new fun _ => 0).run ⟨true, true, false⟩ stuck_calls).word = PATCH_RESUME_READY ∧
      ((World.new fun _ => 0).run ⟨true, true, false⟩ stuck_calls).shared.page 7 = 0x0f ∧
      pass ⟨true, true, false⟩ (fun _ => 0) .Resume 7 = 0 ∧
      ¬Agrees ⟨true, true, false⟩ (fun _ => 0)
        ((World.new fun _ => 0).run ⟨true, true, false⟩ stuck_calls) := by
  refine ⟨rfl, rfl, by decide +kernel, by decide +kernel, fun ha => ?_⟩
  obtain ⟨earlier, hp, -⟩ := ha .Resume rfl
  have hp' : [Reflex.KuserRecipe.Resume, .Dispatch] = earlier ++ [.Resume] := hp
  have := congrArg List.getLast? hp'
  simp at this

end Linuwux.Kuser
