/-
`PatchState.lean` -- the arbiter of `protocol/kuser.rs`: which recipe may be written to
the shared page now.

`PatchState` is one `AtomicU32`. A call loads it, decides by four overlapping range
and set checks whether to return, wait or compare-exchange, and after its apply
stores the outcome. Here is the part of this that touches no memory: the ten words,
the decision one turn of the admission loop takes on the word it loaded
([`admission`]), what `recover_after_fork` makes of a word, and one whole call when
nothing else moves the word ([`patch`]).

The words are read as a [`Status`]: nothing applied, or one of three phases of one
recipe. The checks of the source are on the numbers, so [`admission`] is too;
[`admission_word`] is the same decision read off the status, and the rest of the
development uses only that.
-/
import Linuwux.ReflexState

set_option autoImplicit false

namespace Linuwux.Kuser

/-- `kuser::Recipe`, which `reflex/state.rs` re-exports as `KuserRecipe`. -/
abbrev Recipe := Reflex.KuserRecipe

/-- `Recipe::from_raw`. -/
def Recipe.from_raw (value : Int32) : Option Recipe :=
  if value = 0 then some .Resume
  else if value = 1 then some .Selector
  else if value = 2 then some .Dispatch
  else none

/-- `recipe as c_int`. -/
def Recipe.raw : Recipe → Int32
  | .Resume => 0
  | .Selector => 1
  | .Dispatch => 2

@[simp] theorem Recipe.from_raw_raw (r : Recipe) : Recipe.from_raw (Recipe.raw r) = some r := by
  cases r <;> rfl

inductive PatchError where
  | Conflict
  | ApplyFailed
  deriving DecidableEq, Repr

/-- `Result<(), PatchError>`. -/
abbrev PatchResult := Except PatchError Unit

/-! ## The words -/

def PATCH_UNAPPLIED : UInt32 := 0
def PATCH_RESUME_APPLYING : UInt32 := 1
def PATCH_RESUME_READY : UInt32 := 2
def PATCH_RESUME_FAILED : UInt32 := 3
def PATCH_DISPATCH_APPLYING : UInt32 := 4
def PATCH_DISPATCH_READY : UInt32 := 5
def PATCH_DISPATCH_FAILED : UInt32 := 6
def PATCH_SELECTOR_APPLYING : UInt32 := 7
def PATCH_SELECTOR_READY : UInt32 := 8
def PATCH_SELECTOR_FAILED : UInt32 := 9

def PATCH_WAIT_LIMIT : ℕ := 4096

def applying_state : Recipe → UInt32
  | .Resume => PATCH_RESUME_APPLYING
  | .Dispatch => PATCH_DISPATCH_APPLYING
  | .Selector => PATCH_SELECTOR_APPLYING

def ready_state : Recipe → UInt32
  | .Resume => PATCH_RESUME_READY
  | .Dispatch => PATCH_DISPATCH_READY
  | .Selector => PATCH_SELECTOR_READY

def failed_state : Recipe → UInt32
  | .Resume => PATCH_RESUME_FAILED
  | .Dispatch => PATCH_DISPATCH_FAILED
  | .Selector => PATCH_SELECTOR_FAILED

/-- `recover_after_fork`'s closure: an apply that was copied by a fork has failed. -/
def recovered (state : UInt32) : Option UInt32 :=
  if state = PATCH_RESUME_APPLYING then some PATCH_RESUME_FAILED
  else if state = PATCH_DISPATCH_APPLYING then some PATCH_DISPATCH_FAILED
  else if state = PATCH_SELECTOR_APPLYING then some PATCH_SELECTOR_FAILED
  else none

/-! ## One turn of the admission loop -/

/-- What a turn of the loop does with the word it loaded. -/
inductive Admission where
  | ret (result : PatchResult)
  | wait
  | exchange (completion_state : UInt32)

/-- A turn that has to wait gives up when it has waited `PATCH_WAIT_LIMIT` times. -/
def wait_or_conflict (waits : ℕ) : Admission :=
  if waits = PATCH_WAIT_LIMIT then .ret (.error .Conflict) else .wait

/-- The words of a settled apply, from which another recipe may take over. -/
def can_transition_from (current : UInt32) : Prop :=
  current = PATCH_RESUME_READY ∨ current = PATCH_RESUME_FAILED
    ∨ current = PATCH_DISPATCH_READY ∨ current = PATCH_DISPATCH_FAILED
    ∨ current = PATCH_SELECTOR_READY ∨ current = PATCH_SELECTOR_FAILED

instance (current : UInt32) : Decidable (can_transition_from current) :=
  inferInstanceAs (Decidable (_ ∨ _))

/-- `completion_state` after the third check: a word of another recipe is what a failed
apply has to restore. `none` is the conflict. -/
def carry (recipe : Recipe) (completion_state current : UInt32) : Option UInt32 :=
  if current ≠ PATCH_UNAPPLIED
      ∧ ¬(applying_state recipe ≤ current ∧ current ≤ failed_state recipe) then
    if recipe ≠ .Resume ∧ can_transition_from current then some current else none
  else some completion_state

/-- One turn of the loop of `PatchState::patch`, between its load and its
compare-exchange. -/
def admission (recipe : Recipe) (completion_state : UInt32) (waits : ℕ) (current : UInt32) :
    Admission :=
  if current = ready_state recipe then .ret (.ok ())
  else if (current = PATCH_DISPATCH_APPLYING ∨ current = PATCH_SELECTOR_APPLYING)
      ∧ current ≠ applying_state recipe then wait_or_conflict waits
  else
    match carry recipe completion_state current with
    | none => .ret (.error .Conflict)
    | some completion_state =>
      if current = applying_state recipe then wait_or_conflict waits
      else .exchange completion_state

/-! ## What a word says -/

/-- Nothing applied, or the phase of one recipe. -/
inductive Status where
  | unapplied
  | applying (recipe : Recipe)
  | ready (recipe : Recipe)
  | failed (recipe : Recipe)
  deriving DecidableEq, Repr

namespace Status

def word : Status → UInt32
  | .unapplied => PATCH_UNAPPLIED
  | .applying r => applying_state r
  | .ready r => ready_state r
  | .failed r => failed_state r

/-- The status a word stands for. -/
def of_word (w : UInt32) : Status :=
  if w = 1 then .applying .Resume else if w = 2 then .ready .Resume
  else if w = 3 then .failed .Resume else if w = 4 then .applying .Dispatch
  else if w = 5 then .ready .Dispatch else if w = 6 then .failed .Dispatch
  else if w = 7 then .applying .Selector else if w = 8 then .ready .Selector
  else if w = 9 then .failed .Selector else .unapplied

theorem of_word_word (st : Status) : of_word st.word = st := by
  rcases st with _ | r | r | r
  · rfl
  all_goals cases r <;> rfl

theorem word_injective : Function.Injective word :=
  Function.LeftInverse.injective of_word_word

@[simp] theorem word_inj {a b : Status} : a.word = b.word ↔ a = b := word_injective.eq_iff

/-- No apply is under way. -/
def Settled : Status → Prop
  | .applying _ => False
  | _ => True

instance : (st : Status) → Decidable st.Settled
  | .applying _ => isFalse id
  | .unapplied | .ready _ | .failed _ => isTrue trivial

/-- **The order in which settled words follow one another.** A failure is the first apply's
until some apply succeeds, and after a success the word is never a failure again. -/
def Precedes : Status → Status → Prop
  | .failed r, .failed r' => r = r'
  | .failed _, .ready _ => True
  | .ready _, .ready _ => True
  | _, _ => False

theorem Precedes.trans {a b c : Status} (hab : a.Precedes b) (hbc : b.Precedes c) :
    a.Precedes c := by
  rcases a with _ | _ | _ | r <;> rcases b with _ | _ | _ | r' <;> rcases c with _ | _ | _ | r''
  all_goals simp_all [Precedes]

end Status

/-! ## The decision, read off the status -/

/-- The admission of a recipe at each status. An apply of Resume makes another recipe conflict
at once, where an apply of Dispatch or Selector makes it wait. -/
theorem admission_word (recipe : Recipe) (completion_state : UInt32) (waits : ℕ) (st : Status) :
    admission recipe completion_state waits st.word =
      match st with
      | .unapplied => .exchange completion_state
      | .applying r =>
        if r = recipe ∨ r ≠ .Resume then wait_or_conflict waits else .ret (.error .Conflict)
      | .ready r =>
        if r = recipe then .ret (.ok ())
        else if recipe = .Resume then .ret (.error .Conflict)
        else .exchange st.word
      | .failed r =>
        if r = recipe then .exchange completion_state
        else if recipe = .Resume then .ret (.error .Conflict)
        else .exchange st.word := by
  rcases st with _ | r | r | r
  · cases recipe <;> rfl
  all_goals cases r <;> cases recipe <;> rfl

/-- A turn that waits would wait in any turn that finds the word there. -/
theorem admission_wait {recipe : Recipe} {c : UInt32} {n : ℕ} {st : Status}
    (h : admission recipe c n st.word = .wait) (c' : UInt32) (m : ℕ) :
    admission recipe c' m st.word = wait_or_conflict m := by
  rcases st with _ | r | r | r
  · cases recipe <;> cases h
  · cases recipe <;> cases r <;> first | rfl | cases h
  all_goals cases recipe <;> cases r <;> cases h

/-- A settled word is never waited for. -/
theorem admission_settled (recipe : Recipe) (c : UInt32) (n : ℕ) {st : Status} (hst : st.Settled) :
    (∃ result, admission recipe c n st.word = .ret result) ∨
      ∃ c', admission recipe c n st.word = .exchange c' ∧ (c' = c ∨ c' = st.word) := by
  rw [admission_word]
  cases st with
  | unapplied => exact .inr ⟨c, rfl, .inl rfl⟩
  | applying r => exact hst.elim
  | ready r =>
    by_cases hr : r = recipe
    · exact .inl ⟨.ok (), if_pos hr⟩
    · by_cases hres : recipe = .Resume
      · exact .inl ⟨.error .Conflict, (if_neg hr).trans (if_pos hres)⟩
      · exact .inr ⟨_, (if_neg hr).trans (if_neg hres), .inr rfl⟩
  | failed r =>
    by_cases hr : r = recipe
    · exact .inr ⟨c, if_pos hr, .inl rfl⟩
    · by_cases hres : recipe = .Resume
      · exact .inl ⟨.error .Conflict, (if_neg hr).trans (if_pos hres)⟩
      · exact .inr ⟨_, (if_neg hr).trans (if_neg hres), .inr rfl⟩

@[simp] theorem recovered_word (st : Status) :
    recovered st.word = match st with
      | .applying r => some (Status.failed r).word
      | _ => none := by
  rcases st with _ | r | r | r
  · rfl
  all_goals cases r <;> rfl

/-! ## What the applies that ran say -/

/-- The applies that ran, oldest first, each with what its closure returned. -/
abbrev Applies := List (Recipe × Bool)

/-- The recipe of the last apply that returned true. -/
def last_success (h : Applies) : Option Recipe := (h.filter Prod.snd).getLast?.map Prod.fst

/-- What the word says between applies: the last success, else the first failure. -/
def settled (h : Applies) : Status :=
  match last_success h with
  | some r => .ready r
  | none =>
    match h.head? with
    | some a => .failed a.1
    | none => .unapplied

/-- What a failed apply of `recipe` leaves of the status it started from. -/
def Status.restored (recipe : Recipe) : Status → Status
  | .unapplied => .failed recipe
  | st => st

@[simp] theorem settled_nil : settled [] = .unapplied := rfl

theorem last_success_concat (h : Applies) (r : Recipe) (ok : Bool) :
    last_success (h ++ [(r, ok)]) = if ok then some r else last_success h := by
  cases ok <;> simp [last_success, List.filter_append]

theorem settled_concat_true (h : Applies) (r : Recipe) : settled (h ++ [(r, true)]) = .ready r := by
  simp [settled, last_success_concat]

theorem settled_concat_false (h : Applies) (r : Recipe) :
    settled (h ++ [(r, false)]) = (settled h).restored r := by
  unfold settled
  rw [last_success_concat, if_neg Bool.false_ne_true]
  cases last_success h with
  | some r' => rfl
  | none => cases h <;> rfl

theorem settled_settled (h : Applies) : (settled h).Settled := by
  unfold settled
  repeat' split
  all_goals trivial

/-- The settled words of a history follow one another in order. -/
theorem settled_precedes_concat {h : Applies} (hne : settled h ≠ .unapplied) (a : Recipe × Bool) :
    (settled h).Precedes (settled (h ++ [a])) := by
  obtain ⟨r, ok⟩ := a
  have hst := settled_settled h
  cases ok with
  | true =>
    rw [settled_concat_true]
    rcases hs : settled h with _ | r' | r' | r' <;> simp_all [Status.Precedes, Status.Settled]
  | false =>
    rw [settled_concat_false]
    rcases hs : settled h with _ | r' | r' | r' <;>
      simp_all [Status.Precedes, Status.Settled, Status.restored]

theorem settled_precedes_self {h : Applies} (hne : settled h ≠ .unapplied) :
    (settled h).Precedes (settled h) := by
  have hst := settled_settled h
  rcases hs : settled h with _ | r' | r' | r' <;> simp_all [Status.Precedes, Status.Settled]

/-- `PatchState::patch` run alone: `apply` acts on whatever the caller patches. A word that
says APPLYING stays so through all the waits, and a spurious failure of the weak
compare-exchange takes the loop back to the same decision. -/
def patch {σ : Type*} (recipe : Recipe) (apply : σ → Bool × σ) (word : UInt32) (s : σ) :
    PatchResult × UInt32 × σ :=
  match admission recipe (failed_state recipe) 0 word with
  | .ret result => (result, word, s)
  | .wait => (.error .Conflict, word, s)
  | .exchange completion_state =>
    if (apply s).1 then (.ok (), ready_state recipe, (apply s).2)
    else (.error .ApplyFailed, completion_state, (apply s).2)

/-- A recipe is admitted: nothing was applied, its own apply failed, or it is Dispatch or Selector
and replaces another recipe. -/
def Status.Admits (recipe : Recipe) : Status → Prop
  | .unapplied => True
  | .applying _ => False
  | .ready r => r ≠ recipe ∧ recipe ≠ .Resume
  | .failed r => r = recipe ∨ recipe ≠ .Resume

/-- An admitted recipe is applied, and its failure restores the word it found. -/
theorem patch_of_admits {σ : Type*} {recipe : Recipe} {st : Status} (h : st.Admits recipe)
    (apply : σ → Bool × σ) (s : σ) : patch recipe apply st.word s =
      if (apply s).1 then (.ok (), (Status.ready recipe).word, (apply s).2)
      else (.error .ApplyFailed, (st.restored recipe).word, (apply s).2) := by
  have hturn : admission recipe (failed_state recipe) 0 st.word
      = .exchange (st.restored recipe).word := by
    rw [admission_word]
    cases st with
    | unapplied => rfl
    | applying r => exact h.elim
    | ready r =>
      simp only [if_neg h.1, if_neg h.2]
      rfl
    | failed r =>
      by_cases hr : r = recipe
      · simp only [if_pos hr]
        rw [← hr]
        rfl
      · simp only [if_neg hr, if_neg (h.resolve_left hr)]
        rfl
  unfold patch
  rw [hturn]
  rfl

/-- A recipe that is not admitted leaves the word and what is patched as they are. -/
theorem patch_of_not_admits {σ : Type*} {recipe : Recipe} {st : Status} (hst : st.Settled)
    (h : ¬st.Admits recipe) (apply : σ → Bool × σ) (s : σ) : patch recipe apply st.word s =
      (if st = .ready recipe then .ok () else .error .Conflict, st.word, s) := by
  unfold patch
  rw [admission_word]
  cases st with
  | unapplied => exact absurd trivial h
  | applying r => exact hst.elim
  | ready r =>
    by_cases hr : r = recipe
    · simp [hr]
    · have hres : recipe = .Resume := Decidable.byContradiction fun hne => h ⟨hr, hne⟩
      simp [hr, if_pos hres]
  | failed r =>
    have hr : r ≠ recipe := fun hr => h (.inl hr)
    have hres : recipe = .Resume := Decidable.byContradiction fun hne => h (.inr hne)
    simp [if_neg hr, if_pos hres]

theorem Status.restored_settled {st : Status} (hst : st.Settled) (recipe : Recipe) :
    (st.restored recipe).Settled := by
  cases st <;> trivial

theorem Status.restored_eq_ready {st : Status} {recipe r : Recipe}
    (h : st.restored recipe = .ready r) : st = .ready r := by
  cases st with
  | unapplied => cases h
  | _ => exact h

end Linuwux.Kuser
