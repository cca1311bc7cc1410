/-
`Footprints.lean` -- what a reading of memory depends on.

A program that walks through headers and tables reads a few bytes of a memory that others go on
writing to. [`Settled`] says that a set of places is all that a reading depends on, as the memory
is: whoever leaves these places alone cannot change what is read. The rules build a reading's
places from those of its parts, so that a part only has to be looked at where the values that were
read before lead to it.
-/
import Mathlib.Data.Set.Function

set_option autoImplicit false

namespace Linuwux.Footprints

variable {α β γ δ : Type*} {K : Set α} {m : α → β}

/-- In every memory that is as this one on `K`, `f` reads what it reads here. -/
def Settled (K : Set α) (m : α → β) (f : (α → β) → γ) : Prop :=
  ∀ m', Set.EqOn m' m K → f m' = f m

theorem settled_const (c : γ) : Settled K m fun _ => c := fun _ _ => rfl

theorem Settled.map {f : (α → β) → γ} (h : Settled K m f) (g : γ → δ) :
    Settled K m fun m => g (f m) := fun m' hm' => congrArg g (h m' hm')

/-- A reading that goes on from what another has read. -/
theorem Settled.bind {f : (α → β) → Option γ} {g : γ → (α → β) → Option δ} (hf : Settled K m f)
    (hg : ∀ c, f m = some c → Settled K m (g c)) :
    Settled K m fun m => (f m).bind fun c => g c m := fun m' hm' => by
  change (f m').bind (fun c => g c m') = (f m).bind fun c => g c m
  rw [hf m' hm']
  cases hc : f m with
  | none => rfl
  | some c => exact hg c hc m' hm'

end Linuwux.Footprints
