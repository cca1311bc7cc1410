/-
`CpuIdentity.lean` -- the process-wide CPU identity of `protocol/cpuid.rs` and the
recipe it selects.

`ActiveCpuIdentity` is one `AtomicU32`: vendor in bits 0 and 1, AVX in bit 2, the
presentation in bit 3. `configure_host` replaces vendor and AVX and keeps the
presentation, `select_legacy_presentation` sets the presentation and keeps the rest, so
once Legacy is selected it stays. The functions here are the calls alone, without another
thread between the load and the compare-exchange.
-/
import Linuwux.PatchState

set_option autoImplicit false

namespace Linuwux.Cpuid

inductive Vendor where
  | Unknown
  | Intel
  | Amd
  deriving DecidableEq, Repr

inductive CpuPresentation where
  | Denuvo
  | Legacy
  deriving DecidableEq, Repr

structure CpuIdentity where
  vendor : Vendor
  avx_enabled : Bool
  presentation : CpuPresentation
  deriving DecidableEq, Repr

namespace CpuIdentity

def denuvo (vendor : Vendor) (avx_enabled : Bool) : CpuIdentity := ⟨vendor, avx_enabled, .Denuvo⟩

def with_presentation (identity : CpuIdentity) (presentation : CpuPresentation) : CpuIdentity :=
  { identity with presentation }

def encode (identity : CpuIdentity) : UInt32 :=
  let vendor : UInt32 :=
    match identity.vendor with
    | .Unknown => 0
    | .Intel => 1
    | .Amd => 2
  let avx_enabled : UInt32 := if identity.avx_enabled then 1 else 0
  let presentation : UInt32 :=
    match identity.presentation with
    | .Denuvo => 0
    | .Legacy => 1
  vendor ||| (avx_enabled <<< 2) ||| presentation <<< 3

def decode (raw : UInt32) : CpuIdentity where
  vendor := if raw &&& 3 = 1 then .Intel else if raw &&& 3 = 2 then .Amd else .Unknown
  avx_enabled := raw &&& ((1 : UInt32) <<< 2) != 0
  presentation := if raw &&& ((1 : UInt32) <<< 3) = 0 then .Denuvo else .Legacy

/-- The word holds the whole identity. -/
@[simp] theorem decode_encode (identity : CpuIdentity) : decode identity.encode = identity := by
  obtain ⟨vendor, avx, presentation⟩ := identity
  cases vendor <;> cases avx <;> cases presentation <;> rfl

end CpuIdentity

/-! ## `ActiveCpuIdentity` -/

/-- The word of `ActiveCpuIdentity::new`. -/
def ActiveCpuIdentity.new : UInt32 := (CpuIdentity.denuvo .Unknown false).encode

def configure_host (vendor : Vendor) (avx_enabled : Bool) (raw : UInt32) : UInt32 :=
  ((CpuIdentity.denuvo vendor avx_enabled).with_presentation
    (CpuIdentity.decode raw).presentation).encode

def select_legacy_presentation (raw : UInt32) : UInt32 :=
  ((CpuIdentity.decode raw).with_presentation .Legacy).encode

/-- Neither call takes Legacy back. -/
theorem legacy_is_kept {raw : UInt32} (h : (CpuIdentity.decode raw).presentation = .Legacy)
    (vendor : Vendor) (avx_enabled : Bool) :
    (CpuIdentity.decode (configure_host vendor avx_enabled raw)).presentation = .Legacy ∧
      (CpuIdentity.decode (select_legacy_presentation raw)).presentation = .Legacy := by
  unfold configure_host select_legacy_presentation
  rw [CpuIdentity.decode_encode, CpuIdentity.decode_encode]
  exact ⟨h, rfl⟩

/-- `cpuid_kuser_recipe` of `runtime/src/cpuid.rs`. -/
def cpuid_kuser_recipe (raw : UInt32) : Int32 :=
  match (CpuIdentity.decode raw).presentation, (CpuIdentity.decode raw).vendor with
  | .Legacy, .Intel => Kuser.Recipe.raw .Dispatch
  | .Legacy, .Amd | .Legacy, .Unknown => Kuser.Recipe.raw .Selector
  | .Denuvo, _ => Kuser.Recipe.raw .Resume

end Linuwux.Cpuid
