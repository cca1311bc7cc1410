/-
`CpuReplies.lean` -- the reply tables of `protocol/cpuid.rs` and the start-up of
`runtime/src/cpuid.rs` that selects among them.

An identity has a reply for six leaves and for no other: the feature word, the two hypervisor leaves
and the three parts of the brand string. What is said of the tables here is said of all of them at
once: no feature word has the hypervisor bit, whether AVX shows in it follows from the identity, and
the brand strings are terminated texts.
-/
import Linuwux.NativeCache

set_option autoImplicit false

namespace Linuwux.Cpuid

open NativeCache (Registers artifact_reply)

/-! ## Tables -/

def MODERN_BRAND : List UInt32 :=
  [0x756e6544, 0x4f774f76, 0x55504320, 0x31204020, 0x20373333, 0x007a4847, 0, 0, 0, 0, 0, 0]

def LEGACY_INTEL_BRAND : List UInt32 :=
  [0x65746e49, 0x2952286c, 0x726f4320, 0x4d542865, 0x39692029, 0x3930312d, 0x204b3030, 0x20555043,
    0x2e332040, 0x48473037, 0x0000007a, 0]

def LEGACY_AMD_BRAND : List UInt32 :=
  [0x20444d41, 0x657a7952, 0x2039206e, 0x30303935, 0x32312058, 0x726f432d, 0x72502065, 0x7365636f,
    0x20726f73, 0x20202020, 0x20202020, 0x00202020]

namespace CpuIdentity

def leaf1 (identity : CpuIdentity) : Registers :=
  match identity.presentation, identity.vendor, identity.avx_enabled with
  | .Denuvo, .Unknown, _ => .zero
  | .Denuvo, .Intel, false => ⟨0x000a0655, 0x00200800, 0x01faebff, 0xbfebfbff⟩
  | .Denuvo, .Intel, true | .Legacy, .Intel, _ =>
    ⟨0x000a0655, 0x00200800, 0x7bfafbff, 0xbfebfbff⟩
  | .Denuvo, .Amd, false => ⟨0x00a20f12, 0x00100800, 0x00f8220b, 0x178bfbff⟩
  | .Denuvo, .Amd, true => ⟨0x00a20f12, 0x00100800, 0x7ad8320b, 0x178bfbff⟩
  | .Legacy, .Amd, _ => ⟨0x00a20f10, 0x00180800, 0x7ad8320b, 0x178bfbff⟩
  | .Legacy, .Unknown, _ => ⟨0x00a20f10, 0x00180800, 0x7ad8320b, 0⟩

def brand (identity : CpuIdentity) : List UInt32 :=
  match identity.presentation, identity.vendor with
  | .Legacy, .Intel => LEGACY_INTEL_BRAND
  | .Legacy, .Amd | .Legacy, .Unknown => LEGACY_AMD_BRAND
  | .Denuvo, _ => MODERN_BRAND

def hypervisor (identity : CpuIdentity) : Registers :=
  match identity.vendor with
  | .Unknown => .zero
  | .Intel => ⟨0x40000001, 0x65707948, 0x67624472, 0⟩
  | .Amd => ⟨0x40000001, 0x706d6953, 0x7653656c, 0x2020206d⟩

def interface (identity : CpuIdentity) : Registers :=
  match identity.vendor with
  | .Unknown => .zero
  | .Intel | .Amd => ⟨0x30237648, 0, 0, 0⟩

def fixed_reply (identity : CpuIdentity) (leaf : UInt32) : Option Registers :=
  if leaf = 1 then some identity.leaf1
  else if leaf = 0x40000000 then some identity.hypervisor
  else if leaf = 0x40000001 then some identity.interface
  else if 0x80000002 ≤ leaf ∧ leaf ≤ 0x80000004 then
    let offset := ((leaf - 0x80000002) * 4).toNat
    let word (i : ℕ) : UInt32 := identity.brand.getD (offset + i) 0
    some ⟨word 0, word 1, word 2, word 3⟩
  else none

end CpuIdentity

/-! ## Who asks, and on what host -/

def is_identity_leaf (leaf : UInt32) : Bool :=
  leaf = 1 ∨ (0x40000000 ≤ leaf ∧ leaf ≤ 0x40000001) ∨ (0x80000002 ≤ leaf ∧ leaf ≤ 0x80000004)

def Vendor.from_leaf0 (registers : Registers) : Vendor :=
  if registers.ebx = 0x756e6547 ∧ registers.edx = 0x49656e69 ∧ registers.ecx = 0x6c65746e then
    .Intel
  else if registers.ebx = 0x68747541 ∧ registers.edx = 0x69746e65 ∧ registers.ecx = 0x444d4163 then
    .Amd
  else .Unknown

def proton_avx_enabled (value : Option (List UInt8)) : Bool := value == some [0x31]

def WINE_SYSTEM_RIP_MIN : UInt64 := 0x00006fffff000000

def WINE_SYSTEM_RIP_MAX : UInt64 := 0x0000700000000000

def is_wine_system_rip (address : UInt64) : Bool :=
  WINE_SYSTEM_RIP_MIN ≤ address ∧ address < WINE_SYSTEM_RIP_MAX

/-- `configure_identity`, where `forced` is `legacy_profile_forced`. -/
def configure_identity (vendor : Vendor) (avx_enabled forced : Bool) (raw : UInt32) : UInt32 :=
  let raw := configure_host vendor avx_enabled raw
  if forced then select_legacy_presentation raw else raw

/-- `detect_cpu_vendor`, from leaf 0 of the host, `PROTON_AVX` and the `LINUWUX_LEGACY_PROFILE`
flag. -/
def detect_cpu_vendor (leaf0 : Registers) (avx : Option (List UInt8)) (forced : Bool)
    (raw : UInt32) : UInt32 :=
  configure_identity (.from_leaf0 leaf0) (proton_avx_enabled avx) forced raw

/-! ## The tables as a whole -/

/-- The reply leaves are the identity leaves, whatever the identity is. -/
theorem fixed_reply_isSome (identity : CpuIdentity) (leaf : UInt32) :
    (identity.fixed_reply leaf).isSome = is_identity_leaf leaf := by
  unfold CpuIdentity.fixed_reply is_identity_leaf
  by_cases h1 : leaf = 1
  · simp [h1]
  · by_cases h2 : leaf = 0x40000000
    · simp [h2]
    · by_cases h3 : leaf = 0x40000001
      · simp [h3]
      · have hhyper : ¬(0x40000000 ≤ leaf ∧ leaf ≤ 0x40000001) := by
          rw [UInt32.le_iff_toNat_le, UInt32.le_iff_toNat_le]
          intro h
          have hne2 := fun heq => h2 (UInt32.toNat_inj.mp heq)
          have hne3 := fun heq => h3 (UInt32.toNat_inj.mp heq)
          change 0x40000000 ≤ _ ∧ _ ≤ 0x40000001 at h
          change leaf.toNat ≠ 0x40000000 at hne2
          change leaf.toNat ≠ 0x40000001 at hne3
          omega
        by_cases h4 : 0x80000002 ≤ leaf ∧ leaf ≤ 0x80000004
        · simp [h1, h2, h3, h4]
        · simp [h1, h2, h3, h4, hhyper]

/-- Bit 31 of ECX of leaf 1. -/
def HYPERVISOR_PRESENT : UInt32 := 0x80000000

/-- Bit 28 of ECX of leaf 1. -/
def AVX : UInt32 := 0x10000000

/-- AVX is shown by the old presentation, and by the new one on a known host that has it enabled; a
feature word never says that there is a hypervisor. -/
theorem leaf1_ecx (identity : CpuIdentity) :
    identity.leaf1.ecx &&& HYPERVISOR_PRESENT = 0
      ∧ (identity.leaf1.ecx &&& AVX ≠ 0 ↔ identity.presentation = .Legacy
        ∨ identity.vendor ≠ .Unknown ∧ identity.avx_enabled = true) := by
  obtain ⟨vendor, avx, presentation⟩ := identity
  cases vendor <;> cases avx <;> cases presentation <;> decide

/-- The artifact profile shows neither. -/
theorem artifact_leaf1_ecx {vendor : Vendor} {reply : Registers}
    (h : artifact_reply vendor 1 = some reply) :
    reply.ecx &&& HYPERVISOR_PRESENT = 0 ∧ reply.ecx &&& AVX = 0 := by
  cases vendor with
  | Unknown => cases h
  | Intel =>
    cases h
    decide
  | Amd =>
    cases h
    decide

/-- A brand string fills three leaves and ends in them. -/
theorem brand_terminated (identity : CpuIdentity) :
    identity.brand.length = 12 ∧ identity.brand.getLastD 0 &&& 0xff000000 = 0 := by
  obtain ⟨vendor, avx, presentation⟩ := identity
  cases vendor <;> cases avx <;> cases presentation <;> decide

/-- The artifact profile replies to identity leaves only. -/
theorem identity_of_artifact {vendor : Vendor} {leaf : UInt32}
    (h : (artifact_reply vendor leaf).isSome) : is_identity_leaf leaf = true := by
  unfold artifact_reply NativeCache.artifact_intel_reply NativeCache.artifact_amd_reply at h
  cases vendor with
  | Unknown => cases h
  | Intel | Amd =>
    dsimp only at h
    split_ifs at h with h1 h2 h3 h4
    · rw [h1]
      rfl
    · rw [h2]
      rfl
    · rw [h3]
      rfl
    · rw [h4]
      rfl
    · cases h

end Linuwux.Cpuid
