/-
`CpuidHandler.lean` -- `cpuid_sigsegv_handler` of `runtime/src/cpuid.rs`.

Every CPUID of the process ends in one function, which decides who is asked: the host, the reply
tables, or Reflex. What it decides on changes as it runs (which profile was selected, what was
registered, which callers were seen), and here all of that is one state and a run is one fault after
the other. Of the caches that other threads use as well, `native_reply` is the one that is written
again here; alone it is the program of `NativeCache.lean` ([`native_reply_alone`]).

Three things follow for a run as a whole. Every fault is answered, resumed or forwarded as it came
([`faults_are_disposed`]). Reflex is asked about the control leaves and nothing else,
so what `RuntimeHost.lean` says of sequences of leaves holds of sequences of faults
([`handler_runs_are_runtime_runs`]). And the CPU that a game is shown only changes one way
([`identity_is_one_way`]).
-/
import Linuwux.ArtifactScan
import Linuwux.CpuReplies
import Linuwux.Int2eFault
import Linuwux.ReflexImage
import Linuwux.RuntimeHost

set_option autoImplicit false

namespace Linuwux.CpuidHandler

open Callers (CallerKind CallerCache)
open Cpuid (CpuIdentity is_identity_leaf is_wine_system_rip)
open Int2e (Gregs REG_RIP REG_TRAPNO Process skip_int2e_fault)
open NativeCache (Registers NATIVE_CACHE_CAP leaf_varies_per_core artifact_reply
  with_native_apic_id)
open ProcMem (read_memory)
open Reflex (Runtime RuntimeEvent)

/-! ## What a fault meets -/

/-- The kernel, the process and the core, as they are during one fault. -/
structure Surroundings where
  kernel : Int2e.Kernel
  process : Process
  /-- `maps::file_mapping_generation`. -/
  generation : UInt64
  /-- `clock::coarse_milliseconds`. -/
  now : UInt64
  cpuid : UInt32 → UInt32 → Registers
  /-- `arch_prctl` lets CPUID through. -/
  enables : Bool
  /-- `arch_prctl` traps it again. -/
  rearms : Bool
  answers : Kuser.Answers

/-- What the handler keeps between faults. -/
structure Shared where
  runtime : Runtime
  reflex64_presentation_selected : Bool
  artifact_profile_selected : Bool
  protocol_established : Bool
  callers : CallerCache
  natives : NativeCache.Mem
  artifact_scan_generation : UInt64
  artifact_scan_milliseconds : UInt64
  image : ReflexImage.Mem
  trampolines : Trampolines.Mem

def Shared.new (page : Kuser.Page) : Shared :=
  ⟨.new page, false, false, false, .new, .new, ArtifactScan.MAX, 0, .new, .new⟩

def Shared.identity (s : Shared) : CpuIdentity := .decode s.runtime.identity

/-! ## The host -/

def lookup (m : NativeCache.Mem) (leaf subleaf : UInt32) : Option Registers :=
  ((List.range (min m.len.toNat NATIVE_CACHE_CAP)).find? fun i =>
    m.keys i = NativeCache.key leaf subleaf).map fun i => ⟨m.eax i, m.ebx i, m.ecx i, m.edx i⟩

def insert (m : NativeCache.Mem) (leaf subleaf : UInt32) (regs : Registers) : NativeCache.Mem :=
  let len := m.len.toNat
  if len < NATIVE_CACHE_CAP then
    { m with
      keys := Function.update m.keys len (NativeCache.key leaf subleaf)
      eax := Function.update m.eax len regs.eax
      ebx := Function.update m.ebx len regs.ebx
      ecx := Function.update m.ecx len regs.ecx
      edx := Function.update m.edx len regs.edx
      len := .ofNat (len + 1) }
  else m

/-- `native_reply`. Where the trap cannot be set again the process ends, and the reply is of no
concern. -/
def native_reply (e : Surroundings) (m : NativeCache.Mem) (leaf subleaf : UInt32) :
    Registers × NativeCache.Mem :=
  let cacheable := !leaf_varies_per_core leaf
  match if cacheable then lookup m leaf subleaf else none with
  | some cached => (cached, m)
  | none =>
    if !e.enables then (.zero, m)
    else
      let result := e.cpuid leaf subleaf
      if !e.rearms then (result, { m with exited := true })
      else (result, if cacheable then insert m leaf subleaf result else m)

theorem insert_exited (m : NativeCache.Mem) (leaf subleaf : UInt32) (regs : Registers) :
    (insert m leaf subleaf regs).exited = m.exited := by
  unfold insert
  dsimp only
  split <;> rfl

/-- A CPUID ends the process only where the trap cannot be set again. -/
theorem native_reply_exited {e : Surroundings} {m : NativeCache.Mem} {leaf subleaf : UInt32}
    (h : (native_reply e m leaf subleaf).2.exited = true) : m.exited = true ∨ e.rearms = false := by
  unfold native_reply at h
  dsimp only at h
  split at h
  · exact Or.inl h
  · split at h
    · exact Or.inl h
    · split at h
      · rename_i hrearms
        rw [Bool.not_eq_true'] at hrearms
        exact Or.inr hrearms
      · dsimp only at h
        split at h
        · exact Or.inl ((insert_exited m _ _ _).symm.trans h)
        · exact Or.inl h

section Alone

variable {T Core : Type*} [DecidableEq T] (h : Core → UInt32 → UInt32 → Registers) (t : T)

open NativeCache (Choice Request Pc Loc program)

/-- The thread, alone, gives the reply and leaves this cache. -/
def Replies (a : Choice Core) (m : NativeCache.Mem) (l : Loc Core) (r : Request)
    (reply : Registers) (m' : NativeCache.Mem) : Prop :=
  ∃ ran, Threads.Completes (program T h) ⟨.idle, []⟩ t a m l [⟨r, reply, ran⟩] m'

variable {h t}
variable {a : Choice Core} {m : NativeCache.Mem} {r : Request} {regs : Registers}

theorem Replies.next {m₁ m' : NativeCache.Mem} {l l₁ : Loc Core} {reply : Registers}
    (hstep : program T h t a m l = ⟨m₁, l₁, []⟩) (hrest : Replies h t a m₁ l₁ r reply m') :
    Replies h t a m l r reply m' := by
  obtain ⟨ran, hrest⟩ := hrest
  exact ⟨ran, .next _ _ hstep hrest⟩

theorem Replies.reply (hrun : m.exited = false) (ran : List Core) :
    Replies h t a m ⟨.reply r regs, ran⟩ r (r.answer regs) m := by
  have hstep : program T h t a m ⟨.reply r regs, ran⟩
      = ⟨m, ⟨.idle, []⟩, [⟨r, r.answer regs, a.core :: ran⟩]⟩ := by
    unfold program
    rw [hrun, if_neg Bool.false_ne_true]
  exact ⟨_, .next _ _ hstep (.refl _ _ t a m)⟩

omit [DecidableEq T] in
/-- A step of a process that is there. -/
theorem program_step (hrun : m.exited = false) {pc : Pc} (ran : List Core)
    (hidle : pc ≠ .idle) (hreply : ∀ r regs, pc ≠ .reply r regs) :
    program T h t a m ⟨pc, ran⟩ = ⟨(NativeCache.advance h a m pc).1,
      ⟨(NativeCache.advance h a m pc).2, a.core :: ran⟩, []⟩ := by
  unfold program
  rw [hrun, if_neg Bool.false_ne_true]
  cases pc with
  | idle => exact absurd rfl hidle
  | reply r regs => exact absurd rfl (hreply r regs)
  | _ => rfl

/-- A step that is no reply, and what comes after it. -/
theorem Replies.step {m₁ m' : NativeCache.Mem} {reply : Registers} (hrun : m.exited = false)
    {pc pc₁ : Pc} (ran : List Core) (hidle : pc ≠ .idle) (hreply : ∀ r regs, pc ≠ .reply r regs)
    (hadvance : NativeCache.advance h a m pc = (m₁, pc₁))
    (hrest : ∀ ran, Replies h t a m₁ ⟨pc₁, ran⟩ r reply m') :
    Replies h t a m ⟨pc, ran⟩ r reply m' := by
  have hstep := program_step (h := h) (t := t) (a := a) hrun ran hidle hreply
  rw [hadvance] at hstep
  exact .next hstep (hrest _)

/-- An entry that was found. -/
theorem Replies.hit (hrun : m.exited = false) (index : ℕ) (ran : List Core) :
    Replies h t a m ⟨.load_eax r index, ran⟩ r
      (r.answer ⟨m.eax index, m.ebx index, m.ecx index, m.edx index⟩) m :=
  .step hrun ran nofun nofun rfl fun _ => .step hrun _ nofun nofun rfl fun _ =>
    .step hrun _ nofun nofun rfl fun _ => .step hrun _ nofun nofun rfl fun _ => .reply hrun _

/-- The loop of `lookup`. The induction is on the entries that are left. -/
theorem Replies.look (hrun : m.exited = false) {reply : Registers} {m' : NativeCache.Mem}
    (index n : ℕ)
    (hrest : ∀ ran, Replies h t a m
      ⟨match (List.range' index n).find? fun i => m.keys i = r.key with
        | some i => .load_eax r i
        | none => .enable r, ran⟩ r reply m') (ran : List Core) :
    Replies h t a m ⟨.look r (index + n) index, ran⟩ r reply m' := by
  induction n generalizing index ran with
  | zero =>
    have hend : Pc.look r (index + 0) index = .enable r := if_neg (lt_irrefl _)
    rw [hend]
    exact hrest ran
  | succ n ih =>
    have hgo : Pc.look r (index + (n + 1)) index = .load_key r (index + (n + 1)) index :=
      if_pos (by omega)
    rw [hgo]
    simp only [List.range'_succ, List.find?_cons] at hrest
    by_cases hkey : m.keys index = r.key
    · rw [decide_eq_true hkey] at hrest
      exact .step hrun ran nofun nofun (if_pos hkey) hrest
    · rw [decide_eq_false hkey] at hrest
      refine .step hrun ran nofun nofun (if_neg hkey) fun ran => ?_
      rw [show index + (n + 1) = index + 1 + n by omega]
      exact ih (index + 1) hrest ran

/-- `insert`, with the lock free. -/
theorem Replies.insert (hrun : m.exited = false) (hfree : m.lock = false) (ran : List Core) :
    Replies h t a m ⟨.acquire r regs, ran⟩ r (r.answer regs)
      (CpuidHandler.insert m r.leaf r.subleaf regs) := by
  obtain ⟨lock, len, keys, eax, ebx, ecx, edx, exited⟩ := m
  dsimp only at hrun hfree
  subst hrun hfree
  refine .step rfl ran nofun nofun rfl fun ran => ?_
  unfold CpuidHandler.insert
  by_cases hroom : len.toNat < NATIVE_CACHE_CAP
  · simp only [if_pos hroom]
    exact .step rfl ran nofun nofun (if_pos hroom) fun _ => .step rfl _ nofun nofun rfl fun _ =>
      .step rfl _ nofun nofun rfl fun _ => .step rfl _ nofun nofun rfl fun _ =>
      .step rfl _ nofun nofun rfl fun _ => .step rfl _ nofun nofun rfl fun _ =>
      .step rfl _ nofun nofun rfl fun _ => .step rfl _ nofun nofun rfl fun _ => .reply rfl _
  · simp only [if_neg hroom]
    exact .step rfl ran nofun nofun (if_neg hroom) fun _ => .step rfl _ nofun nofun rfl fun _ =>
      .reply rfl _

/-- What is left of `native_reply` when the leaf is not in the cache. -/
theorem Replies.enable (hrun : m.exited = false) (hfree : m.lock = false) (ran : List Core) :
    Replies h t a m ⟨.enable r, ran⟩ r
      (r.answer (if a.succeeds then h a.core r.leaf r.subleaf else .zero))
      (if a.succeeds ∧ leaf_varies_per_core r.leaf = false then
        CpuidHandler.insert m r.leaf r.subleaf (h a.core r.leaf r.subleaf) else m) := by
  cases hsucceeds : a.succeeds with
  | false =>
    refine .step hrun ran nofun nofun (if_neg ?_) fun _ => .reply hrun _
    rw [hsucceeds]
    exact Bool.false_ne_true
  | true =>
    have hrearm : NativeCache.advance h a m (.rearm r (h a.core r.leaf r.subleaf))
        = if leaf_varies_per_core r.leaf then (m, .reply r (h a.core r.leaf r.subleaf))
          else (m, .acquire r (h a.core r.leaf r.subleaf)) := if_pos hsucceeds
    refine .step hrun ran nofun nofun (if_pos hsucceeds) fun _ =>
      .step hrun _ nofun nofun rfl fun ran => ?_
    cases hvaries : leaf_varies_per_core r.leaf with
    | true =>
      rw [hvaries, if_pos rfl] at hrearm
      exact .step hrun ran nofun nofun hrearm fun _ => .reply hrun _
    | false =>
      rw [hvaries, if_neg Bool.false_ne_true] at hrearm
      exact .step hrun ran nofun nofun hrearm fun _ => .insert hrun hfree _

/-- **`native_reply`, alone.** With the lock free, a thread that stays on its core replies what
`native_reply` computes, and leaves its cache. -/
theorem native_reply_alone (e : Surroundings) (hrun : m.exited = false) (hfree : m.lock = false)
    (hrequest : a.request = r) (hcpuid : e.cpuid = h a.core) (henables : e.enables = a.succeeds)
    (hrearms : e.rearms = a.succeeds) :
    Replies h t a m ⟨.idle, []⟩ r (r.answer (native_reply e m r.leaf r.subleaf).1)
      (native_reply e m r.leaf r.subleaf).2 := by
  have hbegin : program T h t a m ⟨.idle, []⟩ = ⟨m, ⟨.begin r, [a.core]⟩, []⟩ := by
    unfold program
    rw [hrun, if_neg Bool.false_ne_true, hrequest]
  have hasked := Replies.enable (h := h) (t := t) (a := a) (r := r) hrun hfree
  refine .next hbegin ?_
  unfold native_reply Pc.begin
  cases hvaries : leaf_varies_per_core r.leaf with
  | true =>
    rw [hvaries] at hasked
    cases hsucceeds : a.succeeds with
    | true | false =>
      simp only [hsucceeds] at hasked henables hrearms
      simpa [henables, hrearms, hcpuid] using hasked [a.core]
  | false =>
    rw [if_neg Bool.false_ne_true]
    refine .step hrun _ nofun nofun rfl fun ran => ?_
    rw [← Nat.zero_add (min m.len.toNat NATIVE_CACHE_CAP)]
    refine .look hrun 0 _ (fun ran => ?_) ran
    have hlookup : lookup m r.leaf r.subleaf
        = ((List.range' 0 (min m.len.toNat NATIVE_CACHE_CAP)).find? fun i =>
          m.keys i = r.key).map fun i => ⟨m.eax i, m.ebx i, m.ecx i, m.edx i⟩ := by
      rw [lookup, List.range_eq_range']
      rfl
    simp only [Bool.not_false, if_true, hlookup]
    cases (List.range' 0 (min m.len.toNat NATIVE_CACHE_CAP)).find? fun i => m.keys i = r.key with
    | some index => exact .hit hrun index ran
    | none =>
      rw [hvaries] at hasked
      cases hsucceeds : a.succeeds with
      | true | false =>
        simp only [hsucceeds] at hasked henables hrearms
        simpa [henables, hrearms, hcpuid] using hasked ran

end Alone

/-! ## The tables -/

def artifact_module_newly_mapped (e : Surroundings) (s : Shared) : Bool × Shared :=
  if e.generation = s.artifact_scan_generation
      ∧ e.now - s.artifact_scan_milliseconds < ArtifactScan.ARTIFACT_RESCAN_INTERVAL_MS then
    (false, s)
  else
    let found := ArtifactScan.artifact_module_mapped e.kernel.maps
    (found, if found then s else
      { s with artifact_scan_milliseconds := e.now, artifact_scan_generation := e.generation })

def select_caller_presentation (e : Surroundings) (s : Shared) (leaf : UInt32) (rip : UInt64) :
    CallerKind × Shared :=
  if !is_identity_leaf leaf then (.Ordinary, s)
  else
    let (found, callers) := Callers.classify_caller
      ⟨e.kernel.maps, e.process.memory, s.protocol_established⟩ s.callers rip
    let kind := found.getD .Ordinary
    let s := { s with callers := callers }
    if kind = .Reflex64 ∧ !s.reflex64_presentation_selected
        ∧ s.identity.presentation ≠ .Legacy then
      (kind, { s with
        runtime := { s.runtime with
          identity := Cpuid.select_legacy_presentation s.runtime.identity }
        reflex64_presentation_selected := true })
    else (kind, s)

/-- The block of `fixed_reply` that selects the artifact profile. -/
def select_artifact_profile (e : Surroundings) (s : Shared) (caller : CallerKind) : Shared :=
  if caller = .Artifact ∨ s.artifact_profile_selected then
    { s with artifact_profile_selected := true }
  else
    let (mapped, s) := artifact_module_newly_mapped e s
    if mapped then { s with artifact_profile_selected := true } else s

/-- `fixed_reply` up to `artifact_profile`: the state, with what the caller and the mapped modules
select. -/
def select_profiles (e : Surroundings) (s : Shared) (leaf : UInt32) (rip : Option UInt64) :
    Shared :=
  let (caller, s) :=
    match rip with
    | some rip => select_caller_presentation e s leaf rip
    | none => (.Ordinary, s)
  if (artifact_reply s.identity.vendor leaf).isSome then select_artifact_profile e s caller else s

/-- `artifact_profile` of `fixed_reply`. -/
def Shared.artifact_profile (s : Shared) : Bool :=
  s.artifact_profile_selected && (s.identity.vendor == .Intel || s.identity.vendor == .Amd)

/-- The table that `fixed_reply` looks the leaf up in. -/
def Shared.table (s : Shared) (leaf : UInt32) : Option Registers :=
  if s.artifact_profile then
    (artifact_reply s.identity.vendor leaf).or (s.identity.fixed_reply leaf)
  else s.identity.fixed_reply leaf

/-- The rest of `fixed_reply`. -/
def profile_reply (e : Surroundings) (s : Shared) (leaf : UInt32) : Option Registers × Shared :=
  match s.table leaf with
  | none => (none, s)
  | some reply =>
    if s.artifact_profile ∧ leaf = 1 then
      let (native, natives) := native_reply e s.natives 1 0
      (some (with_native_apic_id reply native.ebx), { s with natives := natives })
    else if ¬s.artifact_profile ∧ leaf = 1 ∧ s.runtime.state.resume_identity_unarmed then
      (some { reply with ecx := reply.ecx ||| Cpuid.HYPERVISOR_PRESENT }, s)
    else (some reply, s)

def fixed_reply (e : Surroundings) (s : Shared) (leaf : UInt32) (rip : Option UInt64) :
    Option Registers × Shared :=
  profile_reply e (select_profiles e s leaf rip) leaf

/-! ## The handler -/

def SI_KERNEL : Int32 := 0x80

def REG_RBX : ℕ := 11

def REG_RDX : ℕ := 12

def REG_RAX : ℕ := 13

def REG_RCX : ℕ := 14

def CPUID_INSTRUCTION : List UInt8 := [0x0f, 0xa2]

/-- The arguments of the handler; null pointers are none. -/
structure Fault where
  si_code : Option Int32
  context : Option Gregs

inductive Disposition where
  /-- The thread goes on with the context. -/
  | returned
  /-- `forward_signal` has the fault. -/
  | forwarded
  | exited
  deriving DecidableEq, Repr

/-- What the handler leaves. -/
structure Left where
  disposition : Disposition
  context : Option Gregs
  process : Process
  shared : Shared

/-- `register_reflex_image`. -/
def register_reflex_image (m : ProcMem.Memory) (image : ReflexImage.Mem) (handler : UInt64) :
    ReflexImage.Mem :=
  if handler = 0 ∨ image.start ≠ 0 then image
  else
    match ReflexImage.find_image m handler with
    | none => image
    | some (base, stop) => ⟨base, stop⟩

/-- The registers and the next instruction of a CPUID that was answered. -/
def answered (gregs : Gregs) (reply : Registers) : Gregs :=
  let gregs := Function.update gregs REG_RAX reply.eax.toUInt64
  let gregs := Function.update gregs REG_RBX reply.ebx.toUInt64
  let gregs := Function.update gregs REG_RCX reply.ecx.toUInt64
  let gregs := Function.update gregs REG_RDX reply.edx.toUInt64
  Function.update gregs REG_RIP (gregs REG_RIP + 2)

/-- The reply to a CPUID. -/
def reply_to (setup : Kuser.Setup) (e : Surroundings) (s : Shared) (gregs : Gregs) :
    Registers × Shared :=
  let leaf := (gregs REG_RAX).toUInt32
  let control := gregs REG_RCX
  let payload := gregs REG_RDX
  let s := if leaf = Reflex.REGISTER_RESUME_HANDLER then
      { s with
        image := register_reflex_image e.process.memory s.image control
        protocol_established := true }
    else s
  let native (s : Shared) : Registers × Shared :=
    let (reply, natives) := native_reply e s.natives leaf control.toUInt32
    (reply, { s with natives := natives })
  if is_wine_system_rip (gregs REG_RIP) then native s
  else
    match fixed_reply e s leaf (some (gregs REG_RIP)) with
    | (some reply, s) => (reply, s)
    | (none, s) =>
      let (action, runtime, _) := s.runtime.handle_cpuid setup e.answers leaf control payload
      let s := { s with runtime := runtime }
      if action = .Consumed then (.zero, s) else native s

def cpuid_sigsegv_handler (setup : Kuser.Setup) (e : Surroundings) (s : Shared) (f : Fault) :
    Left :=
  match f.si_code, f.context with
  | some si_code, some gregs =>
    let left := skip_int2e_fault e.kernel e.process s.trampolines gregs
    let s := { s with trampolines := left.mem }
    if left.handled then ⟨.returned, some left.gregs, left.process, s⟩
    else if ¬(left.gregs REG_TRAPNO = 13 ∧ si_code = SI_KERNEL) then
      ⟨.forwarded, some left.gregs, left.process, s⟩
    else if read_memory left.process.memory (left.gregs REG_RIP) 2 ≠ some CPUID_INSTRUCTION then
      ⟨.forwarded, some left.gregs, left.process, s⟩
    else
      let (reply, s) := reply_to setup e s left.gregs
      ⟨if s.natives.exited then .exited else .returned, some (answered left.gregs reply),
        left.process, s⟩
  | _, _ => ⟨.forwarded, f.context, e.process, s⟩

/-- The state after some faults. -/
def run (setup : Kuser.Setup) (s : Shared) (faults : List (Surroundings × Fault)) : Shared :=
  faults.foldl (fun s x => (cpuid_sigsegv_handler setup x.1 s x.2).shared) s

/-! ## What one fault changes -/

/-- The changes that are never taken back; and no site comes to be its own trampoline. -/
structure OneWay (s s' : Shared) : Prop where
  vendor : s'.identity.vendor = s.identity.vendor
  avx : s'.identity.avx_enabled = s.identity.avx_enabled
  legacy : s.identity.presentation = .Legacy → s'.identity.presentation = .Legacy
  artifact : s.artifact_profile_selected = true → s'.artifact_profile_selected = true
  established : s.protocol_established = true → s'.protocol_established = true
  image : s.image.start ≠ 0 → s'.image = s.image
  apart : Int2e.Apart s.trampolines → Int2e.Apart s'.trampolines

theorem OneWay.refl (s : Shared) : OneWay s s :=
  ⟨rfl, rfl, id, id, id, fun _ => rfl, id⟩

theorem OneWay.trans {s s' s'' : Shared} (h : OneWay s s') (h' : OneWay s' s'') :
    OneWay s s'' where
  vendor := h'.vendor.trans h.vendor
  avx := h'.avx.trans h.avx
  legacy := h'.legacy ∘ h.legacy
  artifact := h'.artifact ∘ h.artifact
  established := h'.established ∘ h.established
  image hne := (h'.image (by rwa [h.image hne])).trans (h.image hne)
  apart := h'.apart ∘ h.apart

/-- The Legacy presentation selected. -/
def Shared.legacy (s : Shared) : Shared :=
  { s with runtime := { s.runtime with
      identity := Cpuid.select_legacy_presentation s.runtime.identity } }

theorem Shared.legacy_identity (s : Shared) :
    s.legacy.identity = s.identity.with_presentation .Legacy := by
  unfold Shared.identity Shared.legacy Cpuid.select_legacy_presentation
  exact CpuIdentity.decode_encode _

theorem OneWay.of_legacy (s : Shared) : OneWay s s.legacy where
  vendor := by rw [s.legacy_identity]; rfl
  avx := by rw [s.legacy_identity]; rfl
  legacy _ := by rw [s.legacy_identity]; rfl
  artifact := id
  established := id
  image _ := rfl
  apart := id

section Tables

variable (e : Surroundings) (s : Shared) (leaf : UInt32)

/-- The call selects the Legacy presentation at most, and that for an identity leaf. -/
theorem select_caller_spec (rip : UInt64) :
    ((select_caller_presentation e s leaf rip).2.runtime = s.runtime
        ∨ is_identity_leaf leaf = true
          ∧ (select_caller_presentation e s leaf rip).2.runtime = s.legacy.runtime)
      ∧ OneWay s (select_caller_presentation e s leaf rip).2 := by
  unfold select_caller_presentation
  by_cases hleaf : is_identity_leaf leaf = true
  · rw [hleaf, Bool.not_true, if_neg Bool.false_ne_true]
    dsimp only
    split
    · have hlegacy := OneWay.of_legacy s
      exact ⟨Or.inr ⟨rfl, rfl⟩, hlegacy.vendor, hlegacy.avx, hlegacy.legacy, id, id, fun _ => rfl,
        id⟩
    · exact ⟨Or.inl rfl, rfl, rfl, id, id, id, fun _ => rfl, id⟩
  · rw [Bool.not_eq_true] at hleaf
    rw [hleaf, Bool.not_false, if_pos rfl]
    exact ⟨Or.inl rfl, .refl s⟩

/-- The scan notes what it has found. -/
theorem newly_mapped_spec : (artifact_module_newly_mapped e s).2.runtime = s.runtime
    ∧ OneWay s (artifact_module_newly_mapped e s).2 := by
  unfold artifact_module_newly_mapped
  split
  · exact ⟨rfl, .refl s⟩
  · dsimp only
    split
    · exact ⟨rfl, .refl s⟩
    · exact ⟨rfl, rfl, rfl, id, id, id, fun _ => rfl, id⟩

theorem select_artifact_spec (caller : CallerKind) :
    (select_artifact_profile e s caller).runtime = s.runtime
      ∧ OneWay s (select_artifact_profile e s caller) := by
  unfold select_artifact_profile
  split
  · exact ⟨rfl, rfl, rfl, id, fun _ => rfl, id, fun _ => rfl, id⟩
  · obtain ⟨hruntime, hkept⟩ := newly_mapped_spec e s
    dsimp only
    split
    · have hselected : OneWay (artifact_module_newly_mapped e s).2
          { (artifact_module_newly_mapped e s).2 with artifact_profile_selected := true } :=
        ⟨rfl, rfl, id, fun _ => rfl, id, fun _ => rfl, id⟩
      exact ⟨hruntime, hkept.trans hselected⟩
    · exact ⟨hruntime, hkept⟩

/-- What the state says a leaf is answered with, where `apic` has the APIC id of a core. -/
def presented (apic : UInt32) : Option Registers :=
  (s.table leaf).map fun reply =>
    if leaf = 1 then
      if s.artifact_profile then with_native_apic_id reply apic
      else if s.runtime.state.resume_identity_unarmed then
        { reply with ecx := reply.ecx ||| Cpuid.HYPERVISOR_PRESENT }
      else reply
    else reply

/-- An identity leaf has a reply, and no other leaf has one. -/
theorem table_isSome : (s.table leaf).isSome = is_identity_leaf leaf := by
  have htable := Cpuid.fixed_reply_isSome s.identity leaf
  unfold Shared.table
  split
  · cases hartifact : artifact_reply s.identity.vendor leaf with
    | none =>
      rw [Option.none_or]
      exact htable
    | some reply =>
      have hsome : (artifact_reply s.identity.vendor leaf).isSome := by rw [hartifact]; rfl
      rw [Cpuid.identity_of_artifact hsome]
      rfl
  · exact htable

/-- The reply is the one that the state stands for, and only the kept replies of the host change. -/
theorem profile_reply_spec :
    (∃ apic, (profile_reply e s leaf).1 = presented s leaf apic)
      ∧ ∃ natives, (profile_reply e s leaf).2 = { s with natives := natives } := by
  unfold profile_reply presented
  cases s.table leaf with
  | none => exact ⟨⟨0, rfl⟩, s.natives, rfl⟩
  | some reply =>
    by_cases hleaf : leaf = 1
    · by_cases hprofile : s.artifact_profile = true
      · refine ⟨⟨(native_reply e s.natives 1 0).1.ebx, ?_⟩, (native_reply e s.natives 1 0).2, ?_⟩
        · simp only [hleaf, hprofile, Option.map_some, and_self, if_true]
        · simp only [hleaf, hprofile, and_self, if_true]
      · refine ⟨⟨0, ?_⟩, s.natives, ?_⟩
        · simp only [hleaf, hprofile, Option.map_some, Bool.false_eq_true, false_and, if_false,
            not_false_eq_true, true_and, if_true]
          split <;> rfl
        · simp only [hprofile, Bool.false_eq_true, false_and, if_false]
          split <;> rfl
    · refine ⟨⟨0, ?_⟩, s.natives, ?_⟩
      · simp only [hleaf, Option.map_some, false_and, and_false, if_false]
      · simp only [hleaf, false_and, and_false, if_false]

theorem select_profiles_spec (rip : Option UInt64) :
    ((select_profiles e s leaf rip).runtime = s.runtime
        ∨ is_identity_leaf leaf = true ∧ (select_profiles e s leaf rip).runtime = s.legacy.runtime)
      ∧ OneWay s (select_profiles e s leaf rip) := by
  have hartifact : ∀ (s' : Shared) (caller : CallerKind),
      let left := if (artifact_reply s'.identity.vendor leaf).isSome then
        select_artifact_profile e s' caller else s'
      left.runtime = s'.runtime ∧ OneWay s' left := fun s' caller => by
    dsimp only
    split
    · exact select_artifact_spec e s' caller
    · exact ⟨rfl, .refl s'⟩
  unfold select_profiles
  cases rip with
  | none =>
    obtain ⟨hruntime, hkept⟩ := hartifact s .Ordinary
    exact ⟨Or.inl hruntime, hkept⟩
  | some rip =>
    obtain ⟨hcaller, hkept⟩ := select_caller_spec e s leaf rip
    obtain ⟨hruntime, hkept'⟩ := hartifact (select_caller_presentation e s leaf rip).2
      (select_caller_presentation e s leaf rip).1
    refine ⟨?_, hkept.trans hkept'⟩
    dsimp only at hruntime ⊢
    rw [hruntime]
    exact hcaller

theorem select_caller_natives (rip : UInt64) :
    (select_caller_presentation e s leaf rip).2.natives = s.natives := by
  unfold select_caller_presentation
  split
  · rfl
  · dsimp only
    split <;> rfl

theorem select_artifact_natives (caller : CallerKind) :
    (select_artifact_profile e s caller).natives = s.natives := by
  have hscan : (artifact_module_newly_mapped e s).2.natives = s.natives := by
    unfold artifact_module_newly_mapped
    split
    · rfl
    · dsimp only
      split <;> rfl
  unfold select_artifact_profile
  split
  · rfl
  · dsimp only
    split <;> exact hscan

/-- What selects the tables does not ask the host. -/
theorem select_profiles_natives (rip : Option UInt64) :
    (select_profiles e s leaf rip).natives = s.natives := by
  unfold select_profiles
  cases rip with
  | none =>
    dsimp only
    split
    · exact select_artifact_natives e s _
    · rfl
  | some rip =>
    dsimp only
    split
    · exact (select_artifact_natives e _ _).trans (select_caller_natives e s leaf rip)
    · exact select_caller_natives e s leaf rip

theorem profile_reply_exited (h : (profile_reply e s leaf).2.natives.exited = true) :
    s.natives.exited = true ∨ e.rearms = false := by
  unfold profile_reply at h
  split at h
  · exact Or.inl h
  · split at h
    · exact native_reply_exited h
    · split at h <;> exact Or.inl h

end Tables

/-! ## One CPUID -/

/-- What `Reflex.State` asks for leaves the host part of the identity, and Legacy. -/
theorem perform_keeps (setup : Kuser.Setup) (answers : Kuser.Answers)
    (calls : List Reflex.HostCall) (rt : Runtime) :
    let identity := CpuIdentity.decode (rt.perform setup answers calls).1.identity
    identity.vendor = (CpuIdentity.decode rt.identity).vendor
      ∧ identity.avx_enabled = (CpuIdentity.decode rt.identity).avx_enabled
      ∧ ((CpuIdentity.decode rt.identity).presentation = .Legacy →
        identity.presentation = .Legacy) := by
  induction calls generalizing rt with
  | nil => exact ⟨rfl, rfl, id⟩
  | cons call calls ih =>
    have hone := ih (rt.perform_one setup answers call).1
    cases call with
    | select_legacy_presentation =>
      simp only [Runtime.perform_one, Cpuid.select_legacy_presentation,
        CpuIdentity.decode_encode] at hone
      exact ⟨hone.1, hone.2.1, fun _ => hone.2.2 rfl⟩
    | _ => exact hone

/-- The leaf that a program puts into RAX. -/
def leaf_of (gregs : Gregs) : UInt32 := (gregs REG_RAX).toUInt32

/-- The CPUID is one that the tables answer. -/
def OfTable (gregs : Gregs) : Prop :=
  is_wine_system_rip (gregs REG_RIP) = false ∧ is_identity_leaf (leaf_of gregs) = true

/-- The CPUID is one that Reflex is asked about. -/
def OfReflex (gregs : Gregs) : Prop :=
  is_wine_system_rip (gregs REG_RIP) = false ∧ is_identity_leaf (leaf_of gregs) = false

/-- What the runtime sees of a CPUID. -/
inductive Seen (e : Surroundings) (gregs : Gregs) : List RuntimeEvent → Prop
  | reflex (h : OfReflex gregs) :
    Seen e gregs [.leaf (leaf_of gregs) (gregs REG_RCX) (gregs REG_RDX) e.answers]
  | legacy (h : OfTable gregs) : Seen e gregs [.select_legacy_presentation]
  | unseen (h : ¬OfReflex gregs) : Seen e gregs []

section Reply

variable (setup : Kuser.Setup) (e : Surroundings) (s : Shared) (gregs : Gregs)

/-- The registration of the Reflex image, which comes before everything else. -/
def registered : Shared :=
  if leaf_of gregs = Reflex.REGISTER_RESUME_HANDLER then
    { s with
      image := register_reflex_image e.process.memory s.image (gregs REG_RCX)
      protocol_established := true }
  else s

theorem registered_spec : (registered e s gregs).runtime = s.runtime
    ∧ OneWay s (registered e s gregs) := by
  unfold registered
  split
  · refine ⟨rfl, rfl, rfl, id, id, fun _ => rfl, fun hne => ?_, id⟩
    exact if_pos (Or.inr hne)
  · exact ⟨rfl, .refl s⟩

/-- The reply of the host. -/
def native (s : Shared) : Registers × Shared :=
  ((native_reply e s.natives (leaf_of gregs) (gregs REG_RCX).toUInt32).1,
    { s with
      natives := (native_reply e s.natives (leaf_of gregs) (gregs REG_RCX).toUInt32).2 })

theorem reply_to_native (hwine : is_wine_system_rip (gregs REG_RIP) = true) :
    reply_to setup e s gregs = native e gregs (registered e s gregs) := by
  unfold reply_to
  rw [if_pos hwine]
  rfl

/-- An identity leaf is answered by the tables. -/
theorem reply_to_table (h : OfTable gregs) :
    ∃ reply, profile_reply e (select_profiles e (registered e s gregs) (leaf_of gregs)
        (some (gregs REG_RIP))) (leaf_of gregs) = (some reply, (reply_to setup e s gregs).2)
      ∧ (reply_to setup e s gregs).1 = reply := by
  have hreply : ∃ reply left, fixed_reply e (registered e s gregs) (leaf_of gregs)
      (some (gregs REG_RIP)) = (some reply, left) := by
    obtain ⟨⟨apic, hpresented⟩, -⟩ := profile_reply_spec e
      (select_profiles e (registered e s gregs) (leaf_of gregs) (some (gregs REG_RIP)))
      (leaf_of gregs)
    have hsome := table_isSome (select_profiles e (registered e s gregs) (leaf_of gregs)
      (some (gregs REG_RIP))) (leaf_of gregs)
    rw [h.2, Option.isSome_iff_exists] at hsome
    obtain ⟨entry, hentry⟩ := hsome
    unfold presented at hpresented
    rw [hentry, Option.map_some] at hpresented
    exact ⟨_, _, Prod.ext hpresented rfl⟩
  obtain ⟨reply, left, hreply⟩ := hreply
  have hleft : reply_to setup e s gregs = (reply, left) := by
    have hwine : ¬is_wine_system_rip (gregs REG_RIP) = true := by
      rw [h.1]
      exact Bool.false_ne_true
    unfold reply_to
    rw [if_neg hwine]
    change (match fixed_reply e (registered e s gregs) (leaf_of gregs) (some (gregs REG_RIP)) with
      | (some reply, s) => (reply, s)
      | (none, s) => _) = _
    rw [hreply]
  rw [hleft]
  exact ⟨reply, hreply, rfl⟩

/-- Any other leaf goes to Reflex, and to the host if Reflex does not want it. -/
theorem reply_to_reflex (h : OfReflex gregs) :
    let handled := s.runtime.handle_cpuid setup e.answers (leaf_of gregs) (gregs REG_RCX)
      (gregs REG_RDX)
    let left : Shared := { registered e s gregs with runtime := handled.2.1 }
    reply_to setup e s gregs = if handled.1 = .Consumed then (.zero, left)
      else native e gregs left := by
  have hwine : ¬is_wine_system_rip (gregs REG_RIP) = true := by
    rw [h.1]
    exact Bool.false_ne_true
  have hfixed : fixed_reply e (registered e s gregs) (leaf_of gregs) (some (gregs REG_RIP))
      = (none, registered e s gregs) := by
    have hnotable : ∀ s : Shared, s.table (leaf_of gregs) = none := fun s => by
      rw [← Option.not_isSome_iff_eq_none, table_isSome, h.2]
      exact Bool.false_ne_true
    have hselect : select_profiles e (registered e s gregs) (leaf_of gregs)
        (some (gregs REG_RIP)) = registered e s gregs := by
      have hartifact : ∀ vendor, (artifact_reply vendor (leaf_of gregs)).isSome = false :=
        fun vendor => by
          rw [Bool.eq_false_iff]
          intro hsome
          exact Bool.false_ne_true (h.2.symm.trans (Cpuid.identity_of_artifact hsome))
      have hcaller : select_caller_presentation e (registered e s gregs) (leaf_of gregs)
          (gregs REG_RIP) = (.Ordinary, registered e s gregs) := by
        unfold select_caller_presentation
        rw [h.2, Bool.not_false, if_pos rfl]
      unfold select_profiles
      simp only [hcaller, hartifact, Bool.false_eq_true, if_false]
    unfold fixed_reply profile_reply
    rw [hselect, hnotable]
  unfold reply_to
  rw [if_neg hwine]
  change (match fixed_reply e (registered e s gregs) (leaf_of gregs) (some (gregs REG_RIP)) with
    | (some reply, s) => (reply, s)
    | (none, s) => _) = _
  rw [hfixed]
  dsimp only
  rw [(registered_spec e s gregs).1]
  rfl

/-- The runtime sees the CPUID, and nothing that was selected or registered is taken back. -/
theorem reply_to_spec :
    (∃ es, Seen e gregs es ∧ (reply_to setup e s gregs).2.runtime = (s.runtime.run setup es).1)
      ∧ OneWay s (reply_to setup e s gregs).2 := by
  obtain ⟨hruntime, hregistered⟩ := registered_spec e s gregs
  by_cases hwine : is_wine_system_rip (gregs REG_RIP) = true
  · have hnot : ¬OfReflex gregs := fun h => Bool.false_ne_true (h.1.symm.trans hwine)
    rw [reply_to_native setup e s gregs hwine]
    refine ⟨⟨[], .unseen hnot, hruntime⟩, hregistered.trans ?_⟩
    exact ⟨rfl, rfl, id, id, id, fun _ => rfl, id⟩
  · rw [Bool.not_eq_true] at hwine
    by_cases hleaf : is_identity_leaf (leaf_of gregs) = true
    · have hnot : ¬OfReflex gregs := fun h => Bool.false_ne_true (h.2.symm.trans hleaf)
      obtain ⟨reply, hreply, -⟩ := reply_to_table setup e s gregs ⟨hwine, hleaf⟩
      obtain ⟨-, natives, hnatives⟩ := profile_reply_spec e
        (select_profiles e (registered e s gregs) (leaf_of gregs) (some (gregs REG_RIP)))
        (leaf_of gregs)
      obtain ⟨hselected, hkept⟩ := select_profiles_spec e (registered e s gregs) (leaf_of gregs)
        (some (gregs REG_RIP))
      rw [hreply] at hnatives
      dsimp only at hnatives
      rw [hnatives]
      refine ⟨?_, (hregistered.trans hkept).trans ⟨rfl, rfl, id, id, id, fun _ => rfl, id⟩⟩
      dsimp only
      rcases hselected with heq | ⟨-, heq⟩
      · exact ⟨[], .unseen hnot, heq.trans hruntime⟩
      · refine ⟨_, .legacy ⟨hwine, hleaf⟩, ?_⟩
        rw [heq, Shared.legacy, hruntime]
        rfl
    · rw [Bool.not_eq_true] at hleaf
      have hreflex : OfReflex gregs := ⟨hwine, hleaf⟩
      obtain ⟨hvendor, havx, hlegacy⟩ := perform_keeps setup e.answers
        (s.runtime.state.handle_cpuid (leaf_of gregs) (gregs REG_RCX) (gregs REG_RDX)
          (s.runtime.host setup e.answers)).2.2 s.runtime
      have hleft := reply_to_reflex setup e s gregs hreflex
      have hkept : OneWay s { registered e s gregs with
          runtime := (s.runtime.handle_cpuid setup e.answers (leaf_of gregs) (gregs REG_RCX)
            (gregs REG_RDX)).2.1 } :=
        ⟨hvendor, havx, hlegacy, hregistered.artifact, hregistered.established,
          hregistered.image, hregistered.apart⟩
      refine ⟨⟨_, .reflex hreflex, ?_⟩, ?_⟩
      · rw [hleft]
        split <;> rfl
      · rw [hleft]
        split
        · exact hkept
        · exact hkept.trans ⟨rfl, rfl, id, id, id, fun _ => rfl, id⟩

/-- A CPUID ends the process only where the next one could not be trapped. -/
theorem reply_to_exited (h : (reply_to setup e s gregs).2.natives.exited = true) :
    s.natives.exited = true ∨ e.rearms = false := by
  have hregistered : (registered e s gregs).natives = s.natives := by
    unfold registered
    split <;> rfl
  rw [← hregistered]
  by_cases hwine : is_wine_system_rip (gregs REG_RIP) = true
  · rw [reply_to_native setup e s gregs hwine] at h
    exact native_reply_exited h
  · rw [Bool.not_eq_true] at hwine
    by_cases hleaf : is_identity_leaf (leaf_of gregs) = true
    · obtain ⟨reply, hreply, -⟩ := reply_to_table setup e s gregs ⟨hwine, hleaf⟩
      rw [← select_profiles_natives e _ (leaf_of gregs) (some (gregs REG_RIP))]
      refine profile_reply_exited e _ (leaf_of gregs) ?_
      rw [hreply]
      exact h
    · rw [Bool.not_eq_true] at hleaf
      rw [reply_to_reflex setup e s gregs ⟨hwine, hleaf⟩] at h
      split at h
      · exact Or.inl h
      · exact native_reply_exited h

end Reply

/-! ## One fault -/

/-- The context of a fault that is a CPUID. -/
def Fault.cpuid (e : Surroundings) (f : Fault) : Option Gregs :=
  match f.si_code, f.context with
  | some si_code, some gregs =>
    if gregs REG_TRAPNO = 13 ∧ si_code = SI_KERNEL
        ∧ read_memory e.process.memory (gregs REG_RIP) 2 = some CPUID_INSTRUCTION then some gregs
    else none
  | _, _ => none

section Handler

variable (setup : Kuser.Setup) (e : Surroundings) (s : Shared) (f : Fault)

/-- A CPUID is no `int 2e`: it reaches the tables with everything as it was. -/
theorem handler_cpuid {gregs : Gregs} (h : f.cpuid e = some gregs) :
    cpuid_sigsegv_handler setup e s f =
      ⟨if (reply_to setup e s gregs).2.natives.exited then .exited else .returned,
        some (answered gregs (reply_to setup e s gregs).1), e.process,
        (reply_to setup e s gregs).2⟩ := by
  obtain ⟨si_code, context⟩ := f
  unfold Fault.cpuid at h
  cases si_code with
  | none => cases h
  | some si_code =>
    cases context with
    | none => cases h
    | some gregs' =>
      dsimp only at h
      rw [Option.ite_none_right_eq_some] at h
      obtain ⟨⟨htrap, hcode, hread⟩, heq⟩ := h
      cases heq
      have hskip : skip_int2e_fault e.kernel e.process s.trampolines gregs
          = ⟨false, gregs, e.process, s.trampolines⟩ := by
        have hne : read_memory e.process.memory (gregs REG_RIP) 2
            ≠ some Int2e.INT2E_INSTRUCTION := by
          change read_memory e.process.memory (gregs Int2e.REG_RIP) 2 = _ at hread
          rw [hread]
          decide
        unfold skip_int2e_fault
        rw [if_neg (not_not_intro htrap), if_pos hne]
      unfold cpuid_sigsegv_handler
      simp only [hskip, htrap, hcode, hread, and_self, not_true_eq_false, if_false,
        Bool.false_eq_true, ne_eq]

omit setup s f in
/-- A fault that `skip_int2e_fault` does not want is left as it is. -/
theorem skip_refused (m : Trampolines.Mem) (gregs : Gregs)
    (h : (skip_int2e_fault e.kernel e.process m gregs).handled = false) :
    (skip_int2e_fault e.kernel e.process m gregs).gregs = gregs
      ∧ (skip_int2e_fault e.kernel e.process m gregs).process = e.process := by
  unfold skip_int2e_fault at h ⊢
  split at h
  · rename_i htrap
    rw [if_pos htrap]
    exact ⟨rfl, rfl⟩
  · rename_i htrap
    rw [if_neg htrap]
    split at h
    · rename_i hread
      rw [if_pos hread]
      exact ⟨rfl, rfl⟩
    · rename_i hread
      rw [if_neg hread]
      cases hrewind : Int2e.preceding_direct_syscall e.process.memory (gregs Int2e.REG_RIP) with
      | some syscall_rip =>
        rw [hrewind] at h
        cases h
      | none =>
        rw [hrewind] at h
        dsimp only at h ⊢
        cases htramp : Int2e.private_syscall_trampoline e.kernel e.process m
            (gregs Int2e.REG_RIP) with
        | mk thunk m' =>
          rw [htramp] at h
          cases thunk with
          | some thunk => cases h
          | none =>
            dsimp only at h ⊢
            cases hpatch : Int2e.patch_to_syscall e.kernel.toAnswers e.process
                (gregs Int2e.REG_RIP) with
            | mk patched p' =>
              rw [hpatch] at h
              cases patched with
              | true => cases h
              | false =>
                dsimp only at h ⊢
                cases hnext : Int2e.next_instruction (gregs Int2e.REG_RIP) with
                | some next_rip =>
                  rw [hnext] at h
                  cases h
                | none =>
                  -- Without a next instruction nothing was patched either.
                  rw [Int2e.patch_at_end hnext] at hpatch
                  exact ⟨rfl, (congrArg Prod.snd hpatch).symm⟩

/-- Any other fault leaves the state as it is, except for a trampoline. One that is forwarded leaves
the thread as it is, and one that is not is an `int 2e`. -/
theorem handler_other (h : f.cpuid e = none) :
    let left := cpuid_sigsegv_handler setup e s f
    (∃ trampolines, left.shared = { s with trampolines := trampolines }
        ∧ (Int2e.Apart s.trampolines → Int2e.Apart trampolines))
      ∧ left.disposition ≠ .exited
      ∧ (left.disposition = .forwarded → left.context = f.context ∧ left.process = e.process)
      ∧ (left.disposition = .returned → ∃ gregs, f.context = some gregs
        ∧ (skip_int2e_fault e.kernel e.process s.trampolines gregs).handled = true
        ∧ left.context = some (skip_int2e_fault e.kernel e.process s.trampolines gregs).gregs
        ∧ left.process = (skip_int2e_fault e.kernel e.process s.trampolines gregs).process) := by
  obtain ⟨si_code, context⟩ := f
  cases si_code with
  | none => exact ⟨⟨s.trampolines, rfl, id⟩, nofun, fun _ => ⟨rfl, rfl⟩, nofun⟩
  | some si_code =>
    cases context with
    | none => exact ⟨⟨s.trampolines, rfl, id⟩, nofun, fun _ => ⟨rfl, rfl⟩, nofun⟩
    | some gregs =>
      have hnot : ¬(gregs REG_TRAPNO = 13 ∧ si_code = SI_KERNEL
          ∧ read_memory e.process.memory (gregs REG_RIP) 2 = some CPUID_INSTRUCTION) := by
        intro hall
        unfold Fault.cpuid at h
        dsimp only at h
        rw [if_pos hall] at h
        cases h
      have hrefused := skip_refused e s.trampolines gregs
      have hapart : Int2e.Apart s.trampolines →
          Int2e.Apart (skip_int2e_fault e.kernel e.process s.trampolines gregs).mem := fun ha =>
        (Int2e.skip_int2e_fault_spec e.kernel e.process gregs ha).2
      unfold cpuid_sigsegv_handler
      dsimp only
      cases hhandled : (skip_int2e_fault e.kernel e.process s.trampolines gregs).handled with
      | true =>
        exact ⟨⟨_, rfl, hapart⟩, nofun, nofun, fun _ => ⟨gregs, rfl, hhandled, rfl, rfl⟩⟩
      | false =>
        obtain ⟨hgregs, hprocess⟩ := hrefused hhandled
        rw [hgregs, hprocess, if_neg Bool.false_ne_true]
        split
        · exact ⟨⟨_, rfl, hapart⟩, nofun, fun _ => ⟨rfl, rfl⟩, nofun⟩
        · rename_i hfault
          rw [not_not] at hfault
          rw [if_pos fun hread => hnot ⟨hfault.1, hfault.2, hread⟩]
          exact ⟨⟨_, rfl, hapart⟩, nofun, fun _ => ⟨rfl, rfl⟩, nofun⟩

/-- What the runtime sees of a fault. -/
def FaultSeen (x : Surroundings × Fault) (es : List RuntimeEvent) : Prop :=
  match x.2.cpuid x.1 with
  | some gregs => Seen x.1 gregs es
  | none => es = []

theorem handler_spec :
    (∃ es, FaultSeen (e, f) es
        ∧ (cpuid_sigsegv_handler setup e s f).shared.runtime = (s.runtime.run setup es).1)
      ∧ OneWay s (cpuid_sigsegv_handler setup e s f).shared := by
  unfold FaultSeen
  dsimp only
  cases hcpuid : f.cpuid e with
  | some gregs =>
    rw [handler_cpuid setup e s f hcpuid]
    exact reply_to_spec setup e s gregs
  | none =>
    obtain ⟨⟨trampolines, heq, hapart⟩, -⟩ := handler_other setup e s f hcpuid
    rw [heq]
    exact ⟨⟨[], rfl, rfl⟩, rfl, rfl, id, id, id, fun _ => rfl, hapart⟩

/-- The registers that a CPUID writes. -/
def written : List ℕ := [REG_RAX, REG_RBX, REG_RCX, REG_RDX, REG_RIP]

omit setup e s f in
theorem answered_spec (gregs : Gregs) (reply : Registers) :
    answered gregs reply REG_RAX = reply.eax.toUInt64
      ∧ answered gregs reply REG_RBX = reply.ebx.toUInt64
      ∧ answered gregs reply REG_RCX = reply.ecx.toUInt64
      ∧ answered gregs reply REG_RDX = reply.edx.toUInt64
      ∧ answered gregs reply REG_RIP = gregs REG_RIP + 2
      ∧ ∀ reg, reg ∉ written → answered gregs reply reg = gregs reg := by
  unfold answered
  refine ⟨rfl, rfl, rfl, rfl, rfl, fun reg hreg => ?_⟩
  simp only [written, List.mem_cons, List.not_mem_nil, or_false, not_or] at hreg
  obtain ⟨hrax, hrbx, hrcx, hrdx, hrip⟩ := hreg
  rw [Function.update_of_ne hrip, Function.update_of_ne hrdx, Function.update_of_ne hrcx,
    Function.update_of_ne hrbx, Function.update_of_ne hrax]

end Handler

/-! ## Runs -/

theorem runtime_run_append (setup : Kuser.Setup) (rt : Runtime) (es es' : List RuntimeEvent) :
    (rt.run setup (es ++ es')).1 = (((rt.run setup es).1).run setup es').1 := by
  induction es generalizing rt with
  | nil => rfl
  | cons e es ih => exact ih _

theorem run_oneWay (setup : Kuser.Setup) (s : Shared) (faults : List (Surroundings × Fault)) :
    OneWay s (run setup s faults) := by
  induction faults generalizing s with
  | nil => exact .refl s
  | cons x faults ih =>
    have hone := (handler_spec setup x.1 s x.2).2
    exact hone.trans (ih _)

/-- **Faults are control leaves.** However faults follow one another, the runtime goes through a run
of its own: a CPUID that is neither Wine's nor about the identity is a leaf there, one about the
identity selects the old presentation or is not seen, and nothing else is seen. -/
theorem handler_runs_are_runtime_runs (setup : Kuser.Setup) (s : Shared)
    (faults : List (Surroundings × Fault)) :
    ∃ events, List.Forall₂ FaultSeen faults events
      ∧ (run setup s faults).runtime = (s.runtime.run setup events.flatten).1 := by
  induction faults generalizing s with
  | nil => exact ⟨[], .nil, rfl⟩
  | cons x faults ih =>
    obtain ⟨⟨es, hseen, hone⟩, -⟩ := handler_spec setup x.1 s x.2
    obtain ⟨events, hall, hrun⟩ := ih (cpuid_sigsegv_handler setup x.1 s x.2).shared
    refine ⟨es :: events, .cons hseen hall, ?_⟩
    change (run setup (cpuid_sigsegv_handler setup x.1 s x.2).shared faults).runtime = _
    rw [hrun, hone, List.flatten_cons, runtime_run_append]

/-! ## Every fault -/

/-- What becomes of a fault. -/
structure Disposed (e : Surroundings) (s : Shared) (f : Fault) (left : Left) : Prop where
  /-- A CPUID writes four registers of 32 bits and goes on behind the instruction. -/
  cpuid : ∀ gregs, f.cpuid e = some gregs → left.disposition ≠ .forwarded
    ∧ left.process = e.process ∧ ∃ (reply : Registers) (gregs' : Gregs), left.context = some gregs'
      ∧ gregs' REG_RAX = reply.eax.toUInt64 ∧ gregs' REG_RBX = reply.ebx.toUInt64
      ∧ gregs' REG_RCX = reply.ecx.toUInt64 ∧ gregs' REG_RDX = reply.edx.toUInt64
      ∧ gregs' REG_RIP = gregs REG_RIP + 2 ∧ ∀ reg, reg ∉ written → gregs' reg = gregs reg
  /-- An `int 2e` is resumed. -/
  int2e : f.cpuid e = none → left.disposition = .returned →
    ∃ gregs handled, f.context = some gregs ∧ handled.handled = true
      ∧ Int2e.Resumes e.kernel e.process s.trampolines gregs handled
      ∧ left.context = some handled.gregs ∧ left.process = handled.process
  /-- Anything else is forwarded as it came. -/
  forwarded : left.disposition = .forwarded →
    f.cpuid e = none ∧ left.context = f.context ∧ left.process = e.process
  /-- The process ends at a CPUID, where the next one could not be trapped. -/
  exited : left.disposition = .exited →
    (∃ gregs, f.cpuid e = some gregs) ∧ (s.natives.exited = true ∨ e.rearms = false)

theorem apart_run (setup : Kuser.Setup) (page : Kuser.Page)
    (faults : List (Surroundings × Fault)) :
    Int2e.Apart (run setup (.new page) faults).trampolines :=
  (run_oneWay setup (.new page) faults).apart fun _ hne => absurd rfl hne

/-- A fault sets the flag only where the kernel refuses to trap CPUID again. -/
theorem handler_exited {setup : Kuser.Setup} {e : Surroundings} {s : Shared} {f : Fault}
    (h : (cpuid_sigsegv_handler setup e s f).shared.natives.exited = true) :
    s.natives.exited = true ∨ e.rearms = false := by
  cases hcpuid : f.cpuid e with
  | some gregs =>
    rw [handler_cpuid setup e s f hcpuid] at h
    exact reply_to_exited setup e s gregs h
  | none =>
    obtain ⟨⟨trampolines, hshared, -⟩, -⟩ := handler_other setup e s f hcpuid
    rw [hshared] at h
    exact Or.inl h

/-- The flag is set by a refusal at one of the faults. -/
theorem run_exited (setup : Kuser.Setup) (page : Kuser.Page)
    (faults : List (Surroundings × Fault))
    (h : (run setup (.new page) faults).natives.exited = true) :
    ∃ x ∈ faults, x.1.rearms = false := by
  induction faults using List.reverseRecOn with
  | nil => cases h
  | append_singleton faults x ih =>
    rw [run, List.foldl_append] at h
    rcases handler_exited h with hbefore | hrefused
    · obtain ⟨y, hy, hrefused⟩ := ih hbefore
      exact ⟨y, List.mem_append_left [x] hy, hrefused⟩
    · exact ⟨x, List.mem_append_right faults (List.mem_singleton_self x), hrefused⟩

/-- What becomes of one fault. -/
theorem handler_disposes (setup : Kuser.Setup) (e : Surroundings) (s : Shared) (f : Fault)
    (hapart : Int2e.Apart s.trampolines) : Disposed e s f (cpuid_sigsegv_handler setup e s f) := by
  cases hcpuid : f.cpuid e with
  | some gregs =>
    rw [handler_cpuid setup e s f hcpuid]
    refine ⟨fun gregs' heq => ?_, fun hnone => ?_, fun hforwarded => ?_, fun hexited => ?_⟩
    · rw [hcpuid] at heq
      cases heq
      refine ⟨?_, rfl, (reply_to setup e s gregs).1, _, rfl, answered_spec _ _⟩
      dsimp only
      split <;> nofun
    · rw [hcpuid] at hnone
      cases hnone
    · dsimp only at hforwarded
      split at hforwarded <;> cases hforwarded
    · refine ⟨⟨gregs, hcpuid⟩, ?_⟩
      dsimp only at hexited
      split at hexited
      · rename_i hflag
        exact reply_to_exited setup e s gregs hflag
      · cases hexited
  | none =>
    obtain ⟨-, hexited, hforwarded, hreturned⟩ := handler_other setup e s f hcpuid
    refine ⟨fun gregs heq => ?_, fun _ h => ?_, fun h => ⟨hcpuid, hforwarded h⟩,
      fun h => absurd h hexited⟩
    · rw [hcpuid] at heq
      cases heq
    · obtain ⟨gregs, hcontext, hhandled, hleft, hprocess⟩ := hreturned h
      exact ⟨gregs, _, hcontext, hhandled,
        (Int2e.skip_int2e_fault_spec e.kernel e.process gregs hapart).1, hleft, hprocess⟩

/-- **Every fault** of a process is a CPUID and answered, or an `int 2e` and resumed, or forwarded
with the thread and its memory as they were. Where the process ends, the kernel has refused to trap
CPUID, at this fault or an earlier one. -/
theorem faults_are_disposed (setup : Kuser.Setup) (page : Kuser.Page)
    (faults : List (Surroundings × Fault)) (e : Surroundings) (f : Fault) :
    let s := run setup (.new page) faults
    let left := cpuid_sigsegv_handler setup e s f
    Disposed e s f left
      ∧ (left.disposition = .exited → e.rearms = false ∨ ∃ x ∈ faults, x.1.rearms = false) := by
  have hdisposed := handler_disposes setup e (run setup (.new page) faults) f
    (apart_run setup page faults)
  refine ⟨hdisposed, fun hexited => ?_⟩
  rcases (hdisposed.exited hexited).2 with hbefore | hrefused
  · exact Or.inr (run_exited setup page faults hbefore)
  · exact Or.inl hrefused

/-! ## What programs are told -/

/-- The reply to an identity leaf, as the state has it: whether leaf 1 says that there is a
hypervisor, and whether it says that there is AVX. -/
structure Told (s : Shared) (leaf : UInt32) (reply : Registers) : Prop where
  presented : ∃ apic, presented s leaf apic = some reply
  hypervisor : leaf = 1 → (reply.ecx &&& Cpuid.HYPERVISOR_PRESENT ≠ 0 ↔
    s.artifact_profile = false ∧ s.runtime.state.resume_identity_unarmed = true)
  avx : leaf = 1 → (reply.ecx &&& Cpuid.AVX ≠ 0 ↔
    s.artifact_profile = false ∧ (s.identity.presentation = .Legacy
      ∨ s.identity.vendor ≠ .Unknown ∧ s.identity.avx_enabled = true))

/-- Leaf 1 of the artifact profile is its own. -/
theorem table_of_artifact {s : Shared} (h : s.artifact_profile = true) :
    ∃ reply, artifact_reply s.identity.vendor 1 = some reply ∧ s.table 1 = some reply := by
  unfold Shared.table
  rw [if_pos h]
  unfold Shared.artifact_profile at h
  cases hvendor : s.identity.vendor with
  | Unknown =>
    rw [hvendor, Bool.and_eq_true] at h
    cases h.2
  | Intel => exact ⟨_, rfl, rfl⟩
  | Amd => exact ⟨_, rfl, rfl⟩

theorem told_of_presented {s : Shared} {leaf apic : UInt32} {reply : Registers}
    (h : presented s leaf apic = some reply) : Told s leaf reply := by
  have hbits : leaf = 1 → (reply.ecx &&& Cpuid.HYPERVISOR_PRESENT ≠ 0 ↔
      s.artifact_profile = false ∧ s.runtime.state.resume_identity_unarmed = true)
      ∧ (reply.ecx &&& Cpuid.AVX ≠ 0 ↔ s.artifact_profile = false
        ∧ (s.identity.presentation = .Legacy
          ∨ s.identity.vendor ≠ .Unknown ∧ s.identity.avx_enabled = true)) := by
    rintro rfl
    unfold presented at h
    cases hprofile : s.artifact_profile with
    | true =>
      obtain ⟨entry, hartifact, htable⟩ := table_of_artifact hprofile
      obtain ⟨hhypervisor, havx⟩ := Cpuid.artifact_leaf1_ecx hartifact
      rw [htable, Option.map_some, if_pos rfl, if_pos hprofile] at h
      cases h
      exact ⟨iff_of_false (not_not.mpr hhypervisor) nofun,
        iff_of_false (not_not.mpr havx) nofun⟩
    | false =>
      have htable : s.table 1 = some s.identity.leaf1 := by
        unfold Shared.table
        rw [hprofile]
        rfl
      obtain ⟨hhypervisor, havx⟩ := Cpuid.leaf1_ecx s.identity
      rw [htable, Option.map_some, if_pos rfl, hprofile, if_neg Bool.false_ne_true] at h
      cases hunarmed : s.runtime.state.resume_identity_unarmed with
      | true =>
        rw [hunarmed, if_pos rfl] at h
        cases h
        -- The bit that is set is not the one of AVX.
        have hdistrib : ∀ mask : UInt32,
            (s.identity.leaf1.ecx ||| Cpuid.HYPERVISOR_PRESENT) &&& mask
              = s.identity.leaf1.ecx &&& mask ||| Cpuid.HYPERVISOR_PRESENT &&& mask :=
          fun mask => UInt32.toBitVec_inj.mp BitVec.and_or_distrib_right
        dsimp only
        rw [hdistrib, hdistrib, hhypervisor]
        refine ⟨iff_of_true (by decide) ⟨rfl, rfl⟩, ?_⟩
        change s.identity.leaf1.ecx &&& Cpuid.AVX ||| 0 ≠ 0 ↔ _
        rw [UInt32.or_zero, havx]
        exact ⟨fun h => ⟨rfl, h⟩, And.right⟩
      | false =>
        rw [hunarmed, if_neg Bool.false_ne_true] at h
        cases h
        exact ⟨iff_of_false (not_not.mpr hhypervisor) fun h => Bool.false_ne_true h.2,
          havx.trans ⟨fun h => ⟨rfl, h⟩, And.right⟩⟩
  exact ⟨⟨apic, h⟩, fun hleaf => (hbits hleaf).1, fun hleaf => (hbits hleaf).2⟩

/-- **The CPU that is shown changes one way.** After any faults, a CPUID about the identity is
answered as the state says that it leaves, where the host's part of the identity is what it was, and
the old presentation, the artifact profile and the Reflex image stay once they are there. -/
theorem identity_is_one_way (setup : Kuser.Setup) (s : Shared)
    (faults : List (Surroundings × Fault)) (e : Surroundings) (f : Fault) {gregs : Gregs}
    (hcpuid : f.cpuid e = some gregs) (htable : OfTable gregs) :
    let left := cpuid_sigsegv_handler setup e (run setup s faults) f
    OneWay s left.shared ∧ ∃ reply, left.context = some (answered gregs reply)
      ∧ Told left.shared (leaf_of gregs) reply := by
  have hrun := run_oneWay setup s faults
  have hone := (handler_spec setup e (run setup s faults) f).2
  refine ⟨hrun.trans hone, ?_⟩
  rw [handler_cpuid setup e _ f hcpuid]
  obtain ⟨reply, hreply, heq⟩ := reply_to_table setup e (run setup s faults) gregs htable
  obtain ⟨⟨apic, hpresented⟩, natives, hnatives⟩ := profile_reply_spec e
    (select_profiles e (registered e (run setup s faults) gregs) (leaf_of gregs)
      (some (gregs REG_RIP))) (leaf_of gregs)
  rw [hreply] at hpresented hnatives
  dsimp only at hpresented hnatives ⊢
  refine ⟨reply, by rw [heq], ?_⟩
  rw [hnatives]
  exact told_of_presented hpresented.symm

/-- A process of CPUID instructions, and a kernel that allows nothing. -/
def cpuid_everywhere : Surroundings where
  kernel := ⟨⟨none, false, false, false⟩, none, false⟩
  process := ⟨fun address => if address % 2 = 0 then 0x0f else 0xa2,
    fun _ => some ⟨true, false, true⟩⟩
  generation := 1
  now := 0
  cpuid _ _ := .zero
  enables := true
  rearms := true
  answers := ⟨false, false, false, (false, false), false⟩

/-- The registers at a CPUID of leaf 1. -/
def leaf1_gregs : Gregs := fun reg =>
  if reg = REG_TRAPNO then 13 else if reg = REG_RIP then 0x1000 else 1

/-- The second CPUID of a process. -/
theorem identity_is_one_way_leaf1 :
    let s := Shared.new fun _ => 0
    let f : Fault := ⟨some SI_KERNEL, some leaf1_gregs⟩
    let left := cpuid_sigsegv_handler ⟨true, true, true⟩ cpuid_everywhere
      (run ⟨true, true, true⟩ s [(cpuid_everywhere, f)]) f
    OneWay s left.shared ∧ ∃ reply, left.context = some (answered leaf1_gregs reply)
      ∧ Told left.shared 1 reply :=
  identity_is_one_way ⟨true, true, true⟩ (.new fun _ => 0)
    [(cpuid_everywhere, ⟨some SI_KERNEL, some leaf1_gregs⟩)] cpuid_everywhere
    ⟨some SI_KERNEL, some leaf1_gregs⟩ (by
      unfold Fault.cpuid
      exact if_pos ⟨rfl, rfl, by decide +kernel⟩) ⟨rfl, rfl⟩

end Linuwux.CpuidHandler
