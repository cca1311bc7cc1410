/-
`NativeCache.lean` -- `native_reply` of `runtime/src/cpuid.rs` and `NATIVE_CACHE`, on several cores.

What CPUID answers depends on the core it runs on. `native_reply` keeps the answers of most
leaves for good, and the artifact profile takes the APIC id of its leaf 1 from there. The cache
only grows and an entry is never changed, so a reply is always what some core has answered
([`reply_of_core`]); it is the answer of the core that asks exactly if the leaves that are kept do
not differ between cores ([`native_cache_iff`]). Leaf 1 does, by the APIC id.

A step runs on the core of its choice, so threads migrate at will. `ran` collects the cores a
request has been on; the program does not read it.
-/
import Linuwux.CpuIdentity
import Linuwux.Threads

set_option autoImplicit false

namespace Linuwux.NativeCache

variable {T Core : Type*}

open Cpuid (Vendor)
open Threads (Program Config Outcome run trace Completes)

structure Registers where
  eax : UInt32
  ebx : UInt32
  ecx : UInt32
  edx : UInt32
  deriving DecidableEq, Repr

/-- `Registers::default`. -/
def Registers.zero : Registers := ⟨0, 0, 0, 0⟩

def NATIVE_CACHE_CAP : ℕ := 32

def leaf_varies_per_core (leaf : UInt32) : Bool := leaf = 0xb || leaf = 0x1f

/-- The key of `lookup` and `insert`. -/
def key (leaf subleaf : UInt32) : UInt64 := leaf.toUInt64 <<< 32 ||| subleaf.toUInt64

/-! ## The artifact profile -/

def artifact_amd_reply (leaf : UInt32) : Option Registers :=
  if leaf = 1 then some ⟨0x00a20f12, 0x00100800, 0x00f8220b, 0x178bfbff⟩
  else if leaf = 0x80000002 then some ⟨0x32304744, 0x42545253, 0x464d3450, 0x20202041⟩
  else if leaf = 0x80000003 then some ⟨0x20202020, 0x20202020, 0x20202020, 0x20202020⟩
  else if leaf = 0x80000004 then some ⟨0x20202020, 0x20202020, 0x20202020, 0x00202020⟩
  else none

def artifact_intel_reply (leaf : UInt32) : Option Registers :=
  if leaf = 1 then some ⟨0x000a0655, 0x00200800, 0x01faebff, 0xbfebfbff⟩
  else if leaf = 0x80000002 then some ⟨0x65746e49, 0x2952286c, 0x6e655020, 0x6d756974⟩
  else if leaf = 0x80000003 then some ⟨0x20295228, 0x20555043, 0x35323434, 0x20402059⟩
  else if leaf = 0x80000004 then some ⟨0x30372e31, 0x007a4847, 0, 0⟩
  else none

def artifact_reply (vendor : Vendor) (leaf : UInt32) : Option Registers :=
  match vendor with
  | .Intel => artifact_intel_reply leaf
  | .Amd => artifact_amd_reply leaf
  | .Unknown => none

/-- The byte of the initial APIC id in `ebx` of leaf 1. -/
def APIC_ID : UInt32 := 0xff000000

def with_native_apic_id (reply : Registers) (native_ebx : UInt32) : Registers :=
  { reply with ebx := reply.ebx ||| (native_ebx &&& APIC_ID) }

/-- A vendor with an artifact profile, and its reply for leaf 1. -/
structure Profile where
  vendor : Vendor
  reply : Registers
  is_reply : artifact_reply vendor 1 = some reply

/-- `native_reply(leaf, subleaf)`, or the branch of `fixed_reply` for leaf 1 of a profile. -/
inductive Request where
  | native (leaf subleaf : UInt32)
  | artifact (profile : Profile)

def Request.leaf : Request → UInt32
  | .native leaf _ => leaf
  | .artifact _ => 1

def Request.subleaf : Request → UInt32
  | .native _ subleaf => subleaf
  | .artifact _ => 0

def Request.key (request : Request) : UInt64 := NativeCache.key request.leaf request.subleaf

/-- What is made of the answer of `native_reply`. -/
def Request.answer : Request → Registers → Registers
  | .native _ _, regs => regs
  | .artifact profile, regs => with_native_apic_id profile.reply regs.ebx

/-! ## The program -/

structure Mem where
  lock : Bool
  len : UInt32
  keys : ℕ → UInt64
  eax : ℕ → UInt32
  ebx : ℕ → UInt32
  ecx : ℕ → UInt32
  edx : ℕ → UInt32
  /-- The process is gone. -/
  exited : Bool

/-- `NativeCache::new`. -/
def Mem.new : Mem :=
  ⟨false, 0, fun _ => 0, fun _ => 0, fun _ => 0, fun _ => 0, fun _ => 0, false⟩

/-- The core a step runs on, what an idle thread is asked for, and whether `arch_prctl`
succeeds. -/
structure Choice (Core : Type*) where
  core : Core
  request : Request
  succeeds : Bool

/-- The request is answered, having been on these cores. -/
structure Event (Core : Type*) where
  request : Request
  reply : Registers
  ran : List Core

/-- The access, system call or CPUID that `native_reply`, `lookup` or `insert` is about to
make. -/
inductive Pc where
  | idle
  | load_len (r : Request)
  | load_key (r : Request) (len index : ℕ)
  | load_eax (r : Request) (index : ℕ)
  | load_ebx (r : Request) (index : ℕ) (eax : UInt32)
  | load_ecx (r : Request) (index : ℕ) (eax ebx : UInt32)
  | load_edx (r : Request) (index : ℕ) (eax ebx ecx : UInt32)
  | enable (r : Request)
  | cpuid (r : Request)
  | rearm (r : Request) (regs : Registers)
  | acquire (r : Request) (regs : Registers)
  | load_own_len (r : Request) (regs : Registers)
  | store_key (r : Request) (regs : Registers) (len : ℕ)
  | store_eax (r : Request) (regs : Registers) (len : ℕ)
  | store_ebx (r : Request) (regs : Registers) (len : ℕ)
  | store_ecx (r : Request) (regs : Registers) (len : ℕ)
  | store_edx (r : Request) (regs : Registers) (len : ℕ)
  | store_len (r : Request) (regs : Registers) (len : ℕ)
  | release (r : Request) (regs : Registers)
  | reply (r : Request) (regs : Registers)

/-- The loop of `lookup` from `index` on. -/
def Pc.look (r : Request) (len index : ℕ) : Pc :=
  if index < len then .load_key r len index else .enable r

/-- Where `native_reply` begins. -/
def Pc.begin (r : Request) : Pc :=
  if leaf_varies_per_core r.leaf then .enable r else .load_len r

/-- A step between the call and the return, on core `a.core` of hardware `h`. -/
def advance (h : Core → UInt32 → UInt32 → Registers) (a : Choice Core) (m : Mem) :
    Pc → Mem × Pc
  | .idle => (m, .idle)
  | .load_len r => (m, .look r (min m.len.toNat NATIVE_CACHE_CAP) 0)
  | .load_key r len index =>
    if m.keys index = r.key then (m, .load_eax r index) else (m, .look r len (index + 1))
  | .load_eax r index => (m, .load_ebx r index (m.eax index))
  | .load_ebx r index eax => (m, .load_ecx r index eax (m.ebx index))
  | .load_ecx r index eax ebx => (m, .load_edx r index eax ebx (m.ecx index))
  | .load_edx r index eax ebx ecx => (m, .reply r ⟨eax, ebx, ecx, m.edx index⟩)
  | .enable r => if a.succeeds then (m, .cpuid r) else (m, .reply r .zero)
  | .cpuid r => (m, .rearm r (h a.core r.leaf r.subleaf))
  | .rearm r regs =>
    if a.succeeds then
      if leaf_varies_per_core r.leaf then (m, .reply r regs) else (m, .acquire r regs)
    else ({ m with exited := true }, .idle)
  | .acquire r regs =>
    if m.lock then (m, .acquire r regs) else ({ m with lock := true }, .load_own_len r regs)
  | .load_own_len r regs =>
    if m.len.toNat < NATIVE_CACHE_CAP then (m, .store_key r regs m.len.toNat)
    else (m, .release r regs)
  | .store_key r regs len =>
    ({ m with keys := Function.update m.keys len r.key }, .store_eax r regs len)
  | .store_eax r regs len =>
    ({ m with eax := Function.update m.eax len regs.eax }, .store_ebx r regs len)
  | .store_ebx r regs len =>
    ({ m with ebx := Function.update m.ebx len regs.ebx }, .store_ecx r regs len)
  | .store_ecx r regs len =>
    ({ m with ecx := Function.update m.ecx len regs.ecx }, .store_edx r regs len)
  | .store_edx r regs len =>
    ({ m with edx := Function.update m.edx len regs.edx }, .store_len r regs len)
  | .store_len r regs len => ({ m with len := .ofNat (len + 1) }, .release r regs)
  | .release r regs => ({ m with lock := false }, .reply r regs)
  | .reply r regs => (m, .reply r regs)

/-- Where a thread is, and which cores its request has been on. -/
structure Loc (Core : Type*) where
  pc : Pc
  ran : List Core

def program (T : Type*) (h : Core → UInt32 → UInt32 → Registers) :
    Program T (Choice Core) Mem (Loc Core) (Event Core) := fun _ a m l =>
  if m.exited then ⟨m, l, []⟩
  else
    match l.pc with
    | .idle => ⟨m, ⟨.begin a.request, [a.core]⟩, []⟩
    | .reply r regs => ⟨m, ⟨.idle, []⟩, [⟨r, r.answer regs, a.core :: l.ran⟩]⟩
    | pc => ⟨(advance h a m pc).1, ⟨(advance h a m pc).2, a.core :: l.ran⟩, []⟩

def start (T Core : Type*) : Config T Mem (Loc Core) := ⟨.new, fun _ => ⟨.idle, []⟩⟩

/-! ## What is asked of a reply -/

/-- The reply is what one of the cores that the request has been on answers; for a profile, its
APIC id is. -/
def Event.Right (h : Core → UInt32 → UInt32 → Registers) (e : Event Core) : Prop :=
  ∃ core ∈ e.ran, match e.request with
    | .native leaf subleaf => e.reply = h core leaf subleaf
    | .artifact _ => e.reply.ebx &&& APIC_ID = (h core 1 0).ebx &&& APIC_ID

instance (h : Core → UInt32 → UInt32 → Registers) (e : Event Core) : Decidable (e.Right h) :=
  match e with
  | ⟨.native leaf subleaf, reply, ran⟩ =>
    inferInstanceAs (Decidable (∃ core ∈ ran, reply = h core leaf subleaf))
  | ⟨.artifact _, reply, ran⟩ =>
    inferInstanceAs (Decidable (∃ core ∈ ran,
      reply.ebx &&& APIC_ID = (h core 1 0).ebx &&& APIC_ID))

/-- The leaves that are kept do not differ between cores. -/
def Alike (h : Core → UInt32 → UInt32 → Registers) : Prop :=
  ∀ leaf subleaf, leaf_varies_per_core leaf = false → ∀ c c', h c leaf subleaf = h c' leaf subleaf

/-! ## Keys and bytes -/

theorem toNat_key (leaf subleaf : UInt32) :
    (key leaf subleaf).toNat = leaf.toNat * 2 ^ 32 + subleaf.toNat := by
  have hleaf := leaf.toNat_lt
  have hsub := subleaf.toNat_lt
  unfold key
  rw [UInt64.toNat_or, UInt64.toNat_shiftLeft, UInt32.toNat_toUInt64, UInt32.toNat_toUInt64]
  change (leaf.toNat <<< 32 % 2 ^ 64) ||| subleaf.toNat = _
  rw [Nat.shiftLeft_eq, Nat.mod_eq_of_lt (by omega), Nat.mul_comm,
    ← Nat.two_pow_add_eq_or_of_lt hsub]

/-- A key is a leaf and a subleaf. -/
theorem key_inj {leaf subleaf leaf' subleaf' : UInt32} (h : key leaf subleaf = key leaf' subleaf') :
    leaf = leaf' ∧ subleaf = subleaf' := by
  have hnat := congrArg UInt64.toNat h
  rw [toNat_key, toNat_key] at hnat
  have hsub := subleaf.toNat_lt
  have hsub' := subleaf'.toNat_lt
  rw [← UInt32.toNat_inj, ← UInt32.toNat_inj]
  omega

/-- The replies of the profiles have no APIC id of their own. -/
theorem Profile.no_apic_id (p : Profile) : p.reply.ebx &&& APIC_ID = 0 := by
  obtain ⟨vendor, reply, hreply⟩ := p
  cases vendor with
  | Unknown => cases hreply
  | Intel =>
    cases hreply
    decide
  | Amd =>
    cases hreply
    decide

/-- `with_native_apic_id` leaves them the native one. -/
theorem apic_id_of_profile (p : Profile) (native_ebx : UInt32) :
    (with_native_apic_id p.reply native_ebx).ebx &&& APIC_ID = native_ebx &&& APIC_ID := by
  have hnone := congrArg UInt32.toBitVec p.no_apic_id
  rw [UInt32.toBitVec_and] at hnone
  rw [← UInt32.toBitVec_inj, with_native_apic_id, UInt32.toBitVec_and, UInt32.toBitVec_or,
    UInt32.toBitVec_and, BitVec.and_or_distrib_right, hnone, BitVec.and_assoc, BitVec.and_self]
  exact BitVec.zero_or

/-! ## What holds of the cache -/

def registers (m : Mem) (index : ℕ) : Registers :=
  ⟨m.eax index, m.ebx index, m.ecx index, m.edx index⟩

/-- An entry is what some core has answered. -/
def Entry (h : Core → UInt32 → UInt32 → Registers) (m : Mem) (index : ℕ) : Prop :=
  ∃ core leaf subleaf, m.keys index = key leaf subleaf ∧ registers m index = h core leaf subleaf

/-- What `native_reply` gives is what some core has answered, and where it is not from the cache,
a core that the request has been on. -/
def Answer (h : Core → UInt32 → UInt32 → Registers) (ran : List Core) (r : Request)
    (regs : Registers) : Prop :=
  ∃ core, regs = h core r.leaf r.subleaf ∧ (leaf_varies_per_core r.leaf → core ∈ ran)

theorem Answer.mono {h : Core → UInt32 → UInt32 → Registers} {ran : List Core} {r : Request}
    {regs : Registers} (ha : Answer h ran r regs) (core : Core) :
    Answer h (core :: ran) r regs := by
  obtain ⟨c, hregs, hran⟩ := ha
  exact ⟨c, hregs, fun hv => List.mem_cons_of_mem _ (hran hv)⟩

/-- The entry has the key of the request. -/
def Hit (m : Mem) (r : Request) (index : ℕ) : Prop :=
  leaf_varies_per_core r.leaf = false ∧ index < m.len.toNat ∧ m.keys index = r.key

/-- The thread holds the lock and writes the entry behind the last one. -/
def Appending (m : Mem) (len : ℕ) : Prop := len = m.len.toNat ∧ len < NATIVE_CACHE_CAP

/-- Between the exchange that takes the lock and the store that gives it back. -/
def Pc.holds : Pc → Bool
  | .load_own_len _ _ | .store_key _ _ _ | .store_eax _ _ _ | .store_ebx _ _ _
  | .store_ecx _ _ _ | .store_edx _ _ _ | .store_len _ _ _ | .release _ _ => true
  | _ => false

/-- What a thread may rely on. -/
def Pc.Assumes (h : Core → UInt32 → UInt32 → Registers) (m : Mem) (ran : List Core) : Pc → Prop
  | .idle | .enable _ | .cpuid _ => True
  | .load_len r => leaf_varies_per_core r.leaf = false
  | .load_key r len index =>
    leaf_varies_per_core r.leaf = false ∧ len ≤ m.len.toNat ∧ index < len
  | .load_eax r index => Hit m r index
  | .load_ebx r index eax => Hit m r index ∧ m.eax index = eax
  | .load_ecx r index eax ebx => Hit m r index ∧ m.eax index = eax ∧ m.ebx index = ebx
  | .load_edx r index eax ebx ecx =>
    Hit m r index ∧ m.eax index = eax ∧ m.ebx index = ebx ∧ m.ecx index = ecx
  | .rearm r regs | .acquire r regs | .load_own_len r regs | .release r regs | .reply r regs =>
    Answer h ran r regs
  | .store_key r regs len => Answer h ran r regs ∧ Appending m len
  | .store_eax r regs len => Answer h ran r regs ∧ Appending m len ∧ m.keys len = r.key
  | .store_ebx r regs len =>
    Answer h ran r regs ∧ Appending m len ∧ m.keys len = r.key ∧ m.eax len = regs.eax
  | .store_ecx r regs len =>
    Answer h ran r regs ∧ Appending m len ∧ m.keys len = r.key ∧ m.eax len = regs.eax
      ∧ m.ebx len = regs.ebx
  | .store_edx r regs len =>
    Answer h ran r regs ∧ Appending m len ∧ m.keys len = r.key ∧ m.eax len = regs.eax
      ∧ m.ebx len = regs.ebx ∧ m.ecx len = regs.ecx
  | .store_len r regs len =>
    Answer h ran r regs ∧ Appending m len ∧ m.keys len = r.key ∧ registers m len = regs

structure Inv (h : Core → UInt32 → UInt32 → Registers) (c : Config T Mem (Loc Core)) : Prop where
  lock : Threads.Exclusive Mem.lock (fun l => l.pc.holds) c
  len : c.mem.len.toNat ≤ NATIVE_CACHE_CAP
  entries : ∀ i < c.mem.len.toNat, Entry h c.mem i
  assumes : ∀ t, (c.loc t).pc.Assumes h c.mem (c.loc t).ran

/-! ## What one step changes -/

/-- Entries that are there stay as they are. -/
structure Grows (m m' : Mem) : Prop where
  len : m.len.toNat ≤ m'.len.toNat
  keys : ∀ i < m.len.toNat, m'.keys i = m.keys i
  registers : ∀ i < m.len.toNat, registers m' i = registers m i

/-- The entries are the same, also the one that is being written. -/
structure Same (m m' : Mem) : Prop where
  len : m'.len = m.len
  keys : m'.keys = m.keys
  registers : ∀ i, registers m' i = registers m i

theorem Same.refl (m : Mem) : Same m m := ⟨rfl, rfl, fun _ => rfl⟩

theorem Same.grows {m m' : Mem} (h : Same m m') : Grows m m' where
  len := by rw [h.len]
  keys i _ := by rw [h.keys]
  registers i _ := h.registers i

section Same

variable {m m' : Mem} {i : ℕ}

theorem eax_of_registers (h : registers m' i = registers m i) : m'.eax i = m.eax i :=
  congrArg Registers.eax h

theorem ebx_of_registers (h : registers m' i = registers m i) : m'.ebx i = m.ebx i :=
  congrArg Registers.ebx h

theorem ecx_of_registers (h : registers m' i = registers m i) : m'.ecx i = m.ecx i :=
  congrArg Registers.ecx h

end Same

theorem Hit.grows {m m' : Mem} {r : Request} {index : ℕ} (h : Hit m r index) (hg : Grows m m') :
    Hit m' r index :=
  ⟨h.1, h.2.1.trans_le hg.len, (hg.keys index h.2.1).trans h.2.2⟩

theorem Appending.same {m m' : Mem} {len : ℕ} (h : Appending m len) (hs : Same m m') :
    Appending m' len := ⟨by rw [hs.len]; exact h.1, h.2⟩

/-- What a thread relies on survives the step of another one. -/
theorem Pc.Assumes.other {h : Core → UInt32 → UInt32 → Registers} {m m' : Mem} {ran : List Core}
    {pc : Pc} (ha : pc.Assumes h m ran) (hg : Grows m m') (hs : pc.holds → Same m m') :
    pc.Assumes h m' ran := by
  have hkey {len : ℕ} {k : UInt64} (hpc : pc.holds) (hk : m.keys len = k) : m'.keys len = k := by
    rw [(hs hpc).keys]
    exact hk
  cases pc with
  | load_key r len index => exact ⟨ha.1, ha.2.1.trans hg.len, ha.2.2⟩
  | load_eax r index => exact Hit.grows ha hg
  | load_ebx r index eax =>
    obtain ⟨hhit, ha⟩ := ha
    exact ⟨hhit.grows hg, (eax_of_registers (hg.registers index hhit.2.1)).trans ha⟩
  | load_ecx r index eax ebx =>
    obtain ⟨hhit, ha, hb⟩ := ha
    have hregs := hg.registers index hhit.2.1
    exact ⟨hhit.grows hg, (eax_of_registers hregs).trans ha, (ebx_of_registers hregs).trans hb⟩
  | load_edx r index eax ebx ecx =>
    obtain ⟨hhit, ha, hb, hc⟩ := ha
    have hregs := hg.registers index hhit.2.1
    exact ⟨hhit.grows hg, (eax_of_registers hregs).trans ha, (ebx_of_registers hregs).trans hb,
      (ecx_of_registers hregs).trans hc⟩
  | store_key r regs len => exact ⟨ha.1, ha.2.same (hs rfl)⟩
  | store_eax r regs len =>
    obtain ⟨hans, happ, hk⟩ := ha
    exact ⟨hans, happ.same (hs rfl), hkey rfl hk⟩
  | store_ebx r regs len =>
    obtain ⟨hans, happ, hk, ha⟩ := ha
    have hregs := (hs rfl).registers len
    exact ⟨hans, happ.same (hs rfl), hkey rfl hk, (eax_of_registers hregs).trans ha⟩
  | store_ecx r regs len =>
    obtain ⟨hans, happ, hk, ha, hb⟩ := ha
    have hregs := (hs rfl).registers len
    exact ⟨hans, happ.same (hs rfl), hkey rfl hk, (eax_of_registers hregs).trans ha,
      (ebx_of_registers hregs).trans hb⟩
  | store_edx r regs len =>
    obtain ⟨hans, happ, hk, ha, hb, hc⟩ := ha
    have hregs := (hs rfl).registers len
    exact ⟨hans, happ.same (hs rfl), hkey rfl hk, (eax_of_registers hregs).trans ha,
      (ebx_of_registers hregs).trans hb, (ecx_of_registers hregs).trans hc⟩
  | store_len r regs len =>
    obtain ⟨hans, happ, hk, hregs⟩ := ha
    exact ⟨hans, happ.same (hs rfl), hkey rfl hk, ((hs rfl).registers len).trans hregs⟩
  | _ => exact ha

theorem toNat_next_len {len : ℕ} (hcap : len < NATIVE_CACHE_CAP) :
    (UInt32.ofNat (len + 1)).toNat = len + 1 := by
  rw [UInt32.toNat_ofNat']
  change len < 32 at hcap
  omega

section Advance

variable {h : Core → UInt32 → UInt32 → Registers} (a : Choice Core) {m : Mem} {pc : Pc}

theorem advance_same (hpc : pc.holds = false) : Same m (advance h a m pc).1 := by
  cases pc with
  | load_key r len index =>
    unfold advance
    dsimp only
    split <;> exact .refl m
  | enable r =>
    unfold advance
    dsimp only
    split <;> exact .refl m
  | rearm r regs =>
    unfold advance
    dsimp only
    split
    · split <;> exact .refl m
    · exact ⟨rfl, rfl, fun _ => rfl⟩
  | acquire r regs =>
    unfold advance
    dsimp only
    split
    · exact .refl m
    · exact ⟨rfl, rfl, fun _ => rfl⟩
  | _ =>
    first
      | exact Same.refl m
      | cases hpc

/-- Stores behind the last entry leave the entries alone. -/
theorem advance_grows {ran : List Core} (ha : pc.Assumes h m ran) :
    Grows m (advance h a m pc).1 := by
  cases hholds : pc.holds with
  | false => exact (advance_same a hholds).grows
  | true =>
    have hne {len i : ℕ} (happ : Appending m len) (hi : i < m.len.toNat) : i ≠ len := by
      rw [happ.1]
      exact Nat.ne_of_lt hi
    cases pc with
    | load_own_len r regs =>
      unfold advance
      dsimp only
      split <;> exact Same.grows (.refl m)
    | store_key r regs len =>
      exact ⟨Nat.le_refl _, fun i hi => Function.update_of_ne (hne ha.2 hi) .., fun _ _ => rfl⟩
    | store_eax r regs len =>
      refine ⟨Nat.le_refl _, fun _ _ => rfl, fun i hi => ?_⟩
      simp [registers, advance, Function.update_of_ne (hne ha.2.1 hi)]
    | store_ebx r regs len =>
      refine ⟨Nat.le_refl _, fun _ _ => rfl, fun i hi => ?_⟩
      simp [registers, advance, Function.update_of_ne (hne ha.2.1 hi)]
    | store_ecx r regs len =>
      refine ⟨Nat.le_refl _, fun _ _ => rfl, fun i hi => ?_⟩
      simp [registers, advance, Function.update_of_ne (hne ha.2.1 hi)]
    | store_edx r regs len =>
      refine ⟨Nat.le_refl _, fun _ _ => rfl, fun i hi => ?_⟩
      simp [registers, advance, Function.update_of_ne (hne ha.2.1 hi)]
    | store_len r regs len =>
      obtain ⟨-, ⟨hlen, hcap⟩, -⟩ := ha
      refine ⟨?_, fun _ _ => rfl, fun _ _ => rfl⟩
      change m.len.toNat ≤ (UInt32.ofNat (len + 1)).toNat
      rw [toNat_next_len hcap, ← hlen]
      exact Nat.le_succ _
    | release r regs => exact ⟨Nat.le_refl _, fun _ _ => rfl, fun _ _ => rfl⟩
    | _ => cases hholds

/-- The last entry is written when the length comes to include it. -/
theorem advance_entries {ran : List Core} (ha : pc.Assumes h m ran)
    (hlen : m.len.toNat ≤ NATIVE_CACHE_CAP) (hentries : ∀ i < m.len.toNat, Entry h m i) :
    (advance h a m pc).1.len.toNat ≤ NATIVE_CACHE_CAP
      ∧ ∀ i < (advance h a m pc).1.len.toNat, Entry h (advance h a m pc).1 i := by
  have hgrows := advance_grows a ha
  have hold {i : ℕ} (hi : i < m.len.toNat) : Entry h (advance h a m pc).1 i := by
    obtain ⟨core, leaf, subleaf, hkey, hregs⟩ := hentries i hi
    exact ⟨core, leaf, subleaf, (hgrows.keys i hi).trans hkey, (hgrows.registers i hi).trans hregs⟩
  have hsame (hsame : (advance h a m pc).1.len = m.len) :
      (advance h a m pc).1.len.toNat ≤ NATIVE_CACHE_CAP
        ∧ ∀ i < (advance h a m pc).1.len.toNat, Entry h (advance h a m pc).1 i := by
    rw [hsame]
    exact ⟨hlen, fun i hi => hold hi⟩
  cases hholds : pc.holds with
  | false => exact hsame (advance_same a hholds).len
  | true =>
    cases pc with
    | load_own_len r regs =>
      refine hsame ?_
      unfold advance
      dsimp only
      split <;> rfl
    | store_len r regs len =>
      obtain ⟨⟨core, hans, -⟩, ⟨hlast, hcap⟩, hkey, hregs⟩ := ha
      have hnext : (advance h a m (.store_len r regs len)).1.len.toNat = len + 1 :=
        toNat_next_len hcap
      rw [hnext]
      refine ⟨hcap, fun i hi => ?_⟩
      obtain hlt | rfl := Nat.lt_succ_iff_lt_or_eq.mp hi
      · exact hold (by omega)
      · exact ⟨core, r.leaf, r.subleaf, hkey, hregs.trans hans⟩
    | store_key r regs len => exact hsame rfl
    | store_eax r regs len => exact hsame rfl
    | store_ebx r regs len => exact hsame rfl
    | store_ecx r regs len => exact hsame rfl
    | store_edx r regs len => exact hsame rfl
    | release r regs => exact hsame rfl
    | _ => cases hholds

theorem look_assumes {r : Request} (hr : leaf_varies_per_core r.leaf = false) {len index : ℕ}
    (hlen : len ≤ m.len.toNat) (ran : List Core) : (Pc.look r len index).Assumes h m ran := by
  unfold Pc.look
  split
  · rename_i hindex
    exact ⟨hr, hlen, hindex⟩
  · trivial

/-- **One step of a request.** Where `arch_prctl` succeeds, it comes to rely on what is so. -/
theorem advance_assumes {ran : List Core} (ha : pc.Assumes h m ran) (hsucceeds : a.succeeds = true)
    (hentries : ∀ i < m.len.toNat, Entry h m i) :
    (advance h a m pc).2.Assumes h (advance h a m pc).1 (a.core :: ran) := by
  cases pc with
  | idle => trivial
  | load_len r => exact look_assumes ha (Nat.min_le_left _ _) _
  | load_key r len index =>
    obtain ⟨hr, hlen, hindex⟩ := ha
    unfold advance
    dsimp only
    split
    · rename_i hkey
      exact ⟨hr, hindex.trans_le hlen, hkey⟩
    · exact look_assumes hr hlen _
  | load_eax r index => exact ⟨ha, rfl⟩
  | load_ebx r index eax => exact ⟨ha.1, ha.2, rfl⟩
  | load_ecx r index eax ebx => exact ⟨ha.1, ha.2.1, ha.2.2, rfl⟩
  | load_edx r index eax ebx ecx =>
    obtain ⟨⟨hr, hindex, hkey⟩, rfl, rfl, rfl⟩ := ha
    obtain ⟨core, leaf, subleaf, hkey', hregs⟩ := hentries index hindex
    -- The key of the entry is the key of the request, so it is for the same leaf and subleaf.
    obtain ⟨rfl, rfl⟩ := key_inj (hkey'.symm.trans hkey)
    refine ⟨core, hregs, fun hv => ?_⟩
    rw [hr] at hv
    cases hv
  | enable r =>
    have hnext : advance h a m (.enable r) = (m, .cpuid r) := if_pos hsucceeds
    rw [hnext]
    trivial
  | cpuid r => exact ⟨a.core, rfl, fun _ => List.mem_cons_self⟩
  | rearm r regs =>
    have hans : Answer h ran r regs := ha
    unfold advance
    dsimp only
    split
    · split <;> exact hans.mono a.core
    · trivial
  | acquire r regs =>
    have hans : Answer h ran r regs := ha
    unfold advance
    dsimp only
    split <;> exact hans.mono a.core
  | load_own_len r regs =>
    have hans : Answer h ran r regs := ha
    unfold advance
    dsimp only
    split
    · rename_i hcap
      exact ⟨hans.mono a.core, rfl, hcap⟩
    · exact hans.mono a.core
  | store_key r regs len => exact ⟨ha.1.mono a.core, ha.2, Function.update_self ..⟩
  | store_eax r regs len =>
    exact ⟨ha.1.mono a.core, ha.2.1, ha.2.2, Function.update_self ..⟩
  | store_ebx r regs len =>
    obtain ⟨hans, happ, hkey, heax⟩ := ha
    exact ⟨hans.mono a.core, happ, hkey, heax, Function.update_self ..⟩
  | store_ecx r regs len =>
    obtain ⟨hans, happ, hkey, heax, hebx⟩ := ha
    exact ⟨hans.mono a.core, happ, hkey, heax, hebx, Function.update_self ..⟩
  | store_edx r regs len =>
    obtain ⟨hans, happ, hkey, heax, hebx, hecx⟩ := ha
    have hedx : (advance h a m (.store_edx r regs len)).1.edx len = regs.edx :=
      Function.update_self ..
    refine ⟨hans.mono a.core, happ, hkey, ?_⟩
    unfold registers
    rw [hedx]
    change (⟨m.eax len, m.ebx len, m.ecx len, regs.edx⟩ : Registers) = regs
    rw [heax, hebx, hecx]
  | store_len r regs len => exact ha.1.mono a.core
  | release r regs => exact Answer.mono ha a.core
  | reply r regs => exact Answer.mono ha a.core

theorem advance_lock (a : Choice Core) (m : Mem) (pc : Pc) :
    (advance h a m pc).2.holds = pc.holds ∧ (advance h a m pc).1.lock = m.lock
      ∨ m.lock = false ∧ (advance h a m pc).1.lock = true ∧ (advance h a m pc).2.holds = true
      ∨ pc.holds = true ∧ (advance h a m pc).2.holds = false := by
  have hlook (r : Request) (len index : ℕ) : (Pc.look r len index).holds = false := by
    unfold Pc.look
    split <;> rfl
  cases pc with
  | load_len r => exact Or.inl ⟨hlook r _ _, rfl⟩
  | load_key r len index =>
    unfold advance
    dsimp only
    split
    · exact Or.inl ⟨rfl, rfl⟩
    · exact Or.inl ⟨hlook r _ _, rfl⟩
  | enable r =>
    unfold advance
    dsimp only
    split <;> exact Or.inl ⟨rfl, rfl⟩
  | rearm r regs =>
    unfold advance
    dsimp only
    split
    · split <;> exact Or.inl ⟨rfl, rfl⟩
    · exact Or.inl ⟨rfl, rfl⟩
  | acquire r regs =>
    unfold advance
    dsimp only
    split
    · exact Or.inl ⟨rfl, rfl⟩
    · rename_i hfree
      exact Or.inr (Or.inl ⟨Bool.eq_false_iff.mpr hfree, rfl, rfl⟩)
  | load_own_len r regs =>
    unfold advance
    dsimp only
    split <;> exact Or.inl ⟨rfl, rfl⟩
  | release r regs => exact Or.inr (Or.inr ⟨rfl, rfl⟩)
  | _ => exact Or.inl ⟨rfl, rfl⟩

end Advance

/-! ## Runs -/

section Run

variable {h : Core → UInt32 → UInt32 → Registers}

/-- What a step of a thread is: nothing any more, the start of a request, its return, or a step
in between. -/
theorem program_cases (t : T) (a : Choice Core) (m : Mem) (l : Loc Core) :
    program T h t a m l = ⟨m, l, []⟩
      ∨ l.pc = .idle ∧ program T h t a m l = ⟨m, ⟨.begin a.request, [a.core]⟩, []⟩
      ∨ (∃ r regs, l.pc = .reply r regs
        ∧ program T h t a m l = ⟨m, ⟨.idle, []⟩, [⟨r, r.answer regs, a.core :: l.ran⟩]⟩)
      ∨ program T h t a m l
        = ⟨(advance h a m l.pc).1, ⟨(advance h a m l.pc).2, a.core :: l.ran⟩, []⟩ := by
  obtain ⟨pc, ran⟩ := l
  unfold program
  split
  · exact Or.inl rfl
  · cases pc with
    | idle => exact Or.inr (Or.inl ⟨rfl, rfl⟩)
    | reply r regs => exact Or.inr (Or.inr (Or.inl ⟨r, regs, rfl, rfl⟩))
    | _ => exact Or.inr (Or.inr (Or.inr rfl))

theorem begin_assumes (h : Core → UInt32 → UInt32 → Registers) (m : Mem) (ran : List Core)
    (r : Request) : (Pc.begin r).Assumes h m ran ∧ (Pc.begin r).holds = false := by
  unfold Pc.begin
  split
  · exact ⟨trivial, rfl⟩
  · rename_i hr
    exact ⟨Bool.eq_false_iff.mpr hr, rfl⟩

theorem lock_step (t : T) (a : Choice Core) (m : Mem) (l : Loc Core) :
    Threads.LockStep Mem.lock (fun l => l.pc.holds) m l (program T h t a m l) := by
  obtain hstep | ⟨hpc, hstep⟩ | ⟨r, regs, hpc, hstep⟩ | hstep := program_cases (h := h) t a m l
  · rw [hstep]
    exact Or.inl ⟨rfl, rfl⟩
  · rw [hstep]
    refine Or.inl ⟨?_, rfl⟩
    dsimp only
    rw [hpc]
    exact (begin_assumes h m [] a.request).2
  · rw [hstep]
    refine Or.inl ⟨?_, rfl⟩
    dsimp only
    rw [hpc]
    rfl
  · rw [hstep]
    exact advance_lock a m l.pc

variable [DecidableEq T]

/-- **One step.** -/
theorem Inv.step {c : Config T Mem (Loc Core)} (hi : Inv h c) (t : T) {a : Choice Core}
    (hsucceeds : a.succeeds = true) :
    Inv h (c.after t (program T h t a c.mem (c.loc t))) := by
  have hlock := hi.lock.after (lock_step (h := h) t a c.mem (c.loc t))
  -- The other threads, where the step keeps the entries.
  have hothers (hg : Grows c.mem (program T h t a c.mem (c.loc t)).mem)
      (hs : (c.loc t).pc.holds = false → Same c.mem (program T h t a c.mem (c.loc t)).mem)
      (hself : (program T h t a c.mem (c.loc t)).loc.pc.Assumes h
        (program T h t a c.mem (c.loc t)).mem (program T h t a c.mem (c.loc t)).loc.ran) (u : T) :
      ((c.after t (program T h t a c.mem (c.loc t))).loc u).pc.Assumes h
        (program T h t a c.mem (c.loc t)).mem
        ((c.after t (program T h t a c.mem (c.loc t))).loc u).ran := by
    by_cases hu : u = t
    · rw [hu, Threads.Config.after_loc_self]
      exact hself
    · rw [Threads.Config.after_loc_of_ne _ _ hu]
      refine (hi.assumes u).other hg fun hholds => hs (Bool.eq_false_iff.mpr fun ht => ?_)
      exact hu ((hi.lock u hholds).2 t ht).symm
  have hkept (hmem : (program T h t a c.mem (c.loc t)).mem = c.mem)
      (hself : (program T h t a c.mem (c.loc t)).loc.pc.Assumes h c.mem
        (program T h t a c.mem (c.loc t)).loc.ran) :
      Inv h (c.after t (program T h t a c.mem (c.loc t))) := by
    refine ⟨hlock, ?_, ?_, hothers ?_ ?_ ?_⟩
    · rw [Threads.Config.after_mem, hmem]
      exact hi.len
    · rw [Threads.Config.after_mem, hmem]
      exact hi.entries
    · rw [hmem]
      exact (Same.refl c.mem).grows
    · rw [hmem]
      exact fun _ => .refl c.mem
    · rw [hmem]
      exact hself
  obtain hstep | ⟨-, hstep⟩ | ⟨r, regs, -, hstep⟩ | hstep :=
    program_cases (h := h) t a c.mem (c.loc t)
  · refine hkept (by rw [hstep]) ?_
    rw [hstep]
    exact hi.assumes t
  · refine hkept (by rw [hstep]) ?_
    rw [hstep]
    exact (begin_assumes h c.mem [a.core] a.request).1
  · refine hkept (by rw [hstep]) ?_
    rw [hstep]
    trivial
  · obtain ⟨hlen, hentries⟩ := advance_entries a (hi.assumes t) hi.len hi.entries
    have hself := advance_assumes a (hi.assumes t) hsucceeds hi.entries
    have hg := advance_grows a (hi.assumes t)
    refine ⟨hlock, ?_, ?_, hothers ?_ ?_ ?_⟩
    · rw [Threads.Config.after_mem, hstep]
      exact hlen
    · rw [Threads.Config.after_mem, hstep]
      exact hentries
    · rw [hstep]
      exact hg
    · rw [hstep]
      exact fun hholds => advance_same a hholds
    · rw [hstep]
      exact hself

omit [DecidableEq T] in
theorem inv_start : Inv h (start T Core) where
  lock t ht := by cases ht
  len := Nat.zero_le _
  entries _ hi := absurd hi (Nat.not_lt_zero _)
  assumes _ := trivial

/-- **Every reply is some core's.** Where `arch_prctl` succeeds, a reply is made of what one core
has answered for the same leaf and subleaf, and of a leaf that is not kept, that is a core the
request has been on. -/
theorem reply_of_core {s : List (T × Choice Core)} (hs : ∀ x ∈ s, x.2.succeeds = true) {t : T}
    {e : Event Core} (he : (t, e) ∈ trace (program T h) (start T Core) s) :
    e.ran ≠ [] ∧ ∃ regs, e.reply = e.request.answer regs ∧ Answer h e.ran e.request regs := by
  have hrun := Threads.run_induct_choices (program T h)
    (I := fun tr d => Inv h d ∧ ∀ t e, (t, e) ∈ tr → e.ran ≠ []
      ∧ ∃ regs, e.reply = e.request.answer regs ∧ Answer h e.ran e.request regs)
    ⟨inv_start, nofun⟩ (fun tr d x hx ⟨hi, hold⟩ => ⟨hi.step x.1 hx, fun t e he => ?_⟩) hs
  · exact hrun.2 t e he
  · obtain he | he := List.mem_append.mp he
    · exact hold t e he
    · obtain ⟨e, he, heq⟩ := List.mem_map.mp he
      cases heq
      obtain hstep | ⟨-, hstep⟩ | ⟨r, regs, hpc, hstep⟩ | hstep :=
        program_cases (h := h) x.1 x.2 d.mem (d.loc x.1)
      · rw [hstep] at he
        cases he
      · rw [hstep] at he
        cases he
      · rw [hstep, List.mem_singleton] at he
        subst he
        have hans := hi.assumes x.1
        rw [hpc] at hans
        exact ⟨List.cons_ne_nil _ _, regs, rfl, Answer.mono hans x.2.core⟩
      · rw [hstep] at he
        cases he

/-- Where the cores are alike, that is what a core answers that the request has been on. -/
theorem right_of_alike (halike : Alike h) {e : Event Core} {regs : Registers}
    (hran : e.ran ≠ []) (hreply : e.reply = e.request.answer regs)
    (hans : Answer h e.ran e.request regs) : e.Right h := by
  obtain ⟨core, hregs, hvaries⟩ := hans
  obtain ⟨on, hon, hsame⟩ : ∃ on ∈ e.ran, regs = h on e.request.leaf e.request.subleaf := by
    cases hv : leaf_varies_per_core e.request.leaf with
    | true => exact ⟨core, hvaries hv, hregs⟩
    | false =>
      obtain ⟨on, hon⟩ := List.exists_mem_of_ne_nil _ hran
      exact ⟨on, hon, hregs.trans (halike _ _ hv core on)⟩
  refine ⟨on, hon, ?_⟩
  rw [hreply, hsame]
  cases e.request with
  | native leaf subleaf => rfl
  | artifact profile => exact apic_id_of_profile profile _

end Run

/-! ## Two cores that differ -/

section Differ

variable [DecidableEq T] {h : Core → UInt32 → UInt32 → Registers}

/-- The cache after the first request. -/
def Mem.one (leaf subleaf : UInt32) (regs : Registers) : Mem where
  lock := false
  len := 1
  keys := Function.update (fun _ => 0) 0 (key leaf subleaf)
  eax := Function.update (fun _ => 0) 0 regs.eax
  ebx := Function.update (fun _ => 0) 0 regs.ebx
  ecx := Function.update (fun _ => 0) 0 regs.ecx
  edx := Function.update (fun _ => 0) 0 regs.edx
  exited := false

theorem begin_kept {r : Request} (hleaf : leaf_varies_per_core r.leaf = false) :
    Pc.begin r = .load_len r := if_neg (by rw [hleaf]; decide)

/-- Between the call and the return. -/
def Pc.mid : Pc → Bool
  | .idle | .reply _ _ => false
  | _ => true

theorem completes_mid {t : T} {a : Choice Core} {m m' m'' : Mem} {pc pc' : Pc} {ran : List Core}
    {es : List (Event Core)} (hexited : m.exited = false) (hpc : pc.mid = true)
    (hstep : advance h a m pc = (m', pc'))
    (hrest : Completes (program T h) ⟨.idle, []⟩ t a m' ⟨pc', a.core :: ran⟩ es m'') :
    Completes (program T h) ⟨.idle, []⟩ t a m ⟨pc, ran⟩ es m'' := by
  have hprogram : program T h t a m ⟨pc, ran⟩ = ⟨m', ⟨pc', a.core :: ran⟩, []⟩ := by
    unfold program
    rw [if_neg (by rw [hexited]; decide)]
    cases pc with
    | idle => cases hpc
    | reply r regs => cases hpc
    | _ =>
      dsimp only
      rw [hstep]
  exact .next _ _ hprogram hrest

/-- An insert into the empty cache. -/
theorem first_insert (t : T) (core : Core) (leaf subleaf : UInt32) (regs : Registers)
    (ran : List Core) :
    Completes (program T h) ⟨.idle, []⟩ t ⟨core, .native leaf subleaf, true⟩ .new
      ⟨.acquire (.native leaf subleaf) regs, ran⟩
      [⟨.native leaf subleaf, regs, List.replicate 10 core ++ ran⟩] (.one leaf subleaf regs) := by
  have hacquire : advance h ⟨core, .native leaf subleaf, true⟩ .new
      (.acquire (.native leaf subleaf) regs)
      = ({ Mem.new with lock := true }, .load_own_len (.native leaf subleaf) regs) := rfl
  have hlen : advance h ⟨core, .native leaf subleaf, true⟩ { Mem.new with lock := true }
      (.load_own_len (.native leaf subleaf) regs)
      = ({ Mem.new with lock := true }, .store_key (.native leaf subleaf) regs 0) := rfl
  refine completes_mid rfl rfl hacquire (completes_mid rfl rfl hlen ?_)
  refine completes_mid rfl rfl rfl (completes_mid rfl rfl rfl (completes_mid rfl rfl rfl ?_))
  refine completes_mid rfl rfl rfl (completes_mid rfl rfl rfl (completes_mid rfl rfl rfl ?_))
  refine completes_mid rfl rfl rfl ?_
  exact .next _ _ rfl (.refl _ _ t _ _)

section Requests

variable (t : T) (core : Core) {leaf : UInt32} (subleaf : UInt32)
  (hleaf : leaf_varies_per_core leaf = false)
include hleaf

/-- The first request asks the core it is on, and its answer is kept. -/
theorem first_request :
    Completes (program T h) ⟨.idle, []⟩ t ⟨core, .native leaf subleaf, true⟩ .new ⟨.idle, []⟩
      [⟨.native leaf subleaf, h core leaf subleaf, List.replicate 15 core⟩]
      (.one leaf subleaf (h core leaf subleaf)) := by
  have hbegin : program T h t ⟨core, .native leaf subleaf, true⟩ .new ⟨.idle, []⟩
      = ⟨.new, ⟨.load_len (.native leaf subleaf), [core]⟩, []⟩ := by
    rw [← begin_kept (r := .native leaf subleaf) hleaf]
    rfl
  have hlen : advance h ⟨core, .native leaf subleaf, true⟩ .new (.load_len (.native leaf subleaf))
      = (.new, .enable (.native leaf subleaf)) := rfl
  have hrearm : advance h ⟨core, .native leaf subleaf, true⟩ .new
      (.rearm (.native leaf subleaf) (h core leaf subleaf))
      = (.new, .acquire (.native leaf subleaf) (h core leaf subleaf)) :=
    if_neg (by rw [Request.leaf, hleaf]; decide)
  refine .next _ _ hbegin (completes_mid rfl rfl hlen (completes_mid rfl rfl rfl ?_))
  refine completes_mid rfl rfl rfl (completes_mid rfl rfl hrearm ?_)
  exact first_insert t core leaf subleaf _ _

/-- The next one for the same leaf and subleaf gets that answer, on whatever core it is. -/
theorem next_request (regs : Registers) :
    Completes (program T h) ⟨.idle, []⟩ t ⟨core, .native leaf subleaf, true⟩
      (.one leaf subleaf regs) ⟨.idle, []⟩
      [⟨.native leaf subleaf, regs, List.replicate 8 core⟩] (.one leaf subleaf regs) := by
  have hbegin : program T h t ⟨core, .native leaf subleaf, true⟩ (.one leaf subleaf regs)
        ⟨.idle, []⟩
      = ⟨.one leaf subleaf regs, ⟨.load_len (.native leaf subleaf), [core]⟩, []⟩ := by
    rw [← begin_kept (r := .native leaf subleaf) hleaf]
    rfl
  have hlen : advance h ⟨core, .native leaf subleaf, true⟩ (.one leaf subleaf regs)
      (.load_len (.native leaf subleaf))
      = (.one leaf subleaf regs, .load_key (.native leaf subleaf) 1 0) := rfl
  have hfound : (Mem.one leaf subleaf regs).keys 0 = Request.key (.native leaf subleaf) := by
    unfold Mem.one
    dsimp only
    rw [Function.update_self]
    rfl
  have hkey : advance h ⟨core, .native leaf subleaf, true⟩ (.one leaf subleaf regs)
      (.load_key (.native leaf subleaf) 1 0)
      = (.one leaf subleaf regs, .load_eax (.native leaf subleaf) 0) :=
    if_pos hfound
  refine .next _ _ hbegin (completes_mid rfl rfl hlen (completes_mid rfl rfl hkey ?_))
  refine completes_mid rfl rfl rfl (completes_mid rfl rfl rfl (completes_mid rfl rfl rfl ?_))
  exact completes_mid rfl rfl rfl (.next _ _ rfl (.refl _ _ t _ _))

end Requests

/-- **Two cores that differ** in a leaf that is kept: a thread asks on the one and then on the
other, and gets the first one's answer twice. -/
theorem second_reply (t : T) (c c' : Core) {leaf : UInt32} (subleaf : UInt32)
    (hleaf : leaf_varies_per_core leaf = false) :
    ∃ s : List (T × Choice Core), (∀ x ∈ s, x.2.succeeds = true)
      ∧ (t, ⟨.native leaf subleaf, h c leaf subleaf, List.replicate 8 c'⟩)
        ∈ trace (program T h) (start T Core) s := by
  obtain ⟨n, hfirst⟩ := first_request (h := h) t c subleaf hleaf
  obtain ⟨n', hnext⟩ := next_request (h := h) t c' subleaf hleaf (h c leaf subleaf)
  have hstart : Threads.alone ⟨.idle, []⟩ t Mem.new ⟨.idle, []⟩ = start T Core := by
    unfold Threads.alone start
    rw [Function.update_eq_self_iff.mpr rfl]
  rw [hstart] at hfirst
  refine ⟨Threads.steps t n ⟨c, .native leaf subleaf, true⟩
    ++ Threads.steps t n' ⟨c', .native leaf subleaf, true⟩, fun x hx => ?_, ?_⟩
  · obtain hx | hx := List.mem_append.mp hx
    · rw [List.eq_of_mem_replicate hx]
    · rw [List.eq_of_mem_replicate hx]
  · rw [(hfirst.trans (program T h) hnext).2]
    exact List.mem_append_right _ (List.mem_singleton_self _)

end Differ

/-- **Replies are native exactly if the cores are alike**, in the leaves that are kept. On such
hardware, where `arch_prctl` succeeds, every reply is what a core answers that the request has
been on, and the reply of a profile has its APIC id; on any other there is a run in which one is
not. -/
theorem native_cache_iff [DecidableEq T] (t : T) (h : Core → UInt32 → UInt32 → Registers) :
    (∀ s : List (T × Choice Core), (∀ x ∈ s, x.2.succeeds = true) →
      ∀ u e, (u, e) ∈ trace (program T h) (start T Core) s → e.Right h) ↔ Alike h := by
  constructor
  · intro hright leaf subleaf hleaf c c'
    obtain ⟨s, hs, hmem⟩ := second_reply (h := h) t c c' subleaf hleaf
    obtain ⟨core, hcore, hreply⟩ := hright s hs t _ hmem
    obtain rfl := List.eq_of_mem_replicate hcore
    exact hreply
  · intro halike s hs u e he
    obtain ⟨hran, regs, hreply, hans⟩ := reply_of_core hs he
    exact right_of_alike halike hran hreply hans

/-- Two cores with the APIC ids 0 and 1. -/
def two_cores (core : Bool) (leaf _subleaf : UInt32) : Registers :=
  ⟨0, if leaf = 1 ∧ core then 0x01000000 else 0, 0, 0⟩

def intel : Profile := ⟨.Intel, ⟨0x000a0655, 0x00200800, 0x01faebff, 0xbfebfbff⟩, by decide⟩

/-- The profile is asked for leaf 1 on core 0 and then on core 1, where the reply has APIC id 0. -/
theorem apic_id_of_other_core :
    ¬∀ (h : Bool → UInt32 → UInt32 → Registers) (s : List (Unit × Choice Bool)),
      (∀ x ∈ s, x.2.succeeds = true) →
        ∀ u e, (u, e) ∈ trace (program Unit h) (start Unit Bool) s → e.Right h := by
  intro hall
  have hwrong : ∃ x ∈ trace (program Unit two_cores) (start Unit Bool)
      (Threads.steps () 15 ⟨false, .artifact intel, true⟩
        ++ Threads.steps () 8 ⟨true, .artifact intel, true⟩), ¬x.2.Right two_cores := by
    decide +kernel
  obtain ⟨⟨u, e⟩, hmem, hnot⟩ := hwrong
  exact hnot (hall two_cores _ (by decide) u e hmem)

end Linuwux.NativeCache
