/-
`RawSyscall.lean` -- `find_raw_syscall_instruction` of `runtime/src/syscall/kuser_dispatch.rs`.

To replay a call as a raw syscall the dispatcher looks for a `syscall` instruction whose stub
head loads the service number. It searches the code before the return address from the end,
and for each opcode it finds it searches the 24 bytes before it, again from the end, for
`mov r10, rcx; mov eax, imm32`.

The inner search ends before `syscall_offset - 8`, and `syscall_offset` is where the opcode
ends, not where it begins. So a head of eight bytes may reach one byte into the opcode, and
its immediate then ends with the opcode's own `0f`. The last section says when that decides
the search.

An index out of range would panic. Here it makes a search fail, and
[`find_raw_syscall_instruction_spec`] says that none does.
-/
import Linuwux.ProcMem
import Mathlib.Data.Nat.SuccPred

set_option autoImplicit false

namespace Linuwux.RawSyscall

open Scans (slice slice?)
open ProcMem (Memory checked_add read_memory)

def SYSCALL_INSTRUCTION : List UInt8 := [0x0f, 0x05]

/-! ## The search -/

/-- The closure of `syscall_service_before`: a stub head at `offset`. -/
def is_stub_head (code : List UInt8) (offset : ℕ) : Option Bool :=
  (slice? code offset (offset + 3)).bind fun bytes =>
    if bytes = [0x4c, 0x8b, 0xd1] then (code[offset + 3]?).map (· == 0xb8) else some false

/-- The offset `syscall_service_before` finds. -/
def stub_head_before (code : List UInt8) (syscall_offset : ℕ) : Option (Option ℕ) :=
  let start := syscall_offset - 26
  Scans.rfind? (is_stub_head code) start (syscall_offset - 8)

def syscall_service_before (code : List UInt8) (syscall_offset : ℕ) : Option (Option UInt64) :=
  (stub_head_before code syscall_offset).bind fun found =>
    match found with
    | none => some none
    | some offset =>
      (slice? code (offset + 4) (offset + 8)).map fun bytes =>
        some (ProcMem.u64_from_le_bytes bytes)

/-- One turn of the loop of `find_raw_syscall_instruction`: whether it returns here. -/
def serves (code : List UInt8) (service : UInt64) (syscall_offset : ℕ) : Option Bool :=
  (slice? code (syscall_offset - 2) syscall_offset).bind fun bytes =>
    if bytes ≠ SYSCALL_INSTRUCTION then some false
    else (syscall_service_before code syscall_offset).map (· == some service)

def find_raw_syscall_instruction (code : List UInt8) (code_address service : UInt64) :
    Option (Option UInt64) :=
  (Scans.rfind? (serves code service) 2 (code.length + 1)).map fun found =>
    found.bind fun syscall_offset => checked_add code_address (syscall_offset - 2)

/-- `find_syscall`, one window after the other. -/
def find_syscall_in (m : Memory) (return_address service : UInt64) :
    List ℕ → Option (Option UInt64)
  | [] => some none
  | window :: windows =>
    if return_address.toNat < window then find_syscall_in m return_address service windows
    else
      let start := return_address - .ofNat window
      match read_memory m start window with
      | none => find_syscall_in m return_address service windows
      | some bytes =>
        (find_raw_syscall_instruction bytes start service).bind fun found =>
          match found with
          | some address => some (some address)
          | none => find_syscall_in m return_address service windows

def find_syscall (m : Memory) (return_address service : UInt64) : Option (Option UInt64) :=
  find_syscall_in m return_address service [0x80, 0x40, 0x20]

/-! ## What it looks for -/

/-- The syscall opcode at `p`. -/
def OpcodeAt (code : List UInt8) (p : ℕ) : Prop := slice code p (p + 2) = SYSCALL_INSTRUCTION

/-- A stub head with its immediate at `o`. -/
def HeadAt (code : List UInt8) (o : ℕ) : Prop :=
  slice code o (o + 4) = [0x4c, 0x8b, 0xd1, 0xb8] ∧ o + 8 ≤ code.length

def imm32 (code : List UInt8) (o : ℕ) : UInt64 :=
  ProcMem.u64_from_le_bytes (slice code (o + 4) (o + 8))

/-- The nearest head before the opcode at `p` that begins within 24 bytes of it and reaches at
most `reach` bytes into it is at `o`. -/
def Nearest (code : List UInt8) (reach p o : ℕ) : Prop :=
  IsGreatest {o | p ≤ o + 24 ∧ o + 8 ≤ p + reach ∧ HeadAt code o} o

/-- There is an opcode at `p`, and the nearest head before it has the service. -/
def Serves (code : List UInt8) (service : UInt64) (reach p : ℕ) : Prop :=
  OpcodeAt code p ∧ ∃ o, Nearest code reach p o ∧ imm32 code o = service

/-- The last opcode of that kind is at `p`. -/
def LastServing (code : List UInt8) (service : UInt64) (reach p : ℕ) : Prop :=
  IsGreatest {p | Serves code service reach p} p

theorem OpcodeAt.length {code : List UInt8} {p : ℕ} (h : OpcodeAt code p) :
    p + 2 ≤ code.length := by
  have hlast : (slice code p (p + 2))[1]? = some 0x05 := by
    rw [show slice code p (p + 2) = SYSCALL_INSTRUCTION from h]
    rfl
  rw [Scans.getElem?_slice, if_pos (by omega)] at hlast
  obtain ⟨hlt, -⟩ := List.getElem?_eq_some_iff.mp hlast
  omega

/-! ## What the search finds -/

theorem slice?_of_le {code : List UInt8} {i j : ℕ} (hij : i ≤ j) (hj : j ≤ code.length) :
    slice? code i j = some (slice code i j) := if_pos ⟨hij, hj⟩

theorem slice_succ {code : List UInt8} {o : ℕ} {b : UInt8} (h : code[o + 3]? = some b) :
    slice code o (o + 4) = slice code o (o + 3) ++ [b] := by
  apply List.ext_getElem?
  intro n
  have hlen : (slice code o (o + 3)).length = 3 := by
    obtain ⟨hlt, -⟩ := List.getElem?_eq_some_iff.mp h
    rw [Scans.length_slice (by omega)]
    omega
  rw [Scans.getElem?_slice, List.getElem?_append, hlen, Scans.getElem?_slice]
  by_cases hn : n < 3
  · rw [if_pos (by omega), if_pos hn, if_pos (by omega)]
  · rw [if_neg hn]
    by_cases h3 : n = 3
    · subst h3
      rw [if_pos (by omega), h]
      rfl
    · rw [if_neg (by omega), List.getElem?_eq_none_iff.mpr]
      rw [List.length_singleton]
      omega

theorem is_stub_head_spec {code : List UInt8} {o : ℕ} (h : o + 8 ≤ code.length) :
    ∃ found, is_stub_head code o = some found ∧ (found = true ↔ HeadAt code o) := by
  have hlt : o + 3 < code.length := by omega
  have hlast : code[o + 3]? = some code[o + 3] := List.getElem?_eq_getElem hlt
  unfold is_stub_head HeadAt
  rw [slice?_of_le (by omega) (by omega), Option.bind_some, slice_succ hlast, hlast]
  have hsplit : slice code o (o + 3) ++ [code[o + 3]] = [0x4c, 0x8b, 0xd1] ++ [0xb8]
      ↔ slice code o (o + 3) = [0x4c, 0x8b, 0xd1] ∧ code[o + 3] = 0xb8 := by
    constructor
    · intro heq
      obtain ⟨h1, h2⟩ := List.append_inj' heq rfl
      exact ⟨h1, List.singleton_inj.mp h2⟩
    · rintro ⟨h1, h2⟩
      rw [h1, h2]
  have hhead : slice code o (o + 3) ++ [code[o + 3]] = [0x4c, 0x8b, 0xd1, 0xb8]
      ↔ slice code o (o + 3) = [0x4c, 0x8b, 0xd1] ∧ code[o + 3] = 0xb8 := hsplit
  rw [hhead]
  split
  · rename_i h3
    exact ⟨_, rfl, by rw [beq_iff_eq]; exact ⟨fun hb => ⟨⟨h3, hb⟩, h⟩, fun hb => hb.1.2⟩⟩
  · rename_i h3
    exact ⟨false, rfl, nofun, fun hb => absurd hb.1.1 h3⟩

/-- The head found before the opcode at `p` is the nearest that reaches at most one byte into
it. -/
theorem stub_head_before_spec {code : List UInt8} {p : ℕ} (hp : p + 2 ≤ code.length) :
    ∃ found, stub_head_before code (p + 2) = some found
      ∧ ∀ o, found = some o ↔ Nearest code 1 p o := by
  -- The bound is taken from the end of the opcode, and so admits a head that ends at `p + 1`.
  have hcheck : ∀ o, p + 2 - 26 ≤ o → o < p + 2 - 8 →
      ∃ found, is_stub_head code o = some found ∧ (found = true ↔ HeadAt code o) :=
    fun o _ ho => is_stub_head_spec (by omega)
  obtain ⟨found, hfound, hspec⟩ := Scans.rfind?_spec hcheck
  refine ⟨found, hfound, fun o => (hspec o).trans ?_⟩
  have hset : {o | p + 2 - 26 ≤ o ∧ o < p + 2 - 8 ∧ HeadAt code o}
      = {o | p ≤ o + 24 ∧ o + 8 ≤ p + 1 ∧ HeadAt code o} := by
    ext o
    constructor
    · rintro ⟨hlo, hhi, hhead⟩
      exact ⟨by omega, by omega, hhead⟩
    · rintro ⟨hlo, hhi, hhead⟩
      exact ⟨by omega, by omega, hhead⟩
  rw [hset]
  exact Iff.rfl

theorem syscall_service_before_spec {code : List UInt8} {p : ℕ} (hp : p + 2 ≤ code.length) :
    ∃ found, syscall_service_before code (p + 2) = some found
      ∧ ∀ service, found = some service ↔ ∃ o, Nearest code 1 p o ∧ imm32 code o = service := by
  obtain ⟨head, hhead, hspec⟩ := stub_head_before_spec hp
  unfold syscall_service_before
  rw [hhead, Option.bind_some]
  cases head with
  | none =>
    refine ⟨none, rfl, fun service => ⟨nofun, ?_⟩⟩
    rintro ⟨o, ho, -⟩
    cases (hspec o).mpr ho
  | some o =>
    have ho := (hspec o).mp rfl
    refine ⟨some (imm32 code o), ?_, fun service => ?_⟩
    · dsimp only
      rw [slice?_of_le (by omega) ho.1.2.2.2]
      rfl
    · rw [Option.some.injEq]
      constructor
      · intro himm
        exact ⟨o, ho, himm⟩
      · rintro ⟨o', ho', himm⟩
        rwa [ho.unique ho']

theorem serves_spec {code : List UInt8} {service : UInt64} {p : ℕ} (hp : p + 2 ≤ code.length) :
    ∃ found, serves code service (p + 2) = some found
      ∧ (found = true ↔ Serves code service 1 p) := by
  unfold serves Serves
  rw [slice?_of_le (by omega) hp, Option.bind_some, Nat.add_sub_cancel]
  split
  · rename_i hop
    exact ⟨false, rfl, nofun, fun h => absurd h.1 hop⟩
  · rename_i hop
    obtain ⟨found, hfound, hspec⟩ := syscall_service_before_spec hp
    rw [hfound]
    refine ⟨_, rfl, ?_⟩
    rw [beq_iff_eq, hspec service]
    exact ⟨fun h => ⟨not_not.mp hop, h⟩, fun h => h.2⟩

/-- **What is found.** No index is out of range, and the result is the last opcode whose
nearest head has the service, a head being allowed to reach one byte into the opcode. -/
theorem find_raw_syscall_instruction_spec (code : List UInt8) (code_address service : UInt64) :
    ∃ result, find_raw_syscall_instruction code code_address service = some result
      ∧ ∀ r, result = some r
        ↔ ∃ p, LastServing code service 1 p ∧ r.toNat = code_address.toNat + p := by
  have hcheck : ∀ n, 2 ≤ n → n < code.length + 1 →
      ∃ found, serves code service n = some found
        ∧ (found = true ↔ Serves code service 1 (n - 2)) := by
    intro n hlo hhi
    obtain ⟨p, rfl⟩ := Nat.exists_eq_add_of_le' hlo
    rw [Nat.add_sub_cancel]
    exact serves_spec (by omega)
  obtain ⟨found, hfound, hspec⟩ := Scans.rfind?_spec hcheck
  -- The loop counts by the end of the opcode.
  have hlast : ∀ p, found = some (p + 2) ↔ LastServing code service 1 p := by
    intro p
    rw [hspec]
    constructor
    · rintro ⟨⟨-, -, hp⟩, hmax⟩
      rw [Nat.add_sub_cancel] at hp
      refine ⟨hp, fun p' hp' => ?_⟩
      have hlen := hp'.1.length
      have hle := hmax (a := p' + 2) ⟨by omega, by omega, by rwa [Nat.add_sub_cancel]⟩
      omega
    · rintro ⟨hp, hmax⟩
      have hlen := hp.1.length
      refine ⟨⟨by omega, by omega, by rwa [Nat.add_sub_cancel]⟩, fun n hn => ?_⟩
      have hle := hmax hn.2.2
      omega
  refine ⟨_, by rw [find_raw_syscall_instruction, hfound, Option.map_some], fun r => ?_⟩
  rw [Option.bind_eq_some_iff]
  constructor
  · rintro ⟨n, rfl, hr⟩
    have hn := ((hspec n).mp rfl).1.1
    refine ⟨n - 2, (hlast _).mp ?_, ProcMem.checked_add_eq_some.mp hr⟩
    rw [Nat.sub_add_cancel hn]
  · rintro ⟨p, hp, hr⟩
    exact ⟨p + 2, (hlast p).mpr hp, ProcMem.checked_add_eq_some.mpr hr⟩

/-! ## Heads that reach into the opcode -/

/-- A stub head ends one byte inside the opcode at `p`. -/
def Straddled (code : List UInt8) (p : ℕ) : Prop := ∃ o, o + 7 = p ∧ HeadAt code o

/-- There is an opcode at `p`, and the service stands in the nearest head that ends before it
or in one that straddles it. -/
def Candidate (code : List UInt8) (service : UInt64) (p : ℕ) : Prop :=
  Serves code service 0 p
    ∨ OpcodeAt code p ∧ ∃ o, o + 7 = p ∧ HeadAt code o ∧ imm32 code o = service

/-- What a search for the last opcode whose nearest head ends before it and has the service
returns, and that the head it accepts does end before the opcode. -/
def FindsWholeHead (code : List UInt8) (code_address service : UInt64) : Prop :=
  ∃ result, find_raw_syscall_instruction code code_address service = some result
    ∧ (∀ r, result = some r
      ↔ ∃ p, LastServing code service 0 p ∧ r.toNat = code_address.toNat + p)
    ∧ ∀ r p o, result = some r → r.toNat = code_address.toNat + p →
      stub_head_before code (p + 2) = some (some o) → o + 8 ≤ p

/-- A head that straddles the opcode is nearer than any other. -/
theorem nearest_of_straddled {code : List UInt8} {o : ℕ} (h : HeadAt code o) :
    Nearest code 1 (o + 7) o :=
  ⟨⟨by omega, by omega, h⟩, fun o' ho' => by have hle := ho'.2.1; omega⟩

/-- Where no head straddles the opcode the two searches see the same heads. -/
theorem nearest_iff {code : List UInt8} {p o : ℕ} (h : ¬Straddled code p) :
    Nearest code 1 p o ↔ Nearest code 0 p o := by
  have hset : {o | p ≤ o + 24 ∧ o + 8 ≤ p + 1 ∧ HeadAt code o}
      = {o | p ≤ o + 24 ∧ o + 8 ≤ p + 0 ∧ HeadAt code o} := by
    ext o
    constructor
    · rintro ⟨hlo, hhi, hhead⟩
      have hne : o + 7 ≠ p := fun he => h ⟨o, he, hhead⟩
      exact ⟨hlo, by omega, hhead⟩
    · rintro ⟨hlo, hhi, hhead⟩
      exact ⟨hlo, by omega, hhead⟩
  unfold Nearest
  rw [hset]

theorem serves_iff {code : List UInt8} {service : UInt64} {p : ℕ} (h : ¬Straddled code p) :
    Serves code service 1 p ↔ Serves code service 0 p := by
  unfold Serves
  simp only [nearest_iff h]

theorem candidate_iff {code : List UInt8} {service : UInt64} {p : ℕ} :
    Candidate code service p ↔ Serves code service 0 p ∨ Serves code service 1 p := by
  constructor
  · rintro (h | ⟨hop, o, rfl, hhead, himm⟩)
    · exact Or.inl h
    · exact Or.inr ⟨hop, o, nearest_of_straddled hhead, himm⟩
  · rintro (h | h)
    · exact Or.inl h
    · by_cases hs : Straddled code p
      · obtain ⟨o, rfl, hhead⟩ := hs
        obtain ⟨hop, o', ho', himm⟩ := h
        obtain rfl := (nearest_of_straddled hhead).unique ho'
        exact Or.inr ⟨hop, o, rfl, hhead, himm⟩
      · exact Or.inl ((serves_iff hs).mp h)

/-- The bound of an address that does not overflow. -/
theorem fits {a r : UInt64} {p : ℕ} (h : r.toNat = a.toNat + p) : a.toNat + p < 2 ^ 64 :=
  h ▸ r.toNat_lt

theorem exists_address {a : UInt64} {p : ℕ} (h : a.toNat + p < 2 ^ 64) :
    ∃ r : UInt64, r.toNat = a.toNat + p :=
  ⟨.ofNat (a.toNat + p), by rw [UInt64.toNat_ofNat', Nat.mod_eq_of_lt h]⟩

section Decided

variable {code : List UInt8} {code_address service : UInt64} {q : ℕ}

/-- A last candidate that no head straddles is last for both searches. -/
theorem last_of_not_straddled (hq : IsGreatest {p | Candidate code service p} q)
    (hs : ¬Straddled code q) :
    LastServing code service 0 q ∧ LastServing code service 1 q := by
  have h0 : Serves code service 0 q := by
    rcases candidate_iff.mp hq.1 with h | h
    · exact h
    · exact (serves_iff hs).mp h
  exact ⟨⟨h0, fun p hp => hq.2 (candidate_iff.mpr (Or.inl hp))⟩,
    ⟨(serves_iff hs).mpr h0, fun p hp => hq.2 (candidate_iff.mpr (Or.inr hp))⟩⟩

theorem findsWholeHead_of_not_straddled (hq : IsGreatest {p | Candidate code service p} q)
    (hs : ¬Straddled code q) : FindsWholeHead code code_address service := by
  obtain ⟨result, hfind, hspec⟩ := find_raw_syscall_instruction_spec code code_address service
  obtain ⟨h0, h1⟩ := last_of_not_straddled hq hs
  refine ⟨result, hfind, fun r => (hspec r).trans ?_, fun r p o hr hp ho => ?_⟩
  · constructor
    · rintro ⟨p, hp, hr⟩
      exact ⟨q, h0, by rw [hr, hp.unique h1]⟩
    · rintro ⟨p, hp, hr⟩
      exact ⟨q, h1, by rw [hr, hp.unique h0]⟩
  · obtain ⟨p', hp', hr'⟩ := (hspec r).mp hr
    obtain rfl : p = q := by
      rw [← hp'.unique h1]
      omega
    obtain ⟨found, hfound, hhead⟩ := stub_head_before_spec h1.1.1.length
    have ho' := (nearest_iff hs).mp ((hhead o).mp (Option.some.inj (hfound.symm.trans ho)))
    exact ho'.1.2.1

theorem not_findsWholeHead (hq : IsGreatest {p | Candidate code service p} q)
    (hs : Straddled code q) (hfit : code_address.toNat + q < 2 ^ 64) :
    ¬FindsWholeHead code code_address service := by
  rintro ⟨result, hfind, hmeets, hwhole⟩
  obtain ⟨result', hfind', hspec⟩ := find_raw_syscall_instruction_spec code code_address service
  obtain rfl : result = result' := Option.some.inj (hfind.symm.trans hfind')
  obtain ⟨r, hr⟩ := exists_address hfit
  have h1 : Serves code service 1 q := by
    rcases candidate_iff.mp hq.1 with h0 | h1
    · have hlast : LastServing code service 0 q :=
        ⟨h0, fun p hp => hq.2 (candidate_iff.mpr (Or.inl hp))⟩
      -- The search has to return `q`, and returns only what serves with straddling heads.
      obtain ⟨p, hp, hpr⟩ := (hspec r).mp ((hmeets r).mpr ⟨q, hlast, hr⟩)
      obtain rfl : p = q := by omega
      exact hp.1
    · exact h1
  -- The head that is accepted here is the one that straddles the opcode.
  have hlast : LastServing code service 1 q :=
    ⟨h1, fun p hp => hq.2 (candidate_iff.mpr (Or.inr hp))⟩
  obtain ⟨o, rfl, hhead⟩ := hs
  obtain ⟨found, hfound, hnear⟩ := stub_head_before_spec h1.1.length
  have ho := (hnear o).mpr (nearest_of_straddled hhead)
  have hle := hwhole r (o + 7) o ((hspec r).mpr ⟨_, hlast, hr⟩) hr (by rw [hfound, ho])
  omega

/-- Where the last candidate's address overflows, the two searches can only agree on giving no
result. -/
theorem findsWholeHead_of_overflow_iff (hq : IsGreatest {p | Candidate code service p} q)
    (hfit : ¬code_address.toNat + q < 2 ^ 64) :
    FindsWholeHead code code_address service
      ↔ ∀ p, code_address.toNat + p < 2 ^ 64 →
        ¬LastServing code service 0 p ∧ ¬LastServing code service 1 p := by
  obtain ⟨result, hfind, hspec⟩ := find_raw_syscall_instruction_spec code code_address service
  constructor
  · rintro ⟨result', hfind', hmeets, -⟩ p hp
    obtain rfl : result = result' := Option.some.inj (hfind.symm.trans hfind')
    obtain ⟨r, hr⟩ := exists_address hp
    -- An opcode below `q` cannot be the last of both.
    have hboth : ¬(LastServing code service 0 p ∧ LastServing code service 1 p) := by
      rintro ⟨h0, h1⟩
      rcases candidate_iff.mp hq.1 with h | h
      · have hle := h0.2 h
        omega
      · have hle := h1.2 h
        omega
    constructor
    · intro h0
      obtain ⟨p', hp', hr'⟩ := (hspec r).mp ((hmeets r).mpr ⟨p, h0, hr⟩)
      obtain rfl : p' = p := by omega
      exact hboth ⟨h0, hp'⟩
    · intro h1
      obtain ⟨p', hp', hr'⟩ := (hmeets r).mp ((hspec r).mpr ⟨p, h1, hr⟩)
      obtain rfl : p' = p := by omega
      exact hboth ⟨hp', h1⟩
  · intro hnone
    have hres : ∀ r, result ≠ some r := by
      intro r hr
      obtain ⟨p, hp, hpr⟩ := (hspec r).mp hr
      exact (hnone p (fits hpr)).2 hp
    refine ⟨result, hfind, fun r => ⟨fun hr => absurd hr (hres r), ?_⟩,
      fun r p o hr => absurd hr (hres r)⟩
    rintro ⟨p, hp, hpr⟩
    exact absurd hp (hnone p (fits hpr)).1

end Decided

theorem findsWholeHead_of_no_candidate {code : List UInt8} {code_address service : UInt64}
    (h : ∀ p, ¬Candidate code service p) : FindsWholeHead code code_address service := by
  obtain ⟨result, hfind, hspec⟩ := find_raw_syscall_instruction_spec code code_address service
  have hres : ∀ r, result ≠ some r := by
    intro r hr
    obtain ⟨p, hp, -⟩ := (hspec r).mp hr
    exact h p (candidate_iff.mpr (Or.inr hp.1))
  refine ⟨result, hfind, fun r => ⟨fun hr => absurd hr (hres r), ?_⟩,
    fun r p o hr => absurd hr (hres r)⟩
  rintro ⟨p, hp, -⟩
  exact absurd (candidate_iff.mpr (Or.inl hp.1)) (h p)

theorem exists_last_candidate {code : List UInt8} {service : UInt64} {p : ℕ}
    (h : Candidate code service p) : ∃ q, IsGreatest {p | Candidate code service p} q := by
  refine BddAbove.exists_isGreatest_of_nonempty ⟨code.length, fun p hp => ?_⟩ ⟨p, h⟩
  rcases candidate_iff.mp hp with hp | hp
  · have hlen := hp.1.length
    omega
  · have hlen := hp.1.length
    omega

/-- **When whole heads decide.** The search returns the last opcode whose nearest head ends
before it and has the service, accepting such a head only, exactly where the last candidate is
not straddled by a head; or where the last candidate's address overflows, and so do those of
the last opcodes with and without straddling heads. -/
theorem findsWholeHead_iff (code : List UInt8) (code_address service : UInt64) :
    FindsWholeHead code code_address service
      ↔ ∀ q, IsGreatest {p | Candidate code service p} q → Straddled code q →
        2 ^ 64 ≤ code_address.toNat + q
          ∧ ∀ p, code_address.toNat + p < 2 ^ 64 →
            ¬LastServing code service 0 p ∧ ¬LastServing code service 1 p := by
  constructor
  · intro h q hq hs
    by_cases hfit : code_address.toNat + q < 2 ^ 64
    · exact absurd h (not_findsWholeHead hq hs hfit)
    · exact ⟨by omega, (findsWholeHead_of_overflow_iff hq hfit).mp h⟩
  · intro h
    by_cases hex : ∃ p, Candidate code service p
    · obtain ⟨p, hp⟩ := hex
      obtain ⟨q, hq⟩ := exists_last_candidate hp
      by_cases hs : Straddled code q
      · obtain ⟨hfit, hnone⟩ := h q hq hs
        exact (findsWholeHead_of_overflow_iff hq (by omega)).mpr hnone
      · exact findsWholeHead_of_not_straddled hq hs
    · exact findsWholeHead_of_no_candidate fun p hp => hex ⟨p, hp⟩

/-- `mov r10, rcx; mov eax, 0x0f000000`, its last byte the first of a `syscall`. -/
def straddling_code : List UInt8 := [0x4c, 0x8b, 0xd1, 0xb8, 0x00, 0x00, 0x00, 0x0f, 0x05]

/-- The search accepts it, although no head ends before the opcode. -/
theorem straddling_code_accepted :
    find_raw_syscall_instruction straddling_code 0x1000 0x0f000000 = some (some 0x1007)
      ∧ (∀ p, ¬Serves straddling_code 0x0f000000 0 p)
      ∧ ¬FindsWholeHead straddling_code 0x1000 0x0f000000 := by
  have hnone : ∀ p, ¬Serves straddling_code 0x0f000000 0 p := by
    rintro p ⟨hop, o, ho, -⟩
    have hlen : p + 2 ≤ 9 := hop.length
    have hhi := ho.1.2.1
    omega
  refine ⟨by decide, hnone, ?_⟩
  rintro ⟨result, hfind, hmeets, -⟩
  obtain rfl : some 0x1007 = result := by
    have hcode : find_raw_syscall_instruction straddling_code 0x1000 0x0f000000
        = some (some 0x1007) := by decide
    exact Option.some.inj (hcode.symm.trans hfind)
  obtain ⟨p, hp, -⟩ := (hmeets 0x1007).mp rfl
  exact hnone p hp.1

end Linuwux.RawSyscall
