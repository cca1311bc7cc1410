/-
`BootstrapPool.lean` -- `bootstrap_alloc` of `hooks.rs`, over whole histories of requests.

The pool serves allocations that come before `dlsym` has found the real `malloc`. A request is one
`fetch_add` on the offset, so the requests of any threads are served one after the other, and a
request that does not fit moves the offset all the same. The three additions wrap. So a block is
handed out whenever the sum of the rounded sizes, *modulo 2^64*, is not past the pool, and that
is right exactly as long as the sum itself is not past it either ([`pool_is_sound_iff`]).

A block is given by its offset here. An offset past the pool has no address: `add` is not defined
for it, and in particular it is not null.
-/
import Linuwux.FreeGuard
import Linuwux.ProcMem
import Linuwux.Threads
import Mathlib.Algebra.BigOperators.Ring.List

set_option autoImplicit false

namespace Linuwux.Bootstrap

open FreeGuard (BOOTSTRAP_POOL_SIZE is_bootstrap_ptr)
open Threads (Program Config run trace)

variable {T : Type*}

/-! ## The requests -/

def ALIGN : UInt64 := 16

def aligned (size : UInt64) : UInt64 := (max size 1 + ALIGN - 1) &&& ~~~(ALIGN - 1)

/-- `bootstrap_alloc`: the offset of the block, none for a null pointer, and what `fetch_add`
leaves. -/
def bootstrap_alloc (offset size : UInt64) : Option UInt64 × UInt64 :=
  (if offset + aligned size > BOOTSTRAP_POOL_SIZE then none else some offset,
    offset + aligned size)

/-- By address, it is what [`FreeGuard`] has. -/
theorem bootstrap_alloc_pointer (pool offset size : UInt64) :
    FreeGuard.bootstrap_alloc pool offset size
      = (((bootstrap_alloc offset size).1.map (pool + ·)).getD 0,
        (bootstrap_alloc offset size).2) := by
  unfold FreeGuard.bootstrap_alloc bootstrap_alloc
  dsimp only
  change (if offset + aligned size > _ then _ else _, _) = _
  split
  · rfl
  · rfl

/-- A request and the block it got. -/
structure Call where
  size : UInt64
  block : Option UInt64
  deriving DecidableEq

/-- Any threads, each step a request. -/
def program (T : Type*) : Program T UInt64 UInt64 Unit Call := fun _ size offset _ =>
  ⟨(bootstrap_alloc offset size).2, (), [⟨size, (bootstrap_alloc offset size).1⟩]⟩

def start (T : Type*) : Config T UInt64 Unit := ⟨0, fun _ => ()⟩

/-! ## What is asked of the blocks -/

/-- The bytes of a block; an empty one still has an address of its own. -/
def Call.span (e : Call) : ℕ := max e.size.toNat 1

/-- The blocks lie in the pool, at multiples of 16, and do not overlap. -/
structure Sound (calls : List Call) : Prop where
  inside : ∀ e ∈ calls, ∀ offset, e.block = some offset →
    16 ∣ offset.toNat ∧ offset.toNat + e.span ≤ BOOTSTRAP_POOL_SIZE.toNat
  apart : calls.Pairwise fun e e' => ∀ offset offset', e.block = some offset →
    e'.block = some offset' →
    offset.toNat + e.span ≤ offset'.toNat ∨ offset'.toNat + e'.span ≤ offset.toNat

/-- A size rounded up to a multiple of 16, and 0 to 16. -/
def rounded (size : ℕ) : ℕ := (max size 1 + 15) / 16 * 16

/-- What the requests come to. -/
def total (sizes : List UInt64) : ℕ := (sizes.map fun size => rounded size.toNat).sum

/-- A sum that has wrapped does not lie in the pool again. -/
def NeverWrapsIntoPool (sizes : List UInt64) : Prop :=
  ∀ pre, pre <+: sizes → total pre % 2 ^ 64 ≤ BOOTSTRAP_POOL_SIZE.toNat →
    total pre ≤ BOOTSTRAP_POOL_SIZE.toNat

/-! ## Rounding -/

theorem aligned_toNat (size : UInt64) : (aligned size).toNat = rounded size.toNat % 2 ^ 64 := by
  have hlt := size.toNat_lt
  have hmax : (max size 1).toNat = max size.toNat 1 := by
    change (if size ≤ 1 then (1 : UInt64) else size).toNat = _
    split
    · rename_i h
      exact (Nat.max_eq_right (UInt64.le_iff_toNat_le.mp h)).symm
    · rename_i h
      rw [UInt64.le_iff_toNat_le, Nat.not_le] at h
      exact (Nat.max_eq_left (Nat.le_of_lt h)).symm
  have hsum : (max size 1 + ALIGN - 1).toNat = (max size.toNat 1 + 15) % 2 ^ 64 := by
    rw [UInt64.toNat_sub, UInt64.toNat_add, hmax]
    change (2 ^ 64 - 1 + (max size.toNat 1 + 16) % 2 ^ 64) % 2 ^ 64 = _
    omega
  unfold aligned rounded
  rw [ProcMem.and_high_mask_toNat (k := 4) (by decide) (by decide), hsum]
  omega

theorem span_le_rounded (e : Call) : e.span ≤ rounded e.size.toNat := by
  unfold Call.span rounded
  omega

/-- A block that begins at a multiple of 16 ends in the pool if its bytes do. -/
theorem rounded_le (e : Call) {offset : ℕ} (hdvd : 16 ∣ offset)
    (h : offset + e.span ≤ BOOTSTRAP_POOL_SIZE.toNat) :
    offset + rounded e.size.toNat ≤ BOOTSTRAP_POOL_SIZE.toNat := by
  change offset + e.span ≤ 0x10000 at h
  change _ ≤ 0x10000
  unfold Call.span at h
  unfold rounded
  omega

theorem total_concat (sizes : List UInt64) (size : UInt64) :
    total (sizes ++ [size]) = total sizes + rounded size.toNat := by
  unfold total
  rw [List.map_append, List.sum_append]
  rfl

theorem dvd_total (sizes : List UInt64) : 16 ∣ total sizes := by
  unfold total
  refine List.dvd_sum fun n hn => ?_
  obtain ⟨size, -, rfl⟩ := List.mem_map.mp hn
  exact Nat.dvd_mul_left 16 _

theorem neverWraps_concat {sizes : List UInt64} {size : UInt64} :
    NeverWrapsIntoPool (sizes ++ [size]) ↔ NeverWrapsIntoPool sizes
      ∧ (total (sizes ++ [size]) % 2 ^ 64 ≤ BOOTSTRAP_POOL_SIZE.toNat →
        total (sizes ++ [size]) ≤ BOOTSTRAP_POOL_SIZE.toNat) := by
  constructor
  · intro h
    exact ⟨fun pre hpre => h pre (hpre.trans (List.prefix_append _ _)), h _ (List.prefix_refl _)⟩
  · rintro ⟨h, hlast⟩ pre hpre
    obtain rfl | hpre := List.prefix_concat_iff.mp hpre
    · exact hlast
    · exact h pre hpre

/-! ## Histories -/

variable [DecidableEq T]

/-- The requests of a schedule, in their order, with the blocks they got. -/
def calls (s : List (T × UInt64)) : List Call := (trace (program T) (start T) s).map Prod.snd

/-- The sizes asked for. -/
def sizes (s : List (T × UInt64)) : List UInt64 := s.map Prod.snd

/-- `BOOTSTRAP_OFFSET` after a schedule. -/
def offset (s : List (T × UInt64)) : UInt64 := (run (program T) (start T) s).mem

theorem calls_concat (s : List (T × UInt64)) (x : T × UInt64) :
    calls (s ++ [x]) = calls s ++ [⟨x.2, (bootstrap_alloc (offset s) x.2).1⟩] := by
  unfold calls
  rw [Threads.trace_concat, List.map_append]
  rfl

theorem offset_concat (s : List (T × UInt64)) (x : T × UInt64) :
    offset (s ++ [x]) = offset s + aligned x.2 := by
  unfold offset
  rw [Threads.run_concat]
  rfl

omit [DecidableEq T] in
theorem sizes_concat (s : List (T × UInt64)) (x : T × UInt64) :
    sizes (s ++ [x]) = sizes s ++ [x.2] := List.map_append

/-- The offset is the sum of the rounded sizes, as far as it goes. -/
theorem offset_toNat (s : List (T × UInt64)) : (offset s).toNat = total (sizes s) % 2 ^ 64 := by
  induction s using List.reverseRecOn with
  | nil => rfl
  | append_singleton s x ih =>
    rw [offset_concat, UInt64.toNat_add, ih, aligned_toNat, sizes_concat, total_concat,
      ← Nat.add_mod]

/-- Which requests get a block. -/
theorem bootstrap_alloc_eq_some {s : List (T × UInt64)} {size at_ : UInt64} :
    (bootstrap_alloc (offset s) size).1 = some at_ ↔ at_ = offset s
      ∧ total (sizes s ++ [size]) % 2 ^ 64 ≤ BOOTSTRAP_POOL_SIZE.toNat := by
  have hsum : (offset s + aligned size).toNat = total (sizes s ++ [size]) % 2 ^ 64 := by
    rw [UInt64.toNat_add, offset_toNat, aligned_toNat, total_concat, ← Nat.add_mod]
  unfold bootstrap_alloc
  dsimp only
  split
  · rename_i h
    rw [gt_iff_lt, UInt64.lt_iff_toNat_lt, hsum] at h
    exact ⟨nofun, fun ⟨_, hle⟩ => absurd hle (Nat.not_le.mpr h)⟩
  · rename_i h
    rw [gt_iff_lt, UInt64.lt_iff_toNat_lt, hsum] at h
    exact ⟨fun heq => ⟨(Option.some.inj heq).symm, Nat.not_lt.mp h⟩, fun ⟨heq, _⟩ => heq ▸ rfl⟩

/-- While no sum has wrapped into the pool, blocks end before the sum of the sizes asked for so
far. -/
theorem ends_before_total {s : List (T × UInt64)} (h : NeverWrapsIntoPool (sizes s)) {e : Call}
    (he : e ∈ calls s) {at_ : UInt64} (hat : e.block = some at_) :
    at_.toNat + rounded e.size.toNat ≤ total (sizes s) := by
  induction s using List.reverseRecOn with
  | nil => cases he
  | append_singleton s x ih =>
    rw [sizes_concat, neverWraps_concat] at h
    rw [calls_concat, List.mem_append, List.mem_singleton] at he
    rw [sizes_concat, total_concat]
    obtain he | rfl := he
    · exact (ih h.1 he).trans (Nat.le_add_right _ _)
    · obtain ⟨rfl, -⟩ := bootstrap_alloc_eq_some.mp hat
      rw [offset_toNat]
      exact Nat.add_le_add_right (Nat.mod_le _ _) _

/-- A block that is handed out lies in the pool if and only if the sum has not wrapped. -/
theorem inside_iff {s : List (T × UInt64)} (h : NeverWrapsIntoPool (sizes s)) {size : UInt64} :
    16 ∣ (offset s).toNat
        ∧ (offset s).toNat + Call.span ⟨size, some (offset s)⟩ ≤ BOOTSTRAP_POOL_SIZE.toNat
      ↔ total (sizes s ++ [size]) ≤ BOOTSTRAP_POOL_SIZE.toNat := by
  have hpool : BOOTSTRAP_POOL_SIZE.toNat < 2 ^ 64 := UInt64.toNat_lt _
  have hspan := span_le_rounded ⟨size, some (offset s)⟩
  rw [offset_toNat, total_concat]
  constructor
  · rintro ⟨hdvd, hend⟩
    -- The offset is in the pool, so no earlier sum is past it.
    have hle : total (sizes s) ≤ BOOTSTRAP_POOL_SIZE.toNat :=
      h _ (List.prefix_refl _) ((Nat.le_add_right _ _).trans hend)
    rw [Nat.mod_eq_of_lt (hle.trans_lt hpool)] at hdvd hend
    exact rounded_le ⟨size, some (offset s)⟩ hdvd hend
  · intro hle
    rw [Nat.mod_eq_of_lt (((Nat.le_add_right _ _).trans hle).trans_lt hpool)]
    exact ⟨dvd_total _, (Nat.add_le_add_left hspan _).trans hle⟩

/-- One more request. -/
theorem sound_concat {es : List Call} {e : Call} : Sound (es ++ [e]) ↔ Sound es
    ∧ (∀ offset, e.block = some offset →
      16 ∣ offset.toNat ∧ offset.toNat + e.span ≤ BOOTSTRAP_POOL_SIZE.toNat)
    ∧ ∀ e' ∈ es, ∀ offset' offset, e'.block = some offset' → e.block = some offset →
      offset'.toNat + e'.span ≤ offset.toNat ∨ offset.toNat + e.span ≤ offset'.toNat := by
  constructor
  · rintro ⟨hin, hapart⟩
    obtain ⟨hapart, -, hlast⟩ := List.pairwise_append.mp hapart
    exact ⟨⟨fun e' he' => hin e' (List.mem_append_left _ he'), hapart⟩,
      hin e (List.mem_append_right _ (List.mem_singleton_self e)),
      fun e' he' => hlast e' he' e (List.mem_singleton_self e)⟩
  · rintro ⟨⟨hin, hapart⟩, hlast, hlater⟩
    refine ⟨fun e' he' => ?_, List.pairwise_append.mpr ⟨hapart, List.pairwise_singleton _ e,
      fun e' he' e'' he'' => ?_⟩⟩
    · obtain he' | he' := List.mem_append.mp he'
      · exact hin e' he'
      · rw [List.mem_singleton.mp he']
        exact hlast
    · rw [List.mem_singleton.mp he'']
      exact hlater e' he'

/-- **When the pool is sound.** The blocks of a history of requests lie in the pool, at multiples
of 16, and do not overlap exactly if no sum of rounded sizes wraps into the pool. The induction is
on the history: a request that gets a block is right if and only if the sum with it has not
wrapped. -/
theorem pool_is_sound_iff (s : List (T × UInt64)) :
    Sound (calls s) ↔ NeverWrapsIntoPool (sizes s) := by
  induction s using List.reverseRecOn with
  | nil =>
    refine ⟨fun _ pre hpre _ => ?_, fun _ => ⟨nofun, List.Pairwise.nil⟩⟩
    rw [List.prefix_nil.mp hpre]
    exact Nat.zero_le _
  | append_singleton s x ih =>
    rw [calls_concat, sizes_concat, neverWraps_concat, sound_concat, ih]
    refine and_congr_right fun hnever => ⟨fun ⟨hin, _⟩ hsome => ?_, fun hlast => ⟨?_, ?_⟩⟩
    · -- The new block is in the pool, so the sum is.
      exact (inside_iff hnever).mp
        (by simpa [Call.span] using hin _ (bootstrap_alloc_eq_some.mpr ⟨rfl, hsome⟩))
    · intro at_ hat
      obtain ⟨rfl, hsome⟩ := bootstrap_alloc_eq_some.mp hat
      exact (inside_iff hnever).mpr (hlast hsome)
    · -- Earlier blocks end before the sum, which is where the new one begins.
      intro e he at' at_ hat' hat
      obtain ⟨rfl, hsome⟩ := bootstrap_alloc_eq_some.mp hat
      have hend := ends_before_total hnever he hat'
      have hle := hlast hsome
      rw [total_concat] at hle
      left
      rw [offset_toNat, Nat.mod_eq_of_lt
        (((Nat.le_add_right _ _).trans hle).trans_lt (UInt64.toNat_lt _))]
      exact (Nat.add_le_add_left (span_le_rounded e) _).trans hend

/-- The blocks of a sound history are told apart from what the real `malloc` returns. -/
theorem Sound.is_bootstrap_ptr {es : List Call} (h : Sound es) {pool : UInt64}
    (hpool : pool.toNat + BOOTSTRAP_POOL_SIZE.toNat < 2 ^ 64) {e : Call} (he : e ∈ es)
    {at_ : UInt64} (hat : e.block = some at_) : is_bootstrap_ptr pool (pool + at_) = true := by
  obtain ⟨-, hend⟩ := h.inside e he at_ hat
  have hspan : 0 < e.span := Nat.lt_of_lt_of_le Nat.one_pos (Nat.le_max_right _ _)
  have hptr : (pool + at_).toNat = pool.toNat + at_.toNat := by
    rw [UInt64.toNat_add, Nat.mod_eq_of_lt (by omega)]
  have hstop : (pool + BOOTSTRAP_POOL_SIZE).toNat = pool.toNat + BOOTSTRAP_POOL_SIZE.toNat := by
    rw [UInt64.toNat_add, Nat.mod_eq_of_lt hpool]
  unfold FreeGuard.is_bootstrap_ptr
  rw [Bool.and_eq_true, decide_eq_true_eq, decide_eq_true_eq, ge_iff_le, UInt64.le_iff_toNat_le,
    UInt64.lt_iff_toNat_lt, hptr, hstop]
  omega

/-- A request for all of the address space gets a block. -/
theorem whole_address_space_is_granted :
    calls [((), (0xffffffffffffffff : UInt64))] = [⟨0xffffffffffffffff, some 0⟩]
      ∧ ¬ Sound (calls [((), (0xffffffffffffffff : UInt64))]) := by
  have hcalls : calls [((), (0xffffffffffffffff : UInt64))] = [⟨0xffffffffffffffff, some 0⟩] := by
    decide +kernel
  refine ⟨hcalls, fun h => ?_⟩
  rw [hcalls] at h
  exact absurd (h.inside _ (List.mem_singleton_self _) 0 rfl).2 (by decide)

end Linuwux.Bootstrap
