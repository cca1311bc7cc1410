/-
`MarkerTable.lean` -- the data of `runtime/src/syscall/reflex_markers.rs`.

A bridge marker says that thread `tid` is about to execute a raw syscall that returns to
`rip` with stack pointer `stack`. The table has 256 of them in nine parallel arrays; here
index `i` of the arrays is one [`Marker`]. A stack word of 0 is a free slot, `u64::MAX` a
reserved one, anything else a published marker.

Only data and what can be computed from it are in this file: where a stack probes, what the
dispatcher decides before it touches the table, and that a saved register survives the way
through two little-endian words. The accesses are in `MarkerThreads.lean`.
-/
import Linuwux.ReflexState
import Mathlib.Data.Fin.Basic
import Mathlib.Logic.Function.Basic
import Mathlib.Data.Fintype.Pi

set_option autoImplicit false

namespace Linuwux.Markers

def MARKER_CAPACITY : ℕ := 256

/-- An index of the table. -/
abbrev Index := Fin MARKER_CAPACITY

/-- `u64::MAX`, the stack word of a reserved slot. -/
def U64_MAX : UInt64 := 0xffffffffffffffff

/-- `RAW_TARGET_TAG` of `kuser_dispatch.rs`. -/
def RAW_TARGET_TAG : UInt64 := 0x8000000000000000

/-- `u64::saturating_add`. -/
def saturating_add (a b : UInt64) : UInt64 := if U64_MAX - b < a then U64_MAX else a + b

/-! ## Threads and stack pointers -/

/-- What `gettid()` returns: a positive `pid_t`. -/
structure Tid where
  val : UInt64
  pos : 0 < val
  pid_t : val < 0x80000000
  deriving DecidableEq

theorem Tid.ext {t u : Tid} (h : t.val = u.val) : t = u := by
  cases t
  cases u
  cases h
  rfl

theorem Tid.val_ne_zero (t : Tid) : t.val ≠ 0 := by
  intro h
  have hpos := t.pos
  rw [h] at hpos
  exact absurd hpos (by decide)

/-- A user-space stack pointer. -/
structure StackPtr where
  val : UInt64
  user : val < 0x800000000000
  deriving DecidableEq

/-! ## Saved registers -/

/-- `u64::from_le_bytes`. -/
def from_le_bytes (b : Fin 8 → UInt8) : UInt64 :=
  .ofNat ((b 0).toNat + (b 1).toNat * 0x100 + (b 2).toNat * 0x10000 + (b 3).toNat * 0x1000000
    + (b 4).toNat * 0x100000000 + (b 5).toNat * 0x10000000000 + (b 6).toNat * 0x1000000000000
    + (b 7).toNat * 0x100000000000000)

/-- `u64::to_le_bytes`. -/
def to_le_bytes (v : UInt64) (i : Fin 8) : UInt8 := .ofNat (v.toNat / 0x100 ^ i.val)

/-- A word is read back as it was stored. -/
theorem to_le_bytes_from_le_bytes (b : Fin 8 → UInt8) : to_le_bytes (from_le_bytes b) = b := by
  have hb : ∀ i, (b i).toNat < 0x100 := fun i => (b i).toNat_lt
  have h0 := hb 0
  have h1 := hb 1
  have h2 := hb 2
  have h3 := hb 3
  have h4 := hb 4
  have h5 := hb 5
  have h6 := hb 6
  have h7 := hb 7
  -- No carry leaves a byte, so each digit is read off on its own.
  have hsum : (from_le_bytes b).toNat = (b 0).toNat + (b 1).toNat * 0x100
      + (b 2).toNat * 0x10000 + (b 3).toNat * 0x1000000 + (b 4).toNat * 0x100000000
      + (b 5).toNat * 0x10000000000 + (b 6).toNat * 0x1000000000000
      + (b 7).toNat * 0x100000000000000 := by
    unfold from_le_bytes
    rw [UInt64.toNat_ofNat']
    omega
  funext i
  apply UInt8.toNat_inj.mp
  rw [to_le_bytes, UInt8.toNat_ofNat', hsum]
  match i with
  | 0 => change _ / 0x1 % _ = _; omega
  | 1 => change _ / 0x100 % _ = _; omega
  | 2 => change _ / 0x10000 % _ = _; omega
  | 3 => change _ / 0x1000000 % _ = _; omega
  | 4 => change _ / 0x100000000 % _ = _; omega
  | 5 => change _ / 0x10000000000 % _ = _; omega
  | 6 => change _ / 0x1000000000000 % _ = _; omega
  | 7 => change _ / 0x100000000000000 % _ = _; omega

/-- An XMM register, `[u8; 16]`. -/
abbrev Xmm := Fin 16 → UInt8

/-- The low or the high half of a register as a word. -/
def half (x : Xmm) (h : Fin 2) : UInt64 :=
  from_le_bytes fun i => x ⟨h.val * 8 + i.val, by omega⟩

/-- The register with these halves. -/
def of_halves (words : Fin 2 → UInt64) : Xmm := fun i =>
  to_le_bytes (words ⟨i.val / 8, by omega⟩) ⟨i.val % 8, by omega⟩

/-- A vector register is put together again from its two words. -/
theorem of_halves_half (x : Xmm) : of_halves (half x) = x := by
  funext i
  unfold of_halves half
  rw [to_le_bytes_from_le_bytes]
  congr 1
  apply Fin.ext
  simp only
  omega

structure SavedContext where
  xmm4 : Xmm
  xmm5 : Xmm
  r11 : UInt64
  eflags : UInt64
  deriving DecidableEq

/-- The six words of a marker that hold a [`SavedContext`]. -/
inductive Word where
  | xmm4 (half : Fin 2)
  | xmm5 (half : Fin 2)
  | r11
  | eflags
  deriving DecidableEq, Repr

namespace Word

/-- The order in which `consume` saves, and `release_marker` clears. -/
def saved : List Word := [.xmm4 0, .xmm5 0, .xmm4 1, .xmm5 1, .r11, .eflags]

/-- The word `consume` saves first. -/
def first_saved : Word := .xmm4 0

/-- The order in which `consume` loads. -/
def loaded : List Word := [.r11, .eflags, .xmm4 0, .xmm5 0, .xmm4 1, .xmm5 1]

/-- Every word of a marker is saved. -/
theorem mem_saved (w : Word) : w ∈ saved := by
  cases w with
  | xmm4 h | xmm5 h => match h with | 0 | 1 => simp [saved]
  | r11 | eflags => simp [saved]

/-- Every word that is saved is loaded. -/
theorem mem_loaded (w : Word) : w ∈ loaded := by
  cases w with
  | xmm4 h | xmm5 h => match h with | 0 | 1 => simp [loaded]
  | r11 | eflags => simp [loaded]

end Word

namespace SavedContext

/-- What `consume` stores in each word. -/
def word (c : SavedContext) : Word → UInt64
  | .xmm4 h => half c.xmm4 h
  | .xmm5 h => half c.xmm5 h
  | .r11 => c.r11
  | .eflags => c.eflags

/-- What `consume` makes of the loaded words. -/
def of_words (words : Word → UInt64) : SavedContext where
  xmm4 := of_halves fun h => words (.xmm4 h)
  xmm5 := of_halves fun h => words (.xmm5 h)
  r11 := words .r11
  eflags := words .eflags

/-- A context survives the way through the table. -/
theorem of_words_word (c : SavedContext) : of_words c.word = c := by
  cases c
  simp only [of_words, word, mk.injEq, and_true]
  exact ⟨of_halves_half _, of_halves_half _⟩

end SavedContext

/-- `is_bypass` of `sigsys_router.rs`. -/
def is_bypass (xmm5 : Xmm) : Bool := half xmm5 0 = Reflex.SYSCALL_BYPASS_MAGIC

/-! ## The table -/

/-- Index `i` of the nine arrays. -/
structure Marker where
  stack : UInt64
  tid : UInt64
  rip : UInt64
  phase : UInt64
  words : Word → UInt64

def Marker.empty : Marker := ⟨0, 0, 0, 0, fun _ => 0⟩

/-- The slot is neither free nor reserved. -/
def Marker.published (k : Marker) : Prop := k.stack ≠ 0 ∧ k.stack ≠ U64_MAX

instance (k : Marker) : Decidable k.published := inferInstanceAs (Decidable (_ ∧ _))

/-- `ACTIVE_MARKERS` and the arrays. -/
structure Table where
  active : UInt32
  markers : Index → Marker

def Table.new : Table := ⟨0, fun _ => .empty⟩

/-- Change one marker. -/
def Table.set (m : Table) (i : Index) (k : Marker) : Table :=
  { m with markers := Function.update m.markers i k }

@[simp] theorem Table.set_active (m : Table) (i : Index) (k : Marker) :
    (m.set i k).active = m.active := rfl

@[simp] theorem Table.set_markers_self (m : Table) (i : Index) (k : Marker) :
    (m.set i k).markers i = k := by
  simp [Table.set]

@[simp] theorem Table.set_set (m : Table) (i : Index) (k k' : Marker) :
    (m.set i k).set i k' = m.set i k' := by
  simp [Table.set]

/-- The other slots keep their markers. -/
theorem Table.set_markers_of_ne (m : Table) {i j : Index} (k : Marker) (h : j ≠ i) :
    (m.set i k).markers j = m.markers j := by
  simp [Table.set, h]

theorem Table.set_markers (m : Table) (i j : Index) (k : Marker) :
    (m.set i k).markers j = if j = i then k else m.markers j :=
  Function.update_apply m.markers i k j

/-- The published marker of thread `t` at an index. What a thread knows about the table is
about these, and nobody else changes them. -/
def Table.marks (m : Table) (t : Tid) (i : Index) : Option Marker :=
  if (m.markers i).tid = t.val ∧ (m.markers i).published then some (m.markers i) else none

/-- A slot is a thread's if its marker is published under the thread's id. -/
theorem Table.marks_eq_some {m : Table} {t : Tid} {i : Index} {k : Marker} :
    m.marks t i = some k ↔ m.markers i = k ∧ k.tid = t.val ∧ k.published := by
  unfold Table.marks
  split
  · rename_i h
    constructor
    · intro hk
      cases hk
      exact ⟨rfl, h⟩
    · rintro ⟨rfl, -⟩
      rfl
  · rename_i h
    constructor
    · nofun
    · rintro ⟨rfl, hk⟩
      exact absurd hk h

theorem Table.marks_eq_none {m : Table} {t : Tid} {i : Index} :
    m.marks t i = none ↔ ¬((m.markers i).tid = t.val ∧ (m.markers i).published) := by
  unfold Table.marks
  split
  · simp_all
  · simp_all

theorem Table.marks_set_of_ne (m : Table) (t : Tid) {i j : Index} (k : Marker) (h : j ≠ i) :
    (m.set i k).marks t j = m.marks t j := by
  unfold Table.marks
  rw [m.set_markers_of_ne k h]

theorem Table.marks_set_self (m : Table) (t : Tid) (i : Index) (k : Marker) :
    (m.set i k).marks t i = if k.tid = t.val ∧ k.published then some k else none := by
  unfold Table.marks
  rw [m.set_markers_self]

/-- Nobody's markers change where a slot is not published before or after. -/
theorem Table.marks_set_unpublished {m : Table} {i : Index} {k : Marker}
    (h : ¬(m.markers i).published) (h' : ¬k.published) (t : Tid) :
    (m.set i k).marks t = m.marks t := by
  funext j
  by_cases hj : j = i
  · subst hj
    rw [m.marks_set_self, if_neg fun hk => h' hk.2, Table.marks_eq_none.mpr fun hk => h hk.2]
  · exact m.marks_set_of_ne t k hj

/-- A free slot is not published. -/
theorem not_published_zero {k : Marker} (h : k.stack = 0) : ¬k.published := fun hp => hp.1 h

/-- A reserved slot is not published. -/
theorem not_published_max {k : Marker} (h : k.stack = U64_MAX) : ¬k.published := fun hp => hp.2 h

/-! ## Probing -/

def marker_slot (stack : UInt64) : Index :=
  ⟨(stack >>> 4).toNat % MARKER_CAPACITY, Nat.mod_lt _ (by decide)⟩

/-- Entry `offset` of `probe_slots`. -/
def probe (stack : UInt64) (offset : Index) : Index :=
  ⟨((marker_slot stack).val + offset.val) % MARKER_CAPACITY, Nat.mod_lt _ (by decide)⟩

/-- Every slot is probed. -/
theorem probe_surjective (stack : UInt64) : Function.Surjective (probe stack) := by
  intro i
  have hs : (marker_slot stack).val < 256 := (marker_slot stack).isLt
  have hi : i.val < 256 := i.isLt
  refine ⟨⟨(256 + i.val - (marker_slot stack).val) % 256, Nat.mod_lt _ (by decide)⟩, ?_⟩
  apply Fin.ext
  simp only [probe, MARKER_CAPACITY]
  omega

/-! ## What a dispatcher entry and a trap bring -/

/-- `DispatchEvidence` of `kuser_dispatch.rs`. -/
structure DispatchEvidence where
  original_dispatcher_known : Bool
  stub_match : Bool
  caller_is_reflex_image : Bool
  raw_syscall_found : Bool
  deriving DecidableEq, Repr

def should_replay_raw (evidence : DispatchEvidence) : Bool :=
  evidence.original_dispatcher_known && evidence.stub_match && !evidence.caller_is_reflex_image
    && evidence.raw_syscall_found

/-- One call of `dispatcher_target`: its stack pointer, and what it learns about its caller
from outside the table. -/
structure Dispatch where
  entry_rsp : StackPtr
  original : UInt64
  stub_match : Bool
  caller_is_reflex_image : Bool
  raw : Option UInt64
  deriving DecidableEq

namespace Dispatch

def trap_rsp (d : Dispatch) : UInt64 := saturating_add d.entry_rsp.val 8

/-- The raw syscall `dispatcher_target` decides to replay. -/
def replays (d : Dispatch) : Option UInt64 :=
  if d.original = 0 ∨ d.stub_match = false then none
  else if d.caller_is_reflex_image then none
  else if !should_replay_raw ⟨true, true, d.caller_is_reflex_image, d.raw.isSome⟩ then none
  else d.raw

def trap_rip (raw : UInt64) : UInt64 := saturating_add raw 2

/-- A user-space stack pointer stays clear of the reserved word. -/
theorem trap_rsp_toNat (d : Dispatch) : d.trap_rsp.toNat = d.entry_rsp.val.toNat + 8 := by
  have hu : d.entry_rsp.val.toNat < 0x800000000000 := UInt64.lt_iff_toNat_lt.mp d.entry_rsp.user
  have hlt : ¬U64_MAX - 8 < d.entry_rsp.val := by
    rw [UInt64.lt_iff_toNat_lt]
    change ¬0xfffffffffffffff7 < _
    omega
  unfold trap_rsp saturating_add
  rw [if_neg hlt, UInt64.toNat_add]
  change (_ + 8) % _ = _
  omega

/-- The depth a bridged call traps at is never that of a free slot. -/
theorem trap_rsp_ne_zero (d : Dispatch) : d.trap_rsp ≠ 0 := by
  intro h
  have hn := d.trap_rsp_toNat
  rw [h] at hn
  change 0 = _ at hn
  omega

/-- It is never that of a reserved slot either. -/
theorem trap_rsp_ne_max (d : Dispatch) : d.trap_rsp ≠ U64_MAX := by
  intro h
  have hn := d.trap_rsp_toNat
  have hu : d.entry_rsp.val.toNat < 0x800000000000 := UInt64.lt_iff_toNat_lt.mp d.entry_rsp.user
  rw [h] at hn
  change 0xffffffffffffffff = _ at hn
  omega

end Dispatch

/-- One SIGSYS trap that reaches `redirect`: the registers it passes on, and what it learns
from outside the table. -/
structure Trap where
  rsp : StackPtr
  rip : UInt64
  context : SavedContext
  is_registered_target_process : Bool
  /-- `route(context)` is some. -/
  route : Bool
  /-- A bypass is completed locally. -/
  bypass_completed : Bool
  deriving DecidableEq

end Linuwux.Markers
