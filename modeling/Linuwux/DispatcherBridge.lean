/-
`DispatcherBridge.lean` -- the instructions of `dispatcher_bridge` in
`runtime/src/syscall/kuser_dispatch.rs`.

The bridge sits in Wine's dispatcher slot. It saves every register in a frame of `0x190` bytes
below the stack pointer, runs `dispatcher_target` on a private stack, restores every register and
jumps to the address it was given: to Wine's dispatcher as if the bridge had not been there, or,
for an address tagged in bit 63, to a raw syscall instruction as if the stub had reached it
itself.

The frame is addressed by literal offsets, in the order of the source here as there. Offsets from
the frame's lowest byte are those of [`slots`]; every proof about the frame goes through that
table. [`dispatcher_bridge_correct`] is about all registers and both exits.
-/
import Linuwux.X86

set_option autoImplicit false

namespace Linuwux.DispatcherBridge

open X86

/-! ## The code -/

def BRIDGE_STACK_SLOTS : ℕ := 1024

def BRIDGE_STACK_SHIFT : ℕ := 15

/-- The size of `BRIDGE_STACKS`. -/
def BRIDGE_STACKS_SIZE : ℕ := BRIDGE_STACK_SLOTS <<< BRIDGE_STACK_SHIFT

def save_xmm : List Instr := [
  .movdqu_store ⟨.rsp, 0x00⟩ .xmm0, .movdqu_store ⟨.rsp, 0x10⟩ .xmm1,
  .movdqu_store ⟨.rsp, 0x20⟩ .xmm2, .movdqu_store ⟨.rsp, 0x30⟩ .xmm3,
  .movdqu_store ⟨.rsp, 0x40⟩ .xmm4, .movdqu_store ⟨.rsp, 0x50⟩ .xmm5,
  .movdqu_store ⟨.rsp, 0x60⟩ .xmm6, .movdqu_store ⟨.rsp, 0x70⟩ .xmm7,
  .movdqu_store ⟨.rsp, 0x80⟩ .xmm8, .movdqu_store ⟨.rsp, 0x90⟩ .xmm9,
  .movdqu_store ⟨.rsp, 0xa0⟩ .xmm10, .movdqu_store ⟨.rsp, 0xb0⟩ .xmm11,
  .movdqu_store ⟨.rsp, 0xc0⟩ .xmm12, .movdqu_store ⟨.rsp, 0xd0⟩ .xmm13,
  .movdqu_store ⟨.rsp, 0xe0⟩ .xmm14, .movdqu_store ⟨.rsp, 0xf0⟩ .xmm15]

def save_gpr : List Instr := [
  .push .rax, .push .rbx, .push .rcx, .push .rdx, .push .rsi, .push .rdi, .push .rbp, .push .r8,
  .push .r9, .push .r10, .push .r11, .push .r12, .push .r13, .push .r14, .push .r15]

/-- The arguments of `dispatcher_target`. -/
def arguments : List Instr := [
  .mov .rbx .rsp,
  .load .rdi ⟨.rbx, 0x188⟩, .lea .r9 ⟨.rbx, 0x188⟩, .load .rsi ⟨.rbx, 0x70⟩,
  .load .rdx ⟨.rbx, 0x28⟩, .load .rcx ⟨.rbx, 0x60⟩, .load .r8 ⟨.rbx, 0xd0⟩]

/-- The private stack of the thread. -/
def find_slot : List Instr := [
  .lea_symbol .r15, .load_gs .rax 0x48, .shr .rax 2,
  .and_dword .rax (.ofNat (BRIDGE_STACK_SLOTS - 1)), .shl .rax (.ofNat BRIDGE_STACK_SHIFT),
  .add .r15 .rax]

def take_lock : List Instr := [
  .label 3, .lock_bts_dword ⟨.r15, 0⟩ 0, .jnc 4, .pause, .jmp 3, .label 4]

def call_target : List Instr := [
  .lea .rsp ⟨.r15, .ofNat (1 <<< BRIDGE_STACK_SHIFT)⟩, .call, .store_dword ⟨.r15, 0⟩ 0,
  .mov .rsp .rbx, .store ⟨.rsp, 0x180⟩ .rax]

def restore_gpr : List Instr := [
  .load .r15 ⟨.rsp, 0x00⟩, .load .r14 ⟨.rsp, 0x08⟩, .load .r13 ⟨.rsp, 0x10⟩,
  .load .r12 ⟨.rsp, 0x18⟩, .load .r11 ⟨.rsp, 0x20⟩, .load .r10 ⟨.rsp, 0x28⟩,
  .load .r9 ⟨.rsp, 0x30⟩, .load .r8 ⟨.rsp, 0x38⟩, .load .rbp ⟨.rsp, 0x40⟩,
  .load .rdi ⟨.rsp, 0x48⟩, .load .rsi ⟨.rsp, 0x50⟩, .load .rdx ⟨.rsp, 0x58⟩,
  .load .rcx ⟨.rsp, 0x60⟩, .load .rbx ⟨.rsp, 0x68⟩, .load .rax ⟨.rsp, 0x70⟩]

def restore_flags : List Instr := [.push_mem ⟨.rsp, 0x78⟩, .popfq]

def restore_xmm : List Instr := [
  .movdqu_load .xmm0 ⟨.rsp, 0x80⟩, .movdqu_load .xmm1 ⟨.rsp, 0x90⟩,
  .movdqu_load .xmm2 ⟨.rsp, 0xa0⟩, .movdqu_load .xmm3 ⟨.rsp, 0xb0⟩,
  .movdqu_load .xmm4 ⟨.rsp, 0xc0⟩, .movdqu_load .xmm5 ⟨.rsp, 0xd0⟩,
  .movdqu_load .xmm6 ⟨.rsp, 0xe0⟩, .movdqu_load .xmm7 ⟨.rsp, 0xf0⟩,
  .movdqu_load .xmm8 ⟨.rsp, 0x100⟩, .movdqu_load .xmm9 ⟨.rsp, 0x110⟩,
  .movdqu_load .xmm10 ⟨.rsp, 0x120⟩, .movdqu_load .xmm11 ⟨.rsp, 0x130⟩,
  .movdqu_load .xmm12 ⟨.rsp, 0x140⟩, .movdqu_load .xmm13 ⟨.rsp, 0x150⟩,
  .movdqu_load .xmm14 ⟨.rsp, 0x160⟩, .movdqu_load .xmm15 ⟨.rsp, 0x170⟩]

/-- `clear_flags` and `set_flags` of the source; the first is a sign-extended `-0x882`. -/
def clear_flags : UInt64 := -0x882

def set_flags : UInt64 := 0x44

/-- Of `int2e.rs`: the flags that `test` clears and sets for a zero result. -/
def TEST_ZERO_CLEAR_FLAGS : UInt64 := 0x881

def TEST_ZERO_SET_FLAGS : UInt64 := 0x44

def tagged_exit : List Instr := [
  .btr ⟨.rsp, 0x180⟩ 63, .and_mem ⟨.rsp, 0x78⟩ clear_flags, .or_mem ⟨.rsp, 0x78⟩ set_flags,
  .push_mem ⟨.rsp, 0x78⟩, .popfq, .lea .rsp ⟨.rsp, 0x190⟩, .jmp_mem ⟨.rsp, -0x10⟩]

def untagged_exit : List Instr := [
  .push_mem ⟨.rsp, 0x78⟩, .popfq, .lea .rsp ⟨.rsp, 0x188⟩, .jmp_mem ⟨.rsp, -8⟩]

def test_tag : List Instr := [.bt ⟨.rsp, 0x180⟩ 63, .jnc 2]

/-- From the tag on. -/
def exits : List Instr := test_tag ++ tagged_exit ++ Instr.label 2 :: untagged_exit

def restore : List Instr := restore_gpr ++ restore_flags ++ restore_xmm

def save : List Instr :=
  Instr.lea .rsp ⟨.rsp, -0x108⟩ :: save_xmm ++ Instr.pushfq :: save_gpr

def dispatcher_bridge : List Instr :=
  save ++ (arguments ++ find_slot ++ (take_lock ++ (call_target ++ restore ++ exits)))

/-- What the System V ABI promises of a function, from its first instruction to its return. The
flags that user code cannot write are not its to change. -/
structure SysV (d d' : Cpu) : Prop where
  rsp : d'.gpr .rsp = d.gpr .rsp + 8
  saved : ∀ r ∈ [Reg.rbx, .rbp, .r12, .r13, .r14, .r15], d'.gpr r = d.gpr r
  system : d'.flags.system = d.flags.system

/-! ## The frame -/

def saved_gpr : List Reg :=
  [.rax, .rbx, .rcx, .rdx, .rsi, .rdi, .rbp, .r8, .r9, .r10, .r11, .r12, .r13, .r14, .r15]

/-- Where the frame keeps each register, counted from its lowest byte. -/
def gpr_slots : List (Reg × ℕ) := push_offsets 8 saved_gpr

def saved_xmm : List XmmReg :=
  [.xmm0, .xmm1, .xmm2, .xmm3, .xmm4, .xmm5, .xmm6, .xmm7, .xmm8, .xmm9, .xmm10, .xmm11, .xmm12,
    .xmm13, .xmm14, .xmm15]

def xmm_slots : List (XmmReg × ℕ) := saved_xmm.zipIdx.map fun p => (p.1, 0x88 + 0x10 * p.2)

/-- The lowest byte of the frame. -/
def frame (c : Cpu) : UInt64 := c.gpr .rsp - 0x190

/-- What the bridge stores in its frame at first. -/
def frame_stores (c : Cpu) : List Store :=
  xmm_slots.map (fun p => .xmm (frame c + .ofNat p.2) (c.xmm p.1))
    ++ .word (frame c + .ofNat 0x80) c.flags.image
    :: gpr_slots.map fun p => .word (frame c + .ofNat p.2) (c.gpr p.1)

/-- The parts of the frame, as offset and length. -/
def spans : List (ℕ × ℕ) :=
  xmm_slots.map (fun p => (p.2, 16)) ++ (0x80, 8) :: gpr_slots.map fun p => (p.2, 8)

theorem frame_stores_spans (c : Cpu) :
    (frame_stores c).map (fun w => (offset (frame c) w.address, w.length)) = spans := by
  have hxmm : ∀ p ∈ xmm_slots, p.2 < 2 ^ 64 := by decide
  have hgpr : ∀ p ∈ gpr_slots, p.2 < 2 ^ 64 := by decide
  unfold frame_stores spans
  rw [List.map_append, List.map_cons, List.map_map, List.map_map]
  congr 1
  · exact List.map_congr_left fun p hp => congrArg (·, 16) (offset_add _ (hxmm p hp))
  · congr 1
    · exact congrArg (·, 8) (offset_add _ (by decide))
    · exact List.map_congr_left fun p hp => congrArg (·, 8) (offset_add _ (hgpr p hp))

theorem frame_stores_span {c : Cpu} {w : Store} (hw : w ∈ frame_stores c) :
    (offset (frame c) w.address, w.length) ∈ spans := by
  rw [← frame_stores_spans c]
  exact List.mem_map_of_mem hw

/-- The parts of the frame do not overlap. -/
theorem frame_stores_apart (c : Cpu) :
    (frame_stores c).Pairwise fun v w => ∀ x, v.Covers x → ¬w.Covers x := by
  have hbound : ∀ p ∈ spans, p.1 + p.2 ≤ 2 ^ 64 := by decide
  have hspans : spans.Pairwise fun p q => p.1 + p.2 ≤ q.1 ∨ q.1 + q.2 ≤ p.1 := by decide
  rw [← frame_stores_spans c, List.pairwise_map] at hspans
  exact pairwise_apart (fun w hw => hbound _ (frame_stores_span hw)) hspans

/-! ## Saving -/

/-- On entry nothing has been stored or called. -/
def entry (c : Cpu) : State := ⟨c, [], [], 0⟩

theorem save_xmm_eq : save_xmm
    = (xmm_slots.map fun p => (p.1, UInt64.ofNat (p.2 - 0x88))).map
      fun p => .movdqu_store ⟨.rsp, p.2⟩ p.1 := by
  decide

theorem save_gpr_eq : save_gpr = saved_gpr.map .push := by decide

theorem exec_save_xmm (env : Env) {c : Cpu} {s : State}
    (hrsp : s.gpr .rsp = frame c + .ofNat 0x88) :
    save_xmm.foldl (Instr.exec env) s
      = s.writes (xmm_slots.map fun p => .xmm (frame c + .ofNat p.2) (s.xmm p.1)) := by
  have hslots : ∀ p ∈ xmm_slots, 0x88 + (p.2 - 0x88) = p.2 := by decide
  rw [save_xmm_eq, exec_movdqu_stores, List.map_map]
  refine congrArg s.writes (List.map_congr_left fun p hp => ?_)
  rw [Function.comp_apply, hrsp, add_ofNat, hslots p hp]

theorem exec_save_gpr (env : Env) {c : Cpu} {s : State}
    (hrsp : s.gpr .rsp = frame c + .ofNat 0x80) :
    save_gpr.foldl (Instr.exec env) s
      = (s.writes (gpr_slots.map fun p => .word (frame c + .ofNat p.2) (s.gpr p.1))).set .rsp
        (frame c + .ofNat 8) := by
  have hpushed := pushed_eq s.gpr (frame c) 8 saved_gpr
  have hlast : frame c + .ofNat 0x80 - 8 * .ofNat saved_gpr.length = frame c + .ofNat 8 := by
    change frame c + 0x80 - 8 * 15 = frame c + 8
    grind
  rw [save_gpr_eq, exec_pushes env saved_gpr (by decide), hrsp, hlast]
  exact congrArg (fun ws => (s.writes ws).set .rsp _) hpushed

/-- The frame after everything has been saved. -/
theorem exec_save (env : Env) (c : Cpu) :
    save.foldl (Instr.exec env) (entry c)
      = ((entry c).writes (frame_stores c)).set .rsp (frame c + .ofNat 8) := by
  have hlea : (entry c).address ⟨.rsp, -0x108⟩ = frame c + .ofNat 0x88 := by
    change c.gpr .rsp + (-0x108) = c.gpr .rsp - 0x190 + 0x88
    grind
  have hpushfq : frame c + .ofNat 0x88 - 8 = frame c + .ofNat 0x80 := by
    change frame c + 0x88 - 8 = frame c + 0x80
    grind
  let low := (entry c).set .rsp (frame c + .ofNat 0x88)
  let xmm_stores : List Store := xmm_slots.map fun p => .xmm (frame c + .ofNat p.2) (c.xmm p.1)
  let flags_store : Store := .word (frame c + .ofNat 0x80) c.flags.image
  have hfirst : (Instr.lea .rsp ⟨.rsp, -0x108⟩).exec env (entry c) = low :=
    congrArg ((entry c).set .rsp) hlea
  have hxmm : save_xmm.foldl (Instr.exec env) low = low.writes xmm_stores :=
    exec_save_xmm env (low.set_gpr_self .rsp _)
  have hflags : Instr.pushfq.exec env (low.writes xmm_stores)
      = (low.writes (xmm_stores ++ [flags_store])).set .rsp (frame c + .ofNat 0x80) := by
    have hrsp : (low.writes xmm_stores).gpr .rsp = frame c + .ofNat 0x88 :=
      (entry c).set_gpr_self .rsp _
    rw [Instr.exec, State.push, hrsp, hpushfq, State.writes_write]
    rfl
  rw [save, List.foldl_append, List.foldl_cons, List.foldl_cons, hfirst, hxmm, hflags,
    exec_save_gpr env (State.set_gpr_self _ _ _), State.set_writes, State.set_set,
    State.writes_writes, State.set_writes, State.set_set]
  refine congrArg (fun ws => ((entry c).writes ws).set .rsp _) ?_
  rw [frame_stores, List.append_assoc, List.singleton_append]
  have hsaved : ∀ p ∈ gpr_slots, p.1 ≠ .rsp := by decide
  refine congrArg (fun ws => xmm_stores ++ flags_store :: ws) (List.map_congr_left fun p hp => ?_)
  rw [State.set_gpr_of_ne _ _ (hsaved p hp)]
  exact congrArg (Store.word _) ((entry c).set_gpr_of_ne _ (hsaved p hp))

/-! ## What stays saved -/

/-- Inside the frame, the word the result is put in and the one below, for the flags. -/
def Scratch (c : Cpu) (x : UInt64) : Prop :=
  offset (frame c) x < 8 ∨ 0x188 ≤ offset (frame c) x ∧ offset (frame c) x < 0x190

/-- The caller's registers are in the frame, and the rest of its stack is as it was. -/
structure Kept (stack : Set UInt64) (c : Cpu) (m : Memory) : Prop where
  gpr : ∀ p ∈ gpr_slots, m.load64 (frame c + .ofNat p.2) = c.gpr p.1
  xmm : ∀ p ∈ xmm_slots, m.load_xmm (frame c + .ofNat p.2) = c.xmm p.1
  flags : m.load64 (frame c + .ofNat 0x80) = c.flags.image
  outside : ∀ x ∈ stack, 0x190 ≤ offset (frame c) x → m x = c.mem x

/-- Of the caller's stack, only bytes of the frame are stored to. -/
def Confined (stack : Set UInt64) (c : Cpu) (w : UInt64 × ℕ) : Prop :=
  ∀ i < w.2, w.1 + .ofNat i ∈ stack → offset (frame c) (w.1 + .ofNat i) < 0x190

structure Saved (stack : Set UInt64) (c : Cpu) (s : State) : Prop where
  kept : Kept stack c s.mem
  system : s.flags.system = c.flags.system
  written : ∀ w ∈ s.written, Confined stack c w

section Rules

variable {stack : Set UInt64} {c : Cpu} (hframe : ∀ x, offset (frame c) x < 0x198 → x ∈ stack)
include hframe

theorem Kept.congr {m m' : Memory} (h : Kept stack c m)
    (hm : ∀ x ∈ stack, ¬Scratch c x → m' x = m x) : Kept stack c m' := by
  have hbyte : ∀ d, 8 ≤ d → d < 0x188 → m' (frame c + .ofNat d) = m (frame c + .ofNat d) := by
    intro d hlow hhigh
    have hoff := offset_add (frame c) (d := d) (by omega)
    refine hm _ (hframe _ (by omega)) ?_
    unfold Scratch
    omega
  have hgpr : ∀ p ∈ gpr_slots, 8 ≤ p.2 ∧ p.2 + 8 ≤ 0x188 := by decide
  have hxmm : ∀ p ∈ xmm_slots, 8 ≤ p.2 ∧ p.2 + 16 ≤ 0x188 := by decide
  refine ⟨fun p hp => ?_, fun p hp => ?_, ?_, fun x hx hout => ?_⟩
  · obtain ⟨hlow, hhigh⟩ := hgpr p hp
    rw [← h.gpr p hp]
    exact Memory.load64_congr fun i hi => hbyte _ (by omega) (by omega)
  · obtain ⟨hlow, hhigh⟩ := hxmm p hp
    rw [← h.xmm p hp]
    exact Memory.load_xmm_congr fun i hi => hbyte _ (by omega) (by omega)
  · rw [← h.flags]
    exact Memory.load64_congr fun i hi => hbyte _ (by omega) (by omega)
  · rw [← h.outside x hx hout]
    refine hm x hx ?_
    unfold Scratch
    omega

end Rules

/-- After saving. -/
theorem saved_entry {stack : Set UInt64} (env : Env) (c : Cpu) :
    Saved stack c (save.foldl (Instr.exec env) (entry c)) := by
  have hgpr : ∀ p ∈ gpr_slots, Store.word (frame c + .ofNat p.2) (c.gpr p.1) ∈ frame_stores c :=
    fun p hp => List.mem_append_right _ (List.mem_cons_of_mem _ (List.mem_map_of_mem hp))
  have hxmm : ∀ p ∈ xmm_slots, Store.xmm (frame c + .ofNat p.2) (c.xmm p.1) ∈ frame_stores c :=
    fun p hp => List.mem_append_left _ (List.mem_map_of_mem hp)
  have hspans : ∀ p ∈ spans, p.1 + p.2 ≤ 0x188 := by decide
  have hapart := frame_stores_apart c
  rw [exec_save]
  refine ⟨⟨fun p hp => ?_, fun p hp => ?_, ?_, fun x hx hout => ?_⟩, rfl, ?_⟩
  · exact Memory.load64_stores hapart (hgpr p hp)
  · exact Memory.load_xmm_stores hapart (hxmm p hp)
  · exact Memory.load64_stores hapart (List.mem_append_right _ List.mem_cons_self)
  · refine Memory.stores_of_not_covers fun w hw => ?_
    have hspan : offset (frame c) w.address + w.length ≤ 0x188 := hspans _ (frame_stores_span hw)
    rw [covers_iff (add_offset (frame c) w.address).symm rfl (by omega)]
    omega
  · intro v hv i hi _
    obtain ⟨w, hw, rfl⟩ := List.mem_map.mp hv
    have hspan : offset (frame c) w.address + w.length ≤ 0x188 := hspans _ (frame_stores_span hw)
    dsimp only at hi ⊢
    rw [← add_offset (frame c) w.address, add_ofNat, offset_add _ (by omega)]
    omega

/-! ## The arguments and the private stack -/

/-- The private stack with an index. -/
def slot_offset (k : ℕ) : ℕ := k * 0x8000

def slot (env : Env) (k : ℕ) : UInt64 := env.symbol + .ofNat (slot_offset k)

theorem slot_offset_le {k : ℕ} (hk : k < BRIDGE_STACK_SLOTS) :
    slot_offset k + 0x8000 ≤ BRIDGE_STACKS_SIZE := by
  have hsize : BRIDGE_STACKS_SIZE = 1024 * 0x8000 := by decide
  have hle : (k + 1) * 0x8000 ≤ 1024 * 0x8000 := Nat.mul_le_mul_right _ hk
  rw [slot_offset, hsize, ← Nat.succ_mul]
  exact hle

theorem frame_add (c : Cpu) : frame c + .ofNat 0x190 = c.gpr .rsp := by
  change c.gpr .rsp - 0x190 + 0x190 = c.gpr .rsp
  grind

/-- What `dispatcher_target` is called with. -/
structure Arguments (c d : Cpu) : Prop where
  rdi : d.gpr .rdi = c.mem.load64 (c.gpr .rsp)
  rsi : d.gpr .rsi = c.gpr .rax
  rdx : d.gpr .rdx = c.gpr .r10
  rcx : d.gpr .rcx = c.gpr .rcx
  r8 : d.gpr .r8 = low_word (c.xmm .xmm5)
  r9 : d.gpr .r9 = c.gpr .rsp

theorem Arguments.congr {c d d' : Cpu} (h : Arguments c d)
    (hgpr : ∀ r ∈ [Reg.rdi, .rsi, .rdx, .rcx, .r8, .r9], d'.gpr r = d.gpr r) : Arguments c d' where
  rdi := (hgpr .rdi (by decide)).trans h.rdi
  rsi := (hgpr .rsi (by decide)).trans h.rsi
  rdx := (hgpr .rdx (by decide)).trans h.rdx
  rcx := (hgpr .rcx (by decide)).trans h.rcx
  r8 := (hgpr .r8 (by decide)).trans h.r8
  r9 := (hgpr .r9 (by decide)).trans h.r9

section Select

variable {stack : Set UInt64} {c : Cpu} (hframe : ∀ x, offset (frame c) x < 0x198 → x ∈ stack)
include hframe

/-- The return address is still there. -/
theorem return_address_kept {m : Memory}
    (hout : ∀ x ∈ stack, 0x190 ≤ offset (frame c) x → m x = c.mem x) :
    m.load64 (c.gpr .rsp) = c.mem.load64 (c.gpr .rsp) := by
  rw [← frame_add]
  refine Memory.load64_congr fun i hi => ?_
  have hoff := offset_add (frame c) (d := 0x190 + i) (by omega)
  exact hout _ (hframe _ (by omega)) (by omega)

theorem exec_arguments (env : Env) {s : State} (h : Saved stack c s)
    (hrsp : s.gpr .rsp = frame c + .ofNat 8) :
    Saved stack c (arguments.foldl (Instr.exec env) s)
      ∧ (arguments.foldl (Instr.exec env) s).gpr .rbx = frame c + .ofNat 8
      ∧ Arguments c (arguments.foldl (Instr.exec env) s).toCpu
      ∧ (arguments.foldl (Instr.exec env) s).calls = s.calls
      ∧ (arguments.foldl (Instr.exec env) s).pauses = s.pauses := by
  have hat : ∀ d, frame c + .ofNat 8 + .ofNat d = frame c + .ofNat (8 + d) :=
    fun d => add_ofNat _ 8 d
  have hret : s.mem.load64 (frame c + .ofNat 8 + 0x188) = c.mem.load64 (c.gpr .rsp) := by
    rw [← return_address_kept hframe h.kept.outside, ← frame_add]
    exact congrArg s.mem.load64 (hat 0x188)
  have hgpr : ∀ (r : Reg) (d : ℕ), (r, 8 + d) ∈ gpr_slots →
      s.mem.load64 (frame c + .ofNat 8 + .ofNat d) = c.gpr r := by
    intro r d hslot
    rw [hat d]
    exact h.kept.gpr (r, 8 + d) hslot
  have hlow : s.mem.load64 (frame c + .ofNat 8 + .ofNat 0xd0) = low_word (c.xmm .xmm5) := by
    rw [hat 0xd0, Memory.load64_eq_low_word]
    exact congrArg low_word (h.kept.xmm (.xmm5, 0xd8) (by decide))
  have hentry : frame c + .ofNat 8 + .ofNat 0x188 = c.gpr .rsp := by
    rw [hat, frame_add]
  -- Each load finds in the frame what the register was on entry.
  let s₁ := s.set .rbx (frame c + .ofNat 8)
  let s₂ := s₁.set .rdi (c.mem.load64 (c.gpr .rsp))
  let s₃ := s₂.set .r9 (c.gpr .rsp)
  let s₄ := s₃.set .rsi (c.gpr .rax)
  let s₅ := s₄.set .rdx (c.gpr .r10)
  let s₆ := s₅.set .rcx (c.gpr .rcx)
  let s₇ := s₆.set .r8 (low_word (c.xmm .xmm5))
  have hrbx : (Instr.mov .rbx .rsp).exec env s = s₁ := congrArg (s.set .rbx) hrsp
  have hrdi : (Instr.load .rdi ⟨.rbx, 0x188⟩).exec env s₁ = s₂ := congrArg (s₁.set .rdi) hret
  have hr9 : (Instr.lea .r9 ⟨.rbx, 0x188⟩).exec env s₂ = s₃ := congrArg (s₂.set .r9) hentry
  have hrsi : (Instr.load .rsi ⟨.rbx, 0x70⟩).exec env s₃ = s₄ :=
    congrArg (s₃.set .rsi) (hgpr .rax 0x70 (by decide))
  have hrdx : (Instr.load .rdx ⟨.rbx, 0x28⟩).exec env s₄ = s₅ :=
    congrArg (s₄.set .rdx) (hgpr .r10 0x28 (by decide))
  have hrcx : (Instr.load .rcx ⟨.rbx, 0x60⟩).exec env s₅ = s₆ :=
    congrArg (s₅.set .rcx) (hgpr .rcx 0x60 (by decide))
  have hr8 : (Instr.load .r8 ⟨.rbx, 0xd0⟩).exec env s₆ = s₇ := congrArg (s₆.set .r8) hlow
  have hvalues : arguments.foldl (Instr.exec env) s = s₇ := by
    rw [arguments, List.foldl_cons, hrbx, List.foldl_cons, hrdi, List.foldl_cons, hr9,
      List.foldl_cons, hrsi, List.foldl_cons, hrdx, List.foldl_cons, hrcx, List.foldl_cons, hr8]
    rfl
  rw [hvalues]
  exact ⟨⟨h.kept, h.system, h.written⟩, rfl, ⟨rfl, rfl, rfl, rfl, rfl, rfl⟩, rfl, rfl⟩

end Select

/-- The index is taken modulo the number of stacks. -/
theorem exec_find_slot (env : Env) {stack : Set UInt64} {c : Cpu} {s : State}
    (h : Saved stack c s) :
    Saved stack c (find_slot.foldl (Instr.exec env) s)
      ∧ (∃ k < BRIDGE_STACK_SLOTS, (find_slot.foldl (Instr.exec env) s).gpr .r15 = slot env k)
      ∧ (∀ r, r ≠ .rax → r ≠ .r15 → (find_slot.foldl (Instr.exec env) s).gpr r = s.gpr r)
      ∧ (find_slot.foldl (Instr.exec env) s).calls = s.calls
      ∧ (find_slot.foldl (Instr.exec env) s).pauses = s.pauses := by
  -- `gs:[0x48]` is the Windows thread id, a multiple of 4.
  let index : UInt32 := (s.mem.load64 (s.gs + 0x48) >>> 2).toUInt32 &&& 1023
  have hr15 : (find_slot.foldl (Instr.exec env) s).gpr .r15 = env.symbol + index.toUInt64 <<< 15 :=
    rfl
  have hlt : index.toNat < 1024 := by
    rw [UInt32.toNat_and]
    exact Nat.and_lt_two_pow _ (n := 10) (by decide)
  have hshift : index.toUInt64 <<< 15 = .ofNat (slot_offset index.toNat) := by
    apply UInt64.toNat_inj.mp
    rw [slot_offset, UInt64.toNat_shiftLeft, UInt32.toNat_toUInt64, UInt64.toNat_ofNat',
      Nat.shiftLeft_eq]
    rfl
  have hsystem : (find_slot.foldl (Instr.exec env) s).flags.system = s.flags.system :=
    (Rflags.write_system _ _).trans ((Rflags.write_system _ _).trans
      ((Rflags.write_system _ _).trans (Rflags.write_system _ _)))
  refine ⟨⟨h.kept, hsystem.trans h.system, h.written⟩, ⟨index.toNat, hlt, ?_⟩, ?_, rfl, rfl⟩
  · rw [hr15, hshift]
    rfl
  · intro r hrax hr15
    cases r with
    | rax => exact absurd rfl hrax
    | r15 => exact absurd rfl hr15
    | _ => rfl

/-! ## The lock -/

/-- The lock of a private stack is not taken. -/
def Free (m : Memory) (lock : UInt64) : Prop := bit (m.load32 lock).toUInt64 0 = false

/-- Memory at an attempt to take the lock, when all attempts before it have failed. -/
def attempt (env : Env) (lock : UInt64) (m : Memory) (pauses : ℕ) : ℕ → Memory
  | 0 => m
  | n + 1 => attempt env lock
      (env.pause pauses (m.store (.dword lock (m.load32 lock ||| mask32 0)))) (pauses + 1) n

/-- What the bridge relies on. The caller's stack has the frame and the return address in it, and
none of `BRIDGE_STACKS`. The function called keeps to the System V ABI and, like the other threads,
off that stack. Whoever has the lock of a private stack releases it. -/
structure Surroundings (env : Env) (c : Cpu) (stack : Set UInt64) : Prop where
  frame : ∀ x, offset (frame c) x < 0x198 → x ∈ stack
  apart : ∀ x ∈ stack, BRIDGE_STACKS_SIZE ≤ offset env.symbol x
  target : ∀ d, SysV d (env.target d)
  target_stack : ∀ d, ∀ x ∈ stack, (env.target d).mem x = d.mem x
  pause_stack : ∀ n m, ∀ x ∈ stack, env.pause n m x = m x
  released : ∀ k < BRIDGE_STACK_SLOTS, ∀ m, ∃ n, Free (attempt env (slot env k) m 0 n) (slot env k)

/-- The text after the lock has been taken. -/
def locked : List Instr := call_target ++ restore ++ exits

section Lock

variable {env : Env} {c : Cpu} {stack : Set UInt64} (hs : Surroundings env c stack)
include hs

/-- A store to the private stacks. -/
theorem Saved.write_private {s : State} (h : Saved stack c s) {w : Store} {d n : ℕ}
    (hw : w.address = env.symbol + .ofNat d) (hn : w.length = n) (hd : d + n ≤ BRIDGE_STACKS_SIZE) :
    Saved stack c (s.write w) := by
  have hsize : BRIDGE_STACKS_SIZE < 2 ^ 64 := by decide
  refine ⟨h.kept.congr hs.frame fun x hx _ => if_neg ?_, h.system, fun v hv => ?_⟩
  · rw [covers_iff hw hn (by omega)]
    have hout := hs.apart x hx
    omega
  · rcases List.mem_append.mp hv with hold | hnew
    · exact h.written v hold
    · rw [List.mem_singleton.mp hnew]
      intro i hi hx
      have hout := hs.apart _ hx
      dsimp only at hi hout
      rw [hw, add_ofNat, offset_add _ (by omega)] at hout
      omega

omit hs in
theorem Saved.set {s : State} (h : Saved stack c s) (r : Reg) (v : UInt64) :
    Saved stack c (s.set r v) := by
  obtain ⟨-, hflags, hmem, hwritten⟩ := s.set_frame r v
  refine ⟨?_, ?_, ?_⟩
  · rw [hmem]
    exact h.kept
  · rw [hflags]
    exact h.system
  · rw [hwritten]
    exact h.written

omit hs in
theorem Saved.set_carry {s : State} (h : Saved stack c s) (status : UInt64) (carry : Bool) :
    Saved stack c (s.set_carry status carry) := by
  obtain ⟨-, -, hmem, hwritten, -⟩ :=
    s.set_flags_frame (status &&& ~~~1 ||| if carry then 1 else 0)
  refine ⟨?_, (State.set_carry_system _ _ _).trans h.system, ?_⟩
  · rw [State.set_carry, hmem]
    exact h.kept
  · rw [State.set_carry, hwritten]
    exact h.written

/-- One attempt at the lock. -/
def attempted (env : Env) (lock : UInt64) (s : State) : State :=
  (s.write (.dword lock (s.mem.load32 lock ||| mask32 0))).set_carry (env.status s.toCpu)
    (bit (s.mem.load32 lock).toUInt64 0)

omit hs in
theorem attempted_frame (env : Env) (lock : UInt64) (s : State) :
    (attempted env lock s).gpr = s.gpr
      ∧ (attempted env lock s).mem = s.mem.store (.dword lock (s.mem.load32 lock ||| mask32 0))
      ∧ (attempted env lock s).calls = s.calls ∧ (attempted env lock s).pauses = s.pauses := by
  obtain ⟨hgpr, -, hmem, -, hcalls, hpauses⟩ :=
    (s.write (.dword lock (s.mem.load32 lock ||| mask32 0))).set_flags_frame
      (env.status s.toCpu &&& ~~~1 ||| if bit (s.mem.load32 lock).toUInt64 0 then 1 else 0)
  exact ⟨hgpr, hmem, hcalls, hpauses⟩

/-- After an attempt the lock is taken, by this thread or by another. -/
theorem attempted_spec {k : ℕ} (hk : k < BRIDGE_STACK_SLOTS) {s : State} (h : Saved stack c s) :
    Saved stack c (attempted env (slot env k) s)
      ∧ ¬Free (attempted env (slot env k) s).mem (slot env k) := by
  have hbound := slot_offset_le hk
  have hroom : slot_offset k + 4 ≤ BRIDGE_STACKS_SIZE := by omega
  have hwrite := h.write_private hs (w := .dword (slot env k) (s.mem.load32 (slot env k)
    ||| mask32 0)) rfl rfl hroom
  refine ⟨hwrite.set_carry _ _, fun hfree => ?_⟩
  have hbit : bit (mask32 0).toUInt64 0 = true := by decide
  rw [Free, (attempted_frame env (slot env k) s).2.1, Memory.load32_store, UInt32.toUInt64_or,
    bit_or, hbit, Bool.or_true] at hfree
  cases hfree

omit hs in
/-- `lock bts` and the jump after it. -/
theorem attempt_leads {k : ℕ} {s : State} (hr15 : s.gpr .r15 = slot env k) :
    Leads env dispatcher_bridge (.running (take_lock.tail ++ locked) s)
      (.running (if bit (s.mem.load32 (slot env k)).toUInt64 0
        then .pause :: .jmp 3 :: .label 4 :: locked else locked)
        (attempted env (slot env k) s)) := by
  have haddress : s.address ⟨.r15, 0⟩ = slot env k := by
    rw [← hr15]
    exact UInt64.add_zero _
  have hexec : (Instr.lock_bts_dword ⟨.r15, 0⟩ 0).exec env s = attempted env (slot env k) s := by
    rw [Instr.exec, haddress]
    rfl
  have hcarry : (attempted env (slot env k) s).flags.carry
      = bit (s.mem.load32 (slot env k)).toUInt64 0 := State.set_carry_carry _ _ _
  have hbts : next env dispatcher_bridge (.running (take_lock.tail ++ locked) s)
      = .running (.jnc 4 :: .pause :: .jmp 3 :: .label 4 :: locked)
        (attempted env (slot env k) s) :=
    congrArg (Status.running _) hexec
  refine (Leads.of_next hbts).trans (Leads.of_next ?_)
  rw [next, hcarry]
  split
  · rfl
  · rfl

theorem take_lock_leads {k : ℕ} (hk : k < BRIDGE_STACK_SLOTS) (n : ℕ) {s : State}
    (h : Saved stack c s) (hr15 : s.gpr .r15 = slot env k)
    (hfree : Free (attempt env (slot env k) s.mem s.pauses n) (slot env k)) :
    ∃ s', Leads env dispatcher_bridge (.running (take_lock.tail ++ locked) s) (.running locked s')
      ∧ Saved stack c s' ∧ s'.gpr = s.gpr ∧ s'.calls = s.calls ∧ ¬Free s'.mem (slot env k) := by
  -- The induction is on the number of failed attempts.
  induction n generalizing s with
  | zero =>
    have hfirst := attempt_leads (s := s) hr15
    have hbit : bit (s.mem.load32 (slot env k)).toUInt64 0 = false := hfree
    rw [hbit, if_neg Bool.false_ne_true] at hfirst
    obtain ⟨hsaved, htaken⟩ := attempted_spec hs hk h
    obtain ⟨hgpr, -, hcalls, -⟩ := attempted_frame env (slot env k) s
    exact ⟨_, hfirst, hsaved, hgpr, hcalls, htaken⟩
  | succ n ih =>
    have hfirst := attempt_leads (s := s) hr15
    obtain ⟨hsaved, htaken⟩ := attempted_spec hs hk h
    obtain ⟨hgpr, hmem, hcalls, hpauses⟩ := attempted_frame env (slot env k) s
    generalize attempted env (slot env k) s = s₁ at *
    cases hbit : bit (s.mem.load32 (slot env k)).toUInt64 0 with
    | false =>
      rw [hbit, if_neg Bool.false_ne_true] at hfirst
      exact ⟨_, hfirst, hsaved, hgpr, hcalls, htaken⟩
    | true =>
      rw [hbit, if_pos rfl] at hfirst
      have hpause : Leads env dispatcher_bridge
          (.running (.pause :: .jmp 3 :: .label 4 :: locked) s₁)
          (.running (take_lock.tail ++ locked) (Instr.pause.exec env s₁)) :=
        (Leads.of_next rfl).trans (Leads.of_next rfl)
      obtain ⟨hgpr₂, hflags₂, hmem₂, hwritten₂, hcalls₂, hpauses₂⟩ := exec_pause_frame env s₁
      generalize Instr.pause.exec env s₁ = s₂ at *
      -- Other threads keep off the stack while this one pauses.
      have hkept : Kept stack c s₂.mem := by
        rw [hmem₂]
        exact hsaved.kept.congr hs.frame fun x hx _ => hs.pause_stack _ _ x hx
      have hsaved₂ : Saved stack c s₂ :=
        ⟨hkept, by rw [hflags₂]; exact hsaved.system, by rw [hwritten₂]; exact hsaved.written⟩
      have hr15₂ : s₂.gpr .r15 = slot env k := by
        rw [hgpr₂, hgpr]
        exact hr15
      rw [attempt, ← hmem, ← hpauses, ← hmem₂, ← hpauses₂] at hfree
      obtain ⟨s', hrest, hsaved', hgpr', hcalls', htaken'⟩ := ih hsaved₂ hr15₂ hfree
      exact ⟨s', (hfirst.trans hpause).trans hrest, hsaved', hgpr'.trans (hgpr₂.trans hgpr),
        hcalls'.trans (hcalls₂.trans hcalls), htaken'⟩

end Lock

/-! ## The call -/

theorem confined_frame {stack : Set UInt64} {c : Cpu} {w : Store} {e n : ℕ}
    (hw : w.address = frame c + .ofNat e) (hn : w.length = n) (he : e + n ≤ 0x190) :
    Confined stack c (w.address, w.length) := by
  intro i hi _
  dsimp only at hi ⊢
  rw [hw, add_ofNat, offset_add _ (by omega)]
  omega

section Call

variable {env : Env} {c : Cpu} {stack : Set UInt64} (hs : Surroundings env c stack)
include hs

/-- A store to the frame where nothing is saved. -/
theorem Saved.write_scratch {s : State} (h : Saved stack c s) {w : Store} {e n : ℕ}
    (hw : w.address = frame c + .ofNat e) (hn : w.length = n)
    (he : e + n ≤ 8 ∨ 0x188 ≤ e ∧ e + n ≤ 0x190) : Saved stack c (s.write w) := by
  refine ⟨h.kept.congr hs.frame fun x hx hscratch => if_neg ?_, h.system, fun v hv => ?_⟩
  · rw [covers_iff hw hn (by omega)]
    unfold Scratch at hscratch
    omega
  · rcases List.mem_append.mp hv with hold | hnew
    · exact h.written v hold
    · rw [List.mem_singleton.mp hnew]
      exact confined_frame hw hn (by omega)

/-- A store to the frame does not touch a lock. -/
theorem load32_slot_store {k : ℕ} (hk : k < BRIDGE_STACK_SLOTS) (m : Memory) {w : Store}
    {e n : ℕ} (hw : w.address = frame c + .ofNat e) (hn : w.length = n) (he : e + n ≤ 0x190) :
    (m.store w).load32 (slot env k) = m.load32 (slot env k) := by
  refine Memory.load32_store_apart m fun i hi hcov => ?_
  rw [covers_iff hw hn (by omega)] at hcov
  have hout := hs.apart _ (hs.frame (slot env k + .ofNat i) (by omega))
  have hbound := slot_offset_le hk
  have hsize : BRIDGE_STACKS_SIZE < 2 ^ 64 := by decide
  rw [slot, add_ofNat, offset_add _ (by omega)] at hout
  omega

theorem exec_call_target {k : ℕ} (hk : k < BRIDGE_STACK_SLOTS) {s : State} (h : Saved stack c s)
    (hrbx : s.gpr .rbx = frame c + .ofNat 8) (hr15 : s.gpr .r15 = slot env k)
    (harguments : Arguments c s.toCpu) (hlock : ¬Free s.mem (slot env k)) :
    ∃ d s', call_target.foldl (Instr.exec env) s = s' ∧ s'.calls = s.calls ++ [d]
      ∧ Arguments c d ∧ d.gpr .r15 = slot env k ∧ ¬Free d.mem (slot env k)
      ∧ Saved stack c s' ∧ s'.gpr .rsp = frame c + .ofNat 8
      ∧ s'.mem.load64 (frame c + .ofNat 0x188) = (env.target d).gpr .rax
      ∧ s'.mem.load32 (slot env k) = 0 := by
  have hbound := slot_offset_le hk
  have hsize : BRIDGE_STACKS_SIZE < 2 ^ 64 := by decide
  obtain ⟨top, htop⟩ : ∃ top, top = slot env k + .ofNat (1 <<< BRIDGE_STACK_SHIFT) := ⟨_, rfl⟩
  obtain ⟨last, hlast⟩ : ∃ last, last = slot_offset k + 0x7ff8 := ⟨_, rfl⟩
  have hpush : top - 8 = env.symbol + .ofNat last := by
    rw [htop, hlast, UInt64.ofNat_add]
    change env.symbol + .ofNat (slot_offset k) + 0x8000 - 8
      = env.symbol + (.ofNat (slot_offset k) + 0x7ff8)
    grind
  let s₁ := s.set .rsp top
  let pushed := s₁.write (.word (top - 8) env.return_address)
  let called := pushed.set .rsp (top - 8)
  let d := called.toCpu
  let s₂ : State := { called with toCpu := env.target d, calls := s.calls ++ [d] }
  let s₃ := s₂.write (.dword (slot env k) 0)
  let s₄ := s₃.set .rsp (frame c + .ofNat 8)
  let result : Store := .word (frame c + .ofNat 0x188) ((env.target d).gpr .rax)
  have habi := hs.target d
  have hrsp : (Instr.lea .rsp ⟨.r15, .ofNat (1 <<< BRIDGE_STACK_SHIFT)⟩).exec env s = s₁ := by
    rw [Instr.exec, State.address, hr15, ← htop]
  have hcall : Instr.call.exec env s₁ = s₂ := rfl
  -- The callee keeps `r15` and `rbx`: the way back to the lock and to the frame.
  have hr15' : s₂.gpr .r15 = slot env k := (habi.saved .r15 (by decide)).trans hr15
  have hunlock : (Instr.store_dword ⟨.r15, 0⟩ 0).exec env s₂ = s₃ :=
    congrArg (fun a => s₂.write (.dword a 0)) ((UInt64.add_zero _).trans hr15')
  have hrbx' : s₃.gpr .rbx = frame c + .ofNat 8 := (habi.saved .rbx (by decide)).trans hrbx
  have hback : (Instr.mov .rsp .rbx).exec env s₃ = s₄ := congrArg (s₃.set .rsp) hrbx'
  have hstore : (Instr.store ⟨.rsp, 0x180⟩ .rax).exec env s₄ = s₄.write result :=
    congrArg (fun a => s₄.write (.word a _)) (add_ofNat (frame c) 8 0x180)
  have hrun : call_target.foldl (Instr.exec env) s = s₄.write result := by
    rw [call_target, List.foldl_cons, hrsp, List.foldl_cons, hcall, List.foldl_cons, hunlock,
      List.foldl_cons, hback, List.foldl_cons, hstore]
    rfl
  -- The return address goes to the top of the private stack, away from the lock at its bottom.
  have hsaved₁ : Saved stack c s₁ := h.set .rsp top
  have hpushed : Saved stack c pushed := hsaved₁.write_private hs (n := 8) hpush rfl (by omega)
  have hcalled : Saved stack c called := hpushed.set .rsp (top - 8)
  have hkept₂ : Kept stack c s₂.mem :=
    hcalled.kept.congr hs.frame fun x hx _ => hs.target_stack d x hx
  have hsaved₂ : Saved stack c s₂ := ⟨hkept₂, habi.system.trans hcalled.system, hcalled.written⟩
  have hsaved₃ : Saved stack c s₃ := hsaved₂.write_private hs (n := 4) rfl rfl (by omega)
  have hsaved₄ : Saved stack c s₄ := hsaved₃.set .rsp _
  have hlock' : pushed.mem.load32 (slot env k) = s.mem.load32 (slot env k) := by
    refine Memory.load32_store_apart s.mem fun i hi hcov => ?_
    rw [covers_iff (w := .word (top - 8) env.return_address) (n := 8) hpush rfl (by omega), slot,
      add_ofNat, offset_add _ (by omega)] at hcov
    omega
  have harguments' : Arguments c d := harguments.congr fun r hr => by
    have hne : r ≠ .rsp := fun heq => absurd (heq ▸ hr) (by decide)
    exact (pushed.set_gpr_of_ne (top - 8) hne).trans (s.set_gpr_of_ne top hne)
  refine ⟨d, s₄.write result, hrun, rfl, harguments', hr15, ?_, hsaved₄.write_scratch hs
    (n := 8) rfl rfl (by decide), rfl, Memory.load64_store _ _ _, ?_⟩
  · intro hfree
    unfold Free at hfree hlock
    exact hlock (by rw [← hlock']; exact hfree)
  · rw [← Memory.load32_store s₂.mem (slot env k) 0]
    exact load32_slot_store hs hk s₃.mem (n := 8) rfl rfl (by decide)

end Call

/-! ## Restoring -/

theorem restore_gpr_eq : restore_gpr
    = (gpr_slots.reverse.map fun p => (p.1, UInt64.ofNat (p.2 - 8))).map
      fun p => .load p.1 ⟨.rsp, p.2⟩ := by
  decide

theorem restore_xmm_eq : restore_xmm
    = (xmm_slots.map fun p => (p.1, UInt64.ofNat (p.2 - 8))).map
      fun p => .movdqu_load p.1 ⟨.rsp, p.2⟩ := by
  decide

section Restore

variable (env : Env) {c : Cpu} {stack : Set UInt64} {s : State}

theorem exec_restore_gpr (h : Kept stack c s.mem) (hrsp : s.gpr .rsp = frame c + .ofNat 8) :
    restore_gpr.foldl (Instr.exec env) s
      = { s with gpr := Function.update c.gpr .rsp (frame c + .ofNat 8) } := by
  have hslots : ∀ p ∈ gpr_slots, 8 + (p.2 - 8) = p.2 ∧ p.1 ≠ .rsp := by decide
  -- Every register but `rsp` has its slot.
  have hall : ∀ r : Reg, r ∈ (gpr_slots.reverse.map fun p => (p.1, UInt64.ofNat (p.2 - 8))).map
      Prod.fst ↔ r ≠ .rsp := by
    intro r
    cases r <;> decide
  rw [restore_gpr_eq, exec_loads env c.gpr]
  · refine congrArg (fun gpr => { s with gpr := gpr }) (funext fun r => ?_)
    by_cases hr : r = .rsp
    · rw [if_neg fun hmem => (hall r).mp hmem hr, hr, hrsp, Function.update_self]
    · rw [if_pos ((hall r).mpr hr), Function.update_of_ne hr]
  · intro q hq
    obtain ⟨p, hp, rfl⟩ := List.mem_map.mp hq
    have hp := List.mem_reverse.mp hp
    obtain ⟨hoffset, hne⟩ := hslots p hp
    refine ⟨hne, ?_⟩
    rw [hrsp, add_ofNat, hoffset]
    exact h.gpr p hp

theorem exec_restore_xmm (h : Kept stack c s.mem) (hrsp : s.gpr .rsp = frame c + .ofNat 8) :
    restore_xmm.foldl (Instr.exec env) s = { s with xmm := c.xmm } := by
  have hslots : ∀ p ∈ xmm_slots, 8 + (p.2 - 8) = p.2 := by decide
  have hall : ∀ i : XmmReg, i ∈ (xmm_slots.map fun p => (p.1, UInt64.ofNat (p.2 - 8))).map
      Prod.fst := by
    intro i
    cases i <;> decide
  rw [restore_xmm_eq, exec_movdqu_loads env c.xmm]
  · exact congrArg (fun xmm => { s with xmm := xmm }) (funext fun i => if_pos (hall i))
  · intro q hq
    obtain ⟨p, hp, rfl⟩ := List.mem_map.mp hq
    rw [hrsp, add_ofNat, hslots p hp]
    exact h.xmm p hp

/-- The flags go through the word below the frame. -/
theorem exec_restore_flags {image : UInt64} (hrsp : s.gpr .rsp = frame c + .ofNat 8)
    (himage : s.mem.load64 (frame c + .ofNat 0x80) = image) :
    restore_flags.foldl (Instr.exec env) s
      = (s.write (.word (frame c + .ofNat 0) image)).set_flags image := by
  have hbelow : frame c + .ofNat 8 - 8 = frame c + .ofNat 0 := by
    change frame c + 8 - 8 = frame c + 0
    grind
  have hpush : (Instr.push_mem ⟨.rsp, 0x78⟩).exec env s = s.push image := by
    rw [Instr.exec, State.address, hrsp, ← himage]
    exact congrArg (fun a => s.push (s.mem.load64 a)) (add_ofNat (frame c) 8 0x78)
  rw [restore_flags, List.foldl_cons, hpush, List.foldl_cons, exec_popfq_push, hrsp, hbelow]
  rfl

end Restore

/-- The registers are back, the result is in the frame, and the lock is free. -/
structure Restored (env : Env) (c : Cpu) (stack : Set UInt64) (k : ℕ) (result : UInt64)
    (s : State) : Prop where
  saved : Saved stack c s
  gpr : s.gpr = Function.update c.gpr .rsp (frame c + .ofNat 8)
  xmm : s.xmm = c.xmm
  result : s.mem.load64 (frame c + .ofNat 0x188) = result
  lock : s.mem.load32 (slot env k) = 0

section Exit

variable {env : Env} {c : Cpu} {stack : Set UInt64} (hs : Surroundings env c stack)
  {k : ℕ} (hk : k < BRIDGE_STACK_SLOTS) {result : UInt64}
include hs hk

theorem exec_restore {s : State} (h : Saved stack c s) (hrsp : s.gpr .rsp = frame c + .ofNat 8)
    (hresult : s.mem.load64 (frame c + .ofNat 0x188) = result)
    (hlock : s.mem.load32 (slot env k) = 0) :
    Restored env c stack k result (restore.foldl (Instr.exec env) s)
      ∧ (restore.foldl (Instr.exec env) s).calls = s.calls := by
  let flags : Store := .word (frame c + .ofNat 0) c.flags.image
  let s₁ : State := { s with gpr := Function.update c.gpr .rsp (frame c + .ofNat 8) }
  let s₂ := (s₁.write flags).set_flags c.flags.image
  have hsaved₁ : Saved stack c s₁ := ⟨h.kept, h.system, h.written⟩
  have hrsp₁ : s₁.gpr .rsp = frame c + .ofNat 8 := by
    simp [s₁]
  have hsaved₂ : Saved stack c (s₁.write flags) :=
    hsaved₁.write_scratch hs (n := 8) rfl rfl (by decide)
  have hflags : s₁.flags.write c.flags.image = c.flags := Rflags.write_image h.system
  have hrun : restore.foldl (Instr.exec env) s = { s₂ with xmm := c.xmm } := by
    rw [restore, List.foldl_append, List.foldl_append, exec_restore_gpr env h.kept hrsp,
      exec_restore_flags env hrsp₁ h.kept.flags]
    exact exec_restore_xmm env hsaved₂.kept hrsp₁
  rw [hrun]
  refine ⟨⟨⟨hsaved₂.kept, congrArg Rflags.system hflags, hsaved₂.written⟩, rfl, rfl, ?_, ?_⟩, rfl⟩
  · rw [← hresult]
    exact Memory.load64_store_apart s.mem (n := 8) rfl rfl (by decide) (by decide) (by decide)
  · rw [← hlock]
    exact load32_slot_store hs hk s.mem (n := 8) rfl rfl (by decide)

/-- What the bridge has done when it jumps away. -/
structure Left (env : Env) (c : Cpu) (stack : Set UInt64) (k : ℕ) (s : State) : Prop where
  xmm : s.xmm = c.xmm
  outside : ∀ x ∈ stack, 0x190 ≤ offset (frame c) x → s.mem x = c.mem x
  written : ∀ w ∈ s.written, Confined stack c w
  lock : s.mem.load32 (slot env k) = 0

omit hs hk in
theorem Left.set_flags {s : State} (h : Left env c stack k s) (image : UInt64) :
    Left env c stack k (s.set_flags image) :=
  ⟨h.xmm, h.outside, h.written, h.lock⟩

/-- A store to the frame, at the end. -/
theorem Left.write_frame {s : State} (h : Left env c stack k s) {w : Store} {e n : ℕ}
    (hw : w.address = frame c + .ofNat e) (hn : w.length = n) (he : e + n ≤ 0x190) :
    Left env c stack k (s.write w) := by
  refine ⟨h.xmm, fun x hx hout => ?_, fun v hv => ?_, ?_⟩
  · rw [← h.outside x hx hout]
    refine if_neg ?_
    rw [covers_iff hw hn (by omega)]
    omega
  · rcases List.mem_append.mp hv with hold | hnew
    · exact h.written v hold
    · rw [List.mem_singleton.mp hnew]
      exact confined_frame hw hn he
  · rw [← h.lock]
    exact load32_slot_store hs hk s.mem hw hn he

omit hs hk in
/-- How both exits end: the flags, the stack pointer, and the jump through the frame. -/
theorem leave_leads {s : State} {image target rsp d e : UInt64}
    (hrsp : s.gpr .rsp = frame c + .ofNat 8)
    (himage : s.mem.load64 (frame c + .ofNat 0x80) = image)
    (htarget : s.mem.load64 (frame c + .ofNat 0x188) = target)
    (hd : frame c + .ofNat 8 + d = rsp) (he : rsp + e = frame c + .ofNat 0x188)
    (text : List Instr) :
    Leads env dispatcher_bridge
      (.running (restore_flags ++ .lea .rsp ⟨.rsp, d⟩ :: .jmp_mem ⟨.rsp, e⟩ :: text) s)
      (.left target (((s.write (.word (frame c + .ofNat 0) image)).set_flags image).set .rsp
        rsp)) := by
  let t := (s.write (.word (frame c + .ofNat 0) image)).set_flags image
  have hlea : (Instr.lea .rsp ⟨.rsp, d⟩).exec env t = t.set .rsp rsp := by
    refine congrArg (t.set .rsp) ?_
    rw [← hd, ← hrsp]
    rfl
  have hload : t.mem.load64 (rsp + e) = target := by
    rw [he, ← htarget]
    exact Memory.load64_store_apart s.mem (n := 8) rfl rfl (by decide) (by decide) (by decide)
  have hjump : next env dispatcher_bridge (.running (.jmp_mem ⟨.rsp, e⟩ :: text) (t.set .rsp rsp))
      = .left target (t.set .rsp rsp) := by
    rw [next, State.address, State.set_gpr_self]
    exact congrArg (fun a => Status.left a (t.set .rsp rsp)) hload
  have hflags := leads_straight env dispatcher_bridge restore_flags (by decide)
    (.lea .rsp ⟨.rsp, d⟩ :: .jmp_mem ⟨.rsp, e⟩ :: text) s
  rw [exec_restore_flags env hrsp himage] at hflags
  have hmove : Leads env dispatcher_bridge
      (.running (.lea .rsp ⟨.rsp, d⟩ :: .jmp_mem ⟨.rsp, e⟩ :: text) t)
      (.running (.jmp_mem ⟨.rsp, e⟩ :: text) (t.set .rsp rsp)) :=
    Leads.of_next (congrArg (Status.running _) hlea)
  exact (hflags.trans hmove).trans (Leads.of_next hjump)

/-- Off to Wine's dispatcher. -/
theorem untagged_exit_leads {s : State} (h : Restored env c stack k result s) :
    ∃ s', Leads env dispatcher_bridge (.running untagged_exit s) (.left result s')
      ∧ Left env c stack k s' ∧ s'.calls = s.calls ∧ s'.gpr = c.gpr ∧ s'.flags = c.flags := by
  have hrsp : s.gpr .rsp = frame c + .ofNat 8 := by
    rw [h.gpr, Function.update_self]
  have hleft : Left env c stack k s := ⟨h.xmm, h.saved.kept.outside, h.saved.written, h.lock⟩
  have hd : frame c + .ofNat 8 + 0x188 = c.gpr .rsp := by
    rw [← frame_add]
    exact add_ofNat (frame c) 8 0x188
  have he : c.gpr .rsp + (-8) = frame c + .ofNat 0x188 := by
    change c.gpr .rsp + (-8) = c.gpr .rsp - 0x190 + 0x188
    grind
  have hlast := hleft.write_frame hs hk (w := .word (frame c + .ofNat 0) c.flags.image) (n := 8)
    rfl rfl (by decide)
  refine ⟨_, leave_leads hrsp h.saved.kept.flags h.result hd he [],
    ⟨hlast.xmm, hlast.outside, hlast.written, hlast.lock⟩, rfl, ?_, ?_⟩
  · change Function.update s.gpr .rsp (c.gpr .rsp) = c.gpr
    rw [h.gpr, Function.update_idem, Function.update_eq_self]
  · exact Rflags.write_image h.saved.system

/-- The tag is cleared, and the saved flags are changed to those after the `test`. -/
theorem exec_untag {s : State} (h : Restored env c stack k result s) :
    ∃ s', [Instr.btr ⟨.rsp, 0x180⟩ 63, .and_mem ⟨.rsp, 0x78⟩ clear_flags,
        .or_mem ⟨.rsp, 0x78⟩ set_flags].foldl (Instr.exec env) s = s'
      ∧ s'.gpr = s.gpr ∧ s'.calls = s.calls ∧ s'.flags.system = c.flags.system
      ∧ s'.mem.load64 (frame c + .ofNat 0x80)
        = c.flags.image &&& ~~~TEST_ZERO_CLEAR_FLAGS ||| TEST_ZERO_SET_FLAGS
      ∧ s'.mem.load64 (frame c + .ofNat 0x188) = result &&& ~~~mask 63
      ∧ Left env c stack k s' := by
  have hrsp : s.gpr .rsp = frame c + .ofNat 8 := by
    rw [h.gpr, Function.update_self]
  -- The source's immediates are the constants of `int2e.rs`, written out.
  have hclear : clear_flags = ~~~TEST_ZERO_CLEAR_FLAGS := by decide
  have hset : set_flags = TEST_ZERO_SET_FLAGS := rfl
  have hleft : Left env c stack k s := ⟨h.xmm, h.saved.kept.outside, h.saved.written, h.lock⟩
  have hat : ∀ d, s.gpr .rsp + .ofNat d = frame c + .ofNat (8 + d) := by
    intro d
    rw [hrsp, add_ofNat]
  rw [hclear, hset]
  generalize ~~~TEST_ZERO_CLEAR_FLAGS = clear
  generalize TEST_ZERO_SET_FLAGS = set
  let target : Store := .word (frame c + .ofNat 0x188) (result &&& ~~~mask 63)
  let cleared : Store := .word (frame c + .ofNat 0x80) (c.flags.image &&& clear)
  let changed : Store := .word (frame c + .ofNat 0x80) (c.flags.image &&& clear ||| set)
  let s₁ := (s.write target).set_carry (env.status s.toCpu) (bit result 63)
  let s₂ := (s₁.write cleared).set_flags (env.status s₁.toCpu)
  let s₃ := (s₂.write changed).set_flags (env.status s₂.toCpu)
  have himage₁ : s₁.mem.load64 (frame c + .ofNat 0x80) = c.flags.image := by
    rw [← h.saved.kept.flags]
    exact Memory.load64_store_apart s.mem (n := 8) rfl rfl (by decide) (by decide) (by decide)
  have himage₂ : s₂.mem.load64 (frame c + .ofNat 0x80) = c.flags.image &&& clear :=
    Memory.load64_store _ _ _
  have hbtr : (Instr.btr ⟨.rsp, 0x180⟩ 63).exec env s = s₁ := by
    have haddress : s.address ⟨.rsp, 0x180⟩ = frame c + .ofNat 0x188 := hat 0x180
    rw [Instr.exec, haddress, h.result]
  have hand : (Instr.and_mem ⟨.rsp, 0x78⟩ clear).exec env s₁ = s₂ := by
    have haddress : s₁.address ⟨.rsp, 0x78⟩ = frame c + .ofNat 0x80 := hat 0x78
    rw [Instr.exec, haddress, himage₁]
  have hor : (Instr.or_mem ⟨.rsp, 0x78⟩ set).exec env s₂ = s₃ := by
    have haddress : s₂.address ⟨.rsp, 0x78⟩ = frame c + .ofNat 0x80 := hat 0x78
    rw [Instr.exec, haddress, himage₂]
  have htarget : s₃.mem.load64 (frame c + .ofNat 0x188) = result &&& ~~~mask 63 := by
    have hkeep₃ : s₃.mem.load64 (frame c + .ofNat 0x188) = s₂.mem.load64 (frame c + .ofNat 0x188) :=
      Memory.load64_store_apart s₂.mem (n := 8) rfl rfl (by decide) (by decide) (by decide)
    have hkeep₂ : s₂.mem.load64 (frame c + .ofNat 0x188) = s₁.mem.load64 (frame c + .ofNat 0x188) :=
      Memory.load64_store_apart s₁.mem (n := 8) rfl rfl (by decide) (by decide) (by decide)
    rw [hkeep₃, hkeep₂]
    exact Memory.load64_store _ _ _
  have hleft₁ : Left env c stack k s₁ :=
    (hleft.write_frame hs hk (w := target) (n := 8) rfl rfl (by decide)).set_flags _
  have hleft₂ : Left env c stack k s₂ :=
    (hleft₁.write_frame hs hk (w := cleared) (n := 8) rfl rfl (by decide)).set_flags _
  have hleft₃ : Left env c stack k s₃ :=
    (hleft₂.write_frame hs hk (w := changed) (n := 8) rfl rfl (by decide)).set_flags _
  have hsystem : s₃.flags.system = c.flags.system :=
    (Rflags.write_system _ _).trans ((Rflags.write_system _ _).trans
      ((Rflags.write_system _ _).trans h.saved.system))
  have himage₃ : s₃.mem.load64 (frame c + .ofNat 0x80) = c.flags.image &&& clear ||| set :=
    Memory.load64_store _ _ _
  have hkept₁ := s.write_set_flags_frame target
    (env.status s.toCpu &&& ~~~1 ||| if bit result 63 then 1 else 0)
  have hkept₂ := s₁.write_set_flags_frame cleared (env.status s₁.toCpu)
  have hkept₃ := s₂.write_set_flags_frame changed (env.status s₂.toCpu)
  have hgpr : s₃.gpr = s.gpr := hkept₃.1.trans (hkept₂.1.trans hkept₁.1)
  have hcalls : s₃.calls = s.calls := hkept₃.2.trans (hkept₂.2.trans hkept₁.2)
  have hrun : [Instr.btr ⟨.rsp, 0x180⟩ 63, .and_mem ⟨.rsp, 0x78⟩ clear,
      .or_mem ⟨.rsp, 0x78⟩ set].foldl (Instr.exec env) s = s₃ := by
    rw [List.foldl_cons, hbtr, List.foldl_cons, hand, List.foldl_cons, hor]
    rfl
  exact ⟨s₃, hrun, hgpr, hcalls, hsystem, himage₃, htarget, hleft₃⟩

/-- Off to a raw syscall. -/
theorem tagged_exit_leads {s : State} (h : Restored env c stack k result s) (text : List Instr) :
    ∃ s', Leads env dispatcher_bridge (.running (tagged_exit ++ text) s)
        (.left (result &&& ~~~mask 63) s')
      ∧ Left env c stack k s' ∧ s'.calls = s.calls
      ∧ s'.gpr = Function.update c.gpr .rsp (c.gpr .rsp + 8)
      ∧ s'.flags.val = c.flags.val &&& ~~~TEST_ZERO_CLEAR_FLAGS ||| TEST_ZERO_SET_FLAGS := by
  obtain ⟨s₁, hrun, hgpr, hcalls, hsystem, himage, htarget, hleft⟩ := exec_untag hs hk h
  have hrsp : s₁.gpr .rsp = frame c + .ofNat 8 := by
    rw [hgpr, h.gpr, Function.update_self]
  have hd : frame c + .ofNat 8 + 0x190 = c.gpr .rsp + 8 := by
    change c.gpr .rsp - 0x190 + 8 + 0x190 = c.gpr .rsp + 8
    grind
  have he : c.gpr .rsp + 8 + (-0x10) = frame c + .ofNat 0x188 := by
    change c.gpr .rsp + 8 + (-0x10) = c.gpr .rsp - 0x190 + 0x188
    grind
  have hflags := leads_straight env dispatcher_bridge
    [.btr ⟨.rsp, 0x180⟩ 63, .and_mem ⟨.rsp, 0x78⟩ clear_flags, .or_mem ⟨.rsp, 0x78⟩ set_flags]
    (by decide) (restore_flags ++ .lea .rsp ⟨.rsp, 0x190⟩ :: .jmp_mem ⟨.rsp, -0x10⟩ :: text) s
  rw [hrun] at hflags
  have hlast := hleft.write_frame hs hk (w := .word (frame c + .ofNat 0)
    (c.flags.image &&& ~~~TEST_ZERO_CLEAR_FLAGS ||| TEST_ZERO_SET_FLAGS)) (n := 8) rfl rfl
    (by decide)
  refine ⟨_, hflags.trans (leave_leads hrsp himage htarget hd he text),
    ⟨hlast.xmm, hlast.outside, hlast.written, hlast.lock⟩, hcalls, ?_, ?_⟩
  · change Function.update s₁.gpr .rsp (c.gpr .rsp + 8) = _
    rw [hgpr, h.gpr, Function.update_idem]
  · exact Rflags.write_image_changed hsystem (by decide) (by decide)

end Exit

/-! ## The whole bridge -/

section Parts

variable {env : Env} {c : Cpu} {stack : Set UInt64}

/-- The text from the arguments on. -/
def selecting : List Instr := arguments ++ find_slot ++ (take_lock ++ locked)

theorem save_leads (env : Env) (c : Cpu) (stack : Set UInt64) :
    ∃ s, Leads env dispatcher_bridge (.running dispatcher_bridge (entry c)) (.running selecting s)
      ∧ Saved stack c s ∧ s.gpr .rsp = frame c + .ofNat 8 ∧ s.calls = [] ∧ s.pauses = 0 := by
  have hsave := leads_straight env dispatcher_bridge save (by decide) selecting (entry c)
  refine ⟨_, hsave, saved_entry env c, ?_, ?_, ?_⟩
  · rw [exec_save]
    exact State.set_gpr_self _ _ _
  · rw [exec_save]
    rfl
  · rw [exec_save]
    rfl

variable (hs : Surroundings env c stack)
include hs

theorem select_leads {s : State} (h : Saved stack c s) (hrsp : s.gpr .rsp = frame c + .ofNat 8) :
    ∃ s' k, Leads env dispatcher_bridge (.running selecting s)
        (.running (take_lock.tail ++ locked) s')
      ∧ k < BRIDGE_STACK_SLOTS ∧ s'.gpr .r15 = slot env k ∧ s'.gpr .rbx = frame c + .ofNat 8
      ∧ Arguments c s'.toCpu ∧ Saved stack c s' ∧ s'.calls = s.calls ∧ s'.pauses = s.pauses := by
  obtain ⟨hsaved₁, hrbx, harguments, hcalls₁, hpauses₁⟩ := exec_arguments hs.frame env h hrsp
  obtain ⟨hsaved₂, ⟨k, hk, hr15⟩, hsame, hcalls₂, hpauses₂⟩ := exec_find_slot env hsaved₁
  have hselect := leads_straight env dispatcher_bridge (arguments ++ find_slot) (by decide)
    (take_lock ++ locked) s
  have hlabel : next env dispatcher_bridge
      (.running (take_lock ++ locked) ((arguments ++ find_slot).foldl (Instr.exec env) s))
        = .running (take_lock.tail ++ locked) ((arguments ++ find_slot).foldl (Instr.exec env) s) :=
    rfl
  rw [List.foldl_append] at hselect hlabel
  refine ⟨_, k, hselect.trans (Leads.of_next hlabel), hk, hr15, ?_, harguments.congr ?_, hsaved₂,
    hcalls₂.trans hcalls₁, hpauses₂.trans hpauses₁⟩
  · rw [hsame .rbx (by decide) (by decide)]
    exact hrbx
  · intro r hr
    have hne : r ≠ .rax ∧ r ≠ .r15 := by
      constructor <;> exact fun heq => absurd (heq ▸ hr) (by decide)
    exact hsame r hne.1 hne.2

/-- From the lock to the jump. -/
theorem locked_leads {k : ℕ} (hk : k < BRIDGE_STACK_SLOTS) {s : State} (h : Saved stack c s)
    (hrbx : s.gpr .rbx = frame c + .ofNat 8) (hr15 : s.gpr .r15 = slot env k)
    (harguments : Arguments c s.toCpu) (htaken : ¬Free s.mem (slot env k)) :
    ∃ d s', Leads env dispatcher_bridge (.running locked s) (.running exits s')
      ∧ s'.calls = s.calls ++ [d] ∧ Arguments c d ∧ d.gpr .r15 = slot env k
      ∧ ¬Free d.mem (slot env k)
      ∧ Restored env c stack k ((env.target d).gpr .rax) s' := by
  obtain ⟨d, s₁, hrun, hcalls, hd, hdr15, hdlock, hsaved, hrsp, hresult, hlock⟩ :=
    exec_call_target hs hk h hrbx hr15 harguments htaken
  obtain ⟨hrestored, hcalls'⟩ := exec_restore hs hk hsaved hrsp hresult hlock
  have hlead := leads_straight env dispatcher_bridge (call_target ++ restore) (by decide) exits s
  rw [List.foldl_append, hrun] at hlead
  exact ⟨d, _, hlead, hcalls'.trans hcalls, hd, hdr15, hdlock, hrestored⟩

/-- The tag decides between the two exits. -/
theorem exits_leads {k : ℕ} (hk : k < BRIDGE_STACK_SLOTS) {result : UInt64} {s : State}
    (h : Restored env c stack k result s) :
    ∃ target s', Leads env dispatcher_bridge (.running exits s) (.left target s')
      ∧ s'.calls = s.calls ∧ Left env c stack k s'
      ∧ (bit result 63 = false →
        target = result ∧ s'.gpr = c.gpr ∧ s'.flags = c.flags
          ∧ s'.mem.load64 (s'.gpr .rsp) = c.mem.load64 (c.gpr .rsp))
      ∧ (bit result 63 = true →
        target = result &&& ~~~mask 63 ∧ s'.gpr = Function.update c.gpr .rsp (c.gpr .rsp + 8)
          ∧ s'.flags.val = c.flags.val &&& ~~~TEST_ZERO_CLEAR_FLAGS ||| TEST_ZERO_SET_FLAGS) := by
  let s₁ := s.set_carry (env.status s.toCpu) (bit result 63)
  have hbt : (Instr.bt ⟨.rsp, 0x180⟩ 63).exec env s = s₁ := by
    have haddress : s.address ⟨.rsp, 0x180⟩ = frame c + .ofNat 0x188 := by
      rw [State.address, h.gpr, Function.update_self]
      exact add_ofNat (frame c) 8 0x180
    rw [Instr.exec, haddress, h.result]
  have hrestored : Restored env c stack k result s₁ :=
    ⟨⟨h.saved.kept, (State.set_carry_system _ _ _).trans h.saved.system, h.saved.written⟩, h.gpr,
      h.xmm, h.result, h.lock⟩
  have hcarry : s₁.flags.carry = bit result 63 := State.set_carry_carry _ _ _
  have htest : Leads env dispatcher_bridge (.running exits s)
      (.running (.jnc 2 :: (tagged_exit ++ Instr.label 2 :: untagged_exit)) s₁) :=
    Leads.of_next (congrArg (Status.running _) hbt)
  cases htag : bit result 63 with
  | false =>
    have hjump : next env dispatcher_bridge
        (.running (.jnc 2 :: (tagged_exit ++ Instr.label 2 :: untagged_exit)) s₁)
          = .running untagged_exit s₁ := by
      rw [next, hcarry, htag]
      rfl
    obtain ⟨s', hexit, hleft, hcalls, hgpr, hflags⟩ := untagged_exit_leads hs hk hrestored
    refine ⟨_, s', (htest.trans (Leads.of_next hjump)).trans hexit, hcalls, hleft,
      fun _ => ⟨rfl, hgpr, hflags, ?_⟩, nofun⟩
    rw [hgpr]
    exact return_address_kept hs.frame hleft.outside
  | true =>
    have hfall : next env dispatcher_bridge
        (.running (.jnc 2 :: (tagged_exit ++ Instr.label 2 :: untagged_exit)) s₁)
          = .running (tagged_exit ++ Instr.label 2 :: untagged_exit) s₁ := by
      rw [next, hcarry, htag]
      rfl
    obtain ⟨s', hexit, hleft, hcalls, hgpr, hflags⟩ :=
      tagged_exit_leads hs hk hrestored (.label 2 :: untagged_exit)
    exact ⟨_, s', (htest.trans (Leads.of_next hfall)).trans hexit, hcalls, hleft, nofun,
      fun _ => ⟨rfl, hgpr, hflags⟩⟩

end Parts

/-- The bridge calls `dispatcher_target` once, with the caller's registers, and leaves for where it
is told to. Without the tag everything is as on entry. With the tag the return address is popped
and the flags are those after the `test` of the direct path. -/
theorem dispatcher_bridge_correct (env : Env) (c : Cpu) (stack : Set UInt64)
    (hs : Surroundings env c stack) :
    ∃ d target s' k, Leads env dispatcher_bridge (.running dispatcher_bridge (entry c))
        (.left target s')
      ∧ s'.calls = [d] ∧ Arguments c d
      ∧ (bit ((env.target d).gpr .rax) 63 = false →
        target = (env.target d).gpr .rax ∧ s'.gpr = c.gpr ∧ s'.flags = c.flags
          ∧ s'.mem.load64 (s'.gpr .rsp) = c.mem.load64 (c.gpr .rsp))
      ∧ (bit ((env.target d).gpr .rax) 63 = true →
        target = (env.target d).gpr .rax &&& ~~~mask 63
          ∧ s'.gpr = Function.update c.gpr .rsp (c.gpr .rsp + 8)
          ∧ s'.flags.val = c.flags.val &&& ~~~TEST_ZERO_CLEAR_FLAGS ||| TEST_ZERO_SET_FLAGS)
      ∧ Left env c stack k s'
      ∧ k < BRIDGE_STACK_SLOTS ∧ d.gpr .r15 = slot env k ∧ ¬Free d.mem (slot env k) := by
  -- Save everything and prepare the call.
  obtain ⟨s₁, hsave, hsaved₁, hrsp₁, hcalls₁, hpauses₁⟩ := save_leads env c stack
  obtain ⟨s₂, k, hselect, hk, hr15, hrbx, harguments, hsaved₂, hcalls₂, hpauses₂⟩ :=
    select_leads hs hsaved₁ hrsp₁
  -- Take the lock, call, and release it.
  obtain ⟨n, hfree⟩ := hs.released k hk s₂.mem
  rw [← hpauses₁, ← hpauses₂] at hfree
  obtain ⟨s₃, hlock, hsaved₃, hgpr, hcalls₃, htaken⟩ := take_lock_leads hs hk n hsaved₂ hr15 hfree
  have harguments₃ : Arguments c s₃.toCpu := harguments.congr fun r _ => congrFun hgpr r
  obtain ⟨d, s₄, hcall, hcalls₄, hd, hdr15, hdlock, hrestored⟩ := locked_leads hs hk hsaved₃
    ((congrFun hgpr .rbx).trans hrbx) ((congrFun hgpr .r15).trans hr15) harguments₃ htaken
  -- Leave through one of the exits.
  obtain ⟨target, s', hexit, hcalls', hleft, huntagged, htagged⟩ := exits_leads hs hk hrestored
  have hcalls : s'.calls = [d] := by
    rw [hcalls', hcalls₄, hcalls₃, hcalls₂, hcalls₁]
    rfl
  exact ⟨d, target, s', k, (((hsave.trans hselect).trans hlock).trans hcall).trans hexit, hcalls,
    hd, huntagged, htagged, hleft, hk, hdr15, hdlock⟩

def caller : Cpu where
  gpr _ := 0x10000
  xmm _ _ := 0
  flags := ⟨0x202, by decide⟩
  gs := 0x7000
  mem _ := 0

/-- A function that only returns, in a process where whoever has a private stack leaves it at
once. -/
def returning (result : UInt64) : Env where
  symbol := 0x10008
  target d :=
    { d with gpr := Function.update (Function.update d.gpr .rsp (d.gpr .rsp + 8)) .rax result }
  return_address := 0x6000
  pause _ m x := if offset (frame caller) x < 0x198 then m x else 0
  status _ := 0

theorem surroundings_returning (result : UInt64) :
    Surroundings (returning result) caller { x | offset (frame caller) x < 0x198 } := by
  have hsize : BRIDGE_STACKS_SIZE + 0x198 < 2 ^ 64 := by decide
  have hsymbol : (returning result).symbol = frame caller + .ofNat 0x198 := rfl
  have hapart : ∀ x, offset (frame caller) x < 0x198
      → BRIDGE_STACKS_SIZE ≤ offset (returning result).symbol x := by
    intro x hx
    rw [hsymbol, offset_base (by decide)]
    omega
  refine ⟨fun x hx => hx, hapart, fun d => ⟨rfl, fun r hr => ?_, rfl⟩, fun d x hx => rfl,
    fun n m x hx => if_pos hx, fun k hk m => ⟨1, ?_⟩⟩
  · have hne : r ≠ .rax ∧ r ≠ .rsp := by
      constructor <;> exact fun heq => absurd (heq ▸ hr) (by decide)
    exact (Function.update_of_ne hne.1 _ _).trans (Function.update_of_ne hne.2 _ _)
  · -- After the first pause there are only zeros in the private stacks.
    obtain ⟨m', hm'⟩ : ∃ m', m' = attempt (returning result) (slot (returning result) k) m 0 1 :=
      ⟨_, rfl⟩
    have hzero : ∀ i < 4, m' (slot (returning result) k + .ofNat (0 + i)) = 0 := by
      intro i hi
      rw [hm']
      refine if_neg fun hin => ?_
      have hbound := slot_offset_le hk
      have hout := hapart _ hin
      rw [slot, add_ofNat, offset_add _ (by omega)] at hout
      omega
    have hnumber : m'.number (slot (returning result) k + .ofNat 0) 4
        = Memory.number (fun _ => 0) (slot (returning result) k + .ofNat 0) 4 :=
      Memory.number_congr hzero
    have hstart : slot (returning result) k + .ofNat 0 = slot (returning result) k :=
      UInt64.add_zero _
    rw [hstart] at hnumber
    have hload : m'.load32 (slot (returning result) k) = 0 := congrArg UInt32.ofNat hnumber
    rw [← hm', Free, hload]
    decide

/-- Both exits, one word apart. -/
theorem dispatcher_bridge_exits :
    (∃ s', Leads (returning 0x5000) dispatcher_bridge (.running dispatcher_bridge (entry caller))
        (.left 0x5000 s') ∧ s'.gpr .rsp = 0x10000)
      ∧ ∃ s', Leads (returning 0x8000000000005000) dispatcher_bridge
        (.running dispatcher_bridge (entry caller)) (.left 0x5000 s') ∧ s'.gpr .rsp = 0x10008 := by
  obtain ⟨d, target, s', k, hrun, -, -, huntagged, -⟩ :=
    dispatcher_bridge_correct _ _ _ (surroundings_returning 0x5000)
  obtain ⟨rfl, hgpr, -, -⟩ := huntagged (by decide : bit 0x5000 63 = false)
  refine ⟨⟨s', hrun, congrFun hgpr .rsp⟩, ?_⟩
  obtain ⟨d, target, s', k, hrun, -, -, -, htagged, -⟩ :=
    dispatcher_bridge_correct _ _ _ (surroundings_returning 0x8000000000005000)
  obtain ⟨htarget, hgpr, -⟩ := htagged (by decide : bit 0x8000000000005000 63 = true)
  have hcleared : target = 0x5000 :=
    htarget.trans (by decide : (0x8000000000005000 : UInt64) &&& ~~~mask 63 = 0x5000)
  rw [hcleared] at hrun
  exact ⟨s', hrun, congrFun hgpr .rsp⟩

end Linuwux.DispatcherBridge
