/-
`PendingFrees.lean` -- `hooks/pending_frees.rs`: the addresses `win32u` has freed and not
got back.

`History` is a ring of `CAPACITY` entries with a hash index over it: each bucket's entries
are on a doubly linked chain whose links are stored in the entries. The ring decides which
entry is evicted, the index makes the lookup short. The test of the source compares it with
a plain ring that is scanned from one end to the other; here that ring is [`Reference`], and
the two agree on every sequence of calls.

The model keeps the links as the `u16` words of the source. A word that is neither
`NO_ENTRY` nor below `CAPACITY` would index out of the array, and a cycle would keep `find`
in its loop, so the operations can fail: `none` is a panic or a loop that has not ended
after `fuel` turns. That neither happens is part of the refinement.
-/
import Linuwux.Chains
import Linuwux.Rings
import Mathlib.Data.Fintype.Fin
import Mathlib.Data.List.FinRange

set_option autoImplicit false

namespace Linuwux.PendingFrees

open Chains (Links Dll)

def CAPACITY : ℕ := 1024
def BUCKET_COUNT : ℕ := 4096
def NO_ENTRY : UInt16 := 0xffff

structure Entry where
  address : UInt64
  next : UInt16
  prev : UInt16
  deriving DecidableEq, Repr

def Entry.EMPTY : Entry := ⟨0, NO_ENTRY, NO_ENTRY⟩

/-- A slot of the ring. -/
abbrev Slot := Fin CAPACITY

structure History where
  entries : Slot → Entry
  buckets : Fin BUCKET_COUNT → UInt16
  next_index : Slot

/-! ## `History` -/

/-- `self.entries[index as usize]`: no slot where the source would panic. -/
def slot (index : UInt16) : Option Slot :=
  if h : index.toNat < CAPACITY then some ⟨index.toNat, h⟩ else none

/-- `index as u16`. -/
def link (i : Slot) : UInt16 := UInt16.ofNat i

/-- `(index + 1) % CAPACITY`. -/
def advance (i : Slot) : Slot := ⟨(i + 1) % CAPACITY, Nat.mod_lt _ (by decide)⟩

/-- The multiplication of `History::bucket`, on a 64-bit `usize`. -/
def mixed (address : UInt64) : UInt64 := (address >>> 4) * 0x9e3779b97f4a7c15

theorem mixed_shift_lt (address : UInt64) : (mixed address >>> 52).toNat < BUCKET_COUNT := by
  have hlt := UInt64.toNat_lt (mixed address)
  rw [UInt64.toNat_shiftRight, show (52 : UInt64).toNat % 64 = 52 from rfl,
    Nat.shiftRight_eq_div_pow]
  show _ < 4096
  omega

/-- `History::bucket`: the upper twelve bits. -/
def bucket (address : UInt64) : Fin BUCKET_COUNT :=
  ⟨(mixed address >>> 52).toNat, mixed_shift_lt address⟩

namespace History

def new : History where
  entries := fun _ => .EMPTY
  buckets := fun _ => NO_ENTRY
  next_index := ⟨0, by decide⟩

/-- The loop of `find`, `fuel` turns of it. -/
def find_loop (h : History) (address : UInt64) : ℕ → UInt16 → Option (Option Slot)
  | 0, _ => none
  | fuel + 1, index =>
    if index = NO_ENTRY then some none
    else
      match slot index with
      | none => none
      | some i =>
        if (h.entries i).address = address then some (some i)
        else h.find_loop address fuel (h.entries i).next

def find (fuel : ℕ) (h : History) (address : UInt64) : Option (Option Slot) :=
  h.find_loop address fuel (h.buckets (bucket address))

def set_next (h : History) (i : Slot) (next : UInt16) : History :=
  { h with entries := Function.update h.entries i { h.entries i with next } }

def set_prev (h : History) (i : Slot) (prev : UInt16) : History :=
  { h with entries := Function.update h.entries i { h.entries i with prev } }

def set_entry (h : History) (i : Slot) (entry : Entry) : History :=
  { h with entries := Function.update h.entries i entry }

def set_bucket (h : History) (b : Fin BUCKET_COUNT) (index : UInt16) : History :=
  { h with buckets := Function.update h.buckets b index }

def remove (h : History) (index : Slot) : Option History := do
  let entry := h.entries index
  let h ←
    if entry.prev = NO_ENTRY then some (h.set_bucket (bucket entry.address) entry.next)
    else (slot entry.prev).map fun i => h.set_next i entry.next
  let h ←
    if entry.next ≠ NO_ENTRY then (slot entry.next).map fun i => h.set_prev i entry.prev
    else some h
  return h.set_entry index .EMPTY

def seen_or_mark (fuel : ℕ) (h : History) (address : UInt64) : Option (Bool × History) := do
  if (← h.find fuel address).isSome then return (true, h)
  let index := h.next_index
  let h ← (if (h.entries index).address ≠ 0 then h.remove index else some h)
  let head := h.buckets (bucket address)
  let h := h.set_entry index ⟨address, head, NO_ENTRY⟩
  let h ← if head ≠ NO_ENTRY then (slot head).map fun i => h.set_prev i (link index) else some h
  return (false, { h.set_bucket (bucket address) (link index) with next_index := advance index })

def consume (fuel : ℕ) (h : History) (address : UInt64) : Option (Bool × History) := do
  match ← h.find fuel address with
  | some index => return (true, ← h.remove index)
  | none => return (false, h)

end History

/-! ## The plain ring -/

/-- `Reference` of the source's test. -/
structure Reference where
  entries : Slot → Option UInt64
  next_index : Slot

namespace Reference

def new : Reference where
  entries := fun _ => none
  next_index := ⟨0, by decide⟩

/-- The first slot that holds the address. -/
def scan (ref : Reference) (address : UInt64) : Option Slot :=
  (List.finRange CAPACITY).find? fun i => ref.entries i = some address

def seen_or_mark (ref : Reference) (address : UInt64) : Bool × Reference :=
  if (ref.scan address).isSome then (true, ref)
  else
    (false, ⟨Function.update ref.entries ref.next_index (some address), advance ref.next_index⟩)

def consume (ref : Reference) (address : UInt64) : Bool × Reference :=
  match ref.scan address with
  | some i => (true, { ref with entries := Function.update ref.entries i none })
  | none => (false, ref)

end Reference

/-! ## Links -/

@[simp] theorem slot_link (i : Slot) : slot (link i) = some i := by
  have hi : (i : ℕ) < 1024 := i.isLt
  have hnat : (link i).toNat = i := by
    rw [link, UInt16.toNat_ofNat']
    exact Nat.mod_eq_of_lt (by omega)
  unfold slot
  rw [dif_pos (by rw [hnat]; exact i.isLt)]
  exact congrArg some (Fin.ext hnat)

theorem link_ne_no_entry (i : Slot) : link i ≠ NO_ENTRY := by
  intro heq
  have hslot := slot_link i
  rw [heq] at hslot
  cases hslot

/-- The `u16` links of the entries. -/
def links : Links Slot UInt16 where
  nil := NO_ENTRY
  ref := link
  ref_ne_nil := link_ne_no_entry
  ref_injective i j h := by
    have heq := (slot_link i).symm.trans ((congrArg slot h).trans (slot_link j))
    exact Option.some.inj heq

/-- A link that comes from an optional slot, as the links of a chain do. -/
def link_of (o : Option Slot) : UInt16 := (o.map link).getD NO_ENTRY

@[simp] theorem link_of_eq_no_entry {o : Option Slot} : link_of o = NO_ENTRY ↔ o = none := by
  cases o with
  | none => simp [link_of]
  | some i => simpa [link_of] using link_ne_no_entry i

/-! ## The chains of a history -/

namespace History

/-- **What holds between calls.** Each bucket's link leads through its chain, and the slots on it
are those that hold an address of the bucket; no address is held twice. -/
structure Indexed (h : History) (chain : Fin BUCKET_COUNT → List Slot) : Prop where
  dll : ∀ b, Dll links (fun i => (h.entries i).next) (fun i => (h.entries i).prev) NO_ENTRY
    (h.buckets b) (chain b)
  nodup : ∀ b, (chain b).Nodup
  mem_iff : ∀ b i, i ∈ chain b ↔ (h.entries i).address ≠ 0 ∧ bucket (h.entries i).address = b
  distinct : ∀ i j, (h.entries i).address = (h.entries j).address → (h.entries i).address ≠ 0 →
    i = j

theorem indexed_new : new.Indexed fun _ => [] where
  dll _ := rfl
  nodup _ := List.nodup_nil
  mem_iff _ _ := by simp [new, Entry.EMPTY]
  distinct _ _ _ h := absurd rfl h

/-- A walk along a chain looks at its slots in order, and ends. -/
theorem find_loop_eq {h : History} (address : UInt64) {l : List Slot} : ∀ {fuel : ℕ}
    {p u : UInt16}, Dll links (fun i => (h.entries i).next) (fun i => (h.entries i).prev) p u l →
    l.length < fuel →
    h.find_loop address fuel u = some (l.find? fun i => (h.entries i).address = address) := by
  induction l with
  | nil =>
    intro fuel p u hd hlt
    obtain ⟨k, rfl⟩ : ∃ k, fuel = k + 1 := ⟨fuel - 1, by rw [List.length_nil] at hlt; omega⟩
    rw [show u = NO_ENTRY from hd, find_loop, if_pos rfl]
    rfl
  | cons i l ih =>
    intro fuel p u hd hlt
    obtain ⟨hu, -, hrest⟩ := hd
    obtain ⟨k, rfl⟩ : ∃ k, fuel = k + 1 := ⟨fuel - 1, by omega⟩
    have hu' : u = link i := hu
    rw [hu', find_loop, if_neg (link_ne_no_entry i)]
    simp only [slot_link]
    by_cases ha : (h.entries i).address = address
    · rw [if_pos ha, List.find?_cons_of_pos (by simpa using ha)]
    · rw [if_neg ha, List.find?_cons_of_neg (by simpa using ha)]
      exact ih hrest (by simpa using hlt)

/-- `find` ends, with the slot that holds the address if there is one. -/
theorem find_cases {h : History} {chain : Fin BUCKET_COUNT → List Slot} (hi : h.Indexed chain)
    {fuel : ℕ} (hfuel : CAPACITY < fuel) {address : UInt64} (ha : address ≠ 0) :
    (∃ i, h.find fuel address = some (some i) ∧ (h.entries i).address = address) ∨
      h.find fuel address = some none ∧ ∀ i, (h.entries i).address ≠ address := by
  have hlen : (chain (bucket address)).length < fuel := by
    have hle := (hi.nodup (bucket address)).length_le_card
    rw [Fintype.card_fin] at hle
    omega
  have hfind : h.find fuel address = _ := find_loop_eq address (hi.dll (bucket address)) hlen
  rw [hfind]
  cases hf : (chain (bucket address)).find? fun i => (h.entries i).address = address with
  | some i => exact .inl ⟨i, rfl, by simpa using List.find?_some hf⟩
  | none =>
    refine .inr ⟨rfl, fun i heq => ?_⟩
    have hmem : i ∈ chain (bucket address) := (hi.mem_iff _ i).mpr ⟨heq ▸ ha, by rw [heq]⟩
    simpa [heq] using List.find?_eq_none.mp hf i hmem

/-! ### Taking a slot out -/

/-- `remove` once its links are known to come from slots. -/
def unlinked (h : History) (index : Slot) (before after : Option Slot) : History :=
  let h₁ :=
    match before with
    | none => h.set_bucket (bucket (h.entries index).address) (h.entries index).next
    | some i => h.set_next i (h.entries index).next
  let h₂ :=
    match after with
    | none => h₁
    | some i => h₁.set_prev i (h.entries index).prev
  h₂.set_entry index .EMPTY

theorem remove_eq {h : History} {index : Slot} {before after : Option Slot}
    (hprev : (h.entries index).prev = link_of before)
    (hnext : (h.entries index).next = link_of after) :
    h.remove index = some (h.unlinked index before after) := by
  unfold remove unlinked
  cases before <;> cases after <;>
    simp [hprev, hnext, link_of, link_ne_no_entry]

section Unlinked

variable (h : History) (index : Slot) (before after : Option Slot)

@[simp] theorem unlinked_next_index :
    (h.unlinked index before after).next_index = h.next_index := by
  cases before <;> cases after <;> rfl

@[simp] theorem unlinked_address (i : Slot) : ((h.unlinked index before after).entries i).address
    = if i = index then 0 else (h.entries i).address := by
  unfold unlinked
  cases before <;> cases after <;>
    simp only [set_entry, set_next, set_prev, set_bucket, Function.update_apply] <;>
    split_ifs <;> simp_all [Entry.EMPTY]

theorem unlinked_next {i : Slot} (hi : i ≠ index) :
    ((h.unlinked index before after).entries i).next
      = if before = some i then (h.entries index).next else (h.entries i).next := by
  unfold unlinked
  cases before <;> cases after <;>
    simp only [set_entry, set_next, set_prev, set_bucket, Function.update_apply, if_neg hi] <;>
    split_ifs <;> simp_all

theorem unlinked_prev {i : Slot} (hi : i ≠ index) :
    ((h.unlinked index before after).entries i).prev
      = if after = some i then (h.entries index).prev else (h.entries i).prev := by
  unfold unlinked
  cases before <;> cases after <;>
    simp only [set_entry, set_next, set_prev, set_bucket, Function.update_apply, if_neg hi] <;>
    split_ifs <;> simp_all

theorem unlinked_buckets (b : Fin BUCKET_COUNT) : (h.unlinked index before after).buckets b
    = if before = none ∧ b = bucket (h.entries index).address then (h.entries index).next
      else h.buckets b := by
  unfold unlinked
  cases before <;> cases after <;>
    simp [set_entry, set_next, set_prev, set_bucket, Function.update_apply]

end Unlinked

variable {h : History} {chain : Fin BUCKET_COUNT → List Slot}

/-- A slot is on one chain only. -/
theorem Indexed.bucket_unique (hi : h.Indexed chain) {b b' : Fin BUCKET_COUNT} {i : Slot}
    (hb : i ∈ chain b) (hb' : i ∈ chain b') : b = b' :=
  ((hi.mem_iff b i).mp hb).2.symm.trans ((hi.mem_iff b' i).mp hb').2

/-- The chain an occupied slot is on, cut at the slot. -/
theorem Indexed.split (hi : h.Indexed chain) {index : Slot} (ha : (h.entries index).address ≠ 0) :
    ∃ l₁ l₂, chain (bucket (h.entries index).address) = l₁ ++ index :: l₂ ∧
      (h.entries index).prev = link_of l₁.getLast? ∧ (h.entries index).next = link_of l₂.head? := by
  have hmem : index ∈ chain (bucket (h.entries index).address) :=
    (hi.mem_iff _ _).mpr ⟨ha, rfl⟩
  obtain ⟨l₁, l₂, hl⟩ := List.append_of_mem hmem
  have hd := hi.dll (bucket (h.entries index).address)
  rw [hl] at hd
  exact ⟨l₁, l₂, hl, hd.prev_eq, hd.next_eq⟩

section Removed

variable {index : Slot} {l₁ l₂ : List Slot}

/-- The rest of a chain does not have the slot that is taken out. -/
theorem Indexed.ne_of_mem_rest (hi : h.Indexed chain)
    (hl : chain (bucket (h.entries index).address) = l₁ ++ index :: l₂) {i : Slot}
    (hmem : i ∈ l₁ ++ l₂) : i ≠ index := by
  intro heq
  have hnd := hi.nodup (bucket (h.entries index).address)
  rw [hl] at hnd
  exact (List.nodup_cons.mp (List.nodup_middle.mp hnd)).1 (heq ▸ hmem)

theorem Indexed.dll_unlinked (hi : h.Indexed chain)
    (hl : chain (bucket (h.entries index).address) = l₁ ++ index :: l₂) (b : Fin BUCKET_COUNT) :
    Dll links (fun i => ((h.unlinked index l₁.getLast? l₂.head?).entries i).next)
      (fun i => ((h.unlinked index l₁.getLast? l₂.head?).entries i).prev) NO_ENTRY
      ((h.unlinked index l₁.getLast? l₂.head?).buckets b)
      (Function.update chain (bucket (h.entries index).address) (l₁ ++ l₂) b) := by
  by_cases hbb : b = bucket (h.entries index).address
  · subst hbb
    have hd := hi.dll (bucket (h.entries index).address)
    have hnd := hi.nodup (bucket (h.entries index).address)
    rw [hl] at hd hnd
    rw [Function.update_self, unlinked_buckets]
    have hrest := hd.remove hnd
      (fun i hmem => unlinked_next h index l₁.getLast? l₂.head? (hi.ne_of_mem_rest hl hmem))
      (fun i hmem => unlinked_prev h index l₁.getLast? l₂.head? (hi.ne_of_mem_rest hl hmem))
    simpa [List.getLast?_eq_none_iff] using hrest
  · -- None of the slots written is on another chain.
    have hne : ∀ i ∈ chain b, i ∉ l₁ ++ index :: l₂ := fun i hmem hin =>
      hbb (hi.bucket_unique hmem (hl ▸ hin))
    rw [Function.update_of_ne hbb, unlinked_buckets, if_neg (fun h' => hbb h'.2)]
    refine (hi.dll b).frame (fun i hmem => ?_) fun i hmem => ?_
    · rw [unlinked_next h index _ _ fun heq => hne i hmem (by simp [heq]), if_neg]
      exact fun heq => hne i hmem
        (List.mem_append_left _ (List.mem_of_mem_getLast? (Option.mem_def.mpr heq)))
    · rw [unlinked_prev h index _ _ fun heq => hne i hmem (by simp [heq]), if_neg]
      exact fun heq => hne i hmem (by simp [List.mem_of_mem_head? (Option.mem_def.mpr heq)])

theorem Indexed.nodup_unlinked (hi : h.Indexed chain)
    (hl : chain (bucket (h.entries index).address) = l₁ ++ index :: l₂) (b : Fin BUCKET_COUNT) :
    (Function.update chain (bucket (h.entries index).address) (l₁ ++ l₂) b).Nodup := by
  by_cases hbb : b = bucket (h.entries index).address
  · have hnd := hi.nodup (bucket (h.entries index).address)
    rw [hl] at hnd
    rw [hbb, Function.update_self]
    exact (List.nodup_cons.mp (List.nodup_middle.mp hnd)).2
  · rw [Function.update_of_ne hbb]
    exact hi.nodup b

/-- The slot is on no chain any more, and the others are on theirs. -/
theorem Indexed.mem_unlinked (hi : h.Indexed chain)
    (hl : chain (bucket (h.entries index).address) = l₁ ++ index :: l₂) (b : Fin BUCKET_COUNT)
    (i : Slot) : i ∈ Function.update chain (bucket (h.entries index).address) (l₁ ++ l₂) b ↔
      i ≠ index ∧ i ∈ chain b := by
  by_cases hbb : b = bucket (h.entries index).address
  · rw [hbb, Function.update_self, hl]
    constructor
    · intro hmem
      have hne := hi.ne_of_mem_rest hl hmem
      exact ⟨hne, by rcases List.mem_append.mp hmem with h' | h' <;> simp [h']⟩
    · rintro ⟨hne, hmem⟩
      simpa [hne] using hmem
  · rw [Function.update_of_ne hbb]
    constructor
    · intro hmem
      refine ⟨fun heq => hbb ?_, hmem⟩
      rw [heq] at hmem
      exact ((hi.mem_iff b index).mp hmem).2.symm
    · exact fun h' => h'.2

end Removed

/-- A slot taken out leaves the others where they are. -/
theorem remove_indexed (hi : h.Indexed chain) {index : Slot}
    (ha : (h.entries index).address ≠ 0) : ∃ h' chain', h.remove index = some h' ∧
      h'.Indexed chain' ∧ h'.next_index = h.next_index ∧
      ∀ i, (h'.entries i).address = if i = index then 0 else (h.entries i).address := by
  obtain ⟨l₁, l₂, hl, hprev, hnext⟩ := hi.split ha
  refine ⟨_, _, remove_eq hprev hnext,
    ⟨hi.dll_unlinked hl, hi.nodup_unlinked hl, fun b i => ?_, fun i j heq hne => ?_⟩,
    unlinked_next_index .., unlinked_address h index _ _⟩
  · rw [hi.mem_unlinked hl, unlinked_address, hi.mem_iff b i]
    by_cases hii : i = index
    · simp [hii]
    · simp [hii]
  · rw [unlinked_address, unlinked_address] at heq
    rw [unlinked_address] at hne
    by_cases hii : i = index
    · rw [if_pos hii] at hne
      exact absurd rfl hne
    · rw [if_neg hii] at heq hne
      by_cases hjj : j = index
      · rw [if_pos hjj] at heq
        exact absurd heq hne
      · rw [if_neg hjj] at heq
        exact hi.distinct i j heq hne

/-! ### Putting an address in -/

/-- The end of `seen_or_mark` once the bucket's link is known to come from a slot. -/
def inserted (h : History) (index : Slot) (address : UInt64) (first : Option Slot) : History :=
  let h₁ := h.set_entry index ⟨address, link_of first, NO_ENTRY⟩
  let h₂ :=
    match first with
    | none => h₁
    | some i => h₁.set_prev i (link index)
  { h₂.set_bucket (bucket address) (link index) with next_index := advance index }

section Inserted

variable (h : History) (index : Slot) (address : UInt64) (first : Option Slot)

@[simp] theorem inserted_next_index :
    (h.inserted index address first).next_index = advance index := rfl

@[simp] theorem inserted_address (i : Slot) : ((h.inserted index address first).entries i).address
    = if i = index then address else (h.entries i).address := by
  unfold inserted
  cases first <;>
    simp only [set_entry, set_prev, set_bucket, Function.update_apply] <;> split_ifs <;> simp_all

theorem inserted_next (i : Slot) : ((h.inserted index address first).entries i).next
    = if i = index then link_of first else (h.entries i).next := by
  unfold inserted
  cases first <;>
    simp only [set_entry, set_prev, set_bucket, Function.update_apply] <;> split_ifs <;> simp_all

theorem inserted_prev {first : Option Slot} (hf : first ≠ some index) (i : Slot) :
    ((h.inserted index address first).entries i).prev = if i = index then NO_ENTRY
      else if first = some i then link index else (h.entries i).prev := by
  unfold inserted
  cases first <;>
    simp only [set_entry, set_prev, set_bucket, Function.update_apply] <;> split_ifs <;> simp_all

theorem inserted_buckets (b : Fin BUCKET_COUNT) : (h.inserted index address first).buckets b
    = if b = bucket address then link index else h.buckets b := by
  unfold inserted
  cases first <;> simp [set_entry, set_prev, set_bucket, Function.update_apply]

end Inserted

/-- An empty slot is on no chain. -/
theorem Indexed.not_mem_of_empty (hi : h.Indexed chain) {index : Slot}
    (h0 : (h.entries index).address = 0) (b : Fin BUCKET_COUNT) : index ∉ chain b :=
  fun hmem => ((hi.mem_iff b index).mp hmem).1 h0

theorem Indexed.dll_inserted (hi : h.Indexed chain) {index : Slot} {address : UInt64}
    (h0 : (h.entries index).address = 0) (b : Fin BUCKET_COUNT) :
    Dll links
      (fun i => ((h.inserted index address (chain (bucket address)).head?).entries i).next)
      (fun i => ((h.inserted index address (chain (bucket address)).head?).entries i).prev) NO_ENTRY
      ((h.inserted index address (chain (bucket address)).head?).buckets b)
      (Function.update chain (bucket address) (index :: chain (bucket address)) b) := by
  have hne : ∀ b, ∀ i ∈ chain b, i ≠ index := fun b i hmem heq =>
    hi.not_mem_of_empty h0 b (heq ▸ hmem)
  have hf : (chain (bucket address)).head? ≠ some index := fun heq =>
    hi.not_mem_of_empty h0 _ (List.mem_of_mem_head? (Option.mem_def.mpr heq))
  by_cases hbb : b = bucket address
  · subst hbb
    rw [Function.update_self, inserted_buckets, if_pos rfl]
    refine (hi.dll _).insert (hi.nodup _) ?_ ?_ (fun i hmem => ?_) fun i hmem => ?_
    · rw [inserted_next, if_pos rfl]
      exact (hi.dll _).first_eq.symm
    · rw [inserted_prev h index address hf, if_pos rfl]
    · rw [inserted_next, if_neg (hne _ i hmem)]
    · rw [inserted_prev h index address hf, if_neg (hne _ i hmem)]
      rfl
  · rw [Function.update_of_ne hbb, inserted_buckets, if_neg hbb]
    refine (hi.dll b).frame (fun i hmem => ?_) fun i hmem => ?_
    · rw [inserted_next, if_neg (hne _ i hmem)]
    · rw [inserted_prev h index address hf, if_neg (hne _ i hmem), if_neg]
      exact fun heq =>
        hbb (hi.bucket_unique hmem (List.mem_of_mem_head? (Option.mem_def.mpr heq)))

theorem Indexed.nodup_inserted (hi : h.Indexed chain) {index : Slot} {address : UInt64}
    (h0 : (h.entries index).address = 0) (b : Fin BUCKET_COUNT) :
    (Function.update chain (bucket address) (index :: chain (bucket address)) b).Nodup := by
  by_cases hbb : b = bucket address
  · rw [hbb, Function.update_self]
    exact List.nodup_cons.mpr ⟨hi.not_mem_of_empty h0 _, hi.nodup _⟩
  · rw [Function.update_of_ne hbb]
    exact hi.nodup b

/-- The slot is on the chain of its new address, and the others are on theirs. -/
theorem Indexed.mem_inserted (hi : h.Indexed chain) {index : Slot} {address : UInt64}
    (h0 : (h.entries index).address = 0) (b : Fin BUCKET_COUNT) (i : Slot) :
    i ∈ Function.update chain (bucket address) (index :: chain (bucket address)) b ↔
      if i = index then b = bucket address else i ∈ chain b := by
  by_cases hbb : b = bucket address
  · rw [hbb, Function.update_self, List.mem_cons]
    by_cases hii : i = index
    · simp [hii]
    · simp [hii]
  · rw [Function.update_of_ne hbb]
    by_cases hii : i = index
    · rw [if_pos hii, hii]
      exact iff_of_false (hi.not_mem_of_empty h0 b) hbb
    · rw [if_neg hii]

/-- An empty slot put in front of its bucket's chain. -/
theorem insert_indexed (hi : h.Indexed chain) {index : Slot} {address : UInt64}
    (h0 : (h.entries index).address = 0) (ha : address ≠ 0)
    (hnew : ∀ i, (h.entries i).address ≠ address) :
    (h.inserted index address (chain (bucket address)).head?).Indexed
      (Function.update chain (bucket address) (index :: chain (bucket address))) := by
  refine ⟨hi.dll_inserted h0, hi.nodup_inserted h0, fun b i => ?_, fun i j heq hne => ?_⟩
  · rw [hi.mem_inserted h0, inserted_address]
    by_cases hii : i = index
    · simp [hii, ha, eq_comm]
    · rw [if_neg hii, if_neg hii]
      exact hi.mem_iff b i
  · rw [inserted_address, inserted_address] at heq
    rw [inserted_address] at hne
    by_cases hii : i = index
    · by_cases hjj : j = index
      · rw [hii, hjj]
      · rw [if_pos hii, if_neg hjj] at heq
        exact absurd heq.symm (hnew j)
    · by_cases hjj : j = index
      · rw [if_neg hii, if_pos hjj] at heq
        exact absurd heq (hnew i)
      · rw [if_neg hii] at heq hne
        rw [if_neg hjj] at heq
        exact hi.distinct i j heq hne

end History

/-! ## The refinement -/

/-- The ring behind the index. -/
def History.ring (h : History) : Reference where
  entries := fun i => if (h.entries i).address = 0 then none else some (h.entries i).address
  next_index := h.next_index

/-- A call, on a nonzero address. -/
inductive Call where
  | seen_or_mark (address : {a : UInt64 // a ≠ 0})
  | consume (address : {a : UInt64 // a ≠ 0})

def History.call (fuel : ℕ) (h : History) : Call → Option (Bool × History)
  | .seen_or_mark address => h.seen_or_mark fuel address
  | .consume address => h.consume fuel address

def Reference.call (ref : Reference) : Call → Bool × Reference
  | .seen_or_mark address => ref.seen_or_mark address
  | .consume address => ref.consume address

/-- The answers of a sequence of calls and the history after it. -/
def History.run (fuel : ℕ) (h : History) : List Call → Option (List Bool × History)
  | [] => some ([], h)
  | c :: cs => do
    let (b, h₁) ← h.call fuel c
    let (bs, h₂) ← h₁.run fuel cs
    return (b :: bs, h₂)

def Reference.run (ref : Reference) : List Call → List Bool × Reference
  | [] => ([], ref)
  | c :: cs =>
    let (b, ref₁) := ref.call c
    let (bs, ref₂) := ref₁.run cs
    (b :: bs, ref₂)

namespace History

variable {h : History} {chain : Fin BUCKET_COUNT → List Slot} {fuel : ℕ} {address : UInt64}

theorem ring_entries_eq (ha : address ≠ 0) (i : Slot) :
    h.ring.entries i = some address ↔ (h.entries i).address = address := by
  unfold ring
  by_cases h0 : (h.entries i).address = 0
  · simp [h0, Ne.symm ha]
  · simp [h0]

/-- The slot the index finds is the slot the scan finds. -/
theorem find_eq_scan (hi : h.Indexed chain) (hfuel : CAPACITY < fuel) (ha : address ≠ 0) :
    h.find fuel address = some (h.ring.scan address) ∧
      ∀ i, h.ring.scan address = some i → (h.entries i).address = address := by
  have hscan : ∀ i, h.ring.scan address = some i → (h.entries i).address = address := by
    intro i hs
    have hfound := List.find?_some hs
    exact (ring_entries_eq ha i).mp (by simpa using hfound)
  refine ⟨?_, hscan⟩
  rcases find_cases hi hfuel ha with ⟨i, hfind, heq⟩ | ⟨hfind, hnone⟩
  · rw [hfind]
    cases hs : h.ring.scan address with
    | none =>
      have hno := List.find?_eq_none.mp hs i (List.mem_finRange i)
      exact absurd ((ring_entries_eq ha i).mpr heq) (by simpa using hno)
    | some j => rw [hi.distinct i j (heq.trans (hscan j hs).symm) (heq ▸ ha)]
  · rw [hfind]
    cases hs : h.ring.scan address with
    | none => rfl
    | some j => exact absurd (hscan j hs) (hnone j)

/-- The ring after a slot was emptied. -/
theorem ring_removed {h' : History} {index : Slot} (hnext : h'.next_index = h.next_index)
    (hadd : ∀ i, (h'.entries i).address = if i = index then 0 else (h.entries i).address) :
    h'.ring = { h.ring with entries := Function.update h.ring.entries index none } := by
  unfold ring
  congr 1
  funext i
  by_cases hii : i = index
  · simp [hadd, hii]
  · simp [hadd, hii]

theorem consume_refines (hi : h.Indexed chain) (hfuel : CAPACITY < fuel) (ha : address ≠ 0) :
    ∃ h' chain', h.consume fuel address = some ((h.ring.consume address).1, h') ∧
      h'.Indexed chain' ∧ h'.ring = (h.ring.consume address).2 := by
  obtain ⟨hfind, hscan⟩ := find_eq_scan hi hfuel ha
  unfold consume Reference.consume
  rw [hfind]
  cases hs : h.ring.scan address with
  | none => exact ⟨h, chain, rfl, hi, rfl⟩
  | some i =>
    obtain ⟨h', chain', hrem, hi', hnext, hadd⟩ := remove_indexed hi (hscan i hs ▸ ha)
    refine ⟨h', chain', ?_, hi', ring_removed hnext hadd⟩
    simp [hrem]

/-- The slot about to be reused is emptied first. -/
theorem evicted (hi : h.Indexed chain) : ∃ h' chain',
    (if (h.entries h.next_index).address ≠ 0 then h.remove h.next_index else some h) = some h' ∧
      h'.Indexed chain' ∧ h'.next_index = h.next_index ∧
      ∀ i, (h'.entries i).address = if i = h.next_index then 0 else (h.entries i).address := by
  by_cases h0 : (h.entries h.next_index).address = 0
  · refine ⟨h, chain, by rw [if_neg (not_not.mpr h0)], hi, rfl, fun i => ?_⟩
    by_cases hii : i = h.next_index
    · rw [if_pos hii, hii, h0]
    · rw [if_neg hii]
  · obtain ⟨h', chain', hrem, hi', hnext, hadd⟩ := remove_indexed hi h0
    exact ⟨h', chain', by rw [if_pos h0, hrem], hi', hnext, hadd⟩

/-- `seen_or_mark` of an address that is not held. -/
theorem mark_eq (hi : h.Indexed chain) (hfind : h.find fuel address = some none) (ha : address ≠ 0)
    (hnew : ∀ i, (h.entries i).address ≠ address) : ∃ h' chain',
    h.seen_or_mark fuel address = some (false, h') ∧ h'.Indexed chain' ∧
      h'.next_index = advance h.next_index ∧
      ∀ i, (h'.entries i).address
        = if i = h.next_index then address else (h.entries i).address := by
  obtain ⟨h₁, chain₁, hev, hi₁, hnext₁, hadd₁⟩ := evicted hi
  have h0 : (h₁.entries h.next_index).address = 0 := by rw [hadd₁, if_pos rfl]
  have hnew₁ : ∀ i, (h₁.entries i).address ≠ address := by
    intro i
    rw [hadd₁]
    split
    · exact Ne.symm ha
    · exact hnew i
  have hhead : h₁.buckets (bucket address) = link_of (chain₁ (bucket address)).head? :=
    (hi₁.dll (bucket address)).first_eq
  refine ⟨_, _, ?_, insert_indexed hi₁ h0 ha hnew₁, rfl, fun i => ?_⟩
  · unfold seen_or_mark
    rw [hfind]
    simp only [Option.bind_eq_bind, Option.bind_some, Option.isSome_none, Bool.false_eq_true,
      if_false, hev, hhead]
    unfold inserted
    cases (chain₁ (bucket address)).head? <;> simp [link_of, link_ne_no_entry]
  · rw [inserted_address, hadd₁]
    by_cases hii : i = h.next_index
    · rw [if_pos hii, if_pos hii]
    · rw [if_neg hii, if_neg hii, if_neg hii]

/-- The ring after an address was marked. -/
theorem ring_marked {h' : History} (ha : address ≠ 0) (hnext : h'.next_index = advance h.next_index)
    (hadd : ∀ i, (h'.entries i).address
      = if i = h.next_index then address else (h.entries i).address) :
    h'.ring
      = ⟨Function.update h.ring.entries h.next_index (some address), advance h.next_index⟩ := by
  unfold ring
  rw [hnext]
  congr 1
  funext i
  by_cases hii : i = h.next_index
  · simp [hadd, hii, ha]
  · simp [hadd, hii]

theorem seen_or_mark_refines (hi : h.Indexed chain) (hfuel : CAPACITY < fuel) (ha : address ≠ 0) :
    ∃ h' chain', h.seen_or_mark fuel address = some ((h.ring.seen_or_mark address).1, h') ∧
      h'.Indexed chain' ∧ h'.ring = (h.ring.seen_or_mark address).2 := by
  obtain ⟨hfind, -⟩ := find_eq_scan hi hfuel ha
  unfold Reference.seen_or_mark
  cases hs : h.ring.scan address with
  | some i =>
    rw [hs] at hfind
    refine ⟨h, chain, ?_, hi, rfl⟩
    simp [seen_or_mark, hfind]
  | none =>
    rw [hs] at hfind
    have hnew : ∀ i, (h.entries i).address ≠ address := by
      intro i heq
      have hno := List.find?_eq_none.mp hs i (List.mem_finRange i)
      exact absurd ((ring_entries_eq ha i).mpr heq) (by simpa using hno)
    obtain ⟨h', chain', hmark, hi', hnext, hadd⟩ := mark_eq hi hfind ha hnew
    exact ⟨h', chain', hmark, hi', ring_marked ha hnext hadd⟩

theorem call_refines (hi : h.Indexed chain) (hfuel : CAPACITY < fuel) (c : Call) :
    ∃ h' chain', h.call fuel c = some ((h.ring.call c).1, h') ∧ h'.Indexed chain' ∧
      h'.ring = (h.ring.call c).2 := by
  cases c with
  | seen_or_mark address => exact seen_or_mark_refines hi hfuel address.2
  | consume address => exact consume_refines hi hfuel address.2

theorem run_refines (hfuel : CAPACITY < fuel) (cs : List Call) : ∀ {h : History}
    {chain : Fin BUCKET_COUNT → List Slot}, h.Indexed chain → ∃ h' chain',
      h.run fuel cs = some ((h.ring.run cs).1, h') ∧ h'.Indexed chain' ∧
      h'.ring = (h.ring.run cs).2 := by
  induction cs with
  | nil => exact fun {h chain} hi => ⟨h, chain, rfl, hi, rfl⟩
  | cons c cs ih =>
    intro h chain hi
    obtain ⟨h₁, chain₁, hcall, hi₁, hring₁⟩ := call_refines hi hfuel c
    obtain ⟨h₂, chain₂, hrun, hi₂, hring₂⟩ := ih hi₁
    rw [hring₁] at hrun hring₂
    refine ⟨h₂, chain₂, ?_, hi₂, hring₂⟩
    simp [run, Reference.run, hcall, hrun]

end History

theorem ring_new : History.new.ring = Reference.new := rfl

/-- **The index changes nothing.** Every sequence of calls ends without a panic, whatever number of
turns beyond `CAPACITY + 1` `find` may take; each call answers as on the plain ring, and after
it the two hold the same addresses in the same slots, with the same `next_index`. -/
theorem history_matches_ring (extra : ℕ) (cs : List Call) : ∃ h : History,
    History.new.run (CAPACITY + 1 + extra) cs = some ((Reference.new.run cs).1, h) ∧
      h.next_index = (Reference.new.run cs).2.next_index ∧
      ∀ i, (Reference.new.run cs).2.entries i
        = if (h.entries i).address = 0 then none else some (h.entries i).address := by
  have hfuel : CAPACITY < CAPACITY + 1 + extra := by omega
  obtain ⟨h, -, hrun, -, hring⟩ := History.run_refines hfuel cs History.indexed_new
  rw [ring_new] at hrun hring
  refine ⟨h, hrun, ?_, fun i => ?_⟩
  · rw [← hring]
    rfl
  · rw [← hring]
    rfl

/-! ## The last `CAPACITY` marks

The ring says which addresses a history holds: those of the last `CAPACITY` marks that were not
consumed since. A consumed mark still counts, as the slot it leaves empty is walked over. -/

namespace History

/-- An entry holds the address. -/
def Held (h : History) (address : UInt64) : Prop := ∃ i, (h.entries i).address = address

/-- The history after the marks of `log`, the newest first and a consumed one `none`. -/
structure Recent (h : History) (log : List (Option UInt64)) : Prop where
  indexed : ∃ chain, h.Indexed chain
  shows : Rings.Shows h.ring.entries h.next_index log
  spaced : Rings.Spaced CAPACITY log

theorem recent_new : new.Recent [] := ⟨⟨_, indexed_new⟩, Rings.shows_nil _, Rings.spaced_nil⟩

variable {h : History} {log : List (Option UInt64)} {fuel : ℕ} {address : UInt64}

theorem held_iff_ring (ha : address ≠ 0) : h.Held address ↔ ∃ i, h.ring.entries i = some address :=
  exists_congr fun i => (ring_entries_eq ha i).symm

theorem scan_isSome (ha : address ≠ 0) : (h.ring.scan address).isSome ↔ h.Held address := by
  rw [held_iff_ring ha]
  unfold Reference.scan
  simp [List.find?_isSome]

theorem Recent.held_iff (hr : h.Recent log) (ha : address ≠ 0) :
    h.Held address ↔ ∃ k < CAPACITY, log[k]? = some (some address) := by
  rw [held_iff_ring ha]
  exact hr.shows.held_iff

/-- The mark before the last `CAPACITY` is evicted. -/
theorem Recent.evicted (hr : h.Recent log) (ha : address ≠ 0)
    (hat : log[CAPACITY]? = some (some address)) : ¬ h.Held address := by
  rw [hr.held_iff ha]
  rintro ⟨k, hk, hlog⟩
  have hlt := hr.spaced address k CAPACITY hk hlog hat
  omega

/-- A held address is seen, and nothing changes. -/
theorem Recent.seen (hr : h.Recent log) (hfuel : CAPACITY < fuel) (ha : address ≠ 0)
    (hheld : h.Held address) : h.seen_or_mark fuel address = some (true, h) := by
  obtain ⟨chain, hi⟩ := hr.indexed
  unfold seen_or_mark
  rw [(find_eq_scan hi hfuel ha).1]
  simp [(scan_isSome ha).mpr hheld]

/-- An address that is not held is marked. -/
theorem Recent.mark (hr : h.Recent log) (hfuel : CAPACITY < fuel) (ha : address ≠ 0)
    (hheld : ¬ h.Held address) : ∃ h', h.seen_or_mark fuel address = some (false, h') ∧
      h'.Recent (some address :: log) := by
  obtain ⟨chain, hi⟩ := hr.indexed
  have hscan : ¬ (h.ring.scan address).isSome := fun h' => hheld ((scan_isSome ha).mp h')
  obtain ⟨h', chain', heq, hi', hring⟩ := seen_or_mark_refines hi hfuel ha
  unfold Reference.seen_or_mark at heq hring
  rw [if_neg hscan] at heq hring
  refine ⟨h', heq, ⟨chain', hi'⟩, ?_, hr.spaced.write fun k hk hlog => ?_⟩
  · show Rings.Shows h'.ring.entries h'.ring.next_index _
    rw [hring]
    exact hr.shows.write address
  · exact hheld ((hr.held_iff ha).mpr ⟨k, hk, hlog⟩)

/-- A consumed address is held no longer. -/
theorem Recent.consume (hr : h.Recent log) (hfuel : CAPACITY < fuel) (ha : address ≠ 0) :
    ∃ found h', h.consume fuel address = some (found, h') ∧
      h'.Recent (Rings.cleared address log) := by
  obtain ⟨chain, hi⟩ := hr.indexed
  obtain ⟨h', chain', heq, hi', hring⟩ := consume_refines hi hfuel ha
  refine ⟨_, h', heq, ⟨chain', hi'⟩, ?_, hr.spaced.clear address⟩
  show Rings.Shows h'.ring.entries h'.ring.next_index _
  rw [hring]
  unfold Reference.consume
  cases hs : h.ring.scan address with
  | none =>
    refine hr.shows.clear_of_forall_ne fun j hj => ?_
    have hsome := (scan_isSome ha).mpr ⟨j, (ring_entries_eq ha j).mp hj⟩
    rw [hs] at hsome
    exact Bool.false_ne_true hsome
  | some i =>
    have hat := (find_eq_scan hi hfuel ha).2 i hs
    refine hr.shows.clear fun j => ?_
    rw [ring_entries_eq ha]
    constructor
    · exact fun hj => hi.distinct j i (hj.trans hat.symm) (hj ▸ ha)
    · rintro rfl
      exact hat

end History

end Linuwux.PendingFrees
