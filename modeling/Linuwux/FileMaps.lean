/-
`FileMaps.lean` -- mapped files: an address space whose cells are bytes of files, shared or copied
on write.

A cell knows which byte of which file it stands for. A shared cell passes a store on to the file, a
private one keeps the byte for itself. Nothing else is said about stores, so what a private mapping
cannot do to a file, and to other mappings of it, is a fact about [`Space.store`] alone
([`Space.store_private`]).

[`Space.patch`] stores some bytes of a range. Over a range of private cells it is pointwise
([`Space.patch_private`]), and [`Space.bytes_patch_diff`] has the case in which the range comes to
show given bytes.
-/
import Mathlib.Data.List.Basic
import Mathlib.Logic.Function.Basic

set_option autoImplicit false

namespace Linuwux.FileMaps

variable {F P : Type*}

/-- One byte of the address space. -/
structure Cell (F P : Type*) where
  file : F
  offset : ℕ
  shared : Bool
  prot : P
  /-- The byte of a private cell that was written. -/
  own : Option UInt8

/-- The cell with a byte of its own, if there is one for it. -/
def Cell.patched (c : Cell F P) (b : Option UInt8) : Cell F P := { c with own := b.or c.own }

/-- The cell without a byte of its own. -/
def Cell.bare (c : Cell F P) : Cell F P := { c with own := none }

/-- The files and the addresses that are mapped. -/
structure Space (F P : Type*) where
  content : F → List UInt8
  cells : ℕ → Option (Cell F P)

namespace Space

/-- What a read gives. Behind the end of the file there are zeros. -/
def byte (s : Space F P) (address : ℕ) : Option UInt8 :=
  (s.cells address).map fun c => c.own.getD ((s.content c.file).getD c.offset 0)

def bytes (s : Space F P) (start length : ℕ) : List UInt8 :=
  (List.range length).map fun i => (s.byte (start + i)).getD 0

/-- `mmap` of a file. What was there is gone. -/
def map (s : Space F P) (start length : ℕ) (file : F) (offset : ℕ) (shared : Bool) (prot : P) :
    Space F P where
  content := s.content
  cells address :=
    if start ≤ address ∧ address < start + length then
      some ⟨file, offset + (address - start), shared, prot, none⟩
    else s.cells address

/-- `munmap`. -/
def unmap (s : Space F P) (start length : ℕ) : Space F P where
  content := s.content
  cells address := if start ≤ address ∧ address < start + length then none else s.cells address

/-- `mprotect`. -/
def protect (s : Space F P) (start length : ℕ) (prot : P) : Space F P where
  content := s.content
  cells address :=
    if start ≤ address ∧ address < start + length then
      (s.cells address).map fun c => { c with prot := prot }
    else s.cells address

variable [DecidableEq F]

def store (s : Space F P) (address : ℕ) (b : UInt8) : Space F P :=
  match s.cells address with
  | none => s
  | some c =>
    if c.shared then
      { s with content := Function.update s.content c.file ((s.content c.file).set c.offset b) }
    else { s with cells := Function.update s.cells address (some { c with own := some b }) }

/-- Stores from `start` on, where nothing is stored for `none`. -/
def patch (s : Space F P) (start : ℕ) : List (Option UInt8) → Space F P
  | [] => s
  | none :: rest => s.patch (start + 1) rest
  | some b :: rest => (s.store start b).patch (start + 1) rest

/-! ## Single operations -/

omit [DecidableEq F] in
@[simp] theorem length_bytes (s : Space F P) (start n : ℕ) : (s.bytes start n).length = n := by
  simp only [bytes, List.length_map, List.length_range]

omit [DecidableEq F] in
theorem getElem?_bytes {s : Space F P} {start n i : ℕ} (hi : i < n) :
    (s.bytes start n)[i]? = some ((s.byte (start + i)).getD 0) := by
  rw [bytes, List.getElem?_map, List.getElem?_range hi]
  rfl

omit [DecidableEq F] in
theorem bytes_congr {s s' : Space F P} {start n : ℕ}
    (h : ∀ address, start ≤ address → address < start + n → s'.byte address = s.byte address) :
    s'.bytes start n = s.bytes start n := by
  refine List.map_congr_left fun i hi => ?_
  have hlt := List.mem_range.mp hi
  rw [h (start + i) (Nat.le_add_right ..) (by omega)]

omit [DecidableEq F] in
theorem bytes_take {s : Space F P} {start n k : ℕ} (hk : k ≤ n) :
    (s.bytes start n).take k = s.bytes start k := by
  rw [bytes, ← List.map_take, List.take_range, Nat.min_eq_left hk]
  rfl

omit [DecidableEq F] in
/-- A new mapping shows the file. -/
theorem byte_map {s : Space F P} {start length : ℕ} {file : F} {offset : ℕ} {shared : Bool}
    {prot : P} {address : ℕ} (h : start ≤ address ∧ address < start + length) :
    (s.map start length file offset shared prot).byte address
      = some ((s.content file).getD (offset + (address - start)) 0) := by
  unfold byte map
  dsimp only
  rw [if_pos h]
  rfl

omit [DecidableEq F] in
@[simp] theorem byte_protect (s : Space F P) (start length : ℕ) (prot : P) (address : ℕ) :
    (s.protect start length prot).byte address = s.byte address := by
  unfold byte protect
  dsimp only
  split
  · rw [Option.map_map]
    rfl
  · rfl

omit [DecidableEq F] in
/-- Only the protection of a cell changes. -/
theorem map_protect {γ : Type*} (g : Cell F P → γ)
    (hg : ∀ (c : Cell F P) (prot : P), g { c with prot := prot } = g c) (s : Space F P)
    (start length : ℕ) (prot : P) (address : ℕ) :
    ((s.protect start length prot).cells address).map g = (s.cells address).map g := by
  unfold protect
  dsimp only
  split
  · rw [Option.map_map]
    exact congrArg (Option.map · _) (funext fun c => hg c prot)
  · rfl

/-- A store to a private cell changes this cell and no file. -/
theorem store_private {s : Space F P} {address : ℕ} {c : Cell F P}
    (hc : s.cells address = some c) (hprivate : c.shared = false) (b : UInt8) :
    s.store address b
      = ⟨s.content, Function.update s.cells address (some { c with own := some b })⟩ := by
  unfold store
  rw [hc]
  dsimp only
  rw [hprivate, if_neg Bool.false_ne_true]

/-! ## Ranges -/

/-- The range is mapped, and private. -/
def Private (s : Space F P) (start length : ℕ) : Prop :=
  ∀ address, start ≤ address → address < start + length →
    ∃ c, s.cells address = some c ∧ c.shared = false

omit [DecidableEq F] in
theorem private_map (s : Space F P) (start length : ℕ) (file : F) (offset : ℕ) (prot : P) :
    (s.map start length file offset false prot).Private start length := fun _ hlo hhi =>
  ⟨_, if_pos ⟨hlo, hhi⟩, rfl⟩

omit [DecidableEq F] in
theorem Private.protect {s : Space F P} {start length : ℕ} (h : s.Private start length)
    (prot : P) : (s.protect start length prot).Private start length := by
  intro address hlo hhi
  obtain ⟨c, hc, hprivate⟩ := h address hlo hhi
  refine ⟨{ c with prot := prot }, ?_, hprivate⟩
  unfold Space.protect
  dsimp only
  rw [if_pos ⟨hlo, hhi⟩, hc]
  rfl

omit [DecidableEq F] in
theorem Private.mono {s : Space F P} {start length n : ℕ} (h : s.Private start length)
    (hn : n ≤ length) : s.Private start n := fun address hlo hhi => h address hlo (by omega)

/-- Stores to a private range stay in it. The induction is on the stores. -/
theorem patch_private {s : Space F P} {start : ℕ} (l : List (Option UInt8))
    (h : s.Private start l.length) : (s.patch start l).content = s.content
      ∧ ∀ address, (s.patch start l).cells address
        = if start ≤ address ∧ address < start + l.length then
            (s.cells address).map fun c => Cell.patched c (l[address - start]?.join)
          else s.cells address := by
  induction l generalizing s start with
  | nil =>
    refine ⟨rfl, fun address => (if_neg ?_).symm⟩
    rw [List.length_nil]
    omega
  | cons b rest ih =>
    rw [List.length_cons] at h
    -- The first store touches the cell at `start` only.
    have hfirst : ∃ s₁ : Space F P, s.patch start (b :: rest) = s₁.patch (start + 1) rest
        ∧ s₁.content = s.content ∧ s₁.cells start = (s.cells start).map (Cell.patched · b)
        ∧ ∀ address, address ≠ start → s₁.cells address = s.cells address := by
      obtain ⟨c, hc, hprivate⟩ := h start (Nat.le_refl _) (by omega)
      cases b with
      | none =>
        refine ⟨s, rfl, rfl, ?_, fun _ _ => rfl⟩
        rw [hc]
        rfl
      | some b =>
        refine ⟨s.store start b, rfl, ?_⟩
        rw [store_private hc hprivate]
        refine ⟨rfl, ?_, fun address hne => Function.update_of_ne hne ..⟩
        rw [hc]
        exact Function.update_self ..
    obtain ⟨s₁, hpatch, hcontent, hself, hother⟩ := hfirst
    have hrest : s₁.Private (start + 1) rest.length := fun address hlo hhi => by
      rw [hother address (by omega)]
      exact h address (by omega) (by omega)
    obtain ⟨hcontent', hcells⟩ := ih hrest
    refine ⟨by rw [hpatch, hcontent', hcontent], fun address => ?_⟩
    rw [hpatch, hcells]
    rcases Nat.lt_trichotomy address start with hlt | rfl | hgt
    · rw [if_neg (by omega), if_neg (by omega), hother address (by omega)]
    · rw [if_neg (by omega), if_pos (by rw [List.length_cons]; omega), hself, Nat.sub_self]
      rfl
    · rw [hother address (by omega), List.length_cons]
      have hsub : address - start = address - (start + 1) + 1 := by omega
      by_cases hin : address < start + (rest.length + 1)
      · rw [if_pos (by omega), if_pos (by omega), hsub, List.getElem?_cons_succ]
      · rw [if_neg (by omega), if_neg (by omega)]

/-- The stores that make `new` of `old`. A byte that is there already is not stored. -/
def diff (old new : List UInt8) : List (Option UInt8) :=
  List.zipWith (fun o n => if o = n then none else some n) old new

theorem length_diff {old new : List UInt8} (h : new.length = old.length) :
    (diff old new).length = old.length := by
  rw [diff, List.length_zipWith, h, Nat.min_self]

theorem getElem?_diff {old new : List UInt8} {i : ℕ} {o b : UInt8} (ho : old[i]? = some o)
    (hb : new[i]? = some b) : (diff old new)[i]?.join = if o = b then none else some b := by
  rw [diff, List.getElem?_zipWith, ho, hb]
  rfl

/-- A private range can be made to show anything. -/
theorem bytes_patch_diff {s : Space F P} {start n : ℕ} {new : List UInt8}
    (h : s.Private start n) (hlen : new.length = n) :
    (s.patch start (diff (s.bytes start n) new)).bytes start n = new := by
  have hdiff : (diff (s.bytes start n) new).length = n := by
    rw [length_diff (by rw [length_bytes, hlen]), length_bytes]
  obtain ⟨hcontent, hcells⟩ := patch_private (diff (s.bytes start n) new) (by rwa [hdiff])
  refine List.ext_getElem? fun i => ?_
  by_cases hi : i < n
  · obtain ⟨c, hc, -⟩ := h (start + i) (by omega) (by omega)
    have hold : (s.bytes start n)[i]? = some ((s.byte (start + i)).getD 0) := getElem?_bytes hi
    have hnew : new[i]? = some new[i] := List.getElem?_eq_getElem (by omega)
    have hbyte : s.byte (start + i) = some (c.own.getD ((s.content c.file).getD c.offset 0)) := by
      rw [byte, hc]
      rfl
    rw [getElem?_bytes hi, hnew, byte, hcells, if_pos (by omega), hc, hcontent,
      Nat.add_sub_cancel_left, getElem?_diff hold hnew, hbyte]
    simp only [Option.map_some, Option.getD_some, Cell.patched]
    split
    · rename_i heq
      rw [Option.none_or, heq]
    · rfl
  · rw [List.getElem?_eq_none (by rw [length_bytes]; omega), List.getElem?_eq_none (by omega)]

/-- Stores do not change what is mapped. -/
theorem bare_patch {s : Space F P} {start : ℕ} {l : List (Option UInt8)}
    (h : s.Private start l.length) (address : ℕ) :
    ((s.patch start l).cells address).map Cell.bare = (s.cells address).map Cell.bare := by
  rw [(patch_private l h).2]
  split
  · rw [Option.map_map]
    rfl
  · rfl

/-- The stores leave the rest. -/
theorem byte_patch_of_outside {s : Space F P} {start : ℕ} {l : List (Option UInt8)}
    (h : s.Private start l.length) {address : ℕ}
    (hout : ¬(start ≤ address ∧ address < start + l.length)) :
    (s.patch start l).byte address = s.byte address := by
  obtain ⟨hcontent, hcells⟩ := patch_private l h
  rw [byte, byte, hcells, if_neg hout, hcontent]

end Space

end Linuwux.FileMaps
