/-
`ReflexImage.lean` -- `register_reflex_image` and `is_reflex_address` of
`runtime/src/syscall/kuser_dispatch.rs`.

The image that a handler belongs to is looked for page by page below it, and its range is kept in
two words. The second word is stored before the first, and a reader loads the first one first, so a
reader that sees a range at all sees the whole of it: but only where all registrations are about one
image. Two threads that register different images at the same time can leave the start of the one
with the end of the other ([`mixed_ranges`]).
-/
import Linuwux.Int2ePatch
import Linuwux.Threads

set_option autoImplicit false

namespace Linuwux.ReflexImage

open Int2e (checked_sub page_of)
open ProcMem (Memory checked_add read_memory)
open Threads (Program Config Outcome run trace)

/-! ## The walk -/

/-- One turn of the loop: where the image at `base` ends, if there is one that covers the
handler. -/
def image_at (m : Memory) (handler base : UInt64) : Option UInt64 := do
  let dos ← read_memory m base 0x40
  guard (dos.take 2 = [0x4d, 0x5a])
  let pe_offset := Scans.from_le_bytes (Scans.slice dos 0x3c 0x40)
  guard (pe_offset ≤ 0x1000)
  let headers ← read_memory m (base + .ofNat pe_offset) 0x60
  guard (headers.take 4 = [0x50, 0x45, 0, 0])
  let image_size := Scans.from_le_bytes (Scans.slice headers 80 84)
  let stop ← checked_add base image_size
  guard (image_size ≠ 0 ∧ base ≤ handler ∧ handler < stop)
  return stop

/-- The loop over the offsets that are left. -/
def walk (m : Memory) (handler : UInt64) : List ℕ → Option (UInt64 × UInt64)
  | [] => none
  | offset :: rest =>
    match checked_sub (page_of handler) offset with
    | none => none
    | some base =>
      match image_at m handler base with
      | some stop => some (base, stop)
      | none => walk m handler rest

/-- `(0..=0x10_0000).step_by(0x1000)`. -/
def OFFSETS : List ℕ := (List.range 0x101).map fun i => i * 0x1000

/-- The range that `register_reflex_image` stores for a handler. -/
def find_image (m : Memory) (handler : UInt64) : Option (UInt64 × UInt64) :=
  if handler = 0 then none else walk m handler OFFSETS

/-- `(base, stop)` is an image below the handler's page, `k` pages away, and no page nearer to the
handler has one that covers it. -/
structure Nearest (m : Memory) (handler base stop : UInt64) (k : ℕ) : Prop where
  page : base.toNat + k * 0x1000 = (page_of handler).toNat
  image : image_at m handler base = some stop
  nearer : ∀ page : UInt64, base < page → page.toNat % 0x1000 = 0 → page ≤ handler →
    image_at m handler page = none

theorem checked_sub_eq_some {a r : UInt64} {n : ℕ} :
    checked_sub a n = some r ↔ r.toNat + n = a.toNat := by
  unfold checked_sub
  split
  · rename_i h
    have hlt := a.toNat_lt
    have hof : (UInt64.ofNat n).toNat = n := by
      rw [UInt64.toNat_ofNat']
      omega
    have hsub : (a - UInt64.ofNat n).toNat = a.toNat - n := by
      rw [UInt64.toNat_sub_of_le _ _ (UInt64.le_iff_toNat_le.mpr (by rw [hof]; exact h)), hof]
    rw [Option.some.injEq, ← UInt64.toNat_inj, hsub]
    omega
  · rename_i h
    exact ⟨nofun, fun hr => by omega⟩

section Walk

variable {m : Memory} {handler base stop : UInt64}

/-- The walk from offset `i` on; the induction is on how many offsets are left. -/
theorem walk_eq_some (i n : ℕ) :
    walk m handler ((List.range' i n).map fun i => i * 0x1000) = some (base, stop)
      ↔ ∃ k, i ≤ k ∧ k < i + n ∧ base.toNat + k * 0x1000 = (page_of handler).toNat
        ∧ image_at m handler base = some stop
        ∧ ∀ j page, i ≤ j → j < k → page.toNat + j * 0x1000 = (page_of handler).toNat →
          image_at m handler page = none := by
  induction n generalizing i with
  | zero =>
    refine ⟨nofun, fun ⟨k, hi, hk, _⟩ => ?_⟩
    omega
  | succ n ih =>
    rw [List.range'_succ, List.map_cons, walk]
    cases hsub : checked_sub (page_of handler) (i * 0x1000) with
    | none =>
      refine ⟨nofun, fun ⟨k, hi, _, hpage, _⟩ => ?_⟩
      -- A page at a greater offset would be one at this offset too.
      have hle : i * 0x1000 ≤ (page_of handler).toNat := by
        have hmul := Nat.mul_le_mul_right 0x1000 hi
        omega
      unfold checked_sub at hsub
      rw [if_pos hle] at hsub
      cases hsub
    | some here =>
      have hhere := checked_sub_eq_some.mp hsub
      dsimp only
      cases himage : image_at m handler here with
      | some end_ =>
        dsimp only
        constructor
        · rintro ⟨⟩
          exact ⟨i, Nat.le_refl i, by omega, hhere, himage, fun j _ hi hj => by omega⟩
        · rintro ⟨k, hi, -, hpage, hbase, hnearer⟩
          rcases Nat.eq_or_lt_of_le hi with rfl | hlt
          · have heq : here = base := UInt64.toNat_inj.mp (by omega)
            rw [heq, hbase] at himage
            cases himage
            rw [heq]
          · rw [hnearer i here (Nat.le_refl i) hlt hhere] at himage
            cases himage
      | none =>
        dsimp only
        rw [ih (i + 1)]
        constructor
        · rintro ⟨k, hi, hk, hpage, hbase, hnearer⟩
          refine ⟨k, by omega, by omega, hpage, hbase, fun j page hij hj hat => ?_⟩
          rcases Nat.eq_or_lt_of_le hij with rfl | hlt
          · have heq : page = here := UInt64.toNat_inj.mp (by omega)
            rw [heq, himage]
          · exact hnearer j page hlt hj hat
        · rintro ⟨k, hi, hk, hpage, hbase, hnearer⟩
          rcases Nat.eq_or_lt_of_le hi with rfl | hlt
          · have heq : base = here := UInt64.toNat_inj.mp (by omega)
            rw [heq, himage] at hbase
            cases hbase
          · exact ⟨k, hlt, by omega, hpage, hbase, fun j page hij hj hat =>
              hnearer j page (by omega) hj hat⟩

/-- The walk gives the nearest image within its reach that covers the handler. -/
theorem find_image_eq_some :
    find_image m handler = some (base, stop)
      ↔ handler ≠ 0 ∧ ∃ k ≤ 0x100, Nearest m handler base stop k := by
  have hwalk := @walk_eq_some m handler base stop 0 0x101
  have hfloor := Int2e.page_of_toNat handler
  unfold find_image OFFSETS
  by_cases hzero : handler = 0
  · rw [if_pos hzero]
    exact ⟨nofun, fun h => absurd hzero h.1⟩
  rw [if_neg hzero, List.range_eq_range', hwalk, and_iff_right hzero]
  constructor
  · rintro ⟨k, -, hk, hpage, himage, hnearer⟩
    refine ⟨k, by omega, hpage, himage, fun page hlt haligned hle => ?_⟩
    rw [UInt64.lt_iff_toNat_lt] at hlt
    rw [UInt64.le_iff_toNat_le] at hle
    exact hnearer (((page_of handler).toNat - page.toNat) / 0x1000) page (Nat.zero_le _) (by omega)
      (by omega)
  · rintro ⟨k, hk, hpage, himage, hnearer⟩
    refine ⟨k, Nat.zero_le k, by omega, hpage, himage, fun j page _ hj hat => ?_⟩
    refine hnearer page ?_ (by omega) ?_
    · rw [UInt64.lt_iff_toNat_lt]
      omega
    · rw [UInt64.le_iff_toNat_le]
      omega

end Walk

/-! ## The two words among threads -/

/-- `REFLEX_IMAGE_START` and `REFLEX_IMAGE_END`. -/
structure Mem where
  start : UInt64
  stop : UInt64

def Mem.new : Mem := ⟨0, 0⟩

/-- What an idle thread is to do. -/
inductive Request where
  | register (handler : UInt64)
  | ask (address : UInt64)

/-- The request of an idle thread, and what a walk reads. -/
structure Choice where
  request : Request
  memory : Memory

/-- `is_reflex_address` has answered. -/
inductive Event where
  | answered (address : UInt64) (found : Bool)
  deriving DecidableEq

/-- The access that `register_reflex_image` or `is_reflex_address` is about to make; the walk, which
only reads, is one. -/
inductive Pc where
  | idle
  | load_start (handler : UInt64)
  | walk (handler : UInt64)
  | store_end (base stop : UInt64)
  | store_start (base : UInt64)
  | ask_start (address : UInt64)
  | ask_end (address start : UInt64)

def program (T : Type*) : Program T Choice Mem Pc Event := fun _ a m pc =>
  match pc with
  | .idle =>
    match a.request with
    | .register handler => ⟨m, if handler = 0 then .idle else .load_start handler, []⟩
    | .ask address => ⟨m, .ask_start address, []⟩
  | .load_start handler => ⟨m, if m.start ≠ 0 then .idle else .walk handler, []⟩
  | .walk handler =>
    match find_image a.memory handler with
    | none => ⟨m, .idle, []⟩
    | some (base, stop) => ⟨m, .store_end base stop, []⟩
  | .store_end base stop => ⟨{ m with stop := stop }, .store_start base, []⟩
  | .store_start base => ⟨{ m with start := base }, .idle, []⟩
  | .ask_start address => ⟨m, .ask_end address m.start, []⟩
  | .ask_end address start =>
    ⟨m, .idle, [.answered address (start ≠ 0 ∧ start ≤ address ∧ address < m.stop)]⟩

def start (T : Type*) : Config T Mem Pc := ⟨.new, fun _ => .idle⟩

/-- Whichever of the handlers a walk is for, it finds this image or none. -/
structure Choice.About (handlers : Set UInt64) (base stop : UInt64) (a : Choice) : Prop where
  registered : ∀ handler, a.request = .register handler → handler ∈ handlers
  found : ∀ handler ∈ handlers, find_image a.memory handler = none
    ∨ find_image a.memory handler = some (base, stop)

section OneImage

variable {T : Type*} {handlers : Set UInt64} {base stop : UInt64}

/-- The words hold the range, or a reader that loads them now answers false. -/
def Whole (base stop : UInt64) (m : Mem) (start : UInt64) : Prop :=
  start = 0 ∨ start = base ∧ m.stop = stop

/-- What a thread may rely on. -/
def Pc.Assumes (handlers : Set UInt64) (base stop : UInt64) (m : Mem) : Pc → Prop
  | .idle | .ask_start _ => True
  | .load_start handler | .walk handler => handler ∈ handlers
  | .store_end base' stop' => base' = base ∧ stop' = stop
  | .store_start base' => base' = base ∧ m.stop = stop
  | .ask_end _ start => Whole base stop m start

variable [DecidableEq T]

structure Inv (handlers : Set UInt64) (base stop : UInt64) (tr : List (T × Event))
    (c : Config T Mem Pc) : Prop where
  whole : Whole base stop c.mem c.mem.start
  assumes : ∀ t, (c.loc t).Assumes handlers base stop c.mem
  answers : ∀ t address, (t, .answered address true) ∈ tr → base ≤ address ∧ address < stop

theorem Whole.stop_kept {m : Mem} {start : UInt64} (h : Whole base stop m start) (s : UInt64) :
    Whole base stop ⟨s, stop⟩ start := h.imp_right fun ⟨hstart, _⟩ => ⟨hstart, rfl⟩

/-- Nothing that another thread relies on is taken back. -/
theorem Pc.Assumes.stop_stored {m : Mem} {pc : Pc} (h : pc.Assumes handlers base stop m)
    (s : UInt64) : pc.Assumes handlers base stop ⟨s, stop⟩ := by
  cases pc with
  | store_start base' => exact ⟨h.1, rfl⟩
  | ask_end address start => exact Whole.stop_kept h s
  | idle | ask_start address | load_start handler | walk handler | store_end base' stop' =>
    exact h

section Step

variable {tr : List (T × Event)} {c : Config T Mem Pc} (h : Inv handlers base stop tr c)
include h

/-- The invariant after a step, from what the step leaves. -/
theorem Inv.after {o : Outcome Mem Pc Event} (t : T) (hwhole : Whole base stop o.mem o.mem.start)
    (hself : o.loc.Assumes handlers base stop o.mem)
    (hothers : ∀ pc : Pc, pc.Assumes handlers base stop c.mem →
      pc.Assumes handlers base stop o.mem)
    (hanswers : ∀ address, .answered address true ∈ o.events → base ≤ address ∧ address < stop) :
    Inv handlers base stop (tr ++ o.events.map (Prod.mk t)) (c.after t o) where
  whole := hwhole
  assumes := Config.forall_after hself fun u _ => hothers _ (h.assumes u)
  answers u address hmem := by
    rcases List.mem_append.mp hmem with hold | hnew
    · exact h.answers u address hold
    · obtain ⟨e, he, heq⟩ := List.mem_map.mp hnew
      cases heq
      exact hanswers address he

theorem Inv.step (t : T) {a : Choice} (ha : a.About handlers base stop) :
    Inv handlers base stop (tr ++ (program T t a c.mem (c.loc t)).events.map (Prod.mk t))
      (c.after t (program T t a c.mem (c.loc t))) := by
  have hassumes := h.assumes t
  unfold program
  cases hloc : c.loc t with
  | idle =>
    obtain ⟨request, memory⟩ := a
    cases request with
    | register handler =>
      refine h.after t h.whole ?_ (fun _ hpc => hpc) nofun
      dsimp only
      split
      · trivial
      · exact ha.registered handler rfl
    | ask address => exact h.after t h.whole trivial (fun _ hpc => hpc) nofun
  | load_start handler =>
    rw [hloc] at hassumes
    refine h.after t h.whole ?_ (fun _ hpc => hpc) nofun
    dsimp only
    split
    · trivial
    · exact hassumes
  | walk handler =>
    rw [hloc] at hassumes
    dsimp only
    rcases ha.found handler hassumes with hfind | hfind
    · rw [hfind]
      exact h.after t h.whole trivial (fun _ hpc => hpc) nofun
    · rw [hfind]
      exact h.after t h.whole ⟨rfl, rfl⟩ (fun _ hpc => hpc) nofun
  | store_end base' stop' =>
    rw [hloc] at hassumes
    obtain ⟨rfl, rfl⟩ := hassumes
    exact h.after t (h.whole.stop_kept _) ⟨rfl, rfl⟩ (fun _ hpc => hpc.stop_stored _) nofun
  | store_start base' =>
    rw [hloc] at hassumes
    obtain ⟨rfl, hstop⟩ := hassumes
    refine h.after t (Or.inr ⟨rfl, hstop⟩) trivial (fun pc hpc => ?_) nofun
    have hkept := hpc.stop_stored base'
    rwa [← hstop] at hkept
  | ask_start address => exact h.after t h.whole h.whole (fun _ hpc => hpc) nofun
  | ask_end address start =>
    rw [hloc] at hassumes
    refine h.after t h.whole trivial (fun _ hpc => hpc) fun address' hmem => ?_
    have heq := List.mem_singleton.mp hmem
    injection heq with haddress hfound
    obtain ⟨hne, hle, hlt⟩ := of_decide_eq_true hfound.symm
    subst haddress
    rcases hassumes with hzero | ⟨rfl, hstop⟩
    · exact absurd hzero hne
    · rw [hstop] at hlt
      exact ⟨hle, hlt⟩

end Step

omit [DecidableEq T] in
theorem inv_start : Inv handlers base stop [] (start T) := ⟨Or.inl rfl, fun _ => trivial, nofun⟩

theorem inv_run {s : List (T × Choice)} (hs : ∀ x ∈ s, x.2.About handlers base stop) :
    Inv handlers base stop (trace (program T) (start T) s) (run (program T) (start T) s) :=
  Threads.run_induct_choices (program T) (Q := fun x => x.2.About handlers base stop) inv_start
    (fun _ _ x hx h => h.step x.1 hx) hs

/-! ### Once an image is registered -/

/-- The image is registered, and thread `t` has answered what the range says ever since. -/
structure Settled (base stop : UInt64) (t : T) (tr : List (T × Event)) (c : Config T Mem Pc) :
    Prop where
  start : c.mem.start = base
  asks : ∀ address start, c.loc t = .ask_end address start → start = base
  answers : ∀ address found, (t, .answered address found) ∈ tr →
    found = decide (base ≤ address ∧ address < stop)

section Settled

variable {t : T} {tr tr' : List (T × Event)} {c : Config T Mem Pc}

/-- A step that answers nothing. -/
theorem Settled.quiet (h : Settled base stop t tr c) (u : T) {m : Mem} {pc : Pc}
    (hstart : m.start = base)
    (hasks : ∀ address start, pc = .ask_end address start → start = base) :
    Settled base stop t tr (c.after u (⟨m, pc, []⟩ : Outcome Mem Pc Event)) where
  start := hstart
  asks := by
    by_cases hut : t = u
    · rw [hut, Config.after_loc_self]
      exact hasks
    · rw [Config.after_loc_of_ne _ _ hut]
      exact h.asks
  answers := h.answers

theorem Settled.step (hne : base ≠ 0) (h : Settled base stop t tr c)
    (hinv : Inv handlers base stop tr' c) (u : T) (a : Choice) :
    Settled base stop t (tr ++ (program T u a c.mem (c.loc u)).events.map (Prod.mk u))
      (c.after u (program T u a c.mem (c.loc u))) := by
  have hassumes := hinv.assumes u
  have hstop : c.mem.stop = stop := by
    rcases hinv.whole with hzero | ⟨-, hstop⟩
    · exact absurd (h.start.symm.trans hzero) hne
    · exact hstop
  unfold program
  cases hloc : c.loc u with
  | idle =>
    obtain ⟨request, memory⟩ := a
    cases request with
    | register handler =>
      rw [List.map_nil, List.append_nil]
      refine h.quiet u h.start fun address start heq => ?_
      split at heq <;> cases heq
    | ask address =>
      rw [List.map_nil, List.append_nil]
      exact h.quiet u h.start nofun
  | load_start handler =>
    rw [List.map_nil, List.append_nil]
    refine h.quiet u h.start fun address start heq => ?_
    split at heq <;> cases heq
  | walk handler =>
    dsimp only
    cases find_image a.memory handler with
    | none =>
      rw [List.map_nil, List.append_nil]
      exact h.quiet u h.start nofun
    | some range =>
      rw [List.map_nil, List.append_nil]
      exact h.quiet u h.start nofun
  | store_end base' stop' =>
    rw [List.map_nil, List.append_nil]
    exact h.quiet u h.start nofun
  | store_start base' =>
    rw [hloc] at hassumes
    rw [List.map_nil, List.append_nil]
    exact h.quiet u hassumes.1 nofun
  | ask_start address =>
    rw [List.map_nil, List.append_nil]
    refine h.quiet u h.start fun address' start heq => ?_
    cases heq
    exact h.start
  | ask_end address start =>
    refine ⟨h.start, ?_, fun address' found hmem => ?_⟩
    · by_cases hut : t = u
      · rw [hut, Config.after_loc_self]
        exact nofun
      · rw [Config.after_loc_of_ne _ _ hut]
        exact h.asks
    · rcases List.mem_append.mp hmem with hold | hnew
      · exact h.answers address' found hold
      · have heq := List.mem_singleton.mp hnew
        cases heq
        rw [h.asks address start hloc, hstop]
        simp only [ne_eq, hne, not_false_eq_true, true_and]

end Settled

/-- **Reflex's image.** Threads register handlers of one image and ask about addresses, in any
interleaving, and the memory that the walks read may change as long as they find this image or
none. No address outside of it is ever taken for one of Reflex's; and once the image is registered,
what a thread is told about an address is whether it lies in the image. -/
theorem reflex_image_is_whole (hne : base ≠ 0) (s s' : List (T × Choice))
    (hs : ∀ x ∈ s ++ s', x.2.About handlers base stop) :
    (∀ t address, (t, .answered address true) ∈ trace (program T) (start T) (s ++ s') →
        base ≤ address ∧ address < stop)
      ∧ ((run (program T) (start T) s).mem.start ≠ 0 → ∀ t,
        (run (program T) (start T) s).loc t = .idle → ∀ address found,
          (t, .answered address found) ∈ trace (program T) (run (program T) (start T) s) s' →
            found = decide (base ≤ address ∧ address < stop)) := by
  refine ⟨(inv_run hs).answers, fun hregistered t hidle => ?_⟩
  have hinv := inv_run fun x hx => hs x (List.mem_append_left s' hx)
  have hstart : (run (program T) (start T) s).mem.start = base :=
    hinv.whole.elim (fun hzero => absurd hzero hregistered) And.left
  have hboth := Threads.run_induct_choices (program T) (s := s')
    (I := fun tr d => Settled base stop t tr d
      ∧ Inv handlers base stop (trace (program T) (start T) s ++ tr) d)
    (Q := fun x => x.2.About handlers base stop) (c := run (program T) (start T) s)
    ⟨⟨hstart, fun _ _ h => (by rw [hidle] at h; cases h), nofun⟩, by rwa [List.append_nil]⟩
    (fun tr d x hx hd => ⟨hd.1.step hne hd.2 x.1 x.2, by
      rw [← List.append_assoc]
      exact hd.2.step x.1 hx⟩) fun x hx => hs x (List.mem_append_right s hx)
  exact hboth.1.answers

end OneImage

/-! ### Examples -/

/-- Images of `size` bytes at these bases, with the PE header at 0x40. -/
def images (ranges : List (UInt64 × UInt8)) : Memory := fun address =>
  ranges.findSome? fun (base, pages) =>
    let offset := (address - base).toNat
    if 0x1000 ≤ offset then none
    else
      some (([(0, 0x4d), (1, 0x5a), (0x3c, 0x40), (0x40, 0x50), (0x41, 0x45),
        (0x91, 0x10 * pages)] : List (ℕ × UInt8)).lookup offset |>.getD 0)

/-- The threads of the example. -/
inductive Caller
  | first
  | second
  | third
  deriving DecidableEq

/-- Steps for these requests while there is one image. -/
def of_one_image (s : List (Caller × Request)) : List (Caller × Choice) :=
  s.map fun (t, request) => (t, ⟨request, images [(0x400000, 2)]⟩)

/-- The handler that a request registers. -/
def Request.handler : Request → Option UInt64
  | .register handler => some handler
  | .ask _ => none

theorem find_one_image :
    find_image (images [(0x400000, 2)]) 0x400010 = some (0x400000, 0x402000)
      ∧ find_image (images [(0x400000, 2)]) 0x400020 = some (0x400000, 0x402000) := by
  decide +kernel

theorem of_one_image_about (s : List (Caller × Request))
    (hs : (s.all fun x => x.2.handler.all [0x400010, 0x400020].contains) = true) :
    ∀ x ∈ of_one_image s, x.2.About {0x400010, 0x400020} 0x400000 0x402000 := by
  intro x hx
  obtain ⟨⟨t, request⟩, hmem, rfl⟩ := List.mem_map.mp hx
  refine ⟨fun handler heq => ?_, fun handler hhandler => Or.inr ?_⟩
  · have hall := List.all_eq_true.mp hs _ hmem
    dsimp only at heq
    rw [heq] at hall
    simpa [Request.handler] using hall
  · rcases hhandler with rfl | rfl
    · exact find_one_image.1
    · exact find_one_image.2

/-- The first thread is about to store where the image starts when the second one begins to register
another handler of the image and the third asks about it; the third goes on after the store. -/
def asked_early : List (Caller × Request) :=
  List.flatten [Threads.steps .first 4 (.register 0x400010),
    Threads.steps .second 2 (.register 0x400020), Threads.steps .third 2 (.ask 0x401123),
    Threads.steps .first 1 (.register 0x400010), Threads.steps .third 1 (.ask 0x401123)]

/-- The third thread asks again while the second stores the range once more, and about the address
behind the image. -/
def asked_late : List (Caller × Request) :=
  List.flatten [Threads.steps .third 2 (.ask 0x401123),
    Threads.steps .second 3 (.register 0x400020), Threads.steps .third 1 (.ask 0x401123),
    Threads.steps .third 3 (.ask 0x402000)]

theorem reflex_image_is_whole_of_three :
    trace (program Caller) (start Caller) (of_one_image asked_early ++ of_one_image asked_late)
        = [(.third, .answered 0x401123 false), (.third, .answered 0x401123 true),
          (.third, .answered 0x402000 false)]
      ∧ (.third, .answered 0x402000 true) ∉ trace (program Caller) (start Caller)
        (of_one_image asked_early ++ of_one_image asked_late)
      ∧ (.third, .answered 0x401123 false) ∉ trace (program Caller)
        (run (program Caller) (start Caller) (of_one_image asked_early))
        (of_one_image asked_late) := by
  have habout : ∀ x ∈ of_one_image asked_early ++ of_one_image asked_late,
      x.2.About {0x400010, 0x400020} 0x400000 0x402000 := fun x hx =>
    (List.mem_append.mp hx).elim (of_one_image_about asked_early (by decide +kernel) x)
      (of_one_image_about asked_late (by decide +kernel) x)
  obtain ⟨houtside, hregistered⟩ := reflex_image_is_whole (by decide) _ _ habout
  refine ⟨by decide +kernel, fun hmem => ?_, fun hmem => ?_⟩
  · exact absurd (houtside .third _ hmem) (by decide)
  · exact absurd (hregistered (by decide +kernel) .third rfl _ _ hmem) (by decide)

/-- Two images, registered at the same time: thread 0 has found the first one and stores where it
starts after thread 1 has stored the range of the second. -/
theorem mixed_ranges :
    let a : Choice := ⟨.register 0x400010, images [(0x400000, 2), (0x800000, 3)]⟩
    let b : Choice := ⟨.register 0x800010, images [(0x400000, 2), (0x800000, 3)]⟩
    let c := run (program (Fin 2)) (start (Fin 2))
      (Threads.steps 0 4 a ++ Threads.steps 1 5 b ++ Threads.steps 0 1 a)
    c.mem.start = 0x400000 ∧ c.mem.stop = 0x803000 := by
  decide +kernel

end Linuwux.ReflexImage
