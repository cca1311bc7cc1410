/-
`CallerCache.lean` -- who calls: `classify_caller` of `runtime/src/cpuid.rs` and the cache in
front of it.

A caller is known by the path of the mapping it runs in, and where that says nothing, by the
image with a known export name that lies at or below it. The first answer is the same
for the whole mapping, the second is one for each address; `CALLER_CACHE` keeps both for the
whole mapping. [`transparent_iff`] says when that makes no difference.

The functions here are the calls of one thread after the other. `CallerCacheThreads.lean` has
the loads and stores of `lookup` and `insert` one by one, for any number of threads.
-/
import Linuwux.Maps
import Linuwux.Int2e

set_option autoImplicit false

namespace Linuwux.Callers

open ProcMem (Memory checked_add read_memory)
open Int2e (checked_sub)

def CALLER_CACHE_CAP : ℕ := 64

inductive CallerKind where
  | Ordinary
  | Reflex64
  | Artifact
  deriving DecidableEq, Repr

/-- `kind as u32`. -/
def CallerKind.raw : CallerKind → UInt32
  | Ordinary => 0
  | Reflex64 => 1
  | Artifact => 2

def CallerKind.from_raw (value : UInt32) : CallerKind :=
  if value = 1 then Reflex64 else if value = 2 then Artifact else Ordinary

@[simp] theorem CallerKind.from_raw_raw (kind : CallerKind) : from_raw kind.raw = kind := by
  cases kind <;> rfl

/-! ## The search for an image -/

def little_endian_u16 (bytes : List UInt8) : Option UInt16 :=
  if 2 ≤ bytes.length then some (.ofNat (Scans.from_le_bytes (bytes.take 2))) else none

def little_endian_u32 (bytes : List UInt8) : Option UInt32 :=
  if 4 ≤ bytes.length then some (.ofNat (Scans.from_le_bytes (bytes.take 4))) else none

/-- `b"reflex64.dll"`. -/
def REFLEX64_DLL : List UInt8 := LibC.b_str "reflex64.dll"

/-- `b"artifact.dll"`. -/
def ARTIFACT_DLL : List UInt8 := LibC.b_str "artifact.dll"

/-- `pe_export_name`: `none` is each of its `return false`. -/
def pe_export_name (m : Memory) (base : UInt64) (expected : List UInt8) : Bool :=
  Option.isSome do
    guard (expected.length < 32)
    let dos ← read_memory m base 64
    guard (dos.take 2 = [0x4d, 0x5a])
    let header_offset ← little_endian_u32 (dos.drop 0x3c)
    let header_address ← checked_add base header_offset.toNat
    let header ← read_memory m header_address 160
    guard (header.take 4 = [0x50, 0x45, 0, 0])
    guard (little_endian_u16 (header.drop 24) = some 0x20b)
    let export_rva ← little_endian_u32 (header.drop 136)
    let export_address ← checked_add base export_rva.toNat
    let exports ← read_memory m export_address 16
    let name_rva ← little_endian_u32 (exports.drop 12)
    let name_address ← checked_add base name_rva.toNat
    let name ← read_memory m name_address (expected.length + 1)
    guard (name.take expected.length = expected)
    guard (name[expected.length]? = some 0)

def ALLOCATION_GRANULARITY : ℕ := 0x10000

def SEARCH_DISTANCE : ℕ := 0x1000000

/-- The loop of `pe_image_named` over the offsets that are left. -/
def search (m : Memory) (aligned : UInt64) (expected : List UInt8) : List ℕ → Bool
  | [] => false
  | offset :: rest =>
    match checked_sub aligned offset with
    | none => false
    | some base => pe_export_name m base expected || search m aligned expected rest

def pe_image_named (m : Memory) (address : UInt64) (expected : List UInt8) : Bool :=
  search m (address &&& ~~~(.ofNat ALLOCATION_GRANULARITY - 1)) expected
    ((List.range (SEARCH_DISTANCE / ALLOCATION_GRANULARITY + 1)).map
      fun i => i * ALLOCATION_GRANULARITY)

/-! ## The mapping of an address -/

/-- `<[u8]>::strip_suffix`, with `unwrap_or` the whole. -/
def strip_suffix (text suffix : List UInt8) : List UInt8 :=
  if suffix <:+ text then text.take (text.length - suffix.length) else text

def path_kind (pathname : List UInt8) : CallerKind :=
  let pathname := strip_suffix pathname (LibC.b_str " (deleted)")
  let filename := (pathname.splitOn 0x2f).getLastD []
  if filename = LibC.b_str "reflex64.dll" ∨ filename = LibC.b_str "reflex64.dll.so" then .Reflex64
  else if filename = LibC.b_str "artifact.dll" ∨ filename = LibC.b_str "artifact.dll.so" then
    .Artifact
  else .Ordinary

def caller_mapping (line : List UInt8) (address : UInt64) :
    Option (UInt64 × UInt64 × CallerKind) :=
  (Maps.parse line).bind fun mapping =>
    if mapping.start ≤ address ∧ address < mapping.stop then
      some (mapping.start, mapping.stop, path_kind mapping.path)
    else none

/-- What `find_line` leaves in `result`: the first line with the address in its range. -/
def find_mapping (maps : Option (List UInt8)) (address : UInt64) :
    Option (UInt64 × UInt64 × CallerKind) :=
  maps.bind fun text => (Maps.lines text).findSome? fun line => caller_mapping line address

/-! ## The classification -/

/-- What `classify_caller` reads besides the cache: `/proc/self/maps`, the memory and
`PROTOCOL_ESTABLISHED`. -/
structure Process where
  maps : Option (List UInt8)
  memory : Memory
  protocol_established : Bool

/-- The `match` of `classify_caller`. -/
def kind_of (p : Process) (address : UInt64) (mapped_kind : CallerKind) : CallerKind :=
  let still_searching := decide (mapped_kind = .Ordinary) && !p.protocol_established
  match mapped_kind with
  | .Ordinary =>
    if still_searching && pe_image_named p.memory address REFLEX64_DLL then .Reflex64
    else if still_searching && pe_image_named p.memory address ARTIFACT_DLL then .Artifact
    else .Ordinary
  | kind => kind

/-- `classify_caller` without the cache. -/
def classify_uncached (p : Process) (address : UInt64) : Option CallerKind :=
  (find_mapping p.maps address).map fun (_, _, mapped_kind) => kind_of p address mapped_kind

/-! ## The cache -/

structure CallerCache where
  lock : Bool
  next : UInt32
  sequences : ℕ → UInt32
  starts : ℕ → UInt64
  ends : ℕ → UInt64
  kinds : ℕ → UInt32

def CallerCache.new : CallerCache :=
  ⟨false, 0, fun _ => 0, fun _ => 0, fun _ => 0, fun _ => CallerKind.Ordinary.raw⟩

/-- One turn of the loop of `lookup`. The second load of the sequence gives what the first gave,
as nobody else is there. -/
def CallerCache.entry (c : CallerCache) (address : UInt64) (index : ℕ) : Option CallerKind :=
  if c.sequences index &&& 1 ≠ 0 then none
  else if c.starts index ≤ address ∧ address < c.ends index then
    some (.from_raw (c.kinds index))
  else none

def CallerCache.lookup (c : CallerCache) (address : UInt64) : Option CallerKind :=
  (List.range CALLER_CACHE_CAP).findSome? (c.entry address)

def CallerCache.insert (c : CallerCache) (start stop : UInt64) (kind : CallerKind) :
    CallerCache :=
  if c.lock then c
  else
    let index := c.next.toNat % CALLER_CACHE_CAP
    { c with
      next := .ofNat (index + 1)
      sequences := Function.update c.sequences index (c.sequences index + 2)
      starts := Function.update c.starts index start
      ends := Function.update c.ends index stop
      kinds := Function.update c.kinds index kind.raw }

def classify_caller (p : Process) (c : CallerCache) (address : UInt64) :
    Option CallerKind × CallerCache :=
  match c.lookup address with
  | some kind => (some kind, c)
  | none =>
    match find_mapping p.maps address with
    | none => (none, c)
    | some (start, stop, mapped_kind) =>
      let kind := kind_of p address mapped_kind
      (some kind, c.insert start stop kind)

/-- The answers of one call after the other. -/
def classify_callers (p : Process) : CallerCache → List UInt64 → List (Option CallerKind)
  | _, [] => []
  | c, address :: rest =>
    (classify_caller p c address).1 :: classify_callers p (classify_caller p c address).2 rest

/-! ## What the answers depend on -/

/-- `b` is in the mapping that is found for `a`. -/
def SameMapping (p : Process) (a b : UInt64) : Prop :=
  ∃ start stop kind, find_mapping p.maps a = some (start, stop, kind) ∧ start ≤ b ∧ b < stop

/-- The mapping of `a` has a path of this kind. -/
def PathIs (p : Process) (kind : CallerKind) (a : UInt64) : Prop :=
  ∃ start stop, find_mapping p.maps a = some (start, stop, kind)

/-- The path says nothing, and the images at and below `a` are looked at. -/
def Searched (p : Process) (a : UInt64) : Prop :=
  PathIs p .Ordinary a ∧ p.protocol_established = false

def IsReflex64 (p : Process) (a : UInt64) : Prop :=
  PathIs p .Reflex64 a ∨ Searched p a ∧ pe_image_named p.memory a REFLEX64_DLL

def IsArtifact (p : Process) (a : UInt64) : Prop :=
  PathIs p .Artifact a ∨ Searched p a ∧ ¬pe_image_named p.memory a REFLEX64_DLL
    ∧ pe_image_named p.memory a ARTIFACT_DLL

/-- The addresses of one mapping are all callers of one kind. -/
def Uniform (p : Process) : Prop :=
  ∀ a b, SameMapping p a b → (IsReflex64 p a ↔ IsReflex64 p b) ∧ (IsArtifact p a ↔ IsArtifact p b)

/-- A line that covers `a` covers `b` too, where `b` is in the same mapping. -/
theorem find_mapping_isSome {p : Process} {a b : UInt64} (h : SameMapping p a b) :
    (find_mapping p.maps b).isSome := by
  obtain ⟨start, stop, kind, h, hle, hlt⟩ := h
  obtain ⟨text, htext, h⟩ := Option.bind_eq_some_iff.mp h
  obtain ⟨line, hline, h⟩ := List.exists_of_findSome?_eq_some h
  obtain ⟨mapping, hparse, h⟩ := Option.bind_eq_some_iff.mp h
  rw [find_mapping, htext, Option.bind_some, List.findSome?_isSome_iff]
  refine ⟨line, hline, ?_⟩
  split at h
  · cases h
    rw [caller_mapping, hparse, Option.bind_some, if_pos ⟨hle, hlt⟩]
    rfl
  · cases h

theorem classify_uncached_eq {p : Process} {a start stop : UInt64} {mapped_kind : CallerKind}
    (h : find_mapping p.maps a = some (start, stop, mapped_kind)) :
    classify_uncached p a = some (kind_of p a mapped_kind) := by
  rw [classify_uncached, h, Option.map_some]

theorem pathIs_iff {p : Process} {a start stop : UInt64} {kind mapped_kind : CallerKind}
    (h : find_mapping p.maps a = some (start, stop, mapped_kind)) :
    PathIs p kind a ↔ mapped_kind = kind := by
  constructor
  · rintro ⟨_, _, h'⟩
    rw [h] at h'
    cases h'
    rfl
  · rintro rfl
    exact ⟨start, stop, h⟩

/-- The first answer of the search counts, and none where there is no search. -/
theorem kind_of_ordinary (p : Process) (a : UInt64) :
    kind_of p a .Ordinary =
      if p.protocol_established then .Ordinary
      else if pe_image_named p.memory a REFLEX64_DLL then .Reflex64
      else if pe_image_named p.memory a ARTIFACT_DLL then .Artifact
      else .Ordinary := by
  unfold kind_of
  cases p.protocol_established <;> simp

theorem kind_of_eq_reflex64 {p : Process} {a start stop : UInt64} {mapped_kind : CallerKind}
    (h : find_mapping p.maps a = some (start, stop, mapped_kind)) :
    kind_of p a mapped_kind = .Reflex64 ↔ IsReflex64 p a := by
  rw [IsReflex64, Searched, pathIs_iff h, pathIs_iff h]
  cases mapped_kind with
  | Ordinary =>
    rw [kind_of_ordinary]
    split_ifs <;> simp_all
  | Reflex64 => simp [kind_of]
  | Artifact => simp [kind_of]

theorem kind_of_eq_artifact {p : Process} {a start stop : UInt64} {mapped_kind : CallerKind}
    (h : find_mapping p.maps a = some (start, stop, mapped_kind)) :
    kind_of p a mapped_kind = .Artifact ↔ IsArtifact p a := by
  rw [IsArtifact, Searched, pathIs_iff h, pathIs_iff h]
  cases mapped_kind with
  | Ordinary =>
    rw [kind_of_ordinary]
    split_ifs <;> simp_all
  | Reflex64 => simp [kind_of]
  | Artifact => simp [kind_of]

/-- There are three kinds, so two of them tell which it is. -/
theorem CallerKind.ext_iff {k k' : CallerKind} :
    k = k' ↔ (k = .Reflex64 ↔ k' = .Reflex64) ∧ (k = .Artifact ↔ k' = .Artifact) := by
  cases k <;> cases k' <;> decide

/-- Two addresses of one mapping are callers of the same kind where the answers say so. -/
theorem same_kind_iff {p : Process} {a b : UInt64} (h : SameMapping p a b) :
    classify_uncached p a = classify_uncached p b
      ↔ (IsReflex64 p a ↔ IsReflex64 p b) ∧ (IsArtifact p a ↔ IsArtifact p b) := by
  obtain ⟨⟨_, _, kb⟩, hb⟩ := Option.isSome_iff_exists.mp (find_mapping_isSome h)
  obtain ⟨start, stop, ka, ha, -, -⟩ := h
  rw [classify_uncached_eq ha, classify_uncached_eq hb, Option.some.injEq, CallerKind.ext_iff,
    kind_of_eq_reflex64 ha, kind_of_eq_reflex64 hb, kind_of_eq_artifact ha,
    kind_of_eq_artifact hb]

/-! ## What the cache holds -/

/-- What an entry says of an address is what the address would be classified as. -/
def Sound (p : Process) (c : CallerCache) : Prop :=
  ∀ index address kind, c.entry address index = some kind →
    classify_uncached p address = some kind

theorem entry_eq_some {c : CallerCache} {address : UInt64} {index : ℕ} {kind : CallerKind} :
    c.entry address index = some kind
      ↔ c.sequences index &&& 1 = 0 ∧ (c.starts index ≤ address ∧ address < c.ends index)
        ∧ CallerKind.from_raw (c.kinds index) = kind := by
  unfold CallerCache.entry
  split_ifs with hodd hin
  · exact ⟨nofun, fun h => absurd h.1 hodd⟩
  · rw [Option.some.injEq]
    exact ⟨fun h => ⟨not_not.mp hodd, hin, h⟩, fun h => h.2.2⟩
  · exact ⟨nofun, fun h => absurd h.2.1 hin⟩

/-- The empty ranges of a new cache have no address in them. -/
theorem entry_new (address : UInt64) (index : ℕ) : CallerCache.new.entry address index = none := by
  cases h : CallerCache.new.entry address index with
  | none => rfl
  | some kind =>
    obtain ⟨-, ⟨-, hlt⟩, -⟩ := entry_eq_some.mp h
    exact absurd hlt (Nat.not_lt_zero _)

theorem sound_new (p : Process) : Sound p .new := by
  intro index address kind h
  rw [entry_new] at h
  cases h

theorem Sound.lookup {p : Process} {c : CallerCache} (hc : Sound p c) {address : UInt64}
    {kind : CallerKind} (h : c.lookup address = some kind) :
    classify_uncached p address = some kind := by
  obtain ⟨index, -, h⟩ := List.exists_of_findSome?_eq_some h
  exact hc index address kind h

/-- An insert changes one entry. -/
theorem entry_insert {c : CallerCache} {start stop address : UInt64} {kind k : CallerKind}
    {index : ℕ} (h : (c.insert start stop kind).entry address index = some k) :
    c.entry address index = some k ∨ k = kind ∧ start ≤ address ∧ address < stop := by
  unfold CallerCache.insert at h
  split at h
  · exact Or.inl h
  · obtain ⟨heven, hin, hk⟩ := entry_eq_some.mp h
    dsimp only at heven hin hk
    by_cases hi : index = c.next.toNat % CALLER_CACHE_CAP
    · rw [hi, Function.update_self, Function.update_self] at hin
      rw [hi, Function.update_self, CallerKind.from_raw_raw] at hk
      exact Or.inr ⟨hk.symm, hin⟩
    · rw [Function.update_of_ne hi] at heven hk
      rw [Function.update_of_ne hi, Function.update_of_ne hi] at hin
      exact Or.inl (entry_eq_some.mpr ⟨heven, hin, hk⟩)

/-- **One call.** Where a mapping's addresses are of one kind, a call answers as it would without
the cache and leaves a cache of which that stays true. -/
theorem classify_caller_spec {p : Process} {c : CallerCache} (hu : Uniform p) (hc : Sound p c)
    (address : UInt64) :
    (classify_caller p c address).1 = classify_uncached p address
      ∧ Sound p (classify_caller p c address).2 := by
  unfold classify_caller
  cases hl : c.lookup address with
  | some kind => exact ⟨(hc.lookup hl).symm, hc⟩
  | none =>
    cases hm : find_mapping p.maps address with
    | none =>
      rw [classify_uncached, hm]
      exact ⟨rfl, hc⟩
    | some m =>
      obtain ⟨start, stop, mapped_kind⟩ := m
      have hkind := classify_uncached_eq hm
      refine ⟨hkind.symm, fun index b k hk => ?_⟩
      obtain hold | ⟨rfl, hin⟩ := entry_insert hk
      · exact hc index b k hold
      · have hsame : SameMapping p address b := ⟨start, stop, mapped_kind, hm, hin⟩
        rw [← (same_kind_iff hsame).mpr (hu address b hsame)]
        exact hkind

theorem classify_callers_of_uniform {p : Process} (hu : Uniform p) {c : CallerCache}
    (hc : Sound p c) (addresses : List UInt64) :
    classify_callers p c addresses = addresses.map (classify_uncached p) := by
  induction addresses generalizing c with
  | nil => rfl
  | cons address rest ih =>
    obtain ⟨hanswer, hnext⟩ := classify_caller_spec hu hc address
    rw [classify_callers, List.map_cons, hanswer, ih hnext]

/-- After one insert into a new cache every address of the range is found. -/
theorem lookup_insert_new {start stop address : UInt64} {kind : CallerKind}
    (hle : start ≤ address) (hlt : address < stop) :
    (CallerCache.new.insert start stop kind).lookup address = some kind := by
  have hfirst : (CallerCache.new.insert start stop kind).entry address 0 = some kind :=
    entry_eq_some.mpr
      ⟨(by decide : (0 + 2 : UInt32) &&& 1 = 0), ⟨hle, hlt⟩, CallerKind.from_raw_raw kind⟩
  have hsome : ((CallerCache.new.insert start stop kind).lookup address).isSome := by
    rw [CallerCache.lookup, List.findSome?_isSome_iff]
    refine ⟨0, List.mem_range.mpr (by decide), ?_⟩
    rw [hfirst]
    rfl
  obtain ⟨k, hk⟩ := Option.isSome_iff_exists.mp hsome
  obtain ⟨index, -, he⟩ := List.exists_of_findSome?_eq_some hk
  obtain hold | ⟨rfl, -⟩ := entry_insert he
  · rw [entry_new] at hold
    cases hold
  · exact hk

/-- The second of two callers in one mapping gets the answer of the first. -/
theorem classify_two {p : Process} {a b : UInt64} (h : SameMapping p a b) :
    classify_callers p .new [a, b] = [classify_uncached p a, classify_uncached p a] := by
  obtain ⟨start, stop, kind, hm, hle, hlt⟩ := h
  have hmiss : CallerCache.new.lookup a = none :=
    List.findSome?_eq_none_iff.mpr fun index _ => entry_new a index
  have hone : classify_caller p .new a
      = (some (kind_of p a kind), CallerCache.new.insert start stop (kind_of p a kind)) := by
    unfold classify_caller
    rw [hmiss, hm]
  have htwo : classify_caller p (CallerCache.new.insert start stop (kind_of p a kind)) b
      = (some (kind_of p a kind), CallerCache.new.insert start stop (kind_of p a kind)) := by
    unfold classify_caller
    rw [lookup_insert_new hle hlt]
  rw [classify_callers, classify_callers, classify_callers, hone, htwo, classify_uncached_eq hm]

/-- **Transparency.** Whatever is called from an empty cache, every call answers as it would
without the cache, exactly if no mapping has callers of two kinds. -/
theorem transparent_iff (p : Process) :
    (∀ addresses, classify_callers p .new addresses = addresses.map (classify_uncached p))
      ↔ Uniform p := by
  refine ⟨fun h a b hsame => ?_, fun hu addresses =>
    classify_callers_of_uniform hu (sound_new p) addresses⟩
  have htwo := h [a, b]
  rw [classify_two hsame, List.map_cons, List.map_cons] at htwo
  rw [← same_kind_iff hsame]
  exact (List.cons.inj (List.cons.inj htwo).2).1

/-- An image named `reflex64.dll`, in pieces. -/
def late_image : List (ℕ × List UInt8) :=
  [(0x20000, [0x4d, 0x5a]), (0x2003c, [0x40]), (0x20040, [0x50, 0x45]), (0x20058, [0x0b, 0x02]),
    (0x200c8, [0x00, 0x01]), (0x2010c, [0x00, 0x02]), (0x20200, REFLEX64_DLL)]

/-- One mapping without a path, zeros but for the image in its second half. -/
def late_reflex : Process where
  maps := some (LibC.b_str "00010000-00030000 rwxp 00000000 00:00 0\n")
  memory := fun a =>
    if 0x10000 ≤ a ∧ a < 0x30000 then
      match late_image.find? fun (start, piece) =>
          start ≤ a.toNat ∧ a.toNat < start + piece.length with
      | some (start, piece) => piece[a.toNat - start]?
      | none => some 0
    else none
  protocol_established := false

/-- The first call is from below the image and the second from its first page, which then is an
ordinary caller, too. -/
theorem answer_of_another_address :
    ¬∀ p addresses, classify_callers p .new addresses = addresses.map (classify_uncached p) := by
  intro h
  have htwo := h late_reflex [0x10000, 0x20000]
  revert htwo
  decide +kernel

/-! ## Disjoint mappings

What the kernel writes has no address in two lines. -/

def Disjoint (p : Process) : Prop :=
  ∀ text, p.maps = some text → ∀ line ∈ Maps.lines text, ∀ line' ∈ Maps.lines text, ∀ a m m',
    caller_mapping line a = some m → caller_mapping line' a = some m' → m = m'

theorem caller_mapping_eq_some {line : List UInt8} {a start stop : UInt64} {kind : CallerKind}
    (h : caller_mapping line a = some (start, stop, kind)) {b : UInt64} (hle : start ≤ b)
    (hlt : b < stop) : caller_mapping line b = some (start, stop, kind) := by
  obtain ⟨mapping, hparse, h⟩ := Option.bind_eq_some_iff.mp h
  split at h
  · cases h
    rw [caller_mapping, hparse, Option.bind_some, if_pos ⟨hle, hlt⟩]
  · cases h

/-- Then the addresses of a mapping all have that mapping. -/
theorem Disjoint.find_mapping_eq {p : Process} (hd : Disjoint p) {a b start stop : UInt64}
    {kind : CallerKind} (h : find_mapping p.maps a = some (start, stop, kind)) (hle : start ≤ b)
    (hlt : b < stop) : find_mapping p.maps b = some (start, stop, kind) := by
  have hsome := find_mapping_isSome ⟨start, stop, kind, h, hle, hlt⟩
  obtain ⟨m, hm⟩ := Option.isSome_iff_exists.mp hsome
  obtain ⟨text, htext, h⟩ := Option.bind_eq_some_iff.mp h
  obtain ⟨line, hline, h⟩ := List.exists_of_findSome?_eq_some h
  have hb := caller_mapping_eq_some h hle hlt
  have hm' := hm
  rw [find_mapping, htext, Option.bind_some] at hm'
  obtain ⟨line', hline', hm'⟩ := List.exists_of_findSome?_eq_some hm'
  rw [hm, hd text htext line' hline' line hline b m _ hm' hb]

/-- In disjoint mappings the search alone can make two kinds of callers: before the protocol is
established, in a mapping whose path says nothing. -/
theorem uniform_iff_of_disjoint {p : Process} (hd : Disjoint p) :
    Uniform p ↔ ∀ a b start stop, p.protocol_established = false →
      find_mapping p.maps a = some (start, stop, .Ordinary) → start ≤ b → b < stop →
        kind_of p a .Ordinary = kind_of p b .Ordinary := by
  constructor
  · rintro hu a b start stop - ha hle hlt
    have hsame : SameMapping p a b := ⟨start, stop, .Ordinary, ha, hle, hlt⟩
    have hkind := (same_kind_iff hsame).mpr (hu a b hsame)
    rw [classify_uncached_eq ha, classify_uncached_eq (hd.find_mapping_eq ha hle hlt)] at hkind
    exact Option.some.inj hkind
  · rintro h a b hsame
    obtain ⟨start, stop, kind, ha, hle, hlt⟩ := hsame
    refine (same_kind_iff ⟨start, stop, kind, ha, hle, hlt⟩).mp ?_
    rw [classify_uncached_eq ha, classify_uncached_eq (hd.find_mapping_eq ha hle hlt)]
    congr 1
    cases kind with
    | Ordinary =>
      cases he : p.protocol_established with
      | true => rw [kind_of_ordinary, kind_of_ordinary, if_pos he, if_pos he]
      | false => exact h a b start stop he ha hle hlt
    | Reflex64 => rfl
    | Artifact => rfl

end Linuwux.Callers
