/-
`SocketPair.lean` -- `init_socketpair` of `runtime/src/faketime.rs`, over the processes of a prefix.

The offset of the clock goes from process to process through a pair of sockets at the descriptors
67 and 69. The first process makes the pair; those that it forks, and the programs that they
execute, inherit the descriptors and reuse them. `FakeTime.lean` starts where all have the pair.

A new pair gets the two lowest free descriptors and is then moved to 67 and 69 by two calls of
`dup2`, the first of which closes what 67 is open for. [`init_effect`] says what this comes to for
every table of descriptors: where the second end was at 67 it is closed before it is moved, and a
single socket of the program at 67 or 69 is closed, too. [`delivers_iff`] says what it means for
the processes that follow.
-/
import Linuwux.Descriptors

set_option autoImplicit false

namespace Linuwux.SocketPair

open Descriptors (Table install dup2 close)

def OFFSET_RECV_FD : ℕ := 67

def OFFSET_SEND_FD : ℕ := 69

/-! ## The code -/

/-- What a descriptor is open for: an end of a pair of LinUwUx, or something of the program. -/
inductive Description where
  | recv_end (pair : ℕ)
  | send_end (pair : ℕ)
  | socket (id : ℕ)
  | other (id : ℕ)
  deriving DecidableEq

def Description.is_socket : Description → Bool
  | .other _ => false
  | _ => true

/-- The descriptors of a process and its statics. -/
structure Process where
  fds : Table Description
  SOCKETPAIR_INITIALIZED : Bool
  SOCKETPAIR_READY : Bool

/-- What the kernel answers: the bound on descriptors, the pair it has room for, and whether it
does the two `dup2`. -/
structure Kernel where
  limit : ℕ
  pair : Option ℕ
  dup2_recv : Bool
  dup2_send : Bool

def fd_is_socket (f : Table Description) (fd : ℕ) : Bool := (f fd).any Description.is_socket

def fd_is_open (f : Table Description) (fd : ℕ) : Bool := (f fd).isSome

/-- `socketpair`, with the two descriptors it returns. -/
def socketpair (k : Kernel) (f : Table Description) : Option (ℕ × ℕ × Table Description) := do
  let pair ← k.pair
  let (recv_fd, f) ← install k.limit f (.recv_end pair)
  let (send_fd, f) ← install k.limit f (.send_end pair)
  some (recv_fd, send_fd, f)

/-- The two `dup2`: the table they leave, and whether both were done. -/
def move (k : Kernel) (f : Table Description) (recv_fd send_fd : ℕ) : Table Description × Bool :=
  match if k.dup2_recv then dup2 k.limit f recv_fd OFFSET_RECV_FD else none with
  | none => (f, false)
  | some f =>
    match if k.dup2_send then dup2 k.limit f send_fd OFFSET_SEND_FD else none with
    | none => (f, false)
    | some f => (f, true)

/-- A descriptor of the pair that is at neither place is closed. -/
def close_moved (f : Table Description) (fd : ℕ) : Table Description :=
  if fd ≠ OFFSET_RECV_FD ∧ fd ≠ OFFSET_SEND_FD then close f fd else f

/-- The end of `init_socketpair`: a new pair. -/
def make_pair (k : Kernel) (p : Process) : Process :=
  match socketpair k p.fds with
  | none => p
  | some (recv_fd, send_fd, fds) =>
    let moved := move k fds recv_fd send_fd
    if moved.2 then
      { p with
        fds := close_moved (close_moved moved.1 recv_fd) send_fd
        SOCKETPAIR_READY := true }
    else { p with fds := close (close moved.1 recv_fd) send_fd }

def init_socketpair (k : Kernel) (p : Process) : Process :=
  if p.SOCKETPAIR_INITIALIZED then p
  else
    let p := { p with SOCKETPAIR_INITIALIZED := true }
    let recv_is_socket := fd_is_socket p.fds OFFSET_RECV_FD
    let send_is_socket := fd_is_socket p.fds OFFSET_SEND_FD
    if recv_is_socket && send_is_socket then { p with SOCKETPAIR_READY := true }
    else if (!recv_is_socket && fd_is_open p.fds OFFSET_RECV_FD)
        || (!send_is_socket && fd_is_open p.fds OFFSET_SEND_FD) then p
    else make_pair k p

/-! ## What it comes to -/

/-- Both descriptors are sockets already. -/
def Inherited (f : Table Description) : Prop :=
  fd_is_socket f OFFSET_RECV_FD = true ∧ fd_is_socket f OFFSET_SEND_FD = true

/-- A descriptor is open for something that is not a socket. -/
def Occupied (f : Table Description) : Prop :=
  (∃ id, f OFFSET_RECV_FD = some (.other id)) ∨ ∃ id, f OFFSET_SEND_FD = some (.other id)

/-- The second end of a new pair is at 67: 67 is free, and exactly one descriptor below it is. -/
def Squeezed (f : Table Description) : Prop :=
  f OFFSET_RECV_FD = none ∧ ∃! fd, fd < OFFSET_RECV_FD ∧ f fd = none

/-- The kernel makes a pair and moves it. -/
structure Kernel.Grants (k : Kernel) (f : Table Description) : Prop where
  pair : k.pair ≠ none
  room : ∃ r s, r < s ∧ s < k.limit ∧ f r = none ∧ f s = none
  limit : OFFSET_SEND_FD < k.limit
  dup2_recv : k.dup2_recv = true
  dup2_send : k.dup2_send = true

/-- What is written to 69 is read at 67. -/
def Delivers (f : Table Description) : Prop :=
  ∃ pair, f OFFSET_RECV_FD = some (.recv_end pair) ∧ f OFFSET_SEND_FD = some (.send_end pair)

/-- Two new descriptors, for the ends of a pair. -/
structure Paired (f f' : Table Description) (pair r s : ℕ) : Prop where
  recv : f' r = some (.recv_end pair)
  send : f' s = some (.send_end pair)
  recv_free : f r = none
  send_free : f s = none
  other : ∀ fd, fd ≠ r → fd ≠ s → f' fd = f fd
  squeezed : s = OFFSET_RECV_FD ↔ Squeezed f

theorem paired_of_socketpair {k : Kernel} {f f' : Table Description} {r s : ℕ}
    (h : socketpair k f = some (r, s, f')) : ∃ pair, Paired f f' pair r s := by
  unfold socketpair at h
  simp only [Option.bind_eq_bind, Option.bind_eq_some_iff, Option.some.injEq, Prod.exists] at h
  obtain ⟨pair, -, r', f₁, hr, s', f₂, hs, heq⟩ := h
  obtain ⟨rfl, rfl, rfl⟩ : r' = r ∧ s' = s ∧ f₂ = f' := by simpa using heq
  obtain ⟨hrlow, rfl⟩ := Descriptors.install_eq_some.mp hr
  obtain ⟨hslow, rfl⟩ := Descriptors.install_eq_some.mp hs
  obtain ⟨-, hrfree, -⟩ := Descriptors.lowest_free_eq_some.mp hrlow
  obtain ⟨-, hsfree, -⟩ := Descriptors.lowest_free_eq_some.mp hslow
  have hne : s' ≠ r' := by
    rintro rfl
    rw [Function.update_self] at hsfree
    cases hsfree
  rw [Function.update_of_ne hne] at hsfree
  refine ⟨pair, ?_, Function.update_self _ _ _, hrfree, hsfree, fun fd hfr hfs => ?_,
    Descriptors.second_eq_iff hrlow hslow⟩
  · rw [Function.update_of_ne hne.symm, Function.update_self]
  · rw [Function.update_of_ne hfs, Function.update_of_ne hfr]

/-- With room for two, the pair is made. -/
theorem exists_socketpair {k : Kernel} {f : Table Description} (h : k.Grants f) :
    ∃ r s f', socketpair k f = some (r, s, f') := by
  obtain ⟨pair, hpair⟩ := Option.ne_none_iff_exists'.mp h.pair
  obtain ⟨a, b, hab, hb, ha_free, hb_free⟩ := h.room
  obtain ⟨r, hr⟩ := Descriptors.exists_lowest_free (hab.trans hb) ha_free
  -- One of the two is still free when the first end has been opened.
  obtain ⟨s, hs⟩ : ∃ s, Descriptors.lowest_free k.limit
      (Function.update f r (some (.recv_end pair))) = some s := by
    by_cases hra : r = a
    · refine Descriptors.exists_lowest_free hb ?_
      rw [Function.update_of_ne (by omega), hb_free]
    · refine Descriptors.exists_lowest_free (hab.trans hb) ?_
      rw [Function.update_of_ne (Ne.symm hra), ha_free]
  refine ⟨r, s, Function.update (Function.update f r (some (.recv_end pair))) s
    (some (.send_end pair)), ?_⟩
  unfold socketpair
  rw [hpair, Option.bind_eq_bind, Option.bind_some, Descriptors.install_eq_some.mpr ⟨hr, rfl⟩,
    Option.bind_eq_bind, Option.bind_some]
  dsimp only
  rw [Descriptors.install_eq_some.mpr ⟨hs, rfl⟩, Option.bind_some]

theorem move_of_ne {k : Kernel} {f : Table Description} {r s fd : ℕ} (hrecv : fd ≠ OFFSET_RECV_FD)
    (hsend : fd ≠ OFFSET_SEND_FD) : (move k f r s).1 fd = f fd := by
  unfold move
  split
  · rfl
  · rename_i f₁ hf₁
    have hfirst : f₁ fd = f fd := by
      split at hf₁
      · rw [Descriptors.dup2_eq_some hf₁, Function.update_of_ne hrecv]
      · cases hf₁
    split
    · exact hfirst
    · rename_i f₂ hf₂
      split at hf₂
      · rw [Descriptors.dup2_eq_some hf₂]
        exact (Function.update_of_ne hsend _ _).trans hfirst
      · cases hf₂

theorem close_moved_of_ne {f : Table Description} {r fd : ℕ} (hrecv : fd ≠ OFFSET_RECV_FD)
    (hsend : fd ≠ OFFSET_SEND_FD) : close_moved f r fd = if fd = r then none else f fd := by
  unfold close_moved close
  by_cases hfd : fd = r
  · subst hfd
    rw [if_pos ⟨hrecv, hsend⟩, if_pos rfl, Function.update_self]
  · rw [if_neg hfd]
    split
    · rw [Function.update_of_ne hfd]
    · rfl

theorem close_moved_recv (f : Table Description) (r : ℕ) :
    close_moved f r OFFSET_RECV_FD = f OFFSET_RECV_FD := by
  unfold close_moved close
  split
  · rename_i h
    rw [Function.update_of_ne h.1.symm]
  · rfl

theorem close_moved_send (f : Table Description) (r : ℕ) :
    close_moved f r OFFSET_SEND_FD = f OFFSET_SEND_FD := by
  unfold close_moved close
  split
  · rename_i h
    rw [Function.update_of_ne h.2.symm]
  · rfl

theorem make_pair_of_ne (k : Kernel) (p : Process) {fd : ℕ} (hrecv : fd ≠ OFFSET_RECV_FD)
    (hsend : fd ≠ OFFSET_SEND_FD) : (make_pair k p).fds fd = p.fds fd := by
  unfold make_pair
  split
  · rfl
  · rename_i r s f hpair
    obtain ⟨pair, hnew⟩ := paired_of_socketpair hpair
    have hmoved : (move k f r s).1 fd = f fd := move_of_ne hrecv hsend
    -- Both new descriptors were free, and are again.
    have hclosed : (if fd = s then none else if fd = r then none else f fd) = p.fds fd := by
      by_cases hfs : fd = s
      · rw [if_pos hfs, hfs, hnew.send_free]
      · by_cases hfr : fd = r
        · rw [if_neg hfs, if_pos hfr, hfr, hnew.recv_free]
        · rw [if_neg hfs, if_neg hfr, hnew.other fd hfr hfs]
    dsimp only
    split
    · dsimp only
      rw [close_moved_of_ne hrecv hsend, close_moved_of_ne hrecv hsend, hmoved, hclosed]
    · dsimp only [close]
      rw [Function.update_apply, Function.update_apply, hmoved, hclosed]

/-- Nothing else is opened or closed, whatever the kernel answers. -/
theorem init_of_ne (k : Kernel) (p : Process) {fd : ℕ} (hrecv : fd ≠ OFFSET_RECV_FD)
    (hsend : fd ≠ OFFSET_SEND_FD) : (init_socketpair k p).fds fd = p.fds fd := by
  unfold init_socketpair
  split
  · rfl
  · dsimp only
    split
    · rfl
    · split
      · rfl
      · exact make_pair_of_ne k _ hrecv hsend

/-- The two `dup2`, where they are done. -/
theorem move_granted {k : Kernel} {f f' : Table Description} (h : k.Grants f) {r s : ℕ}
    (hr : (f' r).isSome) (hs : (f' s).isSome) :
    ∃ f'', move k f' r s = (f'', true) ∧ f'' OFFSET_RECV_FD = f' r
      ∧ f'' OFFSET_SEND_FD = if s = OFFSET_RECV_FD then f' r else f' s := by
  have hlimit : OFFSET_RECV_FD < k.limit := lt_trans (by decide) h.limit
  have hs' : (Function.update f' OFFSET_RECV_FD (f' r) s).isSome := by
    rw [Function.update_apply]
    split
    · exact hr
    · exact hs
  unfold move
  rw [if_pos h.dup2_recv, dup2, if_pos ⟨hr, hlimit⟩]
  dsimp only
  rw [if_pos h.dup2_send, dup2, if_pos ⟨hs', h.limit⟩]
  refine ⟨_, rfl, ?_, ?_⟩
  · rw [Function.update_of_ne (by decide), Function.update_self]
  · rw [Function.update_self, Function.update_apply]

/-- Where the pair is made, 67 is its first end; 69 is its second, unless that was closed. -/
theorem make_pair_granted {k : Kernel} {p : Process} (h : k.Grants p.fds) :
    (make_pair k p).SOCKETPAIR_READY = true ∧ ∃ pair,
      (make_pair k p).fds OFFSET_RECV_FD = some (.recv_end pair)
      ∧ (Squeezed p.fds → (make_pair k p).fds OFFSET_SEND_FD = some (.recv_end pair))
      ∧ (¬Squeezed p.fds → (make_pair k p).fds OFFSET_SEND_FD = some (.send_end pair)) := by
  obtain ⟨r, s, f, hpair⟩ := exists_socketpair h
  obtain ⟨pair, hnew⟩ := paired_of_socketpair hpair
  have hr : (f r).isSome := by rw [hnew.recv]; rfl
  have hs : (f s).isSome := by rw [hnew.send]; rfl
  obtain ⟨f', hmove, hrecv, hsend⟩ := move_granted h hr hs
  unfold make_pair
  rw [hpair]
  dsimp only
  rw [hmove, if_pos rfl]
  refine ⟨rfl, pair, ?_, fun hsqueezed => ?_, fun hsqueezed => ?_⟩ <;> dsimp only
  · rw [close_moved_recv, close_moved_recv, hrecv, hnew.recv]
  · rw [close_moved_send, close_moved_send, hsend, if_pos (hnew.squeezed.mpr hsqueezed), hnew.recv]
  · rw [close_moved_send, close_moved_send, hsend, if_neg (mt hnew.squeezed.mp hsqueezed),
      hnew.send]

theorem inherited_iff (f : Table Description) :
    (fd_is_socket f OFFSET_RECV_FD && fd_is_socket f OFFSET_SEND_FD) = true ↔ Inherited f :=
  Bool.and_eq_true_iff

theorem open_not_socket_iff (f : Table Description) (fd : ℕ) :
    (!fd_is_socket f fd && fd_is_open f fd) = true ↔ ∃ id, f fd = some (.other id) := by
  unfold fd_is_socket fd_is_open
  cases f fd with
  | none => simp
  | some d => cases d <;> simp [Description.is_socket]

theorem occupied_iff (f : Table Description) :
    ((!fd_is_socket f OFFSET_RECV_FD && fd_is_open f OFFSET_RECV_FD)
      || (!fd_is_socket f OFFSET_SEND_FD && fd_is_open f OFFSET_SEND_FD)) = true ↔ Occupied f := by
  rw [Bool.or_eq_true, open_not_socket_iff, open_not_socket_iff, Occupied]

theorem Occupied.not_inherited {f : Table Description} (h : Occupied f) : ¬Inherited f := by
  rintro ⟨hrecv, hsend⟩
  rcases h with ⟨id, hid⟩ | ⟨id, hid⟩
  · rw [fd_is_socket, hid] at hrecv
    cases hrecv
  · rw [fd_is_socket, hid] at hsend
    cases hsend

theorem init_of_inherited (k : Kernel) {p : Process} (hnew : p.SOCKETPAIR_INITIALIZED = false)
    (hinherited : Inherited p.fds) : init_socketpair k p = ⟨p.fds, true, true⟩ := by
  unfold init_socketpair
  rw [hnew, if_neg Bool.false_ne_true]
  dsimp only
  rw [hinherited.1, hinherited.2]
  rfl

theorem init_of_occupied (k : Kernel) {p : Process} (hnew : p.SOCKETPAIR_INITIALIZED = false)
    (hoccupied : Occupied p.fds) :
    init_socketpair k p = ⟨p.fds, true, p.SOCKETPAIR_READY⟩ := by
  unfold init_socketpair
  rw [hnew, if_neg Bool.false_ne_true]
  dsimp only
  rw [if_neg (mt (inherited_iff _).mp hoccupied.not_inherited),
    if_pos ((occupied_iff _).mpr hoccupied)]

/-- The branch for a new pair. -/
theorem init_eq_make_pair (k : Kernel) {p : Process} (hnew : p.SOCKETPAIR_INITIALIZED = false)
    (hinherited : ¬Inherited p.fds) (hoccupied : ¬Occupied p.fds) :
    init_socketpair k p = make_pair k { p with SOCKETPAIR_INITIALIZED := true } := by
  unfold init_socketpair
  rw [hnew, if_neg Bool.false_ne_true]
  dsimp only
  rw [if_neg (mt (inherited_iff _).mp hinherited), if_neg (mt (occupied_iff _).mp hoccupied)]

/-- **What the first process makes of its descriptors.** Everything but 67 and 69 stays as it is.
Two sockets are taken for the pair and are not touched, and neither is anything that is not a
socket. Else a pair is made, and if the kernel grants it, 69 is its second end exactly if 67 is not
the second descriptor that is free. -/
theorem init_effect (k : Kernel) (p : Process) (hnew : p.SOCKETPAIR_INITIALIZED = false) :
    (∀ fd, fd ≠ OFFSET_RECV_FD → fd ≠ OFFSET_SEND_FD → (init_socketpair k p).fds fd = p.fds fd)
      ∧ (Inherited p.fds → init_socketpair k p = ⟨p.fds, true, true⟩)
      ∧ (Occupied p.fds → init_socketpair k p = ⟨p.fds, true, p.SOCKETPAIR_READY⟩)
      ∧ (¬Inherited p.fds → ¬Occupied p.fds → k.Grants p.fds →
        (init_socketpair k p).SOCKETPAIR_READY = true ∧ ∃ pair,
          (init_socketpair k p).fds OFFSET_RECV_FD = some (.recv_end pair)
          ∧ (Squeezed p.fds →
            (init_socketpair k p).fds OFFSET_SEND_FD = some (.recv_end pair))
          ∧ (¬Squeezed p.fds →
            (init_socketpair k p).fds OFFSET_SEND_FD = some (.send_end pair))) := by
  refine ⟨fun fd hrecv hsend => init_of_ne k p hrecv hsend, init_of_inherited k hnew,
    init_of_occupied k hnew, fun hinherited hoccupied hgrants => ?_⟩
  rw [init_eq_make_pair k hnew hinherited hoccupied]
  exact make_pair_granted hgrants

/-- One descriptor below 67 is free. -/
def crowded : Table Description := fun fd => if fd < 67 ∧ fd ≠ 10 then some (.other fd) else none

def granting : Kernel := ⟨1024, some 0, true, true⟩

theorem crowded_squeezed : Squeezed crowded := by
  refine ⟨rfl, 10, ⟨by decide, rfl⟩, fun fd ⟨hlt, hfree⟩ => ?_⟩
  unfold crowded at hfree
  split at hfree
  · cases hfree
  · rename_i h
    exact by_contra fun hne => h ⟨hlt, hne⟩

theorem crowded_granted : granting.Grants crowded where
  pair := nofun
  room := ⟨10, 67, by decide, by decide, rfl, rfl⟩
  limit := by decide
  dup2_recv := rfl
  dup2_send := rfl

theorem crowded_fresh : ¬Inherited crowded ∧ ¬Occupied crowded := by
  refine ⟨fun h => Bool.false_ne_true h.1, ?_⟩
  rintro (⟨id, hid⟩ | ⟨id, hid⟩)
  · cases hid
  · cases hid

/-- Both descriptors are the first end. -/
theorem crowded_loses_send_end :
    ∃ pair, (init_socketpair granting ⟨crowded, false, false⟩).fds OFFSET_RECV_FD
        = some (.recv_end pair)
      ∧ (init_socketpair granting ⟨crowded, false, false⟩).fds OFFSET_SEND_FD
        = some (.recv_end pair) := by
  obtain ⟨-, -, -, hpair⟩ := init_effect granting ⟨crowded, false, false⟩ rfl
  obtain ⟨-, pair, hrecv, hsend, -⟩ := hpair crowded_fresh.1 crowded_fresh.2 crowded_granted
  exact ⟨pair, hrecv, hsend crowded_squeezed⟩

/-! ## The processes of a prefix -/

/-- The processes by their pids. -/
abbrev Tree := ℕ → Option Process

inductive Event where
  | fork (parent child : ℕ)
  /-- A program is executed: its statics are new, and its constructors run. -/
  | exec (pid : ℕ) (fds : Table Description) (k : Kernel)
  /-- A process opens and closes descriptors. -/
  | work (pid : ℕ) (fds : Table Description)

def Tree.step (tree : Tree) : Event → Tree
  | .fork parent child =>
    match tree parent, tree child with
    | some p, none => Function.update tree child (some p)
    | _, _ => tree
  | .exec pid fds k => Function.update tree pid
      ((tree pid).map fun _ => init_socketpair k ⟨fds, false, false⟩)
  | .work pid fds => Function.update tree pid ((tree pid).map fun p => { p with fds })

/-- The event leaves 67 and 69 as they are. Neither is closed by `exec`. -/
def Tree.Spares (tree : Tree) : Event → Prop
  | .fork _ _ => True
  | .exec pid fds _ | .work pid fds => ∀ p ∈ tree pid,
    fds OFFSET_RECV_FD = p.fds OFFSET_RECV_FD ∧ fds OFFSET_SEND_FD = p.fds OFFSET_SEND_FD

def Tree.Undisturbed : Tree → List Event → Prop
  | _, [] => True
  | tree, e :: events => tree.Spares e ∧ Tree.Undisturbed (tree.step e) events

/-- The first process, when its constructors have run. -/
def root (k : Kernel) (pid : ℕ) (fds : Table Description) : Tree :=
  Function.update (fun _ => none) pid (some (init_socketpair k ⟨fds, false, false⟩))

/-- A process has these two descriptors, and is ready. -/
structure Process.Has (recv send : Option Description) (p : Process) : Prop where
  ready : p.SOCKETPAIR_READY = true
  recv : p.fds OFFSET_RECV_FD = recv
  send : p.fds OFFSET_SEND_FD = send

def Tree.All (P : Process → Prop) (tree : Tree) : Prop := ∀ pid p, tree pid = some p → P p

theorem Tree.All.update {P : Process → Prop} {tree : Tree} (h : tree.All P) {pid : ℕ}
    {o : Option Process} (ho : ∀ p, o = some p → P p) :
    Tree.All P (Function.update tree pid o) := by
  intro pid' p hp
  rw [Function.update_apply] at hp
  split at hp
  · exact ho p hp
  · exact h pid' p hp

/-- Two sockets go from process to process. -/
theorem Tree.all_has_step {recv send : Description} (hrecv : recv.is_socket = true)
    (hsend : send.is_socket = true) {tree : Tree} {e : Event}
    (h : tree.All (Process.Has (some recv) (some send))) (he : tree.Spares e) :
    (tree.step e).All (Process.Has (some recv) (some send)) := by
  cases e with
  | fork parent child =>
    dsimp only [Tree.step]
    split
    · rename_i p hp hchild
      exact h.update fun p' hp' => Option.some.inj hp' ▸ h parent p hp
    · exact h
  | exec pid fds k =>
    refine h.update fun p' hp' => ?_
    obtain ⟨p, hp, rfl⟩ := Option.map_eq_some_iff.mp hp'
    obtain ⟨-, hr, hs⟩ := h pid p hp
    obtain ⟨hsame_recv, hsame_send⟩ := he p hp
    -- The constructors find both sockets.
    have hinherited : Inherited fds :=
      ⟨by rw [fd_is_socket, hsame_recv, hr]; exact hrecv,
        by rw [fd_is_socket, hsame_send, hs]; exact hsend⟩
    rw [init_of_inherited k rfl hinherited]
    exact ⟨rfl, hsame_recv.trans hr, hsame_send.trans hs⟩
  | work pid fds =>
    refine h.update fun p' hp' => ?_
    obtain ⟨p, hp, rfl⟩ := Option.map_eq_some_iff.mp hp'
    obtain ⟨hready, hr, hs⟩ := h pid p hp
    obtain ⟨hsame_recv, hsame_send⟩ := he p hp
    exact ⟨hready, hsame_recv.trans hr, hsame_send.trans hs⟩

theorem Tree.all_has_run {recv send : Description} (hrecv : recv.is_socket = true)
    (hsend : send.is_socket = true) {tree : Tree} {events : List Event}
    (h : tree.All (Process.Has (some recv) (some send))) (hevents : tree.Undisturbed events) :
    Tree.All (Process.Has (some recv) (some send)) (events.foldl Tree.step tree) := by
  induction events generalizing tree with
  | nil => exact h
  | cons e events ih => exact ih (Tree.all_has_step hrecv hsend h hevents.1) hevents.2

/-- **All processes have the pair, or none has.** Where 67 and 69 are left alone, every process of
the prefix has the descriptors that the first one made, and takes them to be ready. They deliver
unless, at the start, 67 was the second descriptor that was free. -/
theorem delivers_iff (k : Kernel) (pid : ℕ) (fds : Table Description) (hinherited : ¬Inherited fds)
    (hoccupied : ¬Occupied fds) (hgrants : k.Grants fds) (events : List Event)
    (h : (root k pid fds).Undisturbed events) :
    ∃ pair, ∀ child p, events.foldl Tree.step (root k pid fds) child = some p →
      p.SOCKETPAIR_READY = true ∧ p.fds OFFSET_RECV_FD = some (.recv_end pair)
        ∧ (Delivers p.fds ↔ ¬Squeezed fds) := by
  obtain ⟨-, -, -, hpair⟩ := init_effect k ⟨fds, false, false⟩ rfl
  obtain ⟨hready, pair, hrecv, hbroken, hwhole⟩ := hpair hinherited hoccupied hgrants
  have hroot {send : Description}
      (hsend : (init_socketpair k ⟨fds, false, false⟩).fds OFFSET_SEND_FD = some send) :
      (root k pid fds).All (Process.Has (some (.recv_end pair)) (some send)) := by
    have hnone : Tree.All (Process.Has (some (.recv_end pair)) (some send)) fun _ => none := nofun
    refine hnone.update fun p hp => ?_
    rw [← Option.some.inj hp]
    exact ⟨hready, hrecv, hsend⟩
  refine ⟨pair, fun child p hp => ?_⟩
  by_cases hsqueezed : Squeezed fds
  · obtain ⟨hr, hp67, hp69⟩ :=
      Tree.all_has_run rfl rfl (hroot (hbroken hsqueezed)) h child p hp
    refine ⟨hr, hp67, iff_of_false ?_ (not_not.mpr hsqueezed)⟩
    rintro ⟨pair', -, hsend⟩
    rw [hp69] at hsend
    cases hsend
  · obtain ⟨hr, hp67, hp69⟩ :=
      Tree.all_has_run rfl rfl (hroot (hwhole hsqueezed)) h child p hp
    exact ⟨hr, hp67, iff_of_true ⟨pair, hp67, hp69⟩ hsqueezed⟩

/-- Process 1 forks process 2, which executes a program. -/
def launched : List Event :=
  [.fork 1 2, .exec 2 (init_socketpair granting ⟨crowded, false, false⟩).fds granting]

theorem launched_undisturbed : (root granting 1 crowded).Undisturbed launched := by
  refine ⟨trivial, fun p hp => ?_, trivial⟩
  have hchild : (root granting 1 crowded).step (.fork 1 2) 2
      = some (init_socketpair granting ⟨crowded, false, false⟩) := by
    simp [Tree.step, root]
  rw [Option.mem_def, hchild] at hp
  rw [← Option.some.inj hp]
  exact ⟨rfl, rfl⟩

/-- The child takes the pair to be ready and does not deliver. -/
theorem launched_never_deliver :
    ∃ p, launched.foldl Tree.step (root granting 1 crowded) 2 = some p
      ∧ p.SOCKETPAIR_READY = true ∧ ¬Delivers p.fds := by
  obtain ⟨pair, hall⟩ := delivers_iff granting 1 crowded crowded_fresh.1 crowded_fresh.2
    crowded_granted launched launched_undisturbed
  have hchild : ∃ p, launched.foldl Tree.step (root granting 1 crowded) 2 = some p := by
    simp [launched, Tree.step, root]
  obtain ⟨p, hp⟩ := hchild
  obtain ⟨hready, -, hdelivers⟩ := hall 2 p hp
  exact ⟨p, hp, hready, fun h => hdelivers.mp h crowded_squeezed⟩

end Linuwux.SocketPair
