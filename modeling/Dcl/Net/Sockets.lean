import Dcl.Foundations.Slots
import Dcl.Foundations.Transition
import Dcl.Strutils.Text

/-! # Socket objects and their descriptors

`include/dcl/socket.h` and `src/dcl/socket.cpp`: the objects that hold a descriptor and the operations that
move it. Copying and assigning take the descriptor away from their source; assigning does not close the one
that the target holds, and `connect` and `bind` forget theirs when the system call fails.

* `Socket`: `socket_fd`, `_address` and `_port`, with the member functions as functions of what the system
  calls return; `SocketAddress` with its `parse` likewise.
* `Sockets`: every object made so far, the open descriptors, and the closings of descriptors that are not
  open. The system hands out any number that is not in use and refuses calls on a number that is not open.
* `Owned`: each open descriptor is stored in exactly one live object, and none was closed twice.

Left out: `listen`, `shutdown`, `read` and `write`, which leave the object as it is. A destructor's
`set_blocked` succeeds, as `fcntl` does on an open descriptor. -/
namespace Dcl.Net
set_option autoImplicit false

/-! ## `socket` -/

structure Socket where
  fd : ℤ
  address : Bytes
  port : ℤ
  deriving DecidableEq

/-- `socket()`. -/
def Socket.new : Socket := ⟨-1, [], 0⟩

/-- What the two `fcntl` calls of `set_blocked` return. -/
inductive Fcntl where
  | done
  | getFails
  | setFails

def setBlocked : Fcntl → Except String Unit
  | .done => .ok ()
  | .getFails => .error "can't get socket blocking state"
  | .setFails => .error "can't change socket blocking state"

/-- `inet_pton` refuses the address, or `::connect` fails or succeeds. -/
inductive ConnectResult where
  | badAddress
  | failed
  | connected
  deriving DecidableEq

/-- `options r bound`: `setsockopt` succeeds, `set_blocked` gets `r`, and `::bind` succeeds if `bound`. -/
inductive BindResult where
  | badAddress
  | noOptions
  | options (r : Fcntl) (bound : Bool)

inductive AcceptResult where
  | failed
  | accepted (fd : ℤ) (address : Bytes) (port : ℤ) (r : Fcntl)

namespace Socket

/-- What the source of a copy is left with. -/
def moved (src : Socket) : Socket := { src with fd := -1 }

/-- The first three lines of `operator=`. -/
def take (_ : Socket) (src : Socket) : Socket := ⟨src.fd, src.address, src.port⟩

def connect (o : Socket) (address : Bytes) (port : ℤ) : ConnectResult → Socket × Except String Bool
  | .badAddress => (o, .error "can't assign an address to a socket")
  | .failed => ({ o with fd := -1 }, .ok false)
  | .connected => ({ o with address := address, port := port }, .ok true)

/-- `_address` and `_port` as `bind` sets them. -/
def named (o : Socket) (address : List Bytes) (port : ℤ) : Socket :=
  { o with address := address.headD [], port := port }

def bind (o : Socket) (address : List Bytes) (port : ℤ) : BindResult → Socket × Except String Unit
  | .badAddress => (o, .error "can't assign an address to a socket")
  | .noOptions => (o.named address port, .error "can't setup socket options")
  | .options r bound =>
      match setBlocked r with
      | .error msg => (o.named address port, .error msg)
      | .ok () =>
          if bound then (o.named address port, .ok ())
          else ({ o.named address port with fd := -1 }, .error "can't bind to the address or port")

/-- The result of `accept`; an exception destroys the object that is to be returned. -/
def accept : AcceptResult → Except String Socket
  | .failed => .error "can't accept incoming connection"
  | .accepted fd address port r => (setBlocked r).map fun _ => ⟨fd, address, port⟩

end Socket

/-! ## `socket_address` -/

/-- A call that does not return: an exception with its message, or undefined behaviour. -/
inductive Fault where
  | thrown (message : Bytes)
  | undefined
  deriving DecidableEq

/-- The vector of addresses, and the two parts of the text. -/
structure SocketAddress where
  addresses : List Bytes
  port : ℤ
  host : Bytes
  deriving DecidableEq

/-- The answer of `gethostbyname`: the addresses as `inet_ntop` writes them, or `h_errno`. -/
inductive HostEntry where
  | found (addresses : List Bytes)
  | hostNotFound
  | noData
  | otherError

namespace SocketAddress

def resolve (host : Bytes) : HostEntry → Except Fault (List Bytes)
  | .found addresses => .ok addresses
  | .hostNotFound => .error (.thrown (ascii "host '" ++ host ++ ascii "' is not found"))
  | .noData => .error (.thrown (ascii "can't access host '" ++ host ++ ascii "'"))
  | .otherError => .error (.thrown (ascii "can't resolve host '" ++ host ++ ascii "'"))

/-- `a[0]` and `a[1]` are read whether or not the vector has them. -/
def parse (addr : Bytes) (h : HostEntry) : Except Fault SocketAddress :=
  match tokenize addr (ascii ":") with
  | [] => .error .undefined
  | host :: rest =>
      match if host.isEmpty || host == ascii "*" then .ok [] else resolve host h with
      | .error e => .error e
      | .ok addresses =>
          match rest with
          | [] => .error .undefined
          | port :: _ => .ok ⟨addresses, if port.isEmpty then 0 else fromStringInt port, host⟩

end SocketAddress

/-! ## All objects -/

/-- A destroyed object leaves `none` in its place. -/
structure Sockets where
  objects : List (Option Socket)
  openFds : List ℤ
  stray : List ℤ

def Sockets.init : Sockets := ⟨[], [], []⟩

namespace Sockets

/-- The object `k` is alive. -/
def live (s : Sockets) (k : ℕ) : Option Socket := s.objects[k]?.join

def store (s : Sockets) (k : ℕ) (o : Socket) : Sockets := { s with objects := s.objects.set k (some o) }

def add (s : Sockets) (o : Socket) : Sockets := { s with objects := s.objects ++ [some o] }

/-- The system may return the number `fd`. -/
def fresh (s : Sockets) (fd : ℤ) : Bool := decide (0 ≤ fd) && !s.openFds.contains fd

def openFd (s : Sockets) (fd : ℤ) : Sockets := { s with openFds := fd :: s.openFds }

/-- `::close`. -/
def close (s : Sockets) (fd : ℤ) : Sockets :=
  if s.openFds.contains fd then { s with openFds := s.openFds.erase fd }
  else { s with stray := fd :: s.stray }

/-- `~socket` on an object with descriptor `fd`. -/
def closeHeld (s : Sockets) (fd : ℤ) : Sockets := if 0 ≤ fd then s.close fd else s

end Sockets

inductive Op where
  | create (fd : Option ℤ)
  | plain
  | copy (src : ℕ)
  | assign (dst src : ℕ)
  | connect (k : ℕ) (address : Bytes) (port : ℤ) (r : ConnectResult)
  | bind (k : ℕ) (address : List Bytes) (port : ℤ) (r : BindResult)
  | accept (k : ℕ) (r : AcceptResult)
  | destroy (k : ℕ)

/-- Calls on a number that is not open fail with `EBADF`: `bind` stops at `setsockopt`. -/
def ConnectResult.possible (isOpen : Bool) : ConnectResult → Bool
  | .connected => isOpen
  | _ => true

def BindResult.possible (isOpen : Bool) : BindResult → Bool
  | .options _ _ => isOpen
  | _ => true

def step (s : Sockets) : Op → Option Sockets
  | .create none => some s
  | .create (some fd) => if s.fresh fd then some ((s.openFd fd).add { Socket.new with fd := fd }) else none
  | .plain => some (s.add .new)
  | .copy src => (s.live src).map fun o => (s.store src o.moved).add o
  | .assign dst src =>
      (s.live dst).bind fun d => (s.live src).bind fun o =>
        let s' := s.store dst (d.take o)
        (s'.live src).map fun o' => s'.store src o'.moved
  | .connect k address port r =>
      (s.live k).bind fun o =>
        if r.possible (s.openFds.contains o.fd) then some (s.store k (o.connect address port r).1) else none
  | .bind k address port r =>
      (s.live k).bind fun o =>
        if r.possible (s.openFds.contains o.fd) then some (s.store k (o.bind address port r).1) else none
  | .accept k r =>
      (s.live k).bind fun o =>
        match r with
        | .failed => some s
        | .accepted fd address port f =>
            if s.openFds.contains o.fd && s.fresh fd then
              match Socket.accept (.accepted fd address port f) with
              | .ok o' => some ((s.openFd fd).add o')
              | .error _ => some ((s.openFd fd).closeHeld fd)
            else none
  | .destroy k =>
      (s.live k).map fun o =>
        let s' := s.closeHeld o.fd
        { s' with objects := s'.objects.set k none }

/-! ## Who holds what -/

/-- The object is alive and stores `fd`. -/
def stores (fd : ℤ) (o : Option Socket) : Bool := o.any fun o => o.fd == fd

def Sockets.holders (s : Sockets) (fd : ℤ) : ℕ := s.objects.countP (stores fd)

/-- Every open descriptor is stored in exactly one live object, and none was closed twice. -/
def Owned (s : Sockets) : Prop := (∀ fd ∈ s.openFds, s.holders fd = 1) ∧ s.stray = []

/-- The object is alive and holds a descriptor. -/
def Sockets.holdsFd (s : Sockets) (k : ℕ) : Bool := (s.live k).any fun o => decide (0 ≤ o.fd)

/-- An assignment to an object that holds a descriptor, or a `::connect` or `::bind` that fails on one. -/
def forgets (s : Sockets) : Op → Bool
  | .assign dst _ => s.holdsFd dst
  | .connect k _ _ .failed => s.holdsFd k
  | .bind k _ _ (.options .done false) => s.holdsFd k
  | _ => false

section Holders
variable {s s' : Sockets} {k : ℕ} {o o' : Socket} {f : ℤ}

theorem live_eq_some (h : s.live k = some o) : s.objects[k]? = some (some o) :=
  Option.join_eq_some_iff.mp h

theorem holders_store (h : s.live k = some o) :
    (s.store k o').holders f + (o.fd == f).toNat = s.holders f + (o'.fd == f).toNat :=
  Slots.countP_set (live_eq_some h) (some o') (stores f)

theorem holders_add (o : Socket) (f : ℤ) : (s.add o).holders f = s.holders f + (o.fd == f).toNat := by
  rw [Sockets.add, Sockets.holders, List.countP_append, List.countP_singleton]
  change _ + (if (o.fd == f) = true then 1 else 0) = _
  cases o.fd == f <;> rfl

theorem live_store (h : s.live k = some o) : (s.store k o').live k = some o' := by
  have hk := live_eq_some h
  rw [Sockets.live, Sockets.store, List.getElem?_set_self (List.getElem?_eq_some_iff.mp hk).1]
  rfl

theorem live_store_of_ne {j : ℕ} (h : k ≠ j) : (s.store k o').live j = s.live j := by
  rw [Sockets.live, Sockets.store, List.getElem?_set_ne h]
  rfl

theorem moved_stores (hf : 0 ≤ f) : ((-1 : ℤ) == f) = false := by
  rw [beq_eq_false_iff_ne]
  omega

/-- Exactly one of the objects that store `f` is the live object `k`, if it does. -/
theorem holders_pos (h : s.live k = some o) : 0 < s.holders o.fd := by
  refine List.countP_pos_iff.mpr ⟨some o, List.mem_of_getElem? (live_eq_some h), ?_⟩
  simp [stores]

end Holders

/-! ## What an operation does -/

/-- Everything an operation can do to the holders of a descriptor. -/
inductive Effect (s : Sockets) (op : Op) (s' : Sockets) : Prop
  | same (quiet : forgets s op = false) (holders : ∀ f : ℤ, 0 ≤ f → s'.holders f = s.holders f)
      (fds : s'.openFds = s.openFds) (stray : s'.stray = s.stray)
  | opens (fd : ℤ) (quiet : forgets s op = false) (fresh : s.fresh fd = true)
      (holders : ∀ f : ℤ, 0 ≤ f → s'.holders f = s.holders f + (fd == f).toNat)
      (fds : s'.openFds = fd :: s.openFds) (stray : s'.stray = s.stray)
  | drops (k : ℕ) (o : Socket) (live : s.live k = some o) (flag : forgets s op = decide (0 ≤ o.fd))
      (holders : ∀ f : ℤ, 0 ≤ f → s'.holders f + (o.fd == f).toNat = s.holders f)
      (fds : s'.openFds = s.openFds) (stray : s'.stray = s.stray)
  | closes (k : ℕ) (o : Socket) (live : s.live k = some o) (quiet : forgets s op = false) (held : 0 ≤ o.fd)
      (holders : ∀ f : ℤ, 0 ≤ f → s'.holders f + (o.fd == f).toNat = s.holders f)
      (fds : s'.openFds = (s.close o.fd).openFds) (stray : s'.stray = (s.close o.fd).stray)

section Effects
variable {s s' : Sockets} {op : Op}

/-- An operation that keeps the descriptor of the object it changes. -/
theorem Effect.of_store {k : ℕ} {o o' : Socket} (h : s.live k = some o) (hfd : o'.fd = o.fd)
    (hquiet : forgets s op = false) : Effect s op (s.store k o') := by
  refine .same hquiet (fun f _ => ?_) rfl rfl
  have := @holders_store s k o o' f h
  rw [hfd] at this
  omega

theorem Effect.of_lose {k : ℕ} {o o' : Socket} (h : s.live k = some o) (hfd : o'.fd = -1)
    (hflag : forgets s op = decide (0 ≤ o.fd)) : Effect s op (s.store k o') := by
  refine .drops k o h hflag (fun f hf => ?_) rfl rfl
  have := @holders_store s k o o' f h
  rw [hfd, moved_stores hf] at this
  exact this

theorem holdsFd_of_live {k : ℕ} {o : Socket} (h : s.live k = some o) : s.holdsFd k = decide (0 ≤ o.fd) := by
  rw [Sockets.holdsFd, h]
  rfl

theorem Effect.of_open {fd : ℤ} {o : Socket} (hfresh : s.fresh fd = true) (hfd : o.fd = fd)
    (hquiet : forgets s op = false) : Effect s op ((s.openFd fd).add o) := by
  refine .opens fd hquiet hfresh (fun f _ => ?_) rfl rfl
  rw [holders_add, hfd]
  rfl

theorem effect_copy {src : ℕ} {o : Socket} (h : s.live src = some o) :
    Effect s (.copy src) ((s.store src o.moved).add o) := by
  refine .same rfl (fun f hf => ?_) rfl rfl
  have hsrc := @holders_store s src o o.moved f h
  change _ = _ + ((-1 : ℤ) == f).toNat at hsrc
  rw [moved_stores hf] at hsrc
  rw [holders_add]
  exact hsrc

/-- The source loses its descriptor to the target, and the target the one it held; an object assigned to
itself loses its own. -/
theorem effect_assign {dst src : ℕ} {d o : Socket} (hdst : s.live dst = some d) (hsrc : s.live src = some o)
    (h : ((s.store dst (d.take o)).live src).map (fun o' => (s.store dst (d.take o)).store src o'.moved) =
      some s') : Effect s (.assign dst src) s' := by
  obtain ⟨o', ho', rfl⟩ := Option.map_eq_some_iff.mp h
  have hfd : o'.fd = o.fd := by
    by_cases hd : dst = src
    · subst hd
      rw [live_store hdst, Option.some.injEq] at ho'
      rw [← ho']
      rfl
    · rw [live_store_of_ne hd, hsrc, Option.some.injEq] at ho'
      rw [ho']
  refine .drops dst d hdst (holdsFd_of_live hdst) (fun f hf => ?_) rfl rfl
  have htake := @holders_store s dst d (d.take o) f hdst
  have hmove := @holders_store _ src o' o'.moved f ho'
  change _ = _ + (o.fd == f).toNat at htake
  change _ = _ + ((-1 : ℤ) == f).toNat at hmove
  rw [moved_stores hf, hfd, Bool.toNat_false] at hmove
  omega

theorem effect_bind {k : ℕ} {o : Socket} {address : List Bytes} {port : ℤ} {r : BindResult}
    (h : s.live k = some o) : Effect s (.bind k address port r) (s.store k (o.bind address port r).1) := by
  cases r with
  | badAddress => exact .of_store h rfl rfl
  | noOptions => exact .of_store h rfl rfl
  | options r bound =>
    cases r with
    | done =>
      cases bound with
      | true => exact .of_store h rfl rfl
      | false => exact .of_lose h rfl (holdsFd_of_live h)
    | getFails => exact .of_store h rfl rfl
    | setFails => exact .of_store h rfl rfl

theorem effect_connect {k : ℕ} {o : Socket} {address : Bytes} {port : ℤ} {r : ConnectResult}
    (h : s.live k = some o) : Effect s (.connect k address port r) (s.store k (o.connect address port r).1) := by
  cases r with
  | badAddress => exact .of_store h rfl rfl
  | failed => exact .of_lose h rfl (holdsFd_of_live h)
  | connected => exact .of_store h rfl rfl

/-- The object that an exception destroys closes the descriptor that `::accept` has just opened. -/
theorem closeHeld_openFd {fd : ℤ} (h : s.fresh fd = true) : (s.openFd fd).closeHeld fd = s := by
  have hpos : 0 ≤ fd := by
    have := (Bool.and_eq_true_iff.mp h).1
    exact of_decide_eq_true this
  simp [Sockets.closeHeld, Sockets.close, Sockets.openFd, hpos]

theorem effect_accept {k : ℕ} {fd : ℤ} {address : Bytes} {port : ℤ} {r : Fcntl} (hfresh : s.fresh fd = true)
    (h : (match Socket.accept (.accepted fd address port r) with
      | .ok o' => some ((s.openFd fd).add o')
      | .error _ => some ((s.openFd fd).closeHeld fd)) = some s') :
    Effect s (.accept k (.accepted fd address port r)) s' := by
  cases r with
  | done =>
    cases h
    exact .of_open hfresh rfl rfl
  | getFails =>
    cases h
    rw [closeHeld_openFd hfresh]
    exact .same rfl (fun _ _ => rfl) rfl rfl
  | setFails =>
    cases h
    rw [closeHeld_openFd hfresh]
    exact .same rfl (fun _ _ => rfl) rfl rfl

theorem effect_destroy {k : ℕ} {o : Socket} (h : s.live k = some o) :
    Effect s (.destroy k)
      { s.closeHeld o.fd with objects := (s.closeHeld o.fd).objects.set k none } := by
  have hobjects : (s.closeHeld o.fd).objects = s.objects := by
    unfold Sockets.closeHeld Sockets.close
    split_ifs <;> rfl
  have hholders : ∀ f : ℤ, (s.objects.set k none).countP (stores f) + (o.fd == f).toNat = s.holders f :=
    fun f => Slots.countP_set (live_eq_some h) none (stores f)
  by_cases hpos : 0 ≤ o.fd
  · refine .closes k o h rfl hpos (fun f _ => ?_) ?_ ?_
    · rw [Sockets.holders, hobjects]
      exact hholders f
    · simp only [Sockets.closeHeld, if_pos hpos]
    · simp only [Sockets.closeHeld, if_pos hpos]
  · refine .drops k o h (decide_eq_false hpos).symm (fun f _ => ?_) ?_ ?_
    · rw [Sockets.holders, hobjects]
      exact hholders f
    · simp only [Sockets.closeHeld, if_neg hpos]
    · simp only [Sockets.closeHeld, if_neg hpos]

theorem effect (h : step s op = some s') : Effect s op s' := by
  cases op with
  | create fd =>
    cases fd with
    | none =>
      cases h
      exact .same rfl (fun _ _ => rfl) rfl rfl
    | some fd =>
      simp only [step] at h
      split at h
      case isTrue hfresh =>
        cases h
        exact .of_open hfresh rfl rfl
      case isFalse => cases h
  | plain =>
    cases h
    refine .same rfl (fun f hf => ?_) rfl rfl
    rw [holders_add]
    change _ + ((-1 : ℤ) == f).toNat = _
    rw [moved_stores hf]
    rfl
  | copy src =>
    obtain ⟨o, ho, rfl⟩ := Option.map_eq_some_iff.mp h
    exact effect_copy ho
  | assign dst src =>
    obtain ⟨d, hd, h⟩ := Option.bind_eq_some_iff.mp h
    obtain ⟨o, ho, h⟩ := Option.bind_eq_some_iff.mp h
    exact effect_assign hd ho h
  | connect k address port r =>
    obtain ⟨o, ho, h⟩ := Option.bind_eq_some_iff.mp h
    split at h
    · cases h
      exact effect_connect ho
    · cases h
  | bind k address port r =>
    obtain ⟨o, ho, h⟩ := Option.bind_eq_some_iff.mp h
    split at h
    · cases h
      exact effect_bind ho
    · cases h
  | accept k r =>
    obtain ⟨o, ho, h⟩ := Option.bind_eq_some_iff.mp h
    cases r with
    | failed =>
      cases h
      exact .same rfl (fun _ _ => rfl) rfl rfl
    | accepted fd address port r =>
      dsimp only at h
      split at h
      case isTrue hc => exact effect_accept (Bool.and_eq_true_iff.mp hc).2 h
      case isFalse => cases h
  | destroy k =>
    obtain ⟨o, ho, rfl⟩ := Option.map_eq_some_iff.mp h
    exact effect_destroy ho

end Effects

/-! ## The invariant -/

/-- What every operation keeps: a stored descriptor is open, no two objects store the same one, and no
descriptor was closed twice. -/
structure Sound (s : Sockets) : Prop where
  nodup : s.openFds.Nodup
  nonneg : ∀ fd ∈ s.openFds, 0 ≤ fd
  holders : ∀ f : ℤ, 0 ≤ f → s.holders f ≤ s.openFds.count f
  stray : s.stray = []

section Runs
variable {s s' : Sockets} {op : Op}

theorem Sound.mem (hs : Sound s) {k : ℕ} {o : Socket} (h : s.live k = some o) (hpos : 0 ≤ o.fd) :
    o.fd ∈ s.openFds := by
  have := holders_pos h
  have := hs.holders o.fd hpos
  exact List.count_pos_iff.mp (by omega)

theorem close_of_mem {fd : ℤ} (h : fd ∈ s.openFds) :
    s.close fd = { s with openFds := s.openFds.erase fd } := by
  rw [Sockets.close, if_pos (List.contains_iff_mem.mpr h)]

theorem not_mem_of_fresh {fd : ℤ} (h : s.fresh fd = true) : 0 ≤ fd ∧ fd ∉ s.openFds := by
  simpa [Sockets.fresh] using h

theorem sound_step (hs : Sound s) (h : step s op = some s') : Sound s' := by
  cases effect h with
  | same _ holders fds stray =>
    refine ⟨fds ▸ hs.nodup, fds ▸ hs.nonneg, fun f hf => ?_, stray.trans hs.stray⟩
    rw [holders f hf, fds]
    exact hs.holders f hf
  | opens fd _ fresh holders fds stray =>
    obtain ⟨hpos, hnew⟩ := not_mem_of_fresh fresh
    refine ⟨?_, ?_, fun f hf => ?_, stray.trans hs.stray⟩
    · rw [fds]
      exact List.nodup_cons.mpr ⟨hnew, hs.nodup⟩
    · rw [fds]
      exact List.forall_mem_cons.mpr ⟨hpos, hs.nonneg⟩
    · have := hs.holders f hf
      rw [holders f hf, fds, List.count_cons]
      cases fd == f <;> simp <;> omega
  | drops k o live _ holders fds stray =>
    refine ⟨fds ▸ hs.nodup, fds ▸ hs.nonneg, fun f hf => ?_, stray.trans hs.stray⟩
    have := holders f hf
    have := hs.holders f hf
    rw [fds]
    omega
  | closes k o live _ held holders fds stray =>
    rw [close_of_mem (hs.mem live held)] at fds stray
    refine ⟨?_, ?_, fun f hf => ?_, stray.trans hs.stray⟩
    · rw [fds]
      exact hs.nodup.erase o.fd
    · rw [fds]
      exact fun fd hfd => hs.nonneg fd (List.mem_of_mem_erase hfd)
    · have hdrop := holders f hf
      have := hs.holders f hf
      rw [fds, List.count_erase]
      cases hof : o.fd == f
      · rw [hof, Bool.toNat_false] at hdrop
        simp only [Bool.false_eq_true, ↓reduceIte]
        omega
      · rw [hof, Bool.toNat_true] at hdrop
        simp only [↓reduceIte]
        omega

/-- A descriptor that no object stores any more is lost exactly by the operations named. -/
theorem owned_step_iff (hs : Sound s) (ho : Owned s) (h : step s op = some s') :
    Owned s' ↔ forgets s op = false := by
  have hstray := (sound_step hs h).stray
  cases effect h with
  | same quiet holders fds stray =>
    refine iff_of_true ⟨fun fd hfd => ?_, hstray⟩ quiet
    rw [fds] at hfd
    rw [holders fd (hs.nonneg fd hfd)]
    exact ho.1 fd hfd
  | opens fd quiet fresh holders fds stray =>
    obtain ⟨hpos, hnew⟩ := not_mem_of_fresh fresh
    refine iff_of_true ⟨fun f hf => ?_, hstray⟩ quiet
    rw [fds] at hf
    rcases List.mem_cons.mp hf with rfl | hf
    · have := hs.holders f hpos
      rw [List.count_eq_zero.mpr hnew] at this
      rw [holders f hpos, beq_self_eq_true, Bool.toNat_true]
      omega
    · have hne : (fd == f) = false := by
        rw [beq_eq_false_iff_ne]
        exact fun he => hnew (he ▸ hf)
      rw [holders f (hs.nonneg f hf), hne, Bool.toNat_false]
      exact ho.1 f hf
  | drops k o live flag holders fds stray =>
    rw [flag, decide_eq_false_iff_not]
    constructor
    · intro ho' hpos
      have hmem := hs.mem live hpos
      have hbefore := ho.1 o.fd hmem
      have hafter := ho'.1 o.fd (fds ▸ hmem)
      have := holders o.fd hpos
      rw [beq_self_eq_true, Bool.toNat_true] at this
      omega
    · intro hneg
      refine ⟨fun fd hfd => ?_, hstray⟩
      rw [fds] at hfd
      have hpos := hs.nonneg fd hfd
      have hne : (o.fd == fd) = false := by
        rw [beq_eq_false_iff_ne]
        omega
      have := holders fd hpos
      rw [hne, Bool.toNat_false] at this
      exact this.trans (ho.1 fd hfd)
  | closes k o live quiet held holders fds stray =>
    refine iff_of_true ⟨fun fd hfd => ?_, hstray⟩ quiet
    rw [fds, close_of_mem (hs.mem live held)] at hfd
    have hne : (o.fd == fd) = false := by
      rw [beq_eq_false_iff_ne]
      rintro rfl
      exact hs.nodup.not_mem_erase hfd
    have hmem := List.mem_of_mem_erase hfd
    have := holders fd (hs.nonneg fd hmem)
    rw [hne, Bool.toNat_false] at this
    exact this.trans (ho.1 fd hmem)

theorem sound_init : Sound .init := by
  refine ⟨List.nodup_nil, nofun, fun f _ => ?_, rfl⟩
  exact Nat.zero_le _

/-- Every open descriptor is stored in exactly one live object, in every state of a run, if and only if no
object that holds a descriptor is assigned to, and no `::connect` or `::bind` fails on one. No descriptor is
closed twice in any run. -/
theorem descriptors_owned_iff {ops : List Op} (hrun : Transition.run step .init ops = some s) :
    ((∀ ops₁ s₁, ops₁ <+: ops → Transition.run step .init ops₁ = some s₁ → Owned s₁) ↔
      Transition.Along step (fun s op => forgets s op = false) .init ops) ∧ s.stray = [] := by
  have hinit : Owned .init := ⟨nofun, rfl⟩
  constructor
  · exact Transition.reached_iff_along_of step (fun _ _ _ hs _ h => sound_step hs h)
      (fun _ _ _ hs ho h => owned_step_iff hs ho h) sound_init hinit hrun
  · exact (Transition.run_preserves step (fun _ _ _ hs h => sound_step hs h) hrun sound_init).stray

end Runs

namespace Sample

/-- A vector of two listening sockets, as `tcp_server::start` fills it, and a client that connects. -/
def listeners : List Op :=
  [.create (some 3), .bind 0 [] 80 (.options .done true), .copy 0, .destroy 0,
    .create (some 4), .bind 2 [] 81 (.options .done true), .copy 2, .destroy 2,
    .plain, .assign 4 1, .accept 4 (.accepted 7 [49] 5000 .done), .assign 1 4, .destroy 5]

end Sample

theorem descriptors_owned_listeners :
    ∃ s, Transition.run step .init Sample.listeners = some s ∧ s.openFds = [4, 3] ∧ Owned s := by
  have hrun : Transition.run step .init Sample.listeners = some _ := rfl
  exact ⟨_, hrun, rfl, (descriptors_owned_iff hrun).1.mpr (by decide) _ _ List.prefix_rfl hrun⟩

/-- The descriptor of the target of an assignment, and the one of a socket that cannot connect, stay open
and belong to nobody. -/
theorem descriptors_leaked :
    (∃ s, Transition.run step .init [.create (some 3), .create (some 4), .assign 0 1] = some s ∧
      s.openFds = [4, 3] ∧ s.holders 3 = 0 ∧ ¬Owned s) ∧
    ∃ s, Transition.run step .init [.create (some 3), .connect 0 [] 80 .failed, .destroy 0] = some s ∧
      s.openFds = [3] ∧ s.objects = [none] ∧ ¬Owned s := by
  refine ⟨⟨_, rfl, rfl, rfl, fun h => ?_⟩, _, rfl, rfl, rfl, fun h => ?_⟩
  · exact absurd (h.1 3 (by decide)) (by decide)
  · exact absurd (h.1 3 (by decide)) (by decide)

end Dcl.Net
