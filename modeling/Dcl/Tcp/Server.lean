import Dcl.Foundations.Transition
import Dcl.Tcp.Connection

/-! # `tcp_server`: the I/O thread and the worker threads

`io_process`, `connection_accept`, `disconnect_client`, `working_process` and `stop` of
`src/dcl/tcp_server.cpp` as one transition system. The I/O thread holds `_lock` over a whole scan or
dispatch loop, so its program counter says whether the lock is free; every locked section of a
worker is one step. Each step is one pass of a loop, one locked section or one handler call.

* `IoPc`, `WorkerPc`: where a thread is, with the request object it holds.
* `Event`: which thread moves, with everything the environment decides.
* `step`: the transition function; an event that is not possible leads nowhere.
* `State.log`: what happened to each connection, in order. It is read by no step.

Left out: `listen()` before the loop, the `timeval`, and `_timeout`, `last_state` and `last_access`,
which no live code reads. -/
namespace Dcl.Tcp
set_option autoImplicit false

/-- The server's options, and whether an exception handler is assigned. -/
structure Config where
  queueSize : ℕ
  listeners : List Fd
  catchExceptions : Bool

/-! ## Program counters -/

/-- `io_process`. `ls` are the listening sockets still to visit in this round, `rfds` and `wfds` the
descriptor sets. -/
inductive IoPc where
  | top
  | enterScan
  | scan (i : ℕ) (rfds wfds : List Fd)
  | selecting (rfds wfds : List Fd)
  | accepting (ls : List Fd) (rfds wfds : List Fd)
  | acceptCall (ls : List Fd) (rfds wfds : List Fd)
  | acceptPush (ls : List Fd) (rfds wfds : List Fd) (id : ReqId)
  | dispatch (i : ℕ) (rfds wfds : List Fd)
  | catching
  | finished
  | died

def IoPc.holdsLock : IoPc → Bool
  | .scan _ _ _ => true
  | .dispatch _ _ _ => true
  | _ => false

/-- The connection the I/O thread has accepted and not yet put into `a_reqs`. -/
def IoPc.accepted : IoPc → Option ReqId
  | .acceptPush _ _ _ id => some id
  | _ => none

inductive WorkerPc where
  | idle
  | waiting
  | woken
  | holding (id : ReqId)
  | returning (id : ReqId)
  | catching
  | exited
  deriving DecidableEq

/-- The connection a worker has taken from `reqs` and not yet put back. -/
def WorkerPc.held : WorkerPc → Option ReqId
  | .holding id => some id
  | .returning id => some id
  | _ => none

/-- `_event.raise()` as seen by one worker. -/
def WorkerPc.wake : WorkerPc → WorkerPc
  | .waiting => .woken
  | pc => pc

/-! ## State -/

/-- `created` counts the request objects made so far; `raising` is set while `stop` has still to
raise the event. -/
structure State (σ ω : Type) where
  isStopped : Bool
  raising : Bool
  aReqs : List ReqId
  reqs : List ReqId
  heap : ReqId → Option Request
  created : ℕ
  io : IoPc
  workers : List WorkerPc
  user : σ
  log : List (Obs ω)

/-- The server after `start`: `n` workers, no connection. -/
def State.init {σ : Type} (ω : Type) (n : ℕ) (u : σ) : State σ ω :=
  ⟨false, false, [], [], fun _ => none, 0, .top, List.replicate n .idle, u, []⟩

namespace State
variable {σ ω : Type}

def held (s : State σ ω) : List ReqId := s.workers.filterMap WorkerPc.held

def turn (s : State σ ω) (id : ReqId) (t : Turn σ ω) : State σ ω :=
  { s with heap := Function.update s.heap id (some t.rq), user := t.user, log := s.log ++ t.obs }

def setWorker (s : State σ ω) (k : ℕ) (pc : WorkerPc) : State σ ω :=
  { s with workers := s.workers.set k pc }

def inUse (s : State σ ω) (fd : Fd) : Bool :=
  (List.range s.created).any fun id => (s.heap id).any fun rq => rq.handle == fd

end State

/-! ## Events -/

inductive Event (ω : Type) where
  | checkStop
  | lockScan
  | scan (throws : Bool)
  | select (rfds wfds : List Fd)
  | selectFails
  | visitListener
  | accept (fd : Fd) (o : ω)
  | acceptFails
  | acceptPush
  | lockDispatch
  | dispatch (wr : WriteResult) (rd : ReadResult) (o : ω)
  | caught
  | take (k : ℕ)
  | serve (k : ℕ) (o : ω)
  | putBack (k : ℕ)
  | workerCaught (k : ℕ)
  | wake (k : ℕ)
  | stop
  | raise

section Steps
variable {σ ω : Type}

/-! ## `io_process` -/

/-- One pass of the disconnect scan. `throws`: the `on_disconnect` handler throws, which leaves
`io_process` because the scan is outside its `try` block. -/
def scanStep (s : State σ ω) (i : ℕ) (rfds wfds : List Fd) (throws : Bool) : Option (State σ ω) :=
  match s.aReqs[i]? with
  | none => some { s with io := .selecting rfds wfds }
  | some id => (s.heap id).map fun rq =>
      if rq.curState = .closing ∧ rq.writeBuffer.eofbit = true then
        if throws then { s with io := .died, log := s.log ++ [.disconnected id] }
        else { s with
          aReqs := s.aReqs.eraseIdx i
          heap := Function.update s.heap id none
          log := s.log ++ [.disconnected id] }
      else { s with
        io := .scan (i + 1) (rq.handle :: rfds)
          (if rq.writeBuffer.eofbit then wfds else rq.handle :: wfds) }

/-- The part of `connection_accept` after the overload check: a descriptor from the OS, a request
object, the `on_connect` handler. -/
def acceptStep (H : Handlers σ ω) (s : State σ ω) (ls rfds wfds : List Fd) (fd : Fd) (o : ω) :
    Option (State σ ω) :=
  (connectTurn H o s.user s.created fd).map fun t =>
    { s.turn s.created t with
      created := s.created + 1
      io := if t.threw then .catching else .acceptPush ls rfds wfds s.created }

/-- `socket::read` delivers at most one buffer. -/
def ReadResult.fits : ReadResult → Bool
  | .data bs => bs.length ≤ ioBufSize
  | _ => true

def dispatchStep (H : Handlers σ ω) (s : State σ ω) (i : ℕ) (rfds wfds : List Fd)
    (wr : WriteResult) (rd : ReadResult) (o : ω) : Option (State σ ω) :=
  match s.aReqs[i]? with
  | none => some { s with io := .top }
  | some id => (s.heap id).bind fun rq =>
      let w := wfds.contains rq.handle
      let r := rfds.contains rq.handle
      let rfds' := rfds.filter (· != rq.handle)
      let wfds' := wfds.filter (· != rq.handle)
      (ioTurn H o s.user id rq w r wr rd).map fun t =>
        if t.threw then { s.turn id t with io := .catching }
        else if (w || r) && t.rq.curState != .closing then
          { s.turn id t with
            reqs := s.reqs ++ [id]
            aReqs := s.aReqs.eraseIdx i
            io := .dispatch i rfds' wfds'
            workers := s.workers.map WorkerPc.wake }
        else { s.turn id t with io := .dispatch (i + 1) rfds' wfds' }

/-! ## `working_process` -/

/-- The first locked section: wait, leave, or take the next connection. -/
def takeStep (s : State σ ω) (k : ℕ) : State σ ω :=
  if s.isStopped then s.setWorker k .exited
  else match s.reqs with
    | [] => s.setWorker k .waiting
    | id :: rest => { s.setWorker k (.holding id) with reqs := rest }

def serveStep (H : Handlers σ ω) (s : State σ ω) (k : ℕ) (id : ReqId) (o : ω) : Option (State σ ω) :=
  (s.heap id).bind fun rq => (processConnection H o s.user id rq).map fun t =>
    (s.turn id t).setWorker k (if t.threw then .catching else .returning id)

/-! ## The system -/

def step (cfg : Config) (H : Handlers σ ω) (s : State σ ω) : Event ω → Option (State σ ω)
  | .checkStop =>
      match s.io with
      | .top => some { s with io := if s.isStopped then .finished else .enterScan }
      | _ => none
  | .lockScan =>
      match s.io with
      | .enterScan => some { s with io := .scan 0 cfg.listeners [] }
      | _ => none
  | .scan throws =>
      match s.io with
      | .scan i rfds wfds => scanStep s i rfds wfds throws
      | _ => none
  | .select r w =>
      match s.io with
      | .selecting rfds wfds =>
          if r.all rfds.contains && w.all wfds.contains then
            some { s with io := if r.isEmpty && w.isEmpty then .top else .accepting cfg.listeners r w }
          else none
      | _ => none
  | .selectFails =>
      match s.io with
      | .selecting _ _ => some { s with io := .died }
      | _ => none
  | .visitListener =>
      match s.io with
      | .accepting (l :: ls) rfds wfds =>
          if rfds.contains l && s.aReqs.length ≤ cfg.queueSize then
            some { s with io := .acceptCall ls (rfds.filter (· != l)) wfds }
          else some { s with io := .accepting ls (rfds.filter (· != l)) wfds }
      | _ => none
  | .accept fd o =>
      match s.io with
      | .acceptCall ls rfds wfds =>
          if s.inUse fd || cfg.listeners.contains fd then none
          else acceptStep H s ls rfds wfds fd o
      | _ => none
  | .acceptFails =>
      match s.io with
      | .acceptCall _ _ _ => some { s with io := .catching }
      | _ => none
  | .acceptPush =>
      match s.io with
      | .acceptPush ls rfds wfds id =>
          some { s with aReqs := s.aReqs ++ [id], io := .accepting ls rfds wfds }
      | _ => none
  | .lockDispatch =>
      match s.io with
      | .accepting [] rfds wfds => some { s with io := .dispatch 0 rfds wfds }
      | _ => none
  | .dispatch wr rd o =>
      match s.io with
      | .dispatch i rfds wfds =>
          if rd.fits then dispatchStep H s i rfds wfds wr rd o else none
      | _ => none
  | .caught =>
      match s.io with
      | .catching => some { s with io := if cfg.catchExceptions then .top else .died }
      | _ => none
  | .take k =>
      match s.workers[k]? with
      | some .idle => if s.io.holdsLock then none else some (takeStep s k)
      | some .woken => if s.io.holdsLock then none else some (takeStep s k)
      | _ => none
  | .serve k o =>
      match s.workers[k]? with
      | some (.holding id) => serveStep H s k id o
      | _ => none
  | .putBack k =>
      match s.workers[k]? with
      | some (.returning id) =>
          if s.io.holdsLock then none
          else some { s.setWorker k .idle with aReqs := s.aReqs ++ [id] }
      | _ => none
  | .workerCaught k =>
      match s.workers[k]? with
      | some .catching => some (s.setWorker k (if cfg.catchExceptions then .idle else .exited))
      | _ => none
  | .wake k =>
      match s.workers[k]? with
      | some .waiting => some (s.setWorker k .woken)
      | _ => none
  | .stop =>
      if s.io.holdsLock || s.isStopped then none
      else some { s with isStopped := true, raising := true }
  | .raise =>
      if s.raising then some { s with raising := false, workers := s.workers.map WorkerPc.wake }
      else none

end Steps

/-! ## Rounds of a small server

One listening socket, 3, and handlers that read everything, write what their input says and answer
what it says. The rounds below start and end at the top of the event loop. -/

namespace Sample

def config : Config := ⟨8, [3], true⟩

abbrev Answer := Bytes × Option Bool

def answer : Handler Unit Answer := fun o u _ inp => some (⟨inp.seekgEnd, o.1, o.2⟩, u)

def handlers : Handlers Unit Answer := ⟨some answer, some answer⟩

variable {ω : Type}

def acceptRound (fd : Fd) (o : ω) : List (Event ω) :=
  [.checkStop, .lockScan, .scan false, .select [3] [], .visitListener, .accept fd o, .acceptPush,
    .lockDispatch, .dispatch .notReady .notReady o, .dispatch .notReady .notReady o]

def readRound (fd : Fd) (rd : ReadResult) (o : ω) : List (Event ω) :=
  [.checkStop, .lockScan, .scan false, .scan false, .select [fd] [], .visitListener, .lockDispatch,
    .dispatch .notReady rd o, .dispatch .notReady .notReady o]

def writeRound (fd : Fd) (wr : WriteResult) (o : ω) : List (Event ω) :=
  [.checkStop, .lockScan, .scan false, .scan false, .select [] [fd], .visitListener, .lockDispatch,
    .dispatch wr .notReady o, .dispatch .notReady .notReady o]

def workerRound (o : ω) : List (Event ω) := [.take 0, .serve 0 o, .putBack 0]

def closeRound : List (Event ω) := [.checkStop, .lockScan, .scan false]

end Sample

end Dcl.Tcp
