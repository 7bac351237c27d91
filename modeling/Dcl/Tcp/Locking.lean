import Dcl.Foundations.Mutex
import Dcl.Tcp.Server

/-! # `tcp_server` under `_lock`

The threads of `tcp_server` with every operation on `_lock` and `_event` as a step of its own: the I/O
thread, the workers, and any number of threads that call `stop` or `is_running`. A thread first requests
the mutex, gets it when it is free, runs its guarded section in the steps of `Dcl.Tcp.step`, and releases
the mutex in the destructor of the guard.

* `Guard`: how far a `mutex_guard` is. `Thread`: the guard of the server's own code, or a handler with the
  guard of `is_running`, which a handler may call whenever it runs.
* `pushStep`: one pass of the dispatch loop up to `_event.raise()`, which is a step of its own.
* `take` that waits gives the mutex back, as `pthread_cond_wait` does; a worker that was woken has to
  request it again.
-/
namespace Dcl.Tcp
set_option autoImplicit false

/-! ## Threads -/

inductive Tid where
  | io
  | worker (k : ℕ)
  | caller (j : ℕ)
  deriving DecidableEq

inductive Guard where
  | outside
  | requesting
  | inside
  | leaving
  deriving DecidableEq

/-- `calls locked e g`: the step `e` has called a handler, with `_lock` held if `locked`; `g` is the guard
of the handler's call of `is_running`. -/
inductive Thread (ω : Type) where
  | runs (g : Guard)
  | calls (locked : Bool) (e : Event ω) (g : Guard)

namespace Thread
variable {ω : Type}

def holds : Thread ω → Bool
  | .runs g => g == .inside || g == .leaving
  | .calls locked _ g => locked || g == .inside

def requests : Thread ω → Bool
  | .runs g => g == .requesting
  | .calls _ _ g => g == .requesting

/-- `wants`: the code of the server comes to a guard here. -/
def request (wants : Bool) : Thread ω → Option (Thread ω)
  | .runs .outside => if wants then some (.runs .requesting) else none
  | .calls locked e .outside => some (.calls locked e .requesting)
  | _ => none

def acquire : Thread ω → Option (Thread ω)
  | .runs .requesting => some (.runs .inside)
  | .calls locked e .requesting => some (.calls locked e .inside)
  | _ => none

def release : Thread ω → Option (Thread ω)
  | .runs .leaving => some (.runs .outside)
  | .calls locked e .inside => some (.calls locked e .outside)
  | _ => none

end Thread

/-- `pushed`: the I/O thread has put a request into `reqs` and has still to raise the event. `stopper`: the
thread that has set `is_stopped` and has still to raise it. -/
structure Threaded (σ ω : Type) where
  server : State σ ω
  owner : Option Tid
  threads : Tid → Thread ω
  pushed : Bool
  stopper : Option ℕ

/-- The server after `start`. -/
def Threaded.init {σ : Type} (ω : Type) (n : ℕ) (u : σ) : Threaded σ ω :=
  ⟨State.init ω n u, none, fun _ => .runs .outside, false, none⟩

/-- The options, and whether an `on_disconnect` handler is assigned. -/
structure LockConfig extends Config where
  catchDisconnect : Bool

/-! ## Steps of the server -/

section Steps
variable {σ ω : Type}

def State.wakeAll (s : State σ ω) : State σ ω := { s with workers := s.workers.map WorkerPc.wake }

/-- One pass of the dispatch loop up to the raise; the flag says whether it is to follow. -/
def pushStep (H : Handlers σ ω) (s : State σ ω) (i : ℕ) (rfds wfds : List Fd)
    (wr : WriteResult) (rd : ReadResult) (o : ω) : Option (State σ ω × Bool) :=
  match s.aReqs[i]? with
  | none => some ({ s with io := .top }, false)
  | some id => (s.heap id).bind fun rq =>
      let w := wfds.contains rq.handle
      let r := rfds.contains rq.handle
      let rfds' := rfds.filter (· != rq.handle)
      let wfds' := wfds.filter (· != rq.handle)
      (ioTurn H o s.user id rq w r wr rd).map fun t =>
        if t.threw then ({ s.turn id t with io := .catching }, false)
        else if (w || r) && t.rq.curState != .closing then
          ({ s.turn id t with
            reqs := s.reqs ++ [id]
            aReqs := s.aReqs.eraseIdx i
            io := .dispatch i rfds' wfds' }, true)
        else ({ s.turn id t with io := .dispatch (i + 1) rfds' wfds' }, false)

/-- A step of the I/O thread or of a worker, up to a raise. -/
def innerStep (cfg : Config) (H : Handlers σ ω) (s : State σ ω) : Event ω → Option (State σ ω × Bool)
  | .dispatch wr rd o =>
      match s.io with
      | .dispatch i rfds wfds => if rd.fits then pushStep H s i rfds wfds wr rd o else none
      | _ => none
  | e => (step cfg H s e).map fun s' => (s', false)

/-- Whose step it is; `stop` and its raise are moves of a thread outside the server. -/
def Event.thread : Event ω → Option Tid
  | .take k => some (.worker k)
  | .serve k _ => some (.worker k)
  | .putBack k => some (.worker k)
  | .workerCaught k => some (.worker k)
  | .wake k => some (.worker k)
  | .stop => none
  | .raise => none
  | _ => some .io

/-- The next listening socket has a connection: `connection_accept` is called. -/
def IoPc.readyListener : IoPc → Bool
  | .accepting (l :: _) rfds _ => rfds.contains l
  | _ => false

/-- The step is taken inside a guarded section. -/
def Event.locked (s : State σ ω) : Event ω → Bool
  | .checkStop => true
  | .lockScan => true
  | .scan _ => true
  | .visitListener => s.io.readyListener
  | .acceptPush => true
  | .lockDispatch => true
  | .dispatch _ _ _ => true
  | .take _ => true
  | .putBack _ => true
  | .stop => true
  | _ => false

/-- The code of thread `t` comes to a `mutex_guard`. -/
def wantsLock (s : Threaded σ ω) : Tid → Bool
  | .io =>
      match s.server.io with
      | .top => true
      | .enterScan => true
      | .accepting [] _ _ => true
      | .acceptPush _ _ _ _ => true
      | pc => pc.readyListener
  | .worker k =>
      match s.server.workers[k]? with
      | some .idle => true
      | some .woken => true
      | some (.returning _) => true
      | _ => false
  | .caller j => s.stopper != some j

def ReadResult.received : ReadResult → Bool
  | .data bs => !bs.isEmpty
  | _ => false

/-- The connection at position `i` of `a_reqs`. -/
def State.current (s : State σ ω) (i : ℕ) : Option Request := s.aReqs[i]?.bind s.heap

/-- The step calls a handler that is assigned. -/
def Event.calls (cfg : LockConfig) (H : Handlers σ ω) (s : State σ ω) : Event ω → Bool
  | .scan _ =>
      match s.io with
      | .scan i _ _ => cfg.catchDisconnect && (s.current i).any fun rq =>
          rq.curState == .closing && rq.writeBuffer.eofbit
      | _ => false
  | .accept _ _ => H.onConnect.isSome
  | .dispatch _ rd _ =>
      match s.io with
      | .dispatch i rfds _ => H.onProcessData.isSome && rd.received && (s.current i).any fun rq =>
          rfds.contains rq.handle
      | _ => false
  | .caught => cfg.catchExceptions
  | .serve _ _ => H.onProcessData.isSome
  | .workerCaught _ => cfg.catchExceptions
  | _ => false

/-! ## Moves of the threads -/

inductive Move (ω : Type) where
  | request (t : Tid)
  | acquire (t : Tid)
  | release (t : Tid)
  | act (e : Event ω)
  | call (e : Event ω)
  | done (t : Tid)
  | raisePushed
  | stop (j : ℕ)
  | isRunning (j : ℕ)
  | raiseStop (j : ℕ)

def Threaded.setThread (s : Threaded σ ω) (t : Tid) (th : Thread ω) : Threaded σ ω :=
  { s with threads := Function.update s.threads t th }

/-- Nothing but `_event.raise()` follows a push. -/
def Threaded.blocked (s : Threaded σ ω) (t : Tid) : Bool := s.pushed && t == .io

/-- `take` has come to `_event.wait()`. -/
def Event.waits (s' : State σ ω) : Event ω → Bool
  | .take k => s'.workers[k]? == some .waiting
  | _ => false

/-- The guard behind the step: the scan and the dispatch go on inside, a wait releases the mutex. -/
def Event.guardAfter (s s' : State σ ω) (e : Event ω) : Guard :=
  if e.locked s then
    if e.thread == some .io && s'.io.holdsLock then .inside
    else if e.waits s' then .outside
    else .leaving
  else .outside

def Event.guardBefore (s : State σ ω) (e : Event ω) : Guard := if e.locked s then .inside else .outside

def perform (cfg : LockConfig) (H : Handlers σ ω) (s : Threaded σ ω) (t : Tid) (e : Event ω) :
    Option (Threaded σ ω) :=
  (innerStep cfg.toConfig H s.server e).map fun r =>
    { s.setThread t (.runs (e.guardAfter s.server r.1)) with
      server := r.1
      owner := if e.waits r.1 then none else s.owner
      pushed := s.pushed || r.2 }

/-- A handler that is not assigned cannot throw. -/
def Event.possible (cfg : LockConfig) : Event ω → Bool
  | .scan throws => !throws || cfg.catchDisconnect
  | _ => true

def move (cfg : LockConfig) (H : Handlers σ ω) (s : Threaded σ ω) : Move ω → Option (Threaded σ ω)
  | .request t => ((s.threads t).request (wantsLock s t)).map fun th => s.setThread t th
  | .acquire t =>
      match s.owner with
      | none => (s.threads t).acquire.map fun th => { s.setThread t th with owner := some t }
      | some _ => none
  | .release t => (s.threads t).release.map fun th => { s.setThread t th with owner := none }
  | .act e =>
      match e.thread with
      | none => none
      | some t =>
          match s.threads t with
          | .runs g =>
              if g = e.guardBefore s.server ∧ e.calls cfg H s.server = false ∧ e.possible cfg = true ∧
                  s.blocked t = false then perform cfg H s t e
              else none
          | .calls _ _ _ => none
  | .call e =>
      match e.thread with
      | none => none
      | some t =>
          match s.threads t with
          | .runs g =>
              if g = e.guardBefore s.server ∧ e.calls cfg H s.server = true ∧ s.blocked t = false ∧
                  (innerStep cfg.toConfig H s.server e).isSome = true then
                some (s.setThread t (.calls (e.locked s.server) e .outside))
              else none
          | .calls _ _ _ => none
  | .done t =>
      match s.threads t with
      | .calls _ e .outside => perform cfg H s t e
      | _ => none
  | .raisePushed =>
      if s.pushed then some { s with server := s.server.wakeAll, pushed := false } else none
  | .stop j =>
      match s.threads (.caller j) with
      | .runs .inside =>
          let s' := s.setThread (.caller j) (.runs .leaving)
          -- a server that is stopped already is left alone
          if s.server.isStopped then some s'
          else some { s' with
            server := { s.server with isStopped := true, raising := true }
            stopper := some j }
      | _ => none
  | .isRunning j =>
      match s.threads (.caller j) with
      | .runs .inside => some (s.setThread (.caller j) (.runs .leaving))
      | _ => none
  | .raiseStop j =>
      match s.threads (.caller j) with
      | .runs .outside =>
          if s.stopper = some j then
            some { s with server := { s.server.wakeAll with raising := false }, stopper := none }
          else none
      | _ => none

end Steps

end Dcl.Tcp
