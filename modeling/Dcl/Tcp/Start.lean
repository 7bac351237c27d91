import Dcl.Foundations.Transition
import Dcl.Net.Sockets

/-! # Starting and stopping the server

`start`, `stop` and `is_running` of `src/dcl/tcp_server.cpp`, over the sockets and the thread objects of the
server. `start` clears the stop flag before it resolves and binds the addresses and creates the threads; an
exception on the way leaves the flag as it is. From then on every `start` returns at once, and `stop` joins a
thread that was never created.

* `Server`: the flag, the listening sockets and what became of each thread.
* `StartAnswers`: what the system answers to the calls of one `start`.
* `Server.call`: one call of the user; a call whose behaviour is undefined leads nowhere.

What the threads do once they run is the subject of `Dcl.Tcp.Server`; `pthread_join` returns when they have
come to their end. -/
namespace Dcl.Tcp
set_option autoImplicit false

/-! ## Threads -/

/-- What became of a `thread` object: no `pthread_create` yet, created, or joined. -/
inductive ThreadState where
  | fresh
  | running
  | joined
  deriving DecidableEq

/-- What `pthread_create` returns. -/
inductive CreateResult where
  | created
  | eagain
  | einval
  | eperm
  | unknown

/-- `thread::start`. -/
def createThread : CreateResult → Except Net.Fault ThreadState
  | .created => .ok .running
  | .eagain => .error (.thrown (ascii ("The system lacked the necessary resources to create another thread, or " ++
      "the system-imposed limit on the total number of threads in a process would be exceeded")))
  | .einval => .error (.thrown (ascii "Can't create detached thread"))
  | .eperm => .error (.thrown (ascii ("The caller does not have appropriate permission to set the required " ++
      "scheduling parameters or scheduling policy")))
  | .unknown => .error (.thrown (ascii "pthread_create() fails by unknown error"))

/-- `thread::wait_for`: `pthread_join` is defined for a thread that was created and not joined. -/
def joinThread : ThreadState → Except Net.Fault ThreadState
  | .running => .ok .joined
  | _ => .error .undefined

/-! ## The server -/

structure Server where
  isStopped : Bool
  listenSockets : List Net.Socket
  workers : List ThreadState
  listener : ThreadState
  deriving DecidableEq

/-- The constructor. -/
def Server.new (workerThreads : ℕ) : Server := ⟨true, [], List.replicate workerThreads .fresh, .fresh⟩

/-- What the system answers while one address is set up. -/
structure AddressAnswers where
  socket : Option ℕ
  host : Net.HostEntry
  bind : Net.BindResult

/-- The pass of the loop for one address: `tcp_socket s; s.bind(*i);`. -/
def listenOn (addr : Bytes) (answers : AddressAnswers) : Except Net.Fault Net.Socket :=
  match answers.socket with
  | none => .error (.thrown (ascii "can't create socket"))
  | some fd =>
      match Net.SocketAddress.parse addr answers.host with
      | .error e => .error e
      | .ok address =>
          match ({ Net.Socket.new with fd := fd } : Net.Socket).bind address.addresses address.port answers.bind with
          | (s, .ok ()) => .ok s
          | (_, .error message) => .error (.thrown (ascii message))

/-- The loop over the addresses; `opened` are the sockets pushed back so far. -/
def openListeners (answers : ℕ → AddressAnswers) :
    List Bytes → List Net.Socket → List Net.Socket × Except Net.Fault Unit
  | [], opened => (opened, .ok ())
  | addr :: addrs, opened =>
      match listenOn addr (answers opened.length) with
      | .error e => (opened, .error e)
      | .ok s => openListeners answers addrs (opened ++ [s])

/-- The loop over the working threads, from the thread `k` on. -/
def startWorkers (answers : ℕ → CreateResult) :
    List ThreadState → ℕ → List ThreadState × Except Net.Fault Unit
  | [], _ => ([], .ok ())
  | t :: ts, k =>
      match createThread (answers k) with
      | .error e => (t :: ts, .error e)
      | .ok t' => ((t' :: (startWorkers answers ts (k + 1)).1), (startWorkers answers ts (k + 1)).2)

structure StartAnswers where
  address : ℕ → AddressAnswers
  worker : ℕ → CreateResult
  listener : CreateResult

namespace Server

def start (s : Server) (bind : Bytes) (answers : StartAnswers) : Server × Except Net.Fault Unit :=
  if s.isStopped = false then (s, .ok ())
  else
    let opened := openListeners answers.address (tokenize bind (ascii ",;")) []
    let s := { s with isStopped := false, listenSockets := opened.1 }
    match opened.2 with
    | .error e => (s, .error e)
    | .ok () =>
        let started := startWorkers answers.worker s.workers 0
        let s := { s with workers := started.1 }
        match started.2 with
        | .error e => (s, .error e)
        | .ok () =>
            match createThread answers.listener with
            | .error e => (s, .error e)
            | .ok t => ({ s with listener := t }, .ok ())

def stop (s : Server) : Except Net.Fault Server :=
  if s.isStopped then .ok s
  else
    match joinThread s.listener with
    | .error e => .error e
    | .ok listener => (s.workers.mapM joinThread).map fun workers => ⟨true, [], workers, listener⟩

def isRunning (s : Server) : Bool := !s.isStopped

end Server

/-! ## Calls of the user -/

inductive ServerCall where
  | start (bind : Bytes) (answers : StartAnswers)
  | stop

def Server.call (s : Server) : ServerCall → Option Server
  | .start bind answers =>
      match s.start bind answers with
      | (_, .error .undefined) => none
      | (s', _) => some s'
  | .stop => s.stop.toOption

/-! ## What `start` can do -/

section Start
variable {s : Server} {bind : Bytes} {answers : StartAnswers}

theorem createThread_ok {r : CreateResult} {t : ThreadState} (h : createThread r = .ok t) : t = .running := by
  cases r with
  | created => exact (Except.ok.inj h).symm
  | eagain => cases h
  | einval => cases h
  | eperm => cases h
  | unknown => cases h

theorem startWorkers_ok {answers : ℕ → CreateResult} {ts : List ThreadState} {k : ℕ}
    (h : (startWorkers answers ts k).2 = .ok ()) : ∀ t ∈ (startWorkers answers ts k).1, t = .running := by
  induction ts generalizing k with
  | nil => exact nofun
  | cons t ts ih =>
    rw [startWorkers] at h ⊢
    cases hc : createThread (answers k) with
    | error e =>
      rw [hc] at h
      cases h
    | ok t' =>
      rw [hc] at h
      exact List.forall_mem_cons.mpr ⟨createThread_ok hc, ih h⟩

/-- Everything `start` can do: nothing on a server that is not stopped; else the flag is cleared, and either
every thread runs, or something was thrown (or read that is not there) and the listening thread is as it was. -/
inductive StartEffect (s : Server) : Server × Except Net.Fault Unit → Prop
  | running (flag : s.isStopped = false) : StartEffect s (s, .ok ())
  | failed (s' : Server) (e : Net.Fault) (flag : s.isStopped = true) (cleared : s'.isStopped = false)
      (listener : s'.listener = s.listener) : StartEffect s (s', .error e)
  | started (s' : Server) (flag : s.isStopped = true) (cleared : s'.isStopped = false)
      (listener : s'.listener = .running) (workers : ∀ t ∈ s'.workers, t = .running) :
      StartEffect s (s', .ok ())

theorem start_effect (s : Server) (bind : Bytes) (answers : StartAnswers) :
    StartEffect s (s.start bind answers) := by
  rw [Server.start]
  cases hs : s.isStopped with
  | false => exact .running hs
  | true =>
    simp only [Bool.true_eq_false, ↓reduceIte]
    cases (openListeners answers.address (tokenize bind (ascii ",;")) []).2 with
    | error e => exact .failed _ e hs rfl rfl
    | ok =>
      cases hworkers : (startWorkers answers.worker s.workers 0).2 with
      | error e => exact .failed _ e hs rfl rfl
      | ok =>
        cases hlistener : createThread answers.listener with
        | error e => exact .failed _ e hs rfl rfl
        | ok t => exact .started _ hs rfl (createThread_ok hlistener) (startWorkers_ok hworkers)

end Start

/-! ## After a `start` that throws -/

/-- A server that is stopped has no listening thread. -/
def Server.Quiet (s : Server) : Prop := s.isStopped = true → s.listener ≠ .running

/-- The flag says that the server runs, and it has no listening thread. -/
def Server.Stuck (s : Server) : Prop := s.isStopped = false ∧ s.listener ≠ .running

section Failed
variable {s s' : Server} {c : ServerCall}

theorem start_of_not_stopped (h : s.isStopped = false) (bind : Bytes) (answers : StartAnswers) :
    s.start bind answers = (s, .ok ()) := by rw [Server.start, if_pos h]

theorem stop_of_stuck (h : s.Stuck) : s.stop = .error .undefined := by
  rw [Server.stop, h.1]
  cases hl : s.listener with
  | running => exact absurd hl h.2
  | fresh => rfl
  | joined => rfl

theorem stop_listener (h : s.stop = .ok s') : s' = s ∨ s'.listener = .joined := by
  rw [Server.stop] at h
  cases hs : s.isStopped with
  | true =>
    rw [hs] at h
    exact .inl (Except.ok.inj h).symm
  | false =>
    rw [hs] at h
    cases hl : s.listener with
    | running =>
      rw [hl] at h
      simp only [Bool.false_eq_true, ↓reduceIte, joinThread] at h
      cases hw : s.workers.mapM joinThread with
      | error e =>
        rw [hw] at h
        cases h
      | ok workers =>
        rw [hw] at h
        obtain rfl := Except.ok.inj h
        exact .inr rfl
    | fresh =>
      rw [hl] at h
      cases h
    | joined =>
      rw [hl] at h
      cases h

theorem quiet_call (hs : s.Quiet) (h : s.call c = some s') : s'.Quiet := by
  cases c with
  | start bind answers =>
    rw [Server.call] at h
    have heffect := start_effect s bind answers
    generalize s.start bind answers = r at h heffect
    cases heffect with
    | running flag =>
      obtain rfl := Option.some.inj h
      exact hs
    | failed t e flag cleared listener =>
      cases e with
      | undefined => cases h
      | thrown message =>
        obtain rfl := Option.some.inj h
        exact fun hstopped => absurd (cleared.symm.trans hstopped) Bool.false_ne_true
    | started t flag cleared listener workers =>
      obtain rfl := Option.some.inj h
      exact fun hstopped => absurd (cleared.symm.trans hstopped) Bool.false_ne_true
  | stop =>
    rw [Server.call] at h
    cases hstop : s.stop with
    | error e =>
      rw [hstop] at h
      cases h
    | ok t =>
      rw [hstop] at h
      obtain rfl := Option.some.inj h
      rcases stop_listener hstop with rfl | hjoined
      · exact hs
      · intro _
        rw [hjoined]
        decide

/-- No call leads out of a stuck state. -/
theorem call_of_stuck (hs : s.Stuck) (h : s.call c = some s') : s' = s := by
  cases c with
  | start bind answers =>
    rw [Server.call, start_of_not_stopped hs.1] at h
    exact (Option.some.inj h).symm
  | stop =>
    rw [Server.call, stop_of_stuck hs] at h
    cases h

theorem quiet_new (workerThreads : ℕ) : (Server.new workerThreads).Quiet := fun _ => nofun

/-- Whatever was called before, a `start` that throws leaves a server that says it is running and has no
listening thread: every later `start` returns and changes nothing, `stop` joins a thread that is not there,
and no further calls lead to another state. -/
theorem failed_start_stays_running {workerThreads : ℕ} {calls : List ServerCall} {s failed : Server}
    {bind message : Bytes} {answers : StartAnswers}
    (hrun : Transition.run Server.call (Server.new workerThreads) calls = some s)
    (h : s.start bind answers = (failed, .error (.thrown message))) :
    failed.isRunning = true ∧ failed.listener ≠ .running ∧
      (∀ bind' answers', failed.start bind' answers' = (failed, .ok ())) ∧
      failed.stop = .error .undefined ∧
      ∀ calls' s', Transition.run Server.call failed calls' = some s' → s' = failed := by
  have hquiet : s.Quiet :=
    Transition.run_preserves Server.call (fun _ _ _ hq hc => quiet_call hq hc) hrun (quiet_new workerThreads)
  have hstuck : failed.Stuck := by
    have heffect := start_effect s bind answers
    rw [h] at heffect
    cases heffect with
    | failed _ _ flag cleared listener => exact ⟨cleared, listener ▸ hquiet flag⟩
  refine ⟨?_, hstuck.2, start_of_not_stopped hstuck.1, stop_of_stuck hstuck, fun calls' s' hrun' => ?_⟩
  · rw [Server.isRunning, hstuck.1]
    rfl
  · refine Transition.run_preserves Server.call (P := (· = failed)) (fun t c t' ht hc => ?_) hrun' rfl
    rw [ht] at hc
    exact call_of_stuck hstuck hc

end Failed

namespace Sample

/-- Sockets can be opened and bound, and threads created; the host of the address `unknown` is not found. -/
def startAnswers (unknown : Option ℕ) : StartAnswers where
  address k := ⟨some (4 + k), if unknown = some k then .hostNotFound else .found [], .options .done true⟩
  worker _ := .created
  listener := .created

/-- The second of two addresses was not found. -/
def failedStart : Server := ⟨false, [⟨4, [], 80⟩], [.fresh, .fresh], .fresh⟩

theorem start_second_unknown : (Server.new 2).start (ascii "*:80;nohost:81") (startAnswers (some 1)) =
    (failedStart, .error (.thrown (ascii "host 'nohost' is not found"))) := by rfl

end Sample

theorem failed_start_second_address :
    (Server.new 2).start (ascii "*:80;nohost:81") (Sample.startAnswers (some 1)) =
      (Sample.failedStart, .error (.thrown (ascii "host 'nohost' is not found"))) ∧
    Sample.failedStart.isRunning = true ∧
    Sample.failedStart.start (ascii "*:80") (Sample.startAnswers none) = (Sample.failedStart, .ok ()) := by
  have hrun : Transition.run Server.call (Server.new 2) [] = some (Server.new 2) := rfl
  obtain ⟨hrunning, -, hlater, -⟩ := failed_start_stays_running hrun Sample.start_second_unknown
  exact ⟨Sample.start_second_unknown, hrunning, hlater _ _⟩

/-- The address that starts a new server does not start one after a `start` that threw. -/
theorem start_after_failure :
    ((Server.new 2).start (ascii "*:80;nohost:81") (Sample.startAnswers (some 1))).2 =
      .error (.thrown (ascii "host 'nohost' is not found")) ∧
    ((Server.new 2).start (ascii "*:80;nohost:81") (Sample.startAnswers (some 1))).1.isRunning = true ∧
    (((Server.new 2).start (ascii "*:80;nohost:81") (Sample.startAnswers (some 1))).1.start (ascii "*:80")
      (Sample.startAnswers none)).1.listener = .fresh ∧
    ((Server.new 2).start (ascii "*:80") (Sample.startAnswers none)).1.listener = .running := by
  rw [Sample.start_second_unknown]
  exact ⟨rfl, rfl, rfl, rfl⟩

end Dcl.Tcp
