import Dcl.Foundations.Slots
import Dcl.Tcp.Server

/-! # What a step of `tcp_server` can do

A request object is in `a_reqs`, in `reqs`, held by a worker, or just accepted by the I/O thread;
`State.tally s x` counts the places where `x` occurs. `Moved` names the steps there are, with the state
each leads to; `step_moved` splits `step` into them. `Effect` says once what a step does to the objects,
the handlers' state, the log and the tally: it moves objects between places, takes a turn on one of them,
or ends one. The invariants of the other modules are read off these two. -/
namespace Dcl.Tcp
set_option autoImplicit false

section Effects
variable {σ ω : Type}

namespace State

def tally (s : State σ ω) (x : ReqId) : ℕ :=
  s.aReqs.count x + s.reqs.count x + s.held.count x + s.io.accepted.toList.count x

/-- The state has these objects, this state of the handlers, this log and this many objects. -/
structure Data (s : State σ ω) (heap : ReqId → Option Request) (user : σ) (log : List (Obs ω))
    (created : ℕ) : Prop where
  heap : s.heap = heap
  user : s.user = user
  log : s.log = log
  created : s.created = created

theorem held_wake (s : State σ ω) :
    (s.workers.map WorkerPc.wake).filterMap WorkerPc.held = s.held := by
  have hw : WorkerPc.held ∘ WorkerPc.wake = WorkerPc.held := by
    funext pc
    cases pc <;> rfl
  rw [List.filterMap_map, hw]
  rfl

theorem held_setWorker (s : State σ ω) (k : ℕ) (a b : WorkerPc) (h : s.workers[k]? = some a)
    (x : ReqId) :
    (s.setWorker k b).held.count x + a.held.toList.count x = s.held.count x + b.held.toList.count x :=
  Slots.count_filterMap_set WorkerPc.held s.workers k a b h x

end State

/-! ## The steps -/

/-- The events of the I/O thread. -/
def Event.ofIo : Event ω → Bool
  | .take _ => false
  | .serve _ _ => false
  | .putBack _ => false
  | .workerCaught _ => false
  | .wake _ => false
  | .stop => false
  | .raise => false
  | _ => true

/-- Past the overload check, before `accept`. -/
def IoPc.atAccept : IoPc → Bool
  | .acceptCall _ _ _ => true
  | _ => false

/-- What each event leads to, with what it finds: a step of the I/O thread or of a worker that moves nothing
else, and one pass, section or call of each other kind. -/
inductive Moved (H : Handlers σ ω) (s : State σ ω) : Event ω → State σ ω → Prop where
  | io {e : Event ω} (pc : IoPc) (accepted : pc.accepted = s.io.accepted) (live : s.io ≠ .died)
      (thread : e.ofIo = true) (checked : pc.atAccept = true → e = .visitListener) : Moved H s e { s with io := pc }
  | scan {i : ℕ} {rfds wfds : List Fd} {throws : Bool} {s' : State σ ω} (pc : s.io = .scan i rfds wfds)
      (pass : scanStep s i rfds wfds throws = some s') : Moved H s (.scan throws) s'
  | accept {ls rfds wfds : List Fd} {fd : Fd} {o : ω} {s' : State σ ω} (pc : s.io = .acceptCall ls rfds wfds)
      (free : s.inUse fd = false) (call : acceptStep H s ls rfds wfds fd o = some s') : Moved H s (.accept fd o) s'
  | acceptPush {ls rfds wfds : List Fd} {id : ReqId} (pc : s.io = .acceptPush ls rfds wfds id) :
      Moved H s .acceptPush { s with aReqs := s.aReqs ++ [id], io := .accepting ls rfds wfds }
  | dispatch {i : ℕ} {rfds wfds : List Fd} {wr : WriteResult} {rd : ReadResult} {o : ω} {s' : State σ ω}
      (pc : s.io = .dispatch i rfds wfds) (pass : dispatchStep H s i rfds wfds wr rd o = some s') :
      Moved H s (.dispatch wr rd o) s'
  | take {k : ℕ} {a : WorkerPc} (pc : s.workers[k]? = some a) (free : a.held = none) :
      Moved H s (.take k) (takeStep s k)
  | serve {k : ℕ} {id : ReqId} {o : ω} {s' : State σ ω} (pc : s.workers[k]? = some (.holding id))
      (call : serveStep H s k id o = some s') : Moved H s (.serve k o) s'
  | putBack {k : ℕ} {id : ReqId} (pc : s.workers[k]? = some (.returning id)) :
      Moved H s (.putBack k) { s.setWorker k .idle with aReqs := s.aReqs ++ [id] }
  | worker {e : Event ω} {k : ℕ} {a : WorkerPc} (b : WorkerPc) (pc : s.workers[k]? = some a)
      (held : a.held = b.held) (thread : e.ofIo = false) : Moved H s e (s.setWorker k b)
  | stop : Moved H s .stop { s with isStopped := true, raising := true }
  | raise : Moved H s .raise { s with raising := false, workers := s.workers.map WorkerPc.wake }

theorem step_moved {cfg : Config} {H : Handlers σ ω} {s s' : State σ ω} {e : Event ω}
    (h : step cfg H s e = some s') : Moved H s e s' := by
  unfold step at h
  cases e with
  | checkStop =>
    cases hio : s.io <;> simp only [hio, reduceCtorEq, Option.some.injEq] at h
    rw [← h]
    exact .io _ (by rw [hio]; split <;> rfl) (by simp [hio]) rfl (by split <;> simp [IoPc.atAccept])
  | lockScan =>
    cases hio : s.io <;> simp only [hio, reduceCtorEq, Option.some.injEq] at h
    rw [← h]
    exact .io _ (by rw [hio]; rfl) (by simp [hio]) rfl (by simp [IoPc.atAccept])
  | scan throws =>
    cases hio : s.io <;> simp only [hio, reduceCtorEq] at h
    exact .scan hio h
  | select r w =>
    cases hio : s.io <;> simp only [hio, reduceCtorEq] at h
    split at h
    · rw [← Option.some.inj h]
      exact .io _ (by rw [hio]; split <;> rfl) (by simp [hio]) rfl (by split <;> simp [IoPc.atAccept])
    · cases h
  | selectFails =>
    cases hio : s.io <;> simp only [hio, reduceCtorEq, Option.some.injEq] at h
    rw [← h]
    exact .io _ (by rw [hio]; rfl) (by simp [hio]) rfl (by simp [IoPc.atAccept])
  | visitListener =>
    cases hio : s.io <;> simp only [hio, reduceCtorEq] at h
    split at h
    next ls rfds wfds l ls' r w heq =>
      split at h
      · rw [← Option.some.inj h]
        exact .io _ (by rw [hio]; rfl) (by simp [hio]) rfl (fun _ => rfl)
      · rw [← Option.some.inj h]
        exact .io _ (by rw [hio]; rfl) (by simp [hio]) rfl (fun _ => rfl)
    next => cases h
  | accept fd o =>
    cases hio : s.io <;> simp only [hio, reduceCtorEq] at h
    split at h
    · cases h
    next hfree =>
      simp only [Bool.or_eq_true, not_or, Bool.not_eq_true] at hfree
      exact .accept hio hfree.1 h
  | acceptFails =>
    cases hio : s.io <;> simp only [hio, reduceCtorEq, Option.some.injEq] at h
    rw [← h]
    exact .io _ (by rw [hio]; rfl) (by simp [hio]) rfl (by simp [IoPc.atAccept])
  | acceptPush =>
    cases hio : s.io <;> simp only [hio, reduceCtorEq, Option.some.injEq] at h
    rw [← h]
    exact .acceptPush hio
  | lockDispatch =>
    cases hio : s.io <;> simp only [hio, reduceCtorEq] at h
    split at h
    next =>
      rw [← Option.some.inj h]
      exact .io _ (by rw [hio]; rfl) (by simp [hio]) rfl (by simp [IoPc.atAccept])
    next => cases h
  | dispatch wr rd o =>
    cases hio : s.io <;> simp only [hio, reduceCtorEq] at h
    split at h
    · exact .dispatch hio h
    · cases h
  | caught =>
    cases hio : s.io <;> simp only [hio, reduceCtorEq, Option.some.injEq] at h
    rw [← h]
    exact .io _ (by rw [hio]; split <;> rfl) (by simp [hio]) rfl (by split <;> simp [IoPc.atAccept])
  | take k =>
    simp only at h
    split at h
    next hk =>
      split at h
      · cases h
      · rw [← Option.some.inj h]
        exact .take hk rfl
    next hk =>
      split at h
      · cases h
      · rw [← Option.some.inj h]
        exact .take hk rfl
    next => cases h
  | serve k o =>
    simp only at h
    split at h
    next id hk => exact .serve hk h
    next => cases h
  | putBack k =>
    simp only at h
    split at h
    next id hk =>
      split at h
      · cases h
      · rw [← Option.some.inj h]
        exact .putBack hk
    next => cases h
  | workerCaught k =>
    simp only at h
    split at h
    next hk =>
      rw [← Option.some.inj h]
      exact .worker _ hk (by split <;> rfl) rfl
    next => cases h
  | wake k =>
    simp only at h
    split at h
    next hk =>
      rw [← Option.some.inj h]
      exact .worker _ hk rfl rfl
    next => cases h
  | stop =>
    simp only at h
    split at h
    · cases h
    · rw [← Option.some.inj h]
      exact .stop
  | raise =>
    simp only at h
    split at h
    · rw [← Option.some.inj h]
      exact .raise
    · cases h

/-! ## Their effects -/

/-- What the event `e` does. An object that a handler exception takes away from the thread that had
it is in no place afterwards. -/
inductive Effect (H : Handlers σ ω) (s : State σ ω) (e : Event ω) (s' : State σ ω) : Prop where
  | move (data : s'.Data s.heap s.user s.log s.created)
      (tally : ∀ x, s'.tally x = s.tally x) (died : s.io = .died → s'.io = .died)
  | accept (fd : Fd) (o : ω) (t : Turn σ ω) (event : e = .accept fd o)
      (free : s.inUse fd = false) (turn : connectTurn H o s.user s.created fd = some t)
      (data : s'.Data (Function.update s.heap s.created (some t.rq)) t.user (s.log ++ t.obs)
        (s.created + 1))
      (tally : ∀ x, s'.tally x = s.tally x + if t.threw then 0 else [s.created].count x)
      (live : s.io ≠ .died)
  | dispatch (i : ℕ) (rfds wfds : List Fd) (id : ReqId) (rq : Request) (wr : WriteResult)
      (rd : ReadResult) (o : ω) (t : Turn σ ω) (event : e = .dispatch wr rd o)
      (pc : s.io = .dispatch i rfds wfds) (active : s.aReqs[i]? = some id)
      (object : s.heap id = some rq)
      (turn : ioTurn H o s.user id rq (wfds.contains rq.handle) (rfds.contains rq.handle) wr rd =
        some t)
      (data : s'.Data (Function.update s.heap id (some t.rq)) t.user (s.log ++ t.obs) s.created)
      (tally : ∀ x, s'.tally x = s.tally x)
  | serve (k : ℕ) (id : ReqId) (rq : Request) (o : ω) (t : Turn σ ω) (event : e = .serve k o)
      (holding : s.workers[k]? = some (.holding id)) (object : s.heap id = some rq)
      (turn : processConnection H o s.user id rq = some t)
      (data : s'.Data (Function.update s.heap id (some t.rq)) t.user (s.log ++ t.obs) s.created)
      (tally : ∀ x, (s'.tally x + if t.threw then [id].count x else 0) = s.tally x)
      (died : s.io = .died → s'.io = .died)
  | disconnect (i : ℕ) (rfds wfds : List Fd) (id : ReqId) (rq : Request) (event : e = .scan false)
      (pc : s.io = .scan i rfds wfds) (active : s.aReqs[i]? = some id) (object : s.heap id = some rq)
      (closing : rq.curState = .closing) (drained : rq.writeBuffer.eofbit = true)
      (data : s'.Data (Function.update s.heap id none) s.user (s.log ++ [.disconnected id]) s.created)
      (tally : ∀ x, s'.tally x + [id].count x = s.tally x)
  | disconnectThrows (id : ReqId) (rq : Request) (active : id ∈ s.aReqs)
      (object : s.heap id = some rq) (closing : rq.curState = .closing)
      (drained : rq.writeBuffer.eofbit = true)
      (data : s'.Data s.heap s.user (s.log ++ [.disconnected id]) s.created)
      (tally : ∀ x, s'.tally x = s.tally x) (live : s.io ≠ .died) (died : s'.io = .died)

variable {H : Handlers σ ω} {e : Event ω}

/-- A step that only moves the I/O thread, and not past an accepted connection. -/
theorem effect_io (s : State σ ω) (pc : IoPc) (h : pc.accepted = s.io.accepted)
    (hd : s.io ≠ .died) : Effect H s e { s with io := pc } := by
  refine .move ⟨rfl, rfl, rfl, rfl⟩ (fun x => ?_) (fun h0 => absurd h0 hd)
  simp [State.tally, State.held, h]

/-- A step that only moves a worker, and not one that takes or gives up a connection. -/
theorem effect_worker (s : State σ ω) (k : ℕ) (a b : WorkerPc) (hk : s.workers[k]? = some a)
    (hab : a.held = b.held) : Effect H s e (s.setWorker k b) := by
  refine .move ⟨rfl, rfl, rfl, rfl⟩ (fun x => ?_) (fun h0 => h0)
  have h := s.held_setWorker k a b hk x
  rw [hab] at h
  have he : (s.setWorker k b).held.count x = s.held.count x := by omega
  simp only [State.tally, he]
  rfl

theorem effect_scan {s s' : State σ ω} {i : ℕ} {rfds wfds : List Fd} {throws : Bool}
    (hio : s.io = .scan i rfds wfds) (h : scanStep s i rfds wfds throws = some s') :
    Effect H s (.scan throws) s' := by
  have hlive : s.io ≠ .died := by simp [hio]
  unfold scanStep at h
  cases hi : s.aReqs[i]? with
  | none =>
    simp only [hi, Option.some.injEq] at h
    rw [← h]
    exact effect_io s _ (by simp [hio, IoPc.accepted]) hlive
  | some id =>
    simp only [hi, Option.map_eq_some_iff] at h
    obtain ⟨rq, hrq, h⟩ := h
    have hmem : id ∈ s.aReqs := List.mem_of_getElem? hi
    split at h
    next hclose =>
      split at h
      · rw [← h]
        refine .disconnectThrows id rq hmem hrq hclose.1 hclose.2 ⟨rfl, rfl, rfl, rfl⟩
          (fun x => ?_) hlive rfl
        simp [State.tally, State.held, hio, IoPc.accepted]
      next hthrows =>
        rw [← h]
        obtain rfl : throws = false := by simpa using hthrows
        refine .disconnect i rfds wfds id rq rfl hio hi hrq hclose.1 hclose.2 ⟨rfl, rfl, rfl, rfl⟩
          (fun x => ?_)
        have := Slots.count_eraseIdx s.aReqs i id hi x
        simp only [State.tally, State.held, hio, IoPc.accepted]
        omega
    next =>
      rw [← h]
      exact effect_io s _ (by simp [hio, IoPc.accepted]) hlive

theorem effect_accept {s s' : State σ ω} {ls rfds wfds : List Fd} {fd : Fd} {o : ω}
    (hio : s.io = .acceptCall ls rfds wfds) (hfree : s.inUse fd = false)
    (h : acceptStep H s ls rfds wfds fd o = some s') : Effect H s (.accept fd o) s' := by
  have hlive : s.io ≠ .died := by simp [hio]
  obtain ⟨t, ht, rfl⟩ := Option.map_eq_some_iff.mp h
  refine .accept fd o t rfl hfree ht ⟨rfl, rfl, rfl, rfl⟩ (fun x => ?_) hlive
  cases t.threw <;> simp [State.tally, State.held, State.turn, hio, IoPc.accepted]

theorem effect_dispatch {s s' : State σ ω} {i : ℕ} {rfds wfds : List Fd} {wr : WriteResult}
    {rd : ReadResult} {o : ω} (hio : s.io = .dispatch i rfds wfds)
    (h : dispatchStep H s i rfds wfds wr rd o = some s') :
    Effect H s (.dispatch wr rd o) s' := by
  have hlive : s.io ≠ .died := by simp [hio]
  unfold dispatchStep at h
  cases hi : s.aReqs[i]? with
  | none =>
    simp only [hi, Option.some.injEq] at h
    rw [← h]
    exact effect_io s _ (by simp [hio, IoPc.accepted]) hlive
  | some id =>
    simp only [hi, Option.bind_eq_some_iff, Option.map_eq_some_iff] at h
    obtain ⟨rq, hrq, t, ht, h⟩ := h
    split at h
    · rw [← h]
      refine .dispatch i rfds wfds id rq wr rd o t rfl hio hi hrq ht ⟨rfl, rfl, rfl, rfl⟩
        (fun x => ?_)
      simp [State.tally, State.held, State.turn, hio, IoPc.accepted]
    · split at h
      · rw [← h]
        refine .dispatch i rfds wfds id rq wr rd o t rfl hio hi hrq ht ⟨rfl, rfl, rfl, rfl⟩
          (fun x => ?_)
        -- the object goes from `a_reqs` to `reqs`
        have := Slots.count_eraseIdx s.aReqs i id hi x
        have hw := s.held_wake
        simp only [State.held] at hw
        simp only [State.tally, State.held, hio, IoPc.accepted, hw, List.count_append]
        omega
      · rw [← h]
        refine .dispatch i rfds wfds id rq wr rd o t rfl hio hi hrq ht ⟨rfl, rfl, rfl, rfl⟩
          (fun x => ?_)
        simp [State.tally, State.held, State.turn, hio, IoPc.accepted]

theorem effect_take (s : State σ ω) (k : ℕ) (pc : WorkerPc) (hk : s.workers[k]? = some pc)
    (hpc : pc.held = none) : Effect H s e (takeStep s k) := by
  unfold takeStep
  split
  · exact effect_worker s k pc .exited hk hpc
  · split
    next => exact effect_worker s k pc .waiting hk hpc
    next id rest hr =>
      refine .move ⟨rfl, rfl, rfl, rfl⟩ (fun x => ?_) (fun h0 => h0)
      -- the object goes from `reqs` to the worker
      have h := s.held_setWorker k pc (.holding id) hk x
      rw [hpc] at h
      simp only [State.tally, State.held, State.setWorker, hr, WorkerPc.held, Option.toList,
        List.count_cons, List.count_nil] at h ⊢
      omega

theorem effect_serve {s s' : State σ ω} {k : ℕ} {id : ReqId} {o : ω}
    (hk : s.workers[k]? = some (.holding id)) (h : serveStep H s k id o = some s') :
    Effect H s (.serve k o) s' := by
  obtain ⟨rq, hrq, h⟩ := Option.bind_eq_some_iff.mp h
  obtain ⟨t, ht, rfl⟩ := Option.map_eq_some_iff.mp h
  refine .serve k id rq o t rfl hk hrq ht ⟨rfl, rfl, rfl, rfl⟩ (fun x => ?_) (fun h0 => h0)
  have h := s.held_setWorker k (.holding id) (if t.threw then .catching else .returning id) hk x
  cases hthrew : t.threw with
  | true =>
    simp only [State.tally, State.held, State.turn, State.setWorker, WorkerPc.held, hthrew, if_true,
      Option.toList, List.count_nil] at h ⊢
    omega
  | false =>
    simp only [State.tally, State.held, State.turn, State.setWorker, WorkerPc.held, hthrew,
      Bool.false_eq_true, if_false] at h ⊢
    omega

theorem effect_putBack {s : State σ ω} {k : ℕ} {id : ReqId}
    (hk : s.workers[k]? = some (.returning id)) :
    Effect H s e { s.setWorker k .idle with aReqs := s.aReqs ++ [id] } := by
  refine .move ⟨rfl, rfl, rfl, rfl⟩ (fun x => ?_) (fun h0 => h0)
  have h := s.held_setWorker k (.returning id) .idle hk x
  simp only [State.tally, State.held, State.setWorker, WorkerPc.held, Option.toList,
    List.count_nil, List.count_append] at h ⊢
  omega

theorem effect_raise (s : State σ ω) :
    Effect H s e { s with raising := false, workers := s.workers.map WorkerPc.wake } := by
  refine .move ⟨rfl, rfl, rfl, rfl⟩ (fun x => ?_) (fun h0 => h0)
  have hw := s.held_wake
  simp only [State.held] at hw
  simp only [State.tally, State.held, hw]

theorem effect_acceptPush {s : State σ ω} {ls rfds wfds : List Fd} {id : ReqId}
    (hio : s.io = .acceptPush ls rfds wfds id) :
    Effect H s e { s with aReqs := s.aReqs ++ [id], io := .accepting ls rfds wfds } := by
  refine .move ⟨rfl, rfl, rfl, rfl⟩ (fun x => ?_) (fun h0 => by simp [hio] at h0)
  simp only [State.tally, State.held, hio, IoPc.accepted, Option.toList, List.count_append,
    List.count_nil]
  omega

theorem step_effect {cfg : Config} {H : Handlers σ ω} {s s' : State σ ω} {e : Event ω}
    (h : step cfg H s e = some s') : Effect H s e s' := by
  cases step_moved h with
  | io pc accepted live => exact effect_io s pc accepted live
  | scan pc pass => exact effect_scan pc pass
  | accept pc free call => exact effect_accept pc free call
  | acceptPush pc => exact effect_acceptPush pc
  | dispatch pc pass => exact effect_dispatch pc pass
  | take pc free => exact effect_take s _ _ pc free
  | serve pc call => exact effect_serve pc call
  | putBack pc => exact effect_putBack pc
  | worker b pc held => exact effect_worker s _ _ b pc held
  | stop => exact .move ⟨rfl, rfl, rfl, rfl⟩ (fun x => rfl) (fun h0 => h0)
  | raise => exact effect_raise s

/-! ## Numbers of objects -/

/-- Every object and everything that was observed has a number that was given out. -/
structure Numbered (s : State σ ω) : Prop where
  heap : ∀ (id : ℕ) rq, s.heap id = some rq → id < s.created
  log : ∀ x ∈ s.log, ∀ id : ℕ, x.conn = id → id < s.created

theorem numbered_init (n : ℕ) (u : σ) : Numbered (State.init ω n u) :=
  ⟨fun id rq h => by simp [State.init] at h, fun x h => by simp [State.init] at h⟩

theorem Numbered.turn {s s' : State σ ω} (hs : Numbered s) {id : ℕ} {t : Turn σ ω} {c : ℕ}
    (ht : t.Reports id)
    (hd : s'.Data (Function.update s.heap id (some t.rq)) t.user (s.log ++ t.obs) c)
    (hle : s.created ≤ c) (hid : id < c) : Numbered s' := by
  refine ⟨fun x rq h => ?_, fun x hx y hy => ?_⟩
  · rw [hd.created]
    by_cases hx : x = id
    · exact hx ▸ hid
    · rw [hd.heap, Function.update_of_ne hx] at h
      exact lt_of_lt_of_le (hs.heap x rq h) hle
  · rw [hd.created]
    rw [hd.log, List.mem_append] at hx
    obtain hx | hx := hx
    · exact lt_of_lt_of_le (hs.log x hx y hy) hle
    · rw [← hy, (ht x hx).1]
      exact hid

theorem Numbered.snoc {s s' : State σ ω} (hs : Numbered s) {id : ℕ} (hid : id < s.created)
    (hheap : ∀ x rq, s'.heap x = some rq → s.heap x = some rq)
    (hlog : s'.log = s.log ++ [.disconnected id]) (hc : s'.created = s.created) : Numbered s' := by
  refine ⟨fun x rq h => hc ▸ hs.heap x rq (hheap x rq h), fun x hx y hy => ?_⟩
  rw [hlog, List.mem_append, List.mem_singleton] at hx
  obtain hx | rfl := hx
  · exact hc ▸ hs.log x hx y hy
  · rw [← hy, hc]
    exact hid

theorem numbered_step {cfg : Config} (s : State σ ω) (e : Event ω) (s' : State σ ω)
    (hs : Numbered s) (h : step cfg H s e = some s') : Numbered s' := by
  cases step_effect h with
  | move data => exact ⟨data.heap ▸ data.created ▸ hs.heap, data.log ▸ data.created ▸ hs.log⟩
  | accept fd o t _ _ turn data =>
    exact hs.turn (connectTurn_reports turn) data (Nat.le_succ _) (Nat.lt_succ_self _)
  | dispatch _ _ _ id rq _ _ _ t _ _ _ object turn data =>
    exact hs.turn (ioTurn_reports turn) data le_rfl (hs.heap id rq object)
  | serve _ id rq _ t _ _ object turn data =>
    exact hs.turn (processConnection_reports turn) data le_rfl (hs.heap id rq object)
  | disconnect _ _ _ id rq _ _ _ object _ _ data =>
    refine hs.snoc (hs.heap id rq object) (fun x rx hx => ?_) data.log data.created
    by_cases hxi : x = id
    · simp [data.heap, hxi] at hx
    · rwa [data.heap, Function.update_of_ne hxi] at hx
  | disconnectThrows id rq _ object _ _ data =>
    exact hs.snoc (hs.heap id rq object) (fun x rx hx => data.heap ▸ hx) data.log data.created

/-! ## Descriptors -/

/-- Live connections have different descriptors. -/
def Distinct (s : State σ ω) : Prop :=
  ∀ i j rq rq', s.heap i = some rq → s.heap j = some rq' → rq.handle = rq'.handle → i = j

theorem State.not_inUse {s : State σ ω} (hs : Numbered s) {fd : Fd} (h : s.inUse fd = false)
    (id : ℕ) (rq : Request) (hrq : s.heap id = some rq) : rq.handle ≠ fd := by
  intro heq
  have : s.inUse fd = true := by
    rw [State.inUse, List.any_eq_true]
    exact ⟨id, List.mem_range.mpr (hs.heap id rq hrq), by simp [hrq, heq]⟩
  simp [h] at this

theorem Distinct.turn {s s' : State σ ω} (hs : Distinct s) {id : ReqId} {rq rq' : Request}
    (hrq : s.heap id = some rq) (hfd : rq'.handle = rq.handle)
    (hheap : s'.heap = Function.update s.heap id (some rq')) : Distinct s' := by
  -- every object of `s'` has the descriptor it had in `s`
  have hold : ∀ i q, s'.heap i = some q → ∃ p, s.heap i = some p ∧ p.handle = q.handle := by
    intro i q hq
    rw [hheap] at hq
    by_cases hi : i = id
    · subst hi
      rw [Function.update_self, Option.some.injEq] at hq
      exact ⟨rq, hrq, by rw [← hq, hfd]⟩
    · rw [Function.update_of_ne hi] at hq
      exact ⟨q, hq, rfl⟩
  intro i j q q' hq hq' heq
  obtain ⟨p, hp, hpq⟩ := hold i q hq
  obtain ⟨p', hp', hpq'⟩ := hold j q' hq'
  exact hs i j p p' hp hp' (by rw [hpq, hpq', heq])

theorem distinct_step {cfg : Config} {s : State σ ω} {e : Event ω} {s' : State σ ω}
    (hn : Numbered s) (hs : Distinct s) (h : step cfg H s e = some s') : Distinct s' := by
  cases step_effect h with
  | move data => exact fun i j rq rq' hi hj => hs i j rq rq' (data.heap ▸ hi) (data.heap ▸ hj)
  | accept fd o t _ free turn data =>
    have hfd := connectTurn_handle turn
    have hfree := State.not_inUse hn free
    intro i j q q' hq hq' heq
    rw [data.heap] at hq hq'
    by_cases hi : i = s.created
    · by_cases hj : j = s.created
      · rw [hi, hj]
      · rw [hi, Function.update_self, Option.some.injEq] at hq
        rw [Function.update_of_ne hj] at hq'
        exact absurd (by rw [← heq, ← hq, hfd]) (hfree j q' hq')
    · rw [Function.update_of_ne hi] at hq
      by_cases hj : j = s.created
      · rw [hj, Function.update_self, Option.some.injEq] at hq'
        exact absurd (by rw [heq, ← hq', hfd]) (hfree i q hq)
      · rw [Function.update_of_ne hj] at hq'
        exact hs i j q q' hq hq' heq
  | dispatch _ _ _ id rq _ _ _ t _ _ _ object turn data =>
    exact hs.turn object (ioTurn_handle turn) data.heap
  | serve _ id rq _ t _ _ object turn data =>
    exact hs.turn object (processConnection_handle turn) data.heap
  | disconnect _ _ _ id rq _ _ _ _ _ _ data =>
    have hold : ∀ i q, s'.heap i = some q → s.heap i = some q := by
      intro i q hq
      rw [data.heap] at hq
      by_cases hi : i = id
      · simp [hi] at hq
      · rwa [Function.update_of_ne hi] at hq
    exact fun i j q q' hq hq' => hs i j q q' (hold i q hq) (hold j q' hq')
  | disconnectThrows _ _ _ _ _ _ data =>
    exact fun i j rq rq' hi hj => hs i j rq rq' (data.heap ▸ hi) (data.heap ▸ hj)

end Effects

end Dcl.Tcp
