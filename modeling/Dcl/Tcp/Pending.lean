import Dcl.Tcp.Buffers
import Dcl.Tcp.Limit
import Dcl.Tcp.Refinement

/-! # Handler calls in progress

A thread of `tcp_server` that has called a handler goes on with the same step when the call ends, whatever
the other threads have done meanwhile. `Due` says that nothing is missing for that step; the other threads
leave it so. `Coherent` ties the guard of a thread and the call it has made to the place its code has come
to, and `Sound` is what holds in every state of the threads. -/
namespace Dcl.Tcp
set_option autoImplicit false

/-! ## Calls that end -/

section Returns
variable {σ ω : Type} {cfg : LockConfig} {H : Handlers σ ω}

/-- Every call ends, by a return or by an exception. -/
def Handler.Returns (f : Handler σ ω) : Prop := ∀ o u c inp, (f o u c inp).isSome = true

def Handlers.Return (H : Handlers σ ω) : Prop :=
  (∀ f ∈ H.onConnect, f.Returns) ∧ ∀ f ∈ H.onProcessData, f.Returns

theorem Handler.Returns.call {f : Handler σ ω} (hf : f.Returns) (o : ω) (u : σ) (id : ReqId)
    (rq : Request) : (callHandler f o u id rq).isSome = true := by
  rw [callHandler, Option.isSome_map]
  exact hf _ _ _ _

theorem connectTurn_isSome (hreturn : H.Return) (o : ω) (u : σ) (id : ReqId) (fd : Fd) :
    (connectTurn H o u id fd).isSome = true := by
  unfold connectTurn
  split
  · rfl
  case h_2 f hf =>
    rw [Option.isSome_map]
    exact (hreturn.1 f hf).call o u id _

theorem processConnection_isSome (hreturn : H.Return) (o : ω) (u : σ) (id : ReqId) (rq : Request) :
    (processConnection H o u id rq).isSome = true := by
  unfold processConnection
  split
  · rfl
  case h_2 f hf =>
    rw [Option.isSome_map]
    exact (hreturn.2 f hf).call o u id rq

theorem connectionRead_isSome (hreturn : H.Return) (o : ω) (u : σ) (id : ReqId) (rq : Request)
    (rd : ReadResult) : (connectionRead H o u id rq rd).isSome = true := by
  unfold connectionRead
  split
  · rfl
  case h_2 f hf =>
    cases rd with
    | ioError => rfl
    | notReady => rfl
    | data bs =>
      dsimp only
      split
      · rfl
      · rw [Option.isSome_map]
        exact (hreturn.2 f hf).call o u id _

/-- The write is defined, and the socket does not take more than it is given. -/
def Request.Writes (rq : Request) (wr : WriteResult) : Prop :=
  (connectionWrite Unit () 0 rq wr).isSome = true

theorem connectionWrite_isSome (ω : Type) (u : σ) (id : ReqId) (rq : Request) (wr : WriteResult) :
    (connectionWrite ω u id rq wr).isSome = true ↔ rq.Writes wr := by
  unfold Request.Writes connectionWrite
  dsimp only
  split_ifs <;> first | rfl | skip
  cases wr with
  | ioError => rfl
  | notReady => rfl
  | wrote n =>
    dsimp only
    split_ifs <;> rfl

/-- A buffer whose size fits an `int` can be offered to the socket. -/
theorem writes_notReady {rq : Request} (hsize : rq.writeBuffer.data.length < 2 ^ 31) :
    rq.Writes .notReady := by
  unfold Request.Writes
  cases he : rq.writeBuffer.eofbit with
  | true => simp only [connectionWrite, he, if_true, Option.isSome_some]
  | false =>
    cases hf : rq.writeBuffer.fail with
    | true =>
      rw [connectionWrite_failed he hf]
      rfl
    | false =>
      simp only [StringStream.fail, Bool.or_eq_false_iff] at hf
      rw [connectionWrite_good (StringStream.good_iff.mpr ⟨he, hf⟩) hsize]
      dsimp only
      split <;> rfl

theorem ioTurn_isSome_iff (hreturn : H.Return) (o : ω) (u : σ) (id : ReqId) (rq : Request) (w r : Bool)
    (wr : WriteResult) (rd : ReadResult) :
    (ioTurn H o u id rq w r wr rd).isSome = true ↔ (w = true → rq.Writes wr) := by
  have hread (t : Turn σ ω) : (if r then (connectionRead H o t.user id t.rq rd).map fun t' =>
      { t' with obs := t.obs ++ t'.obs } else some t).isSome = true := by
    split
    · rw [Option.isSome_map]
      exact connectionRead_isSome hreturn _ _ _ _ _
    · rfl
  unfold ioTurn
  rw [Option.isSome_bind, Option.any_eq_true]
  constructor
  · rintro ⟨t, ht, -⟩ hw
    rw [if_pos hw] at ht
    exact (connectionWrite_isSome ω u id rq wr).mp (Option.isSome_iff_exists.mpr ⟨t, ht⟩)
  · intro hwrites
    cases w with
    | false => exact ⟨_, rfl, hread _⟩
    | true =>
      obtain ⟨t, ht⟩ :=
        Option.isSome_iff_exists.mp ((connectionWrite_isSome ω u id rq wr).mpr (hwrites rfl))
      exact ⟨t, ht, hread t⟩

end Returns

/-! ## Steps that are due -/

section Due
variable {σ ω : Type} {cfg : LockConfig} {H : Handlers σ ω} {s : State σ ω} {e : Event ω}

/-- The thread of `e` is where it calls the handler of `e`, and nothing is missing for the step. -/
def Event.Due (cfg : LockConfig) (s : State σ ω) : Event ω → Prop
  | .scan _ => ∃ i rfds wfds, s.io = .scan i rfds wfds
  | .accept fd _ => (∃ ls rfds wfds, s.io = .acceptCall ls rfds wfds) ∧ s.inUse fd = false ∧
      cfg.listeners.contains fd = false
  | .dispatch wr rd _ => ∃ i rfds wfds, s.io = .dispatch i rfds wfds ∧ rd.fits = true ∧
      ∀ rq, s.current i = some rq → wfds.contains rq.handle = true → rq.Writes wr
  | .caught => s.io = .catching
  | .serve k _ => ∃ id, s.workers[k]? = some (.holding id)
  | .workerCaught k => s.workers[k]? = some .catching
  | _ => False

theorem inner_of_step {s' : State σ ω} (hd : ∀ wr rd o, e ≠ .dispatch wr rd o)
    (h : step cfg.toConfig H s e = some s') : innerStep cfg.toConfig H s e = some (s', false) := by
  unfold innerStep
  split
  case h_1 => exact absurd rfl (hd _ _ _)
  case h_2 => rw [h, Option.map_some]

theorem heap_of_mem (hplaced : Placed s) {id : ReqId} (h : id ∈ s.aReqs) : ∃ rq, s.heap id = some rq := by
  refine Option.isSome_iff_exists.mp (hplaced id ?_)
  have := List.count_pos_iff.mpr h
  unfold State.tally
  omega

theorem heap_of_held (hplaced : Placed s) {k : ℕ} {id : ReqId} (h : s.workers[k]? = some (.holding id)) :
    ∃ rq, s.heap id = some rq := by
  refine Option.isSome_iff_exists.mp (hplaced id ?_)
  have hmem : id ∈ s.held := List.mem_filterMap.mpr ⟨_, List.mem_of_getElem? h, rfl⟩
  have := List.count_pos_iff.mpr hmem
  unfold State.tally
  omega

theorem pushStep_isSome (hreturn : H.Return) (hplaced : Placed s) {i : ℕ} {rfds wfds : List Fd}
    {wr : WriteResult} {rd : ReadResult} {o : ω}
    (hwrites : ∀ rq, s.current i = some rq → wfds.contains rq.handle = true → rq.Writes wr) :
    ∃ r, pushStep H s i rfds wfds wr rd o = some r := by
  unfold pushStep
  cases hi : s.aReqs[i]? with
  | none => exact ⟨_, rfl⟩
  | some id =>
    obtain ⟨rq, hrq⟩ := heap_of_mem hplaced (List.mem_of_getElem? hi)
    have hcurrent : s.current i = some rq := by rw [State.current, hi, Option.bind_some, hrq]
    obtain ⟨t, ht⟩ := Option.isSome_iff_exists.mp ((ioTurn_isSome_iff hreturn o s.user id rq
      (wfds.contains rq.handle) (rfds.contains rq.handle) wr rd).mpr (hwrites rq hcurrent))
    refine Option.isSome_iff_exists.mp ?_
    dsimp only
    rw [hrq, Option.bind_some, ht]
    rfl

/-- A step that is due can be taken. -/
theorem inner_of_due (hreturn : H.Return) (hplaced : Placed s) (h : e.Due cfg s) :
    ∃ r, innerStep cfg.toConfig H s e = some r := by
  cases e with
  | scan throws =>
    obtain ⟨i, rfds, wfds, hio⟩ := h
    have hstep : ∃ s', step cfg.toConfig H s (.scan throws) = some s' := by
      simp only [step, hio, scanStep]
      cases hi : s.aReqs[i]? with
      | none => exact ⟨_, rfl⟩
      | some id =>
        obtain ⟨rq, hrq⟩ := heap_of_mem hplaced (List.mem_of_getElem? hi)
        simp only [hrq, Option.map_some]
        exact ⟨_, rfl⟩
    obtain ⟨s', hs'⟩ := hstep
    exact ⟨_, inner_of_step (by simp) hs'⟩
  | accept fd o =>
    obtain ⟨⟨ls, rfds, wfds, hio⟩, hfree, hlisten⟩ := h
    obtain ⟨t, ht⟩ := Option.isSome_iff_exists.mp (connectTurn_isSome hreturn o s.user s.created fd)
    have hstep : ∃ s', step cfg.toConfig H s (.accept fd o) = some s' := by
      simp only [step, hio, hfree, hlisten, acceptStep, ht, Option.map_some]
      exact ⟨_, rfl⟩
    obtain ⟨s', hs'⟩ := hstep
    exact ⟨_, inner_of_step (by simp) hs'⟩
  | dispatch wr rd o =>
    obtain ⟨i, rfds, wfds, hio, hfits, hwrites⟩ := h
    simp only [innerStep, hio, hfits, if_true]
    exact pushStep_isSome hreturn hplaced hwrites
  | caught =>
    have hio : s.io = .catching := h
    have hstep : ∃ s', step cfg.toConfig H s .caught = some s' := by
      simp only [step, hio]
      exact ⟨_, rfl⟩
    obtain ⟨s', hs'⟩ := hstep
    exact ⟨_, inner_of_step (by simp) hs'⟩
  | serve k o =>
    obtain ⟨id, hk⟩ := h
    obtain ⟨rq, hrq⟩ := heap_of_held hplaced hk
    obtain ⟨t, ht⟩ := Option.isSome_iff_exists.mp (processConnection_isSome hreturn o s.user id rq)
    have hstep : ∃ s', step cfg.toConfig H s (.serve k o) = some s' := by
      simp only [step, hk, serveStep, hrq, Option.bind_some, ht, Option.map_some]
      exact ⟨_, rfl⟩
    obtain ⟨s', hs'⟩ := hstep
    exact ⟨_, inner_of_step (by simp) hs'⟩
  | workerCaught k =>
    have hk : s.workers[k]? = some .catching := h
    have hstep : ∃ s', step cfg.toConfig H s (.workerCaught k) = some s' := by
      simp only [step, hk]
      exact ⟨_, rfl⟩
    obtain ⟨s', hs'⟩ := hstep
    exact ⟨_, inner_of_step (by simp) hs'⟩
  | _ => exact h.elim

/-- A handler is called where its step is due. -/
theorem due_of_inner {r : State σ ω × Bool} (hcalls : e.calls cfg H s = true)
    (h : innerStep cfg.toConfig H s e = some r) : e.Due cfg s := by
  cases e with
  | scan throws =>
    simp only [Event.calls] at hcalls
    split at hcalls
    · exact ⟨_, _, _, ‹_›⟩
    · cases hcalls
  | accept fd o =>
    obtain ⟨s', hs', -⟩ := innerStep_of_ne (by simp) h
    simp only [step] at hs'
    split at hs'
    case h_1 hio =>
      split at hs'
      case isTrue => cases hs'
      case isFalse hfree =>
        simp only [Bool.or_eq_true, not_or, Bool.not_eq_true] at hfree
        exact ⟨⟨_, _, _, hio⟩, hfree.1, hfree.2⟩
    case h_2 => cases hs'
  | dispatch wr rd o =>
    simp only [innerStep] at h
    split at h
    case h_1 i rfds wfds hio =>
      split at h
      case isTrue hfits =>
        refine ⟨i, rfds, wfds, hio, hfits, fun rq hrq hw => ?_⟩
        unfold pushStep at h
        obtain ⟨id, hid, hheap⟩ := Option.bind_eq_some_iff.mp hrq
        simp only [hid, hheap, Option.bind_some, Option.map_eq_some_iff] at h
        obtain ⟨t, ht, -⟩ := h
        obtain ⟨t₁, hwrite, -⟩ := ioTurn_cases ht
        rcases hwrite with ⟨-, hwrite⟩ | ⟨hw', -⟩
        · exact (connectionWrite_isSome ω s.user id rq wr).mp (Option.isSome_iff_exists.mpr ⟨t₁, hwrite⟩)
        · rw [hw] at hw'
          cases hw'
      case isFalse => cases h
    case h_2 => cases h
  | caught =>
    obtain ⟨s', hs', -⟩ := innerStep_of_ne (by simp) h
    simp only [step] at hs'
    split at hs'
    · assumption
    · cases hs'
  | serve k o =>
    obtain ⟨s', hs', -⟩ := innerStep_of_ne (by simp) h
    simp only [step] at hs'
    split at hs'
    · exact ⟨_, ‹_›⟩
    · cases hs'
  | workerCaught k =>
    obtain ⟨s', hs', -⟩ := innerStep_of_ne (by simp) h
    simp only [step] at hs'
    split at hs'
    · assumption
    · cases hs'
  | _ => cases hcalls

/-- Every write buffer fits an `int`, with the part of it that was sent already. -/
def State.OutputFits (s : State σ ω) : Prop :=
  ∀ id rq, s.heap id = some rq → rq.writeBuffer.data.length < 2 ^ 31

/-- A pass of the dispatch loop whose sockets are not ready is due. -/
theorem due_notReady {i : ℕ} {rfds wfds : List Fd} {o : ω} (hfits : s.OutputFits)
    (hio : s.io = .dispatch i rfds wfds) : (Event.dispatch .notReady .notReady o).Due cfg s := by
  refine ⟨i, rfds, wfds, hio, rfl, fun rq hrq _ => ?_⟩
  obtain ⟨id, -, hid⟩ := Option.bind_eq_some_iff.mp hrq
  exact writes_notReady (hfits id rq hid)

/-! ## What the other threads leave alone -/

variable {r : State σ ω × Bool} {k : ℕ}

theorem workers_of_io (ht : e.thread = some .io) (h : innerStep cfg.toConfig H s e = some r) :
    r.1.workers = s.workers := by
  by_cases hd : ∃ wr rd o, e = .dispatch wr rd o
  · obtain ⟨wr, rd, o, rfl⟩ := hd
    simp only [innerStep] at h
    split at h
    case h_1 =>
      split at h
      case isTrue =>
        unfold pushStep at h
        split at h
        · cases h
          rfl
        · obtain ⟨rq, -, hrq⟩ := Option.bind_eq_some_iff.mp h
          obtain ⟨t, -, rfl⟩ := Option.map_eq_some_iff.mp hrq
          dsimp only
          split_ifs <;> rfl
      case isFalse => cases h
    case h_2 => cases h
  · obtain ⟨s', hs', rfl⟩ := innerStep_of_ne (fun wr rd o he => hd ⟨wr, rd, o, he⟩) h
    cases e with
    | scan throws =>
      simp only [step] at hs'
      split at hs'
      · unfold scanStep at hs'
        split at hs'
        · cases hs'
          rfl
        · obtain ⟨rq, -, rfl⟩ := Option.map_eq_some_iff.mp hs'
          split_ifs <;> rfl
      · cases hs'
    | accept fd o =>
      simp only [step] at hs'
      split at hs'
      · split at hs'
        · cases hs'
        · obtain ⟨t, -, rfl⟩ := Option.map_eq_some_iff.mp hs'
          rfl
      · cases hs'
    | dispatch => exact absurd ⟨_, _, _, rfl⟩ hd
    | take | serve | putBack | workerCaught | wake | stop | raise => cases ht
    | _ =>
      -- only the program counter of the I/O thread, and `a_reqs`, change
      simp only [step] at hs'
      repeat' split at hs'
      all_goals first | (cases hs'; done) | (cases hs'; rfl)

theorem inUse_turn {id : ReqId} {rq : Request} {t : Turn σ ω} (hrq : s.heap id = some rq)
    (hhandle : t.rq.handle = rq.handle) (fd : Fd) : (s.turn id t).inUse fd = s.inUse fd := by
  unfold State.inUse
  apply congrArg (List.any (List.range s.created))
  funext x
  change (Function.update s.heap id (some t.rq) x).any _ = _
  by_cases hx : x = id
  · rw [hx, Function.update_self, hrq, Option.any_some, Option.any_some, hhandle]
  · rw [Function.update_of_ne hx]

/-- A worker leaves alone what the I/O thread is going to use. -/
structure Apart (s : State σ ω) (k : ℕ) (e : Event ω) (s' : State σ ω) : Prop where
  inUse : ∀ fd, s'.inUse fd = s.inUse fd
  current : e.locked s = false → ∀ i, s'.current i = s.current i
  workers : ∀ j ≠ k, s'.workers[j]? = s.workers[j]?

theorem apart_setWorker (s : State σ ω) (k : ℕ) (e : Event ω) (pc : WorkerPc) :
    Apart s k e (s.setWorker k pc) :=
  ⟨fun _ => rfl, fun _ _ => rfl, fun _ hj => List.getElem?_set_ne (Ne.symm hj)⟩

theorem apart_take (s : State σ ω) (k : ℕ) : Apart s k (.take k : Event ω) (takeStep s k) := by
  unfold takeStep
  split
  · exact apart_setWorker s k _ _
  · split
    · exact apart_setWorker s k _ _
    · exact ⟨fun _ => rfl, nofun, fun _ hj => List.getElem?_set_ne (Ne.symm hj)⟩

/-- The object a worker holds is not in `a_reqs`. -/
theorem apart_serve {s' : State σ ω} {id : ReqId} {o : ω} (hone : ∀ x, s.tally x ≤ 1)
    (hk : s.workers[k]? = some (.holding id)) (h : serveStep H s k id o = some s') :
    Apart s k (.serve k o) s' := by
  obtain ⟨rq, hrq, hturn⟩ := Option.bind_eq_some_iff.mp h
  obtain ⟨t, ht, rfl⟩ := Option.map_eq_some_iff.mp hturn
  refine ⟨inUse_turn hrq (processConnection_handle ht), fun _ i => ?_,
    fun _ hj => List.getElem?_set_ne (Ne.symm hj)⟩
  change s.aReqs[i]?.bind (Function.update s.heap id (some t.rq)) = s.aReqs[i]?.bind s.heap
  cases hi : s.aReqs[i]? with
  | none => rfl
  | some x =>
    have hx : x ≠ id := by
      rintro rfl
      have hactive := List.count_pos_iff.mpr (List.mem_of_getElem? hi)
      have hmem : x ∈ s.held := List.mem_filterMap.mpr ⟨_, List.mem_of_getElem? hk, rfl⟩
      have hheld := List.count_pos_iff.mpr hmem
      have := hone x
      unfold State.tally at this
      omega
    rw [Option.bind_some, Option.bind_some, Function.update_of_ne hx]

theorem apart_of_worker (hone : ∀ x, s.tally x ≤ 1) (ht : e.thread = some (.worker k))
    (h : innerStep cfg.toConfig H s e = some r) : Apart s k e r.1 := by
  cases e with
  | take j =>
    cases ht
    obtain ⟨s', hs', rfl⟩ := innerStep_of_ne (by simp) h
    simp only [step] at hs'
    split at hs'
    case h_3 => cases hs'
    all_goals
      split at hs'
      · cases hs'
      · cases hs'
        exact apart_take s k
  | serve j o =>
    cases ht
    obtain ⟨s', hs', rfl⟩ := innerStep_of_ne (by simp) h
    simp only [step] at hs'
    split at hs'
    · exact apart_serve hone ‹_› hs'
    · cases hs'
  | putBack j =>
    cases ht
    obtain ⟨s', hs', rfl⟩ := innerStep_of_ne (by simp) h
    simp only [step] at hs'
    split at hs'
    · split at hs'
      · cases hs'
      · cases hs'
        exact ⟨fun _ => rfl, fun hl => (Bool.false_ne_true (Eq.symm hl)).elim,
          fun _ hj => List.getElem?_set_ne (Ne.symm hj)⟩
    · cases hs'
  | workerCaught j =>
    cases ht
    obtain ⟨s', hs', rfl⟩ := innerStep_of_ne (by simp) h
    simp only [step] at hs'
    split at hs'
    · cases hs'
      exact apart_setWorker s k _ _
    · cases hs'
  | wake j =>
    cases ht
    obtain ⟨s', hs', rfl⟩ := innerStep_of_ne (by simp) h
    simp only [step] at hs'
    split at hs'
    · cases hs'
      exact apart_setWorker s k _ _
    · cases hs'
  | _ => cases ht

variable {d : Event ω}

theorem Event.Due.of_io (hd : d.Due cfg s) (hother : d.thread ≠ some .io) (ht : e.thread = some .io)
    (h : innerStep cfg.toConfig H s e = some r) : d.Due cfg r.1 := by
  have hworkers := workers_of_io ht h
  cases d with
  | serve j o => simpa only [Event.Due, hworkers] using hd
  | workerCaught j => simpa only [Event.Due, hworkers] using hd
  | scan | accept | dispatch | caught => exact absurd rfl hother
  | _ => exact hd

/-- `hfree`: no other thread is in a guarded section while the I/O thread scans or dispatches. -/
theorem Event.Due.of_worker (hd : d.Due cfg s) (hother : d.thread ≠ some (.worker k))
    (hone : ∀ x, s.tally x ≤ 1) (hfree : s.io.holdsLock = true → e.locked s = false)
    (ht : e.thread = some (.worker k)) (h : innerStep cfg.toConfig H s e = some r) : d.Due cfg r.1 := by
  have hapart := apart_of_worker hone ht h
  have hio : r.1.io = s.io := (inner_step ht h).io (by rw [ht]; nofun)
  cases d with
  | scan throws => simpa only [Event.Due, hio] using hd
  | accept fd o => simpa only [Event.Due, hio, hapart.inUse] using hd
  | dispatch wr rd o =>
    obtain ⟨i, rfds, wfds, hpc, hfits, hwrites⟩ := hd
    refine ⟨i, rfds, wfds, hio.trans hpc, hfits, ?_⟩
    rw [hapart.current (hfree (by rw [hpc]; rfl))]
    exact hwrites
  | caught => simpa only [Event.Due, hio] using hd
  | serve j o =>
    have hj : j ≠ k := fun hj => hother (congrArg (fun n => some (Tid.worker n)) hj)
    simpa only [Event.Due, hapart.workers j hj] using hd
  | workerCaught j =>
    have hj : j ≠ k := fun hj => hother (congrArg (fun n => some (Tid.worker n)) hj)
    simpa only [Event.Due, hapart.workers j hj] using hd
  | _ => exact hd

/-- Only workers that sleep are woken. -/
theorem Event.Due.of_wake {s' : State σ ω} (hd : d.Due cfg s) (hio : s'.io = s.io)
    (haReqs : s'.aReqs = s.aReqs) (hheap : s'.heap = s.heap) (hcreated : s'.created = s.created)
    (hworkers : ∀ (k : ℕ) pc, s.workers[k]? = some pc → pc ≠ .waiting → s'.workers[k]? = some pc) :
    d.Due cfg s' := by
  cases d with
  | serve j o =>
    obtain ⟨id, hid⟩ := hd
    exact ⟨id, hworkers j _ hid nofun⟩
  | workerCaught j => exact hworkers j _ hd nofun
  | scan throws => simpa only [Event.Due, hio] using hd
  | accept fd o => simpa only [Event.Due, State.inUse, hio, hheap, hcreated] using hd
  | dispatch wr rd o => simpa only [Event.Due, State.current, hio, haReqs, hheap] using hd
  | caught => simpa only [Event.Due, hio] using hd
  | _ => exact hd

end Due

/-! ## Where a thread is -/

section Places
variable {σ ω : Type} {cfg : LockConfig} {H : Handlers σ ω} {s s' : Threaded σ ω} {m : Move ω}

/-- The thread has asked for a guard of the server's own code, and has not left its section. -/
def Thread.enters : Thread ω → Bool
  | .runs g => g == .requesting || g == .inside
  | .calls _ _ _ => false

/-- The code of the thread is at a guarded section, or inside one of the two loops. -/
def Threaded.atGuard (s : Threaded σ ω) (t : Tid) : Bool :=
  wantsLock s t || (t == .io && s.server.io.holdsLock)

structure Coherent (cfg : LockConfig) (s : Threaded σ ω) : Prop where
  guards : ∀ t, (s.threads t).enters = true → s.atGuard t = true
  calls : ∀ t locked e g, s.threads t = .calls locked e g → g ≠ .leaving ∧ e.Due cfg s.server

theorem coherent_init (n : ℕ) (u : σ) : Coherent cfg (Threaded.init ω n u) := ⟨nofun, nofun⟩

theorem Coherent.setThread (hs : Coherent cfg s) {t : Tid} {th : Thread ω} {o : Option Tid}
    (henters : th.enters = true → s.atGuard t = true)
    (hcalls : ∀ locked e g, th = .calls locked e g → g ≠ .leaving ∧ e.Due cfg s.server) :
    Coherent cfg { s.setThread t th with owner := o } where
  guards := (Function.forall_update_iff s.threads fun t th => th.enters = true → s.atGuard t = true).mpr
    ⟨henters, fun u _ => hs.guards u⟩
  calls := (Function.forall_update_iff s.threads fun _ th => ∀ locked e g, th = .calls locked e g →
    g ≠ .leaving ∧ e.Due cfg s.server).mpr ⟨hcalls, fun u _ => hs.calls u⟩

/-- The guards and the calls outlive a change of the server that the other threads do not see. -/
theorem Coherent.server (hs : Coherent cfg s) (hthreads : s'.threads = s.threads)
    (hguard : ∀ t, (s.threads t).enters = true → s.atGuard t = true → s'.atGuard t = true)
    (hdue : ∀ e : Event ω, e.Due cfg s.server → e.Due cfg s'.server) : Coherent cfg s' where
  guards t ht := by
    rw [hthreads] at ht
    exact hguard t ht (hs.guards t ht)
  calls t locked e g ht := by
    rw [hthreads] at ht
    exact (hs.calls t locked e g ht).imp_right (hdue e)

theorem atGuard_of_wake {t : Tid} (hio : s'.server.io = s.server.io)
    (hworkers : ∀ (k : ℕ) pc, s.server.workers[k]? = some pc → pc ≠ .waiting →
      s'.server.workers[k]? = some pc)
    (hstopper : ∀ j, t = .caller j → s.stopper ≠ some j → s'.stopper ≠ some j)
    (h : s.atGuard t = true) : s'.atGuard t = true := by
  cases t with
  | io => simpa only [Threaded.atGuard, wantsLock, hio] using h
  | worker k =>
    simp only [Threaded.atGuard, wantsLock, Bool.or_eq_true] at h ⊢
    rcases h with h | h
    · left
      split at h
      case h_4 => cases h
      all_goals
        rename_i hk
        rw [hworkers k _ hk nofun]
    · cases h
  | caller j =>
    simp only [Threaded.atGuard, wantsLock, bne_iff_ne, Bool.or_eq_true, ne_eq] at h ⊢
    exact h.imp_left (hstopper j rfl)

theorem workers_wakeAll (s : State σ ω) (k : ℕ) (pc : WorkerPc) (hk : s.workers[k]? = some pc)
    (hpc : pc ≠ .waiting) : s.wakeAll.workers[k]? = some pc := by
  rw [wakeAll_getElem? s hk]
  cases pc <;> first | rfl | exact absurd rfl hpc

theorem enters_guardAfter {s s' : State σ ω} {e : Event ω}
    (h : (Thread.runs (e.guardAfter s s') : Thread ω).enters = true) :
    e.thread = some .io ∧ s'.io.holdsLock = true := by
  unfold Event.guardAfter at h
  split at h
  · split at h
    case isTrue hin => simpa only [Bool.and_eq_true, beq_iff_eq] using hin
    case isFalse => split at h <;> cases h
  · cases h

theorem Coherent.advance (hg : Guarded s) (hs : Coherent cfg s) (hone : ∀ x, s.server.tally x ≤ 1)
    {t : Tid} {e : Event ω} {r : State σ ω × Bool} (ht : e.thread = some t)
    (hbefore : (s.threads t).holds = e.locked s.server)
    (h : innerStep cfg.toConfig H s.server e = some r) : Coherent cfg (s.advance t e r) where
  guards u hu := by
    change (Function.update s.threads t (.runs (e.guardAfter s.server r.1)) u).enters = true at hu
    by_cases hut : u = t
    · rw [hut, Function.update_self] at hu
      obtain ⟨hio, hl⟩ := enters_guardAfter hu
      obtain rfl : t = .io := Option.some.inj (ht.symm.trans hio)
      rw [hut]
      exact Bool.or_eq_true_iff.mpr (.inr hl)
    · rw [Function.update_of_ne hut] at hu
      have hat := hs.guards u hu
      cases u with
      | io =>
        have hio : r.1.io = s.server.io :=
          (inner_step ht h).io fun he => hut (Option.some.inj (he.symm.trans ht))
        have hadvance : (s.advance t e r).server.io = s.server.io := hio
        simpa only [Threaded.atGuard, wantsLock, hadvance] using hat
      | worker j =>
        have hworkers : (s.advance t e r).server.workers[j]? = s.server.workers[j]? := by
          change r.1.workers[j]? = _
          cases t with
          | io => rw [workers_of_io ht h]
          | worker k => exact (apart_of_worker hone ht h).workers j fun hjk => hut (by rw [hjk])
          | caller i => cases e <;> cases ht
        have hnot : (Tid.worker j == .io) = false := rfl
        simpa only [Threaded.atGuard, wantsLock, hworkers, hnot, Bool.false_and] using hat
      | caller j => exact hat
  calls u locked d g hu := by
    change Function.update s.threads t (.runs (e.guardAfter s.server r.1)) u = _ at hu
    by_cases hut : u = t
    · rw [hut, Function.update_self] at hu
      cases hu
    · rw [Function.update_of_ne hut] at hu
      obtain ⟨hg', hdue⟩ := hs.calls u locked d g hu
      refine ⟨hg', ?_⟩
      have hfits := hg.fits u
      rw [hu] at hfits
      have hother : d.thread ≠ some t := fun hd => hut (Option.some.inj (hfits.1.symm.trans hd))
      cases t with
      | io => exact hdue.of_io hother ht h
      | worker k =>
        refine hdue.of_worker hother hone (fun hl => ?_) ht h
        rw [← hbefore, Bool.eq_false_iff]
        intro hholds
        rw [not_holdsLock hg hholds nofun] at hl
        cases hl
      | caller j => cases e <;> cases ht

theorem inner_of_call {e : Event ω} (h : move cfg H s (.call e) = some s') :
    ∃ r, innerStep cfg.toConfig H s.server e = some r := by
  simp only [move] at h
  split at h
  · cases h
  · split at h
    · split at h
      case isTrue hc => exact Option.isSome_iff_exists.mp hc.2.2.2
      case isFalse => cases h
    · cases h

theorem coherent_move (hg : Guarded s) (hs : Coherent cfg s) (hone : ∀ x, s.server.tally x ≤ 1)
    (h : move cfg H s m = some s') : Coherent cfg s' := by
  cases moves h with
  | request t th asks =>
    have hask := asks
    obtain ⟨ha, rfl⟩ | ⟨locked, e, ha, rfl⟩ := Thread.request_cases asks
    · refine hs.setThread (fun _ => Bool.or_eq_true_iff.mpr (.inl ?_)) nofun
      rw [ha] at hask
      by_contra hw
      simp only [Thread.request, hw] at hask
      cases hask
    · refine hs.setThread nofun fun locked' e' g' he => ?_
      cases he
      exact ⟨nofun, (hs.calls t locked e _ ha).2⟩
  | acquire t th free gets =>
    obtain ⟨ha, rfl⟩ | ⟨locked, e, ha, rfl⟩ := Thread.acquire_cases gets
    · exact hs.setThread (fun _ => hs.guards t (by rw [ha]; rfl)) nofun
    · refine hs.setThread nofun fun locked' e' g' he => ?_
      cases he
      exact ⟨nofun, (hs.calls t locked e _ ha).2⟩
  | release t th gives =>
    obtain ⟨ha, rfl⟩ | ⟨locked, e, ha, rfl⟩ := Thread.release_cases gives
    · exact hs.setThread nofun nofun
    · refine hs.setThread nofun fun locked' e' g' he => ?_
      cases he
      exact ⟨nofun, (hs.calls t locked e _ ha).2⟩
  | act e t r ht begins raised inner =>
    exact hs.advance hg hone ht (by rw [begins, holds_guardBefore]) inner
  | done e t r locked returns inner =>
    have hfits := hg.fits t
    rw [returns] at hfits
    refine hs.advance hg hone hfits.1 ?_ inner
    rw [returns, hfits.2.2.2]
    exact Bool.or_false _
  | call e t ht begins raised calls =>
    obtain ⟨r, hr⟩ := inner_of_call h
    refine hs.setThread nofun fun locked' e' g' he => ?_
    cases he
    exact ⟨nofun, due_of_inner calls hr⟩
  | raisePushed due =>
    have hworkers := workers_wakeAll s.server
    exact hs.server rfl (fun t _ => atGuard_of_wake rfl hworkers fun _ _ h => h)
      fun e hdue => hdue.of_wake rfl rfl rfl rfl hworkers
  | stop j inside running =>
    have hcaller : Coherent cfg (s.setThread (.caller j) (.runs .leaving)) := hs.setThread nofun nofun
    refine hcaller.server rfl (fun t ht hat => ?_) fun e hdue => hdue
    refine atGuard_of_wake (s := s.setThread (.caller j) (.runs .leaving)) rfl (fun _ _ hk _ => hk)
      (fun i hti _ hi => ?_) hat
    -- the thread that stops the server is on its way out
    obtain rfl : j = i := Option.some.inj hi
    rw [hti] at ht
    change (Function.update s.threads (.caller j) (.runs .leaving) (.caller j)).enters = true at ht
    rw [Function.update_self] at ht
    cases ht
  | stopAgain j inside stopped => exact hs.setThread nofun nofun
  | isRunning j inside => exact hs.setThread nofun nofun
  | raiseStop j due =>
    have hworkers := workers_wakeAll s.server
    exact hs.server rfl (fun t _ => atGuard_of_wake rfl hworkers fun _ _ _ => nofun)
      fun e hdue => hdue.of_wake rfl rfl rfl rfl hworkers

/-- What holds in every state of the threads. -/
structure Sound (cfg : LockConfig) (s : Threaded σ ω) : Prop where
  guarded : Guarded s
  heeded : ∀ k, Heeded s k
  exclusive : Exclusive s.view
  placed : Placed s.view
  coherent : Coherent cfg s

theorem tally_view (s : Threaded σ ω) (x : ReqId) : s.view.tally x = s.server.tally x := by
  cases hp : s.pushed with
  | false => rw [view_of_not_pushed hp]
  | true =>
    have hheld : s.server.wakeAll.held = s.server.held := State.held_wake s.server
    rw [view_of_pushed hp, State.tally, State.tally, hheld]
    rfl

theorem heap_view (s : Threaded σ ω) : s.view.heap = s.server.heap := by
  cases hp : s.pushed with
  | false => rw [view_of_not_pushed hp]
  | true =>
    rw [view_of_pushed hp]
    rfl

theorem Sound.once (hs : Sound cfg s) (x : ReqId) : s.server.tally x ≤ 1 := by
  rw [← tally_view]
  exact hs.exclusive.once x

theorem Sound.objects (hs : Sound cfg s) : Placed s.server := by
  intro x hx
  rw [← heap_view]
  exact hs.placed x (by rwa [tally_view])

theorem sound_move (s : Threaded σ ω) (m : Move ω) (s' : Threaded σ ω) (hs : Sound cfg s)
    (h : move cfg H s m = some s') : Sound cfg s' := by
  have hview : Exclusive s'.view ∧ Placed s'.view := by
    rcases move_simulates hs.guarded h with hsame | ⟨d, hd⟩
    · rw [hsame]
      exact ⟨hs.exclusive, hs.placed⟩
    · exact placed_step s.view d s'.view ⟨hs.exclusive, hs.placed⟩ hd
  exact ⟨guarded_move hs.guarded h, heeded_move hs.guarded hs.heeded h, hview.1, hview.2,
    coherent_move hs.guarded hs.coherent hs.once h⟩

theorem sound_run {n : ℕ} {u : σ} {ms : List (Move ω)}
    (hrun : Transition.run (move cfg H) (.init ω n u) ms = some s) : Sound cfg s := by
  have hinit := placed_init (ω := ω) n u
  refine Transition.run_preserves (move cfg H) sound_move hrun ?_
  exact ⟨guarded_init n u, fun k => ⟨fun _ => .inl rfl, fun _ => .inl rfl⟩, hinit.1, hinit.2,
    coherent_init n u⟩

end Places

namespace Sample

theorem handlers_return : handlers.Return := by
  constructor <;> rintro f hf o u c inp <;> cases hf <;> rfl

theorem outputFits_of_first {s : State Unit Answer}
    (hfirst : ∀ rq, s.heap 0 = some rq → rq.writeBuffer.data.length < 2 ^ 31)
    (hrest : ∀ n : ℕ, s.heap (n + 1) = none) : s.OutputFits := by
  intro id rq hid
  cases id with
  | zero => exact hfirst rq hid
  | succ n =>
    rw [hrest n] at hid
    cases hid

end Sample

end Dcl.Tcp
