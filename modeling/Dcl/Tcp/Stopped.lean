import Dcl.Tcp.Pending

/-! # A stopped server comes to its end

After `stop` has set `is_stopped`, `io_process` ends its round, whatever still arrives, and leaves its loop; each
worker serves at most the connection it holds. `State.remaining` counts the steps that are left: every step of
a stopped server lowers it, so that the threads `stop` joins come to their end in every order of their steps. -/
namespace Dcl.Tcp
set_option autoImplicit false

/-! ## The steps that are left -/

def WorkerPc.remaining : WorkerPc → ℕ
  | .exited => 0
  | .idle => 1
  | .woken => 1
  | .waiting => 2
  | .catching => 2
  -- a connection that is put back can be scanned and dispatched once more
  | .returning _ => 4
  | .holding _ => 5

/-- `listeners` is the number of listening sockets, `active` the length of `a_reqs`. -/
def IoPc.remaining (listeners active : ℕ) : IoPc → ℕ
  | .finished => 0
  | .died => 0
  | .top => 1
  | .catching => 2
  | .dispatch i _ _ => active - i + 3
  | .accepting ls _ _ => active + 4 * ls.length + 4
  | .acceptPush ls _ _ _ => active + 4 * ls.length + 6
  | .acceptCall ls _ _ => active + 4 * ls.length + 7
  | .selecting _ _ => active + 4 * listeners + 5
  | .scan i _ _ => active - i + active + 4 * listeners + 6
  | .enterScan => 2 * active + 4 * listeners + 7

section Remaining
variable {σ ω : Type} {cfg : Config} {H : Handlers σ ω} {s s' : State σ ω} {e : Event ω}

def State.remaining (cfg : Config) (s : State σ ω) : ℕ :=
  s.io.remaining cfg.listeners.length s.aReqs.length + (s.workers.map WorkerPc.remaining).sum +
    s.raising.toNat

theorem remaining_wake (pc : WorkerPc) : pc.wake.remaining ≤ pc.remaining := by
  cases pc <;> simp [WorkerPc.wake, WorkerPc.remaining]

theorem sum_remaining_wake (workers : List WorkerPc) :
    ((workers.map WorkerPc.wake).map WorkerPc.remaining).sum ≤ (workers.map WorkerPc.remaining).sum := by
  rw [List.map_map]
  exact List.sum_le_sum fun pc _ => remaining_wake pc

/-- One more connection costs the I/O thread at most two passes. -/
theorem IoPc.remaining_succ (pc : IoPc) (listeners active : ℕ) :
    pc.remaining listeners (active + 1) ≤ pc.remaining listeners active + 2 := by
  cases pc <;> simp only [IoPc.remaining] <;> omega

theorem remaining_setIo {pc : IoPc} (h : pc.remaining cfg.listeners.length s.aReqs.length <
    s.io.remaining cfg.listeners.length s.aReqs.length) :
    State.remaining cfg { s with io := pc } < s.remaining cfg := by
  unfold State.remaining
  dsimp only
  omega

theorem remaining_setWorker {k : ℕ} {a b : WorkerPc} (hk : s.workers[k]? = some a)
    (h : b.remaining < a.remaining) : (s.setWorker k b).remaining cfg < s.remaining cfg := by
  have hsum := Slots.sum_set hk b WorkerPc.remaining
  unfold State.remaining State.setWorker
  dsimp only
  omega

theorem remaining_scan {i : ℕ} {rfds wfds : List Fd} {throws : Bool} (hio : s.io = .scan i rfds wfds)
    (h : scanStep s i rfds wfds throws = some s') : s'.remaining cfg < s.remaining cfg := by
  unfold scanStep at h
  split at h
  case h_1 hi =>
    cases h
    apply remaining_setIo
    rw [hio]
    simp only [IoPc.remaining]
    omega
  case h_2 id hi =>
    have hlt := (List.getElem?_eq_some_iff.mp hi).1
    obtain ⟨rq, -, rfl⟩ := Option.map_eq_some_iff.mp h
    split
    · split
      · unfold State.remaining
        simp only [hio, IoPc.remaining]
        omega
      · unfold State.remaining
        simp only [hio, IoPc.remaining, List.length_eraseIdx_of_lt hlt]
        omega
    · apply remaining_setIo
      rw [hio]
      simp only [IoPc.remaining]
      omega

theorem remaining_dispatch {i : ℕ} {rfds wfds : List Fd} {wr : WriteResult} {rd : ReadResult} {o : ω}
    (hio : s.io = .dispatch i rfds wfds) (h : dispatchStep H s i rfds wfds wr rd o = some s') :
    s'.remaining cfg < s.remaining cfg := by
  unfold dispatchStep at h
  split at h
  case h_1 hi =>
    cases h
    apply remaining_setIo
    rw [hio]
    simp only [IoPc.remaining]
    omega
  case h_2 id hi =>
    have hlt := (List.getElem?_eq_some_iff.mp hi).1
    obtain ⟨rq, -, hrq⟩ := Option.bind_eq_some_iff.mp h
    obtain ⟨t, -, rfl⟩ := Option.map_eq_some_iff.mp hrq
    have hwake := sum_remaining_wake s.workers
    dsimp only
    split
    · unfold State.remaining State.turn
      simp only [hio, IoPc.remaining]
      omega
    · split
      · unfold State.remaining State.turn
        simp only [hio, IoPc.remaining, List.length_eraseIdx_of_lt hlt]
        omega
      · unfold State.remaining State.turn
        simp only [hio, IoPc.remaining]
        omega

theorem remaining_accept {ls rfds wfds : List Fd} {fd : Fd} {o : ω} (hio : s.io = .acceptCall ls rfds wfds)
    (h : acceptStep H s ls rfds wfds fd o = some s') : s'.remaining cfg < s.remaining cfg := by
  obtain ⟨t, -, rfl⟩ := Option.map_eq_some_iff.mp h
  unfold State.remaining State.turn
  split <;> simp only [hio, IoPc.remaining] <;> omega

theorem remaining_serve {k : ℕ} {id : ReqId} {o : ω} (hk : s.workers[k]? = some (.holding id))
    (h : serveStep H s k id o = some s') : s'.remaining cfg < s.remaining cfg := by
  obtain ⟨rq, -, hrq⟩ := Option.bind_eq_some_iff.mp h
  obtain ⟨t, -, rfl⟩ := Option.map_eq_some_iff.mp hrq
  have hturn : (s.turn id t).remaining cfg = s.remaining cfg := rfl
  rw [← hturn]
  refine remaining_setWorker hk ?_
  split <;> simp only [WorkerPc.remaining] <;> omega

theorem remaining_putBack {k : ℕ} {id : ReqId} (hk : s.workers[k]? = some (.returning id)) :
    State.remaining cfg { s.setWorker k .idle with aReqs := s.aReqs ++ [id] } < s.remaining cfg := by
  have hsum := Slots.sum_set hk .idle WorkerPc.remaining
  have hio := s.io.remaining_succ cfg.listeners.length s.aReqs.length
  unfold State.remaining State.setWorker
  simp only [WorkerPc.remaining, List.length_append, List.length_singleton] at hsum ⊢
  omega

theorem remaining_take {k : ℕ} {a : WorkerPc} (hk : s.workers[k]? = some a) (ha : 0 < a.remaining)
    (hstop : s.isStopped = true) : (takeStep s k).remaining cfg < s.remaining cfg := by
  rw [takeStep, if_pos hstop]
  exact remaining_setWorker hk ha

/-- A step of the I/O thread or of a worker, with the raise that follows a push. -/
theorem inner_of_thread (cfg : LockConfig) {t : Tid} (ht : e.thread = some t)
    (h : step cfg.toConfig H s e = some s') :
    ∃ r, Inner s e r ∧ s' = if r.2 then r.1.wakeAll else r.1 := by
  by_cases hd : ∃ wr rd o, e = .dispatch wr rd o
  · obtain ⟨wr, rd, o, rfl⟩ := hd
    simp only [step] at h
    split at h
    · split at h
      · rw [dispatchStep_eq] at h
        obtain ⟨r, hr, rfl⟩ := Option.map_eq_some_iff.mp h
        exact ⟨r, inner_push hr, rfl⟩
      · cases h
    · cases h
  · exact ⟨_, inner_step ht (inner_of_step (fun wr rd o he => hd ⟨wr, rd, o, he⟩) h), rfl⟩

/-- The workers that sleep when the server is stopped are still to be woken. -/
def Roused (s : State σ ω) : Prop :=
  s.isStopped = true → ∀ k : ℕ, s.workers[k]? = some .waiting → s.raising = true

theorem roused_init (n : ℕ) (u : σ) : Roused (State.init ω n u) := nofun

theorem stopped_step (h : step cfg H s e = some s') :
    (s.isStopped = true → s'.isStopped = true) ∧ (Roused s → Roused s') := by
  cases ht : e.thread with
  | none =>
    cases e with
    | stop =>
      simp only [step] at h
      split at h
      · cases h
      · cases h
        exact ⟨fun _ => rfl, fun _ _ _ _ => rfl⟩
    | raise =>
      simp only [step] at h
      split at h
      · cases h
        exact ⟨id, fun _ _ k hk => absurd hk (wakeAll_not_waiting s k)⟩
      · cases h
    | _ => cases ht
  | some t =>
    obtain ⟨r, hinner, rfl⟩ := inner_of_thread ⟨cfg, false⟩ ht h
    cases r.2 with
    | true =>
      refine ⟨fun hstop => ?_, fun _ _ k hk => absurd hk (wakeAll_not_waiting r.1 k)⟩
      exact hinner.stopped.trans hstop
    | false =>
      refine ⟨fun hstop => hinner.stopped.trans hstop, fun hs hstop k hk => ?_⟩
      rcases hinner.waiting k hk with hold | ⟨-, hrunning⟩
      · exact hinner.raising.trans (hs (hinner.stopped ▸ hstop) k hold)
      · rw [show r.1.isStopped = true from hstop] at hrunning
        cases hrunning

/-- Every step of a stopped server brings it nearer to its end. -/
theorem remaining_step (hstop : s.isStopped = true) (h : step cfg H s e = some s') :
    s'.remaining cfg < s.remaining cfg := by
  have hio {pc pc' : IoPc} (hpc : s.io = pc) (hlt : pc'.remaining cfg.listeners.length s.aReqs.length <
      pc.remaining cfg.listeners.length s.aReqs.length) :
      State.remaining cfg { s with io := pc' } < s.remaining cfg := remaining_setIo (hpc ▸ hlt)
  cases e with
  | checkStop =>
    simp only [step] at h
    split at h
    case h_1 hpc =>
      cases h
      rw [if_pos hstop]
      exact hio hpc (by simp only [IoPc.remaining]; omega)
    case h_2 => cases h
  | lockScan =>
    simp only [step] at h
    split at h
    case h_1 hpc =>
      cases h
      exact hio hpc (by simp only [IoPc.remaining]; omega)
    case h_2 => cases h
  | scan throws =>
    simp only [step] at h
    split at h
    case h_1 hpc => exact remaining_scan hpc h
    case h_2 => cases h
  | select r w =>
    simp only [step] at h
    split at h
    case h_1 hpc =>
      split at h
      case isTrue =>
        cases h
        refine hio hpc ?_
        split <;> simp only [IoPc.remaining] <;> omega
      case isFalse => cases h
    case h_2 => cases h
  | selectFails =>
    simp only [step] at h
    split at h
    case h_1 hpc =>
      cases h
      exact hio hpc (by simp only [IoPc.remaining]; omega)
    case h_2 => cases h
  | visitListener =>
    simp only [step] at h
    split at h
    case h_1 hpc =>
      split at h
      · cases h
        exact hio hpc (by simp only [IoPc.remaining, List.length_cons]; omega)
      · cases h
        exact hio hpc (by simp only [IoPc.remaining, List.length_cons]; omega)
    case h_2 => cases h
  | accept fd o =>
    simp only [step] at h
    split at h
    case h_1 hpc =>
      split at h
      · cases h
      · exact remaining_accept hpc h
    case h_2 => cases h
  | acceptFails =>
    simp only [step] at h
    split at h
    case h_1 hpc =>
      cases h
      exact hio hpc (by simp only [IoPc.remaining]; omega)
    case h_2 => cases h
  | acceptPush =>
    simp only [step] at h
    split at h
    case h_1 hpc =>
      cases h
      unfold State.remaining
      simp only [hpc, IoPc.remaining, List.length_append, List.length_singleton]
      omega
    case h_2 => cases h
  | lockDispatch =>
    simp only [step] at h
    split at h
    case h_1 hpc =>
      cases h
      exact hio hpc (by simp only [IoPc.remaining, List.length_nil]; omega)
    case h_2 => cases h
  | dispatch wr rd o =>
    simp only [step] at h
    split at h
    case h_1 hpc =>
      split at h
      · exact remaining_dispatch hpc h
      · cases h
    case h_2 => cases h
  | caught =>
    simp only [step] at h
    split at h
    case h_1 hpc =>
      cases h
      refine hio hpc ?_
      split <;> simp only [IoPc.remaining] <;> omega
    case h_2 => cases h
  | take k =>
    simp only [step] at h
    split at h
    case h_1 hk =>
      split at h
      · cases h
      · cases h
        exact remaining_take hk (by decide) hstop
    case h_2 hk =>
      split at h
      · cases h
      · cases h
        exact remaining_take hk (by decide) hstop
    case h_3 => cases h
  | serve k o =>
    simp only [step] at h
    split at h
    case h_1 hk => exact remaining_serve hk h
    case h_2 => cases h
  | putBack k =>
    simp only [step] at h
    split at h
    case h_1 hk =>
      split at h
      · cases h
      · cases h
        exact remaining_putBack hk
    case h_2 => cases h
  | workerCaught k =>
    simp only [step] at h
    split at h
    case h_1 hk =>
      cases h
      refine remaining_setWorker hk ?_
      split <;> simp only [WorkerPc.remaining] <;> omega
    case h_2 => cases h
  | wake k =>
    simp only [step] at h
    split at h
    case h_1 hk =>
      cases h
      exact remaining_setWorker hk (by decide)
    case h_2 => cases h
  | stop =>
    simp only [step] at h
    split at h
    · cases h
    case isFalse hnot =>
      rw [hstop, Bool.or_true] at hnot
      exact absurd rfl hnot
  | raise =>
    simp only [step] at h
    split at h
    case isTrue hraise =>
      cases h
      have hwake := sum_remaining_wake s.workers
      unfold State.remaining
      simp only [hraise, Bool.toNat_true, Bool.toNat_false]
      omega
    case isFalse => cases h

end Remaining

/-! ## The end -/

section Ends
variable {σ ω : Type} {cfg : Config} {H : Handlers σ ω} {s s' : State σ ω}

/-- The threads that `stop` joins have returned. -/
def State.Ended (s : State σ ω) : Prop :=
  (s.io = .finished ∨ s.io = .died) ∧ ∀ pc ∈ s.workers, pc = .exited

theorem step_of_due {e : Event ω} (hreturn : H.Return) (hplaced : Placed s)
    (h : e.Due ⟨cfg, false⟩ s) : ∃ s', step cfg H s e = some s' := by
  obtain ⟨r, hr⟩ := inner_of_due hreturn hplaced h
  exact ⟨_, step_of_inner hr⟩

theorem io_goes_on [Inhabited ω] (hreturn : H.Return) (hplaced : Placed s) (hfits : s.OutputFits)
    (hio : ¬(s.io = .finished ∨ s.io = .died)) :
    ∃ e : Event ω, (∀ k, e ≠ .wake k) ∧ ∃ s', step cfg H s e = some s' := by
  cases hpc : s.io with
  | top => exact ⟨.checkStop, by simp, _, by simp only [step, hpc]; rfl⟩
  | enterScan => exact ⟨.lockScan, by simp, _, by simp only [step, hpc]; rfl⟩
  | scan i rfds wfds => exact ⟨.scan false, by simp, step_of_due hreturn hplaced ⟨i, rfds, wfds, hpc⟩⟩
  | selecting rfds wfds => exact ⟨.selectFails, by simp, _, by simp only [step, hpc]; rfl⟩
  | accepting ls rfds wfds =>
    cases ls with
    | nil => exact ⟨.lockDispatch, by simp, _, by simp only [step, hpc]; rfl⟩
    | cons l ls =>
      refine ⟨.visitListener, by simp, Option.isSome_iff_exists.mp ?_⟩
      simp only [step, hpc]
      split <;> rfl
  | acceptCall ls rfds wfds => exact ⟨.acceptFails, by simp, _, by simp only [step, hpc]; rfl⟩
  | acceptPush ls rfds wfds id => exact ⟨.acceptPush, by simp, _, by simp only [step, hpc]; rfl⟩
  | dispatch i rfds wfds =>
    exact ⟨.dispatch .notReady .notReady default, by simp,
      step_of_due hreturn hplaced (due_notReady hfits hpc)⟩
  | catching => exact ⟨.caught, by simp, _, by simp only [step, hpc]; rfl⟩
  | finished => exact absurd (.inl hpc) hio
  | died => exact absurd (.inr hpc) hio

theorem worker_goes_on [Inhabited ω] (hreturn : H.Return) (hplaced : Placed s) (hroused : Roused s)
    (hstop : s.isStopped = true) (hfree : s.io.holdsLock = false) {k : ℕ} {pc : WorkerPc}
    (hk : s.workers[k]? = some pc) (hpc : pc ≠ .exited) :
    ∃ e : Event ω, (∀ k, e ≠ .wake k) ∧ ∃ s', step cfg H s e = some s' := by
  cases pc with
  | idle => exact ⟨.take k, by simp, _, by simp only [step, hk, hfree]; rfl⟩
  | woken => exact ⟨.take k, by simp, _, by simp only [step, hk, hfree]; rfl⟩
  | waiting => exact ⟨.raise, by simp, _, by simp only [step, hroused hstop k hk]; rfl⟩
  | holding id => exact ⟨.serve k default, by simp, step_of_due hreturn hplaced ⟨id, hk⟩⟩
  | returning id => exact ⟨.putBack k, by simp, _, by simp only [step, hk, hfree]; rfl⟩
  | catching => exact ⟨.workerCaught k, by simp, _, by simp only [step, hk]; rfl⟩
  | exited => exact absurd rfl hpc

theorem goes_on [Inhabited ω] (hreturn : H.Return) (hplaced : Placed s) (hroused : Roused s)
    (hstop : s.isStopped = true) (hfits : s.OutputFits) (hend : ¬s.Ended) :
    ∃ e : Event ω, (∀ k, e ≠ .wake k) ∧ ∃ s', step cfg H s e = some s' := by
  by_cases hio : s.io = .finished ∨ s.io = .died
  case neg => exact io_goes_on hreturn hplaced hfits hio
  have hfree : s.io.holdsLock = false := by rcases hio with hio | hio <;> rw [hio] <;> rfl
  obtain ⟨pc, hmem, hpc⟩ : ∃ pc ∈ s.workers, pc ≠ .exited := by
    by_contra hall
    exact hend ⟨hio, fun pc hmem => not_not.mp fun hpc => hall ⟨pc, hmem, hpc⟩⟩
  obtain ⟨k, hk⟩ := List.mem_iff_getElem?.mp hmem
  exact worker_goes_on hreturn hplaced hroused hstop hfree hk hpc

/-- After `stop` the server comes to its end in every order of its threads' steps and whatever still arrives:
no run is longer than the steps that are left, and a run after which nothing can happen, unless a sleeping
worker wakes without a reason, has ended the I/O thread and every worker. -/
theorem stopped_server_ends [Inhabited ω] {n : ℕ} {u : σ} {es : List (Event ω)}
    (hrun : Transition.run (step cfg H) (State.init ω n u) es = some s) (hstop : s.isStopped = true)
    (hreturn : H.Return) (es' : List (Event ω)) (hrun' : Transition.run (step cfg H) s es' = some s') :
    es'.length + s'.remaining cfg ≤ s.remaining cfg ∧
      (s'.OutputFits → (∀ e, (∀ k, e ≠ .wake k) → step cfg H s' e = none) → s'.Ended) := by
  have hbound := Transition.run_bounded (step cfg H) (P := fun s => s.isStopped = true)
    (fun s e s' hs h => ⟨(stopped_step h).1 hs, remaining_step hs h⟩) hrun' hstop
  refine ⟨hbound, fun hfits hnone => ?_⟩
  have hall : Transition.run (step cfg H) (State.init ω n u) (es ++ es') = some s' := by
    rw [Transition.run_append, hrun, Option.bind_some, hrun']
  have hinv := Transition.run_preserves (step cfg H) (P := fun s => (Exclusive s ∧ Placed s) ∧ Roused s)
    (fun s e s' hs h => ⟨placed_step s e s' hs.1 h, (stopped_step h).2 hs.2⟩) hall
    ⟨placed_init n u, roused_init n u⟩
  have hstop' := Transition.run_preserves (step cfg H) (P := fun s => s.isStopped = true)
    (fun s e s' hs h => (stopped_step h).1 hs) hrun' hstop
  by_contra hend
  obtain ⟨e, he, s'', hs''⟩ := goes_on hreturn hinv.1.2 hinv.2 hstop' hfits hend
  rw [hnone e he] at hs''
  cases hs''

end Ends

namespace Sample

/-- `stop` is called behind `select`: the only client has sent a byte, and the worker sleeps. -/
def whenStopped : List (Event Answer) :=
  .take 0 :: acceptRound 5 ([], some true) ++
    [.checkStop, .lockScan, .scan false, .scan false, .select [5] [], .visitListener, .stop]

def untilEnded : List (Event Answer) :=
  [.lockDispatch, .dispatch .notReady (.data [65]) ([], some true), .dispatch .notReady .notReady ([], some true),
    .raise, .take 0, .checkStop]

end Sample

theorem stopped_server_ends_read : ∃ s s' : State Unit Sample.Answer,
    Transition.run (step Sample.config Sample.handlers) (State.init _ 1 ()) Sample.whenStopped = some s ∧
      Transition.run (step Sample.config Sample.handlers) s Sample.untilEnded = some s' ∧
      6 + s'.remaining Sample.config ≤ s.remaining Sample.config ∧ s'.reqs = [0] ∧ s'.Ended := by
  have hrun : Transition.run (step Sample.config Sample.handlers) (State.init Sample.Answer 1 ())
      Sample.whenStopped = some _ := rfl
  have hends := stopped_server_ends hrun rfl Sample.handlers_return Sample.untilEnded rfl
  refine ⟨_, _, hrun, rfl, hends.1, rfl, hends.2 ?_ ?_⟩
  · exact Sample.outputFits_of_first (by rintro rq ⟨⟩; decide) fun _ => rfl
  · intro e he
    cases e with
    | take k => rcases k with - | k <;> rfl
    | serve k o => rcases k with - | k <;> rfl
    | putBack k => rcases k with - | k <;> rfl
    | workerCaught k => rcases k with - | k <;> rfl
    | wake k => exact absurd rfl (he k)
    | _ => rfl

end Dcl.Tcp
