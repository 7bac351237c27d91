import Dcl.Tcp.Callbacks
import Dcl.Tcp.Pending

/-! # Threads that are stuck

A thread of `tcp_server` that cannot move waits for the mutex, or sleeps in `_event.wait()`. If every handler
call ends, whoever owns the mutex can move on, and so can whoever has to raise the event; the only way to get
stuck is to wait for oneself. -/
namespace Dcl.Tcp
set_option autoImplicit false

/-! ## Threads that can move -/

section Progress
variable {σ ω : Type} {cfg : LockConfig} {H : Handlers σ ω} {s s' : Threaded σ ω} {t : Tid}

/-- Whose move it is. A sleeping worker is woken by others, or by the system without a reason. -/
def Move.thread : Move ω → Option Tid
  | .request t => some t
  | .acquire t => some t
  | .release t => some t
  | .act (.wake _) => none
  | .act e => e.thread
  | .call e => e.thread
  | .done t => some t
  | .raisePushed => some .io
  | .stop j => some (.caller j)
  | .isRunning j => some (.caller j)
  | .raiseStop j => some (.caller j)

/-- A system call that a thread has come to, such as `select`, is a move of the thread. -/
def CanMove (cfg : LockConfig) (H : Handlers σ ω) (s : Threaded σ ω) (t : Tid) : Prop :=
  ∃ m : Move ω, m.thread = some t ∧ (move cfg H s m).isSome = true

/-- The code of the thread has come to its end, or it is a worker that sleeps with nothing to do. -/
def AtRest (s : Threaded σ ω) : Tid → Prop
  | .io => s.server.io = .finished ∨ s.server.io = .died
  | .worker k => s.server.workers[k]? = none ∨ s.server.workers[k]? = some .exited ∨
      s.server.workers[k]? = some .waiting ∧ s.server.reqs = [] ∧ s.server.isStopped = false
  | .caller _ => False

/-- `t` has requested the mutex that `v` owns, or sleeps until `v` raises the event. -/
def WaitsFor (s : Threaded σ ω) (t v : Tid) : Prop :=
  (s.threads t).requests = true ∧ s.owner = some v ∨
    ∃ k, t = .worker k ∧ s.server.workers[k]? = some .waiting ∧ s.hasToRaise v

theorem canMove_acquire (hreq : (s.threads t).requests = true) (hfree : s.owner = none) :
    CanMove cfg H s t := by
  have hacquire : ∃ th, (s.threads t).acquire = some th := by
    cases hth : s.threads t with
    | runs g =>
      rw [hth] at hreq
      cases g <;> first | exact ⟨_, rfl⟩ | cases hreq
    | calls locked e g =>
      rw [hth] at hreq
      cases g <;> first | exact ⟨_, rfl⟩ | cases hreq
  obtain ⟨th, hth⟩ := hacquire
  refine ⟨.acquire t, rfl, ?_⟩
  simp only [move, hfree, hth, Option.map_some, Option.isSome_some]

theorem canMove_release {th : Thread ω} (h : (s.threads t).release = some th) : CanMove cfg H s t :=
  ⟨.release t, rfl, by rw [move, h, Option.map_some, Option.isSome_some]⟩

theorem canMove_request {th : Thread ω} (h : (s.threads t).request (wantsLock s t) = some th) :
    CanMove cfg H s t :=
  ⟨.request t, rfl, by rw [move, h, Option.map_some, Option.isSome_some]⟩

/-- A step of the server is a move of its thread, by itself or through the handler it calls. -/
theorem canMove_step {e : Event ω} (ht : e.thread = some t) (hwake : ∀ k, e ≠ .wake k)
    (hbegin : s.threads t = .runs (e.guardBefore s.server)) (hraised : s.blocked t = false)
    (hpossible : e.possible cfg = true)
    (h : ∃ r, innerStep cfg.toConfig H s.server e = some r) : CanMove cfg H s t := by
  obtain ⟨r, hr⟩ := h
  cases hcalls : e.calls cfg H s.server with
  | true =>
    refine ⟨.call e, ht, ?_⟩
    simp [move, ht, hbegin, hcalls, hraised, hr]
  | false =>
    refine ⟨.act e, ?_, ?_⟩
    · cases e <;> first | exact ht | exact absurd rfl (hwake _)
    · simp [move, ht, hbegin, hcalls, hraised, hpossible, perform, hr]

theorem canMove_done (hs : Sound cfg s) (hreturn : H.Return) {locked : Bool} {e : Event ω}
    (h : s.threads t = .calls locked e .outside) : CanMove cfg H s t := by
  obtain ⟨r, hr⟩ := inner_of_due hreturn hs.objects (hs.coherent.calls t locked e _ h).2
  refine ⟨.done t, rfl, ?_⟩
  simp only [move, h, perform, hr, Option.map_some, Option.isSome_some]

/-! ## Threads inside and outside of a section -/

variable [Inhabited ω]

theorem io_step_inside (hs : Sound cfg s) (hreturn : H.Return) (hfits : s.server.OutputFits)
    (hat : s.atGuard .io = true) : ∃ e : Event ω, e.thread = some .io ∧ (∀ k, e ≠ .wake k) ∧
      e.locked s.server = true ∧ e.possible cfg = true ∧ ∃ r, innerStep cfg.toConfig H s.server e = some r := by
  have hstep {e : Event ω} {s' : State σ ω} (hd : ∀ wr rd o, e ≠ .dispatch wr rd o)
      (h : step cfg.toConfig H s.server e = some s') : ∃ r, innerStep cfg.toConfig H s.server e = some r :=
    ⟨_, inner_of_step hd h⟩
  simp only [Threaded.atGuard, wantsLock, beq_self_eq_true, Bool.true_and, Bool.or_eq_true] at hat
  cases hio : s.server.io with
  | top => exact ⟨.checkStop, rfl, (by simp), rfl, rfl, hstep (by simp) (by simp only [step, hio]; rfl)⟩
  | enterScan => exact ⟨.lockScan, rfl, (by simp), rfl, rfl, hstep (by simp) (by simp only [step, hio]; rfl)⟩
  | scan i rfds wfds =>
    exact ⟨.scan false, rfl, (by simp), rfl, rfl, inner_of_due hreturn hs.objects ⟨i, rfds, wfds, hio⟩⟩
  | accepting ls rfds wfds =>
    cases ls with
    | nil => exact ⟨.lockDispatch, rfl, (by simp), rfl, rfl, hstep (by simp) (by simp only [step, hio]; rfl)⟩
    | cons l ls =>
      rw [hio] at hat
      have hready : (IoPc.accepting (l :: ls) rfds wfds).readyListener = true :=
        hat.resolve_right Bool.false_ne_true
      refine ⟨.visitListener, rfl, (by simp), by rw [Event.locked, hio, hready], rfl, ?_⟩
      refine Option.isSome_iff_exists.mp ?_
      simp only [innerStep, step, hio]
      split <;> rfl
  | acceptPush ls rfds wfds id =>
    exact ⟨.acceptPush, rfl, (by simp), rfl, rfl, hstep (by simp) (by simp only [step, hio]; rfl)⟩
  | dispatch i rfds wfds =>
    exact ⟨.dispatch .notReady .notReady default, rfl, (by simp), rfl, rfl,
      inner_of_due hreturn hs.objects (due_notReady hfits hio)⟩
  | _ =>
    rw [hio] at hat
    rcases hat with hat | hat <;> cases hat

theorem canMove_inside (hs : Sound cfg s) (hreturn : H.Return) (hfits : s.server.OutputFits)
    (h : s.threads t = .runs .inside) : CanMove cfg H s t := by
  have hat := hs.coherent.guards t (by rw [h]; rfl)
  cases t with
  | io =>
    cases hp : s.pushed with
    | true => exact ⟨.raisePushed, rfl, by rw [move, hp]; rfl⟩
    | false =>
      obtain ⟨e, ht, hwake, hlocked, hpossible, hr⟩ := io_step_inside hs hreturn hfits hat
      refine canMove_step ht hwake ?_ (by rw [Threaded.blocked, hp]; rfl) hpossible hr
      rw [h, Event.guardBefore, hlocked, if_pos rfl]
  | worker k =>
    have hfree := not_holdsLock hs.guarded (t := .worker k) (by rw [h]; rfl) (by simp)
    have hbegin (e : Event ω) (hl : e.locked s.server = true) :
        s.threads (.worker k) = .runs (e.guardBefore s.server) := by
      rw [h, Event.guardBefore, hl, if_pos rfl]
    have hraised : s.blocked (.worker k) = false := Bool.and_false _
    simp only [Threaded.atGuard, wantsLock, Bool.or_eq_true] at hat
    have htake (hk : s.server.workers[k]? = some .idle ∨ s.server.workers[k]? = some .woken) :
        CanMove cfg H s (.worker k) := by
      have hstep : step cfg.toConfig H s.server (.take k) = some (takeStep s.server k) := by
        rcases hk with hk | hk <;> simp [step, hk, hfree]
      exact canMove_step (e := .take k) rfl (by simp) (hbegin _ rfl) hraised rfl ⟨_, inner_of_step (by simp) hstep⟩
    rcases hat with hat | hat
    · split at hat
      case h_1 hk => exact htake (.inl hk)
      case h_2 hk => exact htake (.inr hk)
      case h_3 id hk =>
        have hstep : step cfg.toConfig H s.server (.putBack k) =
            some { s.server.setWorker k .idle with aReqs := s.server.aReqs ++ [id] } := by
          simp [step, hk, hfree]
        exact canMove_step (e := .putBack k) rfl (by simp) (hbegin _ rfl) hraised rfl
          ⟨_, inner_of_step (by simp) hstep⟩
      case h_4 => cases hat
    · cases hat
  | caller j => exact ⟨.isRunning j, rfl, by simp only [move, h, Option.isSome_some]⟩

/-- Outside of every section a thread goes on, or its code has ended, or it is a worker that sleeps. -/
theorem canMove_outside (hs : Sound cfg s) (hreturn : H.Return) (h : s.threads t = .runs .outside) :
    CanMove cfg H s t ∨ AtRest s t ∨ ∃ k, t = .worker k ∧ s.server.workers[k]? = some .waiting := by
  cases hw : wantsLock s t with
  | true => exact .inl (canMove_request (by rw [h, hw]; rfl))
  | false =>
    have hbegin (e : Event ω) (hl : e.locked s.server = false) :
        s.threads t = .runs (e.guardBefore s.server) := by
      rw [h, Event.guardBefore, hl]
      rfl
    have hraised : s.blocked t = false := by
      rw [Threaded.blocked, Bool.and_eq_false_iff, beq_eq_false_iff_ne]
      exact Classical.or_iff_not_imp_right.mpr fun ht => hs.guarded.raised h (by simp) (not_not.mp ht)
    have hmove {e : Event ω} (ht : e.thread = some t) (hwake : ∀ k, e ≠ .wake k)
        (hl : e.locked s.server = false) (hpossible : e.possible cfg = true)
        (hr : (innerStep cfg.toConfig H s.server e).isSome = true) : CanMove cfg H s t :=
      canMove_step ht hwake (hbegin e hl) hraised hpossible (Option.isSome_iff_exists.mp hr)
    cases t with
    | io =>
      have hnot : s.server.io.holdsLock = false := by
        rw [Bool.eq_false_iff]
        intro hl
        have hsection := hs.guarded.io hl
        rw [h] at hsection
        cases hsection
      cases hio : s.server.io with
      | top | enterScan | acceptPush => simp [wantsLock, hio] at hw
      | scan | dispatch =>
        rw [hio] at hnot
        cases hnot
      | selecting rfds wfds =>
        exact .inl (hmove (e := .select [] []) rfl (by simp) rfl rfl (by simp [innerStep, step, hio]))
      | accepting ls rfds wfds =>
        cases ls with
        | nil => simp [wantsLock, hio] at hw
        | cons l ls =>
          have hready : (IoPc.accepting (l :: ls) rfds wfds).readyListener = false := by
            simpa only [wantsLock, hio] using hw
          refine .inl (hmove (e := .visitListener) rfl (by simp) (by rw [Event.locked, hio, hready]) rfl ?_)
          simp only [innerStep, step, hio]
          split <;> rfl
      | acceptCall ls rfds wfds =>
        exact .inl (hmove (e := .acceptFails) rfl (by simp) rfl rfl (by simp [innerStep, step, hio]))
      | catching => exact .inl (hmove (e := .caught) rfl (by simp) rfl rfl (by simp [innerStep, step, hio]))
      | finished => exact .inr (.inl (.inl hio))
      | died => exact .inr (.inl (.inr hio))
    | worker k =>
      cases hk : s.server.workers[k]? with
      | none => exact .inr (.inl (.inl hk))
      | some pc =>
        cases pc with
        | idle | woken | returning => simp [wantsLock, hk] at hw
        | waiting => exact .inr (.inr ⟨k, rfl, hk⟩)
        | exited => exact .inr (.inl (.inr (.inl hk)))
        | holding id =>
          have hdue : (Event.serve k default : Event ω).Due cfg s.server := ⟨id, hk⟩
          refine .inl (hmove (e := .serve k default) rfl (by simp) rfl rfl ?_)
          exact Option.isSome_iff_exists.mpr (inner_of_due hreturn hs.objects hdue)
        | catching =>
          exact .inl (hmove (e := .workerCaught k) rfl (by simp) rfl rfl (by simp [innerStep, step, hk]))
    | caller j =>
      have hstopper : s.stopper = some j := by simpa [wantsLock] using hw
      exact .inl ⟨.raiseStop j, rfl, by simp only [move, h, hstopper, if_true, Option.isSome_some]⟩

/-- A thread that does not ask for the mutex goes on, unless its code is outside of every section. -/
theorem canMove_of_not_outside (hs : Sound cfg s) (hreturn : H.Return) (hfits : s.server.OutputFits)
    (hreq : (s.threads t).requests = false) (hout : s.threads t ≠ .runs .outside) : CanMove cfg H s t := by
  cases hth : s.threads t with
  | runs g =>
    cases g with
    | outside => exact absurd hth hout
    | requesting =>
      rw [hth] at hreq
      cases hreq
    | inside => exact canMove_inside hs hreturn hfits hth
    | leaving => exact canMove_release (by rw [hth]; rfl)
  | calls locked e g =>
    cases g with
    | outside => exact canMove_done hs hreturn hth
    | requesting =>
      rw [hth] at hreq
      cases hreq
    | inside => exact canMove_release (by rw [hth]; rfl)
    | leaving => exact absurd rfl (hs.coherent.calls t locked e _ hth).1

end Progress

/-! ## Threads that wait -/

section Waits
variable {σ ω : Type} {cfg : LockConfig} {H : Handlers σ ω} {s : Threaded σ ω} {t : Tid}

/-- The code of the thread has not ended, and it does not sleep. -/
def Busy (s : Threaded σ ω) : Tid → Prop
  | .io => s.server.io ≠ .finished ∧ s.server.io ≠ .died
  | .worker k => ∃ pc, s.server.workers[k]? = some pc ∧ pc ≠ .exited ∧ pc ≠ .waiting
  | .caller _ => True

theorem Busy.not_atRest (h : Busy s t) : ¬AtRest s t := by
  cases t with
  | io => exact not_or.mpr h
  | worker k =>
    obtain ⟨pc, hk, hexited, hwaiting⟩ := h
    rintro (hnone | hk' | ⟨hk', -⟩)
    · rw [hk] at hnone
      cases hnone
    · exact hexited (Option.some.inj (hk.symm.trans hk'))
    · exact hwaiting (Option.some.inj (hk.symm.trans hk'))
  | caller j => exact id

theorem Busy.awake {k : ℕ} (h : Busy s (.worker k)) : s.server.workers[k]? ≠ some .waiting := by
  obtain ⟨pc, hk, -, hwaiting⟩ := h
  exact fun hk' => hwaiting (Option.some.inj (hk.symm.trans hk'))

theorem busy_of_atGuard (h : s.atGuard t = true) : Busy s t := by
  cases t with
  | io =>
    constructor <;> intro hio <;>
      simp [Threaded.atGuard, wantsLock, IoPc.readyListener, IoPc.holdsLock, hio] at h
  | worker k =>
    cases hk : s.server.workers[k]? with
    | none => simp [Threaded.atGuard, wantsLock, hk] at h
    | some pc =>
      refine ⟨pc, hk, ?_, ?_⟩ <;> rintro rfl <;> simp [Threaded.atGuard, wantsLock, hk] at h
  | caller j => trivial

theorem busy_of_due {e : Event ω} (ht : e.thread = some t) (h : e.Due cfg s.server) : Busy s t := by
  have hio {pc : IoPc} (hpc : s.server.io = pc) (hf : pc ≠ .finished) (hd : pc ≠ .died) : Busy s .io := by
    rw [← hpc] at hf hd
    exact ⟨hf, hd⟩
  cases e with
  | scan throws =>
    cases ht
    obtain ⟨i, rfds, wfds, hpc⟩ := h
    exact hio hpc nofun nofun
  | accept fd o =>
    cases ht
    obtain ⟨⟨ls, rfds, wfds, hpc⟩, -⟩ := h
    exact hio hpc nofun nofun
  | dispatch wr rd o =>
    cases ht
    obtain ⟨i, rfds, wfds, hpc, -⟩ := h
    exact hio hpc nofun nofun
  | caught =>
    cases ht
    exact hio h nofun nofun
  | serve k o =>
    cases ht
    obtain ⟨id, hk⟩ := h
    exact ⟨_, hk, nofun, nofun⟩
  | workerCaught k =>
    cases ht
    exact ⟨_, h, nofun, nofun⟩
  | _ => exact h.elim

/-- A thread that asks for the mutex neither rests nor sleeps. -/
theorem busy_of_requests (hs : Sound cfg s) (hreq : (s.threads t).requests = true) : Busy s t := by
  cases hth : s.threads t with
  | runs g =>
    rw [hth] at hreq
    exact busy_of_atGuard (hs.coherent.guards t (by rw [hth]; exact Bool.or_eq_true_iff.mpr (.inl hreq)))
  | calls locked e g =>
    have hfits := hs.guarded.fits t
    rw [hth] at hfits
    exact busy_of_due hfits.1 (hs.coherent.calls t locked e g hth).2

/-- The threads that call `stop` and `is_running` call no handler. -/
theorem caller_runs (hs : Sound cfg s) (j : ℕ) : ∃ g, s.threads (.caller j) = .runs g := by
  cases hth : s.threads (.caller j) with
  | runs g => exact ⟨g, rfl⟩
  | calls locked e g =>
    have hfits := hs.guarded.fits (.caller j)
    rw [hth] at hfits
    have ht := hfits.1
    cases e <;> cases ht

/-- A thread that has stopped the server asks for nothing before it has raised the event. -/
theorem not_enters_of_stopper (hs : Sound cfg s) {j : ℕ} (h : s.stopper = some j) :
    (s.threads (.caller j)).enters = false := by
  rw [Bool.eq_false_iff]
  intro he
  have hat := hs.coherent.guards _ he
  simp [Threaded.atGuard, wantsLock, h] at hat

/-- The thread has requested the mutex it owns. -/
def SelfWait (s : Threaded σ ω) (t : Tid) : Prop := (s.threads t).requests = true ∧ s.owner = some t

/-- What moves is another thread. -/
theorem SelfWait.ne {v : Tid} {th : Thread ω} (h : SelfWait s t) (hv : s.threads v = th)
    (hth : th.requests = false) : t ≠ v := by
  rintro rfl
  have hreq := h.1
  rw [hv, hth] at hreq
  cases hreq

theorem SelfWait.setThread {v : Tid} (h : SelfWait s t) (th : Thread ω) (hv : t ≠ v) :
    SelfWait (s.setThread v th) t := by
  refine ⟨?_, h.2⟩
  change (Function.update s.threads v th t).requests = true
  rw [Function.update_of_ne hv]
  exact h.1

theorem requests_guardBefore (s : State σ ω) (e : Event ω) :
    (Thread.runs (e.guardBefore s) : Thread ω).requests = false := by
  unfold Event.guardBefore
  split <;> rfl

theorem SelfWait.advance (hs : Sound cfg s) {v : Tid} {e : Event ω} {r : State σ ω × Bool}
    (h : SelfWait s t) (hv : t ≠ v) (hbefore : (s.threads v).holds = e.locked s.server) :
    SelfWait (s.advance v e r) t := by
  refine ⟨(h.setThread (.runs (e.guardAfter s.server r.1)) hv).1, ?_⟩
  change (if e.waits r.1 then none else s.owner) = some t
  rw [if_neg, h.2]
  -- only the owner gives the mutex back
  intro hw
  have hown := (hs.guarded.owned v).mpr (hbefore.trans (locked_of_waits hw))
  exact hv (Option.some.inj (h.2.symm.trans hown))

/-- A thread that waits for itself makes no move, and no other thread helps it. -/
theorem SelfWait.move {m : Move ω} {s' : Threaded σ ω} (hs : Sound cfg s) (h : SelfWait s t)
    (hmove : move cfg H s m = some s') : m.thread ≠ some t ∧ SelfWait s' t := by
  have hthread {v : Tid} (hv : t ≠ v) : some v ≠ some t := fun he => hv (Option.some.inj he).symm
  cases moves hmove with
  | request v th asks =>
    have hv : t ≠ v := by
      obtain ⟨ha, -⟩ | ⟨locked, e, ha, -⟩ := Thread.request_cases asks <;> exact h.ne ha rfl
    exact ⟨hthread hv, h.setThread _ hv⟩
  | acquire v th free gets =>
    have howner := h.2
    rw [free] at howner
    cases howner
  | release v th gives =>
    have hv : t ≠ v ∧ (s.threads v).holds = true := by
      obtain ⟨ha, -⟩ | ⟨locked, e, ha, -⟩ := Thread.release_cases gives
      · exact ⟨h.ne ha rfl, by rw [ha]; rfl⟩
      · exact ⟨h.ne ha rfl, by rw [ha]; exact Bool.or_true locked⟩
    exact absurd (Option.some.inj (h.2.symm.trans ((hs.guarded.owned v).mpr hv.2))) hv.1
  | act e v r thread begins raised inner =>
    have hv := h.ne begins (requests_guardBefore _ _)
    have hact (he : (Move.act e).thread = some t) : e.thread = some t := by
      cases e <;> first | exact he | cases he
    exact ⟨fun he => hv (Option.some.inj ((hact he).symm.trans thread)),
      h.advance hs hv (by rw [begins, holds_guardBefore])⟩
  | done e v r locked returns inner =>
    have hfits := hs.guarded.fits v
    rw [returns] at hfits
    have hv := h.ne returns rfl
    refine ⟨hthread hv, h.advance hs hv ?_⟩
    rw [returns, hfits.2.2.2]
    exact Bool.or_false _
  | call e v thread begins raised calls =>
    have hv := h.ne begins (requests_guardBefore _ _)
    exact ⟨fun he => hv (Option.some.inj (he.symm.trans thread)), h.setThread _ hv⟩
  | raisePushed due =>
    exact ⟨hthread (h.ne (hs.guarded.pushed due).2 rfl), h⟩
  | stop j inside running =>
    have hv := h.ne inside rfl
    exact ⟨hthread hv, (h.setThread _ hv :)⟩
  | stopAgain j inside stopped => exact ⟨hthread (h.ne inside rfl), h.setThread _ (h.ne inside rfl)⟩
  | isRunning j inside => exact ⟨hthread (h.ne inside rfl), h.setThread _ (h.ne inside rfl)⟩
  | raiseStop j due =>
    refine ⟨hthread ?_, h⟩
    rintro rfl
    have henters := not_enters_of_stopper hs due
    have hreq := h.1
    obtain ⟨g, hg⟩ := caller_runs hs j
    rw [hg] at hreq henters
    exact Bool.false_ne_true (henters.symm.trans (Bool.or_eq_true_iff.mpr (.inl hreq)))

theorem SelfWait.not_canMove (hs : Sound cfg s) (h : SelfWait s t) : ¬CanMove cfg H s t := by
  rintro ⟨m, hm, hmove⟩
  obtain ⟨s', hs'⟩ := Option.isSome_iff_exists.mp hmove
  exact (h.move hs hs').1 hm

theorem SelfWait.run {ms : List (Move ω)} {s' : Threaded σ ω} (hs : Sound cfg s) (h : SelfWait s t)
    (hrun : Transition.run (Tcp.move cfg H) s ms = some s') : SelfWait s' t :=
  (Transition.run_preserves (Tcp.move cfg H) (P := fun s => Sound cfg s ∧ SelfWait s t)
    (fun s m s' hs h => ⟨sound_move s m s' hs.1 h, (hs.2.move hs.1 h).2⟩) hrun ⟨hs, h⟩).2

/-- The thread that owes a raise can move. -/
theorem canMove_of_hasToRaise (hs : Sound cfg s) (h : s.hasToRaise t) : CanMove cfg H s t := by
  cases t with
  | io =>
    have hp : s.pushed = true := h
    exact ⟨.raisePushed, rfl, by rw [move, hp]; rfl⟩
  | worker k => exact h.elim
  | caller j =>
    have hstopper : s.stopper = some j := h
    have henters := not_enters_of_stopper hs hstopper
    obtain ⟨g, hth⟩ := caller_runs hs j
    rw [hth] at henters
    cases g with
    | outside => exact ⟨.raiseStop j, rfl, by simp only [move, hth, hstopper, if_true, Option.isSome_some]⟩
    | leaving => exact canMove_release (by rw [hth]; rfl)
    | requesting | inside => cases henters

variable [Inhabited ω]

/-- The owner of the mutex gives it back, if it does not wait for it. -/
theorem canMove_of_owner (hs : Sound cfg s) (hself : NoSelfWait s) (hreturn : H.Return)
    (hfits : s.server.OutputFits) (howner : s.owner = some t) : CanMove cfg H s t := by
  refine canMove_of_not_outside hs hreturn hfits ?_ fun hout => ?_
  · rw [Bool.eq_false_iff]
    exact fun hreq => hself t hreq howner
  · have hholds := (hs.guarded.owned t).mp howner
    rw [hout] at hholds
    cases hholds

theorem canMove_or_waits (hs : Sound cfg s) (hself : NoSelfWait s) (hreturn : H.Return)
    (hfits : s.server.OutputFits) (t : Tid) :
    CanMove cfg H s t ∨ AtRest s t ∨ ∃ v, WaitsFor s t v ∧ CanMove cfg H s v := by
  cases hreq : (s.threads t).requests with
  | true =>
    cases howner : s.owner with
    | none => exact .inl (canMove_acquire hreq howner)
    | some v =>
      exact .inr (.inr ⟨v, .inl ⟨hreq, howner⟩, canMove_of_owner hs hself hreturn hfits howner⟩)
  | false =>
    by_cases hout : s.threads t = .runs .outside
    case neg => exact .inl (canMove_of_not_outside hs hreturn hfits hreq hout)
    rcases canMove_outside hs hreturn hout with hmove | hrest | ⟨k, rfl, hk⟩
    · exact .inl hmove
    · exact .inr (.inl hrest)
    · rcases (hs.heeded k).reqs hk with hempty | hraise
      · rcases (hs.heeded k).stopped hk with hrunning | ⟨j, hraise⟩
        · exact .inr (.inl (.inr (.inr ⟨hk, hempty, hrunning⟩)))
        · exact .inr (.inr ⟨.caller j, .inr ⟨k, rfl, hk, hraise⟩, canMove_of_hasToRaise hs hraise⟩)
      · exact .inr (.inr ⟨.io, .inr ⟨k, rfl, hk, hraise⟩, canMove_of_hasToRaise hs hraise⟩)

/-- The only way for the server to get stuck is that a thread waits for itself. As long as none does, each
thread can move, or rests, or waits for a thread that can move; and one that does waits for ever. -/
theorem stuck_iff_self_wait {n : ℕ} {u : σ} {ms : List (Move ω)}
    (hrun : Transition.run (move cfg H) (.init ω n u) ms = some s) (hreturn : H.Return)
    (hfits : s.server.OutputFits) :
    (NoSelfWait s ↔
      ∀ t, CanMove cfg H s t ∨ AtRest s t ∨ ∃ v, WaitsFor s t v ∧ CanMove cfg H s v) ∧
      ∀ t, SelfWait s t → ∀ ms' s', Transition.run (move cfg H) s ms' = some s' → SelfWait s' t := by
  have hs := sound_run hrun
  refine ⟨⟨fun hself => canMove_or_waits hs hself hreturn hfits, fun hlive t hreq howner => ?_⟩,
    fun t h ms' s' hrun' => h.run hs hrun'⟩
  have hbusy := busy_of_requests hs hreq
  have hstuck := SelfWait.not_canMove (H := H) hs ⟨hreq, howner⟩
  rcases hlive t with hmove | hrest | ⟨v, hwait, hmove⟩
  · exact hstuck hmove
  · exact hbusy.not_atRest hrest
  · rcases hwait with ⟨-, hv⟩ | ⟨k, rfl, hk, -⟩
    · obtain rfl : t = v := Option.some.inj (howner.symm.trans hv)
      exact hstuck hmove
    · exact hbusy.awake hk

end Waits

/-- The I/O thread asks `is_running` in the handler it calls from `connection_read`: it is stuck, and a
worker that requests the mutex behind it is stuck with it. -/
theorem stuck_iff_self_wait_read :
    ∃ s, Transition.run (move Sample.lockConfig Sample.handlers) (.init Sample.Answer 2 ())
        (Sample.readAsks ++ [.request (.worker 0)]) = some s ∧ SelfWait s .io ∧
      (∀ ms s', Transition.run (move Sample.lockConfig Sample.handlers) s ms = some s' → SelfWait s' .io) ∧
      ¬∀ t, CanMove Sample.lockConfig Sample.handlers s t ∨ AtRest s t ∨
        ∃ v, WaitsFor s t v ∧ CanMove Sample.lockConfig Sample.handlers s v := by
  have hrun : Transition.run (move Sample.lockConfig Sample.handlers) (.init Sample.Answer 2 ())
      (Sample.readAsks ++ [.request (.worker 0)]) = some _ := rfl
  have hstuck := stuck_iff_self_wait hrun Sample.handlers_return
    (Sample.outputFits_of_first (by rintro rq ⟨⟩; decide) fun _ => rfl)
  exact ⟨_, hrun, ⟨rfl, rfl⟩, hstuck.2 .io ⟨rfl, rfl⟩, fun h => hstuck.1.mpr h .io rfl rfl⟩

end Dcl.Tcp
