import Dcl.Tcp.Ownership
import Dcl.Tcp.Wakeup

/-! # The threads refine the server

`Dcl.Tcp.step` takes each guarded section as one step and wakes the workers together with the push. Every
run of the threads is such a run: a move is a step of the server or changes nothing of it. Between the push
and the raise, the server is seen with its workers awake. -/
namespace Dcl.Tcp
set_option autoImplicit false

section Simulation
variable {σ ω : Type} {cfg : LockConfig} {H : Handlers σ ω} {s s' : Threaded σ ω} {m : Move ω}

/-- The server as `Dcl.Tcp.step` sees it. -/
def Threaded.view (s : Threaded σ ω) : State σ ω := if s.pushed then s.server.wakeAll else s.server

theorem view_of_not_pushed (h : s.pushed = false) : s.view = s.server := by
  rw [Threaded.view, h]
  rfl

theorem view_of_pushed (h : s.pushed = true) : s.view = s.server.wakeAll := by
  rw [Threaded.view, h]
  rfl

/-- The whole pass of the dispatch loop is the push and the raise behind it. -/
theorem dispatchStep_eq (s : State σ ω) (i : ℕ) (rfds wfds : List Fd) (wr : WriteResult)
    (rd : ReadResult) (o : ω) : dispatchStep H s i rfds wfds wr rd o =
      (pushStep H s i rfds wfds wr rd o).map fun r => if r.2 then r.1.wakeAll else r.1 := by
  unfold dispatchStep pushStep
  cases s.aReqs[i]? with
  | none => rfl
  | some id =>
    dsimp only
    cases s.heap id with
    | none => rfl
    | some rq =>
      dsimp only [Option.bind_some]
      cases ioTurn H o s.user id rq (wfds.contains rq.handle) (rfds.contains rq.handle) wr rd with
      | none => rfl
      | some t =>
        dsimp only [Option.map_some]
        split
        · rfl
        · split <;> rfl

theorem step_of_inner {s : State σ ω} {e : Event ω} {r : State σ ω × Bool}
    (h : innerStep cfg.toConfig H s e = some r) :
    step cfg.toConfig H s e = some (if r.2 then r.1.wakeAll else r.1) := by
  by_cases hd : ∃ wr rd o, e = .dispatch wr rd o
  · obtain ⟨wr, rd, o, rfl⟩ := hd
    simp only [innerStep] at h
    split at h
    case h_1 i rfds wfds hio =>
      split at h
      case isTrue hfits =>
        simp only [step, hio, hfits, ↓reduceIte, dispatchStep_eq, h, Option.map_some]
      case isFalse => cases h
    case h_2 => cases h
  · obtain ⟨s', hs', rfl⟩ := innerStep_of_ne (fun wr rd o he => hd ⟨wr, rd, o, he⟩) h
    exact hs'

theorem wakeAll_getElem? (s : State σ ω) {k : ℕ} {pc : WorkerPc} (h : s.workers[k]? = some pc) :
    s.wakeAll.workers[k]? = some pc.wake := by
  rw [State.wakeAll, List.getElem?_map, h]
  rfl

theorem wakeAll_setWorker (s : State σ ω) (k : ℕ) (pc : WorkerPc) :
    (s.setWorker k pc).wakeAll = s.wakeAll.setWorker k pc.wake := by
  simp [State.wakeAll, State.setWorker, List.map_set]

theorem setWorker_self {s : State σ ω} {k : ℕ} {pc : WorkerPc} (h : s.workers[k]? = some pc) :
    s.setWorker k pc = s := by
  obtain ⟨hlt, rfl⟩ := List.getElem?_eq_some_iff.mp h
  rw [State.setWorker, List.set_getElem_self]

theorem wakeAll_turn (s : State σ ω) (id : ReqId) (t : Turn σ ω) :
    (s.turn id t).wakeAll = s.wakeAll.turn id t := rfl

/-- A worker that moves without the lock moves as well when the others are awake. -/
theorem step_wakeAll {s s' : State σ ω} {e : Event ω} {k : ℕ} (ht : e.thread = some (.worker k))
    (hlocked : e.locked s = false) (h : step cfg.toConfig H s e = some s') :
    s'.wakeAll = s.wakeAll ∨ step cfg.toConfig H s.wakeAll e = some s'.wakeAll := by
  cases e with
  | serve k o =>
    simp only [step] at h
    split at h
    · rename_i id hk
      obtain ⟨rq, hrq, hturn⟩ := Option.bind_eq_some_iff.mp h
      obtain ⟨t, hp, rfl⟩ := Option.map_eq_some_iff.mp hturn
      right
      simp only [step, wakeAll_getElem? s hk, WorkerPc.wake, serveStep]
      have hheap : s.wakeAll.heap id = some rq := hrq
      have huser : s.wakeAll.user = s.user := rfl
      rw [hheap, Option.bind_some, huser, hp, Option.map_some, wakeAll_setWorker, wakeAll_turn]
      cases t.threw <;> rfl
    · cases h
  | workerCaught k =>
    simp only [step] at h
    split at h
    · rename_i hk
      cases h
      right
      simp only [step, wakeAll_getElem? s hk, WorkerPc.wake, wakeAll_setWorker]
      cases cfg.catchExceptions <;> rfl
    · cases h
  | wake k =>
    simp only [step] at h
    split at h
    · rename_i hk
      cases h
      left
      rw [wakeAll_setWorker]
      have hwoken : s.wakeAll.workers[k]? = some .woken := wakeAll_getElem? s hk
      exact setWorker_self hwoken
    · cases h
  | _ => first | (cases hlocked; done) | cases ht

/-- While the I/O thread scans or dispatches, no other thread is in a guarded section. -/
theorem not_holdsLock (hs : Guarded s) {t : Tid} (ht : (s.threads t).holds = true) (hio : t ≠ .io) :
    s.server.io.holdsLock = false := by
  rw [Bool.eq_false_iff]
  intro hl
  have hsection := hs.io hl
  have hholds : (s.threads .io).holds = true := by
    cases hth : s.threads .io with
    | runs g =>
      rw [hth] at hsection
      simp only [Thread.holds, Bool.or_eq_true]
      exact .inl hsection
    | calls locked e g =>
      rw [hth] at hsection
      simp only [Thread.holds, Bool.or_eq_true]
      exact .inl hsection
  have hown := (hs.owned .io).mpr hholds
  rw [(hs.owned t).mpr ht] at hown
  exact hio (Option.some.inj hown)

/-- A step of the server by one of its threads is one of its steps, or the event has been raised for the
worker already. -/
theorem advance_simulates (hs : Guarded s) {t : Tid} {e : Event ω} {r : State σ ω × Bool}
    (ht : e.thread = some t) (hraised : t = .io → s.pushed = false)
    (hbefore : (s.threads t).holds = e.locked s.server)
    (hinner : innerStep cfg.toConfig H s.server e = some r) :
    (s.advance t e r).view = s.view ∨
      ∃ d, step cfg.toConfig H s.view d = some (s.advance t e r).view := by
  have hstep := step_of_inner hinner
  cases hp : s.pushed with
  | false =>
    right
    refine ⟨e, ?_⟩
    rw [view_of_not_pushed hp, hstep]
    congr 1
    simp [Threaded.view, Threaded.advance, hp]
  | true =>
    have hio : t ≠ .io := fun hio => Bool.false_ne_true ((hraised hio).symm.trans hp)
    have hin := inner_step ht hinner
    have hr : r.2 = false := by
      rw [Bool.eq_false_iff]
      exact fun hr => hio (Option.some.inj (ht.symm.trans (hin.pushed hr).1))
    have hlocked : e.locked s.server = false := by
      rw [← hbefore, Bool.eq_false_iff]
      intro hholds
      have := not_holdsLock hs hholds hio
      rw [(hs.pushed hp).1] at this
      cases this
    rw [hr, if_neg Bool.false_ne_true] at hstep
    have hview : (s.advance t e r).view = r.1.wakeAll := by
      refine view_of_pushed ?_
      change (s.pushed || r.2) = true
      rw [hp, Bool.true_or]
    rw [hview, view_of_pushed hp]
    cases t with
    | io => exact absurd rfl hio
    | worker k => exact (step_wakeAll ht hlocked hstep).imp_right fun h => ⟨e, h⟩
    | caller j => cases e <;> cases ht

theorem move_simulates (hs : Guarded s) (h : move cfg H s m = some s') :
    s'.view = s.view ∨ ∃ d, step cfg.toConfig H s.view d = some s'.view := by
  rcases moves h with ⟨t, th, -⟩ | ⟨t, th, -, -⟩ | ⟨t, th, -⟩ | ⟨e, t, r, ht, hbegin, hraised, hinner⟩ |
    ⟨e, t, r, locked, hreturn, hinner⟩ | ⟨e, t, -, -, -, -⟩ | hdue | ⟨j, hin, hrun⟩ | ⟨j, -, -⟩ | ⟨j, -⟩ |
    ⟨j, hdue⟩
  · exact .inl rfl
  · exact .inl rfl
  · exact .inl rfl
  · refine advance_simulates hs ht (raised_of_not_blocked hraised) ?_ hinner
    rw [hbegin, holds_guardBefore]
  · have hfits := hs.fits t
    rw [hreturn] at hfits
    refine advance_simulates hs hfits.1 (hs.raised hreturn nofun) ?_ hinner
    rw [hreturn, hfits.2.2.2]
    exact Bool.or_false _
  · exact .inl rfl
  · exact .inl (view_of_pushed hdue).symm
  · right
    refine ⟨.stop, ?_⟩
    have hl := not_holdsLock hs (t := .caller j) (by rw [hin]; rfl) nofun
    have hp : s.pushed = false := by
      rw [Bool.eq_false_iff]
      intro hp
      rw [(hs.pushed hp).1] at hl
      cases hl
    simp [Threaded.view, Threaded.setThread, hp, step, hl, hrun]
  · exact .inl rfl
  · exact .inl rfl
  · right
    refine ⟨.raise, ?_⟩
    have hraising := hs.raising
    rw [hdue] at hraising
    cases hp : s.pushed with
    | false => simp [Threaded.view, hp, step, hraising, State.wakeAll]
    | true => simp [Threaded.view, hp, step, hraising, State.wakeAll]

/-- Every run of the threads is a run of `Dcl.Tcp.step`. -/
theorem threads_refine {n : ℕ} {u : σ} {ms : List (Move ω)}
    (hrun : Transition.run (move cfg H) (.init ω n u) ms = some s) :
    ∃ es, Transition.run (step cfg.toConfig H) (State.init ω n u) es = some s.view :=
  Transition.run_simulates (move cfg H) (step cfg.toConfig H) Threaded.view
    (fun _ _ _ hs h => guarded_move hs h) (fun _ _ _ hs h => move_simulates hs h) (guarded_init n u) hrun

/-- A connection is at most once in the two queues and the workers' hands, in every state of the threads,
because the server as the threads leave it is one that `Dcl.Tcp.step` reaches. -/
theorem threads_run_server {n : ℕ} {u : σ} {ms : List (Move ω)}
    (hrun : Transition.run (move cfg H) (.init ω n u) ms = some s) :
    (∃ es, Transition.run (step cfg.toConfig H) (State.init ω n u) es = some s.view) ∧
      ∀ x, s.server.aReqs.count x + s.server.reqs.count x + s.server.held.count x ≤ 1 := by
  obtain ⟨es, hes⟩ := threads_refine hrun
  refine ⟨⟨es, hes⟩, fun x => ?_⟩
  have honce := (exclusive_run hes).once x
  have hview : s.view.tally x = s.server.tally x := by
    cases hp : s.pushed with
    | false => rw [view_of_not_pushed hp]
    | true =>
      have hheld : s.server.wakeAll.held = s.server.held := State.held_wake s.server
      rw [view_of_pushed hp, State.tally, State.tally, hheld]
      rfl
  rw [hview, State.tally] at honce
  omega

end Simulation

/-- The first request is pushed while both workers wait: the server is seen with the two awake. -/
theorem threads_run_server_pushed :
    ∃ s, Transition.run (move Sample.lockConfig Sample.handlers) (.init Sample.Answer 2 ())
        Sample.pushMoves = some s ∧
      s.server.workers = [.waiting, .waiting] ∧ s.view.workers = [.woken, .woken] ∧
      (∃ es, Transition.run (step Sample.config Sample.handlers) (State.init _ 2 ()) es = some s.view) ∧
      ∀ x, s.server.aReqs.count x + s.server.reqs.count x + s.server.held.count x ≤ 1 := by
  have hrun : Transition.run (move Sample.lockConfig Sample.handlers) (.init Sample.Answer 2 ())
      Sample.pushMoves = some _ := rfl
  exact ⟨_, hrun, rfl, rfl, threads_run_server hrun⟩

end Dcl.Tcp
