import Dcl.Tcp.Guarded

/-! # Wake-ups

A worker waits in `_event.wait()` as long as `reqs` is empty and the server runs. `io_process` raises the
event while it still holds `_lock`, `stop` after it has given the lock back; between the change and the
raise any other thread can move. `Heeded` is what every move keeps: whoever has made the worker's condition
false has still to raise the event. -/
namespace Dcl.Tcp
set_option autoImplicit false

section Waiting
variable {σ ω : Type} {cfg : LockConfig} {H : Handlers σ ω} {s s' : Threaded σ ω} {m : Move ω}

/-- The worker is blocked in `_event.wait()`: asleep, or woken and without the mutex yet. -/
def WorkerPc.inWait : WorkerPc → Bool
  | .waiting => true
  | .woken => true
  | _ => false

/-- The thread has changed what the workers wait for, and its `_event.raise()` is still to come. -/
def Threaded.hasToRaise (s : Threaded σ ω) : Tid → Prop
  | .io => s.pushed = true
  | .worker _ => False
  | .caller j => s.stopper = some j

structure Heeded (s : Threaded σ ω) (k : ℕ) : Prop where
  reqs : s.server.workers[k]? = some .waiting → s.server.reqs = [] ∨ s.hasToRaise .io
  stopped : s.server.workers[k]? = some .waiting →
    s.server.isStopped = false ∨ ∃ j, s.hasToRaise (.caller j)

theorem wake_ne_waiting (pc : WorkerPc) : pc.wake ≠ .waiting := by
  cases pc <;> nofun

theorem wakeAll_not_waiting (s : State σ ω) (k : ℕ) : s.wakeAll.workers[k]? ≠ some .waiting := by
  intro h
  rw [State.wakeAll, List.getElem?_map] at h
  obtain ⟨pc, -, hpc⟩ := Option.map_eq_some_iff.mp h
  exact wake_ne_waiting pc hpc

/-- Nobody sleeps through a raise. -/
theorem Heeded.of_not_waiting {k : ℕ} (h : s.server.workers[k]? ≠ some .waiting) : Heeded s k :=
  ⟨fun hk => absurd hk h, fun hk => absurd hk h⟩

theorem Heeded.of_server {k : ℕ} (hs : Heeded s k) (hserver : s'.server = s.server)
    (hpushed : s'.pushed = s.pushed) (hstopper : s'.stopper = s.stopper) : Heeded s' k := by
  refine ⟨fun hk => ?_, fun hk => ?_⟩
  · simpa only [Threaded.hasToRaise, hserver, hpushed] using hs.reqs (hserver ▸ hk)
  · simpa only [Threaded.hasToRaise, hserver, hstopper] using hs.stopped (hserver ▸ hk)

/-- A worker goes to sleep only on an empty queue of a running server; and a push owes a raise. -/
theorem Heeded.advance {k : ℕ} (hs : Heeded s k) {t : Tid} {e : Event ω} {r : State σ ω × Bool}
    (hinner : Inner s.server e r) : Heeded (s.advance t e r) k := by
  constructor
  · intro hk
    rcases hinner.waiting k hk with hold | hnew
    · rcases hs.reqs hold with hempty | hraise
      · cases hp : r.2
        · exact .inl (hinner.reqs hp hempty)
        · refine .inr ?_
          change (s.pushed || r.2) = true
          rw [hp, Bool.or_true]
      · refine .inr ?_
        change (s.pushed || r.2) = true
        rw [show s.pushed = true from hraise, Bool.true_or]
    · exact .inl hnew.1
  · intro hk
    change r.1.isStopped = false ∨ _
    rcases hinner.waiting k hk with hold | hnew
    · rw [hinner.stopped]
      exact hs.stopped hold
    · exact .inl hnew.2

theorem heeded_move (hg : Guarded s) (hs : ∀ k, Heeded s k) (h : move cfg H s m = some s') (k : ℕ) :
    Heeded s' k := by
  rcases moves h with ⟨t, th, -⟩ | ⟨t, th, -, -⟩ | ⟨t, th, -⟩ | ⟨e, t, r, ht, -, -, hinner⟩ |
    ⟨e, t, r, locked, hreturn, hinner⟩ | ⟨e, t, -, -, -, -⟩ | - | ⟨j, -, -⟩ | ⟨j, -, -⟩ | ⟨j, -⟩ | ⟨j, -⟩
  · exact (hs k).of_server rfl rfl rfl
  · exact (hs k).of_server rfl rfl rfl
  · exact (hs k).of_server rfl rfl rfl
  · exact (hs k).advance (inner_step ht hinner)
  · have hfits := hg.fits t
    rw [hreturn] at hfits
    exact (hs k).advance (inner_step hfits.1 hinner)
  · exact (hs k).of_server rfl rfl rfl
  · exact .of_not_waiting (wakeAll_not_waiting s.server k)
  · exact ⟨(hs k).reqs, fun _ => .inr ⟨j, rfl⟩⟩
  · exact (hs k).of_server rfl rfl rfl
  · exact (hs k).of_server rfl rfl rfl
  · exact .of_not_waiting (wakeAll_not_waiting s.server k)

theorem heeded_run {n : ℕ} {u : σ} {ms : List (Move ω)}
    (hrun : Transition.run (move cfg H) (.init ω n u) ms = some s) (k : ℕ) : Heeded s k := by
  have hinit : ∀ k, Heeded (.init ω n u) k := fun k => ⟨fun _ => .inl rfl, fun _ => .inl rfl⟩
  have hboth := Transition.run_preserves (move cfg H) (P := fun s => Guarded s ∧ ∀ k, Heeded s k)
    (fun s m s' hs h => ⟨guarded_move hs.1 h, heeded_move hs.1 hs.2 h⟩) hrun ⟨guarded_init n u, hinit⟩
  exact hboth.2 k

/-- While a worker is blocked in `_event.wait()`, either there is nothing for it to do, or the thread that
has filled the queue or stopped the server has still to raise the event, or the worker has been woken. -/
theorem no_lost_wakeup {n : ℕ} {u : σ} {ms : List (Move ω)} {k : ℕ} {pc : WorkerPc}
    (hrun : Transition.run (move cfg H) (.init ω n u) ms = some s)
    (hk : s.server.workers[k]? = some pc) (hwait : pc.inWait = true) :
    (s.server.reqs = [] ∧ s.server.isStopped = false) ∨
      (s.server.reqs ≠ [] ∧ s.hasToRaise .io ∨
        s.server.isStopped = true ∧ ∃ j, s.hasToRaise (.caller j)) ∨
      pc = .woken := by
  have hs := heeded_run hrun k
  cases pc with
  | waiting =>
    rcases Classical.em (s.server.reqs = []) with hempty | hfull
    · cases hstop : s.server.isStopped with
      | false => exact .inl ⟨hempty, rfl⟩
      | true =>
        rcases hs.stopped hk with hrunning | hraise
        · rw [hstop] at hrunning
          cases hrunning
        · exact .inr (.inl (.inr ⟨rfl, hraise⟩))
    · rcases hs.reqs hk with hempty | hraise
      · exact absurd hempty hfull
      · exact .inr (.inl (.inl ⟨hfull, hraise⟩))
  | woken => exact .inr (.inr rfl)
  | _ => cases hwait

end Waiting

namespace Sample
variable {ω : Type}

def lockConfig : LockConfig := ⟨config, true⟩

/-- The moves of a thread through a guarded section. -/
def guarded (t : Tid) (ms : List (Move ω)) : List (Move ω) :=
  .request t :: .acquire t :: ms ++ [.release t]

/-- A client connects on descriptor `fd`. -/
def connectMoves (fd : Fd) (o : ω) : List (Move ω) :=
  guarded .io [.act .checkStop] ++ guarded .io [.act .lockScan, .act (.scan false)] ++
    [.act (.select [3] [])] ++ guarded .io [.act .visitListener] ++ [.call (.accept fd o), .done .io] ++
    guarded .io [.act .acceptPush] ++
    guarded .io [.act .lockDispatch, .act (.dispatch .notReady .notReady o),
      .act (.dispatch .notReady .notReady o)]

/-- The only client sends `bs`; the moves end in the handler that the I/O thread calls. -/
def readMoves (fd : Fd) (bs : Bytes) (o : ω) : List (Move ω) :=
  guarded .io [.act .checkStop] ++
    guarded .io [.act .lockScan, .act (.scan false), .act (.scan false)] ++
    [.act (.select [fd] []), .act .visitListener, .request .io, .acquire .io, .act .lockDispatch,
      .call (.dispatch .notReady (.data bs) o)]

/-- A worker finds the queue empty and waits. -/
def sleepMoves (k : ℕ) : List (Move ω) :=
  [.request (.worker k), .acquire (.worker k), .act (.take k)]

/-- Two workers fall asleep, and the I/O thread puts the first request into the queue. -/
def pushMoves : List (Move Answer) :=
  sleepMoves 0 ++ sleepMoves 1 ++ connectMoves 7 ([], some true) ++ readMoves 7 [104, 105] ([], some true) ++
    [.done .io]

end Sample

theorem no_lost_wakeup_pushed :
    ∃ s, Transition.run (move Sample.lockConfig Sample.handlers) (.init Sample.Answer 2 ())
        Sample.pushMoves = some s ∧
      s.server.workers = [.waiting, .waiting] ∧ s.server.reqs = [0] ∧
      ((s.server.reqs = [] ∧ s.server.isStopped = false) ∨
        (s.server.reqs ≠ [] ∧ s.hasToRaise .io ∨
          s.server.isStopped = true ∧ ∃ j, s.hasToRaise (.caller j)) ∨
        WorkerPc.waiting = .woken) := by
  have hworker : Transition.run (move Sample.lockConfig Sample.handlers) (.init Sample.Answer 2 ())
      Sample.pushMoves = some _ := rfl
  exact ⟨_, hworker, rfl, rfl, no_lost_wakeup hworker (k := 0) rfl rfl⟩

end Dcl.Tcp
