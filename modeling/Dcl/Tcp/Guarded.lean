import Dcl.Tcp.Locking

/-! # What a move does to `_lock`

`moves` is the inversion of `move`: each constructor of `Moves` is one thing a thread can do. From it
follows `Guarded`, which holds along every run: the owner of the mutex is the thread whose guard is
entered, the I/O thread holds it all through the scan and the dispatch, and a handler called there finds
it held. -/
namespace Dcl.Tcp
set_option autoImplicit false

section Inversion
variable {σ ω : Type} {cfg : LockConfig} {H : Handlers σ ω} {s s' : Threaded σ ω} {m : Move ω}

/-- The state behind a step of the server. -/
def Threaded.advance (s : Threaded σ ω) (t : Tid) (e : Event ω) (r : State σ ω × Bool) : Threaded σ ω :=
  { s.setThread t (.runs (e.guardAfter s.server r.1)) with
    server := r.1
    owner := if e.waits r.1 then none else s.owner
    pushed := s.pushed || r.2 }

inductive Moves (cfg : LockConfig) (H : Handlers σ ω) (s : Threaded σ ω) : Move ω → Threaded σ ω → Prop
  | request (t : Tid) (th : Thread ω) (asks : (s.threads t).request (wantsLock s t) = some th) :
      Moves cfg H s (.request t) (s.setThread t th)
  | acquire (t : Tid) (th : Thread ω) (free : s.owner = none) (gets : (s.threads t).acquire = some th) :
      Moves cfg H s (.acquire t) { s.setThread t th with owner := some t }
  | release (t : Tid) (th : Thread ω) (gives : (s.threads t).release = some th) :
      Moves cfg H s (.release t) { s.setThread t th with owner := none }
  | act (e : Event ω) (t : Tid) (r : State σ ω × Bool) (thread : e.thread = some t)
      (begins : s.threads t = .runs (e.guardBefore s.server)) (raised : s.blocked t = false)
      (inner : innerStep cfg.toConfig H s.server e = some r) : Moves cfg H s (.act e) (s.advance t e r)
  | done (e : Event ω) (t : Tid) (r : State σ ω × Bool) (locked : Bool)
      (returns : s.threads t = .calls locked e .outside)
      (inner : innerStep cfg.toConfig H s.server e = some r) : Moves cfg H s (.done t) (s.advance t e r)
  | call (e : Event ω) (t : Tid) (thread : e.thread = some t)
      (begins : s.threads t = .runs (e.guardBefore s.server)) (raised : s.blocked t = false)
      (calls : e.calls cfg H s.server = true) :
      Moves cfg H s (.call e) (s.setThread t (.calls (e.locked s.server) e .outside))
  | raisePushed (due : s.pushed = true) :
      Moves cfg H s .raisePushed { s with server := s.server.wakeAll, pushed := false }
  | stop (j : ℕ) (inside : s.threads (.caller j) = .runs .inside) (running : s.server.isStopped = false) :
      Moves cfg H s (.stop j) { s.setThread (.caller j) (.runs .leaving) with
        server := { s.server with isStopped := true, raising := true }
        stopper := some j }
  | stopAgain (j : ℕ) (inside : s.threads (.caller j) = .runs .inside) (stopped : s.server.isStopped = true) :
      Moves cfg H s (.stop j) (s.setThread (.caller j) (.runs .leaving))
  | isRunning (j : ℕ) (inside : s.threads (.caller j) = .runs .inside) :
      Moves cfg H s (.isRunning j) (s.setThread (.caller j) (.runs .leaving))
  | raiseStop (j : ℕ) (due : s.stopper = some j) :
      Moves cfg H s (.raiseStop j)
        { s with server := { s.server.wakeAll with raising := false }, stopper := none }

theorem perform_eq {t : Tid} {e : Event ω} (h : perform cfg H s t e = some s') :
    ∃ r, innerStep cfg.toConfig H s.server e = some r ∧ s' = s.advance t e r := by
  obtain ⟨r, hr, rfl⟩ := Option.map_eq_some_iff.mp h
  exact ⟨r, hr, rfl⟩

theorem moves (h : move cfg H s m = some s') : Moves cfg H s m s' := by
  cases m with
  | request t =>
    obtain ⟨th, hth, rfl⟩ := Option.map_eq_some_iff.mp h
    exact .request t th hth
  | acquire t =>
    simp only [move] at h
    split at h
    case h_1 ho =>
      obtain ⟨th, hth, rfl⟩ := Option.map_eq_some_iff.mp h
      exact .acquire t th ho hth
    case h_2 => cases h
  | release t =>
    obtain ⟨th, hth, rfl⟩ := Option.map_eq_some_iff.mp h
    exact .release t th hth
  | act e =>
    simp only [move] at h
    split at h
    case h_1 => cases h
    case h_2 t ht =>
      split at h
      case h_1 g hg =>
        split at h
        case isTrue hc =>
          obtain ⟨r, hr, rfl⟩ := perform_eq h
          exact .act e t r ht (hc.1 ▸ hg) hc.2.2.2 hr
        case isFalse => cases h
      case h_2 => cases h
  | call e =>
    simp only [move] at h
    split at h
    case h_1 => cases h
    case h_2 t ht =>
      split at h
      case h_1 g hg =>
        split at h
        case isTrue hc =>
          cases h
          exact .call e t ht (hc.1 ▸ hg) hc.2.2.1 hc.2.1
        case isFalse => cases h
      case h_2 => cases h
  | done t =>
    simp only [move] at h
    split at h
    case h_1 locked e hth =>
      obtain ⟨r, hr, rfl⟩ := perform_eq h
      exact .done e t r locked hth hr
    case h_2 => cases h
  | raisePushed =>
    simp only [move] at h
    split at h
    case isTrue hp =>
      cases h
      exact .raisePushed hp
    case isFalse => cases h
  | stop j =>
    simp only [move] at h
    split at h
    case h_1 hin =>
      split at h
      case isTrue hs =>
        cases h
        exact .stopAgain j hin hs
      case isFalse hs =>
        cases h
        exact .stop j hin (Bool.eq_false_iff.mpr hs)
    case h_2 => cases h
  | isRunning j =>
    simp only [move] at h
    split at h
    case h_1 hin =>
      cases h
      exact .isRunning j hin
    case h_2 => cases h
  | raiseStop j =>
    simp only [move] at h
    split at h
    case h_1 hout =>
      split at h
      case isTrue hj =>
        cases h
        exact .raiseStop j hj
      case isFalse => cases h
    case h_2 => cases h

end Inversion

/-! ## The steps of the server and the lock -/

section Events
variable {σ ω : Type} {cfg : LockConfig} {H : Handlers σ ω}

/-- The step is a pass of the disconnect scan or of the dispatch loop. -/
def Event.inLoop : Event ω → Bool
  | .scan _ => true
  | .dispatch _ _ _ => true
  | _ => false

/-- A handler is called with `_lock` held exactly in the two loops. -/
theorem locked_of_calls {τ : Type} {s : State σ ω} {e : Event ω} (h : e.calls cfg H s = true)
    (s₁ : State τ ω) : e.locked s₁ = e.inLoop := by
  cases e <;> first | rfl | cases h

theorem locked_of_waits {s s' : State σ ω} {e : Event ω} (h : e.waits s' = true) : e.locked s = true := by
  cases e <;> first | rfl | cases h

theorem thread_of_waits {s' : State σ ω} {e : Event ω} (h : e.waits s' = true) :
    e.thread ≠ some .io := by
  cases e <;> first | cases h | nofun

theorem holds_guardBefore (s : State σ ω) (e : Event ω) :
    (Thread.runs (e.guardBefore s) : Thread ω).holds = e.locked s := by
  unfold Event.guardBefore
  cases e.locked s <;> rfl

theorem holds_guardAfter (s s' : State σ ω) (e : Event ω) :
    (Thread.runs (e.guardAfter s s') : Thread ω).holds = (e.locked s && !e.waits s') := by
  unfold Event.guardAfter
  cases hl : e.locked s
  · rfl
  · cases hw : e.waits s'
    · simp only [↓reduceIte, Bool.false_eq_true]
      split <;> rfl
    · have ht : (e.thread == some .io) = false := by
        rw [beq_eq_false_iff_ne]
        exact thread_of_waits hw
      simp [ht, Thread.holds]

theorem innerStep_of_ne {s : State σ ω} {e : Event ω} {r : State σ ω × Bool}
    (hd : ∀ wr rd o, e ≠ .dispatch wr rd o) (h : innerStep cfg.toConfig H s e = some r) :
    ∃ s', step cfg.toConfig H s e = some s' ∧ r = (s', false) := by
  unfold innerStep at h
  split at h
  · exact absurd rfl (hd _ _ _)
  · obtain ⟨s', hs', hr⟩ := Option.map_eq_some_iff.mp h
    exact ⟨s', hs', hr.symm⟩

/-- What a step of the I/O thread or of a worker leaves alone, and what it may change. -/
structure Inner (s : State σ ω) (e : Event ω) (r : State σ ω × Bool) : Prop where
  io : e.thread ≠ some .io → r.1.io = s.io
  locked : e.thread = some .io → r.1.io.holdsLock = true → e.locked s = true
  pushed : r.2 = true → e.thread = some .io ∧ r.1.io.holdsLock = true
  stopped : r.1.isStopped = s.isStopped
  raising : r.1.raising = s.raising
  reqs : r.2 = false → s.reqs = [] → r.1.reqs = []
  waiting : ∀ k : ℕ, r.1.workers[k]? = some .waiting →
    s.workers[k]? = some .waiting ∨ r.1.reqs = [] ∧ r.1.isStopped = false

/-- A step of the I/O thread. -/
theorem Inner.of_io {s : State σ ω} {e : Event ω} {r : State σ ω × Bool} (ht : e.thread = some .io)
    (hlocked : r.1.io.holdsLock = true → e.locked s = true) (hpush : r.2 = true → r.1.io.holdsLock = true)
    (hstop : r.1.isStopped = s.isStopped) (hraise : r.1.raising = s.raising)
    (hreqs : r.2 = false → r.1.reqs = s.reqs) (hworkers : r.1.workers = s.workers) : Inner s e r where
  io h := absurd ht h
  locked _ := hlocked
  pushed h := ⟨ht, hpush h⟩
  stopped := hstop
  raising := hraise
  reqs h hs := (hreqs h).trans hs
  waiting _ hk := .inl (hworkers ▸ hk)

/-- A step of a worker. -/
theorem Inner.of_worker {s s' : State σ ω} {e : Event ω} {k : ℕ} {pc : WorkerPc}
    (ht : e.thread = some (.worker k)) (hio : s'.io = s.io) (hstop : s'.isStopped = s.isStopped)
    (hraise : s'.raising = s.raising) (hreqs : s.reqs = [] → s'.reqs = [])
    (hworkers : s'.workers = s.workers.set k pc)
    (hpc : pc = .waiting → s'.reqs = [] ∧ s'.isStopped = false) : Inner s e (s', false) where
  io _ := hio
  locked h := by rw [ht] at h; cases h
  pushed := nofun
  stopped := hstop
  raising := hraise
  reqs _ := hreqs
  waiting j hj := by
    rw [hworkers, List.getElem?_set] at hj
    split at hj
    · split at hj
      · exact .inr (hpc (Option.some.inj hj))
      · cases hj
    · exact .inl hj

theorem inner_scan {s s' : State σ ω} {i : ℕ} {rfds wfds : List Fd} {throws : Bool}
    (h : scanStep s i rfds wfds throws = some s') : Inner s (.scan throws : Event ω) (s', false) := by
  unfold scanStep at h
  split at h
  case h_1 =>
    cases h
    exact .of_io rfl (fun _ => rfl) nofun rfl rfl (fun _ => rfl) rfl
  case h_2 id hid =>
    obtain ⟨rq, -, rfl⟩ := Option.map_eq_some_iff.mp h
    split_ifs <;> exact .of_io rfl (fun _ => rfl) nofun rfl rfl (fun _ => rfl) rfl

theorem inner_push {s : State σ ω} {i : ℕ} {rfds wfds : List Fd} {wr : WriteResult}
    {rd : ReadResult} {o : ω} {r : State σ ω × Bool} (h : pushStep H s i rfds wfds wr rd o = some r) :
    Inner s (.dispatch wr rd o) r := by
  unfold pushStep at h
  split at h
  case h_1 =>
    cases h
    exact .of_io rfl nofun nofun rfl rfl (fun _ => rfl) rfl
  case h_2 id hid =>
    obtain ⟨rq, -, hrq⟩ := Option.bind_eq_some_iff.mp h
    obtain ⟨t, -, rfl⟩ := Option.map_eq_some_iff.mp hrq
    dsimp only
    split
    · exact .of_io rfl (fun _ => rfl) nofun rfl rfl (fun _ => rfl) rfl
    · split
      · exact .of_io rfl (fun _ => rfl) (fun _ => rfl) rfl rfl nofun rfl
      · exact .of_io rfl (fun _ => rfl) nofun rfl rfl (fun _ => rfl) rfl

theorem inner_take (s : State σ ω) (k : ℕ) : Inner s (.take k : Event ω) (takeStep s k, false) := by
  unfold takeStep
  split
  · exact .of_worker rfl rfl rfl rfl id rfl nofun
  case isFalse hs =>
    split
    case h_1 hr => exact .of_worker rfl rfl rfl rfl id rfl fun _ => ⟨hr, Bool.eq_false_iff.mpr hs⟩
    case h_2 id rest hr =>
      refine .of_worker rfl rfl rfl rfl (fun h => ?_) rfl nofun
      rw [hr] at h
      cases h

theorem inner_io {s : State σ ω} {e : Event ω} {pc : IoPc} (ht : e.thread = some .io)
    (h : pc.holdsLock = true → e.locked s = true) : Inner s e ({ s with io := pc }, false) :=
  .of_io ht h nofun rfl rfl (fun _ => rfl) rfl

theorem inner_accept {s s' : State σ ω} {ls rfds wfds : List Fd} {fd : Fd} {o : ω}
    (h : acceptStep H s ls rfds wfds fd o = some s') : Inner s (.accept fd o) (s', false) := by
  obtain ⟨t, -, rfl⟩ := Option.map_eq_some_iff.mp h
  refine .of_io rfl (fun hl => ?_) nofun rfl rfl (fun _ => rfl) rfl
  -- the connection is not in the queue yet: the lock is free
  dsimp only at hl
  split at hl <;> cases hl

theorem inner_serve {s s' : State σ ω} {k : ℕ} {id : ReqId} {o : ω}
    (h : serveStep H s k id o = some s') : Inner s (.serve k o) (s', false) := by
  obtain ⟨rq, -, hrq⟩ := Option.bind_eq_some_iff.mp h
  obtain ⟨t, -, rfl⟩ := Option.map_eq_some_iff.mp hrq
  refine .of_worker rfl rfl rfl rfl (fun h => h) rfl fun hpc => ?_
  split at hpc <;> cases hpc

theorem inner_select {s : State σ ω} {e : Event ω} {pc pc' : IoPc} {c : Prop} [Decidable c]
    (ht : e.thread = some .io) (h : pc.holdsLock = false) (h' : pc'.holdsLock = false) :
    Inner s e ({ s with io := if c then pc else pc' }, false) := by
  refine inner_io ht fun hl => ?_
  split at hl
  · rw [h] at hl
    cases hl
  · rw [h'] at hl
    cases hl

theorem inner_io_step {s s' : State σ ω} {e : Event ω} (ht : e.thread = some .io)
    (hd : ∀ wr rd o, e ≠ .dispatch wr rd o) (h : step cfg.toConfig H s e = some s') :
    Inner s e (s', false) := by
  cases e with
  | checkStop =>
    simp only [step] at h
    split at h
    · cases h
      exact inner_select rfl rfl rfl
    · cases h
  | lockScan =>
    simp only [step] at h
    split at h
    · cases h
      exact inner_io rfl fun _ => rfl
    · cases h
  | scan throws =>
    simp only [step] at h
    split at h
    · exact inner_scan h
    · cases h
  | select rfds wfds =>
    simp only [step] at h
    split at h
    · split at h
      · cases h
        exact inner_select rfl rfl rfl
      · cases h
    · cases h
  | selectFails =>
    simp only [step] at h
    split at h
    · cases h
      exact inner_io rfl nofun
    · cases h
  | visitListener =>
    simp only [step] at h
    split at h
    · split at h
      · cases h
        exact inner_io rfl nofun
      · cases h
        exact inner_io rfl nofun
    · cases h
  | accept fd o =>
    simp only [step] at h
    split at h
    · split at h
      · cases h
      · exact inner_accept h
    · cases h
  | acceptFails =>
    simp only [step] at h
    split at h
    · cases h
      exact inner_io rfl nofun
    · cases h
  | acceptPush =>
    simp only [step] at h
    split at h
    · cases h
      exact .of_io rfl nofun nofun rfl rfl (fun _ => rfl) rfl
    · cases h
  | lockDispatch =>
    simp only [step] at h
    split at h
    · cases h
      exact inner_io rfl fun _ => rfl
    · cases h
  | dispatch wr rd o => exact absurd rfl (hd wr rd o)
  | caught =>
    simp only [step] at h
    split at h
    · cases h
      exact inner_select rfl rfl rfl
    · cases h
  | _ => cases ht

theorem inner_worker_step {s s' : State σ ω} {e : Event ω} {k : ℕ} (ht : e.thread = some (.worker k))
    (h : step cfg.toConfig H s e = some s') : Inner s e (s', false) := by
  cases e with
  | take k =>
    simp only [step] at h
    split at h
    · split at h
      · cases h
      · cases h
        exact inner_take s k
    · split at h
      · cases h
      · cases h
        exact inner_take s k
    · cases h
  | serve k o =>
    simp only [step] at h
    split at h
    · exact inner_serve h
    · cases h
  | putBack k =>
    simp only [step] at h
    split at h
    · split at h
      · cases h
      · cases h
        exact .of_worker rfl rfl rfl rfl id rfl nofun
    · cases h
  | workerCaught k =>
    simp only [step] at h
    split at h
    · cases h
      refine .of_worker rfl rfl rfl rfl id rfl fun hpc => ?_
      split at hpc <;> cases hpc
    · cases h
  | wake k =>
    simp only [step] at h
    split at h
    · cases h
      exact .of_worker rfl rfl rfl rfl id rfl nofun
    · cases h
  | _ => cases ht

theorem inner_step {s : State σ ω} {e : Event ω} {t : Tid} {r : State σ ω × Bool}
    (ht : e.thread = some t) (h : innerStep cfg.toConfig H s e = some r) : Inner s e r := by
  by_cases hd : ∃ wr rd o, e = .dispatch wr rd o
  · obtain ⟨wr, rd, o, rfl⟩ := hd
    simp only [innerStep] at h
    split at h
    · split at h
      · exact inner_push h
      · cases h
    · cases h
  · have hd' : ∀ wr rd o, e ≠ .dispatch wr rd o := fun wr rd o he => hd ⟨wr, rd, o, he⟩
    obtain ⟨s', hs', rfl⟩ := innerStep_of_ne hd' h
    cases t with
    | io => exact inner_io_step ht hd' hs'
    | worker k => exact inner_worker_step ht hs'
    | caller j => cases e <;> cases ht

end Events

/-! ## The invariant -/

section Invariant
variable {σ ω : Type} {cfg : LockConfig} {H : Handlers σ ω} {s s' : Threaded σ ω} {m : Move ω}

/-- The thread is inside a guarded section of the server's own code. -/
def Thread.inSection : Thread ω → Bool
  | .runs g => g == .inside
  | .calls locked _ _ => locked

/-- Whose handler it is, whether it was called in one of the two loops, and that one called there does not
get the mutex. -/
def Thread.Fits (t : Tid) : Thread ω → Prop
  | .runs _ => True
  | .calls locked e g => e.thread = some t ∧ e.inLoop = locked ∧ (locked = true → g ≠ .inside) ∧
      ∀ (σ : Type) (s : State σ ω), e.locked s = locked

structure Guarded (s : Threaded σ ω) : Prop where
  owned : Mutex.Owned Thread.holds s.owner s.threads
  fits : ∀ t, (s.threads t).Fits t
  io : s.server.io.holdsLock = true → (s.threads .io).inSection = true
  pushed : s.pushed = true → s.server.io.holdsLock = true ∧ s.threads .io = .runs .inside
  raising : s.server.raising = s.stopper.isSome

theorem guarded_init (n : ℕ) (u : σ) : Guarded (Threaded.init ω n u) where
  owned t := by simp [Threaded.init, Thread.holds]
  fits _ := trivial
  io := nofun
  pushed := nofun
  raising := rfl

/-- The I/O thread raises the event before it goes on. -/
theorem Guarded.raised (hs : Guarded s) {t : Tid} {th : Thread ω} (ha : s.threads t = th)
    (hth : th ≠ .runs .inside) : t = .io → s.pushed = false := by
  intro ht
  rw [Bool.eq_false_iff]
  intro hp
  have hio := (hs.pushed hp).2
  rw [← ht, ha] at hio
  exact hth hio

/-- A thread goes on to `th`, and no more than the owner changes with it. -/
theorem Guarded.setThread (hs : Guarded s) {t : Tid} {th : Thread ω} {o : Option Tid}
    (hraised : t = .io → s.pushed = false)
    (howned : Mutex.Owned Thread.holds o (Function.update s.threads t th)) (hfits : th.Fits t)
    (hsection : t = .io → (s.threads t).inSection = true → th.inSection = true) :
    Guarded { s.setThread t th with owner := o } where
  owned := howned
  fits := (Function.forall_update_iff s.threads fun t th => th.Fits t).mpr ⟨hfits, fun u _ => hs.fits u⟩
  io hl := by
    change (Function.update s.threads t th .io).inSection = true
    by_cases ht : .io = t
    · rw [ht, Function.update_self]
      exact hsection ht.symm (ht ▸ hs.io hl)
    · rw [Function.update_of_ne ht]
      exact hs.io hl
  pushed hp := by
    obtain ⟨hl, hio⟩ := hs.pushed hp
    have ht : .io ≠ t := fun ht => Bool.false_ne_true ((hraised ht.symm).symm.trans hp)
    refine ⟨hl, ?_⟩
    change Function.update s.threads t th .io = .runs .inside
    rw [Function.update_of_ne ht]
    exact hio
  raising := hs.raising

theorem Thread.request_cases {wants : Bool} {th th' : Thread ω} (h : th.request wants = some th') :
    (th = .runs .outside ∧ th' = .runs .requesting) ∨
      ∃ locked e, th = .calls locked e .outside ∧ th' = .calls locked e .requesting := by
  unfold request at h
  split at h
  · split at h
    · cases h
      exact .inl ⟨rfl, rfl⟩
    · cases h
  · cases h
    exact .inr ⟨_, _, rfl, rfl⟩
  · cases h

theorem Thread.acquire_cases {th th' : Thread ω} (h : th.acquire = some th') :
    (th = .runs .requesting ∧ th' = .runs .inside) ∨
      ∃ locked e, th = .calls locked e .requesting ∧ th' = .calls locked e .inside := by
  unfold acquire at h
  split at h
  · cases h
    exact .inl ⟨rfl, rfl⟩
  · cases h
    exact .inr ⟨_, _, rfl, rfl⟩
  · cases h

theorem Thread.release_cases {th th' : Thread ω} (h : th.release = some th') :
    (th = .runs .leaving ∧ th' = .runs .outside) ∨
      ∃ locked e, th = .calls locked e .inside ∧ th' = .calls locked e .outside := by
  unfold release at h
  split at h
  · cases h
    exact .inl ⟨rfl, rfl⟩
  · cases h
    exact .inr ⟨_, _, rfl, rfl⟩
  · cases h

theorem Guarded.request (hs : Guarded s) {t : Tid} {th : Thread ω} {wants : Bool}
    (h : (s.threads t).request wants = some th) : Guarded (s.setThread t th) := by
  have hfits := hs.fits t
  obtain ⟨ha, rfl⟩ | ⟨locked, e, ha, rfl⟩ := Thread.request_cases h
  · refine hs.setThread (hs.raised ha nofun) (hs.owned.keep (by rw [ha]; rfl)) trivial fun _ hin => ?_
    rw [ha] at hin
    cases hin
  · rw [ha] at hfits
    refine hs.setThread (hs.raised ha nofun) (hs.owned.keep (by rw [ha]; rfl)) ?_ fun _ hin => ?_
    · exact ⟨hfits.1, hfits.2.1, nofun, hfits.2.2.2⟩
    · rw [ha] at hin
      exact hin

theorem Guarded.acquire (hs : Guarded s) {t : Tid} {th : Thread ω} (ho : s.owner = none)
    (h : (s.threads t).acquire = some th) : Guarded { s.setThread t th with owner := some t } := by
  have hfits := hs.fits t
  have howned := hs.owned
  rw [ho] at howned
  have hnot : (s.threads t).holds ≠ true := fun hh => Option.some_ne_none t ((howned t).mpr hh).symm
  obtain ⟨ha, rfl⟩ | ⟨locked, e, ha, rfl⟩ := Thread.acquire_cases h
  · refine hs.setThread (hs.raised ha nofun) (howned.acquire rfl) trivial fun _ hin => ?_
    rw [ha] at hin
    cases hin
  · rw [ha] at hfits hnot
    refine hs.setThread (hs.raised ha nofun) (howned.acquire (Bool.or_true locked)) ?_ fun _ hin => ?_
    · exact ⟨hfits.1, hfits.2.1, fun hl => absurd (by rw [hl]; rfl) hnot, hfits.2.2.2⟩
    · rw [ha] at hin
      exact hin

theorem Guarded.release (hs : Guarded s) {t : Tid} {th : Thread ω}
    (h : (s.threads t).release = some th) : Guarded { s.setThread t th with owner := none } := by
  have hfits := hs.fits t
  obtain ⟨ha, rfl⟩ | ⟨locked, e, ha, rfl⟩ := Thread.release_cases h
  · refine hs.setThread (hs.raised ha nofun) (hs.owned.release (by rw [ha]; rfl) rfl) trivial
      fun _ hin => ?_
    rw [ha] at hin
    cases hin
  · rw [ha] at hfits
    have hl : locked = false := Bool.eq_false_iff.mpr fun hl => hfits.2.2.1 hl rfl
    refine hs.setThread (hs.raised ha nofun) (hs.owned.release ?_ ?_) ?_ fun _ hin => ?_
    · rw [ha]
      exact Bool.or_true locked
    · rw [hl]
      rfl
    · exact ⟨hfits.1, hfits.2.1, nofun, hfits.2.2.2⟩
    · rw [ha] at hin
      exact hin

theorem Guarded.call (hs : Guarded s) {t : Tid} {e : Event ω} (ht : e.thread = some t)
    (hbegin : s.threads t = .runs (e.guardBefore s.server)) (hraised : t = .io → s.pushed = false)
    (hcalls : e.calls cfg H s.server = true) :
    Guarded (s.setThread t (.calls (e.locked s.server) e .outside)) := by
  refine hs.setThread hraised (hs.owned.keep ?_) ⟨ht, ?_, nofun, fun τ s₁ => ?_⟩ fun _ hin => ?_
  · rw [hbegin, holds_guardBefore]
    exact Bool.or_false _
  · rw [locked_of_calls hcalls]
  · rw [locked_of_calls hcalls, locked_of_calls hcalls]
  · rw [hbegin] at hin
    change e.locked s.server = true
    unfold Event.guardBefore at hin
    cases hl : e.locked s.server
    · rw [hl] at hin
      cases hin
    · rfl

theorem guardAfter_io {s : State σ ω} {e : Event ω} {r : State σ ω × Bool} (hinner : Inner s e r)
    (ht : e.thread = some .io) (hl : r.1.io.holdsLock = true) : e.guardAfter s r.1 = .inside := by
  simp [Event.guardAfter, hinner.locked ht hl, ht, hl]

theorem raised_of_not_blocked {t : Tid} (h : s.blocked t = false) : t = .io → s.pushed = false := by
  rintro rfl
  simpa [Threaded.blocked] using h

/-- A step of the server by a thread that holds the mutex if the step needs it. -/
theorem Guarded.advance (hs : Guarded s) {t : Tid} {e : Event ω} {r : State σ ω × Bool}
    (ht : e.thread = some t) (hraised : t = .io → s.pushed = false)
    (hbefore : (s.threads t).holds = e.locked s.server) (hinner : Inner s.server e r) :
    Guarded (s.advance t e r) where
  owned := by
    change Mutex.Owned Thread.holds (if e.waits r.1 then none else s.owner)
      (Function.update s.threads t (.runs (e.guardAfter s.server r.1)))
    have hafter := holds_guardAfter s.server r.1 e
    split
    case isTrue hw =>
      refine hs.owned.release ?_ ?_
      · rw [hbefore]
        exact locked_of_waits hw
      · rw [hafter, hw, Bool.not_true, Bool.and_false]
    case isFalse hw =>
      refine hs.owned.keep ?_
      rw [hafter, hbefore, Bool.eq_false_iff.mpr hw, Bool.not_false, Bool.and_true]
  fits := (Function.forall_update_iff s.threads fun t th => th.Fits t).mpr
    ⟨trivial, fun u _ => hs.fits u⟩
  io hl := by
    change (Function.update s.threads t _ .io).inSection = true
    by_cases hio : .io = t
    · rw [← hio] at ht ⊢
      rw [Function.update_self, guardAfter_io hinner ht hl]
      rfl
    · rw [Function.update_of_ne hio]
      refine hs.io ?_
      rw [← hinner.io fun he => hio (Option.some.inj (he.symm.trans ht))]
      exact hl
  pushed hp := by
    change r.1.io.holdsLock = true ∧ Function.update s.threads t _ .io = .runs .inside
    rcases Bool.or_eq_true_iff.mp hp with hp | hp
    · obtain ⟨hl, hin⟩ := hs.pushed hp
      have hio : .io ≠ t := fun hio => Bool.false_ne_true ((hraised hio.symm).symm.trans hp)
      rw [hinner.io fun he => hio (Option.some.inj (he.symm.trans ht)), Function.update_of_ne hio]
      exact ⟨hl, hin⟩
    · obtain ⟨hthread, hl⟩ := hinner.pushed hp
      obtain rfl : .io = t := Option.some.inj (hthread.symm.trans ht)
      rw [Function.update_self, guardAfter_io hinner hthread hl]
      exact ⟨hl, rfl⟩
  raising := hinner.raising.trans hs.raising

/-- Every move keeps the invariant, whatever the handlers do. -/
theorem guarded_move (hs : Guarded s) (h : move cfg H s m = some s') : Guarded s' := by
  rcases moves h with ⟨t, th, hask⟩ | ⟨t, th, hfree, hget⟩ | ⟨t, th, hgive⟩ |
    ⟨e, t, r, ht, hbegin, hraised, hinner⟩ | ⟨e, t, r, locked, hreturn, hinner⟩ |
    ⟨e, t, ht, hbegin, hraised, hcalls⟩ | hdue | ⟨j, hin, hrun⟩ | ⟨j, hin, -⟩ | ⟨j, hin⟩ | ⟨j, hdue⟩
  · exact hs.request hask
  · exact hs.acquire hfree hget
  · exact hs.release hgive
  · refine hs.advance ht (raised_of_not_blocked hraised) ?_ (inner_step ht hinner)
    rw [hbegin, holds_guardBefore]
  · have hfits := hs.fits t
    rw [hreturn] at hfits
    refine hs.advance hfits.1 (hs.raised hreturn nofun) ?_ (inner_step hfits.1 hinner)
    rw [hreturn, hfits.2.2.2]
    exact Bool.or_false _
  · exact hs.call ht hbegin (raised_of_not_blocked hraised) hcalls
  · exact ⟨hs.owned, hs.fits, hs.io, nofun, hs.raising⟩
  · have hcaller : Guarded (s.setThread (.caller j) (.runs .leaving)) :=
      hs.setThread nofun (hs.owned.keep (by rw [hin]; rfl)) trivial nofun
    exact ⟨hcaller.owned, hcaller.fits, hcaller.io, hcaller.pushed, rfl⟩
  · exact hs.setThread nofun (hs.owned.keep (by rw [hin]; rfl)) trivial nofun
  · exact hs.setThread nofun (hs.owned.keep (by rw [hin]; rfl)) trivial nofun
  · exact ⟨hs.owned, hs.fits, hs.io, hs.pushed, rfl⟩

end Invariant

end Dcl.Tcp
