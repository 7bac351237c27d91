import Dcl.Tcp.Wakeup

/-! # Handlers that call the server

A handler may ask `is_running()`, which enters `_lock`. The mutex is not recursive: a thread that requests
it while it holds it waits for itself. `on_connect`, `on_exception` and the workers' `on_process_data` are
called without the lock; `on_disconnect`, and `on_process_data` when the I/O thread calls it from
`connection_read`, are called from loops that hold it. -/
namespace Dcl.Tcp
set_option autoImplicit false

section Requests
variable {σ ω : Type} {cfg : LockConfig} {H : Handlers σ ω} {s s' : Threaded σ ω} {m : Move ω}

/-- No thread requests the mutex while it holds it. -/
def NoSelfWait (s : Threaded σ ω) : Prop := ∀ t, (s.threads t).requests = true → s.owner ≠ some t

/-- A handler that was called in the disconnect scan or in the dispatch loop calls `is_running`. -/
def asksInLoop (s : Threaded σ ω) : Move ω → Bool
  | .request t =>
      match s.threads t with
      | .calls _ e _ => e.inLoop
      | .runs _ => false
  | _ => false

/-- A move after which the thread does not request the mutex, and nobody else has got it. -/
theorem NoSelfWait.update (hs : NoSelfWait s) {t : Tid} {th : Thread ω} (hth : th.requests = false)
    (hthreads : s'.threads = Function.update s.threads t th)
    (howner : s'.owner = s.owner ∨ s'.owner = none ∨ s'.owner = some t) : NoSelfWait s' := by
  intro v hv
  rw [hthreads] at hv
  by_cases hvt : v = t
  · rw [hvt, Function.update_self, hth] at hv
    cases hv
  · rw [Function.update_of_ne hvt] at hv
    rcases howner with ho | ho | ho
    · rw [ho]
      exact hs v hv
    · rw [ho]
      nofun
    · rw [ho]
      exact fun he => hvt (Option.some.inj he).symm

theorem NoSelfWait.same (hs : NoSelfWait s) (hthreads : s'.threads = s.threads)
    (howner : s'.owner = s.owner) : NoSelfWait s' := by
  intro v hv
  rw [hthreads] at hv
  rw [howner]
  exact hs v hv

/-- Asking for the mutex is safe for exactly those threads that do not own it. -/
theorem noSelfWait_request (hs : NoSelfWait s) {t : Tid} {th : Thread ω} (hth : th.requests = true) :
    NoSelfWait (s.setThread t th) ↔ s.owner ≠ some t := by
  constructor
  · intro h
    refine h t ?_
    change (Function.update s.threads t th t).requests = true
    rw [Function.update_self]
    exact hth
  · intro ho v hv
    change (Function.update s.threads t th v).requests = true at hv
    by_cases hvt : v = t
    · rw [hvt]
      exact ho
    · rw [Function.update_of_ne hvt] at hv
      exact hs v hv

theorem request_iff (hg : Guarded s) (hs : NoSelfWait s) {t : Tid} {th : Thread ω} {wants : Bool}
    (h : (s.threads t).request wants = some th) :
    NoSelfWait (s.setThread t th) ↔ asksInLoop s (.request t : Move ω) = false := by
  have hfits := hg.fits t
  have howner := hg.owned t
  obtain ⟨ha, rfl⟩ | ⟨locked, e, ha, rfl⟩ := Thread.request_cases h
  · rw [noSelfWait_request hs rfl, Ne, howner]
    simp [asksInLoop, ha, Thread.holds]
  · rw [ha] at hfits
    rw [noSelfWait_request hs rfl, Ne, howner]
    simp [asksInLoop, ha, Thread.holds, hfits.2.1]

theorem requests_guardAfter (s s' : State σ ω) (e : Event ω) :
    (Thread.runs (e.guardAfter s s') : Thread ω).requests = false := by
  unfold Event.guardAfter
  split_ifs <;> rfl

theorem owner_advance (t : Tid) (e : Event ω) (r : State σ ω × Bool) :
    (s.advance t e r).owner = s.owner ∨ (s.advance t e r).owner = none ∨
      (s.advance t e r).owner = some t := by
  by_cases hw : e.waits r.1 = true
  · exact .inr (.inl (if_pos hw))
  · exact .inl (if_neg hw)

theorem noSelfWait_move (hg : Guarded s) (hs : NoSelfWait s) (h : move cfg H s m = some s') :
    NoSelfWait s' ↔ asksInLoop s m = false := by
  rcases moves h with ⟨t, th, hask⟩ | ⟨t, th, -, hget⟩ | ⟨t, th, hgive⟩ | ⟨e, t, r, -, -, -, -⟩ |
    ⟨e, t, r, locked, -, -⟩ | ⟨e, t, -, -, -, -⟩ | - | ⟨j, -, -⟩ | ⟨j, -, -⟩ | ⟨j, -⟩ | ⟨j, -⟩
  · exact request_iff hg hs hask
  · refine iff_of_true (hs.update ?_ rfl (.inr (.inr rfl))) rfl
    obtain ⟨-, rfl⟩ | ⟨locked, e, -, rfl⟩ := Thread.acquire_cases hget <;> rfl
  · refine iff_of_true (hs.update ?_ rfl (.inr (.inl rfl))) rfl
    obtain ⟨-, rfl⟩ | ⟨locked, e, -, rfl⟩ := Thread.release_cases hgive <;> rfl
  · exact iff_of_true (hs.update (requests_guardAfter s.server r.1 e) rfl (owner_advance t e r)) rfl
  · exact iff_of_true (hs.update (requests_guardAfter s.server r.1 e) rfl (owner_advance t e r)) rfl
  · exact iff_of_true (hs.update rfl rfl (.inl rfl)) rfl
  · exact iff_of_true (hs.same rfl rfl) rfl
  · exact iff_of_true (hs.update rfl rfl (.inl rfl)) rfl
  · exact iff_of_true (hs.update rfl rfl (.inl rfl)) rfl
  · exact iff_of_true (hs.update rfl rfl (.inl rfl)) rfl
  · exact iff_of_true (hs.same rfl rfl) rfl

/-- No thread ever waits for itself if and only if no `on_disconnect` handler, and no `on_process_data`
handler that the I/O thread calls, asks `is_running`. -/
theorem no_self_wait_iff {n : ℕ} {u : σ} {ms : List (Move ω)}
    (hrun : Transition.run (move cfg H) (.init ω n u) ms = some s) :
    (∀ ms₁ s₁, ms₁ <+: ms → Transition.run (move cfg H) (.init ω n u) ms₁ = some s₁ → NoSelfWait s₁) ↔
      Transition.Along (move cfg H) (fun s m => asksInLoop s m = false) (.init ω n u) ms := by
  have hinit : NoSelfWait (.init ω n u) := nofun
  exact Transition.reached_iff_along_of (move cfg H) (fun _ _ _ hg _ h => guarded_move hg h)
    (fun _ _ _ hg hs h => noSelfWait_move hg hs h) (guarded_init n u) hinit hrun

end Requests

namespace Sample
variable {ω : Type}

/-- The `on_connect` handler asks `is_running`. -/
def connectAsks (fd : Fd) (o : ω) : List (Move ω) :=
  guarded .io [.act .checkStop] ++ guarded .io [.act .lockScan, .act (.scan false)] ++
    [.act (.select [3] [])] ++ guarded .io [.act .visitListener] ++ [.call (.accept fd o)] ++
    guarded .io [] ++ [.done .io]

/-- The `on_process_data` handler asks `is_running` when the I/O thread calls it. -/
def readAsks : List (Move Answer) :=
  connectMoves 7 ([], some true) ++ readMoves 7 [104, 105] ([], some true) ++ [.request .io]

end Sample

theorem no_self_wait_connect :
    ∃ s, Transition.run (move Sample.lockConfig Sample.handlers) (.init Sample.Answer 2 ())
        (Sample.connectAsks 7 ([], some true)) = some s ∧ NoSelfWait s := by
  have hrun : Transition.run (move Sample.lockConfig Sample.handlers) (.init Sample.Answer 2 ())
      (Sample.connectAsks 7 ([], some true)) = some _ := rfl
  exact ⟨_, hrun, (no_self_wait_iff hrun).mpr (by decide) _ _ List.prefix_rfl hrun⟩

/-- The I/O thread, in the handler it has called from `connection_read`, waits for the mutex it owns. -/
theorem read_handler_waits_for_itself :
    ∃ s, Transition.run (move Sample.lockConfig Sample.handlers) (.init Sample.Answer 2 ())
        Sample.readAsks = some s ∧
      (s.threads .io).requests = true ∧ s.owner = some .io ∧ ¬NoSelfWait s := by
  exact ⟨_, rfl, rfl, rfl, fun h => h .io rfl rfl⟩

end Dcl.Tcp
