import Dcl.Tcp.Ownership

/-! # A peer that has shut down

`connection_read` distinguishes an error from data; a `socket::read` that returns 0 does neither, and leaves
the state of the connection as it is. The event loop then pushes the connection to `reqs`, and a worker calls
the handler on it, as if data had come. A connection that is closing already is not pushed.

* `zeroRead`: the connection on which this step reads 0.
* `LeftAlone`: the connection is closing, is not in `reqs`, and no handler was called on it any more.
* `closed_peer_iff`: what follows a read of 0, over whole runs. -/
namespace Dcl.Tcp
set_option autoImplicit false

section Shutdown
variable {σ ω : Type}

/-! ## Reads -/

namespace State

/-- The connection that the next pass of the dispatch loop finds readable. -/
def readable (s : State σ ω) : Option ReqId :=
  match s.io with
  | .dispatch i rfds _ => s.aReqs[i]?.filter fun id => (s.heap id).any fun rq => rfds.contains rq.handle
  | _ => none

/-- Where the object is when workers can get at it. -/
def queued (s : State σ ω) (x : ReqId) : ℕ := s.reqs.count x + s.held.count x

end State

/-- The connection on which `socket::read` returns 0; without a handler nothing is read. -/
def zeroRead (H : Handlers σ ω) (s : State σ ω) : Event ω → Option ReqId
  | .dispatch _ (.data []) _ => if H.onProcessData.isSome then s.readable else none
  | _ => none

/-- The connection on which `socket::read` delivers data. -/
def dataRead (s : State σ ω) : Event ω → Option ReqId
  | .dispatch _ (.data (_ :: _)) _ => s.readable
  | _ => none

/-- The connection whose `on_process_data` handler was called. -/
def Obs.called : Obs ω → Option ReqId
  | .received id _ _ => some id
  | .served id _ => some id
  | _ => none

def State.isClosing (s : State σ ω) (id : ReqId) : Bool := (s.heap id).all fun rq => rq.curState == .closing

/-- The connection is closing as long as it is there, it is not in `reqs`, and since the first `n` entries of
the log no handler was called on it. -/
def LeftAlone (id : ReqId) (n : ℕ) (s : State σ ω) : Prop :=
  s.isClosing id = true ∧ id ∉ s.reqs ∧ ∀ x ∈ s.log.drop n, x.called ≠ some id

/-! ## What a step pushes -/

section Queue
variable {cfg : Config} {H : Handlers σ ω} {s s' : State σ ω} {e : Event ω}

theorem queued_of_eq (hreqs : s'.reqs = s.reqs) (hworkers : s'.workers = s.workers) (x : ReqId) :
    s'.queued x ≤ s.queued x := by
  rw [State.queued, State.queued, State.held, State.held, hreqs, hworkers]

theorem queued_setWorker {k : ℕ} {a b : WorkerPc} (hk : s.workers[k]? = some a)
    (hb : b.held = none ∨ b.held = a.held) (x : ReqId) : (s.setWorker k b).queued x ≤ s.queued x := by
  have h := s.held_setWorker k a b hk x
  have hreqs : (s.setWorker k b).reqs = s.reqs := rfl
  rw [State.queued, State.queued, hreqs]
  rcases hb with hb | hb
  · rw [hb, Option.toList_none, List.count_nil] at h
    omega
  · rw [hb] at h
    omega

theorem queued_take {k : ℕ} {a : WorkerPc} (hk : s.workers[k]? = some a) (x : ReqId) :
    (takeStep s k).queued x ≤ s.queued x := by
  unfold takeStep
  split
  · exact queued_setWorker hk (.inl rfl) x
  · split
    next => exact queued_setWorker hk (.inl rfl) x
    next id rest hr =>
      have h := s.held_setWorker k a (.holding id) hk x
      simp only [State.queued, State.held, State.setWorker, hr, WorkerPc.held, Option.toList,
        List.count_cons, List.count_nil] at h ⊢
      omega

/-- The dispatch loop pushes the connection of its pass, unless it is closing. -/
theorem queued_dispatch {i : ℕ} {rfds wfds : List Fd} {wr : WriteResult} {rd : ReadResult} {o : ω}
    (h : dispatchStep H s i rfds wfds wr rd o = some s') (x : ReqId) :
    s'.queued x ≤ s.queued x ∨ s'.isClosing x = false := by
  unfold dispatchStep at h
  cases hi : s.aReqs[i]? with
  | none =>
    simp only [hi, Option.some.injEq] at h
    rw [← h]
    exact .inl (queued_of_eq rfl rfl x)
  | some id =>
    simp only [hi, Option.bind_eq_some_iff, Option.map_eq_some_iff] at h
    obtain ⟨rq, hrq, t, ht, h⟩ := h
    split at h
    · rw [← h]
      exact .inl (queued_of_eq rfl rfl x)
    · split at h
      next hpush =>
        rw [← h]
        by_cases hx : x = id
        · right
          simp only [Bool.and_eq_true, bne_iff_ne, ne_eq] at hpush
          simp [State.isClosing, State.turn, hx, hpush.2]
        · left
          have hone : [id].count x = 0 := List.count_eq_zero.mpr (by simpa using hx)
          simp only [State.queued, State.held, List.count_append, hone, s.held_wake]
          exact Nat.le_refl _
      · rw [← h]
        exact .inl (queued_of_eq rfl rfl x)

theorem queued_scan {i : ℕ} {rfds wfds : List Fd} {throws : Bool}
    (h : scanStep s i rfds wfds throws = some s') (x : ReqId) : s'.queued x ≤ s.queued x := by
  unfold scanStep at h
  cases hi : s.aReqs[i]? with
  | none =>
    simp only [hi, Option.some.injEq] at h
    rw [← h]
    exact queued_of_eq rfl rfl x
  | some id =>
    simp only [hi, Option.map_eq_some_iff] at h
    obtain ⟨rq, -, rfl⟩ := h
    split_ifs
    · exact queued_of_eq rfl rfl x
    · exact queued_of_eq rfl rfl x
    · exact queued_of_eq rfl rfl x
    · exact queued_of_eq rfl rfl x

theorem queued_serve {k : ℕ} {id : ReqId} {o : ω} (hk : s.workers[k]? = some (.holding id))
    (h : serveStep H s k id o = some s') (x : ReqId) : s'.queued x ≤ s.queued x := by
  obtain ⟨rq, -, h⟩ := Option.bind_eq_some_iff.mp h
  obtain ⟨t, -, rfl⟩ := Option.map_eq_some_iff.mp h
  have hk' : (s.turn id t).workers[k]? = some (.holding id) := hk
  refine (queued_setWorker hk' ?_ x).trans (queued_of_eq rfl rfl x)
  split
  · exact .inl rfl
  · exact .inr rfl

/-- Workers get at no more connections after a step, but for one that is not closing. -/
theorem queued_step (h : step cfg H s e = some s') (x : ReqId) :
    s'.queued x ≤ s.queued x ∨ s'.isClosing x = false := by
  cases step_moved h with
  | io => exact .inl (queued_of_eq rfl rfl x)
  | scan _ pass => exact .inl (queued_scan pass x)
  | accept _ _ call =>
    obtain ⟨t, -, rfl⟩ := Option.map_eq_some_iff.mp call
    exact .inl (queued_of_eq rfl rfl x)
  | acceptPush => exact .inl (queued_of_eq rfl rfl x)
  | dispatch _ pass => exact queued_dispatch pass x
  | take pc => exact .inl (queued_take pc x)
  | serve pc call => exact .inl (queued_serve pc call x)
  | putBack pc => exact .inl (queued_setWorker pc (.inl rfl) x)
  | worker b pc held => exact .inl (queued_setWorker pc (.inr held.symm) x)
  | stop => exact .inl (queued_of_eq rfl rfl x)
  | raise =>
    left
    simp only [State.queued, State.held, s.held_wake]
    exact Nat.le_refl _

end Queue

/-! ## A turn that reads no data -/

section Turns
variable {H : Handlers σ ω} {o : ω} {u : σ} {id : ReqId} {rq : Request} {w r : Bool} {wr : WriteResult}
  {rd : ReadResult} {t : Turn σ ω}

theorem connectionRead_quiet (h : connectionRead H o u id rq rd = some t)
    (hrd : ∀ b bs, rd ≠ .data (b :: bs)) : (∀ x ∈ t.obs, x.called = none) ∧
      (t.rq.curState = .closing ∨ t.rq.curState = rq.curState) ∧
      (rd = .data [] → t.rq.curState = rq.curState) := by
  unfold connectionRead at h
  cases hf : H.onProcessData with
  | none =>
    simp only [hf, Option.some.injEq] at h
    rw [← h]
    exact ⟨nofun, .inr rfl, fun _ => rfl⟩
  | some f =>
    cases rd with
    | ioError =>
      simp only [hf, Option.some.injEq] at h
      rw [← h]
      refine ⟨fun x hx => ?_, .inl rfl, nofun⟩
      rw [List.mem_singleton.mp hx]
      rfl
    | notReady =>
      simp only [hf, Option.some.injEq] at h
      rw [← h]
      exact ⟨nofun, .inr rfl, fun _ => rfl⟩
    | data bs =>
      cases bs with
      | nil =>
        simp only [hf, List.isEmpty_nil, ↓reduceIte, Option.some.injEq] at h
        rw [← h]
        exact ⟨nofun, .inr rfl, fun _ => rfl⟩
      | cons b bs => exact absurd rfl (hrd b bs)

theorem connectionWrite_quiet (h : connectionWrite ω u id rq wr = some t) :
    (∀ x ∈ t.obs, x.called = none) ∧ t.rq.curState = rq.curState := by
  obtain ⟨b, obs, rfl, rfl | rfl | ⟨bs, rfl⟩⟩ := connectionWrite_frame h
  · exact ⟨nofun, rfl⟩
  · exact ⟨by simp [Obs.called], rfl⟩
  · exact ⟨by simp [Obs.called], rfl⟩

/-- A pass that reads no data calls no handler, and leaves the state or closes; one that reads 0 leaves it. -/
theorem ioTurn_quiet (h : ioTurn H o u id rq w r wr rd = some t)
    (hrd : r = true → ∀ b bs, rd ≠ .data (b :: bs)) : (∀ x ∈ t.obs, x.called = none) ∧
      (t.rq.curState = .closing ∨ t.rq.curState = rq.curState) ∧
      (rd = .data [] → t.rq.curState = rq.curState) := by
  obtain ⟨t₁, hw, hr⟩ := ioTurn_cases h
  have h₁ : (∀ x ∈ t₁.obs, x.called = none) ∧ t₁.rq.curState = rq.curState := by
    rcases hw with ⟨-, hw⟩ | ⟨-, rfl⟩
    · exact connectionWrite_quiet hw
    · exact ⟨nofun, rfl⟩
  rcases hr with ⟨hr, t₂, h₂, rfl⟩ | ⟨-, rfl⟩
  · obtain ⟨hobs, hstate, hzero⟩ := connectionRead_quiet h₂ (hrd hr)
    rw [h₁.2] at hstate hzero
    exact ⟨List.forall_mem_append.mpr ⟨h₁.1, hobs⟩, hstate, hzero⟩
  · exact ⟨h₁.1, .inr h₁.2, fun _ => h₁.2⟩

end Turns

/-! ## A connection that is left alone stays so -/

section Runs
variable {cfg : Config} {H : Handlers σ ω} {s s' : State σ ω} {e : Event ω} {id : ReqId} {n : ℕ}

theorem Obs.conn_of_called {x : Obs ω} (h : x.called = some id) : x.conn = id := by
  cases x with
  | received => exact Option.some.inj h
  | served => exact Option.some.inj h
  | readError => cases h
  | wrote => cases h
  | sent => cases h
  | writeError => cases h
  | disconnected => cases h

theorem Turn.Reports.called {t : Turn σ ω} {j : ReqId} (h : t.Reports j) (hj : id ≠ j) :
    ∀ x ∈ t.obs, x.called ≠ some id :=
  fun x hx hc => hj ((Obs.conn_of_called hc).symm.trans (h x hx).1)

theorem isClosing_update {j : ReqId} {rq : Option Request}
    (hheap : s'.heap = Function.update s.heap j rq) (hj : id ≠ j) : s'.isClosing id = s.isClosing id := by
  rw [State.isClosing, State.isClosing, hheap, Function.update_of_ne hj]

theorem readable_eq {i : ℕ} {rfds wfds : List Fd} {rq : Request} (hio : s.io = .dispatch i rfds wfds)
    (hi : s.aReqs[i]? = some id) (hrq : s.heap id = some rq) (hr : rfds.contains rq.handle = true) :
    s.readable = some id := by
  have hany : ((s.heap id).any fun rq => rfds.contains rq.handle) = true := by
    rw [hrq]
    exact hr
  rw [State.readable, hio]
  simp only [hi]
  exact Option.filter_eq_some_iff.mpr ⟨rfl, hany⟩

theorem exists_of_readable (h : s.readable = some id) : ∃ i rfds wfds rq, s.io = .dispatch i rfds wfds ∧
    s.aReqs[i]? = some id ∧ s.heap id = some rq ∧ rfds.contains rq.handle = true := by
  rw [State.readable] at h
  split at h
  next i rfds wfds hio =>
    obtain ⟨hi, hany⟩ := Option.filter_eq_some_iff.mp h
    cases hrq : s.heap id with
    | none =>
      rw [hrq] at hany
      cases hany
    | some rq =>
      rw [hrq] at hany
      exact ⟨i, rfds, wfds, rq, hio, hi, rfl, hany⟩
  next => cases h

/-- `LeftAlone` with what carries it from step to step: workers cannot get at the connection. -/
structure ShutOff (id : ReqId) (n : ℕ) (s : State σ ω) : Prop where
  created : id < s.created
  closing : s.isClosing id = true
  queued : s.queued id = 0
  bound : n ≤ s.log.length
  quiet : ∀ x ∈ s.log.drop n, x.called ≠ some id

theorem ShutOff.next (hs : ShutOff id n s) (h : step cfg H s e = some s') {obs : List (Obs ω)}
    (hlog : s'.log = s.log ++ obs) (hobs : ∀ x ∈ obs, x.called ≠ some id) (hc : s.created ≤ s'.created)
    (hclosing : s'.isClosing id = true) : ShutOff id n s' := by
  refine ⟨Nat.lt_of_lt_of_le hs.created hc, hclosing, ?_, ?_, ?_⟩
  · rcases queued_step h id with hle | hopen
    · exact Nat.le_zero.mp (hs.queued ▸ hle)
    · rw [hclosing] at hopen
      cases hopen
  · rw [hlog, List.length_append]
    exact Nat.le_add_right_of_le hs.bound
  · rw [hlog, List.drop_append_of_le_length hs.bound]
    exact List.forall_mem_append.mpr ⟨hs.quiet, hobs⟩

theorem shutOff_step (hs : ShutOff id n s) (hread : dataRead s e ≠ some id) (h : step cfg H s e = some s') :
    ShutOff id n s' := by
  cases step_effect h with
  | move data =>
    have hlog : s'.log = s.log ++ [] := by rw [data.log, List.append_nil]
    refine hs.next h hlog nofun data.created.ge ?_
    rw [State.isClosing, data.heap]
    exact hs.closing
  | accept fd o t _ _ turn data =>
    have hne : id ≠ s.created := Nat.ne_of_lt hs.created
    refine hs.next h data.log ((connectTurn_reports turn).called hne) (data.created ▸ Nat.le_succ _) ?_
    rw [isClosing_update data.heap hne]
    exact hs.closing
  | dispatch i rfds wfds j rq wr rd o t event pc active object turn data =>
    by_cases hj : id = j
    · subst hj
      -- a pass over the connection itself, which reads no data
      have hquiet := ioTurn_quiet turn fun hr b bs hrd => hread (by
        rw [event, hrd]
        exact readable_eq pc active object hr)
      have hstate : rq.curState = .closing := by
        have := hs.closing
        rw [State.isClosing, object] at this
        simpa using this
      refine hs.next h data.log (fun x hx hc => ?_) data.created.ge ?_
      · rw [hquiet.1 x hx] at hc
        cases hc
      · rw [State.isClosing, data.heap, Function.update_self]
        rw [hstate, or_self] at hquiet
        simp [hquiet.2.1]
    · refine hs.next h data.log ((ioTurn_reports turn).called hj) data.created.ge ?_
      rw [isClosing_update data.heap hj]
      exact hs.closing
  | serve k j rq o t _ holding object turn data =>
    have hj : id ≠ j := by
      rintro rfl
      have hheld : id ∈ s.held := List.mem_filterMap.mpr ⟨_, List.mem_of_getElem? holding, rfl⟩
      have hpos := List.count_pos_iff.mpr hheld
      have hzero := hs.queued
      rw [State.queued] at hzero
      omega
    refine hs.next h data.log ((processConnection_reports turn).called hj) data.created.ge ?_
    rw [isClosing_update data.heap hj]
    exact hs.closing
  | disconnect _ _ _ j rq _ _ _ object _ _ data =>
    refine hs.next h data.log (by simp [Obs.called]) data.created.ge ?_
    by_cases hj : id = j
    · rw [State.isClosing, data.heap, hj, Function.update_self]
      rfl
    · rw [isClosing_update data.heap hj]
      exact hs.closing
  | disconnectThrows j rq _ object _ _ data =>
    refine hs.next h data.log (by simp [Obs.called]) data.created.ge ?_
    rw [State.isClosing, data.heap]
    exact hs.closing

theorem shutOff_run {es : List (Event ω)} (hs : ShutOff id n s)
    (hread : Transition.Along (step cfg H) (fun s e => dataRead s e ≠ some id) s es)
    (hrun : Transition.run (step cfg H) s es = some s') : ShutOff id n s' :=
  Transition.run_invariant (step cfg H) (fun _ _ _ hp hok h => shutOff_step hp hok h) hread hrun hs

theorem ShutOff.leftAlone (hs : ShutOff id n s) : LeftAlone id n s := by
  refine ⟨hs.closing, fun hmem => ?_, hs.quiet⟩
  have hpos := List.count_pos_iff.mpr hmem
  have hzero := hs.queued
  rw [State.queued] at hzero
  omega

/-! ## Whole runs -/

/-- Behind a read of 0 on a connection, `socket::read` delivers no data on it: `recv` returns 0 once the peer
has shut down and everything it sent was received. -/
def EndsForGood (cfg : Config) (H : Handlers σ ω) : State σ ω → List (Event ω) → Prop
  | _, [] => True
  | s, e :: es =>
      (∀ id ∈ zeroRead H s e,
        Transition.Along (step cfg H) (fun s e => dataRead s e ≠ some id) s (e :: es)) ∧
      ∀ s' ∈ step cfg H s e, EndsForGood cfg H s' es

instance EndsForGood.decidable (cfg : Config) (H : Handlers σ ω) :
    ∀ s es, Decidable (EndsForGood cfg H s es)
  | _, [] => .isTrue trivial
  | s, e :: es =>
      have := fun t => EndsForGood.decidable cfg H t es
      inferInstanceAs (Decidable (_ ∧ ∀ s' ∈ step cfg H s e, EndsForGood cfg H s' es))

theorem EndsForGood.behind {es es₁ es₂ : List (Event ω)} {t : State σ ω} (h : EndsForGood cfg H s es)
    (hpre : es₁ ++ e :: es₂ <+: es) (hrun : Transition.run (step cfg H) s es₁ = some t)
    (hzero : zeroRead H t e = some id) :
    Transition.Along (step cfg H) (fun s e => dataRead s e ≠ some id) t (e :: es₂) := by
  induction es₁ generalizing s es with
  | nil =>
    cases hrun
    obtain ⟨rest, rfl⟩ := hpre
    exact (h.1 id hzero).shorter (step cfg H) (List.prefix_append (e :: es₂) rest)
  | cons e₁ es₁ ih =>
    obtain ⟨rest, rfl⟩ := hpre
    obtain ⟨u, hu, hrest⟩ := Transition.run_cons_some (step cfg H) hrun
    exact ih (h.2 u hu) (List.prefix_append (es₁ ++ e :: es₂) rest) hrest

theorem zeroRead_event (h : zeroRead H s e = some id) :
    (∃ wr o, e = .dispatch wr (.data []) o) ∧ s.readable = some id := by
  unfold zeroRead at h
  split at h
  next wr o =>
    split at h
    · exact ⟨⟨wr, o, rfl⟩, h⟩
    · cases h
  next => cases h

/-- A read of 0 leaves the state of its connection. -/
theorem isClosing_zeroRead (hzero : zeroRead H s e = some id) (h : step cfg H s e = some s') :
    s'.isClosing id = s.isClosing id := by
  obtain ⟨⟨wr, o, rfl⟩, hreadable⟩ := zeroRead_event hzero
  obtain ⟨i, rfds, wfds, rq, hio, hi, hrq, -⟩ := exists_of_readable hreadable
  cases step_effect h with
  | dispatch i' rfds' wfds' j rq' wr rd o t event pc active object turn data =>
    cases event
    rw [hio] at pc
    cases pc
    obtain rfl := Option.some.inj (hi.symm.trans active)
    have hstate := (ioTurn_quiet turn nofun).2.2 rfl
    rw [State.isClosing, State.isClosing, data.heap, Function.update_self, object]
    simp [hstate]
  | move data => rw [State.isClosing, State.isClosing, data.heap]
  | accept _ _ _ event => cases event
  | serve _ _ _ _ _ event => cases event
  | disconnect _ _ _ _ _ event => cases event
  | disconnectThrows _ _ _ _ _ _ data => rw [State.isClosing, State.isClosing, data.heap]

/-- A connection that reads 0 while it is closing is shut off from there on. -/
theorem shutOff_of_zeroRead (hs : Exclusive s) (hn : Numbered s) (hzero : zeroRead H s e = some id)
    (hclosing : s.isClosing id = true) : ShutOff id s.log.length s := by
  obtain ⟨-, hreadable⟩ := zeroRead_event hzero
  obtain ⟨i, rfds, wfds, rq, -, hi, hrq, -⟩ := exists_of_readable hreadable
  obtain ⟨hreqs, hheld⟩ := hs.elsewhere (List.mem_of_getElem? hi)
  refine ⟨hn.heap id rq hrq, hclosing, ?_, Nat.le_refl _, ?_⟩
  · rw [State.queued, List.count_eq_zero.mpr hreqs, List.count_eq_zero.mpr hheld]
  · rw [List.drop_length]
    exact nofun

/-- In every run of the server, a connection on which `socket::read` has returned 0 is closing from then on,
is not pushed to `reqs` and not passed to the handler, if and only if every read that returns 0 is on a
connection that was closing before. -/
theorem closed_peer_iff (cfg : Config) (H : Handlers σ ω) (n : ℕ) (u : σ) {es : List (Event ω)}
    {last : State σ ω} (hrun : Transition.run (step cfg H) (State.init ω n u) es = some last)
    (hended : EndsForGood cfg H (State.init ω n u) es) :
    (∀ es₁ e es₂ s id s₂, es₁ ++ e :: es₂ <+: es →
      Transition.run (step cfg H) (State.init ω n u) es₁ = some s → zeroRead H s e = some id →
      Transition.run (step cfg H) s (e :: es₂) = some s₂ → LeftAlone id s.log.length s₂) ↔
    Transition.Along (step cfg H) (fun s e => ∀ id ∈ zeroRead H s e, s.isClosing id = true)
      (State.init ω n u) es := by
  constructor
  · intro hall
    refine (Transition.along_iff (step cfg H)).mpr fun es₁ e s hpre hs id hzero => ?_
    obtain ⟨s₁, hs₁⟩ := Transition.run_shorter (step cfg H) hpre hrun
    rw [Transition.run_append, hs] at hs₁
    obtain ⟨t, ht, hend⟩ := Transition.run_cons_some (step cfg H) hs₁
    obtain rfl := Option.some.inj hend
    rw [← isClosing_zeroRead hzero ht]
    exact (hall es₁ e [] s id t hpre hs hzero hs₁).1
  · intro hok es₁ e es₂ s id s₂ hpre hs hzero hs₂
    have hclosing : s.isClosing id = true := by
      refine (Transition.along_iff (step cfg H)).mp hok es₁ e s ?_ hs id hzero
      exact List.IsPrefix.trans ⟨es₂, by simp⟩ hpre
    have hnumbered : Numbered s :=
      Transition.run_preserves (step cfg H) numbered_step hs (numbered_init n u)
    have hshut := shutOff_of_zeroRead (exclusive_run hs) hnumbered hzero hclosing
    exact (shutOff_run hshut (hended.behind hpre hs hzero) hs₂).leftAlone

end Runs

end Shutdown

namespace Sample

/-- A connection is accepted, and its peer shuts down at once. -/
def beforeZero : List (Event Answer) :=
  acceptRound 5 ([], some true) ++ (readRound 5 (.data []) ([], some true)).take 7

/-- The handler closes a connection that it has written to; then the peer shuts down. -/
def zeroWhileClosing : List (Event Answer) :=
  acceptRound 5 ([], some true) ++ readRound 5 (.data [65]) ([66], some false) ++
    readRound 5 (.data []) ([], some true)

end Sample

theorem closed_peer_closing : ∃ last, Transition.run (step Sample.config Sample.handlers)
      (State.init Sample.Answer 1 ()) Sample.zeroWhileClosing = some last ∧
    ∀ es₁ e es₂ s id s₂, es₁ ++ e :: es₂ <+: Sample.zeroWhileClosing →
      Transition.run (step Sample.config Sample.handlers) (State.init _ 1 ()) es₁ = some s →
      zeroRead Sample.handlers s e = some id →
      Transition.run (step Sample.config Sample.handlers) s (e :: es₂) = some s₂ →
      LeftAlone id s.log.length s₂ := by
  have hrun : Transition.run (step Sample.config Sample.handlers) (State.init Sample.Answer 1 ())
      Sample.zeroWhileClosing = some _ := rfl
  exact ⟨_, hrun, (closed_peer_iff Sample.config Sample.handlers 1 () hrun (by decide)).mpr (by decide)⟩

/-- The connection on which 0 was read is pushed to `reqs`, and a worker calls the handler on it. -/
theorem closed_peer_served : ∃ s s₁ s₂, Transition.run (step Sample.config Sample.handlers)
      (State.init Sample.Answer 1 ()) Sample.beforeZero = some s ∧
    zeroRead Sample.handlers s (.dispatch .notReady (.data []) ([], some true)) = some 0 ∧
    step Sample.config Sample.handlers s (.dispatch .notReady (.data []) ([], some true)) = some s₁ ∧
    s₁.reqs = [0] ∧ s₁.isClosing 0 = false ∧
    Transition.run (step Sample.config Sample.handlers) s₁
      [.dispatch .notReady .notReady ([], some true), .take 0, .serve 0 ([], some true)] = some s₂ ∧
    (s₂.log.drop s.log.length).filterMap Obs.called = [0] ∧ ¬LeftAlone 0 s.log.length s₁ := by
  refine ⟨_, _, _, rfl, rfl, rfl, rfl, rfl, rfl, rfl, fun h => ?_⟩
  exact absurd h.1 (by decide)

end Dcl.Tcp
