import Dcl.Tcp.Steps

/-! # Who owns a connection

The places of a request object over whole runs.

* `Exclusive`: no object is in two places, and `disconnect_client` is called at most once per
  object, never on one that is queued for the workers or held by one. No condition is needed.
* `AllOwned`: no object that was not disconnected is in no place. It holds in every run in which no
  connection is lost to an exception of the `on_connect` handler or of a handler call made by a
  worker (`keeps`); the exceptions of handler calls made by the I/O thread lose nothing. -/
namespace Dcl.Tcp
set_option autoImplicit false

section Ownership
variable {σ ω : Type}

namespace State

def disconnects (s : State σ ω) : List ReqId := s.log.filterMap Obs.ended

theorem disconnects_turn {s s' : State σ ω} {id : ReqId} {t : Turn σ ω}
    (hlog : s'.log = s.log ++ t.obs) (h : t.Reports id) : s'.disconnects = s.disconnects := by
  have hn : t.obs.filterMap Obs.ended = [] :=
    List.filterMap_eq_nil_iff.mpr fun x hx => (h x hx).2
  rw [disconnects, hlog, List.filterMap_append, hn, List.append_nil]
  rfl

theorem disconnects_snoc {s s' : State σ ω} {id : ReqId}
    (hlog : s'.log = s.log ++ [.disconnected id]) : s'.disconnects = s.disconnects ++ [id] := by
  rw [disconnects, hlog, List.filterMap_append]
  rfl

/-- The objects a step from `s` to `s'` passes to `disconnect_client`. -/
def endedBy (s s' : State σ ω) : List ReqId := s'.disconnects.drop s.disconnects.length

/-- `disconnect_client` is called on an object of `a_reqs` that is closing and whose write buffer
has eofbit set. -/
theorem endedBy_cases {cfg : Config} {H : Handlers σ ω} {s s' : State σ ω} {e : Event ω}
    (h : step cfg H s e = some s') {id : ReqId} (hid : id ∈ s.endedBy s') :
    id ∈ s.aReqs ∧ ∃ rq, s.heap id = some rq ∧ rq.curState = .closing ∧
      rq.writeBuffer.eofbit = true := by
  have hquiet : s'.disconnects = s.disconnects → False := fun hd => by simp [endedBy, hd] at hid
  have hlast : ∀ x, s'.disconnects = s.disconnects ++ [x] → id = x := fun x hd => by
    simpa [endedBy, hd] using hid
  cases step_effect h with
  | move data => exact (hquiet (by rw [disconnects, data.log]; rfl)).elim
  | accept fd o t _ _ turn data =>
    exact (hquiet (disconnects_turn data.log (connectTurn_reports turn))).elim
  | dispatch _ _ _ _ _ _ _ _ t _ _ _ _ turn data =>
    exact (hquiet (disconnects_turn data.log (ioTurn_reports turn))).elim
  | serve k id rq o t _ _ _ turn data =>
    exact (hquiet (disconnects_turn data.log (processConnection_reports turn))).elim
  | disconnect _ _ _ x rq _ _ active object closing drained data =>
    obtain rfl := hlast x (disconnects_snoc data.log)
    exact ⟨List.mem_of_getElem? active, rq, object, closing, drained⟩
  | disconnectThrows x rq active object closing drained data =>
    obtain rfl := hlast x (disconnects_snoc data.log)
    exact ⟨active, rq, object, closing, drained⟩

end State

/-! ## No object is in two places -/

/-- `once` and `ends` are what matters; the other two carry the induction. An object whose
disconnection threw stays in `a_reqs`, but the I/O thread is dead then. -/
structure Exclusive (s : State σ ω) : Prop where
  once : ∀ x, s.tally x ≤ 1
  ends : s.disconnects.Nodup
  fresh : ∀ x : ℕ, s.created ≤ x → s.tally x = 0
  gone : ∀ x : ℕ, x ∈ s.disconnects → x < s.created ∧ (s.tally x = 0 ∨ s.io = .died)

theorem exclusive_init (n : ℕ) (u : σ) : Exclusive (State.init ω n u) := by
  have htally : ∀ x, (State.init ω n u).tally x = 0 := by
    intro x
    have hheld : (State.init ω n u).held = [] := by simp [State.held, State.init, WorkerPc.held]
    rw [State.tally, hheld]
    rfl
  exact ⟨fun x => by rw [htally x]; omega, List.nodup_nil, fun x _ => htally x, by
    simp [State.disconnects, State.init]⟩

theorem Exclusive.elsewhere {s : State σ ω} (hs : Exclusive s) {id : ReqId} (h : id ∈ s.aReqs) :
    id ∉ s.reqs ∧ id ∉ s.held := by
  have h1 := hs.once id
  have h2 := List.count_pos_iff.mpr h
  unfold State.tally at h1
  exact ⟨List.count_eq_zero.mp (by omega), List.count_eq_zero.mp (by omega)⟩

theorem Exclusive.of_le {s s' : State σ ω} (hs : Exclusive s) (hc : s'.created = s.created)
    (hd : s'.disconnects = s.disconnects) (ht : ∀ x, s'.tally x ≤ s.tally x)
    (hdied : s.io = .died → s'.io = .died) : Exclusive s' := by
  refine ⟨fun x => (ht x).trans (hs.once x), hd ▸ hs.ends, fun x hx => ?_, fun x hx => ?_⟩
  · have := hs.fresh x (hc ▸ hx)
    have := ht x
    omega
  · rw [hd] at hx
    rw [hc]
    refine ⟨(hs.gone x hx).1, (hs.gone x hx).2.imp (fun h0 => ?_) hdied⟩
    have := ht x
    omega

theorem Exclusive.of_end {s s' : State σ ω} (hs : Exclusive s) (hlive : s.io ≠ .died) {id : ReqId}
    (hid : id ∈ s.aReqs) (hc : s'.created = s.created)
    (hd : s'.disconnects = s.disconnects ++ [id]) (ht : ∀ x, s'.tally x ≤ s.tally x)
    (hlast : s'.tally id = 0 ∨ s'.io = .died) : Exclusive s' := by
  have hpos : 0 < s.tally id := by
    have := List.count_pos_iff.mpr hid
    unfold State.tally
    omega
  have hnew : id ∉ s.disconnects := by
    intro hmem
    obtain h0 | h0 := (hs.gone id hmem).2
    · omega
    · exact hlive h0
  refine ⟨fun x => (ht x).trans (hs.once x), ?_, fun x hx => ?_, fun x hx => ?_⟩
  · rw [hd]
    exact List.nodup_append.mpr ⟨hs.ends, List.pairwise_singleton _ id, fun a ha b hb => by
      rw [List.mem_singleton.mp hb]
      exact fun hab => hnew (hab ▸ ha)⟩
  · have := hs.fresh x (hc ▸ hx)
    have := ht x
    omega
  · rw [hd, List.mem_append, List.mem_singleton] at hx
    rw [hc]
    obtain hx | rfl := hx
    · refine ⟨(hs.gone x hx).1, .inl ?_⟩
      have h0 := (hs.gone x hx).2.resolve_right hlive
      have := ht x
      omega
    · refine ⟨?_, hlast⟩
      by_contra hx
      have := hs.fresh x (by omega)
      omega

theorem exclusive_step {cfg : Config} {H : Handlers σ ω} (s : State σ ω) (e : Event ω)
    (s' : State σ ω) (hs : Exclusive s) (h : step cfg H s e = some s') : Exclusive s' := by
  cases step_effect h with
  | move data tally died =>
    exact hs.of_le data.created (by rw [State.disconnects, data.log]; rfl)
      (fun x => (tally x).le) died
  | accept fd o t _ _ turn data tally live =>
    have hd := State.disconnects_turn data.log (connectTurn_reports turn)
    have hcreated : s'.created = s.created + 1 := data.created
    have hnew := hs.fresh s.created le_rfl
    have hone : ∀ x, x ≠ s.created → s'.tally x = s.tally x := by
      intro x hx
      rw [tally x, List.count_singleton]
      simp [Ne.symm hx]
    refine ⟨fun x => ?_, hd ▸ hs.ends, fun x hx => ?_, fun x hx => ?_⟩
    · by_cases hx : x = s.created
      · rw [tally x, hx, hnew]
        split <;> simp
      · rw [hone x hx]
        exact hs.once x
    · rw [hone x (by omega)]
      exact hs.fresh x (by omega)
    · rw [hd] at hx
      have := (hs.gone x hx).1
      rw [hone x (by omega)]
      exact ⟨by omega, .inl ((hs.gone x hx).2.resolve_right live)⟩
  | dispatch _ _ _ _ _ _ _ _ t _ pc _ _ turn data tally =>
    exact hs.of_le data.created (State.disconnects_turn data.log (ioTurn_reports turn))
      (fun x => (tally x).le) (fun h0 => by simp [pc] at h0)
  | serve k id rq o t _ _ _ turn data tally died =>
    exact hs.of_le data.created (State.disconnects_turn data.log (processConnection_reports turn))
      (fun x => by have := tally x; omega) died
  | disconnect _ _ _ id rq _ pc active _ _ _ data tally =>
    have hone := hs.once id
    have hid := tally id
    rw [List.count_singleton_self] at hid
    exact hs.of_end (by simp [pc]) (List.mem_of_getElem? active) data.created
      (State.disconnects_snoc data.log) (fun x => by have := tally x; omega) (.inl (by omega))
  | disconnectThrows id rq active _ _ _ data tally live died =>
    exact hs.of_end live active data.created (State.disconnects_snoc data.log)
      (fun x => (tally x).le) (.inr died)

theorem exclusive_run {cfg : Config} {H : Handlers σ ω} {n : ℕ} {u : σ} {es : List (Event ω)}
    {s : State σ ω} (h : Transition.run (step cfg H) (State.init ω n u) es = some s) :
    Exclusive s :=
  Transition.run_preserves (step cfg H) exclusive_step h (exclusive_init n u)

/-- In every reachable state each object is at most once in `a_reqs`, `reqs` and the workers' hands,
`disconnect_client` was called at most once per object, and no possible step calls it on an object
that is in `reqs` or held by a worker. -/
theorem connection_owned_once (cfg : Config) (H : Handlers σ ω) (n : ℕ) (u : σ)
    (es : List (Event ω)) (s : State σ ω)
    (hrun : Transition.run (step cfg H) (State.init ω n u) es = some s) :
    (∀ x, s.aReqs.count x + s.reqs.count x + s.held.count x ≤ 1) ∧ s.disconnects.Nodup ∧
      ∀ e s' id, step cfg H s e = some s' → id ∈ s.endedBy s' → id ∉ s.reqs ∧ id ∉ s.held := by
  have hs := exclusive_run hrun
  refine ⟨fun x => ?_, hs.ends, fun e s' id h hid => ?_⟩
  · have := hs.once x
    unfold State.tally at this
    omega
  · exact hs.elsewhere (State.endedBy_cases h hid).1

theorem connection_owned_once_broken : ∃ s : State Unit Sample.Answer,
    s.disconnects = [0] ∧ s.created = 1 ∧
    (∀ x, s.aReqs.count x + s.reqs.count x + s.held.count x ≤ 1) ∧ s.disconnects.Nodup ∧
      ∀ e s' id, step Sample.config Sample.handlers s e = some s' →
        id ∈ s.endedBy s' → id ∉ s.reqs ∧ id ∉ s.held :=
  ⟨_, rfl, rfl, connection_owned_once Sample.config Sample.handlers 1 ()
    (Sample.acceptRound 5 ([], some true) ++ Sample.readRound 5 .ioError ([], some true) ++
      Sample.closeRound) _ rfl⟩

/-! ## No object is in no place -/

/-- No connection is lost by this step: an `on_connect` call returns, and so does the handler call
of a worker. -/
def keeps (H : Handlers σ ω) (s : State σ ω) : Event ω → Bool
  | .accept fd o => !connectThrows H o s.user s.created fd
  | .serve k o => !(s.workers[k]?.bind WorkerPc.held).any fun id => (s.heap id).any fun rq =>
      processThrows H o s.user id rq
  | _ => true

/-- Every object that was not passed to `disconnect_client` is in `a_reqs`, in `reqs`, or with a
thread that is going to put it there. -/
def AllOwned (s : State σ ω) : Prop :=
  ∀ id < s.created, id ∉ s.disconnects →
    id ∈ s.aReqs ∨ id ∈ s.reqs ∨ id ∈ s.held ∨ s.io.accepted = some id

theorem tally_pos_iff (s : State σ ω) (id : ReqId) :
    0 < s.tally id ↔ id ∈ s.aReqs ∨ id ∈ s.reqs ∨ id ∈ s.held ∨ s.io.accepted = some id := by
  have h : 0 < s.io.accepted.toList.count id ↔ s.io.accepted = some id := by
    rw [List.count_pos_iff, Option.mem_toList]
  rw [← List.count_pos_iff, ← List.count_pos_iff, ← List.count_pos_iff, ← h, State.tally]
  omega

theorem allOwned_iff (s : State σ ω) :
    AllOwned s ↔ ∀ id < s.created, id ∉ s.disconnects → 0 < s.tally id := by
  simp only [AllOwned, tally_pos_iff]

theorem allOwned_step {cfg : Config} {H : Handlers σ ω} (s : State σ ω) (e : Event ω)
    (s' : State σ ω) (hs : AllOwned s) (hk : keeps H s e) (h : step cfg H s e = some s') :
    AllOwned s' := by
  rw [allOwned_iff] at hs ⊢
  intro id hid hd
  cases step_effect h with
  | move data tally =>
    rw [State.disconnects, data.log] at hd
    rw [tally id]
    exact hs id (data.created ▸ hid) hd
  | accept fd o t event _ turn data tally =>
    subst event
    have hthrew : t.threw = false := by
      rw [connectTurn_threw turn]
      simpa [keeps] using hk
    have hcreated : s'.created = s.created + 1 := data.created
    rw [State.disconnects_turn data.log (connectTurn_reports turn)] at hd
    rw [tally id, hthrew]
    by_cases hnew : id = s.created
    · simp [hnew]
    · have := hs id (by omega) hd
      omega
  | dispatch _ _ _ _ _ _ _ _ t _ _ _ _ turn data tally =>
    rw [State.disconnects_turn data.log (ioTurn_reports turn)] at hd
    rw [tally id]
    exact hs id (data.created ▸ hid) hd
  | serve k x rq o t event holding object turn data tally =>
    subst event
    have hthrew : t.threw = false := by
      rw [processConnection_threw turn]
      simpa [keeps, holding, WorkerPc.held, object] using hk
    have hid' := tally id
    rw [hthrew] at hid'
    rw [State.disconnects_turn data.log (processConnection_reports turn)] at hd
    have := hs id (data.created ▸ hid) hd
    simp only [Bool.false_eq_true, if_false] at hid'
    omega
  | disconnect _ _ _ x rq _ _ _ _ _ _ data tally =>
    rw [State.disconnects_snoc data.log, List.mem_append, List.mem_singleton, not_or] at hd
    have := hs id (data.created ▸ hid) hd.1
    have hid' := tally id
    rw [List.count_singleton, if_neg (by simpa using Ne.symm hd.2)] at hid'
    omega
  | disconnectThrows x rq active _ _ _ data tally =>
    rw [State.disconnects_snoc data.log, List.mem_append, not_or] at hd
    rw [tally id]
    exact hs id (data.created ▸ hid) hd.1

/-- In every run whose `on_connect` calls and workers' handler calls return, no connection is lost. -/
theorem no_connection_lost (cfg : Config) (H : Handlers σ ω) (n : ℕ) (u : σ) (es : List (Event ω))
    (s : State σ ω) (hrun : Transition.run (step cfg H) (State.init ω n u) es = some s)
    (hkeep : Transition.Along (step cfg H) (fun s e => keeps H s e) (State.init ω n u) es) :
    AllOwned s := by
  refine Transition.run_invariant (step cfg H) allOwned_step hkeep hrun fun id hid => ?_
  exact absurd hid (Nat.not_lt_zero id)

end Ownership

/-! ## A connection that is lost -/

namespace Sample

/-- A connection is accepted and sends a byte; the handler returns `true` in the I/O thread and
answers `r` in the worker. -/
def twoCalls (r : Option Bool) : List (Event Answer) :=
  acceptRound 5 ([], some true) ++ readRound 5 (.data [65]) ([], some true) ++
    [.take 0, .serve 0 ([], r)]

end Sample

theorem no_connection_lost_held : ∃ s : State Unit Sample.Answer,
    s.created = 1 ∧ s.held = [0] ∧ AllOwned s :=
  ⟨_, rfl, rfl, no_connection_lost Sample.config Sample.handlers 1 () (Sample.twoCalls (some true)) _
    rfl (by decide)⟩

/-- The worker's handler call throws: the object is in no place and was not disconnected. -/
theorem connection_lost_by_worker : ∃ s : State Unit Sample.Answer,
    Transition.run (step Sample.config Sample.handlers) (State.init _ 1 ()) (Sample.twoCalls none) =
      some s ∧ ¬ AllOwned s := by
  refine ⟨_, rfl, fun h => ?_⟩
  have h0 := h 0 (by decide) (by decide)
  revert h0
  decide

end Dcl.Tcp
