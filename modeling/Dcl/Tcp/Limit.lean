import Dcl.Tcp.Ownership
import Mathlib.Data.List.Induction
import Mathlib.Data.List.Nodup

/-! # The number of connections

`connection_accept` looks at `a_reqs` before it accepts: it gives up when there are more than
`_queue_size` objects in it. A connection is live from the moment it is accepted until
`disconnect_client` has deleted its object; while it is in `reqs`, with a worker, or left in no place by
an exception, the check does not see it. The limit on the live connections is kept exactly by the runs
in which every check behind which a connection is accepted finds more room in `a_reqs` than there are
connections that it does not see. -/
namespace Dcl.Tcp
set_option autoImplicit false

section Limit
variable {σ ω : Type} {cfg : Config} {H : Handlers σ ω}

namespace State

/-- The connections that were accepted and whose objects were not deleted. -/
def live (s : State σ ω) : ℕ := (List.range s.created).countP fun id => (s.heap id).isSome

theorem live_congr {s s' : State σ ω} (hc : s'.created = s.created)
    (hheap : ∀ id, (s'.heap id).isSome = (s.heap id).isSome) : s'.live = s.live := by
  rw [live, live, hc]
  congr 1
  funext id
  exact hheap id

theorem live_turn {s s' : State σ ω} {id : ReqId} {rq : Request} (hc : s'.created = s.created)
    (hid : (s.heap id).isSome = true) (hheap : s'.heap = Function.update s.heap id (some rq)) :
    s'.live = s.live := by
  apply live_congr hc
  intro x
  rw [hheap]
  by_cases hx : x = id
  · rw [hx, Function.update_self, hid]
    rfl
  · rw [Function.update_of_ne hx]

end State

/-! ## Steps -/

theorem live_accept {s s' : State σ ω} {fd : Fd} {o : ω}
    (h : step cfg H s (.accept fd o) = some s') : s'.live = s.live + 1 := by
  simp only [step] at h
  split at h
  next ls rfds wfds hio =>
    split at h
    · cases h
    · obtain ⟨t, _, rfl⟩ := Option.map_eq_some_iff.mp h
      have hold : (List.range s.created).countP (fun id =>
          (Function.update s.heap s.created (some t.rq) id).isSome) = s.live := by
        apply List.countP_congr
        intro id hid
        rw [Function.update_of_ne (Nat.ne_of_lt (List.mem_range.mp hid))]
      simp only [State.live, State.turn, List.range_succ, List.countP_append, hold,
        List.countP_singleton, Function.update_self, Option.isSome_some, if_true]
  next => cases h

theorem live_le {s s' : State σ ω} {e : Event ω} (he : ∀ fd o, e ≠ .accept fd o)
    (h : step cfg H s e = some s') : s'.live ≤ s.live := by
  cases step_effect h with
  | move data => exact (State.live_congr data.created fun id => by rw [data.heap]).le
  | accept fd o _ event => exact absurd event (he fd o)
  | dispatch _ _ _ id rq _ _ _ t _ _ _ object _ data =>
    exact (State.live_turn data.created (by rw [object]; rfl) data.heap).le
  | serve _ id rq _ t _ _ object _ data =>
    exact (State.live_turn data.created (by rw [object]; rfl) data.heap).le
  | disconnect _ _ _ id _ _ _ _ _ _ _ data =>
    rw [State.live, State.live, data.created]
    apply List.countP_mono_left
    intro x _ hx
    rw [data.heap] at hx
    by_cases hxi : x = id
    · simp [hxi] at hx
    · rwa [Function.update_of_ne hxi] at hx
  | disconnectThrows _ _ _ _ _ _ data =>
    exact (State.live_congr data.created fun id => by rw [data.heap]).le

/-! ## Places -/

/-- What is in some place was not deleted. -/
def Placed (s : State σ ω) : Prop := ∀ x, 0 < s.tally x → (s.heap x).isSome = true

theorem placed_step (s : State σ ω) (e : Event ω) (s' : State σ ω) (hs : Exclusive s ∧ Placed s)
    (h : step cfg H s e = some s') : Exclusive s' ∧ Placed s' := by
  refine ⟨exclusive_step s e s' hs.1 h, fun x hx => ?_⟩
  -- an object that got a turn
  have hturn : ∀ {id : ReqId} {rq : Request}, s'.heap = Function.update s.heap id (some rq) →
      s'.tally x ≤ s.tally x → (s'.heap x).isSome = true := by
    intro id rq hheap hle
    rw [hheap]
    by_cases hxi : x = id
    · rw [hxi, Function.update_self]
      rfl
    · rw [Function.update_of_ne hxi]
      exact hs.2 x (by omega)
  cases step_effect h with
  | move data tally =>
    rw [data.heap]
    exact hs.2 x (tally x ▸ hx)
  | accept _ _ t _ _ _ data tally =>
    rw [data.heap]
    by_cases hxi : x = s.created
    · rw [hxi, Function.update_self]
      rfl
    · have ht := tally x
      rw [List.count_singleton, if_neg (show ¬ (s.created == x) = true by simpa using Ne.symm hxi),
        ite_self] at ht
      rw [Function.update_of_ne hxi]
      exact hs.2 x (by omega)
  | dispatch _ _ _ _ _ _ _ _ _ _ _ _ _ _ data tally => exact hturn data.heap (tally x).le
  | serve _ _ _ _ _ _ _ _ _ data tally => exact hturn data.heap (by have := tally x; omega)
  | disconnect _ _ _ id _ _ _ _ _ _ _ data tally =>
    have hone := hs.1.once x
    have ht := tally x
    have hxi : x ≠ id := by
      rintro rfl
      rw [List.count_singleton_self] at ht
      omega
    rw [data.heap, Function.update_of_ne hxi]
    exact hs.2 x (by omega)
  | disconnectThrows _ _ _ _ _ _ data tally =>
    rw [data.heap]
    exact hs.2 x (tally x ▸ hx)

theorem placed_init (n : ℕ) (u : σ) :
    Exclusive (State.init ω n u) ∧ Placed (State.init ω n u) := by
  have hs := exclusive_init (ω := ω) n u
  refine ⟨hs, fun x hx => ?_⟩
  have := hs.fresh x (Nat.zero_le x)
  omega

namespace State

/-- The connections that are live and in no place: a handler threw while a thread had them. -/
def lost (s : State σ ω) : ℕ := (List.range s.created).countP fun id => (s.heap id).isSome && s.tally id == 0

/-- The connections that the check does not see. -/
def unseen (s : State σ ω) : ℕ := s.reqs.length + s.held.length + s.lost

/-- The check of `connection_accept` lets a connection in. -/
def admits (cfg : Config) (s : State σ ω) : Bool := s.aReqs.length ≤ cfg.queueSize

end State

theorem places_eq_live {s : State σ ω} (hs : Exclusive s) (hp : Placed s) :
    s.aReqs.length + s.unseen + s.io.accepted.toList.length = s.live := by
  set l := s.aReqs ++ s.reqs ++ s.held ++ s.io.accepted.toList with hl
  have hcount : ∀ x, l.count x = s.tally x := by
    intro x
    rw [hl, List.count_append, List.count_append, List.count_append, State.tally]
  have hnodup : l.Nodup := by
    rw [List.nodup_iff_count_le_one]
    intro x
    rw [hcount x]
    exact hs.once x
  have hplaced : l.length = (List.range s.created).countP fun id => (s.heap id).isSome && !(s.tally id == 0) := by
    refine Slots.length_eq_countP_range hnodup fun x => ?_
    rw [← List.count_pos_iff, hcount x, Bool.and_eq_true, Bool.not_eq_true', beq_eq_false_iff_ne]
    constructor
    · intro hpos
      refine ⟨?_, hp x hpos, Nat.pos_iff_ne_zero.mp hpos⟩
      by_contra hlt
      have := hs.fresh x (Nat.le_of_not_lt hlt)
      omega
    · rintro ⟨-, -, hne⟩
      exact Nat.pos_of_ne_zero hne
  have hlive : s.live = s.lost + l.length := by
    rw [hplaced, State.live, State.lost, List.countP_eq_countP_filter_add _ _ fun id => s.tally id == 0,
      List.countP_filter, List.countP_filter]
  rw [hlive, hl, State.unseen]
  simp only [List.length_append]
  omega

/-! ## The check and the accept behind it -/

theorem takeStep_io (s : State σ ω) (k : ℕ) : (takeStep s k).io = s.io := by
  unfold takeStep
  split
  · rfl
  · split <;> rfl

/-- The I/O thread is past the check when it has just made it, or when another thread has moved. -/
theorem atAccept_from {s s' : State σ ω} {e : Event ω} (h : step cfg H s e = some s')
    (hio : s'.io.atAccept = true) : e = .visitListener ∨ e.ofIo = false ∧ s.io.atAccept = true := by
  cases step_moved h with
  | io pc _ _ _ checked => exact .inl (checked hio)
  | scan pc pass =>
    unfold scanStep at pass
    split at pass
    · obtain rfl := Option.some.inj pass
      cases hio
    · obtain ⟨rq, -, rfl⟩ := Option.map_eq_some_iff.mp pass
      split at hio
      · split at hio
        · cases hio
        · rw [pc] at hio
          cases hio
      · cases hio
  | accept pc _ call =>
    obtain ⟨t, -, rfl⟩ := Option.map_eq_some_iff.mp call
    dsimp only at hio
    split at hio <;> cases hio
  | acceptPush => cases hio
  | dispatch pc pass =>
    unfold dispatchStep at pass
    split at pass
    · obtain rfl := Option.some.inj pass
      cases hio
    · obtain ⟨rq, -, hturn⟩ := Option.bind_eq_some_iff.mp pass
      obtain ⟨t, -, rfl⟩ := Option.map_eq_some_iff.mp hturn
      split_ifs at hio <;> cases hio
  | take =>
    rw [takeStep_io] at hio
    exact .inr ⟨rfl, hio⟩
  | serve pc call =>
    obtain ⟨rq, -, hserve⟩ := Option.bind_eq_some_iff.mp call
    obtain ⟨t, -, rfl⟩ := Option.map_eq_some_iff.mp hserve
    exact .inr ⟨rfl, hio⟩
  | putBack => exact .inr ⟨rfl, hio⟩
  | worker _ _ _ thread => exact .inr ⟨thread, hio⟩
  | stop => exact .inr ⟨rfl, hio⟩
  | raise => exact .inr ⟨rfl, hio⟩

/-- Only an accept and the deletion of an object change the number of live connections. -/
theorem live_eq {s s' : State σ ω} {e : Event ω} (he : e = .visitListener ∨ e.ofIo = false)
    (h : step cfg H s e = some s') : s'.live = s.live := by
  cases step_effect h with
  | move data => exact State.live_congr data.created fun id => by rw [data.heap]
  | accept fd o _ event =>
    subst event
    rcases he with he | he <;> cases he
  | dispatch _ _ _ id rq _ _ _ t _ _ _ object _ data =>
    exact State.live_turn data.created (by rw [object]; rfl) data.heap
  | serve _ id rq _ t _ _ object _ data => exact State.live_turn data.created (by rw [object]; rfl) data.heap
  | disconnect _ _ _ id _ event =>
    subst event
    rcases he with he | he <;> cases he
  | disconnectThrows _ _ _ _ _ _ data => exact State.live_congr data.created fun id => by rw [data.heap]

theorem live_run {s s' : State σ ω} {es : List (Event ω)} (hes : ∀ e ∈ es, e.ofIo = false)
    (hrun : Transition.run (step cfg H) s es = some s') : s'.live = s.live := by
  induction es generalizing s with
  | nil =>
    cases hrun
    rfl
  | cons e es ih =>
    obtain ⟨t, ht, hrest⟩ := Transition.run_cons_some _ hrun
    rw [ih (fun d hd => hes d (List.mem_cons_of_mem e hd)) hrest, live_eq (.inr (hes e List.mem_cons_self)) ht]

theorem atAccept_of_accept {s s' : State σ ω} {fd : Fd} {o : ω} (h : step cfg H s (.accept fd o) = some s') :
    s.io.atAccept = true := by
  simp only [step] at h
  split at h
  next hio =>
    rw [hio]
    rfl
  next => cases h

theorem accepted_of_check {s s' : State σ ω} (h : step cfg H s .visitListener = some s') :
    s.io.accepted = none := by
  simp only [step] at h
  split at h
  next hio =>
    rw [hio]
    rfl
  next => cases h

/-- The I/O thread is past the check only if `a_reqs` was no longer than `_queue_size`. -/
theorem admits_of_check {s s' : State σ ω} (h : step cfg H s .visitListener = some s')
    (hio : s'.io.atAccept = true) : s.admits cfg = true := by
  simp only [step] at h
  split at h
  next =>
    split at h
    next hcheck => exact (Bool.and_eq_true_iff.mp hcheck).2
    next =>
      obtain rfl := Option.some.inj h
      cases hio
  next => cases h

theorem atAccept_run {s s' : State σ ω} {es : List (Event ω)} (hes : ∀ e ∈ es, e.ofIo = false)
    (hrun : Transition.run (step cfg H) s es = some s') (hio : s'.io.atAccept = true) :
    s.io.atAccept = true := by
  induction es generalizing s with
  | nil =>
    cases hrun
    exact hio
  | cons e es ih =>
    obtain ⟨t, ht, hrest⟩ := Transition.run_cons_some _ hrun
    rcases atAccept_from ht (ih (fun d hd => hes d (List.mem_cons_of_mem e hd)) hrest) with rfl | ⟨-, hs⟩
    · cases hes _ List.mem_cons_self
    · exact hs

/-- A connection that is accepted behind a check was let in by it, and is one more than there were. -/
theorem accepted_behind {s s' : State σ ω} {mid : List (Event ω)} {fd : Fd} {o : ω}
    (hmid : ∀ e ∈ mid, e.ofIo = false)
    (hrun : Transition.run (step cfg H) s (.visitListener :: (mid ++ [.accept fd o])) = some s') :
    s.io.accepted = none ∧ s.admits cfg = true ∧ s'.live = s.live + 1 := by
  obtain ⟨s₁, hcheck, hrest⟩ := Transition.run_cons_some _ hrun
  rw [Transition.run_append] at hrest
  obtain ⟨s₂, hmid₂, hlast⟩ := Option.bind_eq_some_iff.mp hrest
  obtain ⟨s₃, haccept, hnil⟩ := Transition.run_cons_some _ hlast
  cases hnil
  refine ⟨accepted_of_check hcheck, ?_, ?_⟩
  · exact admits_of_check hcheck (atAccept_run hmid hmid₂ (atAccept_of_accept haccept))
  · rw [live_accept haccept, live_run hmid hmid₂, live_eq (.inl rfl) hcheck]

/-- Where the I/O thread is past the check there was a check, and since then only other threads have moved. -/
theorem exists_check {s s' : State σ ω} (hs : s.io.atAccept = false) {es : List (Event ω)}
    (hrun : Transition.run (step cfg H) s es = some s') (hio : s'.io.atAccept = true) :
    ∃ es₁ mid, es = es₁ ++ .visitListener :: mid ∧ ∀ e ∈ mid, e.ofIo = false := by
  induction es using List.reverseRecOn generalizing s' with
  | nil =>
    cases hrun
    rw [hs] at hio
    cases hio
  | append_singleton es e ih =>
    rw [Transition.run_append] at hrun
    obtain ⟨t, ht, hlast⟩ := Option.bind_eq_some_iff.mp hrun
    obtain ⟨t', hstep, hnil⟩ := Transition.run_cons_some _ hlast
    cases hnil
    rcases atAccept_from hstep hio with rfl | ⟨hother, ht'⟩
    · exact ⟨es, [], rfl, List.forall_mem_nil _⟩
    · obtain ⟨es₁, mid, rfl, hmid⟩ := ih ht ht'
      refine ⟨es₁, mid ++ [e], by simp, ?_⟩
      exact List.forall_mem_append.mpr ⟨hmid, List.forall_mem_singleton.mpr hother⟩

/-! ## The limit -/

/-- When the check lets a connection in, `a_reqs` leaves more room than there are connections that the check does
not see. -/
def State.Suffices (cfg : Config) (s : State σ ω) : Prop :=
  s.admits cfg = true → s.unseen < cfg.queueSize - s.aReqs.length

/-- Every check behind which a connection is accepted suffices. -/
def ChecksSuffice (cfg : Config) (H : Handlers σ ω) (s : State σ ω) (es : List (Event ω)) : Prop :=
  ∀ es₁ mid fd o s₁, es₁ ++ .visitListener :: (mid ++ [.accept fd o]) <+: es → (∀ e ∈ mid, e.ofIo = false) →
    Transition.run (step cfg H) s es₁ = some s₁ → s₁.Suffices cfg

instance (cfg : Config) (s : State σ ω) : Decidable (s.Suffices cfg) := inferInstanceAs (Decidable (_ → _))

def checkSuffices (cfg : Config) (s : State σ ω) : Event ω → Bool
  | .visitListener => s.Suffices cfg
  | _ => true

theorem ChecksSuffice.of_along {s : State σ ω} {es : List (Event ω)}
    (h : Transition.Along (step cfg H) (fun s e => checkSuffices cfg s e = true) s es) :
    ChecksSuffice cfg H s es := by
  intro es₁ mid fd o s₁ hpre _ hrun
  refine of_decide_eq_true ((Transition.along_iff _).mp h es₁ .visitListener s₁ ?_ hrun)
  refine List.IsPrefix.trans ⟨mid ++ [.accept fd o], ?_⟩ hpre
  rw [List.append_assoc, List.singleton_append]

end Limit

namespace Sample

/-- A server for one connection. -/
def narrow : Config := ⟨1, [3], true⟩

/-- A round in which another connection is accepted. -/
def acceptSecond : List (Event Answer) :=
  [.checkStop, .lockScan, .scan false, .scan false, .select [3] [], .visitListener,
    .accept 6 ([], some true), .acceptPush]

end Sample

end Dcl.Tcp
