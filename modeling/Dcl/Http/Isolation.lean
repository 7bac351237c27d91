import Dcl.Http.Local
import Dcl.Tcp.Steps

/-! # What a connection finds in the request table

`http_server` keeps the request that is being received under the descriptor of its connection, and
only `process_data` ever removes it. `Local.step` is a connection on its own, without the other
connections and without the server; `Isolated` says that every connection of the server is where it
would be on its own. It is kept by every step but one: `accept` may return a descriptor whose former
connection ended in the middle of a request (`fresh`), and then the new connection continues that
request. -/
namespace Dcl.Http
set_option autoImplicit false

/-! ## A connection on its own -/

/-- What an event does to a connection that is alone. -/
def Local.step (pf : Platform) (l : Local) : LocalEvent → Option Local
  | .received bs on => (l.read pf on bs).map Prod.fst
  | .readError => some { l with buffer := l.buffer.setBad }
  | .served on => (l.work pf on).map Prod.fst

def Local.solo (pf : Platform) (es : List LocalEvent) : Option Local :=
  Transition.run (Local.step pf) Local.start es

section Turns
variable {pf : Platform} {on : OnRequest} {tb : Table} {id : Tcp.ReqId} {rq : Tcp.Request}
  {t : Tcp.Turn Table OnRequest}

/-- A turn does to its connection what the connection would do alone, and it leaves the other
descriptors and connections as they are. -/
structure LocalTurn (pf : Platform) (tb : Table) (id : Tcp.ReqId) (rq : Tcp.Request)
    (t : Tcp.Turn Table OnRequest) : Prop where
  seen : Transition.run (Local.step pf) (view tb id rq) (trace t.obs id) = some (view t.user id t.rq)
  reqs : ∀ fd ≠ rq.handle, t.user.reqs fd = tb.reqs fd
  passed : ∀ j ≠ id, t.user.passedFor j = tb.passedFor j

theorem view_after (hfd : t.rq.handle = rq.handle) {r : Served}
    (huser : t.user = tb.after ⟨id, rq.handle⟩ r) :
    view t.user id t.rq = ⟨r.entry, t.rq.readBuffer, tb.passedFor id ++ r.passed⟩ := by
  rw [view, huser, hfd, reqs_after tb ⟨id, rq.handle⟩ r, passedFor_after tb ⟨id, rq.handle⟩ r]

theorem localTurn_call (hfd : t.rq.handle = rq.handle) {r : Served}
    (huser : t.user = tb.after ⟨id, rq.handle⟩ r) {e : LocalEvent} (hseen : trace t.obs id = [e])
    (hstep : (view tb id rq).step pf e =
      some ⟨r.entry, t.rq.readBuffer, tb.passedFor id ++ r.passed⟩) : LocalTurn pf tb id rq t := by
  refine ⟨?_, fun fd hne => ?_, fun j hne => ?_⟩
  · rw [hseen, Transition.run_cons, hstep, view_after hfd huser]
    rfl
  · rw [huser]
    exact Function.update_of_ne hne _ _
  · rw [huser]
    exact passedFor_elsewhere tb ⟨id, rq.handle⟩ r hne

theorem localTurn_io {readable : Bool} {rd : Tcp.ReadResult} (hfd : t.rq.handle = rq.handle)
    (h : HttpTurn pf on tb id rq readable rd t) : LocalTurn pf tb id rq t := by
  cases h with
  | quiet user buffer seen =>
    refine ⟨?_, fun fd _ => by rw [user], fun j _ => by rw [user]⟩
    rw [seen, user, view, view, hfd, buffer]
    rfl
  | broken user buffer seen =>
    refine ⟨?_, fun fd _ => by rw [user], fun j _ => by rw [user]⟩
    rw [seen, user, view, view, hfd, buffer]
    rfl
  | call bs r _ _ _ call user buffer _ seen =>
    refine localTurn_call hfd user seen ?_
    rw [buffer]
    simp only [Local.step, Local.read, view, call, Option.map_some]

theorem localTurn_worker (h : Tcp.processConnection (handlers pf) on tb id rq = some t) :
    LocalTurn pf tb id rq t := by
  obtain ⟨r, call, user, buffer, _, seen⟩ := processConnection_http h
  refine localTurn_call (Tcp.processConnection_handle h) user seen ?_
  rw [buffer]
  simp only [Local.step, Local.work, view, call, Option.map_some]

end Turns

/-! ## Every connection of the server -/

section Runs
variable {pf : Platform} {cfg : Tcp.Config}

/-- The descriptor that `accept` returns has no request left in the table. -/
def fresh (s : Tcp.State Table OnRequest) : Tcp.Event OnRequest → Bool
  | .accept fd _ => (s.user.reqs fd).isNone
  | _ => true

/-- Every connection has passed to the handler what it would have passed alone, and a live one is in
the state in which it would be alone. -/
structure Isolated (pf : Platform) (s : Tcp.State Table OnRequest) : Prop where
  numbered : Tcp.Numbered s
  distinct : Tcp.Distinct s
  alone : ∀ id, ∃ l, Local.solo pf (trace s.log id) = some l ∧ l.passed = s.user.passedFor id ∧
    ∀ rq, s.heap id = some rq → l = view s.user id rq

theorem isolated_init (n : ℕ) : Isolated pf (Tcp.State.init OnRequest n Table.empty) := by
  refine ⟨Tcp.numbered_init n _, fun i j rq rq' h => ?_, fun id => ?_⟩
  · simp [Tcp.State.init] at h
  · exact ⟨Local.start, rfl, rfl, fun rq h => by simp [Tcp.State.init] at h⟩

theorem Isolated.elsewhere {s s' : Tcp.State Table OnRequest} (hs : Isolated pf s) {id : Tcp.ReqId}
    (htrace : trace s'.log id = trace s.log id) (hheap : s'.heap id = s.heap id)
    (hpassed : s'.user.passedFor id = s.user.passedFor id)
    (hreqs : ∀ rq, s.heap id = some rq → s'.user.reqs rq.handle = s.user.reqs rq.handle) :
    ∃ l, Local.solo pf (trace s'.log id) = some l ∧ l.passed = s'.user.passedFor id ∧
      ∀ rq, s'.heap id = some rq → l = view s'.user id rq := by
  obtain ⟨l, hsolo, hl, hview⟩ := hs.alone id
  refine ⟨l, by rw [htrace, hsolo], by rw [hl, hpassed], fun rq hrq => ?_⟩
  rw [hheap] at hrq
  rw [hview rq hrq, view, view, hreqs rq hrq, hpassed]

theorem Isolated.turn {s s' : Tcp.State Table OnRequest} (hs : Isolated pf s) {id : Tcp.ReqId}
    {rq : Tcp.Request} {t : Tcp.Turn Table OnRequest} (hrq : s.heap id = some rq)
    (ht : LocalTurn pf s.user id rq t) (hrep : t.Reports id)
    (hheap : s'.heap = Function.update s.heap id (some t.rq)) (huser : s'.user = t.user)
    (hlog : s'.log = s.log ++ t.obs) (j : Tcp.ReqId) :
    ∃ l, Local.solo pf (trace s'.log j) = some l ∧ l.passed = s'.user.passedFor j ∧
      ∀ rq', s'.heap j = some rq' → l = view s'.user j rq' := by
  by_cases hj : j = id
  · subst hj
    obtain ⟨l, hsolo, _, hview⟩ := hs.alone j
    refine ⟨view t.user j t.rq, ?_, by rw [huser]; rfl, fun rq' hrq' => ?_⟩
    · rw [hlog, trace_append, Local.solo, Transition.run_append]
      rw [Local.solo] at hsolo
      rw [hsolo, Option.bind_some, hview rq hrq, ht.seen]
    · rw [hheap, Function.update_self, Option.some.injEq] at hrq'
      rw [huser, hrq']
  · have hquiet : trace t.obs j = [] :=
      trace_elsewhere fun x hx heq => hj (by rw [← heq, (hrep x hx).1])
    refine hs.elsewhere ?_ ?_ ?_ fun rq' hrq' => ?_
    · rw [hlog, trace_append, hquiet, List.append_nil]
    · rw [hheap, Function.update_of_ne hj]
    · rw [huser]
      exact ht.passed j hj
    · rw [huser]
      exact ht.reqs _ fun heq => hj (hs.distinct j id rq' rq hrq' hrq heq)

theorem Isolated.accept {s s' : Tcp.State Table OnRequest} (hs : Isolated pf s) {fd : Tcp.Fd}
    (hfree : s.user.reqs fd = none)
    (hd : s'.Data (Function.update s.heap s.created (some (.new fd))) s.user s.log (s.created + 1))
    (j : ℕ) :
    ∃ l, Local.solo pf (trace s'.log j) = some l ∧ l.passed = s'.user.passedFor j ∧
      ∀ rq', s'.heap j = some rq' → l = view s'.user j rq' := by
  by_cases hj : j = s.created
  · subst hj
    obtain ⟨l, hsolo, hl, _⟩ := hs.alone s.created
    have hnone : trace s.log s.created = [] :=
      trace_elsewhere fun x hx heq => Nat.lt_irrefl _ (hs.numbered.log x hx s.created heq)
    rw [hnone] at hsolo
    obtain rfl : Local.start = l := Option.some.inj hsolo
    refine ⟨Local.start, by rw [hd.log, hnone]; rfl, by rw [hd.user, hl], fun rq' hrq' => ?_⟩
    rw [hd.heap, Function.update_self, Option.some.injEq] at hrq'
    rw [hd.user, ← hrq', view, ← hl]
    simp only [Tcp.Request.new, hfree]
    rfl
  · refine hs.elsewhere (by rw [hd.log]) ?_ (by rw [hd.user]) fun rq' _ => by rw [hd.user]
    rw [hd.heap, Function.update_of_ne hj]

theorem trace_disconnected (log : List (Tcp.Obs OnRequest)) (id j : Tcp.ReqId) :
    trace (log ++ [.disconnected id]) j = trace log j := by
  rw [trace_append]
  exact List.append_nil _

theorem isolated_step (s : Tcp.State Table OnRequest) (e : Tcp.Event OnRequest)
    (s' : Tcp.State Table OnRequest) (hs : Isolated pf s) (hfresh : fresh s e)
    (h : Tcp.step cfg (handlers pf) s e = some s') : Isolated pf s' := by
  refine ⟨Tcp.numbered_step s e s' hs.numbered h, Tcp.distinct_step hs.numbered hs.distinct h,
    fun j => ?_⟩
  cases Tcp.step_effect h with
  | move data =>
    exact hs.elsewhere (by rw [data.log]) (by rw [data.heap]) (by rw [data.user])
      fun rq _ => by rw [data.user]
  | accept fd o t event _ turn data =>
    subst event
    -- no handler is assigned to `on_connect`
    obtain rfl : ⟨.new fd, s.user, [], false⟩ = t := Option.some.inj turn
    refine hs.accept (Option.isNone_iff_eq_none.mp hfresh) ?_ j
    simpa using data
  | dispatch _ _ _ id rq _ _ _ t _ _ _ object turn data =>
    exact hs.turn object (localTurn_io (Tcp.ioTurn_handle turn) (ioTurn_http turn))
      (Tcp.ioTurn_reports turn) data.heap data.user data.log j
  | serve _ id rq _ t _ _ object turn data =>
    exact hs.turn object (localTurn_worker turn) (Tcp.processConnection_reports turn) data.heap
      data.user data.log j
  | disconnect _ _ _ id rq _ _ _ object _ _ data =>
    by_cases hj : j = id
    · obtain ⟨l, hsolo, hl, _⟩ := hs.alone j
      refine ⟨l, by rw [data.log, trace_disconnected, hsolo], by rw [data.user, hl], ?_⟩
      intro rq' hrq'
      simp [data.heap, hj] at hrq'
    · refine hs.elsewhere (by rw [data.log, trace_disconnected]) ?_ (by rw [data.user])
        fun rq' _ => by rw [data.user]
      rw [data.heap, Function.update_of_ne hj]
  | disconnectThrows id rq _ _ _ _ data =>
    exact hs.elsewhere (by rw [data.log, trace_disconnected]) (by rw [data.heap])
      (by rw [data.user]) fun rq' _ => by rw [data.user]

theorem isolated_run {n : ℕ} {es : List (Tcp.Event OnRequest)} {s : Tcp.State Table OnRequest}
    (hfresh : Transition.Along (Tcp.step cfg (handlers pf)) (fun s e => fresh s e)
      (Tcp.State.init _ n Table.empty) es)
    (hrun : Transition.run (Tcp.step cfg (handlers pf)) (Tcp.State.init _ n Table.empty) es =
      some s) : Isolated pf s :=
  Transition.run_invariant (Tcp.step cfg (handlers pf)) isolated_step hfresh hrun (isolated_init n)

end Runs

/-- Two runs that accept no connection on a descriptor with a request left over: a connection to
which the same happens in both has the same requests passed to the handler, whatever the other
connections do. -/
theorem requests_isolated (pf : Platform) (cfg₁ cfg₂ : Tcp.Config) (n₁ n₂ : ℕ)
    (es₁ es₂ : List (Tcp.Event OnRequest)) (s₁ s₂ : Tcp.State Table OnRequest)
    (hrun₁ : Transition.run (Tcp.step cfg₁ (handlers pf)) (Tcp.State.init _ n₁ Table.empty) es₁ =
      some s₁)
    (hrun₂ : Transition.run (Tcp.step cfg₂ (handlers pf)) (Tcp.State.init _ n₂ Table.empty) es₂ =
      some s₂)
    (hfresh₁ : Transition.Along (Tcp.step cfg₁ (handlers pf)) (fun s e => fresh s e)
      (Tcp.State.init _ n₁ Table.empty) es₁)
    (hfresh₂ : Transition.Along (Tcp.step cfg₂ (handlers pf)) (fun s e => fresh s e)
      (Tcp.State.init _ n₂ Table.empty) es₂)
    (id₁ id₂ : Tcp.ReqId) (hsame : trace s₁.log id₁ = trace s₂.log id₂) :
    s₁.user.passedFor id₁ = s₂.user.passedFor id₂ := by
  obtain ⟨l₁, hsolo₁, hl₁, _⟩ := (isolated_run hfresh₁ hrun₁).alone id₁
  obtain ⟨l₂, hsolo₂, hl₂, _⟩ := (isolated_run hfresh₂ hrun₂).alone id₂
  rw [hsame, hsolo₂, Option.some.injEq] at hsolo₁
  rw [← hl₁, ← hl₂, hsolo₁]

/-! ## A request that is continued by another connection -/

namespace Sample
open Tcp.Sample (acceptRound readRound writeRound workerRound closeRound)

/-- A connection on descriptor 5 is accepted, `before` happens to it, and it is disconnected; then
another one is accepted on descriptor 5 and sends two line ends. -/
def reuse (before : List (Tcp.Event OnRequest)) : List (Tcp.Event OnRequest) :=
  acceptRound 5 onRequest ++ before ++ closeRound ++ (acceptRound 5 onRequest).drop 2 ++
    readRound 5 (.data (ascii "\n\n")) onRequest

def silent : List (Tcp.Event OnRequest) := readRound 5 .ioError onRequest

def whole : List (Tcp.Event OnRequest) :=
  readRound 5 (.data (ascii "P /x 1\n\n")) onRequest ++ writeRound 5 (.wrote 52) onRequest ++
    writeRound 5 .notReady onRequest

/-- The connection breaks off behind the first byte of a header line. -/
def halfway : List (Tcp.Event OnRequest) :=
  readRound 5 (.data (ascii "P /x 1\nA")) onRequest ++ workerRound onRequest ++
    readRound 5 .ioError onRequest ++ writeRound 5 .notReady onRequest

/-- What happened to the second connection, and the paths of the requests passed for the two. -/
def outcome (es : List (Tcp.Event OnRequest)) :
    Option (List LocalEvent × List Bytes × List Bytes) :=
  (final es).map fun s => (trace s.log 1, (s.user.passedFor 0).map HttpRequest.pathInfo,
    (s.user.passedFor 1).map HttpRequest.pathInfo)

theorem outcome_silent :
    outcome (reuse silent) = some ([.received (ascii "\n\n") onRequest], [], [[]]) := by rfl

theorem outcome_whole :
    outcome (reuse whole) = some ([.received (ascii "\n\n") onRequest], [ascii "/x"], [[]]) := by rfl

theorem outcome_halfway :
    outcome (reuse halfway) = some ([.received (ascii "\n\n") onRequest], [], [ascii "/x"]) := by rfl

end Sample

theorem requests_isolated_reuse :
    ∃ s₁ s₂ : Tcp.State Table OnRequest,
      (s₁.user.passedFor 0).map HttpRequest.pathInfo = [] ∧
      (s₂.user.passedFor 0).map HttpRequest.pathInfo = [ascii "/x"] ∧
      (s₁.user.passedFor 1).map HttpRequest.pathInfo = [[]] ∧
      s₁.user.passedFor 1 = s₂.user.passedFor 1 := by
  obtain ⟨s₁, hrun₁, h₁⟩ := Option.map_eq_some_iff.mp Sample.outcome_silent
  obtain ⟨s₂, hrun₂, h₂⟩ := Option.map_eq_some_iff.mp Sample.outcome_whole
  simp only [Prod.mk.injEq] at h₁ h₂
  refine ⟨s₁, s₂, h₁.2.1, h₂.2.1, h₁.2.2, ?_⟩
  exact requests_isolated Sample.platform Tcp.Sample.config Tcp.Sample.config 1 1 _ _ s₁ s₂ hrun₁ hrun₂
    (by decide +kernel) (by decide +kernel) 1 1 (h₁.1.trans h₂.1.symm)

/-- The same happens to the second connection in both runs, but in one of them its request has the
path that the first connection sent. -/
theorem request_crosses_connections :
    ∃ s₁ s₂ : Tcp.State Table OnRequest,
      Sample.final (Sample.reuse Sample.silent) = some s₁ ∧
      Sample.final (Sample.reuse Sample.halfway) = some s₂ ∧
      trace s₁.log 1 = trace s₂.log 1 ∧ s₁.user.passedFor 1 ≠ s₂.user.passedFor 1 ∧
      (s₂.user.passedFor 1).map HttpRequest.pathInfo = [ascii "/x"] := by
  obtain ⟨s₁, hrun₁, h₁⟩ := Option.map_eq_some_iff.mp Sample.outcome_silent
  obtain ⟨s₂, hrun₂, h₂⟩ := Option.map_eq_some_iff.mp Sample.outcome_halfway
  simp only [Prod.mk.injEq] at h₁ h₂
  refine ⟨s₁, s₂, hrun₁, hrun₂, h₁.1.trans h₂.1.symm, fun heq => ?_, h₂.2.2⟩
  have hpath : [[]] = [ascii "/x"] := by rw [← h₁.2.2, ← h₂.2.2, heq]
  exact absurd hpath (by decide)

end Dcl.Http
