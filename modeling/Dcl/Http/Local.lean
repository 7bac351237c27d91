import Dcl.Http.Message
import Dcl.Tcp.Server

/-! # One connection of an `http_server`

What `connection_read` and the handler call of `working_process` do to one connection when the
handler is `process_data`: `Local` is what belongs to the connection (its pending request object, its
read buffer, the requests passed to the handler for it), `Local.read` and `Local.work` are the two
calls. `connectionRead_view` and `processConnection_view` say that these are the calls of `tcp_server`
seen from the connection, and that they touch nothing of the other connections. -/
namespace Dcl.Http
set_option autoImplicit false

structure Local where
  entry : Option Request
  buffer : StringStream
  passed : List HttpRequest
  deriving DecidableEq

namespace Local

def start : Local := ⟨none, StringStream.empty.setEof, []⟩

def discard (b : StringStream) : StringStream :=
  let g := b.tellg
  if g.1 = g.2.tellp then g.2.discard else g.2

section Calls
variable (pf : Platform) (on : OnRequest)

/-- The part of `connection_read` after the bytes arrived; the second component is the handler's
result. -/
def read (s : Local) (bs : Bytes) : Option (Local × Option Bool) :=
  (process pf on s.entry (s.buffer.clear.insert bs)).map fun r =>
    (⟨r.entry, if r.result = none then r.inp else discard r.inp, s.passed ++ r.passed⟩, r.result)

def work (s : Local) : Option (Local × Option Bool) :=
  (process pf on s.entry s.buffer).map fun r => (⟨r.entry, r.inp, s.passed ++ r.passed⟩, r.result)

end Calls

end Local

/-! ## Seen from a connection -/

def Table.passedFor (tb : Table) (id : Tcp.ReqId) : List HttpRequest :=
  (tb.passed.filter fun d => d.conn = id).map Delivery.req

def view (tb : Table) (id : Tcp.ReqId) (rq : Tcp.Request) : Local :=
  ⟨(tb.reqs rq.handle).map Prod.snd, rq.readBuffer, tb.passedFor id⟩

def stateAfter (state : Tcp.ConnState) (result : Option Bool) : Tcp.ConnState :=
  if result = some false then .closing else state

section Views
variable {pf : Platform} {on : OnRequest}

theorem passedFor_after (tb : Table) (c : Tcp.Conn) (r : Served) :
    (tb.after c r).passedFor c.id = tb.passedFor c.id ++ r.passed := by
  have h : (r.passed.map fun q => (⟨c.id, tb.serial c.handle, q⟩ : Delivery)).filter
      (fun d => d.conn = c.id) = r.passed.map fun q => ⟨c.id, tb.serial c.handle, q⟩ := by
    rw [List.filter_eq_self]
    intro d hd
    obtain ⟨q, _, rfl⟩ := List.mem_map.mp hd
    simp
  simp [Table.passedFor, Table.after, List.filter_append, h, Function.comp_def]

theorem passedFor_elsewhere (tb : Table) (c : Tcp.Conn) (r : Served) {id : Tcp.ReqId}
    (h : id ≠ c.id) : (tb.after c r).passedFor id = tb.passedFor id := by
  have h0 : (r.passed.map fun q => (⟨c.id, tb.serial c.handle, q⟩ : Delivery)).filter
      (fun d => d.conn = id) = [] := by
    rw [List.filter_eq_nil_iff]
    intro d hd
    obtain ⟨q, _, rfl⟩ := List.mem_map.mp hd
    simpa using Ne.symm h
  simp [Table.passedFor, Table.after, List.filter_append, h0]

theorem reqs_after (tb : Table) (c : Tcp.Conn) (r : Served) :
    ((tb.after c r).reqs c.handle).map Prod.snd = r.entry := by
  simp only [Table.after, Function.update_self, Option.map_map, Function.comp_def]
  exact Option.map_id'

theorem callHandler_processData (tb : Table) (id : Tcp.ReqId) (rq : Tcp.Request) :
    Tcp.callHandler (processData pf) on tb id rq =
      (process pf on ((tb.reqs rq.handle).map Prod.snd) rq.readBuffer).map fun r =>
        ⟨{ rq with
            readBuffer := r.inp
            writeBuffer := rq.writeBuffer.insert r.out
            curState := stateAfter rq.curState r.result },
          tb.after ⟨id, rq.handle⟩ r, [.wrote id r.out rq.writeBuffer.good], r.result.isNone⟩ := by
  simp only [Tcp.callHandler, processData, Option.map_map]
  rfl

theorem connectionRead_processData (tb : Table) (id : Tcp.ReqId) (rq : Tcp.Request) {bs : Bytes}
    (hbs : bs ≠ []) :
    Tcp.connectionRead (handlers pf) on tb id rq (.data bs) =
      (process pf on ((tb.reqs rq.handle).map Prod.snd) (rq.readBuffer.clear.insert bs)).map fun r =>
        ⟨{ rq with
            readBuffer := if r.result = none then r.inp else Local.discard r.inp
            writeBuffer := rq.writeBuffer.clear.insert r.out
            curState := stateAfter rq.curState r.result },
          tb.after ⟨id, rq.handle⟩ r, [.received id bs on, .wrote id r.out true], r.result.isNone⟩ := by
  have he : bs.isEmpty = false := by simpa using hbs
  simp only [Tcp.connectionRead, handlers, he, Bool.false_eq_true, if_false,
    callHandler_processData, Option.map_map]
  congr 1
  funext r
  cases hr : r.result with
  | none => simp [hr, stateAfter, Tcp.Request.receive]
  | some b =>
    simp only [Function.comp_apply, hr, Option.isNone_some, Bool.false_eq_true, if_false,
      reduceCtorEq, Tcp.Request.discardRead, Tcp.Request.receive]
    rfl

theorem processConnection_processData (tb : Table) (id : Tcp.ReqId) (rq : Tcp.Request) :
    Tcp.processConnection (handlers pf) on tb id rq =
      (process pf on ((tb.reqs rq.handle).map Prod.snd) rq.readBuffer).map fun r =>
        ⟨{ rq with
            readBuffer := r.inp
            writeBuffer := rq.writeBuffer.insert r.out
            curState := stateAfter rq.curState r.result },
          tb.after ⟨id, rq.handle⟩ r, [.served id on, .wrote id r.out rq.writeBuffer.good],
          r.result.isNone⟩ := by
  simp only [Tcp.processConnection, handlers, callHandler_processData, Option.map_map]
  rfl

theorem connectionRead_view (tb : Table) (id : Tcp.ReqId) (rq : Tcp.Request) {bs : Bytes}
    (hbs : bs ≠ []) :
    (Tcp.connectionRead (handlers pf) on tb id rq (.data bs)).map
        (fun t => (view t.user id t.rq, t.threw, t.rq.curState)) =
      ((view tb id rq).read pf on bs).map fun p => (p.1, p.2.isNone, stateAfter rq.curState p.2) := by
  rw [connectionRead_processData tb id rq hbs, Local.read, Option.map_map, Option.map_map]
  congr 1
  funext r
  simp only [Function.comp_apply, view]
  rw [reqs_after tb ⟨id, rq.handle⟩ r, passedFor_after tb ⟨id, rq.handle⟩ r]

theorem processConnection_view (tb : Table) (id : Tcp.ReqId) (rq : Tcp.Request) :
    (Tcp.processConnection (handlers pf) on tb id rq).map
        (fun t => (view t.user id t.rq, t.threw, t.rq.curState)) =
      ((view tb id rq).work pf on).map fun p => (p.1, p.2.isNone, stateAfter rq.curState p.2) := by
  rw [processConnection_processData tb id rq, Local.work, Option.map_map, Option.map_map]
  congr 1
  funext r
  simp only [Function.comp_apply, view]
  rw [reqs_after tb ⟨id, rq.handle⟩ r, passedFor_after tb ⟨id, rq.handle⟩ r]

end Views

/-! ## What happens to a connection -/

/-- What `process_data` depends on: the bytes a `connection_read` delivers and a read error, the
worker's calls, and the handler's behaviour in each call. -/
inductive LocalEvent where
  | received (bs : Bytes) (on : OnRequest)
  | readError
  | served (on : OnRequest)

/-- The part of an observation that concerns connection `id`. -/
def seenAt (id : Tcp.ReqId) : Tcp.Obs OnRequest → Option LocalEvent
  | .received i bs on => if i = id then some (.received bs on) else none
  | .readError i => if i = id then some .readError else none
  | .served i on => if i = id then some (.served on) else none
  | _ => none

def trace (log : List (Tcp.Obs OnRequest)) (id : Tcp.ReqId) : List LocalEvent :=
  log.filterMap (seenAt id)

theorem trace_append (a b : List (Tcp.Obs OnRequest)) (id : Tcp.ReqId) :
    trace (a ++ b) id = trace a id ++ trace b id := List.filterMap_append

theorem trace_elsewhere {log : List (Tcp.Obs OnRequest)} {id : Tcp.ReqId}
    (h : ∀ x ∈ log, x.conn ≠ id) : trace log id = [] := by
  rw [trace, List.filterMap_eq_nil_iff]
  intro x hx
  have hne := h x hx
  cases x <;> simp_all [seenAt, Tcp.Obs.conn]

/-! ## Turns of an `http_server` -/

section Turns
variable {pf : Platform} {on : OnRequest} {tb : Table} {id : Tcp.ReqId} {rq : Tcp.Request}
  {t : Tcp.Turn Table OnRequest}

/-- What the I/O thread does to a connection: no call of `process_data`, a read error, or one call. -/
inductive HttpTurn (pf : Platform) (on : OnRequest) (tb : Table) (id : Tcp.ReqId) (rq : Tcp.Request)
    (readable : Bool) (rd : Tcp.ReadResult) (t : Tcp.Turn Table OnRequest) : Prop where
  | quiet (user : t.user = tb) (buffer : t.rq.readBuffer = rq.readBuffer) (seen : trace t.obs id = [])
  | broken (user : t.user = tb) (buffer : t.rq.readBuffer = rq.readBuffer.setBad)
      (seen : trace t.obs id = [.readError])
  | call (bs : Bytes) (r : Served) (ready : readable = true) (data : rd = .data bs) (some : bs ≠ [])
      (call : process pf on ((tb.reqs rq.handle).map Prod.snd) (rq.readBuffer.clear.insert bs) =
        .some r)
      (user : t.user = tb.after ⟨id, rq.handle⟩ r)
      (buffer : t.rq.readBuffer = if r.result = none then r.inp else Local.discard r.inp)
      (threw : t.threw = r.result.isNone) (seen : trace t.obs id = [.received bs on])

theorem connectionRead_http {rd : Tcp.ReadResult}
    (h : Tcp.connectionRead (handlers pf) on tb id rq rd = some t) :
    HttpTurn pf on tb id rq true rd t := by
  cases rd with
  | ioError =>
    simp only [Tcp.connectionRead, handlers, Option.some.injEq] at h
    rw [← h]
    exact .broken rfl rfl (by simp [trace, seenAt])
  | notReady =>
    simp only [Tcp.connectionRead, handlers, Option.some.injEq] at h
    rw [← h]
    exact .quiet rfl rfl rfl
  | data bs =>
    by_cases hbs : bs = []
    · subst hbs
      simp only [Tcp.connectionRead, handlers, List.isEmpty_nil, if_true, Option.some.injEq] at h
      rw [← h]
      exact .quiet rfl rfl rfl
    · rw [connectionRead_processData tb id rq hbs] at h
      obtain ⟨r, hr, rfl⟩ := Option.map_eq_some_iff.mp h
      exact .call bs r rfl rfl hbs hr rfl rfl rfl (by simp [trace, seenAt])

theorem ioTurn_http {w r : Bool} {wr : Tcp.WriteResult} {rd : Tcp.ReadResult}
    (h : Tcp.ioTurn (handlers pf) on tb id rq w r wr rd = some t) :
    HttpTurn pf on tb id rq r rd t := by
  obtain ⟨t₁, hw, hr⟩ := Tcp.ioTurn_cases h
  -- writing touches neither the table nor the read buffer
  obtain ⟨b, obs, rfl, hobs⟩ : ∃ b obs, t₁ = ⟨{ rq with writeBuffer := b }, tb, obs, false⟩ ∧
      trace obs id = [] := by
    obtain ⟨_, hw⟩ | ⟨_, rfl⟩ := hw
    · obtain ⟨b, obs, rfl, hobs⟩ := Tcp.connectionWrite_frame hw
      refine ⟨b, obs, rfl, ?_⟩
      rcases hobs with rfl | rfl | ⟨bs, rfl⟩ <;> rfl
    · exact ⟨rq.writeBuffer, [], rfl, rfl⟩
  obtain ⟨rfl, t₂, h₂, rfl⟩ | ⟨_, rfl⟩ := hr
  · have hseen : trace (obs ++ t₂.obs) id = trace t₂.obs id := by rw [trace_append, hobs, List.nil_append]
    cases connectionRead_http h₂ with
    | quiet user buffer seen => exact .quiet user buffer (hseen.trans seen)
    | broken user buffer seen => exact .broken user buffer (hseen.trans seen)
    | call bs x ready data some call user buffer threw seen =>
      exact .call bs x ready data some call user buffer threw (hseen.trans seen)
  · exact .quiet rfl rfl hobs

theorem processConnection_http (h : Tcp.processConnection (handlers pf) on tb id rq = some t) :
    ∃ r, process pf on ((tb.reqs rq.handle).map Prod.snd) rq.readBuffer = some r ∧
      t.user = tb.after ⟨id, rq.handle⟩ r ∧ t.rq.readBuffer = r.inp ∧ t.threw = r.result.isNone ∧
      trace t.obs id = [.served on] := by
  rw [processConnection_processData tb id rq] at h
  obtain ⟨r, hr, rfl⟩ := Option.map_eq_some_iff.mp h
  exact ⟨r, hr, rfl, rfl, rfl, by simp [trace, seenAt]⟩

end Turns

/-- Where a server with one worker and no connection gets. -/
def Sample.final (es : List (Tcp.Event OnRequest)) : Option (Tcp.State Table OnRequest) :=
  Transition.run (Tcp.step Tcp.Sample.config (handlers platform)) (Tcp.State.init _ 1 Table.empty) es

end Dcl.Http
