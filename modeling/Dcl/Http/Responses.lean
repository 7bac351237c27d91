import Dcl.Http.Delivery
import Dcl.Http.Isolation
import Dcl.Tcp.Buffers

/-! # What a connection is sent

`Local.exchanges` are the requests that a connection on its own passes to the handler, each with the
handler's answer. In the server, where the connections share the request table, the threads and the
handler, the bytes that a connection was sent and those that still wait in its write buffer are the
answers of these exchanges, in their order. -/
namespace Dcl.Http
set_option autoImplicit false

/-! ## Exchanges -/

/-- A request that was passed to the handler and what the handler answered. -/
structure Exchange where
  req : HttpRequest
  resp : Option HttpResponse

/-- What is written for an exchange; nothing when the handler threw. -/
def Exchange.bytes (pf : Platform) (x : Exchange) : Bytes :=
  (x.resp.map (HttpResponse.answer pf x.req)).getD []

def Served.exchanges (on : OnRequest) (r : Served) : List Exchange := r.passed.map fun q => ⟨q, on q⟩

/-- The exchanges of one event at a connection that is alone. -/
def Local.exchange (pf : Platform) (l : Local) : LocalEvent → List Exchange
  | .received bs on =>
      ((process pf on l.entry (l.buffer.clear.insert bs)).map (Served.exchanges on)).getD []
  | .readError => []
  | .served on => ((process pf on l.entry l.buffer).map (Served.exchanges on)).getD []

def Local.exchanges (pf : Platform) : Local → List LocalEvent → List Exchange
  | _, [] => []
  | l, e :: es => l.exchange pf e ++ ((l.step pf e).map fun m => Local.exchanges pf m es).getD []

section Calls
variable {pf : Platform} {on : OnRequest}

/-- What a call has written are the answers of the requests it has passed on. -/
def Frame.Answered (pf : Platform) (on : OnRequest) (f : Frame) : Prop :=
  f.out = (f.passed.map fun q => (⟨q, on q⟩ : Exchange)).flatMap (Exchange.bytes pf)

theorem pass_out {f : Frame} (hs : f.rq.state ≠ .processRequest) :
    (Sum.elim id Prod.fst (pass pf on f)).out = f.out := by
  unfold pass
  cases hf : f.rq.state with
  | waitCommand =>
    simp only [waitCommand]
    split <;> rfl
  | waitHeader =>
    simp only [waitHeader]
    split
    · rfl
    · split
      · simp only [endOfHeaders]
        split
        · rfl
        · split <;> rfl
      · rfl
  | receivingData =>
    simp only [receivingData]
    split
    · split <;> rfl
    · rfl
  | processRequest => exact absurd hf hs
  | closing => rfl

/-- Every pass keeps it, also the last one. -/
theorem answered_pass {f : Frame} (hf : f.Answered pf on) :
    (Sum.elim id Prod.fst (pass pf on f)).Answered pf on := by
  by_cases hs : f.rq.state = .processRequest
  · rw [Frame.Answered] at hf
    simp only [pass, hs, processRequest]
    cases hon : on f.rq.req with
    | none => simp [Frame.Answered, hf, Exchange.bytes, hon]
    | some resp => simp [Frame.Answered, hf, Exchange.bytes, hon]
  · rw [Frame.Answered, pass_out hs, pass_passed hs]
    exact hf

theorem process_out {entry : Option Request} {inp : StringStream} {r : Served}
    (h : process pf on entry inp = some r) : r.out = (r.exchanges on).flatMap (Exchange.bytes pf) := by
  obtain ⟨⟨g, x⟩, hloop, rfl⟩ := Option.map_eq_some_iff.mp h
  have hkeep (f g : Frame) (hf : f.Answered pf on) (h : pass pf on f = .inl g) : g.Answered pf on := by
    have hg := answered_pass hf
    rwa [h] at hg
  obtain ⟨f, hf, hpass⟩ := Loop.loop_invariant hkeep hloop rfl
  have hg := answered_pass hf
  rw [hpass] at hg
  cases x <;> exact hg

end Calls

section Runs
variable {pf : Platform}

theorem exchanges_append {l m : Local} {es : List LocalEvent}
    (h : Transition.run (Local.step pf) l es = some m) (es' : List LocalEvent) :
    l.exchanges pf (es ++ es') = l.exchanges pf es ++ m.exchanges pf es' := by
  induction es generalizing l with
  | nil =>
    obtain rfl : l = m := Option.some.inj h
    rfl
  | cons e es ih =>
    obtain ⟨l', hl', hrun⟩ := Option.bind_eq_some_iff.mp h
    simp only [List.cons_append, Local.exchanges, hl', Option.map_some, Option.getD_some, ih hrun,
      List.append_assoc]

/-- The requests of the exchanges are those that were passed to the handler. -/
theorem exchange_passed {l m : Local} {e : LocalEvent} (h : l.step pf e = some m) :
    m.passed = l.passed ++ (l.exchange pf e).map Exchange.req := by
  cases e with
  | received bs on =>
    simp only [Local.step, Local.read, Option.map_map, Option.map_eq_some_iff] at h
    obtain ⟨r, hr, rfl⟩ := h
    simp [Local.exchange, hr, Served.exchanges, Function.comp_def]
  | readError =>
    cases h
    simp [Local.exchange]
  | served on =>
    simp only [Local.step, Local.work, Option.map_map, Option.map_eq_some_iff] at h
    obtain ⟨r, hr, rfl⟩ := h
    simp [Local.exchange, hr, Served.exchanges, Function.comp_def]

theorem exchanges_passed {l m : Local} {es : List LocalEvent}
    (h : Transition.run (Local.step pf) l es = some m) :
    m.passed = l.passed ++ (l.exchanges pf es).map Exchange.req := by
  induction es generalizing l with
  | nil =>
    obtain rfl : l = m := Option.some.inj h
    simp [Local.exchanges]
  | cons e es ih =>
    obtain ⟨l', hl', hrun⟩ := Option.bind_eq_some_iff.mp h
    rw [ih hrun, exchange_passed hl']
    simp [Local.exchanges, hl']

end Runs

/-! ## Turns -/

section Turns
variable {pf : Platform} {on : OnRequest} {tb : Table} {id : Tcp.ReqId} {rq : Tcp.Request}
  {t : Tcp.Turn Table OnRequest}

/-- What a turn writes to its connection is what the connection would be answered alone. -/
def AnsweredTurn (pf : Platform) (tb : Table) (id : Tcp.ReqId) (rq : Tcp.Request)
    (t : Tcp.Turn Table OnRequest) : Prop :=
  Tcp.written t.obs id =
    ((view tb id rq).exchanges pf (trace t.obs id)).flatMap (Exchange.bytes pf)

theorem exchanges_single (l : Local) (e : LocalEvent) :
    l.exchanges pf [e] = l.exchange pf e := by
  rw [Local.exchanges]
  cases l.step pf e with
  | none => exact List.append_nil _
  | some m => exact List.append_nil _

theorem connectionRead_answered {rd : Tcp.ReadResult}
    (h : Tcp.connectionRead (handlers pf) on tb id rq rd = some t) : AnsweredTurn pf tb id rq t := by
  cases rd with
  | ioError =>
    simp only [Tcp.connectionRead, handlers, Option.some.injEq] at h
    rw [← h, AnsweredTurn]
    have hseen : trace [(.readError id : Tcp.Obs OnRequest)] id = [.readError] := by
      simp [trace, seenAt]
    rw [hseen, exchanges_single]
    rfl
  | notReady =>
    simp only [Tcp.connectionRead, handlers, Option.some.injEq] at h
    rw [← h]
    rfl
  | data bs =>
    by_cases hbs : bs = []
    · subst hbs
      simp only [Tcp.connectionRead, handlers, List.isEmpty_nil, if_true, Option.some.injEq] at h
      rw [← h]
      rfl
    · rw [connectionRead_processData tb id rq hbs] at h
      obtain ⟨r, hr, rfl⟩ := Option.map_eq_some_iff.mp h
      have hseen : trace [.received id bs on, .wrote id r.out true] id = [.received bs on] := by
        simp [trace, seenAt]
      rw [AnsweredTurn, hseen, exchanges_single]
      simp [Tcp.written, Tcp.Obs.written, Local.exchange, view, hr, process_out hr]

theorem processConnection_answered
    (h : Tcp.processConnection (handlers pf) on tb id rq = some t) : AnsweredTurn pf tb id rq t := by
  rw [processConnection_processData tb id rq] at h
  obtain ⟨r, hr, rfl⟩ := Option.map_eq_some_iff.mp h
  have hseen : trace [.served id on, .wrote id r.out rq.writeBuffer.good] id = [.served on] := by
    simp [trace, seenAt]
  rw [AnsweredTurn, hseen, exchanges_single]
  simp [Tcp.written, Tcp.Obs.written, Local.exchange, view, hr, process_out hr]

theorem written_append (a b : List (Tcp.Obs OnRequest)) (id : Tcp.ReqId) :
    Tcp.written (a ++ b) id = Tcp.written a id ++ Tcp.written b id := List.flatMap_append

theorem written_elsewhere {log : List (Tcp.Obs OnRequest)} {id : Tcp.ReqId}
    (h : ∀ x ∈ log, x.conn ≠ id) : Tcp.written log id = [] := by
  refine Tcp.flatMap_elsewhere (fun x hx => ?_) h
  cases x with
  | wrote i bs taken => exact if_neg hx
  | _ => rfl

theorem ioTurn_answered {w r : Bool} {wr : Tcp.WriteResult} {rd : Tcp.ReadResult}
    (h : Tcp.ioTurn (handlers pf) on tb id rq w r wr rd = some t) : AnsweredTurn pf tb id rq t := by
  obtain ⟨t₁, hw, hr⟩ := Tcp.ioTurn_cases h
  -- `connection_write` calls no handler and leaves the table and the read buffer
  obtain ⟨b, obs, rfl, hseen, hwrote⟩ : ∃ b obs, t₁ = ⟨{ rq with writeBuffer := b }, tb, obs, false⟩ ∧
      trace obs id = [] ∧ Tcp.written obs id = [] := by
    obtain ⟨_, hw⟩ | ⟨_, rfl⟩ := hw
    · obtain ⟨b, obs, rfl, hobs⟩ := Tcp.connectionWrite_frame hw
      refine ⟨b, obs, rfl, ?_⟩
      rcases hobs with rfl | rfl | ⟨bs, rfl⟩ <;> exact ⟨rfl, rfl⟩
    · exact ⟨rq.writeBuffer, [], rfl, rfl, rfl⟩
  obtain ⟨_, t₂, h₂, rfl⟩ | ⟨_, rfl⟩ := hr
  · have hread := connectionRead_answered h₂
    rw [AnsweredTurn] at hread ⊢
    rw [written_append, trace_append, hseen, hwrote]
    exact hread
  · rw [AnsweredTurn]
    change Tcp.written obs id = ((view tb id rq).exchanges pf (trace obs id)).flatMap _
    rw [hseen, hwrote]
    rfl

end Turns

/-! ## The server -/

section Server
variable {pf : Platform} {cfg : Tcp.Config}

/-- The handler wrote to every connection what the connection would have been answered alone. -/
structure Responded (pf : Platform) (s : Tcp.State Table OnRequest) : Prop where
  isolated : Isolated pf s
  written : ∀ id, Tcp.written s.log id =
    (Local.start.exchanges pf (trace s.log id)).flatMap (Exchange.bytes pf)

theorem Responded.turn {s s' : Tcp.State Table OnRequest} (hs : Responded pf s) {id : Tcp.ReqId}
    {rq : Tcp.Request} {t : Tcp.Turn Table OnRequest} (hrq : s.heap id = some rq)
    (ht : AnsweredTurn pf s.user id rq t) (hrep : t.Reports id) (hlog : s'.log = s.log ++ t.obs)
    (j : Tcp.ReqId) : Tcp.written s'.log j =
      (Local.start.exchanges pf (trace s'.log j)).flatMap (Exchange.bytes pf) := by
  rw [hlog, written_append, trace_append, hs.written j]
  obtain ⟨l, hsolo, _, hview⟩ := hs.isolated.alone j
  rw [exchanges_append hsolo, List.flatMap_append]
  congr 1
  by_cases hj : j = id
  · subst hj
    rw [hview rq hrq]
    exact ht
  · have hne : ∀ x ∈ t.obs, x.conn ≠ j := fun x hx heq => hj (by rw [← heq, (hrep x hx).1])
    rw [written_elsewhere hne, trace_elsewhere hne]
    rfl

theorem responded_step (s : Tcp.State Table OnRequest) (e : Tcp.Event OnRequest)
    (s' : Tcp.State Table OnRequest) (hs : Responded pf s) (hfresh : fresh s e)
    (h : Tcp.step cfg (handlers pf) s e = some s') : Responded pf s' := by
  refine ⟨isolated_step s e s' hs.isolated hfresh h, fun j => ?_⟩
  cases Tcp.step_effect h with
  | move data => rw [data.log, hs.written j]
  | accept fd o t event _ turn data =>
    -- no handler is assigned to `on_connect`
    obtain rfl : ⟨.new fd, s.user, [], false⟩ = t := Option.some.inj turn
    have hlog : s'.log = s.log := by simpa using data.log
    rw [hlog, hs.written j]
  | dispatch _ _ _ id rq _ _ _ t _ _ _ object turn data =>
    exact hs.turn object (ioTurn_answered turn) (Tcp.ioTurn_reports turn) data.log j
  | serve _ id rq _ t _ _ object turn data =>
    exact hs.turn object (processConnection_answered turn) (Tcp.processConnection_reports turn)
      data.log j
  | disconnect _ _ _ id rq _ _ _ object _ _ data =>
    rw [data.log, trace_disconnected, written_append, hs.written j]
    exact List.append_nil _
  | disconnectThrows id rq _ _ _ _ data =>
    rw [data.log, trace_disconnected, written_append, hs.written j]
    exact List.append_nil _

theorem responded_init (n : ℕ) : Responded pf (Tcp.State.init OnRequest n Table.empty) :=
  ⟨isolated_init n, fun _ => rfl⟩

end Server

namespace Sample
open Tcp.Sample (acceptRound readRound writeRound)

/-- A request arrives, and the socket accepts 20 bytes of its answer. -/
def partly : List (Tcp.Event OnRequest) :=
  acceptRound 5 onRequest ++ readRound 5 (.data (ascii "P /x 1\n\n")) onRequest ++
    writeRound 5 (.wrote 20) onRequest

/-- How many bytes of the answer were accepted and how many wait. -/
def amounts (s : Tcp.State Table OnRequest) : ℕ × Option ℕ :=
  ((Tcp.sent s.log 0).length, (s.heap 0).map fun rq => rq.writeBuffer.rest.length)

theorem amounts_partly : (final partly).map amounts = some (20, some 32) := by decide +kernel

end Sample

end Dcl.Http
