import Dcl.Foundations.StringStream

/-! # One connection of `tcp_server`

The request object of `include/dcl/tcp_server.h` and the three functions of
`src/dcl/tcp_server.cpp` that work on one connection: `connection_read`, `connection_write` and the
handler call of `working_process`.

The user's handlers are a parameter. A handler call gets the connection, its read buffer and a state
of its own, and answers with the read buffer it leaves, the bytes it inserted into the output stream
and its result; `none` for the whole call means that it does not return. What the environment
decides (which bytes arrive, how many the socket accepts, what a handler answers) is an argument.

What a thread does to one connection is a `Turn`: the object and the handler's state afterwards, what
was observed of the connection, and whether a handler threw. -/
namespace Dcl.Tcp
set_option autoImplicit false

/-- `IO_BUF_SIZE`, the most one `socket::read` delivers. -/
def ioBufSize : ℕ := 1500

abbrev Fd := ℕ

/-- The identity of a request object: its number in order of creation. -/
abbrev ReqId := ℕ

/-- A socket as a handler sees it: the object and its descriptor. -/
structure Conn where
  id : ReqId
  handle : Fd
  deriving DecidableEq, Repr

inductive ConnState where
  | waitData
  | timeOut
  | closing
  deriving DecidableEq, Repr

structure Request where
  curState : ConnState
  handle : Fd
  readBuffer : StringStream
  writeBuffer : StringStream
  deriving DecidableEq, Repr

/-- The constructor: both buffers start with eofbit set. -/
def Request.new (fd : Fd) : Request :=
  ⟨.waitData, fd, StringStream.empty.setEof, StringStream.empty.setEof⟩

/-- Results of `socket::read`; `data []` is the orderly shutdown by the peer. -/
inductive ReadResult where
  | ioError
  | notReady
  | data (bs : Bytes)
  deriving DecidableEq, Repr

inductive WriteResult where
  | ioError
  | notReady
  | wrote (n : ℕ)
  deriving DecidableEq, Repr

/-- What a handler call leaves; `result` is `none` when it threw a `dbp::exception`. -/
structure Reply where
  inp : StringStream
  out : Bytes
  result : Option Bool

/-- A handler: its input from the environment, its own state, the connection, the read buffer. -/
abbrev Handler (σ ω : Type) := ω → σ → Conn → StringStream → Option (Reply × σ)

structure Handlers (σ ω : Type) where
  onConnect : Option (Handler σ ω)
  onProcessData : Option (Handler σ ω)

/-! ## Turns -/

/-- What happens to a connection, with the handler's input where a handler was called. `wrote` is
what a handler wrote to its output stream and whether the stream took it. -/
inductive Obs (ω : Type) where
  | received (id : ReqId) (bs : Bytes) (o : ω)
  | readError (id : ReqId)
  | served (id : ReqId) (o : ω)
  | wrote (id : ReqId) (bs : Bytes) (taken : Bool)
  | sent (id : ReqId) (bs : Bytes)
  | writeError (id : ReqId)
  | disconnected (id : ReqId)

structure Turn (σ ω : Type) where
  rq : Request
  user : σ
  obs : List (Obs ω)
  threw : Bool

section Turns
variable {σ ω : Type}

/-- `connection_write`. Positions are kept in `int`s. The result is `none` where the source is
undefined (an array of negative length, sending bytes that were never read) and for a socket that
accepts more than it was given. -/
def connectionWrite (ω : Type) (u : σ) (id : ReqId) (rq : Request) (wr : WriteResult) :
    Option (Turn σ ω) :=
  if rq.writeBuffer.eofbit then some ⟨rq, u, [], false⟩
  else
    let tell := rq.writeBuffer.tellg
    let pos := toInt32 tell.1
    let last := tell.2.seekgEnd.tellg
    let size := toInt32 (toInt32 last.1 - pos)
    if size = 0 then some ⟨{ rq with writeBuffer := last.2.setEof }, u, [], false⟩
    else if size < 0 then none
    else
      let tmp := (last.2.seekg pos).read size.toNat
      let buf := tmp.2.seekg pos
      if tmp.1.length < size.toNat then none
      else match wr with
        | .ioError => some ⟨{ rq with writeBuffer := buf.setBad }, u, [.writeError id], false⟩
        | .notReady => some ⟨{ rq with writeBuffer := buf }, u, [], false⟩
        | .wrote n =>
            if size.toNat < n then none
            else
              let buf' := if n = 0 then buf
                else if size.toNat = n then buf.discard else buf.clear.seekgCur n
              some ⟨{ rq with writeBuffer := buf' }, u, [.sent id (tmp.1.take n)], false⟩

/-- Call `f` on the buffers of `rq`; a false result closes the connection. -/
def callHandler (f : Handler σ ω) (o : ω) (u : σ) (id : ReqId) (rq : Request) : Option (Turn σ ω) :=
  (f o u ⟨id, rq.handle⟩ rq.readBuffer).map fun r =>
    { rq := { rq with
        readBuffer := r.1.inp
        writeBuffer := rq.writeBuffer.insert r.1.out
        curState := if r.1.result = some false then .closing else rq.curState }
      user := r.2
      obs := [.wrote id r.1.out rq.writeBuffer.good]
      threw := r.1.result.isNone }

/-- The buffers as `connection_read` prepares them for new data. -/
def Request.receive (rq : Request) (bs : Bytes) : Request :=
  { rq with writeBuffer := rq.writeBuffer.clear, readBuffer := rq.readBuffer.clear.insert bs }

/-- Discard the read buffer when everything in it was read. C++ leaves open which of `tellg()` and `tellp()`
is called first, and on a buffer with eofbit alone it matters: `tellg` sets failbit there, so that both are
`-1` and the buffer is discarded, while a `tellp` before it (as g++ has it) gives the size and the buffer is
kept. What is kept was read, unless the handler set the bit itself, and the next `receive` clears the bits;
no result speaks of the part of a buffer that was read. -/
def Request.discardRead (rq : Request) : Request :=
  let g := rq.readBuffer.tellg
  { rq with readBuffer := if g.1 = g.2.tellp then g.2.discard else g.2 }

def connectionRead (H : Handlers σ ω) (o : ω) (u : σ) (id : ReqId) (rq : Request)
    (rd : ReadResult) : Option (Turn σ ω) :=
  match H.onProcessData with
  | none => some ⟨rq, u, [], false⟩
  | some f =>
      match rd with
      | .ioError =>
          some ⟨{ rq with readBuffer := rq.readBuffer.setBad, curState := .closing }, u,
            [.readError id], false⟩
      | .notReady => some ⟨rq, u, [], false⟩
      | .data bs =>
          if bs.isEmpty then some ⟨rq, u, [], false⟩
          else (callHandler f o u id (rq.receive bs)).map fun t =>
            { t with
              rq := if t.threw then t.rq else t.rq.discardRead
              obs := .received id bs o :: t.obs }

def processConnection (H : Handlers σ ω) (o : ω) (u : σ) (id : ReqId) (rq : Request) :
    Option (Turn σ ω) :=
  match H.onProcessData with
  | none => some ⟨rq, u, [], false⟩
  | some f => (callHandler f o u id rq).map fun t => { t with obs := .served id o :: t.obs }

/-- One pass of the dispatch loop of `io_process` on a connection: write when the socket is
writable (`w`), then read when it is readable (`r`). -/
def ioTurn (H : Handlers σ ω) (o : ω) (u : σ) (id : ReqId) (rq : Request) (w r : Bool)
    (wr : WriteResult) (rd : ReadResult) : Option (Turn σ ω) :=
  (if w then connectionWrite ω u id rq wr else some ⟨rq, u, [], false⟩).bind fun t =>
    if r then (connectionRead H o t.user id t.rq rd).map fun t' => { t' with obs := t.obs ++ t'.obs }
    else some t

/-- The `on_connect` call of `connection_accept` on a new request object; it has no result. -/
def connectTurn (H : Handlers σ ω) (o : ω) (u : σ) (id : ReqId) (fd : Fd) : Option (Turn σ ω) :=
  match H.onConnect with
  | none => some ⟨.new fd, u, [], false⟩
  | some f => (callHandler f o u id (.new fd)).map fun t =>
      { t with rq := { t.rq with curState := .waitData } }

/-! ## Inversions

What the three functions that call a handler can do; the lemmas below go through these cases. -/

section Inversions
variable {H : Handlers σ ω} {o : ω} {u : σ} {id : ReqId} {rq : Request} {t : Turn σ ω}

theorem connectionRead_cases {rd : ReadResult} (h : connectionRead H o u id rq rd = some t) :
    (∃ b c obs, t = ⟨{ rq with readBuffer := b, curState := c }, u, obs, false⟩ ∧
      (obs = [] ∨ obs = [.readError id])) ∨
    ∃ f bs t', callHandler f o u id (rq.receive bs) = some t' ∧
      t = { t' with
        rq := if t'.threw then t'.rq else t'.rq.discardRead
        obs := .received id bs o :: t'.obs } := by
  unfold connectionRead at h
  cases hf : H.onProcessData with
  | none =>
    simp only [hf, Option.some.injEq] at h
    exact .inl ⟨_, _, _, h.symm, .inl rfl⟩
  | some f =>
    cases rd with
    | ioError =>
      simp only [hf, Option.some.injEq] at h
      exact .inl ⟨_, _, _, h.symm, .inr rfl⟩
    | notReady =>
      simp only [hf, Option.some.injEq] at h
      exact .inl ⟨_, _, _, h.symm, .inl rfl⟩
    | data bs =>
      simp only [hf] at h
      split at h
      · exact .inl ⟨_, _, _, (Option.some.inj h).symm, .inl rfl⟩
      · obtain ⟨t', ht', rfl⟩ := Option.map_eq_some_iff.mp h
        exact .inr ⟨f, bs, t', ht', rfl⟩

theorem processConnection_cases (h : processConnection H o u id rq = some t) :
    (H.onProcessData = none ∧ t = ⟨rq, u, [], false⟩) ∨
    ∃ f t', H.onProcessData = some f ∧ callHandler f o u id rq = some t' ∧
      t = { t' with obs := .served id o :: t'.obs } := by
  unfold processConnection at h
  cases hf : H.onProcessData with
  | none =>
    simp only [hf, Option.some.injEq] at h
    exact .inl ⟨rfl, h.symm⟩
  | some f =>
    simp only [hf] at h
    obtain ⟨t', ht', rfl⟩ := Option.map_eq_some_iff.mp h
    exact .inr ⟨f, t', rfl, ht', rfl⟩

theorem connectTurn_cases {fd : Fd} (h : connectTurn H o u id fd = some t) :
    (H.onConnect = none ∧ t = ⟨.new fd, u, [], false⟩) ∨
    ∃ f t', H.onConnect = some f ∧ callHandler f o u id (.new fd) = some t' ∧
      t = { t' with rq := { t'.rq with curState := .waitData } } := by
  unfold connectTurn at h
  cases hf : H.onConnect with
  | none =>
    simp only [hf, Option.some.injEq] at h
    exact .inl ⟨rfl, h.symm⟩
  | some f =>
    simp only [hf] at h
    obtain ⟨t', ht', rfl⟩ := Option.map_eq_some_iff.mp h
    exact .inr ⟨f, t', rfl, ht', rfl⟩

end Inversions

/-! ## Handler calls that throw -/

/-- The call ends with a `dbp::exception`. -/
def Handler.throws (f : Handler σ ω) (o : ω) (u : σ) (c : Conn) (inp : StringStream) : Bool :=
  (f o u c inp).any fun r => r.1.result.isNone

def connectThrows (H : Handlers σ ω) (o : ω) (u : σ) (id : ReqId) (fd : Fd) : Bool :=
  H.onConnect.any fun f => f.throws o u ⟨id, fd⟩ (Request.new fd).readBuffer

def processThrows (H : Handlers σ ω) (o : ω) (u : σ) (id : ReqId) (rq : Request) : Bool :=
  H.onProcessData.any fun f => f.throws o u ⟨id, rq.handle⟩ rq.readBuffer

theorem callHandler_threw {f : Handler σ ω} {o : ω} {u : σ} {id : ReqId} {rq : Request}
    {t : Turn σ ω} (h : callHandler f o u id rq = some t) :
    t.threw = f.throws o u ⟨id, rq.handle⟩ rq.readBuffer := by
  obtain ⟨r, hr, rfl⟩ := Option.map_eq_some_iff.mp h
  rw [Handler.throws, hr]
  rfl

theorem connectTurn_threw {H : Handlers σ ω} {o : ω} {u : σ} {id : ReqId} {fd : Fd}
    {t : Turn σ ω} (h : connectTurn H o u id fd = some t) :
    t.threw = connectThrows H o u id fd := by
  obtain ⟨hf, rfl⟩ | ⟨f, t', hf, ht', rfl⟩ := connectTurn_cases h
  · rw [connectThrows, hf]
    rfl
  · rw [connectThrows, hf]
    exact (callHandler_threw ht' :)

theorem processConnection_threw {H : Handlers σ ω} {o : ω} {u : σ} {id : ReqId} {rq : Request}
    {t : Turn σ ω} (h : processConnection H o u id rq = some t) :
    t.threw = processThrows H o u id rq := by
  obtain ⟨hf, rfl⟩ | ⟨f, t', hf, ht', rfl⟩ := processConnection_cases h
  · rw [processThrows, hf]
    rfl
  · rw [processThrows, hf]
    exact (callHandler_threw ht' :)

/-! ## What a turn reports

A turn on a connection reports only about that connection, and it never ends it. -/

def Obs.conn : Obs ω → ReqId
  | .received id _ _ => id
  | .readError id => id
  | .served id _ => id
  | .wrote id _ _ => id
  | .sent id _ => id
  | .writeError id => id
  | .disconnected id => id

/-- The connection that a `disconnect_client` call ends. -/
def Obs.ended : Obs ω → Option ReqId
  | .disconnected id => some id
  | _ => none

def Turn.Reports (t : Turn σ ω) (id : ReqId) : Prop :=
  ∀ x ∈ t.obs, x.conn = id ∧ x.ended = none

/-- `connection_write` changes only the write buffer, and reports at most one thing. -/
theorem connectionWrite_frame {u : σ} {id : ReqId} {rq : Request} {wr : WriteResult}
    {t : Turn σ ω} (h : connectionWrite ω u id rq wr = some t) :
    ∃ b obs, t = ⟨{ rq with writeBuffer := b }, u, obs, false⟩ ∧
      (obs = [] ∨ obs = [.writeError id] ∨ ∃ bs, obs = [.sent id bs]) := by
  unfold connectionWrite at h
  simp only at h
  split at h
  · cases h
    exact ⟨_, _, rfl, .inl rfl⟩
  split at h
  · cases h
    exact ⟨_, _, rfl, .inl rfl⟩
  split at h
  · cases h
  split at h
  · cases h
  cases wr with
  | ioError =>
    cases h
    exact ⟨_, _, rfl, .inr (.inl rfl)⟩
  | notReady =>
    cases h
    exact ⟨_, _, rfl, .inl rfl⟩
  | wrote n =>
    simp only at h
    split at h
    · cases h
    cases h
    exact ⟨_, _, rfl, .inr (.inr ⟨_, rfl⟩)⟩

theorem connectionWrite_reports {u : σ} {id : ReqId} {rq : Request} {wr : WriteResult}
    {t : Turn σ ω} (h : connectionWrite ω u id rq wr = some t) : t.Reports id := by
  obtain ⟨b, obs, rfl, rfl | rfl | ⟨bs, rfl⟩⟩ := connectionWrite_frame h <;>
    simp [Turn.Reports, Obs.conn, Obs.ended]

theorem callHandler_reports {f : Handler σ ω} {o : ω} {u : σ} {id : ReqId} {rq : Request}
    {t : Turn σ ω} (h : callHandler f o u id rq = some t) : t.Reports id := by
  obtain ⟨r, _, rfl⟩ := Option.map_eq_some_iff.mp h
  intro x hx
  rw [List.mem_singleton.mp hx]
  exact ⟨rfl, rfl⟩

theorem Turn.Reports.cons {t t' : Turn σ ω} {id : ReqId} (h : t.Reports id) {x : Obs ω}
    (hx : x.conn = id ∧ x.ended = none) (hobs : t'.obs = x :: t.obs) : t'.Reports id := by
  rw [Turn.Reports, hobs]
  exact List.forall_mem_cons.mpr ⟨hx, h⟩

theorem connectionRead_reports {H : Handlers σ ω} {o : ω} {u : σ} {id : ReqId} {rq : Request}
    {rd : ReadResult} {t : Turn σ ω} (h : connectionRead H o u id rq rd = some t) :
    t.Reports id := by
  obtain ⟨b, c, obs, rfl, rfl | rfl⟩ | ⟨f, bs, t', ht', rfl⟩ := connectionRead_cases h
  · simp [Turn.Reports]
  · simp [Turn.Reports, Obs.conn, Obs.ended]
  · exact (callHandler_reports ht').cons ⟨rfl, rfl⟩ rfl

theorem processConnection_reports {H : Handlers σ ω} {o : ω} {u : σ} {id : ReqId} {rq : Request}
    {t : Turn σ ω} (h : processConnection H o u id rq = some t) : t.Reports id := by
  obtain ⟨_, rfl⟩ | ⟨f, t', _, ht', rfl⟩ := processConnection_cases h
  · simp [Turn.Reports]
  · exact (callHandler_reports ht').cons ⟨rfl, rfl⟩ rfl

theorem ioTurn_cases {H : Handlers σ ω} {o : ω} {u : σ} {id : ReqId} {rq : Request} {w r : Bool}
    {wr : WriteResult} {rd : ReadResult} {t : Turn σ ω}
    (h : ioTurn H o u id rq w r wr rd = some t) :
    ∃ t₁, (w = true ∧ connectionWrite ω u id rq wr = some t₁ ∨
        w = false ∧ t₁ = ⟨rq, u, [], false⟩) ∧
      (r = true ∧ (∃ t₂, connectionRead H o t₁.user id t₁.rq rd = some t₂ ∧
          t = { t₂ with obs := t₁.obs ++ t₂.obs }) ∨ r = false ∧ t = t₁) := by
  obtain ⟨t₁, h₁, h₂⟩ := Option.bind_eq_some_iff.mp h
  refine ⟨t₁, ?_, ?_⟩
  · cases w with
    | true => exact .inl ⟨rfl, h₁⟩
    | false => exact .inr ⟨rfl, (Option.some.inj h₁).symm⟩
  · cases r with
    | true =>
      obtain ⟨t₂, h₃, h₄⟩ := Option.map_eq_some_iff.mp h₂
      exact .inl ⟨rfl, t₂, h₃, h₄.symm⟩
    | false => exact .inr ⟨rfl, (Option.some.inj h₂).symm⟩

theorem ioTurn_reports {H : Handlers σ ω} {o : ω} {u : σ} {id : ReqId} {rq : Request} {w r : Bool}
    {wr : WriteResult} {rd : ReadResult} {t : Turn σ ω}
    (h : ioTurn H o u id rq w r wr rd = some t) : t.Reports id := by
  obtain ⟨t₁, hw, hr⟩ := ioTurn_cases h
  have h₁ : t₁.Reports id := by
    obtain ⟨_, hw⟩ | ⟨_, rfl⟩ := hw
    · exact connectionWrite_reports hw
    · intro x hx
      simp at hx
  obtain ⟨_, t₂, h₂, rfl⟩ | ⟨_, rfl⟩ := hr
  · exact List.forall_mem_append.mpr ⟨h₁, connectionRead_reports h₂⟩
  · exact h₁

theorem connectTurn_reports {H : Handlers σ ω} {o : ω} {u : σ} {id : ReqId} {fd : Fd}
    {t : Turn σ ω} (h : connectTurn H o u id fd = some t) : t.Reports id := by
  obtain ⟨_, rfl⟩ | ⟨f, t', _, ht', rfl⟩ := connectTurn_cases h
  · simp [Turn.Reports]
  · exact (callHandler_reports ht' :)

/-! ## The descriptor of a connection stays -/

theorem callHandler_handle {f : Handler σ ω} {o : ω} {u : σ} {id : ReqId} {rq : Request}
    {t : Turn σ ω} (h : callHandler f o u id rq = some t) : t.rq.handle = rq.handle := by
  obtain ⟨r, _, rfl⟩ := Option.map_eq_some_iff.mp h
  rfl

theorem connectionRead_handle {H : Handlers σ ω} {o : ω} {u : σ} {id : ReqId} {rq : Request}
    {rd : ReadResult} {t : Turn σ ω} (h : connectionRead H o u id rq rd = some t) :
    t.rq.handle = rq.handle := by
  obtain ⟨b, c, obs, rfl, _⟩ | ⟨f, bs, t', ht', rfl⟩ := connectionRead_cases h
  · rfl
  · have hh := callHandler_handle ht'
    cases t'.threw
    · exact hh
    · exact hh

theorem processConnection_handle {H : Handlers σ ω} {o : ω} {u : σ} {id : ReqId} {rq : Request}
    {t : Turn σ ω} (h : processConnection H o u id rq = some t) : t.rq.handle = rq.handle := by
  obtain ⟨_, rfl⟩ | ⟨f, t', _, ht', rfl⟩ := processConnection_cases h
  · rfl
  · exact (callHandler_handle ht' :)

theorem ioTurn_handle {H : Handlers σ ω} {o : ω} {u : σ} {id : ReqId} {rq : Request} {w r : Bool}
    {wr : WriteResult} {rd : ReadResult} {t : Turn σ ω}
    (h : ioTurn H o u id rq w r wr rd = some t) : t.rq.handle = rq.handle := by
  obtain ⟨t₁, hw, hr⟩ := ioTurn_cases h
  have h₁ : t₁.rq.handle = rq.handle := by
    obtain ⟨_, hw⟩ | ⟨_, rfl⟩ := hw
    · obtain ⟨b, obs, rfl, _⟩ := connectionWrite_frame hw
      rfl
    · rfl
  obtain ⟨_, t₂, h₂, rfl⟩ | ⟨_, rfl⟩ := hr
  · exact (connectionRead_handle h₂).trans h₁
  · exact h₁

theorem connectTurn_handle {H : Handlers σ ω} {o : ω} {u : σ} {id : ReqId} {fd : Fd}
    {t : Turn σ ω} (h : connectTurn H o u id fd = some t) : t.rq.handle = fd := by
  obtain ⟨_, rfl⟩ | ⟨f, t', _, ht', rfl⟩ := connectTurn_cases h
  · rfl
  · exact (callHandler_handle ht' :)

end Turns

end Dcl.Tcp
