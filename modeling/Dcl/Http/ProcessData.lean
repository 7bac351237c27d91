import Dcl.Foundations.Loop
import Dcl.Http.Content
import Dcl.Tcp.Connection

/-! # `http_server::process_data`

The state machine of `src/dcl/http_server.cpp` that reads one HTTP request from the read buffer of a
connection and passes it to the request handler. `pass` is one pass of its `while` loop, `process`
the whole loop for one connection and `processData` the handler that `http_server` assigns to its
`tcp_server`: it finds the request object of the descriptor in `reqs` and stores or removes it.

The request handler is an argument of each call; it answers with a response or with `none` for a
`dbp::exception`. A server without a request handler, whose `process_data` returns at once, is left
out. -/
namespace Dcl.Http
set_option autoImplicit false

/-! ## The request object -/

inductive States where
  | waitCommand
  | waitHeader
  | receivingData
  | processRequest
  | closing
  deriving DecidableEq, Repr

/-- `http_server::request`; the sizes are of type `size_t`. -/
structure Request where
  state : States
  dataSize : ℕ
  dataReaded : ℕ
  req : HttpRequest
  deriving DecidableEq

def Request.new : Request := ⟨.waitCommand, 0, 0, .new⟩

abbrev OnRequest := HttpRequest → Option HttpResponse

/-! ## One pass of the loop -/

/-- The variables of the loop: the request object, the input stream, what was written to the output
stream and the requests passed to the handler. -/
structure Frame where
  rq : Request
  inp : StringStream
  out : Bytes
  passed : List HttpRequest
  deriving DecidableEq

/-- How the loop is left. `waiting`: the object was stored in `reqs`; `finished`: it was deleted and
removed; `thrown`: an exception, which leaves `reqs` as it was. -/
inductive Exit where
  | waiting
  | finished (keepAlive : Bool)
  | thrown
  deriving DecidableEq

def Frame.goto (f : Frame) (state : States) : Frame := { f with rq := { f.rq with state := state } }

/-- Cut out the method name. -/
def cutMethod (r : HttpRequest) (buf : Bytes) : HttpRequest × Bytes :=
  match findFirstOf buf [32] 0 with
  | some pos => ({ r with method := some (.ofText (trim (buf.take (pos + 1)))) }, buf.drop (pos + 1))
  | none => (r, buf)

/-- Cut out the protocol version. -/
def cutVersion (r : HttpRequest) (buf : Bytes) : HttpRequest × Bytes :=
  match findLastOf buf [32] with
  | some pos => ({ r with httpVersion := trim (buf.drop (pos + 1)) }, buf.take pos)
  | none => (r, buf)

def parseCommand (r : HttpRequest) (buf : Bytes) : HttpRequest :=
  let p := cutMethod r buf
  let q := cutVersion p.1 p.2
  { q.1 with pathInfo := q.2 }

def HttpResponse.answer (pf : Platform) (r : HttpRequest) (resp : HttpResponse) : Bytes :=
  r.httpVersion ++ ascii " " ++ resp.getStatus ++ [LF] ++ resp.output pf

def keepAlive (r : HttpRequest) : Bool := r.getHeader (ascii "Connection") == ascii "keep-alive"

section Pass
variable (pf : Platform) (on : OnRequest)

def waitCommand (f : Frame) : Frame ⊕ Frame × Exit :=
  let pos := f.inp.tellg
  let line := pos.2.getline
  if line.2.eofbit then .inr ({ f with inp := line.2.seekg pos.1 }, .waiting)
  else .inl { f with
    inp := line.2
    rq := { f.rq with req := parseCommand f.rq.req line.1, state := .waitHeader } }

/-- The end of the header block: the body's size, or `type_conversion_exception`. -/
def endOfHeaders (f : Frame) : Frame ⊕ Frame × Exit :=
  let text := f.rq.req.getHeader contentLength
  if text.isEmpty then .inl (f.goto .receivingData)
  else match fromStringSize text with
    | some n => .inl { f with rq := { f.rq with dataSize := n, state := .receivingData } }
    | none => .inr (f, .thrown)

/-- The position is kept in an `int` here. -/
def waitHeader (f : Frame) : Frame ⊕ Frame × Exit :=
  let pos := f.inp.tellg
  let line := pos.2.getline
  if line.2.eofbit then .inr ({ f with inp := line.2.seekg (toInt32 pos.1) }, .waiting)
  else
    let header := f.rq.req.toHttpHeader.setHeader pf (trim line.1)
    let f := { f with
      inp := line.2
      rq := { f.rq with req := { f.rq.req with toHttpHeader := header } } }
    if (trim line.1).isEmpty then endOfHeaders f else .inl f

def receivingData (f : Frame) : Frame ⊕ Frame × Exit :=
  if 0 < f.rq.dataSize then
    if f.inp.eofbit then .inr (f, .waiting)
    else
      let pos := f.inp.tellg
      let added := f.rq.req.toHttpHeader.addStream pos.2
      let last := added.2.tellg
      let readed := toSize (f.rq.dataReaded + last.1 - pos.1)
      .inl { f with
        inp := last.2
        rq := { f.rq with
          req := { f.rq.req with toHttpHeader := added.1 }
          dataReaded := readed
          state := if f.rq.dataSize ≤ readed then .processRequest else .receivingData } }
  else .inl (f.goto .processRequest)

def processRequest (f : Frame) : Frame ⊕ Frame × Exit :=
  match on f.rq.req with
  | none => .inr ({ f with passed := f.passed ++ [f.rq.req] }, .thrown)
  | some resp => .inl { f with
      rq := { f.rq with state := .closing }
      out := f.out ++ resp.answer pf f.rq.req
      passed := f.passed ++ [f.rq.req] }

def pass (f : Frame) : Frame ⊕ Frame × Exit :=
  match f.rq.state with
  | .waitCommand => waitCommand f
  | .waitHeader => waitHeader pf f
  | .receivingData => receivingData f
  | .processRequest => processRequest pf on f
  | .closing => .inr (f, .finished (keepAlive f.rq.req))

/-! ## The whole call -/

/-- What a call leaves: the object stored for the connection, the buffers, the requests it passed to
the handler and its result (`none` for an exception). -/
structure Served where
  entry : Option Request
  inp : StringStream
  out : Bytes
  passed : List HttpRequest
  result : Option Bool
  deriving DecidableEq

/-- `stored`: an object was found in `reqs`. An exception leaves that object there, as it is now. -/
def Served.of (stored : Bool) (r : Frame × Exit) : Served :=
  match r.2 with
  | .waiting => ⟨some r.1.rq, r.1.inp, r.1.out, r.1.passed, some true⟩
  | .finished keepAlive => ⟨none, r.1.inp, r.1.out, r.1.passed, some keepAlive⟩
  | .thrown => ⟨if stored then some r.1.rq else none, r.1.inp, r.1.out, r.1.passed, none⟩

/-- More passes than a call on this input makes, unless it never returns. -/
def enough (inp : StringStream) : ℕ := inp.rest.length + 7

/-- `process_data` for one connection, given the object found for it; `none`: it does not return. -/
def process (entry : Option Request) (inp : StringStream) : Option Served :=
  (Loop.loop (pass pf on) (enough inp) ⟨entry.getD .new, inp, [], []⟩).map (Served.of entry.isSome)

/-! ## Receiving a body -/

/-- What one pass receives from a good stream: `size` is the stream's unread size as the `int` that
`add_content` takes. -/
theorem receivingData_cut {f : Frame} {l r : Bytes} (hinp : f.inp = .cut l r)
    (hsize : 0 < f.rq.dataSize) {added : HttpHeader} {inp : StringStream} {pos : ℤ}
    (hadd : f.rq.req.toHttpHeader.addStream (.cut l r) = (added, inp))
    {last : StringStream} (hlast : inp.tellg = (pos, last)) :
    receivingData f = .inl { f with
      inp := last
      rq := { f.rq with
        req := { f.rq.req with toHttpHeader := added }
        dataReaded := toSize (f.rq.dataReaded + pos - l.length)
        state := if f.rq.dataSize ≤ toSize (f.rq.dataReaded + pos - l.length) then .processRequest
          else .receivingData } } := by
  simp only [receivingData, if_pos hsize, hinp, StringStream.tellg_cut, hadd, hlast]
  rfl

/-- Nothing is left in the stream: it is marked, and the position after it is `-1`. -/
theorem addStream_none (h : HttpHeader) {l r : Bytes} (hr : toSize r.length = 0) :
    h.addStream (.cut l r) = (h, (StringStream.cut l r).setEof) := by
  rw [HttpHeader.addStream_good h _ rfl, StringStream.cut_rest, if_pos hr]

/-- A size that is not positive as an `int`: nothing is taken, and `Content-Length` becomes `0`. -/
theorem addStream_negative (h : HttpHeader) {l r : Bytes} (hr : toSize r.length ≠ 0)
    (hsize : toInt32 (toSize r.length) ≤ 0) :
    h.addStream (.cut l r) =
      ({ h with
          content := if h.content.isEmpty then [0] else h.content
          headers := h.headers.set contentLength (ascii "0") }, .cut l r) := by
  rw [HttpHeader.addStream_good h _ rfl, StringStream.cut_rest, if_neg hr, HttpHeader.addContent,
    if_neg (by omega)]

/-- The part of the buffer that `add_content` takes when its size is positive as an `int`. -/
theorem split_positive {r : Bytes} (h : 0 < toInt32 (toSize r.length)) :
    ∃ a b, r = a ++ b ∧ a ≠ [] ∧ toInt32 (toSize (a ++ b).length) = a.length := by
  have hle := toInt32_toSize_le h
  obtain ⟨k, hk⟩ := Int.eq_ofNat_of_zero_le h.le
  have hlen : (r.take k).length = k := by
    rw [List.length_take]
    omega
  refine ⟨r.take k, r.drop k, (List.take_append_drop k r).symm, ?_, ?_⟩
  · refine List.ne_nil_of_length_pos ?_
    omega
  · rw [List.take_append_drop, hlen]
    exact hk

theorem addStream_some (h : HttpHeader) {l a b : Bytes} (ha : a ≠ [])
    (hsize : toInt32 (toSize (a ++ b).length) = a.length) :
    h.addStream (.cut l (a ++ b)) =
      ({ h with
          content := h.bytes ++ a ++ [0]
          headers := h.headers.set contentLength (toStringInt (toInt32 (h.bytes.length + a.length))) },
        .cut (l ++ a) b) := by
  have hpos : 0 < a.length := List.length_pos_iff.mpr ha
  have hr : toSize (a ++ b).length ≠ 0 := by
    intro h0
    rw [h0] at hsize
    have : toInt32 ((0 : ℕ) : ℤ) = 0 := rfl
    omega
  rw [HttpHeader.addStream_good h _ rfl, StringStream.cut_rest, if_neg hr, hsize,
    HttpHeader.addContent_pos h a.length hpos _ rfl (by simp)]
  simp [StringStream.cut]

/-! ## The budget -/

def Frame.left (f : Frame) : ℕ :=
  match f.rq.state with
  | .waitCommand => f.inp.rest.length + 6
  | .waitHeader => f.inp.rest.length + 5
  | .receivingData => if f.inp.eofbit then 2 else f.inp.rest.length + 3
  | .processRequest => 1
  | .closing => 0

/-- The body has to be received, and what is in the buffer has a size that is not positive as an
`int`: `add_content` takes nothing and the loop goes round for ever. -/
structure Frame.Stuck (f : Frame) : Prop where
  state : f.rq.state = .receivingData
  good : f.inp.good = true
  short : toSize f.rq.dataReaded < f.rq.dataSize
  some : toSize f.inp.rest.length ≠ 0
  size : toInt32 (toSize f.inp.rest.length) ≤ 0

theorem stuck_pass (f : Frame) (h : f.Stuck) : ∃ g, pass pf on f = .inl g ∧ g.Stuck := by
  obtain ⟨hstate, hg, hshort, hsome, hsize⟩ := h
  obtain ⟨l, r, hinp⟩ : ∃ l r, f.inp = .cut l r := ⟨_, _, StringStream.eq_cut hg⟩
  rw [hinp, StringStream.cut_rest] at hsome hsize
  have hreaded : toSize (f.rq.dataReaded + (l.length : ℤ) - l.length) = toSize f.rq.dataReaded := by
    congr 1
    omega
  have hpass : pass pf on f = receivingData f := by rw [pass, hstate]
  rw [hpass, receivingData_cut hinp (by omega) (addStream_negative _ hsome hsize)
    (StringStream.tellg_cut l r), hreaded, if_neg (by omega)]
  exact ⟨_, rfl, rfl, rfl, by rwa [toSize_toSize], hsome, hsize⟩

theorem waitCommand_left {f g : Frame} (h : waitCommand f = .inl g) :
    g.left < f.inp.rest.length + 6 := by
  unfold waitCommand at h
  simp only at h
  split at h
  · cases h
  next he =>
    cases h
    have hle := StringStream.getline_rest_le f.inp.tellg.2 (by simpa using he)
    rw [StringStream.tellg_rest] at hle
    simp only [Frame.left]
    omega

theorem endOfHeaders_left {f g : Frame} (h : endOfHeaders f = .inl g) :
    g.left ≤ f.inp.rest.length + 3 := by
  have hleft : ∀ rq : Request, rq.state = .receivingData → ({ f with rq := rq } : Frame).left ≤
      f.inp.rest.length + 3 := by
    intro rq hrq
    simp only [Frame.left, hrq]
    split <;> omega
  unfold endOfHeaders at h
  simp only at h
  split at h
  · cases h
    exact hleft _ rfl
  · split at h
    · cases h
      exact hleft _ rfl
    · cases h

theorem waitHeader_left {f g : Frame} (hf : f.rq.state = .waitHeader)
    (h : waitHeader pf f = .inl g) : g.left < f.inp.rest.length + 5 := by
  unfold waitHeader at h
  simp only at h
  split at h
  · cases h
  next he =>
    have he : f.inp.tellg.2.getline.2.eofbit = false := by simpa using he
    split at h
    · have hleft := endOfHeaders_left h
      have hle := StringStream.getline_rest_le f.inp.tellg.2 he
      rw [StringStream.tellg_rest] at hle
      simp only at hleft
      omega
    next hline =>
      cases h
      -- the line is not blank, so it was read
      have hlt := (StringStream.getline_rest f.inp.tellg.2 he).resolve_left
        (fun h0 => hline (by rw [h0]; rfl))
      rw [StringStream.tellg_rest] at hlt
      simp only [Frame.left, hf]
      omega

theorem left_received {f : Frame} {c : Prop} [Decidable c]
    (h : f.rq.state = if c then .processRequest else .receivingData) :
    f.left ≤ if f.inp.eofbit then 2 else f.inp.rest.length + 3 := by
  by_cases hc : c
  · simp only [Frame.left, h, if_pos hc]
    split <;> omega
  · simp only [Frame.left, h, if_neg hc, le_refl]

/-- A stream that failed before: nothing is received, and the stream is marked. -/
theorem addStream_failed (h : HttpHeader) {s : StringStream} (hs : s.failbit = true) :
    (h.addStream s).2.eofbit = true := by
  have hg : ∀ t : StringStream, t.failbit = true → t.good = false := by
    intro t ht
    simp [StringStream.good, ht]
  have hend : s.setFail.seekgEnd = { s.setFail with eofbit := false } :=
    StringStream.seekg_failed rfl _
  have hz : toSize (-1 - -1) = 0 := rfl
  simp only [HttpHeader.addStream, StringStream.tellg_not_good (hg s hs), hend,
    StringStream.tellg_not_good (hg { s.setFail with eofbit := false } rfl), hz, if_true]
  rfl

theorem receivingData_left {f g : Frame} (hf : f.rq.state = .receivingData)
    (h : receivingData f = .inl g) : f.Stuck ∨ g.left < f.left := by
  by_cases hsize : 0 < f.rq.dataSize
  swap
  · rw [receivingData, if_neg hsize] at h
    cases h
    right
    simp only [Frame.left, Frame.goto, hf]
    split <;> omega
  cases he : f.inp.eofbit with
  | true => simp [receivingData, hsize, he] at h
  | false =>
    have hleft : f.left = f.inp.rest.length + 3 := by simp [Frame.left, hf, he]
    rw [hleft]
    cases hg : f.inp.good with
    | false =>
      right
      have hmark := addStream_failed f.rq.req.toHttpHeader (s := f.inp.setFail) rfl
      simp only [receivingData, if_pos hsize, he, Bool.false_eq_true, if_false,
        StringStream.tellg_not_good hg] at h
      have hle := left_received (f := g) (by rw [← Sum.inl.inj h])
      have hinp : g.inp.eofbit = true := by
        rw [← Sum.inl.inj h, StringStream.tellg_eofbit]
        exact hmark
      rw [hinp, if_pos rfl] at hle
      omega
    | true =>
      obtain ⟨l, r, hinp⟩ : ∃ l r, f.inp = .cut l r := ⟨_, _, StringStream.eq_cut hg⟩
      rw [hinp, StringStream.cut_rest]
      by_cases hsome : toSize r.length = 0
      · right
        rw [receivingData_cut hinp hsize (addStream_none _ hsome)
          (StringStream.tellg_not_good rfl)] at h
        have hle := left_received (f := g) (by rw [← Sum.inl.inj h])
        have hinp' : g.inp.eofbit = true := by
          rw [← Sum.inl.inj h]
          rfl
        rw [hinp', if_pos rfl] at hle
        omega
      · by_cases hneg : toInt32 (toSize r.length) ≤ 0
        · rw [receivingData_cut hinp hsize (addStream_negative _ hsome hneg)
            (StringStream.tellg_cut l r)] at h
          by_cases hshort : f.rq.dataSize ≤ toSize (f.rq.dataReaded + (l.length : ℤ) - l.length)
          · right
            rw [if_pos hshort] at h
            cases h
            simp only [Frame.left]
            omega
          · left
            rw [Int.add_sub_cancel] at hshort
            exact ⟨hf, hg, by omega, by rwa [hinp], by rwa [hinp]⟩
        · right
          -- some of the stream is taken
          obtain ⟨a, b, rfl, ha, hab⟩ := split_positive (r := r) (by omega)
          rw [receivingData_cut hinp hsize (addStream_some _ ha hab)
            (StringStream.tellg_cut (l ++ a) b)] at h
          have hle := left_received (f := g) (by rw [← Sum.inl.inj h])
          have hinp' : g.inp = .cut (l ++ a) b := by rw [← Sum.inl.inj h]
          have hpos : 0 < a.length := List.length_pos_iff.mpr ha
          rw [hinp', StringStream.cut_rest, StringStream.cut_eofbit, if_neg Bool.false_ne_true] at hle
          rw [List.length_append]
          omega

theorem pass_left (f g : Frame) (h : pass pf on f = .inl g) : f.Stuck ∨ g.left < f.left := by
  unfold pass at h
  cases hs : f.rq.state with
  | waitCommand =>
    simp only [hs] at h
    have := waitCommand_left h
    exact .inr (by simpa [Frame.left, hs] using this)
  | waitHeader =>
    simp only [hs] at h
    have := waitHeader_left pf hs h
    exact .inr (by simpa [Frame.left, hs] using this)
  | receivingData =>
    simp only [hs] at h
    exact receivingData_left hs h
  | processRequest =>
    simp only [hs, processRequest] at h
    split at h
    · cases h
    · cases h
      exact .inr (by simp [Frame.left, hs])
  | closing => simp only [hs, reduceCtorEq] at h

theorem left_lt_enough (entry : Option Request) (inp : StringStream) :
    (⟨entry.getD .new, inp, [], []⟩ : Frame).left < enough inp := by
  unfold enough Frame.left
  simp only
  split
  · omega
  · omega
  · split <;> omega
  · omega
  · omega

/-- A call that does not return within its budget never returns. -/
theorem process_none {entry : Option Request} {inp : StringStream}
    (h : process pf on entry inp = none) (n : ℕ) :
    Loop.loop (pass pf on) n ⟨entry.getD .new, inp, [], []⟩ = none :=
  Loop.loop_adequate (stuck_pass pf on) (pass_left pf on) (left_lt_enough entry inp)
    (Option.map_eq_none_iff.mp h) n

variable {pf on}

theorem process_of_passes {entry : Option Request} {inp : StringStream} {n : ℕ} {f : Frame}
    {r : Frame × Exit} (h : Loop.Passes (pass pf on) n ⟨entry.getD .new, inp, [], []⟩ f)
    (hr : pass pf on f = .inr r) : process pf on entry inp = some (.of entry.isSome r) := by
  have hloop := h.loop hr (Nat.lt_succ_self n)
  cases hp : process pf on entry inp with
  | none => rw [process_none pf on hp] at hloop; cases hloop
  | some x =>
    obtain ⟨r', hr', rfl⟩ := Option.map_eq_some_iff.mp hp
    rw [Loop.loop_unique hloop hr']

theorem process_of_stuck {entry : Option Request} {inp : StringStream} {n : ℕ} {f : Frame}
    (h : Loop.Passes (pass pf on) n ⟨entry.getD .new, inp, [], []⟩ f) (hf : f.Stuck) :
    process pf on entry inp = none := by
  rw [process, h.diverges (stuck_pass pf on) hf]
  rfl

end Pass

/-! ## The handler of `tcp_server` -/

/-- A request passed to the handler: the connection and the number of the request object. -/
structure Delivery where
  conn : Tcp.ReqId
  serial : ℕ
  req : HttpRequest
  deriving DecidableEq

/-- `reqs`, with the number of each object in order of creation, and what was passed to the request
handler so far. -/
structure Table where
  reqs : Tcp.Fd → Option (ℕ × Request)
  made : ℕ
  passed : List Delivery

def Table.empty : Table := ⟨fun _ => none, 0, []⟩

def Table.serial (tb : Table) (fd : Tcp.Fd) : ℕ := ((tb.reqs fd).map Prod.fst).getD tb.made

/-- The table after a call on connection `c` that left `r`. -/
def Table.after (tb : Table) (c : Tcp.Conn) (r : Served) : Table where
  reqs := Function.update tb.reqs c.handle (r.entry.map fun q => (tb.serial c.handle, q))
  made := if (tb.reqs c.handle).isSome then tb.made else tb.made + 1
  passed := tb.passed ++ r.passed.map fun q => ⟨c.id, tb.serial c.handle, q⟩

def processData (pf : Platform) : Tcp.Handler Table OnRequest := fun on tb c inp =>
  (process pf on ((tb.reqs c.handle).map Prod.snd) inp).map fun r =>
    (⟨r.inp, r.out, r.result⟩, tb.after c r)

def handlers (pf : Platform) : Tcp.Handlers Table OnRequest := ⟨none, some (processData pf)⟩

end Dcl.Http
