import Dcl.Http.ProcessData

/-! # An HTTP request on the wire

A `Message` is a request line, header lines, a blank line and a body. What `process_data` makes of
it up to the end of the header block is `Message.parsed`: the request line and the fields, in order.
`head_passes` is the run of the state machine over a whole header block, `header_pass` over one line
and `process_of_delivery` what follows the body. -/
namespace Dcl.Http
set_option autoImplicit false

/-- Lines carry no line feed; only the last line of the header block is blank. -/
structure Message where
  requestLine : Bytes
  fields : List Bytes
  blank : Bytes
  body : Bytes
  requestLine_lf : LF ∉ requestLine
  fields_lf : ∀ x ∈ fields, LF ∉ x
  fields_trim : ∀ x ∈ fields, trim x ≠ []
  blank_lf : LF ∉ blank
  blank_trim : trim blank = []

def HttpRequest.addField (pf : Platform) (r : HttpRequest) (line : Bytes) : HttpRequest :=
  { r with toHttpHeader := r.toHttpHeader.setHeader pf (trim line) }

/-- The body's size as the headers give it: none is given, or a number. -/
def HttpRequest.bodySize (r : HttpRequest) : Option ℕ :=
  if (r.getHeader contentLength).isEmpty then some 0 else fromStringSize (r.getHeader contentLength)

namespace Message

def lines (fields : List Bytes) : Bytes := fields.flatMap fun x => x ++ [LF]

def head (m : Message) : Bytes := m.requestLine ++ [LF] ++ lines m.fields ++ m.blank ++ [LF]

def bytes (m : Message) : Bytes := m.head ++ m.body

/-- The request after its header block. -/
def parsed (pf : Platform) (m : Message) : HttpRequest :=
  m.fields.foldl (HttpRequest.addField pf) (parseCommand .new m.requestLine)

def size (pf : Platform) (m : Message) : Option ℕ := (m.parsed pf).bodySize

end Message

section Head
variable {pf : Platform} {on : OnRequest}

/-! ## Lines -/

theorem command_pass {x : Bytes} (hx : LF ∉ x) (l t : Bytes) (n d : ℕ) (r : HttpRequest)
    (out : Bytes) (ps : List HttpRequest) :
    pass pf on ⟨⟨.waitCommand, n, d, r⟩, .cut l (x ++ LF :: t), out, ps⟩ =
      .inl ⟨⟨.waitHeader, n, d, parseCommand r x⟩, .cut (l ++ x ++ [LF]) t, out, ps⟩ := by
  simp only [pass, waitCommand, StringStream.tellg_cut, StringStream.getline_cut hx,
    StringStream.cut_eofbit, Bool.false_eq_true, if_false]

theorem header_pass {x : Bytes} (hx : LF ∉ x) (ht : trim x ≠ []) (l t : Bytes) (n d : ℕ)
    (r : HttpRequest) (out : Bytes) (ps : List HttpRequest) :
    pass pf on ⟨⟨.waitHeader, n, d, r⟩, .cut l (x ++ LF :: t), out, ps⟩ =
      .inl ⟨⟨.waitHeader, n, d, r.addField pf x⟩, .cut (l ++ x ++ [LF]) t, out, ps⟩ := by
  have he : (trim x).isEmpty = false := by simpa using ht
  simp only [pass, waitHeader, StringStream.tellg_cut, StringStream.getline_cut hx,
    StringStream.cut_eofbit, Bool.false_eq_true, if_false, he]
  rfl

theorem blank_pass {x : Bytes} (hx : LF ∉ x) (ht : trim x = []) (l t : Bytes) (n d : ℕ)
    (r : HttpRequest) (out : Bytes) (ps : List HttpRequest) :
    pass pf on ⟨⟨.waitHeader, n, d, r⟩, .cut l (x ++ LF :: t), out, ps⟩ =
      endOfHeaders ⟨⟨.waitHeader, n, d, r⟩, .cut (l ++ x ++ [LF]) t, out, ps⟩ := by
  simp only [pass, waitHeader, StringStream.tellg_cut, StringStream.getline_cut hx,
    StringStream.cut_eofbit, Bool.false_eq_true, if_false, ht, List.isEmpty_nil, if_true,
    HttpHeader.setHeader_nil]

theorem endOfHeaders_some {r : HttpRequest} {n : ℕ} (hn : r.bodySize = some n) (d : ℕ)
    (inp : StringStream) (out : Bytes) (ps : List HttpRequest) :
    endOfHeaders ⟨⟨.waitHeader, 0, d, r⟩, inp, out, ps⟩ =
      .inl ⟨⟨.receivingData, n, d, r⟩, inp, out, ps⟩ := by
  unfold HttpRequest.bodySize at hn
  simp only [endOfHeaders]
  split at hn
  next he =>
    rw [if_pos he, ← Option.some.inj hn]
    rfl
  next he =>
    rw [if_neg he, hn]

theorem endOfHeaders_none {r : HttpRequest} (hn : r.bodySize = none) (n d : ℕ)
    (inp : StringStream) (out : Bytes) (ps : List HttpRequest) :
    endOfHeaders ⟨⟨.waitHeader, n, d, r⟩, inp, out, ps⟩ =
      .inr (⟨⟨.waitHeader, n, d, r⟩, inp, out, ps⟩, .thrown) := by
  unfold HttpRequest.bodySize at hn
  simp only [endOfHeaders]
  split at hn
  · cases hn
  next he =>
    rw [if_neg he, hn]

/-! ## The header block -/

theorem fields_passes (fields : List Bytes) (hlf : ∀ x ∈ fields, LF ∉ x)
    (htrim : ∀ x ∈ fields, trim x ≠ []) (l t : Bytes) (n d : ℕ) (r : HttpRequest) (out : Bytes)
    (ps : List HttpRequest) :
    Loop.Passes (pass pf on) fields.length
      ⟨⟨.waitHeader, n, d, r⟩, .cut l (Message.lines fields ++ t), out, ps⟩
      ⟨⟨.waitHeader, n, d, fields.foldl (HttpRequest.addField pf) r⟩,
        .cut (l ++ Message.lines fields) t, out, ps⟩ := by
  induction fields generalizing l r with
  | nil => simp [Message.lines, Loop.Passes]
  | cons x fields ih =>
    have hsplit : Message.lines (x :: fields) ++ t = x ++ LF :: (Message.lines fields ++ t) := by
      simp [Message.lines]
    have hl : l ++ Message.lines (x :: fields) = l ++ x ++ [LF] ++ Message.lines fields := by
      simp [Message.lines]
    rw [hsplit, hl]
    refine ⟨_, header_pass (hlf x (by simp)) (htrim x (by simp)) l _ n d r out ps, ?_⟩
    exact ih (fun y hy => hlf y (by simp [hy])) (fun y hy => htrim y (by simp [hy])) _ _

theorem command_passes (m : Message) (l t : Bytes) :
    Loop.Passes (pass pf on) (1 + m.fields.length) ⟨.new, .cut l (m.head ++ t), [], []⟩
      ⟨⟨.waitHeader, 0, 0, m.parsed pf⟩,
        .cut (l ++ m.requestLine ++ [LF] ++ Message.lines m.fields) (m.blank ++ LF :: t), [], []⟩ := by
  have hsplit : m.head ++ t =
      m.requestLine ++ LF :: (Message.lines m.fields ++ (m.blank ++ LF :: t)) := by
    simp [Message.head]
  rw [hsplit]
  exact (Loop.Passes.single (command_pass m.requestLine_lf l _ 0 0 .new [] [])).trans
    (fields_passes m.fields m.fields_lf m.fields_trim _ _ 0 0 _ [] [])

/-- The whole header block, when its `Content-Length` is a number or missing. -/
theorem head_passes (m : Message) {n : ℕ} (hn : m.size pf = some n) (l t : Bytes) :
    Loop.Passes (pass pf on) (1 + m.fields.length + 1) ⟨.new, .cut l (m.head ++ t), [], []⟩
      ⟨⟨.receivingData, n, 0, m.parsed pf⟩, .cut (l ++ m.head) t, [], []⟩ := by
  refine (command_passes m l t).trans (Loop.Passes.single ?_)
  have hl : l ++ m.requestLine ++ [LF] ++ Message.lines m.fields ++ m.blank ++ [LF] = l ++ m.head := by
    simp [Message.head]
  rw [blank_pass m.blank_lf m.blank_trim, hl, endOfHeaders_some hn]

/-! ## After the body -/

/-- Passes that lead to the handler's call: the request is passed on, the stream stays, and the call
returns with nothing stored, or throws. -/
theorem process_of_delivery {entry : Option Request} {inp : StringStream} {n : ℕ} {f : Frame}
    (h : Loop.Passes (pass pf on) n ⟨entry.getD .new, inp, [], []⟩ f)
    (hs : f.rq.state = .processRequest) :
    ∃ r, process pf on entry inp = some r ∧ r.inp = f.inp ∧
      r.passed = f.passed ++ [f.rq.req] ∧
      r.result = (if on f.rq.req = none then none else some (keepAlive f.rq.req)) ∧
      r.entry = (if on f.rq.req = none ∧ entry.isSome then some f.rq else none) := by
  have hpass : pass pf on f = processRequest pf on f := by rw [pass, hs]
  cases hon : on f.rq.req with
  | none =>
    have hr : pass pf on f = .inr ({ f with passed := f.passed ++ [f.rq.req] }, .thrown) := by
      rw [hpass, processRequest, hon]
    exact ⟨_, process_of_passes h hr, rfl, rfl, rfl, by simp [Served.of]⟩
  | some resp =>
    let g : Frame := { f with
      rq := { f.rq with state := .closing }
      out := f.out ++ resp.answer pf f.rq.req
      passed := f.passed ++ [f.rq.req] }
    have hg : pass pf on f = .inl g := by rw [hpass, processRequest, hon]
    have hr : pass pf on g = .inr (g, .finished (keepAlive f.rq.req)) := rfl
    exact ⟨_, process_of_passes (h.trans (Loop.Passes.single hg)) hr, rfl, rfl, rfl, by
      simp [Served.of]⟩

end Head

/-! ## A small request -/

namespace Sample

def platform : Platform := ⟨fun _ => 0, fun _ => [], false⟩

def onRequest : OnRequest := fun _ => some .new

def message : Message where
  requestLine := ascii "PUT / 1"
  fields := [ascii "Content-Length:1"]
  blank := []
  body := ascii "x"
  requestLine_lf := by decide
  fields_lf := by decide
  fields_trim := by decide
  blank_lf := by decide
  blank_trim := rfl

end Sample

end Dcl.Http
