import Dcl.Http.Message

/-! # Where a body ends

`process_data` takes the body with `add_content(istream&)`, which takes everything the read buffer
holds: the `Content-Length` of the request only decides when to stop taking. `framed_iff` is the
exact set of bodies and following bytes for which the request passed to the handler has the announced
body and the following bytes stay unread. -/
namespace Dcl.Http
set_option autoImplicit false

section Framing
variable {pf : Platform} {on : OnRequest}

/-! ## The header block stores no content -/

theorem setHeader_content (h : HttpHeader) (x : Bytes) : (h.setHeader pf x).content = h.content := by
  unfold HttpHeader.setHeader
  split
  · unfold HttpHeader.setField
    split
    · rfl
    split
    · rfl
    · rfl
  · rfl

theorem parseCommand_content (r : HttpRequest) (x : Bytes) :
    (parseCommand r x).content = r.content := by
  have hm : (cutMethod r x).1.content = r.content := by
    unfold cutMethod
    split <;> rfl
  have hv : ∀ q y, (cutVersion q y).1.content = q.content := by
    intro q y
    unfold cutVersion
    split <;> rfl
  exact (hv _ _).trans hm

theorem fields_content (fields : List Bytes) (r : HttpRequest) :
    (fields.foldl (HttpRequest.addField pf) r).content = r.content := by
  induction fields generalizing r with
  | nil => rfl
  | cons x fields ih =>
    rw [List.foldl_cons, ih]
    exact setHeader_content _ _

theorem parsed_content (m : Message) : (m.parsed pf).content = [] := by
  rw [Message.parsed, fields_content, parseCommand_content]
  rfl

/-! ## Passes that end badly -/

/-- The stream is marked after a pass that found nothing to take, and stays so. -/
theorem marked_end {entry : Option Request} {inp : StringStream} {n : ℕ} {f : Frame}
    (h : Loop.Passes (pass pf on) n ⟨entry.getD .new, inp, [], []⟩ f) (hg : f.inp.good = false)
    (hs : f.rq.state = .processRequest ∨
      f.rq.state = .receivingData ∧ 0 < f.rq.dataSize ∧ f.inp.eofbit = true) :
    ∃ r, process pf on entry inp = some r ∧ r.inp.good = false := by
  obtain hs | ⟨hs, hsize, he⟩ := hs
  · obtain ⟨r, hr, hinp, _⟩ := process_of_delivery h hs
    exact ⟨r, hr, by rw [hinp, hg]⟩
  · have hr : pass pf on f = .inr (f, .waiting) := by simp [pass, hs, receivingData, hsize, he]
    exact ⟨_, process_of_passes h hr, hg⟩

/-- A body that is not complete, and a buffer whose size is not positive as an `int`. -/
theorem receive_ends_badly {entry : Option Request} {inp : StringStream} {k n d : ℕ}
    {q : HttpRequest} {l r out : Bytes} {ps : List HttpRequest}
    (h : Loop.Passes (pass pf on) k ⟨entry.getD .new, inp, [], []⟩
      ⟨⟨.receivingData, n, d, q⟩, .cut l r, out, ps⟩) (hd : d < n) (hbound : d < 2 ^ 64)
    (hsize : toInt32 (toSize r.length) ≤ 0) :
    ∀ x, process pf on entry inp = some x → x.inp.good = false := by
  intro x hx
  by_cases hz : toSize r.length = 0
  · have hstep := receivingData_cut (f := ⟨⟨.receivingData, n, d, q⟩, .cut l r, out, ps⟩) rfl
      (by simp only; omega) (addStream_none q.toHttpHeader (l := l) hz) (StringStream.tellg_not_good rfl)
    obtain ⟨y, hy, hbad⟩ := marked_end (h.trans (Loop.Passes.single hstep)) rfl (by
      simp only
      by_cases hc : n ≤ toSize (d + -1 - l.length)
      · exact .inl (if_pos hc)
      · exact .inr ⟨if_neg hc, by omega, rfl⟩)
    rw [hx, Option.some.injEq] at hy
    rwa [hy]
  · rw [process_of_stuck h ⟨rfl, rfl, ?_, hz, hsize⟩] at hx
    · cases hx
    · simpa [toSize_of_lt hbound] using hd

/-! ## Which bodies are framed -/

/-- `process_data` on a connection without a pending request, whose read buffer holds `m` and then
`R`: the request passed to the handler has the body of `m`, and `R` is the unread rest of a buffer
from which the next request of the connection will be read. -/
def Framed (pf : Platform) (on : OnRequest) (m : Message) (l R : Bytes) : Prop :=
  ∃ r q, process pf on none (.cut l (m.bytes ++ R)) = some r ∧ r.passed = [q] ∧
    q.toHttpHeader.bytes = m.body ∧ r.inp.good = true ∧ r.inp.rest = R ∧ r.entry = none

/-- Passes that lead to the handler's call frame the body if it was read right. -/
theorem framed_of_passes {m : Message} {l R : Bytes} {n : ℕ} {f : Frame}
    (h : Loop.Passes (pass pf on) n ⟨.new, .cut l (m.bytes ++ R), [], []⟩ f)
    (hs : f.rq.state = .processRequest) (hb : f.rq.req.toHttpHeader.bytes = m.body)
    (hp : f.passed = []) {l' : Bytes} (hinp : f.inp = .cut l' R) : Framed pf on m l R := by
  obtain ⟨r, hr, hrinp, hpassed, _, hentry⟩ := @process_of_delivery pf on none _ _ _ h hs
  rw [hp, List.nil_append] at hpassed
  rw [hinp] at hrinp
  exact ⟨r, f.rq.req, hr, hpassed, hb, by rw [hrinp]; rfl, by rw [hrinp]; rfl, by simp [hentry]⟩

theorem taken_bytes (m : Message) (v a : Bytes) :
    ({ (m.parsed pf).toHttpHeader with
        content := (m.parsed pf).bytes ++ a ++ [0]
        headers := (m.parsed pf).headers.set contentLength v } : HttpHeader).bytes = a := by
  simp [HttpHeader.bytes, parsed_content]

theorem size_of_decimal {m : Message} {n : ℕ}
    (hcl : Decimal ((m.parsed pf).getHeader contentLength) n) :
    m.size pf = if 2 ^ 64 ≤ n then none else some n := by
  have hne : ((m.parsed pf).getHeader contentLength).isEmpty = false := by simpa using hcl.1
  rw [Message.size, HttpRequest.bodySize, hne, fromStringSize_decimal hcl]
  rfl

theorem framed_empty {m : Message} (hsize : m.size pf = some 0) (hbody : m.body = [])
    (l R : Bytes) : Framed pf on m l R := by
  have hhead := @head_passes pf on m 0 hsize l R
  have hbytes : m.bytes = m.head := by rw [Message.bytes, hbody, List.append_nil]
  rw [← hbytes] at hhead
  refine framed_of_passes (hhead.trans (Loop.Passes.single rfl)) rfl ?_ rfl rfl
  rw [hbody]
  exact (congrArg List.dropLast (parsed_content m) :)

theorem readed_eq (d : ℕ) (l a : Bytes) (h : d + a.length < 2 ^ 64) :
    toSize (d + ((l ++ a).length : ℤ) - l.length) = d + a.length := by
  have hz : (d : ℤ) + ((l ++ a).length : ℤ) - l.length = ((d + a.length : ℕ) : ℤ) := by
    rw [List.length_append]
    omega
  rw [hz, toSize_of_lt h]

/-- One pass over a buffer that begins with `a`, of which exactly `a` is taken. -/
theorem receive_pass {n d : ℕ} {q : HttpRequest} {l a b out : Bytes} {ps : List HttpRequest}
    (hn : 0 < n) (ha : a ≠ []) (hab : toInt32 (toSize (a ++ b).length) = a.length)
    (hd : d + a.length < 2 ^ 64) :
    pass pf on ⟨⟨.receivingData, n, d, q⟩, .cut l (a ++ b), out, ps⟩ =
      .inl ⟨⟨if n ≤ d + a.length then .processRequest else .receivingData, n, d + a.length,
        { q with
          content := q.toHttpHeader.bytes ++ a ++ [0]
          headers := q.headers.set contentLength
            (toStringInt (toInt32 (q.toHttpHeader.bytes.length + a.length))) }⟩,
        .cut (l ++ a) b, out, ps⟩ := by
  have h := receivingData_cut (f := ⟨⟨.receivingData, n, d, q⟩, .cut l (a ++ b), out, ps⟩) rfl hn
    (addStream_some q.toHttpHeader (l := l) ha hab) (StringStream.tellg_cut (l ++ a) b)
  simp only [readed_eq d l a hd] at h
  exact h

theorem framed_taken {m : Message} (hsize : m.size pf = some m.body.length) (hbody : m.body ≠ [])
    (hlt : m.body.length < 2 ^ 31) (l : Bytes) {R : Bytes} (hR : R.length % 2 ^ 32 = 0) :
    Framed pf on m l R := by
  have hpos : 0 < m.body.length := List.length_pos_iff.mpr hbody
  have hab : toInt32 (toSize (m.body ++ R).length) = m.body.length := by
    rw [List.length_append]
    unfold toInt32 toSize
    rw [Int.bmod_def]
    omega
  have hhead := @head_passes pf on m _ hsize l (m.body ++ R)
  rw [← List.append_assoc] at hhead
  have hrecv := @receive_pass pf on m.body.length 0 (m.parsed pf) (l ++ m.head) m.body R [] [] hpos
    hbody hab (by omega)
  refine framed_of_passes (hhead.trans (Loop.Passes.single hrecv)) ?_ (taken_bytes m _ _) rfl rfl
  simp

/-- A non-empty body that is framed has a size that is an `int`, and what follows it does not show in
the buffer's size as an `int`. -/
theorem framed_only {m : Message} {n : ℕ} (hsize : m.size pf = some n) (hlen : m.body.length = n)
    (hpos : 0 < n) (hn : n < 2 ^ 64) {l R : Bytes} (h : Framed pf on m l R) :
    n < 2 ^ 31 ∧ R.length % 2 ^ 32 = 0 := by
  obtain ⟨r, q, hproc, hpassed, hbytes, hgood, hrest, _⟩ := h
  have hhead := @head_passes pf on m n hsize l (m.body ++ R)
  rw [← List.append_assoc] at hhead
  by_cases hneg : toInt32 (toSize (m.body ++ R).length) ≤ 0
  · have := @receive_ends_badly pf on none _ _ _ _ _ _ _ _ _ hhead hpos (by omega) hneg r hproc
    simp [this] at hgood
  · obtain ⟨a, b, hsplit, ha, hab⟩ := split_positive (r := m.body ++ R) (by omega)
    have hk : (a.length : ℤ) < 2 ^ 31 := hab ▸ toInt32_lt _
    have htotal : m.body.length + R.length = a.length + b.length := by
      rw [← List.length_append, hsplit, List.length_append]
    rw [hsplit] at hhead
    have hrecv := @receive_pass pf on n 0 (m.parsed pf) (l ++ m.head) a b [] [] hpos ha hab (by omega)
    have hpasses := hhead.trans (Loop.Passes.single hrecv)
    by_cases hle : n ≤ 0 + a.length
    · -- the handler gets all of `a`
      rw [if_pos hle] at hpasses
      obtain ⟨x, hx, _, hxp, _⟩ := @process_of_delivery pf on none _ _ _ hpasses rfl
      obtain rfl : r = x := Option.some.inj (hproc.symm.trans hx)
      rw [hpassed, List.nil_append, List.cons.injEq] at hxp
      have ha' : a = m.body := by
        rw [← hbytes, hxp.1]
        exact (taken_bytes m _ _).symm
      have hn' : a.length = n := by rw [ha', hlen]
      have htotal' : (a ++ b).length = n + R.length := by
        rw [List.length_append]
        omega
      rw [htotal', hn'] at hab
      unfold toInt32 toSize at hab
      rw [Int.bmod_def] at hab
      omega
    · -- the rest of the body is never taken
      rw [if_neg hle] at hpasses
      have hneg' : toInt32 (toSize b.length) ≤ 0 := by
        rw [List.length_append] at hab
        unfold toInt32 toSize at *
        rw [Int.bmod_def] at *
        omega
      have := @receive_ends_badly pf on none _ _ _ _ _ _ _ _ _ hpasses (by omega) (by omega) hneg' r hproc
      simp [this] at hgood

/-- A `Content-Length` that is not a `size_t`: the call throws before the body. -/
theorem head_throws {m : Message} (hsize : m.size pf = none) (l t R : Bytes) :
    process pf on none (.cut l (m.head ++ t ++ R)) =
      some ⟨none, .cut (l ++ m.head) (t ++ R), [], [], none⟩ := by
  have hpasses := @command_passes pf on m l (t ++ R)
  rw [← List.append_assoc] at hpasses
  have hl : l ++ m.requestLine ++ [LF] ++ Message.lines m.fields ++ m.blank ++ [LF] = l ++ m.head := by
    simp [Message.head]
  refine @process_of_passes pf on none _ _ _
    (⟨⟨.waitHeader, 0, 0, m.parsed pf⟩, .cut (l ++ m.head) (t ++ R), [], []⟩, .thrown) hpasses ?_
  rw [blank_pass m.blank_lf m.blank_trim, hl, endOfHeaders_none hsize]

/-- For every request with a decimal `Content-Length` and every `R` that follows its body in the
read buffer, the body is framed exactly when it is empty, or its size is an `int` and the size of
`R` is a multiple of 2 ^ 32. -/
theorem framed_iff (pf : Platform) (on : OnRequest) (m : Message) (l R : Bytes)
    (hcl : Decimal ((m.parsed pf).getHeader contentLength) m.body.length) :
    Framed pf on m l R ↔
      m.body.length = 0 ∨ m.body.length < 2 ^ 31 ∧ R.length % 2 ^ 32 = 0 := by
  have hsize := size_of_decimal hcl
  by_cases hbig : 2 ^ 64 ≤ m.body.length
  · rw [if_pos hbig] at hsize
    refine ⟨fun h => ?_, fun h => by omega⟩
    obtain ⟨r, q, hproc, hpassed, _⟩ := h
    rw [Message.bytes, head_throws hsize l m.body R, Option.some.injEq] at hproc
    rw [← hproc] at hpassed
    cases hpassed
  rw [if_neg hbig] at hsize
  by_cases hz : m.body.length = 0
  · exact ⟨fun _ => .inl hz, fun _ =>
      framed_empty (hsize.trans (congrArg some hz)) (List.length_eq_zero_iff.mp hz) l R⟩
  · constructor
    · exact fun h => .inr (framed_only hsize rfl (by omega) (by omega) h)
    · rintro (h | h)
      · exact absurd h hz
      · exact framed_taken hsize (fun h0 => hz (by simp [h0])) h.1 l h.2

end Framing

theorem Sample.message_decimal :
    Decimal ((Sample.message.parsed Sample.platform).getHeader contentLength)
      Sample.message.body.length :=
  ⟨by decide +kernel, by decide +kernel, by decide +kernel⟩

theorem framed_alone : Framed Sample.platform Sample.onRequest Sample.message [] [] :=
  (framed_iff Sample.platform Sample.onRequest Sample.message [] [] Sample.message_decimal).mpr
    (.inr ⟨by decide, rfl⟩)

/-- A byte that follows the body in the buffer is taken for a part of it. -/
theorem next_request_taken :
    Decimal ((Sample.message.parsed Sample.platform).getHeader contentLength)
      Sample.message.body.length ∧
    ¬ Framed Sample.platform Sample.onRequest Sample.message [] (ascii "G") := by
  refine ⟨Sample.message_decimal, ?_⟩
  rintro ⟨r, q, hproc, _, _, _, hrest, _⟩
  have h : (process Sample.platform Sample.onRequest none
      (.cut [] (Sample.message.bytes ++ ascii "G"))).map (fun r => r.inp.rest) = some [] := by
    decide +kernel
  rw [hproc, Option.map_some, hrest] at h
  cases h

end Dcl.Http
