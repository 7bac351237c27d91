import Dcl.Http.Framing

/-! # `process_data` on a part of a request

What one call of `process_data` does when the read buffer holds only a part of a request: complete
lines (`lines_passes`), a part of a line (`process_unfinished`), nothing behind a line feed
(`process_lines`), a part of the body (`short_body`), and what the next call makes of a stream that
failed behind a line feed (`process_failed`). `progress` is the request object after some lines. -/
namespace Dcl.Http
set_option autoImplicit false

/-! ## Lines of a prefix -/

section Lines

theorem lines_append (a b : List Bytes) :
    Message.lines (a ++ b) = Message.lines a ++ Message.lines b := List.flatMap_append

theorem lines_cons (x : Bytes) (ls : List Bytes) :
    Message.lines (x :: ls) = x ++ LF :: Message.lines ls := by
  simp [Message.lines]

/-- The complete lines of a byte string and what follows the last of them. -/
def splitLines : Bytes → List Bytes × Bytes
  | [] => ([], [])
  | c :: t =>
      let r := splitLines t
      if c = LF then ([] :: r.1, r.2)
      else match r.1 with
        | [] => ([], c :: r.2)
        | x :: ls => ((c :: x) :: ls, r.2)

theorem splitLines_spec (b : Bytes) :
    b = Message.lines (splitLines b).1 ++ (splitLines b).2 ∧
      (∀ x ∈ (splitLines b).1, LF ∉ x) ∧ LF ∉ (splitLines b).2 := by
  induction b with
  | nil => simp [splitLines, Message.lines]
  | cons c t ih =>
    obtain ⟨heq, hls, hrest⟩ := ih
    simp only [splitLines]
    by_cases hc : c = LF
    · rw [if_pos hc]
      refine ⟨?_, ?_, hrest⟩
      · rw [hc, lines_cons, List.nil_append, List.cons_append, ← heq]
      · intro x hx
        obtain rfl | hx := List.mem_cons.mp hx
        · simp
        · exact hls x hx
    · rw [if_neg hc]
      have hc' : LF ≠ c := Ne.symm hc
      cases hr : (splitLines t).1 with
      | nil =>
        rw [hr] at heq
        refine ⟨?_, by simp, ?_⟩
        · simpa [Message.lines] using heq
        · simp [hc', hrest]
      | cons x ls =>
        rw [hr] at heq hls
        refine ⟨?_, ?_, hrest⟩
        · rw [lines_cons] at heq ⊢
          simpa using heq
        · intro y hy
          obtain rfl | hy := List.mem_cons.mp hy
          · simpa [hc'] using hls x (by simp)
          · exact hls y (by simp [hy])

/-- The first lines of two byte strings, one a prefix of the other. -/
theorem prefix_line {a b u v : Bytes} (ha : LF ∉ a) (hb : LF ∉ b)
    (h : a ++ LF :: u <+: b ++ LF :: v) : a = b ∧ u <+: v := by
  induction a generalizing b with
  | nil =>
    cases b with
    | nil => exact ⟨rfl, by simpa using h⟩
    | cons d b =>
      have hd : LF = d := by simpa using (List.cons_prefix_cons.mp h).1
      exact absurd (by simp [hd]) hb
  | cons c a ih =>
    cases b with
    | nil =>
      have hc : c = LF := by simpa using (List.cons_prefix_cons.mp h).1
      exact absurd (by simp [hc]) ha
    | cons d b =>
      obtain ⟨hcd, ht⟩ := List.cons_prefix_cons.mp h
      have hr := ih (fun h0 => ha (by simp [h0])) (fun h0 => hb (by simp [h0])) ht
      exact ⟨by rw [hcd, hr.1], hr.2⟩

/-- The complete lines of a prefix are among the first lines of the whole. -/
theorem prefix_lines {L ls : List Bytes} {y t : Bytes} (hL : ∀ x ∈ L, LF ∉ x)
    (hls : ∀ x ∈ ls, LF ∉ x) (h : Message.lines L ++ y <+: Message.lines ls ++ t)
    (hlen : (Message.lines L ++ y).length < (Message.lines ls).length) :
    ∃ z rest, ls = L ++ z :: rest := by
  induction L generalizing ls with
  | nil =>
    cases ls with
    | nil => simp [Message.lines] at hlen
    | cons z rest => exact ⟨z, rest, rfl⟩
  | cons a L ih =>
    cases ls with
    | nil => simp [Message.lines] at hlen
    | cons b ls =>
      rw [lines_cons, lines_cons, List.append_assoc, List.append_assoc, List.cons_append,
        List.cons_append] at h
      obtain ⟨rfl, ht⟩ := prefix_line (hL a (by simp)) (hls b (by simp)) h
      have hlen' : (Message.lines L ++ y).length < (Message.lines ls).length := by
        rw [lines_cons, lines_cons] at hlen
        simp only [List.length_append, List.length_cons] at hlen ⊢
        omega
      obtain ⟨z, rest, rfl⟩ := ih (fun x hx => hL x (by simp [hx])) (fun x hx => hls x (by simp [hx]))
        ht hlen'
      exact ⟨z, rest, rfl⟩

end Lines

/-! ## Lines of a request -/

namespace Message

theorem head_eq (m : Message) : m.head = lines (m.requestLine :: m.fields ++ [m.blank]) := by
  rw [lines_append, lines_cons, lines_cons]
  simp [head, lines]

theorem line_lf (m : Message) : ∀ y ∈ m.requestLine :: m.fields, LF ∉ y := by
  intro y hy
  obtain rfl | hy := List.mem_cons.mp hy
  · exact m.requestLine_lf
  · exact m.fields_lf y hy

/-- Of the lines of a header block only the request line may be blank. -/
theorem tail_trim (m : Message) {done rest : List Bytes}
    (h : m.requestLine :: m.fields = done ++ rest) : ∀ z ∈ done.tail, trim z ≠ [] := by
  intro z hz
  by_cases hnil : done = []
  · simp [hnil] at hz
  · refine m.fields_trim z ?_
    have htail : m.fields = done.tail ++ rest := by
      have := congrArg List.tail h
      rwa [List.tail_cons, List.tail_append_of_ne_nil hnil] at this
    rw [htail]
    exact List.mem_append_left _ hz

/-- A part of a request that is shorter than its header block consists of some of its lines and a
part of the next one. -/
theorem split_head (m : Message) {L : List Bytes} {y : Bytes} (hL : ∀ x ∈ L, LF ∉ x)
    (h : lines L ++ y <+: m.bytes) (hlen : (lines L ++ y).length < m.head.length) :
    ∃ rest, m.requestLine :: m.fields = L ++ rest := by
  rw [bytes, head_eq] at h
  rw [head_eq] at hlen
  have hlf : ∀ x ∈ m.requestLine :: m.fields ++ [m.blank], LF ∉ x := by
    intro x hx
    obtain hx | hx := List.mem_append.mp hx
    · exact m.line_lf x hx
    · rw [List.mem_singleton.mp hx]
      exact m.blank_lf
  obtain ⟨z, rest, heq⟩ := prefix_lines hL hlf h hlen
  refine ⟨(z :: rest).dropLast, ?_⟩
  have hdrop := congrArg List.dropLast heq
  rwa [List.dropLast_concat, List.dropLast_append_of_ne_nil (by simp)] at hdrop

end Message

/-! ## The state machine over complete lines -/

section Progress
variable {pf : Platform} {on : OnRequest}

def progress (pf : Platform) : List Bytes → Request
  | [] => .new
  | x :: fields => ⟨.waitHeader, 0, 0, fields.foldl (HttpRequest.addField pf) (parseCommand .new x)⟩

theorem progress_snoc {x : Bytes} {done : List Bytes} (y : Bytes) :
    progress pf (x :: done ++ [y]) =
      ⟨.waitHeader, 0, 0, (progress pf (x :: done)).req.addField pf y⟩ := by
  simp [progress]

theorem progress_content (done : List Bytes) : (progress pf done).req.content = [] := by
  cases done with
  | nil => rfl
  | cons x fields => rw [progress, fields_content, parseCommand_content]; rfl

theorem line_pass {done : List Bytes} {y : Bytes} (hy : LF ∉ y) (htrim : done ≠ [] → trim y ≠ [])
    (l t : Bytes) :
    pass pf on ⟨progress pf done, .cut l (y ++ LF :: t), [], []⟩ =
      .inl ⟨progress pf (done ++ [y]), .cut (l ++ y ++ [LF]) t, [], []⟩ := by
  cases done with
  | nil => exact command_pass hy l t 0 0 .new [] []
  | cons x done =>
    rw [progress_snoc]
    exact header_pass hy (htrim (by simp)) l t 0 0 _ [] []

theorem lines_passes (done more : List Bytes) (hlf : ∀ y ∈ more, LF ∉ y)
    (htrim : ∀ y ∈ (done ++ more).tail, trim y ≠ []) (l t : Bytes) :
    Loop.Passes (pass pf on) more.length
      ⟨progress pf done, .cut l (Message.lines more ++ t), [], []⟩
      ⟨progress pf (done ++ more), .cut (l ++ Message.lines more) t, [], []⟩ := by
  induction more generalizing done l with
  | nil => simp [Message.lines, Loop.Passes]
  | cons y more ih =>
    have hy : done ≠ [] → trim y ≠ [] := by
      intro hne
      obtain ⟨d, ds, rfl⟩ := List.exists_cons_of_ne_nil hne
      exact htrim y (by simp)
    have hsplit : Message.lines (y :: more) ++ t = y ++ LF :: (Message.lines more ++ t) := by
      rw [lines_cons, List.append_assoc, List.cons_append]
    have hl : l ++ Message.lines (y :: more) = l ++ y ++ [LF] ++ Message.lines more := by
      simp [lines_cons]
    have hdone : done ++ y :: more = done ++ [y] ++ more := by simp
    rw [hsplit, hl, hdone]
    refine ⟨_, line_pass (hlf y (by simp)) hy l _, ?_⟩
    exact ih (done ++ [y]) (fun z hz => hlf z (by simp [hz])) (by rwa [← hdone]) _

/-- The buffer ends inside a line: the call stores the object and puts the line back. -/
theorem partial_pass (done : List Bytes) {l y : Bytes} (hy : LF ∉ y) (hne : y ≠ [])
    (hl : done ≠ [] → l.length < 2 ^ 31) :
    pass pf on ⟨progress pf done, .cut l y, [], []⟩ =
      .inr (⟨progress pf done, .cut l y, [], []⟩, .waiting) := by
  have hback : (⟨l ++ y, [], true, y.isEmpty, false⟩ : StringStream).seekg l.length = .cut l y := by
    have hemp : y.isEmpty = false := by simpa using hne
    have hcut : (⟨l ++ y, [], true, y.isEmpty, false⟩ : StringStream).seekg l.length =
        (StringStream.cut (l ++ y) []).seekg l.length := by rw [hemp]; rfl
    rw [hcut]
    exact StringStream.seekg_cut (by simp)
  cases done with
  | nil =>
    simp only [pass, progress, Request.new, waitCommand, StringStream.tellg_cut,
      StringStream.getline_cut_end hy, if_true, hback]
  | cons x done =>
    simp only [pass, progress, waitHeader, StringStream.tellg_cut, StringStream.getline_cut_end hy,
      if_true, toInt32_of_lt (hl (by simp)), hback]

/-- The buffer ends behind a line feed: the stream has failed, but is not at its end. -/
theorem empty_pass (done : List Bytes) (l : Bytes) :
    pass pf on ⟨progress pf done, .cut l [], [], []⟩ =
      .inr (⟨progress pf done, ⟨l, [], false, true, false⟩, [], []⟩, .waiting) := by
  have hline : (StringStream.cut l []).getline = ([], ⟨l, [], true, true, false⟩) := by
    have := StringStream.getline_cut_end (r := []) (by simp) l
    simpa using this
  have hback : ∀ pos, (⟨l, [], true, true, false⟩ : StringStream).seekg pos =
      ⟨l, [], false, true, false⟩ := fun pos => StringStream.seekg_failed rfl pos
  cases done with
  | nil =>
    simp only [pass, progress, Request.new, waitCommand, StringStream.tellg_cut, hline, if_true, hback]
  | cons x done =>
    simp only [pass, progress, waitHeader, StringStream.tellg_cut, hline, if_true, hback]

theorem process_unfinished {entry : Option Request} {done more : List Bytes}
    (he : entry.getD .new = progress pf done) (hlf : ∀ y ∈ more, LF ∉ y)
    (htrim : ∀ y ∈ (done ++ more).tail, trim y ≠ []) {l y : Bytes} (hy : LF ∉ y) (hne : y ≠ [])
    (hl : done ++ more ≠ [] → (l ++ Message.lines more).length < 2 ^ 31) :
    process pf on entry (.cut l (Message.lines more ++ y)) =
      some ⟨some (progress pf (done ++ more)), .cut (l ++ Message.lines more) y, [], [], some true⟩ := by
  have h := @lines_passes pf on done more hlf htrim l y
  rw [← he] at h
  exact process_of_passes h (partial_pass (done ++ more) hy hne hl)

theorem process_lines {entry : Option Request} {done more : List Bytes}
    (he : entry.getD .new = progress pf done) (hlf : ∀ y ∈ more, LF ∉ y)
    (htrim : ∀ y ∈ (done ++ more).tail, trim y ≠ []) (l : Bytes) :
    process pf on entry (.cut l (Message.lines more)) =
      some ⟨some (progress pf (done ++ more)), ⟨l ++ Message.lines more, [], false, true, false⟩, [], [],
        some true⟩ := by
  have h := @lines_passes pf on done more hlf htrim l []
  rw [← he, List.append_nil] at h
  exact process_of_passes h (empty_pass (done ++ more) _)

/-! ## The end of the header block and the body -/

/-- The request that the handler gets for `m`. -/
def Message.delivered (pf : Platform) (m : Message) : HttpRequest :=
  if m.body = [] then m.parsed pf
  else { m.parsed pf with
    content := (m.parsed pf).bytes ++ m.body ++ [0]
    headers := (m.parsed pf).headers.set contentLength
      (toStringInt (toInt32 ((m.parsed pf).bytes.length + m.body.length))) }

theorem delivered_bytes (m : Message) : (m.delivered pf).bytes = m.body := by
  unfold Message.delivered
  split
  next h =>
    rw [h]
    exact (congrArg List.dropLast (parsed_content m) :)
  next => exact taken_bytes m _ _

theorem head_rest_passes {m : Message} {n : ℕ} (hn : m.size pf = some n) {done more : List Bytes}
    (hsplit : m.requestLine :: m.fields = done ++ more) (l t : Bytes) :
    Loop.Passes (pass pf on) (more.length + 1)
      ⟨progress pf done, .cut l (Message.lines more ++ (m.blank ++ LF :: t)), [], []⟩
      ⟨⟨.receivingData, n, 0, m.parsed pf⟩, .cut (l ++ Message.lines more ++ m.blank ++ [LF]) t, [], []⟩ := by
  have hlf := m.line_lf
  have htrim : ∀ y ∈ (done ++ more).tail, trim y ≠ [] := by
    rw [← hsplit]
    exact m.fields_trim
  refine (lines_passes done more (fun y hy => hlf y (by simp [hsplit, hy])) htrim l _).trans
    (Loop.Passes.single ?_)
  rw [← hsplit, progress, blank_pass m.blank_lf m.blank_trim]
  exact endOfHeaders_some hn 0 _ [] []

theorem body_passes {m : Message} (hlt : m.body.length < 2 ^ 31) (l : Bytes) :
    Loop.Passes (pass pf on) 1
      ⟨⟨.receivingData, m.body.length, 0, m.parsed pf⟩, .cut l m.body, [], []⟩
      ⟨⟨.processRequest, m.body.length, m.body.length, m.delivered pf⟩, .cut (l ++ m.body) [], [], []⟩ := by
  refine Loop.Passes.single ?_
  by_cases hb : m.body = []
  · rw [Message.delivered, if_pos hb, hb]
    simp only [List.append_nil, List.length_nil]
    rfl
  · have hab : toInt32 (toSize (m.body ++ []).length) = m.body.length := by
      rw [List.append_nil, toSize_of_lt (by omega), toInt32_of_lt hlt]
    have h := @receive_pass pf on m.body.length 0 (m.parsed pf) l m.body [] [] []
      (List.length_pos_iff.mpr hb) hb hab (by omega)
    rw [List.append_nil, Nat.zero_add, if_pos le_rfl] at h
    rw [h, Message.delivered, if_neg hb]

/-- Nothing more is in the buffer, and the body is not complete: the position `-1` makes the count of
the bytes received wrap around. -/
theorem wrapped_pass {n d : ℕ} {q : HttpRequest} {l : Bytes} (hn : 0 < n)
    (hwrap : n ≤ toSize ((d : ℤ) + -1 - l.length)) :
    ∃ f, pass pf on ⟨⟨.receivingData, n, d, q⟩, .cut l [], [], []⟩ = .inl f ∧
      f.rq.state = .processRequest ∧ f.rq.req = q ∧ f.passed = [] := by
  have hstep := receivingData_cut (f := ⟨⟨.receivingData, n, d, q⟩, .cut l [], [], []⟩) rfl hn
    (addStream_none q.toHttpHeader (l := l) rfl) (StringStream.tellg_not_good rfl)
  refine ⟨_, hstep, ?_, rfl, rfl⟩
  simp only [if_pos hwrap]

/-- The buffer holds some bytes of a body, or of what is taken for one: the handler is called, whether
they are enough or not. -/
theorem some_body {n : ℕ} {q : HttpRequest} (hq : q.content = []) {l t : Bytes} (ht : t ≠ [])
    (htlt : t.length < 2 ^ 31) (hl : l.length < 2 ^ 31) (hn : 0 < n) (hlt : n + l.length < 2 ^ 64) :
    ∃ k f, Loop.Passes (pass pf on) k ⟨⟨.receivingData, n, 0, q⟩, .cut l t, [], []⟩ f ∧
      f.rq.state = .processRequest ∧ f.rq.req.bytes = t ∧ f.passed = [] := by
  have hab : toInt32 (toSize (t ++ []).length) = t.length := by
    rw [List.append_nil, toSize_of_lt (by omega), toInt32_of_lt htlt]
  have h := @receive_pass pf on n 0 q l t [] [] [] hn ht hab (by omega)
  rw [List.append_nil] at h
  have hbytes : ∀ v, ({ q with
      content := q.toHttpHeader.bytes ++ t ++ [0]
      headers := q.headers.set contentLength v } : HttpRequest).bytes = t := by
    intro v
    simp [HttpHeader.bytes, hq]
  by_cases hle : n ≤ 0 + t.length
  · rw [if_pos hle] at h
    exact ⟨1, _, Loop.Passes.single h, rfl, hbytes _, rfl⟩
  · rw [if_neg hle] at h
    have hwrap : n ≤ toSize (((0 + t.length : ℕ) : ℤ) + -1 - (l ++ t).length) := by
      rw [List.length_append]
      unfold toSize
      omega
    obtain ⟨f, hf, hs, hr, hp⟩ := @wrapped_pass pf on n (0 + t.length) _ (l ++ t) hn hwrap
    exact ⟨2, f, (Loop.Passes.single h).trans (Loop.Passes.single hf), hs, hr ▸ hbytes _, hp⟩

/-- The buffer ends before the body is complete: the handler is called all the same. -/
theorem short_body {m : Message} {t l : Bytes} (ht : t.length < m.body.length)
    (hsmall : l.length + m.body.length < 2 ^ 31) :
    ∃ k f, Loop.Passes (pass pf on) k
      ⟨⟨.receivingData, m.body.length, 0, m.parsed pf⟩, .cut l t, [], []⟩ f ∧
      f.rq.state = .processRequest ∧ f.passed = [] := by
  by_cases hz : t = []
  · have hwrap : m.body.length ≤ toSize (((0 : ℕ) : ℤ) + -1 - l.length) := by
      unfold toSize
      omega
    obtain ⟨f, hf, hs, _, hp⟩ := @wrapped_pass pf on m.body.length 0 (m.parsed pf) l (by omega) hwrap
    rw [hz]
    exact ⟨1, f, Loop.Passes.single hf, hs, hp⟩
  · obtain ⟨k, f, hk, hs, _, hp⟩ := @some_body pf on m.body.length (m.parsed pf) (parsed_content m) l t
      hz (by omega) (by omega) (by omega) (by omega)
    exact ⟨k, f, hk, hs, hp⟩

/-- A call on a failed stream that is not at its end, behind some lines of a header block: the block
is taken to be complete. -/
theorem failed_passes {x : Bytes} {done : List Bytes} {n : ℕ}
    (hn : (progress pf (x :: done)).req.bodySize = some n) (l : Bytes) :
    Loop.Passes (pass pf on) 1 ⟨progress pf (x :: done), ⟨l, [], false, true, false⟩, [], []⟩
      ⟨⟨.receivingData, n, 0, (progress pf (x :: done)).req⟩, ⟨l, [], false, true, false⟩, [], []⟩ := by
  refine Loop.Passes.single ?_
  have h := endOfHeaders_some hn 0 ⟨l, [], false, true, false⟩ [] []
  exact h

theorem bodySize_lt {r : HttpRequest} {n : ℕ} (h : r.bodySize = some n) : n < 2 ^ 64 := by
  unfold HttpRequest.bodySize at h
  split at h
  · cases h
    omega
  · exact fromStringSize_lt h

/-- Waiting for a body on a failed stream: nothing is received, and the stream is marked. -/
theorem failed_receive {n : ℕ} (hn : 0 < n) (q : HttpRequest) (l : Bytes) :
    pass pf on ⟨⟨.receivingData, n, 0, q⟩, ⟨l, [], false, true, false⟩, [], []⟩ =
      .inl ⟨⟨.receivingData, n, 0, q⟩, ⟨l, [], true, true, false⟩, [], []⟩ := by
  have hstate : (if n ≤ 0 then States.processRequest else .receivingData) = .receivingData :=
    if_neg (by omega)
  have h : pass pf on ⟨⟨.receivingData, n, 0, q⟩, ⟨l, [], false, true, false⟩, [], []⟩ =
      if 0 < n then .inl ⟨⟨if n ≤ 0 then .processRequest else .receivingData, n, 0, q⟩,
        ⟨l, [], true, true, false⟩, [], []⟩ else .inl ⟨⟨.processRequest, n, 0, q⟩,
        ⟨l, [], false, true, false⟩, [], []⟩ := rfl
  rw [h, if_pos hn, hstate]

/-- The second call behind a chunk that ends in a line feed. -/
theorem process_failed (on : HttpRequest → HttpResponse) {x : Bytes} {done : List Bytes} (l : Bytes) :
    ∃ r, process pf (fun q => some (on q)) (some (progress pf (x :: done)))
        ⟨l, [], false, true, false⟩ = some r ∧
      (r.passed ≠ [] ∨ r.passed = [] ∧ r.result = none ∨
        r.passed = [] ∧ r.result = some true ∧ ∃ n, 0 < n ∧ n < 2 ^ 64 ∧
          r.entry = some ⟨.receivingData, n, 0, (progress pf (x :: done)).req⟩ ∧
          r.inp.taken = l ∧ r.inp.rest = []) := by
  cases hsize : (progress pf (x :: done)).req.bodySize with
  | none =>
    have h := endOfHeaders_none hsize 0 0 ⟨l, [], false, true, false⟩ [] []
    exact ⟨_, @process_of_passes pf _ (some _) _ 0 _ _ rfl h, .inr (.inl ⟨rfl, rfl⟩)⟩
  | some n =>
    have hpasses := @failed_passes pf (fun q => some (on q)) x done n hsize l
    by_cases hn : n = 0
    · subst hn
      obtain ⟨r, hr, _, hp, _⟩ := @process_of_delivery pf _ (some (progress pf (x :: done))) _ _ _
        (hpasses.trans (Loop.Passes.single rfl)) rfl
      exact ⟨r, hr, .inl (by rw [hp]; simp)⟩
    · have hrecv := @failed_receive pf (fun q => some (on q)) n (by omega) (progress pf (x :: done)).req l
      have hwait : pass pf (fun q => some (on q))
          ⟨⟨.receivingData, n, 0, (progress pf (x :: done)).req⟩, ⟨l, [], true, true, false⟩, [], []⟩ =
          .inr (⟨⟨.receivingData, n, 0, (progress pf (x :: done)).req⟩, ⟨l, [], true, true, false⟩, [],
            []⟩, .waiting) := by
        have hpos : 0 < n := by omega
        simp [pass, receivingData, hpos]
      refine ⟨_, @process_of_passes pf _ (some _) _ _ _ _
        (hpasses.trans (Loop.Passes.single hrecv)) hwait, .inr (.inr ⟨rfl, rfl, n, by omega, ?_, rfl, rfl,
          rfl⟩)⟩
      exact bodySize_lt hsize

end Progress

end Dcl.Http
