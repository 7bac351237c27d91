import Dcl.Http.ContentCalls
import Dcl.Http.Cookies
import Dcl.Http.Framing
import Dcl.Http.HeaderBlock
import Dcl.Strutils.Numerals

/-! # A request from a client to the request handler

A client puts a request together with the setters of `http_request` and writes it: the method, the path and
the version on a line, and behind it what `operator<<` writes. `Draft` is what the client puts in;
`request_received` is what the request handler of an `http_server` gets out of the bytes. -/
namespace Dcl.Http
set_option autoImplicit false

/-- `http_method::convert` of an enumerator. -/
def HttpMethod.text (m : HttpMethod) : Bytes :=
  match HttpMethod.table.find? fun e => e.2 == m with
  | some e => ascii e.1
  | none => []

/-- `set_cookies`: the vector is replaced. -/
def HttpHeader.setCookies (h : HttpHeader) (cs : List HttpCookie) : HttpHeader := { h with cookies := cs }

/-- A request as it goes over the wire: `method()`, `get_path_info()` and `http_version()` on the first line. -/
def HttpRequest.wire (r : HttpRequest) : Bytes :=
  (r.method.map HttpMethod.text).getD [] ++ ascii " " ++ r.pathInfo ++ ascii " " ++ r.httpVersion ++ crlf ++ r.output

/-- What a client puts in. The path may have spaces in it; the version may not, since it is what follows the
last one. -/
structure Draft where
  method : HttpMethod
  pathInfo : Bytes
  version : Bytes
  lines : List Bytes
  cookies : List HttpCookie
  body : Bytes
  method_known : method ≠ .unknown
  pathInfo_lf : LF ∉ pathInfo
  version_word : LF ∉ version ∧ 32 ∉ version ∧ Trimmed version
  lines_lf : ∀ x ∈ lines, LF ∉ x
  cookies_sendable : ∀ c ∈ cookies, c.Sendable ∧ c.name ∉ attributeNames ∧ LF ∉ c.name ∧ LF ∉ c.value
  body_fits : body.length + 1 < 2 ^ 31

/-- `set_header(line)` for each line, `set_content(body)`, `set_cookies(cookies)`; `none` when `set_content` throws. -/
def Draft.assemble (pf : Platform) (d : Draft) : Option HttpHeader :=
  ((d.lines.foldl (HttpHeader.setHeader pf) .new).setContentString d.body).map (·.setCookies d.cookies)

/-- What the calls leave. -/
def Draft.header (pf : Platform) (d : Draft) : HttpHeader :=
  ((d.lines.foldl (HttpHeader.setHeader pf) .new).storeContent d.body.length d.body).setCookies d.cookies

def Draft.request (pf : Platform) (d : Draft) : HttpRequest where
  toHttpHeader := { d.header pf with httpVersion := d.version }
  method := some d.method
  pathInfo := d.pathInfo

/-! ## The request line -/

theorem HttpMethod.ofText_text {m : HttpMethod} (h : m ≠ .unknown) :
    .ofText m.text = m ∧ 32 ∉ m.text ∧ LF ∉ m.text ∧ Trimmed m.text := by
  cases m <;> first | exact absurd rfl h | decide +kernel

def Draft.line (d : Draft) : Bytes :=
  d.method.text ++ 32 :: (d.pathInfo ++ 32 :: (d.version ++ ascii "\r"))

/-- The method ends at the first space of the line and the version begins at the last one. -/
theorem parseCommand_line (d : Draft) :
    parseCommand .new d.line =
      { HttpRequest.new with method := some d.method, httpVersion := d.version, pathInfo := d.pathInfo } := by
  obtain ⟨hmethod, hspace, -, htrim⟩ := HttpMethod.ofText_text d.method_known
  obtain ⟨-, hversion, hvtrim⟩ := d.version_word
  have hfirst : findFirstOf d.line [32] 0 = some d.method.text.length := findFirstOf_append hspace
  have htake : d.line.take (d.method.text.length + 1) = d.method.text ++ [32] := by
    rw [Draft.line, List.append_cons]
    exact List.take_left' (by simp)
  have hdrop : d.line.drop (d.method.text.length + 1) = d.pathInfo ++ 32 :: (d.version ++ ascii "\r") := by
    rw [Draft.line, List.append_cons]
    exact List.drop_left' (by simp)
  have hlast : findLastOf (d.pathInfo ++ 32 :: (d.version ++ ascii "\r")) [32] = some d.pathInfo.length := by
    refine findLastOf_append fun hmem => ?_
    rcases List.mem_append.mp hmem with h | h
    · exact hversion h
    · exact absurd h (by decide)
  have hrest : (d.pathInfo ++ 32 :: (d.version ++ ascii "\r")).drop (d.pathInfo.length + 1) =
      d.version ++ ascii "\r" := by
    rw [List.append_cons]
    exact List.drop_left' (by simp)
  have hname : trim (d.method.text ++ [32]) = d.method.text := trim_followed htrim (by decide +kernel)
  have hnumber : trim (d.version ++ ascii "\r") = d.version := trim_followed hvtrim (by decide +kernel)
  simp only [parseCommand, cutMethod, hfirst, htake, hdrop, cutVersion, hlast, hrest, List.take_left, hname,
    hnumber, hmethod]

theorem line_lf (d : Draft) : LF ∉ d.line := by
  have hmethod := (HttpMethod.ofText_text d.method_known).2.2.1
  have hend : LF ∉ ascii "\r" := by decide
  have hne : LF ≠ 32 := by decide
  simp only [Draft.line, List.mem_append, List.mem_cons, not_or]
  exact ⟨hmethod, hne, d.pathInfo_lf, hne, d.version_word.1, hend⟩

/-! ## The header block -/

section Fields
variable (pf : Platform) (d : Draft)

theorem Draft.body_lt : d.body.length < 2 ^ 31 := Nat.lt_of_succ_lt d.body_fits

theorem setHeaders_content (ls : List Bytes) (h : HttpHeader) :
    (ls.foldl (HttpHeader.setHeader pf) h).content = h.content := by
  induction ls generalizing h with
  | nil => rfl
  | cons x ls ih =>
    rw [List.foldl_cons, ih]
    exact setHeader_content h x

theorem assemble_eq : d.assemble pf = some (d.header pf) := by
  rw [Draft.assemble, HttpHeader.setContentString_of_lt _ d.body_fits]
  rfl

theorem header_eq : d.header pf =
    { d.lines.foldl (HttpHeader.setHeader pf) .new with
      content := d.body ++ [0]
      headers := (d.lines.foldl (HttpHeader.setHeader pf) .new).headers.set contentLength
        (toStringInt d.body.length)
      cookies := d.cookies } := by
  have hcontent : (d.lines.foldl (HttpHeader.setHeader pf) .new).content = [] := setHeaders_content pf d.lines .new
  have hbody : (if 0 < (d.body.length : ℤ) then d.body.take (d.body.length : ℤ).toNat ++ [] else []) ++ [0] =
      d.body ++ [0] := by
    cases d.body <;> simp
  rw [Draft.header, HttpHeader.setCookies, HttpHeader.storeContent, hcontent, hbody]

theorem header_stored : Stored (d.header pf).headers := by
  have hempty : Stored HttpHeader.new.headers := by simp [Stored, HttpHeader.new, OrderedMap.empty]
  have hlines := setHeaders_stored pf d.lines d.lines_lf .new hempty
  have hkey : StoredKey contentLength :=
    ⟨by decide +kernel, by decide, by decide, by decide, by decide⟩
  have hvalue : StoredValue (toStringInt d.body.length) := by
    obtain ⟨-, hdigits, -⟩ := decimal_toStringInt d.body.length
    have hplain : ∀ c ∈ toStringInt d.body.length, blanks.contains c = false := fun c hc =>
      isdigit_not_blank (hdigits c hc)
    refine ⟨⟨fun c hc => hplain c (List.mem_of_mem_head? hc), fun c hc => hplain c (List.mem_of_mem_getLast? hc)⟩,
      fun hlf => ?_⟩
    exact absurd (hplain LF hlf) (by decide)
  rw [header_eq]
  exact OrderedMap.assign_forall hkey hvalue hlines

/-- The line with the cookies, if there are any, without its line feed. -/
def cookieFields (cs : List HttpCookie) : List Bytes :=
  if (cookieText cs).isEmpty then [] else [ascii "Cookie: " ++ cookieText cs ++ ascii "\r"]

/-- What the server makes of a cookie: the pair is sent, and nothing else of it. -/
def HttpCookie.sent (c : HttpCookie) : HttpCookie := { HttpCookie.new with name := c.name, value := c.value }

theorem addField_cookieLine {c : HttpCookie} {cs : List HttpCookie}
    (h : ∀ e ∈ c :: cs, e.Sendable ∧ e.name ∉ attributeNames) (r : HttpRequest) :
    r.addField pf (ascii "Cookie: " ++ cookieText (c :: cs) ++ ascii "\r") =
      { r with cookies := r.cookies ++ (c :: cs).map HttpCookie.sent } := by
  obtain ⟨htrim, hne⟩ := cookieText_trimmed fun e he => (h e he).1
  have hlast : ∀ x ∈ (32 :: cookieText (c :: cs)).getLast?, blanks.contains x = false := by
    rw [List.getLast?_cons_of_ne_nil hne]
    exact htrim.2
  have hline : trim (ascii "Cookie: " ++ cookieText (c :: cs) ++ ascii "\r") =
      ascii "Cookie" ++ 58 :: (32 :: cookieText (c :: cs)) := by
    rw [← trim_followed (trimmed_keyed (k := ascii "Cookie") (by decide +kernel) hlast) (y := ascii "\r")
      (by decide +kernel)]
    simp [ascii]
  have hcut : findFirstOf (trim (ascii "Cookie: " ++ cookieText (c :: cs) ++ ascii "\r")) (ascii ":") 0 =
      some (ascii "Cookie").length := by
    rw [hline]
    exact findFirstOf_append (by decide)
  have hkey : trim ((ascii "Cookie" ++ 58 :: (32 :: cookieText (c :: cs))).take (ascii "Cookie").length) =
      ascii "Cookie" := by
    rw [List.take_left]
    decide
  have hvalue : trim ((ascii "Cookie" ++ 58 :: (32 :: cookieText (c :: cs))).drop ((ascii "Cookie").length + 1)) =
      cookieText (c :: cs) := by
    rw [← List.drop_drop, List.drop_left]
    exact trim_cons_space htrim hne
  have hcompare : compare (ascii "Cookie") (ascii "Cookie") = true := by decide
  have hsent : ((c :: cs).map fun e => HttpCookie.assign pf .new e.name e.value) =
      (c :: cs).map HttpCookie.sent :=
    List.map_congr_left fun e he => assign_ordinary (h e he).2
  rw [HttpRequest.addField, HttpHeader.setHeader, hcut]
  simp only [hline, hkey, hvalue, HttpHeader.setField, hcompare, if_true,
    map_parse_cookieText pf fun e he => (h e he).1, hsent]

theorem addField_cookieFields (r : HttpRequest) :
    (cookieFields d.cookies).foldl (HttpRequest.addField pf) r =
      { r with cookies := r.cookies ++ d.cookies.map HttpCookie.sent } := by
  have hall := d.cookies_sendable
  rw [cookieFields]
  cases hcs : d.cookies with
  | nil =>
    rw [List.map_nil, List.append_nil]
    rfl
  | cons c cs =>
    rw [hcs] at hall
    have hne : (cookieText (c :: cs)).isEmpty = false := by
      simpa using (cookieText_trimmed fun e he => (hall e he).1).2
    rw [if_neg (by simp [hne])]
    exact addField_cookieLine pf (fun e he => ⟨(hall e he).1, (hall e he).2.1⟩) r

theorem cookieText_lf {cs : List HttpCookie} (h : ∀ e ∈ cs, LF ∉ e.name ∧ LF ∉ e.value) :
    LF ∉ cookieText cs := by
  induction cs with
  | nil => exact List.not_mem_nil
  | cons c cs ih =>
    obtain ⟨hc, hcs⟩ := List.forall_mem_cons.mp h
    have heq : LF ∉ ascii "=" := by decide
    have hsep : LF ∉ ascii "; " := by decide
    cases cs with
    | nil =>
      simp only [cookieText, List.mem_append, not_or]
      exact ⟨⟨hc.1, heq⟩, hc.2⟩
    | cons e cs =>
      simp only [cookieText, List.mem_append, not_or]
      exact ⟨⟨⟨⟨hc.1, heq⟩, hc.2⟩, hsep⟩, ih hcs⟩

theorem cookieFields_lines (x : Bytes) (hx : x ∈ cookieFields d.cookies) : LF ∉ x ∧ trim x ≠ [] := by
  rw [cookieFields] at hx
  split at hx
  · cases hx
  next hne =>
    obtain rfl := List.mem_singleton.mp hx
    have htext : LF ∉ cookieText d.cookies := cookieText_lf fun e he => (d.cookies_sendable e he).2.2
    have hname : LF ∉ ascii "Cookie: " := by decide
    have hend : LF ∉ ascii "\r" := by decide
    refine ⟨?_, fun hnil => ?_⟩
    · simp only [List.mem_append, not_or]
      exact ⟨⟨hname, htext⟩, hend⟩
    · obtain ⟨a, b, hsplit, ha, hb⟩ := exists_trim (ascii "Cookie: " ++ cookieText d.cookies ++ ascii "\r")
      have hmem : 67 ∈ a ++ trim (ascii "Cookie: " ++ cookieText d.cookies ++ ascii "\r") ++ b := by
        rw [← hsplit]
        simp [ascii]
      rw [hnil, List.append_nil, List.mem_append] at hmem
      rcases hmem with h | h
      · exact absurd (ha 67 h) (by decide)
      · exact absurd (hb 67 h) (by decide)

/-- The request as a message: the request line, a line for each header, and one for the cookies. -/
def Draft.message : Message where
  requestLine := d.line
  fields := (d.header pf).headers.entries.map writtenLine ++ cookieFields d.cookies
  blank := ascii "\r"
  body := d.body
  requestLine_lf := line_lf d
  fields_lf := List.forall_mem_append.mpr ⟨(header_stored pf d).lines_lf, fun x hx => (cookieFields_lines d x hx).1⟩
  fields_trim :=
    List.forall_mem_append.mpr ⟨(header_stored pf d).lines_trim, fun x hx => (cookieFields_lines d x hx).2⟩
  blank_lf := by decide
  blank_trim := by decide

theorem cookieLine_eq {r : HttpRequest} (h : r.cookies = d.cookies) :
    r.cookieLine = Message.lines (cookieFields d.cookies) := by
  rw [HttpRequest.cookieLine, cookieFields, h]
  split
  · rfl
  · rw [Message.lines, List.flatMap_singleton, List.append_assoc _ (ascii "\r")]
    rfl

theorem wire_eq : (d.request pf).wire = (d.message pf).bytes := by
  have hheader := header_eq pf d
  have hcontent : (d.request pf).content = d.body ++ [0] := congrArg HttpHeader.content hheader
  have hsize : (d.request pf).getContentSize.toNat = d.body.length := by
    rw [getContentSize_eq, HttpHeader.bytes, hcontent, List.dropLast_concat, toInt32_of_lt d.body_lt,
      Int.toNat_natCast]
  have hcookies : (d.request pf).cookies = d.cookies := rfl
  rw [HttpRequest.wire, HttpRequest.output, entries_lines, cookieLine_eq d hcookies, hsize, hcontent,
    List.take_left, Message.bytes, Message.head]
  have hline : ((d.request pf).method.map HttpMethod.text).getD [] ++ ascii " " ++ (d.request pf).pathInfo ++
      ascii " " ++ (d.request pf).httpVersion ++ crlf = d.line ++ [LF] := by
    simp [Draft.request, Draft.line, ascii, crlf, LF]
  rw [hline]
  simp [Draft.message, Message.lines, Draft.request, crlf, ascii, LF]

/-- The request after its header block. -/
def Draft.parsed : HttpRequest :=
  { d.request pf with cookies := d.cookies.map HttpCookie.sent, content := [] }

theorem parsed_eq : (d.message pf).parsed pf = d.parsed pf := by
  rw [Message.parsed]
  change ((d.header pf).headers.entries.map writtenLine ++ cookieFields d.cookies).foldl
    (HttpRequest.addField pf) (parseCommand .new d.line) = _
  rw [List.foldl_append, parseCommand_line, addFields_writtenLines (header_stored pf d),
    addField_cookieFields]
  have hfold : (d.header pf).headers.entries.foldl (fun m e => m.set e.1 e.2) .empty = (d.header pf).headers :=
    (d.header pf).headers.foldl_set_entries
  simp only [HttpRequest.new, HttpHeader.new, hfold]
  rfl

theorem size_eq : (d.message pf).size pf = some d.body.length := by
  have hget : ((d.message pf).parsed pf).getHeader contentLength = toStringInt d.body.length := by
    rw [parsed_eq, HttpHeader.getHeader]
    change ((d.header pf).headers.find contentLength).getD [] = _
    rw [header_eq, OrderedMap.find_set]
    rfl
  have hlt := d.body_lt
  rw [size_of_decimal (n := d.body.length) (by rw [hget]; exact decimal_toStringInt _), if_neg (by omega)]

/-! ## The call -/

variable (on : OnRequest) (l : Bytes)

/-- The request as it reaches the handler: without a body nothing was appended, not even the terminator. -/
def Draft.received : HttpRequest :=
  { d.request pf with
    cookies := d.cookies.map HttpCookie.sent
    content := if d.body = [] then [] else d.body ++ [0] }

theorem received_passes : ∃ n, Loop.Passes (pass pf on) n ⟨.new, .cut l (d.request pf).wire, [], []⟩
    ⟨⟨.processRequest, d.body.length, d.body.length, d.received pf⟩,
      .cut (l ++ (d.request pf).wire) [], [], []⟩ := by
  have hhead := @head_passes pf on (d.message pf) _ (size_eq pf d) l d.body
  have hbytes : (d.message pf).head ++ d.body = (d.request pf).wire := (wire_eq pf d).symm
  rw [hbytes, parsed_eq] at hhead
  by_cases hnil : d.body = []
  · refine ⟨_, hhead.trans (Loop.Passes.single ?_)⟩
    rw [← hbytes, Draft.received, hnil, List.append_nil, if_pos rfl]
    rfl
  · have hpos : 0 < d.body.length := List.length_pos_iff.mpr hnil
    have hint := d.body_lt
    have htake : toInt32 (toSize (d.body ++ []).length) = d.body.length := by
      rw [List.append_nil, toSize_of_lt (by omega), toInt32_of_lt hint]
    have hrecv := @receive_pass pf on d.body.length 0 (d.parsed pf) (l ++ (d.message pf).head) d.body [] [] []
      hpos hnil htake (by omega)
    have hempty : (d.parsed pf).bytes = [] := rfl
    have hlength : (d.parsed pf).headers.set contentLength
        (toStringInt (toInt32 (([] : Bytes).length + d.body.length))) = (d.parsed pf).headers := by
      have hheaders : (d.parsed pf).headers = (d.header pf).headers := rfl
      rw [List.length_nil, Nat.cast_zero, zero_add, toInt32_of_lt hint, hheaders, header_eq]
      exact OrderedMap.set_set _ _ _ _
    rw [List.append_nil, List.append_assoc l, hbytes, hempty, hlength, Nat.zero_add, if_pos (Nat.le_refl _)] at hrecv
    refine ⟨_, hhead.trans (Loop.Passes.single (hrecv.trans ?_))⟩
    rw [Draft.received, if_neg hnil]
    rfl

theorem received_process : ∃ s, process pf on none (.cut l (d.request pf).wire) = some s ∧
    s.passed = [d.received pf] ∧ s.inp = .cut (l ++ (d.request pf).wire) [] ∧
      s.result = (on (d.received pf)).map fun _ => keepAlive (d.received pf) := by
  obtain ⟨n, hpasses⟩ := received_passes pf d on l
  obtain ⟨s, hs, hinp, hpassed, hresult, -⟩ := @process_of_delivery pf on none _ _ _ hpasses rfl
  refine ⟨s, hs, hpassed, hinp, ?_⟩
  rw [hresult]
  cases on (d.received pf) with
  | none => rfl
  | some resp => simp

theorem received_cookies :
    ((d.received pf).cookies.map fun c => (c.name, c.value)) = (d.cookies.map fun c => (c.name, c.value)) := by
  simp [Draft.received, HttpCookie.sent]

theorem received_bytes : (d.received pf).bytes = d.body := by
  rw [HttpHeader.bytes, Draft.received]
  by_cases hnil : d.body = []
  · simp [hnil]
  · simp [hnil]

/-- A request is received as it was sent: no setter throws, and whatever header lines, cookies and body it was put
together from, and whatever was read from the connection before, the handler is called once, with the same method,
path, version, header map and body and with the same cookie pairs, and nothing is left unread. -/
theorem request_received : d.assemble pf = some (d.header pf) ∧
    ∃ s q, process pf on none (.cut l (d.request pf).wire) = some s ∧ s.passed = [q] ∧
    q.method = some d.method ∧ q.pathInfo = d.pathInfo ∧ q.httpVersion = d.version ∧
    q.headers = (d.request pf).headers ∧
    (q.cookies.map fun c => (c.name, c.value)) = (d.cookies.map fun c => (c.name, c.value)) ∧
    q.bytes = d.body ∧ s.inp = .cut (l ++ (d.request pf).wire) [] ∧
    s.result = (on q).map fun _ => keepAlive q := by
  obtain ⟨s, hs, hpassed, hinp, hresult⟩ := received_process pf d on l
  exact ⟨assemble_eq pf d, s, d.received pf, hs, hpassed, rfl, rfl, rfl, rfl, received_cookies pf d,
    received_bytes pf d, hinp, hresult⟩

end Fields

namespace Sample

def draft : Draft where
  method := .post
  pathInfo := ascii "/a b"
  version := ascii "HTTP/1.1"
  lines := [ascii "host:x", ascii "HOST: y"]
  cookies := [{ HttpCookie.new with name := ascii "n", value := ascii "1", path := ascii "/" }]
  body := ascii "k=v"
  method_known := by decide
  pathInfo_lf := by decide
  version_word := by decide +kernel
  lines_lf := by decide
  cookies_sendable := by
    intro c hc
    obtain rfl := List.mem_singleton.mp hc
    refine ⟨⟨by decide, by decide, fun s hs => ?_⟩, by decide, by decide, by decide⟩
    obtain rfl | rfl : s = ascii "n" ∨ s = ascii "1" := by simpa using hs
    · decide +kernel
    · decide +kernel
  body_fits := by decide

end Sample

theorem request_received_post : ∃ s q,
    process Sample.platform (fun _ => some .new) none (.cut [] (Sample.draft.request Sample.platform).wire) = some s ∧
      s.passed = [q] ∧ q.method = some .post ∧ q.pathInfo = ascii "/a b" ∧ q.httpVersion = ascii "HTTP/1.1" ∧
      q.bytes = ascii "k=v" ∧ s.inp.rest = [] := by
  obtain ⟨-, s, q, hs, hpassed, hmethod, hpath, hversion, -, -, hbytes, hinp, -⟩ :=
    request_received Sample.platform Sample.draft (fun _ => some .new) []
  refine ⟨s, q, hs, hpassed, hmethod, hpath, hversion, hbytes, ?_⟩
  rw [hinp]
  rfl

example : (Sample.draft.request Sample.platform).wire =
    ascii "POST /a b HTTP/1.1\r\nContent-Length: 3\r\nhost: y\r\nCookie: n=1\r\n\r\nk=v" := by
  decide +kernel

end Dcl.Http
