import Dcl.Strutils.Text

/-! # HTTP headers, cookies, requests and responses

`include/dcl/http_header.h` and `src/dcl/http_header.cpp`; the operations on the content are in
`Dcl.Http.Content`. What the source leaves to the C library or leaves undefined is collected
in `Platform`. -/
namespace Dcl.Http
set_option autoImplicit false

/-- What the C library decides: `datetime(text)` (`strptime`, `mktime`), `datetime::as_gmt`
(`gmtime`, `strftime`), and what a `bool` that was never assigned reads as. -/
structure Platform where
  datetime : Bytes → ℤ
  asGmt : ℤ → Bytes
  unassigned : Bool

/-! ## Status codes and methods -/

inductive HttpError where
  | errorContinue | switchingProtocols
  | ok | created | accepted | nonAuthoritativeInformation | noContent | resetContent | partialContent
  | multipleChoices | movedPermanently | found | seeOther | notModified | useProxy | temporaryRedirect
  | badRequest | unauthorized | paymentRequired | forbidden | notFound | methodNotAllowed
  | notAcceptable | proxyAuthenticationRequired | requestTimeout | conflict | gone | lengthRequired
  | preconditionFailed | requestEntityTooLarge | requestUriTooLong | unsupportedMediaType
  | requestedRangeNotSatisfiable | expectationFailed
  | internalServerError | notImplemented | badGateway | serviceUnavailable | gatewayTimeout
  | httpVersionNotSupported
  deriving DecidableEq, Repr

/-- The enumerator's value and the text `http_error::convert` finds for it. -/
def HttpError.entry : HttpError → ℤ × String
  | .errorContinue => (100, "Continue")
  | .switchingProtocols => (101, "Switching Protocols")
  | .ok => (200, "OK")
  | .created => (201, "Created")
  | .accepted => (202, "Accepted")
  | .nonAuthoritativeInformation => (203, "Non Authoritative Information")
  | .noContent => (204, "No Content")
  | .resetContent => (205, "Reset Content")
  | .partialContent => (206, "Partial Content")
  | .multipleChoices => (300, "Multiple Choices")
  | .movedPermanently => (301, "Moved Permanently")
  | .found => (302, "Found")
  | .seeOther => (303, "See Other")
  | .notModified => (304, "Not Modified")
  | .useProxy => (305, "Use Proxy")
  | .temporaryRedirect => (307, "Temporary Redirect")
  | .badRequest => (400, "Bad Request")
  | .unauthorized => (401, "Unauthorized")
  | .paymentRequired => (402, "Payment Required")
  | .forbidden => (403, "Forbidden")
  | .notFound => (404, "Not Found")
  | .methodNotAllowed => (405, "Method Not Allowed")
  | .notAcceptable => (406, "Not Acceptable")
  | .proxyAuthenticationRequired => (407, "Proxy Authentication Required")
  | .requestTimeout => (408, "Request Timeout")
  | .conflict => (409, "Conflict")
  | .gone => (410, "Gone")
  | .lengthRequired => (411, "Length Required")
  | .preconditionFailed => (412, "Precondition Failed")
  | .requestEntityTooLarge => (413, "Request Entity Too Large")
  | .requestUriTooLong => (414, "Request-URI Too Long")
  | .unsupportedMediaType => (415, "Unsupported Media Type")
  | .requestedRangeNotSatisfiable => (416, "Requested Range Not Satisfiable")
  | .expectationFailed => (417, "Expectation Failed")
  | .internalServerError => (500, "Internal Server Error")
  | .notImplemented => (501, "Not Implemented")
  | .badGateway => (502, "Bad Gateway")
  | .serviceUnavailable => (503, "Service Unavailable")
  | .gatewayTimeout => (504, "Gateway Timeout")
  | .httpVersionNotSupported => (505, "HTTP Version Not Supported")

inductive HttpMethod where
  | get | put | post | del | connect | options | trace | patch | propfind | proppatch | mkcol | copy
  | move | lock | unlock | versionControl | checkout | uncheckout | checkin | update | label | report
  | mkworkspace | mkactivity | baselineControl | merge | unknown | head
  deriving DecidableEq, Repr

def HttpMethod.table : List (String × HttpMethod) :=
  [("GET", .get), ("PUT", .put), ("POST", .post), ("DELETE", .del), ("CONNECT", .connect),
   ("OPTIONS", .options), ("TRACE", .trace), ("PATCH", .patch), ("PROPFIND", .propfind),
   ("PROPPATCH", .proppatch), ("MKCOL", .mkcol), ("COPY", .copy), ("MOVE", .move), ("LOCK", .lock),
   ("UNLOCK", .unlock), ("VERSION_CONTROL", .versionControl), ("CHECKOUT", .checkout),
   ("UNCHECKOUT", .uncheckout), ("CHECKIN", .checkin), ("UPDATE", .update), ("LABEL", .label),
   ("REPORT", .report), ("MKWORKSPACE", .mkworkspace), ("MKACTIVITY", .mkactivity),
   ("BASELINE_CONTROL", .baselineControl), ("MERGE", .merge), ("HEAD", .head)]

def HttpMethod.ofText (value : Bytes) : HttpMethod :=
  match HttpMethod.table.find? fun e => ascii e.1 == value with
  | some e => e.2
  | none => .unknown

/-! ## Cookies -/

/-- `partitioned` is `none` until it is assigned: no constructor initialises it. -/
structure HttpCookie where
  secure : Bool
  httpOnly : Bool
  partitioned : Option Bool
  name : Bytes
  value : Bytes
  domain : Bytes
  expires : ℤ
  path : Bytes
  sameSite : Bytes
  deriving DecidableEq, Repr

def HttpCookie.new : HttpCookie := ⟨false, false, none, [], [], [], 0, [], []⟩

def HttpCookie.field (pf : Platform) (c : HttpCookie) (i : Bytes) : HttpCookie :=
  let pv := tokenizePair i [] [] false (ascii "=")
  let p := trim pv.1
  let v := trim pv.2
  if p = ascii "expires" then { c with expires := pf.datetime v }
  else if p = ascii "domain" then { c with domain := v }
  else if p = ascii "path" then { c with path := v }
  else if p = ascii "samesite" then { c with sameSite := v }
  else if p = ascii "secure" then { c with secure := true }
  else if p = ascii "HttpOnly" then { c with httpOnly := true }
  else { c with name := p, value := v }

/-- `http_cookie(const std::string &cookie)`. -/
def HttpCookie.parse (pf : Platform) (cookie : Bytes) : HttpCookie :=
  (tokenize cookie (ascii ";")).foldl (HttpCookie.field pf) .new

def HttpCookie.str (pf : Platform) (c : HttpCookie) : Bytes :=
  if c.name.isEmpty then []
  else
    c.name ++ ascii "=" ++ c.value ++
    (if c.expires = 0 then [] else ascii "; expires=" ++ pf.asGmt c.expires) ++
    (if c.domain.isEmpty then [] else ascii "; domain=" ++ c.domain) ++
    (if c.path.isEmpty then [] else ascii "; path=" ++ c.path) ++
    (if c.sameSite.isEmpty then [] else ascii "; SameSite=" ++ c.sameSite) ++
    (if c.secure then ascii "; secure" else []) ++
    (if c.httpOnly then ascii "; HttpOnly" else []) ++
    (if c.partitioned.getD pf.unassigned then ascii "; Partitioned" else [])

/-! ## Headers -/

abbrev HttpHeaders := OrderedMap ciOrder Bytes

/-- `content` is the whole vector: once it is not empty its last element is the terminating NUL. -/
structure HttpHeader where
  headers : HttpHeaders
  cookies : List HttpCookie
  content : Bytes
  httpVersion : Bytes
  deriving DecidableEq

def HttpHeader.new : HttpHeader := ⟨.empty, [], [], ascii "1.1"⟩

def HttpHeader.setField (pf : Platform) (h : HttpHeader) (key value : Bytes) : HttpHeader :=
  if compare key (ascii "Cookie") then
    { h with cookies := h.cookies ++ (tokenize value (ascii ";")).map (HttpCookie.parse pf) }
  else if compare key (ascii "Set-Cookie") then
    { h with cookies := h.cookies ++ [HttpCookie.parse pf value] }
  else { h with headers := h.headers.set key value }

/-- `set_header(header)`: a line `key: value`; a line without a colon is ignored. -/
def HttpHeader.setHeader (pf : Platform) (h : HttpHeader) (header : Bytes) : HttpHeader :=
  match findFirstOf header (ascii ":") 0 with
  | some pos => h.setField pf (trim (header.take pos)) (trim (header.drop (pos + 1)))
  | none => h

def HttpHeader.getHeader (h : HttpHeader) (key : Bytes) : Bytes := (h.headers.find key).getD []

def HttpHeader.getContentType (h : HttpHeader) : Bytes :=
  (h.headers.find (ascii "Content-Type")).getD (ascii "text/plain")

def HttpHeader.setContentType (h : HttpHeader) (value : Bytes) : HttpHeader :=
  { h with headers := h.headers.set (ascii "Content-Type") value }

/-- The vector's size less the terminator, as an `int`. -/
def HttpHeader.getContentSize (h : HttpHeader) : ℤ :=
  if h.content.isEmpty then 0 else toInt32 (h.content.length - 1 : ℕ)

theorem HttpHeader.setHeader_nil (pf : Platform) (h : HttpHeader) : h.setHeader pf [] = h := rfl

/-! ## Requests and responses -/

/-- `method` is `none` until it is assigned: the constructor leaves `_method` uninitialised. -/
structure HttpRequest extends HttpHeader where
  method : Option HttpMethod
  pathInfo : Bytes
  deriving DecidableEq

def HttpRequest.new : HttpRequest := { HttpHeader.new with method := none, pathInfo := [] }

structure HttpResponse extends HttpHeader where
  status : HttpError
  deriving DecidableEq

/-- The constructor: status 200 and a plain text content type. -/
def HttpResponse.new : HttpResponse :=
  { HttpHeader.new with
    headers := OrderedMap.empty.set (ascii "Content-Type") (ascii "text/plain; charset=utf-8")
    status := .ok }

def HttpResponse.getStatus (r : HttpResponse) : Bytes :=
  toStringInt r.status.entry.1 ++ ascii " " ++ ascii r.status.entry.2

def crlf : Bytes := ascii "\r\n"

def cookieText : List HttpCookie → Bytes
  | [] => []
  | [c] => c.name ++ ascii "=" ++ c.value
  | c :: cs => c.name ++ ascii "=" ++ c.value ++ ascii "; " ++ cookieText cs

/-- The `Cookie` line of a request; nothing is written when there are no cookies. -/
def HttpRequest.cookieLine (r : HttpRequest) : Bytes :=
  if (cookieText r.cookies).isEmpty then [] else ascii "Cookie: " ++ cookieText r.cookies ++ crlf

def HttpRequest.output (r : HttpRequest) : Bytes :=
  (r.headers.entries.flatMap fun e => e.1 ++ ascii ": " ++ e.2 ++ crlf) ++ r.cookieLine ++ crlf ++
  r.content.take r.getContentSize.toNat

def HttpResponse.output (pf : Platform) (r : HttpResponse) : Bytes :=
  (r.headers.entries.flatMap fun e => e.1 ++ ascii ": " ++ e.2 ++ crlf) ++
  (r.cookies.flatMap fun c => ascii "Set-Cookie: " ++ c.str pf ++ crlf) ++ crlf ++
  r.content.take r.getContentSize.toNat

end Dcl.Http
