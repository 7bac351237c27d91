import Dcl.Foundations.KeyedTable
import Dcl.Http.Injection

/-! # The web front ends

`cgi_application`, `apache_application` and `isapi_application`: how a request is taken from the
environment of a CGI program, and what each front end hands to its web server for a response. The
web servers' own functions (`apr_table_set`, `WriteClient`) are parameters. -/
namespace Dcl.Web
open Http
set_option autoImplicit false

/-! ## `cgi_application::get_request` -/

/-- The request and the variables that only CGI sets, with the loop's `c_len`. -/
structure CgiRequest extends HttpRequest where
  authType : Bytes
  gatewayInterface : Bytes
  pathTranslated : Bytes
  queryString : Bytes
  remoteAddr : Bytes
  remoteHost : Bytes
  remoteIdent : Bytes
  remoteUser : Bytes
  scriptName : Bytes
  serverName : Bytes
  serverPort : ℤ
  serverProtocol : Bytes
  serverSoftware : Bytes
  https : Bool
  contentLen : ℤ
  deriving DecidableEq

def CgiRequest.new : CgiRequest :=
  { HttpRequest.new with
    authType := [], gatewayInterface := [], pathTranslated := [], queryString := [], remoteAddr := [],
    remoteHost := [], remoteIdent := [], remoteUser := [], scriptName := [], serverName := [],
    serverPort := 0, serverProtocol := [], serverSoftware := [], https := false, contentLen := 0 }

/-- A variable `HTTP_X_Y` is the header `X-Y`. -/
def CgiRequest.header (pf : Platform) (q : CgiRequest) (left right : Bytes) : CgiRequest :=
  if left.take 5 = ascii "HTTP_" then
    { q with
      toHttpHeader := q.toHttpHeader.setField pf
        ((left.drop 5).map fun c => if c = 95 then 45 else c) right }
  else q

/-- The variables the chain of comparisons knows, in its order. -/
def CgiRequest.variables : List (String × (CgiRequest → Bytes → CgiRequest)) :=
  [("AUTH_TYPE", fun q right => { q with authType := right }),
   ("CONTENT_LENGTH", fun q right => { q with contentLen := fromStringInt right }),
   ("CONTENT_TYPE", fun q right => { q with toHttpHeader := q.toHttpHeader.setContentType right }),
   ("GATEWAY_INTERFACE", fun q right => { q with gatewayInterface := right }),
   ("PATH_INFO", fun q right => { q with pathInfo := right }),
   ("PATH_TRANSLATED", fun q right => { q with pathTranslated := right }),
   ("QUERY_STRING", fun q right => { q with queryString := right }),
   ("REMOTE_ADDR", fun q right => { q with remoteAddr := right }),
   ("REMOTE_HOST", fun q right => { q with remoteHost := right }),
   ("REMOTE_IDENT", fun q right => { q with remoteIdent := right }),
   ("REMOTE_USER", fun q right => { q with remoteUser := right }),
   ("REQUEST_METHOD", fun q right => { q with method := some (HttpMethod.ofText right) }),
   ("SCRIPT_NAME", fun q right => { q with scriptName := right }),
   ("SERVER_NAME", fun q right => { q with serverName := right }),
   ("SERVER_PORT", fun q right => { q with serverPort := fromStringInt right }),
   ("SERVER_PROTOCOL", fun q right => { q with serverProtocol := right }),
   ("SERVER_SOFTWARE", fun q right => { q with serverSoftware := right }),
   ("HTTPS", fun q right => { q with https := decide (right = ascii "on") })]

def CgiRequest.variable (pf : Platform) (q : CgiRequest) (left right : Bytes) : CgiRequest :=
  match CgiRequest.variables.find? fun e => ascii e.1 == left with
  | some e => e.2 q right
  | none => q.header pf left right

/-- One string of the environment, `PARAM=VALUE`. -/
def CgiRequest.line (pf : Platform) (q : CgiRequest) (line : Bytes) : CgiRequest :=
  match findFirstOf line (ascii "=") 0 with
  | none => q.variable pf line []
  | some pos => q.variable pf (line.take pos) (substr line (pos + 1) (line.length - pos - 1))

/-- The request, and the standard input behind what was read from it. -/
def cgiGetRequest (pf : Platform) (env : List Bytes) (cin : StringStream) :
    CgiRequest × StringStream :=
  let q := env.foldl (CgiRequest.line pf) .new
  if 0 < q.contentLen then
    let r := q.toHttpHeader.addContent q.contentLen cin
    ({ q with toHttpHeader := r.1 }, r.2)
  else (q, cin)

/-! ## `send_response` -/

/-- The text a CGI program writes to its standard output. -/
def cgiSendResponse (pf : Platform) (r : HttpResponse) : Bytes :=
  ascii "Status: " ++ r.getStatus ++ crlf ++ r.output pf

structure IsapiSent where
  status : Bytes
  statusCode : ℤ
  header : Bytes
  content : Bytes
  exception : Option Bytes
  deriving DecidableEq

/-- `writeClient` is the server's answer to the content. -/
def isapiSendResponse (writeClient : Bytes → Bool) (pf : Platform) (r : HttpResponse) : IsapiSent :=
  let h := (r.headers.entries.flatMap fun e => e.1 ++ ascii ": " ++ e.2 ++ crlf) ++
    (r.cookies.flatMap fun c => ascii "Set-Cookie: " ++ c.str pf ++ crlf) ++ crlf
  let len := (r.getContentSize % 2 ^ 32).toNat
  let content := r.content.take len
  { status := r.getStatus
    statusCode := r.status.entry.1
    header := h
    content := content
    exception :=
      if 0 < len ∧ writeClient content = false then some (ascii "Can't send data to the web server")
      else none }

/-- `apr_table_t` holds C strings; names are compared without regard to case. -/
abbrev AprTable := KeyedTable ciOrder Bytes

structure ApacheSent (apr : AprTable) where
  headersOut : apr.Table
  status : ℤ
  contentType : Option Bytes
  content : Bytes

def apacheSendResponse (apr : AprTable) (pf : Platform) (r : HttpResponse) (headersOut : apr.Table) :
    ApacheSent apr :=
  let headersOut := r.headers.entries.foldl (fun t e =>
    if e.1 ≠ ascii "Content-Length" ∧ e.1 ≠ ascii "Content-Type" then
      apr.set t (cString e.1) (cString e.2)
    else t) headersOut
  let headersOut := r.cookies.foldl
    (fun t c => apr.set t (ascii "Set-Cookie") (cString (c.str pf))) headersOut
  { headersOut := headersOut
    status := r.status.entry.1
    contentType := if r.getContentType.isEmpty then none else some (cString r.getContentType)
    content := r.content.take r.getContentSize.toNat }

end Dcl.Web
