import Dcl.Strutils.Text

/-! # `url`: splitting a URL into its parts and putting it together again

`src/dcl/url.cpp` in the build without `WIN32`. The service database of the system
(`getservbyname` with the protocol `tcp`) is a parameter: a function from the name of a service to its
port, if it is known. -/
namespace Dcl
set_option autoImplicit false

/-- `getservbyname(name, "tcp")`, its port in host order. -/
abbrev Services := Bytes → Option UInt16

structure Url where
  scheme : Bytes
  user : Bytes
  password : Bytes
  host : Bytes
  port : ℤ
  path : Bytes
  query : Bytes
  fragment : Bytes
  parameters : Bytes
  deriving DecidableEq, Repr

namespace Url

def new : Url := ⟨[], [], [], [], 0, [], [], [], []⟩

def find (s : Bytes) (c : UInt8) : Option ℕ := findFirstOf s [c] 0

/-! ## `parse` -/

/-- The scheme, and what follows `://`; without a scheme of at least three characters everything. -/
def splitScheme (t : Bytes) : Bytes × Bytes :=
  match find t 58 with
  | some pos =>
      if 2 < pos ∧ pos + 2 < t.length ∧ t[pos + 1]? = some 47 ∧ t[pos + 2]? = some 47 then
        (t.take pos, t.drop (pos + 3))
      else ([], t)
  | none => ([], t)

/-- The text before the first slash, and the rest with it. -/
def splitHost (t : Bytes) : Bytes × Bytes :=
  match find t 47 with
  | none => (t, [])
  | some pos => (t.take pos, t.drop pos)

def parseService (services : Services) (u : Url) : Url :=
  match services (cString u.scheme) with
  | some port => { u with port := port.toNat }
  | none => u

def parseUser (u : Url) : Url :=
  match find u.host 64 with
  | none => u
  | some pos =>
      let user := u.host.take pos
      let u := { u with host := u.host.drop (pos + 1) }
      match find user 58 with
      | none => { u with user := user }
      | some pos => { u with user := user.take pos, password := user.drop (pos + 1) }

def parsePort (u : Url) : Url :=
  match find u.host 58 with
  | none => u
  | some pos =>
      let number := u.host.drop (pos + 1)
      { u with
        port := if 0 < number.length then fromStringInt number else u.port
        host := u.host.take pos }

/-- Cuts `t` at the first `c`: what follows it, if there is one, and what stands before it. -/
def cutAt (t : Bytes) (c : UInt8) : Option Bytes × Bytes :=
  match find t c with
  | some pos => (some (t.drop (pos + 1)), t.take pos)
  | none => (none, t)

/-- Parameters, fragment and query, and the rest of the text. -/
def parseSuffixes (u : Url) (t : Bytes) : Url × Bytes :=
  let parameters := cutAt t 59
  let fragment := cutAt parameters.2 35
  let query := cutAt fragment.2 63
  ({ u with
      parameters := parameters.1.getD u.parameters
      fragment := fragment.1.getD u.fragment
      query := query.1.getD u.query }, query.2)

def parsePath (u : Url) (t : Bytes) : Url :=
  { u with path := if t.isEmpty || t.head? != some 47 then 47 :: t else t }

def parse (services : Services) (u : Url) (value : Bytes) : Url :=
  let r := splitScheme value
  let u := { u with scheme := r.1 }
  if u.scheme.isEmpty then u.parsePath r.2
  else
    let h := splitHost r.2
    let u := { u with host := h.1 }
    if u.scheme = ascii "file" then u.parsePath h.2
    else
      let s := ((u.parseService services).parseUser.parsePort).parseSuffixes h.2
      s.1.parsePath s.2

/-! ## `get_full_path` and `str` -/

/-- A separator and a text, if the text is not empty. -/
def suffix (c : UInt8) (s : Bytes) : Bytes := if s.isEmpty then [] else c :: s

def getFullPath (u : Url) : Bytes :=
  u.path ++ suffix 63 u.query ++ suffix 35 u.fragment ++ suffix 59 u.parameters

/-- The port is written when it is positive, the scheme is a known service, and it has another port. -/
def portText (services : Services) (u : Url) : Bytes :=
  if 0 < u.port then
    match services (cString u.scheme) with
    | some port => if (port.toNat : ℤ) ≠ u.port then 58 :: toStringInt u.port else []
    | none => []
  else []

def userText (u : Url) : Bytes :=
  if u.user.isEmpty then []
  else u.user ++ (if u.password.isEmpty then [] else 58 :: u.password ++ [64])

def str (services : Services) (u : Url) : Bytes :=
  let rslt := (if u.scheme.isEmpty then [] else u.scheme ++ ascii "://") ++ u.userText ++
    (if u.host.isEmpty then [] else u.host ++ u.portText services) ++ u.getFullPath
  if rslt.isEmpty then ascii "/" else rslt

/-! ## `copy_from` and `normalize` -/

/-- The parts of `w` that are there replace those of `u`. -/
def copyFrom (u w : Url) : Url where
  scheme := if w.scheme.isEmpty then u.scheme else w.scheme
  user := if w.user.isEmpty then u.user else w.user
  password := if w.password.isEmpty then u.password else w.password
  host := if w.host.isEmpty then u.host else w.host
  port := if 0 < w.port then w.port else u.port
  path := if w.path.isEmpty then u.path else w.path
  query := if w.query.isEmpty then u.query else w.query
  fragment := if w.fragment.isEmpty then u.fragment else w.fragment
  parameters := if w.parameters.isEmpty then u.parameters else w.parameters

/-- The loop of `normalize` over the parts from the last to the first; `s`, an `int`, counts those that are
to be skipped. -/
def joinParts : List Bytes → ℤ → Bytes → Bytes
  | [], _, path => path
  | i :: v, s, path =>
      if i = ascii ".." then joinParts v (toInt32 (s + 1)) path
      else if i = ascii "." then joinParts v s path
      else if i.isEmpty then path
      else if 0 < s then joinParts v (s - 1) path
      else joinParts v s (47 :: i ++ path)

def normalize (u : Url) (basePath : Bytes) : Url :=
  let path := if u.path.head? = some 47 ∨ u.path.head? = some 92 then u.path.tail else u.path
  { u with path := joinParts (tokenize (basePath ++ path) (ascii "/")).reverse 0 [] }

/-! ## `encode` and `decode` -/

/-- The characters that `encode` leaves as they are. -/
def unescaped (c : UInt8) : Bool :=
  !(c < 48 || (58 < c && c < 65) || (91 < c && c < 97) || 123 < c)

/-- A digit as `hex` and `uppercase` write it. -/
def hexDigit (n : ℕ) : UInt8 := UInt8.ofNat (if n < 10 then 48 + n else 55 + n)

def escape (c : UInt8) : Bytes :=
  if unescaped c then [c] else [37, hexDigit (c.toNat / 16), hexDigit (c.toNat % 16)]

/-- The length of the loop is an `int`. -/
def encode (value : Bytes) : Bytes :=
  (value.take (toInt32 value.length).toNat).flatMap escape

/-- The loop of `decode`, on the characters from the current one to the end. -/
def decodeFrom : Bytes → Bytes
  | [] => []
  | c :: a :: b :: rest =>
      if c = 37 ∧ isxdigit a ∧ isxdigit b then
        UInt8.ofNat (strtol [a, b] 16).toNat :: decodeFrom rest
      else (if c = 43 then 32 else c) :: decodeFrom (a :: b :: rest)
  | c :: rest => (if c = 43 then 32 else c) :: decodeFrom rest

/-- The length of the loop is an `int`. -/
def decode (value : Bytes) : Bytes := decodeFrom (value.take (toInt32 value.length).toNat)

end Url

end Dcl
