import Dcl.Foundations.Loop
import Dcl.Strutils.Text

/-! # `odbc::query`: parsing a statement

`query::parse` in `src/dcl/query.cpp`, lines 50 to 95: one pass over the statement that copies it,
writes a `?` for each parameter and collects the names. `isalnum` is that of the C locale, on bytes. -/
namespace Dcl.Odbc
set_option autoImplicit false

structure Parameter where
  name : Bytes
  value : Bytes
  deriving DecidableEq, Repr

def isName (c : UInt8) : Bool := isalnum c || c == 95

/-- The variables of `parse`: the iterator as a position, and the two quote flags. -/
structure Scan where
  i : ℕ
  ssq : Bool
  dsq : Bool
  q : Bytes
  parameters : List Parameter
  deriving DecidableEq, Repr

def Scan.start : Scan := ⟨0, false, false, [], []⟩

/-- The body of the `switch` for the character at the iterator. A name leaves the iterator at its last
character, or at the colon when it is empty. -/
def Scan.character (statement : Bytes) (s : Scan) (c : UInt8) : Scan :=
  if c = 39 then { s with ssq := !s.ssq, q := s.q ++ [c] }
  else if c = 34 then { s with dsq := !s.dsq, q := s.q ++ [c] }
  else if c = 63 then
    { s with
      parameters := if !s.ssq && !s.dsq then s.parameters ++ [⟨[], []⟩] else s.parameters
      q := s.q ++ [c] }
  else if c = 58 then
    if !s.ssq && !s.dsq then
      let name := (statement.drop (s.i + 1)).takeWhile isName
      { s with
        i := s.i + 1 + name.length - 1
        parameters := s.parameters ++ [⟨name, []⟩]
        q := s.q ++ [63] }
    else { s with q := s.q ++ [c] }
  else { s with q := s.q ++ [c] }

def Scan.pass (statement : Bytes) (s : Scan) : Scan ⊕ (Bytes × List Parameter) :=
  match statement[s.i]? with
  | none => .inr (s.q, s.parameters)
  | some c =>
      let s := s.character statement c
      .inl { s with i := s.i + 1 }

/-- The text and the parameters of a statement; `none` when the loop never ends. -/
def parse (statement : Bytes) : Option (Bytes × List Parameter) :=
  Loop.loop (Scan.pass statement) (statement.length + 1) .start

end Dcl.Odbc
