import Dcl.Foundations.StringStream

/-! # Input streams

What a `std::istream` does when it is only read from: it delivers the bytes of its source one after
the other, and then either the source is at its end or it breaks. `get` and `read` extract nothing
from a stream that is not good; reading behind the last byte sets eofbit and failbit, and leaves
the argument of `get` as it was. -/
namespace Dcl
set_option autoImplicit false

/-- `breaks`: the source throws behind its last byte instead of being at its end. -/
structure InStream where
  rest : Bytes
  breaks : Bool
  eofbit : Bool
  failbit : Bool
  badbit : Bool
  deriving DecidableEq, Repr

namespace InStream

def of (s : Bytes) : InStream := ⟨s, false, false, false, false⟩

def good (s : InStream) : Bool := !s.eofbit && !s.failbit && !s.badbit

/-- A good stream after something was read behind its last byte. -/
def exhausted (s : InStream) : InStream :=
  if s.breaks then { s with rest := [], badbit := true, failbit := true }
  else { s with rest := [], eofbit := true, failbit := true }

/-- `get(c)`: the new value of `c`. -/
def get (s : InStream) (c : UInt8) : UInt8 × InStream :=
  if s.good then
    match s.rest with
    | [] => (c, s.exhausted)
    | b :: rest => (b, { s with rest := rest })
  else (c, { s with failbit := true })

/-- `read(buffer, n)`: the bytes extracted, whose number is `gcount()`. -/
def read (s : InStream) (n : ℕ) : Bytes × InStream :=
  if s.good then
    if n ≤ s.rest.length then (s.rest.take n, { s with rest := s.rest.drop n })
    else (s.rest, s.exhausted)
  else ([], { s with failbit := true })

/-! ## A stream over a string -/

def ended : InStream := ⟨[], false, true, true, false⟩

@[simp] theorem eofbit_of (s : Bytes) : (of s).eofbit = false := rfl

@[simp] theorem rest_of (s : Bytes) : (of s).rest = s := rfl

@[simp] theorem eofbit_ended : ended.eofbit = true := rfl

theorem good_of (s : Bytes) : (of s).good = true := rfl

theorem read_of {s : Bytes} {n : ℕ} (h : n ≤ s.length) : (of s).read n = (s.take n, of (s.drop n)) := by
  rw [read, if_pos (good_of s), rest_of, if_pos h]
  rfl

theorem read_of_short {s : Bytes} {n : ℕ} (h : s.length < n) : (of s).read n = (s, ended) := by
  rw [read, if_pos (good_of s), rest_of, if_neg (Nat.not_le.mpr h)]
  rfl

end InStream

end Dcl
