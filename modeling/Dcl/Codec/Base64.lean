import Dcl.Foundations.InStream
import Dcl.Foundations.Loop
import Dcl.Strutils.Text

/-! # `codec_base64`

`src/dcl/codec_base64.cpp`. The local arrays of `encode` and `decode` are not initialised, so both
take their first contents as an argument; the loops run on an explicit budget, which is enough for
every stream unless the loop never ends. -/
namespace Dcl.Codec
set_option autoImplicit false

/-! ## Tables -/

/-- Translation table as described in RFC1113. -/
def cb64 : Bytes := ascii "ABCDEFGHIJKLMNOPQRSTUVWXYZabcdefghijklmnopqrstuvwxyz0123456789+/"

def cd64 : Bytes :=
  ascii "|$$$\x7drstuvwxyz\x7b$$$$$$$>?@ABCDEFGHIJKLMNOPQRSTUVW$$$$$$XYZ[\\]^_`abcdefghijklmnopq"

def char64 (i : UInt8) : UInt8 := cb64.getD i.toNat 0

/-! ## Blocks -/

/-- Encode 3 8-bit binary bytes as 4 '6-bit' characters. -/
def encodeblock (b : Fin 3 → UInt8) (len : ℕ) : Bytes :=
  [char64 (b 0 >>> 2),
   char64 ((b 0 &&& 0x03) <<< 4 ||| (b 1 &&& 0xf0) >>> 4),
   if 1 < len then char64 ((b 1 &&& 0x0f) <<< 2 ||| (b 2 &&& 0xc0) >>> 6) else 61,
   if 2 < len then char64 (b 2 &&& 0x3f) else 61]

/-- Decode 4 '6-bit' characters into 3 8-bit binary bytes. -/
def decodeblock (b : Fin 4 → UInt8) : Bytes :=
  [b 0 <<< 2 ||| b 1 >>> 4, b 1 <<< 4 ||| b 2 >>> 2, ((b 2 <<< 6) &&& 0xc0) ||| b 3]

/-! ## `encode` -/

structure Encoder where
  inp : InStream
  block : Fin 3 → UInt8
  len : ℕ
  out : Bytes

/-- The body of the `for` loop: one byte of a block, or a zero at the end of the input. -/
def Encoder.readByte (e : Encoder) (i : Fin 3) : Encoder :=
  let r := e.inp.get (e.block i)
  if r.2.eofbit then { e with inp := r.2, block := Function.update e.block i 0 }
  else { e with inp := r.2, block := Function.update e.block i r.1, len := e.len + 1 }

/-- The body of the `while` loop. -/
def Encoder.pass (e : Encoder) : Encoder ⊕ Bytes :=
  if e.inp.eofbit then .inr e.out
  else
    let e := [0, 1, 2].foldl Encoder.readByte { e with len := 0 }
    .inl (if e.len = 0 then e else { e with out := e.out ++ encodeblock e.block e.len })

/-- What is written for an input; `none` when the loop never ends. -/
def encode (block : Fin 3 → UInt8) (inp : InStream) : Option Bytes :=
  Loop.loop Encoder.pass (inp.rest.length + 2) ⟨inp, block, 0, []⟩

/-! ## `decode` -/

/-- What the inner loop makes of a character: its place in the alphabet plus one, or 0. -/
def decodeChar (v : UInt8) : UInt8 :=
  let v := if v < 43 ∨ 122 < v then 0 else cd64.getD (v - 43).toNat 0
  if v ≠ 0 then if v = 36 then 0 else v - 61 else v

/-- The inner loop of `decode`, which looks for the next character of the alphabet. -/
def skipPass (s : UInt8 × InStream) : (UInt8 × InStream) ⊕ (UInt8 × InStream) :=
  if s.2.eofbit = false ∧ s.1 = 0 then
    let r := s.2.get s.1
    .inl (decodeChar r.1, r.2)
  else .inr s

def skip (inp : InStream) : Option (UInt8 × InStream) :=
  Loop.loop skipPass (inp.rest.length + 2) (0, inp)

structure Decoder where
  inp : InStream
  block : Fin 4 → UInt8
  len : ℕ
  out : Bytes

/-- The body of the `for` loop: one character of a block, or a zero at the end of the input. -/
def Decoder.readChar (d : Decoder) (i : Fin 4) : Option Decoder :=
  (skip d.inp).map fun r =>
    if r.2.eofbit then { d with inp := r.2, block := Function.update d.block i 0 }
    else
      { d with
        inp := r.2
        len := d.len + 1
        block := if r.1 = 0 then d.block else Function.update d.block i (r.1 - 1) }

def Decoder.readBlock (d : Decoder) : List (Fin 4) → Option Decoder
  | [] => some d
  | i :: is => if d.inp.eofbit then some d else (d.readChar i).bind fun d => d.readBlock is

/-- The body of the `while` loop; it does not end when the inner loop does not. -/
def Decoder.pass (d : Decoder) : Decoder ⊕ Option Bytes :=
  if d.inp.eofbit then .inr (some d.out)
  else
    match { d with len := 0 }.readBlock [0, 1, 2, 3] with
    | none => .inr none
    | some d =>
        .inl (if 0 < d.len then { d with out := d.out ++ (decodeblock d.block).take (d.len - 1) } else d)

def decode (block : Fin 4 → UInt8) (inp : InStream) : Option Bytes :=
  (Loop.loop Decoder.pass (inp.rest.length + 2) ⟨inp, block, 0, []⟩).join

end Dcl.Codec
