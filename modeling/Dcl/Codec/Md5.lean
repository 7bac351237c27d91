import Dcl.Foundations.InStream
import Dcl.Foundations.LittleEndian
import Dcl.Foundations.Loop

/-! # `encoder_md5`

`src/dcl/encoder_md5.cpp` on a little-endian machine: a word in memory is its four bytes, least
significant first. The buffer of a context is not initialised, so `MD5Init` takes its contents as an
argument. -/
namespace Dcl.Md5
set_option autoImplicit false

/-! ## Memory -/

def memcpy {n : ℕ} (v : Vector UInt8 n) (pos : ℕ) (src : Bytes) : Vector UInt8 n :=
  Vector.ofFn fun i => if pos ≤ i ∧ i < pos + src.length then src.getD (i - pos) 0 else v.get i

/-- The word `((uint32_t *) v)[k]`. -/
def word {n : ℕ} (v : Vector UInt8 n) (k : ℕ) : UInt32 :=
  UInt32.ofNat (leValue ((v.toList.drop (4 * k)).take 4))

/-- `byteReverse`: the words are put together from their bytes and stored. -/
def byteReverse {n : ℕ} (v : Vector UInt8 n) (longs : ℕ) : Vector UInt8 n :=
  (List.range longs).foldl (fun v k =>
    let b i := (v.toList.getD (4 * k + i) 0).toUInt32
    let t := (b 3 <<< 8 ||| b 2) <<< 16 ||| (b 1 <<< 8 ||| b 0)
    memcpy v (4 * k) (leBytes 4 t.toNat)) v

/-! ## `MD5Transform` -/

/-- `uint32_t buf[4]`, and the registers of `MD5Transform`. -/
structure Buf where
  a : UInt32
  b : UInt32
  c : UInt32
  d : UInt32
  deriving DecidableEq, Repr

def Buf.bytes (w : Buf) : Vector UInt8 16 :=
  ⟨(leBytes 4 w.a.toNat ++ leBytes 4 w.b.toNat ++ leBytes 4 w.c.toNat ++ leBytes 4 w.d.toNat).toArray,
    by simp [length_leBytes]⟩

inductive Core where
  | f1 | f2 | f3 | f4
  deriving DecidableEq

def Core.apply : Core → UInt32 → UInt32 → UInt32 → UInt32
  | .f1, x, y, z => z ^^^ (x &&& (y ^^^ z))
  | .f2, x, y, z => y ^^^ (z &&& (x ^^^ y))
  | .f3, x, y, z => x ^^^ y ^^^ z
  | .f4, x, y, z => y ^^^ (x ||| ~~~z)

inductive Register where
  | a | b | c | d
  deriving DecidableEq

/-- The arguments of an `MD5STEP`: the function, the register that is changed (the others follow it in
the order a, b, c, d), the word and the constant that are added, and the shift. -/
structure Step where
  f : Core
  w : Register
  k : ℕ
  const : UInt32
  s : UInt32

def md5Step (f : Core) (w x y z data s : UInt32) : UInt32 :=
  let w := w + (f.apply x y z + data)
  let w := w <<< s ||| w >>> (32 - s)
  w + x

def Step.run (inp : ℕ → UInt32) (r : Buf) (t : Step) : Buf :=
  let data := inp t.k + t.const
  match t.w with
  | .a => { r with a := md5Step t.f r.a r.b r.c r.d data t.s }
  | .d => { r with d := md5Step t.f r.d r.a r.b r.c data t.s }
  | .c => { r with c := md5Step t.f r.c r.d r.a r.b data t.s }
  | .b => { r with b := md5Step t.f r.b r.c r.d r.a data t.s }

def steps : List Step :=
  [⟨.f1, .a, 0, 0xd76aa478, 7⟩, ⟨.f1, .d, 1, 0xe8c7b756, 12⟩, ⟨.f1, .c, 2, 0x242070db, 17⟩, ⟨.f1, .b, 3, 0xc1bdceee, 22⟩,
   ⟨.f1, .a, 4, 0xf57c0faf, 7⟩, ⟨.f1, .d, 5, 0x4787c62a, 12⟩, ⟨.f1, .c, 6, 0xa8304613, 17⟩, ⟨.f1, .b, 7, 0xfd469501, 22⟩,
   ⟨.f1, .a, 8, 0x698098d8, 7⟩, ⟨.f1, .d, 9, 0x8b44f7af, 12⟩, ⟨.f1, .c, 10, 0xffff5bb1, 17⟩, ⟨.f1, .b, 11, 0x895cd7be, 22⟩,
   ⟨.f1, .a, 12, 0x6b901122, 7⟩, ⟨.f1, .d, 13, 0xfd987193, 12⟩, ⟨.f1, .c, 14, 0xa679438e, 17⟩, ⟨.f1, .b, 15, 0x49b40821, 22⟩,
   ⟨.f2, .a, 1, 0xf61e2562, 5⟩, ⟨.f2, .d, 6, 0xc040b340, 9⟩, ⟨.f2, .c, 11, 0x265e5a51, 14⟩, ⟨.f2, .b, 0, 0xe9b6c7aa, 20⟩,
   ⟨.f2, .a, 5, 0xd62f105d, 5⟩, ⟨.f2, .d, 10, 0x02441453, 9⟩, ⟨.f2, .c, 15, 0xd8a1e681, 14⟩, ⟨.f2, .b, 4, 0xe7d3fbc8, 20⟩,
   ⟨.f2, .a, 9, 0x21e1cde6, 5⟩, ⟨.f2, .d, 14, 0xc33707d6, 9⟩, ⟨.f2, .c, 3, 0xf4d50d87, 14⟩, ⟨.f2, .b, 8, 0x455a14ed, 20⟩,
   ⟨.f2, .a, 13, 0xa9e3e905, 5⟩, ⟨.f2, .d, 2, 0xfcefa3f8, 9⟩, ⟨.f2, .c, 7, 0x676f02d9, 14⟩, ⟨.f2, .b, 12, 0x8d2a4c8a, 20⟩,
   ⟨.f3, .a, 5, 0xfffa3942, 4⟩, ⟨.f3, .d, 8, 0x8771f681, 11⟩, ⟨.f3, .c, 11, 0x6d9d6122, 16⟩, ⟨.f3, .b, 14, 0xfde5380c, 23⟩,
   ⟨.f3, .a, 1, 0xa4beea44, 4⟩, ⟨.f3, .d, 4, 0x4bdecfa9, 11⟩, ⟨.f3, .c, 7, 0xf6bb4b60, 16⟩, ⟨.f3, .b, 10, 0xbebfbc70, 23⟩,
   ⟨.f3, .a, 13, 0x289b7ec6, 4⟩, ⟨.f3, .d, 0, 0xeaa127fa, 11⟩, ⟨.f3, .c, 3, 0xd4ef3085, 16⟩, ⟨.f3, .b, 6, 0x04881d05, 23⟩,
   ⟨.f3, .a, 9, 0xd9d4d039, 4⟩, ⟨.f3, .d, 12, 0xe6db99e5, 11⟩, ⟨.f3, .c, 15, 0x1fa27cf8, 16⟩, ⟨.f3, .b, 2, 0xc4ac5665, 23⟩,
   ⟨.f4, .a, 0, 0xf4292244, 6⟩, ⟨.f4, .d, 7, 0x432aff97, 10⟩, ⟨.f4, .c, 14, 0xab9423a7, 15⟩, ⟨.f4, .b, 5, 0xfc93a039, 21⟩,
   ⟨.f4, .a, 12, 0x655b59c3, 6⟩, ⟨.f4, .d, 3, 0x8f0ccc92, 10⟩, ⟨.f4, .c, 10, 0xffeff47d, 15⟩, ⟨.f4, .b, 1, 0x85845dd1, 21⟩,
   ⟨.f4, .a, 8, 0x6fa87e4f, 6⟩, ⟨.f4, .d, 15, 0xfe2ce6e0, 10⟩, ⟨.f4, .c, 6, 0xa3014314, 15⟩, ⟨.f4, .b, 13, 0x4e0811a1, 21⟩,
   ⟨.f4, .a, 4, 0xf7537e82, 6⟩, ⟨.f4, .d, 11, 0xbd3af235, 10⟩, ⟨.f4, .c, 2, 0x2ad7d2bb, 15⟩, ⟨.f4, .b, 9, 0xeb86d391, 21⟩]

/-- The core of the MD5 algorithm: it alters an existing hash to reflect 16 longwords of new data. -/
def md5Transform (buf : Buf) (inp : ℕ → UInt32) : Buf :=
  let r := steps.foldl (Step.run inp) buf
  ⟨buf.a + r.a, buf.b + r.b, buf.c + r.c, buf.d + r.d⟩

/-! ## Contexts -/

structure MD5Context where
  buf : Buf
  bits0 : UInt32
  bits1 : UInt32
  inp : Vector UInt8 64
  deriving DecidableEq

def md5Init (inp : Vector UInt8 64) : MD5Context :=
  ⟨⟨0x67452301, 0xefcdab89, 0x98badcfe, 0x10325476⟩, 0, 0, inp⟩

/-- `byteReverse(ctx->in, 16)` and `MD5Transform(ctx->buf, ctx->in)`. -/
def MD5Context.transform (ctx : MD5Context) : MD5Context :=
  let inp := byteReverse ctx.inp 16
  { ctx with inp := inp, buf := md5Transform ctx.buf (word inp) }

/-- The end of `MD5Update`: data in 64-byte chunks, and the remaining bytes. -/
def md5Chunks (ctx : MD5Context) (buf : Bytes) (len : ℕ) : MD5Context :=
  if 64 ≤ len then
    md5Chunks { ctx with inp := memcpy ctx.inp 0 (buf.take 64) }.transform (buf.drop 64) (len - 64)
  else { ctx with inp := memcpy ctx.inp 0 (buf.take len) }
termination_by len

/-- Update bitcount, with the carry from low to high. -/
def MD5Context.addBits (ctx : MD5Context) (len : UInt32) : MD5Context :=
  let t := ctx.bits0
  let bits0 := t + len <<< 3
  let bits1 := if bits0 < t then ctx.bits1 + 1 else ctx.bits1
  { ctx with bits0 := bits0, bits1 := bits1 + len >>> 29 }

/-- Update context to reflect the concatenation of another buffer full of bytes. -/
def md5Update (ctx : MD5Context) (buf : Bytes) (len : UInt32) : MD5Context :=
  let t := ctx.bits0 >>> 3 &&& 0x3f
  let ctx := ctx.addBits len
  if t ≠ 0 then
    let p := t.toNat
    let t := 64 - t
    if len < t then { ctx with inp := memcpy ctx.inp p (buf.take len.toNat) }
    else
      md5Chunks { ctx with inp := memcpy ctx.inp p (buf.take t.toNat) }.transform (buf.drop t.toNat)
        (len - t).toNat
  else md5Chunks ctx buf len.toNat

/-- The end of `MD5Final`: append length in bits and transform. -/
def MD5Context.finish (ctx : MD5Context) : Vector UInt8 16 :=
  let inp := byteReverse ctx.inp 14
  let inp := memcpy inp 56 (leBytes 4 ctx.bits0.toNat)
  let inp := memcpy inp 60 (leBytes 4 ctx.bits1.toNat)
  byteReverse (md5Transform ctx.buf (word inp)).bytes 4

/-- Final wrapup: pad to 64-byte boundary with the bit pattern 1 0* and the count of bits processed. -/
def md5Final (ctx : MD5Context) : Vector UInt8 16 :=
  let count := (ctx.bits0 >>> 3 &&& 0x3f).toNat
  let inp := memcpy ctx.inp count [0x80]
  let p := count + 1
  let count := 64 - 1 - count
  if count < 8 then
    -- two lots of padding
    let ctx := { ctx with inp := memcpy inp p (List.replicate count 0) }.transform
    { ctx with inp := memcpy ctx.inp 0 (List.replicate 56 0) }.finish
  else { ctx with inp := memcpy inp p (List.replicate (count - 8) 0) }.finish

/-! ## `encode` -/

def hexDigit (n : ℕ) : UInt8 := UInt8.ofNat (if n < 10 then 48 + n else 87 + n)

/-- `out << setw(2) << setfill('0') << hex << int(b)` for each byte. -/
def hexText (bs : Bytes) : Bytes := bs.flatMap fun b => [hexDigit (b.toNat / 16), hexDigit (b.toNat % 16)]

def pass (s : InStream × MD5Context) : (InStream × MD5Context) ⊕ Bytes :=
  if s.1.eofbit then .inr (hexText (md5Final s.2).toList)
  else
    let r := s.1.read 4096
    .inl (r.2, md5Update s.2 r.1 (UInt32.ofNat r.1.length))

/-- What is written for an input; `none` when the loop never ends. -/
def encode (buffer : Vector UInt8 64) (inp : InStream) : Option Bytes :=
  Loop.loop pass (inp.rest.length + 2) (inp, md5Init buffer)

end Dcl.Md5
