import Dcl.Foundations.Absorb
import Dcl.Foundations.LittleEndian

/-! # The MD5 message-digest algorithm

RFC 1321, on messages of whole bytes: padding, the four auxiliary functions, the sixteen operations of
each of the four rounds, and the digest. The table `T` is the one of the reference implementation; that
its entries are the integer parts of 2^32 times the absolute sine is in `Dcl.Codec.SineTable`. -/
namespace Dcl.Rfc1321
set_option autoImplicit false

structure Words where
  a : UInt32
  b : UInt32
  c : UInt32
  d : UInt32
  deriving DecidableEq, Repr

/-! ## Padding -/

/-- A one bit, zeros up to 448 modulo 512, and the length in bits, modulo 2^64, low-order word first. -/
def padding (n : ℕ) : Bytes :=
  0x80 :: List.replicate ((119 - n % 64) % 64) 0 ++ leBytes 8 (8 * n)

def pad (m : Bytes) : Bytes := m ++ padding m.length

/-! ## Processing a block of sixteen words -/

def F (x y z : UInt32) : UInt32 := (x &&& y) ||| (~~~x &&& z)

def G (x y z : UInt32) : UInt32 := (x &&& z) ||| (y &&& ~~~z)

def H (x y z : UInt32) : UInt32 := x ^^^ y ^^^ z

def I (x y z : UInt32) : UInt32 := y ^^^ (x ||| ~~~z)

/-- The table `T[1 ... 64]`. -/
def T : List UInt32 :=
  [0xd76aa478, 0xe8c7b756, 0x242070db, 0xc1bdceee, 0xf57c0faf, 0x4787c62a, 0xa8304613, 0xfd469501,
   0x698098d8, 0x8b44f7af, 0xffff5bb1, 0x895cd7be, 0x6b901122, 0xfd987193, 0xa679438e, 0x49b40821,
   0xf61e2562, 0xc040b340, 0x265e5a51, 0xe9b6c7aa, 0xd62f105d, 0x02441453, 0xd8a1e681, 0xe7d3fbc8,
   0x21e1cde6, 0xc33707d6, 0xf4d50d87, 0x455a14ed, 0xa9e3e905, 0xfcefa3f8, 0x676f02d9, 0x8d2a4c8a,
   0xfffa3942, 0x8771f681, 0x6d9d6122, 0xfde5380c, 0xa4beea44, 0x4bdecfa9, 0xf6bb4b60, 0xbebfbc70,
   0x289b7ec6, 0xeaa127fa, 0xd4ef3085, 0x04881d05, 0xd9d4d039, 0xe6db99e5, 0x1fa27cf8, 0xc4ac5665,
   0xf4292244, 0x432aff97, 0xab9423a7, 0xfc93a039, 0x655b59c3, 0x8f0ccc92, 0xffeff47d, 0x85845dd1,
   0x6fa87e4f, 0xfe2ce6e0, 0xa3014314, 0x4e0811a1, 0xf7537e82, 0xbd3af235, 0x2ad7d2bb, 0xeb86d391]

def auxiliary : ℕ → UInt32 → UInt32 → UInt32 → UInt32
  | 0 => F
  | 1 => G
  | 2 => H
  | _ => I

/-- The word that is added in operation `i`, counted from 0: in order, and then in steps of 5, 3, 7. -/
def wordIndex (i : ℕ) : ℕ :=
  match i / 16 with
  | 0 => i
  | 1 => (5 * i + 1) % 16
  | 2 => (3 * i + 5) % 16
  | _ => 7 * i % 16

def rotation (i : ℕ) : ℕ :=
  match i / 16 with
  | 0 => [7, 12, 17, 22].getD (i % 4) 0
  | 1 => [5, 9, 14, 20].getD (i % 4) 0
  | 2 => [4, 11, 16, 23].getD (i % 4) 0
  | _ => [6, 10, 15, 21].getD (i % 4) 0

/-- `X <<< s` of the RFC, a circular shift. -/
def rotateLeft (x : UInt32) (s : ℕ) : UInt32 := ⟨x.toBitVec.rotateLeft s⟩

/-- `[abcd k s i]` of the RFC: `a = b + ((a + f(b,c,d) + X[k] + T[i]) <<< s)`. -/
def operation (f : UInt32 → UInt32 → UInt32 → UInt32) (a b c d x t : UInt32) (s : ℕ) : UInt32 :=
  b + rotateLeft (a + f b c d + x + t) s

/-- Operation `i` on the four words, which change places from one operation to the next. -/
def operate (x : ℕ → UInt32) (w : Words) (i : ℕ) : Words :=
  let op a b c d := operation (auxiliary (i / 16)) a b c d (x (wordIndex i)) (T.getD i 0) (rotation i)
  match i % 4 with
  | 0 => { w with a := op w.a w.b w.c w.d }
  | 1 => { w with d := op w.d w.a w.b w.c }
  | 2 => { w with c := op w.c w.d w.a w.b }
  | _ => { w with b := op w.b w.c w.d w.a }

def word (block : Bytes) (k : ℕ) : UInt32 := UInt32.ofNat (leValue ((block.drop (4 * k)).take 4))

def processBlock (w : Words) (block : Bytes) : Words :=
  let r := (List.range 64).foldl (operate (word block)) w
  ⟨w.a + r.a, w.b + r.b, w.c + r.c, w.d + r.d⟩

/-! ## The digest -/

def initial : Words := ⟨0x67452301, 0xefcdab89, 0x98badcfe, 0x10325476⟩

def Words.bytes (w : Words) : Bytes :=
  leBytes 4 w.a.toNat ++ leBytes 4 w.b.toNat ++ leBytes 4 w.c.toNat ++ leBytes 4 w.d.toNat

def digest (m : Bytes) : Bytes := (absorb processBlock 64 initial (pad m)).1.bytes

end Dcl.Rfc1321
