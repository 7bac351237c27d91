import Mathlib.Algebra.Order.Ring.Int
import Mathlib.Data.List.TakeWhile
import Mathlib.Tactic.Common

/-! # `std::stringstream` and the machine integers its positions are kept in

A string stream is its buffer, cut at the get position into `taken` and `rest`, with the three
state bits. Writing always happens at the end of the buffer, so the put position is not stored.
Cutting the buffer this way leaves no value whose get position is outside the buffer.

The operations are those of the C++11 standard library:

* `getline` sets eofbit when it runs into the end, and failbit too when it extracted nothing;
* `seekg` clears eofbit first and does nothing further when failbit or badbit is set;
* `tellg` on a stream that is not good sets failbit and answers `-1`;
* an extraction from a stream that is not good yields nothing and sets failbit;
* an insertion into a stream that is not good has no effect.

Positions are integers (`std::streamoff`); `toInt32` and `toSize` are the conversions to `int` and
to a 64-bit `size_t` that code applies to them.
-/
namespace Dcl
set_option autoImplicit false

abbrev Bytes := List UInt8

def ascii (s : String) : Bytes := s.toList.map fun c => UInt8.ofNat c.toNat

/-- What holds of the 256 values holds of every byte. -/
theorem forall_byte {P : UInt8 → Prop} (h : ∀ n < 256, P (UInt8.ofNat n)) (c : UInt8) : P c := by
  have hc := h c.toNat c.toNat_lt
  rwa [UInt8.ofNat_toNat] at hc

def LF : UInt8 := 10

/-! ## Texts cut at a delimiter -/

section Cut
variable {α : Type*} [BEq α] [LawfulBEq α] {a : List α} {d : α}

theorem forall_mem_bne (h : d ∉ a) : ∀ c ∈ a, (c != d) = true := by
  intro c hc
  rw [bne_iff_ne]
  exact fun hcd => h (hcd ▸ hc)

theorem takeWhile_bne_append (h : d ∉ a) (b : List α) : (a ++ d :: b).takeWhile (· != d) = a := by
  rw [List.takeWhile_append_of_pos (forall_mem_bne h), List.takeWhile_cons_of_neg (by simp),
    List.append_nil]

theorem dropWhile_bne_append (h : d ∉ a) (b : List α) :
    (a ++ d :: b).dropWhile (· != d) = d :: b := by
  rw [List.dropWhile_append_of_pos (forall_mem_bne h), List.dropWhile_cons_of_neg (by simp)]

theorem takeWhile_bne_self (h : d ∉ a) : a.takeWhile (· != d) = a :=
  List.takeWhile_eq_self_iff.mpr (forall_mem_bne h)

end Cut

/-! ## Machine integers -/

def toInt32 (z : ℤ) : ℤ := z.bmod (2 ^ 32)

def toSize (z : ℤ) : ℕ := (z % 2 ^ 64).toNat

theorem toInt32_of_lt {n : ℕ} (h : n < 2 ^ 31) : toInt32 n = n := by
  unfold toInt32
  rw [Int.bmod_def]
  omega

theorem toInt32_lt (z : ℤ) : toInt32 z < 2 ^ 31 := by
  unfold toInt32
  rw [Int.bmod_def]
  omega

theorem toInt32_eq_zero_iff {n : ℕ} : toInt32 n = 0 ↔ n % 2 ^ 32 = 0 := by
  unfold toInt32
  rw [Int.bmod_def]
  omega

theorem toInt32_neg_one : toInt32 (-1) = -1 := by decide

theorem toSize_of_lt {n : ℕ} (h : n < 2 ^ 64) : toSize n = n := by
  unfold toSize
  omega

theorem toSize_toSize (z : ℤ) : toSize (toSize z) = toSize z := by
  unfold toSize
  omega

/-- A size that is positive as an `int` is at most the size. -/
theorem toInt32_toSize_le {n : ℕ} (h : 0 < toInt32 (toSize n)) : toInt32 (toSize n) ≤ n := by
  unfold toInt32 toSize at *
  rw [Int.bmod_def] at *
  omega

/-! ## String streams -/

structure StringStream where
  taken : Bytes
  rest : Bytes
  eofbit : Bool
  failbit : Bool
  badbit : Bool
  deriving DecidableEq, Repr

namespace StringStream

def empty : StringStream := ⟨[], [], false, false, false⟩

def good (s : StringStream) : Bool := !s.eofbit && !s.failbit && !s.badbit

def fail (s : StringStream) : Bool := s.failbit || s.badbit

def data (s : StringStream) : Bytes := s.taken ++ s.rest

def clear (s : StringStream) : StringStream :=
  { s with eofbit := false, failbit := false, badbit := false }

def setEof (s : StringStream) : StringStream := { s with eofbit := true }

def setFail (s : StringStream) : StringStream := { s with failbit := true }

def setBad (s : StringStream) : StringStream := { s with badbit := true }

def tellg (s : StringStream) : ℤ × StringStream :=
  if s.good then (s.taken.length, s) else (-1, s.setFail)

def tellp (s : StringStream) : ℤ := if s.fail then -1 else s.data.length

/-- The buffer's own seek: a position outside the buffer fails. -/
def seekTo (s : StringStream) (pos : ℤ) : StringStream :=
  if 0 ≤ pos ∧ pos ≤ s.data.length then
    { s with taken := s.data.take pos.toNat, rest := s.data.drop pos.toNat }
  else s.setFail

def seekg (s : StringStream) (pos : ℤ) : StringStream :=
  if s.fail then { s with eofbit := false }.setFail else { s with eofbit := false }.seekTo pos

def seekgEnd (s : StringStream) : StringStream := s.seekg s.data.length

def seekgCur (s : StringStream) (off : ℤ) : StringStream := s.seekg (s.taken.length + off)

/-- `std::getline` up to a line feed, which is extracted and not stored. -/
def getline (s : StringStream) : Bytes × StringStream :=
  if s.good then
    let line := s.rest.takeWhile (· != LF)
    match s.rest.dropWhile (· != LF) with
    | [] => (line, { s with taken := s.taken ++ line, rest := [], eofbit := true,
                            failbit := line.isEmpty })
    | lf :: tail => (line, { s with taken := s.taken ++ line ++ [lf], rest := tail })
  else ([], s.setFail)

def read (s : StringStream) (n : ℕ) : Bytes × StringStream :=
  if s.good then
    if n ≤ s.rest.length then
      (s.rest.take n, { s with taken := s.taken ++ s.rest.take n, rest := s.rest.drop n })
    else (s.rest, { s with taken := s.taken ++ s.rest, rest := [], eofbit := true, failbit := true })
  else ([], s.setFail)

def insert (s : StringStream) (w : Bytes) : StringStream :=
  if s.good then { s with rest := s.rest ++ w } else s

/-- `str(string())`: the buffer is replaced, the state bits stay. -/
def discard (s : StringStream) : StringStream := { s with taken := [], rest := [] }

/-! ## State bits -/

theorem good_iff {s : StringStream} :
    s.good = true ↔ s.eofbit = false ∧ s.failbit = false ∧ s.badbit = false := by
  simp [good, and_assoc]

@[simp] theorem good_clear (s : StringStream) : s.clear.good = true := rfl

theorem tellg_not_good {s : StringStream} (h : s.good = false) : s.tellg = (-1, s.setFail) := by
  simp [tellg, h]

theorem insert_good {s : StringStream} (h : s.good = true) (w : Bytes) :
    s.insert w = { s with rest := s.rest ++ w } := by
  simp [insert, h]

theorem insert_not_good {s : StringStream} (h : s.good = false) (w : Bytes) : s.insert w = s := by
  simp [insert, h]

theorem seekg_failed {s : StringStream} (h : s.failbit = true) (pos : ℤ) :
    s.seekg pos = { s with eofbit := false } := by
  simp [seekg, fail, h, setFail]

theorem read_good {s : StringStream} (h : s.good = true) {n : ℕ} (hn : n ≤ s.rest.length) :
    s.read n = (s.rest.take n,
      { s with taken := s.taken ++ s.rest.take n, rest := s.rest.drop n }) := by
  simp [read, h, hn]

theorem tellg_rest (s : StringStream) : s.tellg.2.rest = s.rest := by
  unfold tellg
  split <;> rfl

theorem tellg_eofbit (s : StringStream) : s.tellg.2.eofbit = s.eofbit := by
  unfold tellg
  split <;> rfl

/-- A line that was read took at least its line feed from the stream. -/
theorem getline_rest (s : StringStream) (he : s.getline.2.eofbit = false) :
    s.getline = ([], s.setFail) ∨ s.getline.2.rest.length < s.rest.length := by
  unfold getline at *
  split at he
  next hg =>
    rw [if_pos hg]
    cases hd : s.rest.dropWhile (· != LF) with
    | nil => simp [hd] at he
    | cons c t =>
      right
      have hlen := congrArg List.length (List.takeWhile_append_dropWhile (p := (· != LF)) (l := s.rest))
      rw [List.length_append, hd, List.length_cons] at hlen
      simp only
      omega
  next hg =>
    rw [if_neg hg]
    exact .inl rfl

theorem getline_rest_le (s : StringStream) (he : s.getline.2.eofbit = false) :
    s.getline.2.rest.length ≤ s.rest.length := by
  obtain h | h := s.getline_rest he
  · rw [h]
    rfl
  · exact h.le

theorem read_rest_le (s : StringStream) (n : ℕ) : (s.read n).2.rest.length ≤ s.rest.length := by
  unfold read
  split
  · split <;> simp
  · rfl

/-! ## Operations on a good stream

A good stream is its buffer, cut at the get position. -/

def cut (l r : Bytes) : StringStream := ⟨l, r, false, false, false⟩

theorem eq_cut {s : StringStream} (h : s.good = true) : s = cut s.taken s.rest := by
  obtain ⟨he, hf, hb⟩ := good_iff.mp h
  cases s
  simp_all [cut]

@[simp] theorem good_cut (l r : Bytes) : (cut l r).good = true := rfl

@[simp] theorem cut_taken (l r : Bytes) : (cut l r).taken = l := rfl

@[simp] theorem cut_rest (l r : Bytes) : (cut l r).rest = r := rfl

@[simp] theorem cut_eofbit (l r : Bytes) : (cut l r).eofbit = false := rfl

@[simp] theorem cut_data (l r : Bytes) : (cut l r).data = l ++ r := rfl

theorem clear_eq_cut (s : StringStream) : s.clear = cut s.taken s.rest := rfl

theorem tellg_cut (l r : Bytes) : (cut l r).tellg = ((l.length : ℤ), cut l r) := rfl

theorem tellp_cut (l r : Bytes) : (cut l r).tellp = ((l ++ r).length : ℤ) := rfl

theorem insert_cut (l r w : Bytes) : (cut l r).insert w = cut l (r ++ w) := rfl

/-- A seek inside the buffer cuts it at the new position. -/
theorem seekg_cut {l r l' r' : Bytes} (h : l ++ r = l' ++ r') :
    (cut l r).seekg l'.length = cut l' r' := by
  have hr : (0 : ℤ) ≤ (l'.length : ℤ) ∧ (l'.length : ℤ) ≤ ((l ++ r).length : ℤ) := by
    rw [h, List.length_append]
    omega
  have hseek : (cut l r).seekg l'.length = (cut l r).seekTo l'.length := rfl
  rw [hseek, seekTo, cut_data, if_pos hr, h]
  simp [cut]

theorem seekgEnd_cut (l r : Bytes) : (cut l r).seekgEnd = cut (l ++ r) [] := by
  rw [seekgEnd, cut_data]
  exact seekg_cut (by simp)

theorem read_cut (l a r : Bytes) : (cut l (a ++ r)).read a.length = (a, cut (l ++ a) r) := by
  rw [read_good (good_cut l (a ++ r)) (by simp)]
  simp [cut]

theorem getline_cut {a : Bytes} (ha : LF ∉ a) (l t : Bytes) :
    (cut l (a ++ LF :: t)).getline = (a, cut (l ++ a ++ [LF]) t) := by
  simp only [getline, good_cut, if_true, cut_rest, takeWhile_bne_append ha, dropWhile_bne_append ha]
  rfl

/-- `getline` on a stream whose rest holds no line feed takes it all and sets eofbit. -/
theorem getline_cut_end {r : Bytes} (hr : LF ∉ r) (l : Bytes) :
    (cut l r).getline = (r, ⟨l ++ r, [], true, r.isEmpty, false⟩) := by
  have hdrop : r.dropWhile (· != LF) = [] := List.dropWhile_eq_nil_iff.mpr (forall_mem_bne hr)
  simp only [getline, good_cut, if_true, cut_rest, takeWhile_bne_self hr, hdrop]
  rfl

end StringStream

end Dcl
