import Dcl.Codec.Md5
import Dcl.Strutils.Numerals

/-! # `uuid`

`include/dcl/uuid.h` and `src/dcl/uuid.cpp`: the 16 bytes, their text and the scanner that reads a text. The scanner
takes every string, whatever stands between the hexadecimal digits; it keeps the length of the string in an `int`.
`generate` is left out. -/
namespace Dcl.Values
set_option autoImplicit false

/-- `_data`. -/
abbrev Uuid := Vector UInt8 16

namespace Uuid

/-! ## The class -/

def clear : Uuid := Vector.replicate 16 0

/-- `operator==`: `std::equal`. -/
def equal (u v : Uuid) : Bool := u.toList == v.toList

/-- `operator<`: `std::lexicographical_compare`. -/
def less (u v : Uuid) : Bool := decide (u.toList < v.toList)

/-- `_data[j] = strtol(buf.c_str(), NULL, 16)`; `none` is a write outside `_data`. -/
def store (data : Uuid) (j : ℕ) (buf : Bytes) : Option Uuid :=
  if h : j < 16 then some (data.set j (UInt8.ofNat (strtol buf 16).toNat)) else none

/-- The loop of `assign` on the characters that are left, and what follows it. -/
def scan : Bytes → Uuid → Bytes → ℕ → Option Uuid
  | [], data, buf, j => if buf.isEmpty then some data else data.store j buf
  | c :: cs, data, buf, j =>
      if isxdigit c then
        if (buf ++ [c]).length = 2 then
          (data.store j (buf ++ [c])).bind fun data => if j + 1 = 16 then some data else scan cs data [] (j + 1)
        else scan cs data (buf ++ [c]) j
      else scan cs data buf j

/-- How many characters `assign` reads: the length as an `int`. -/
def scanned (value : Bytes) : ℕ := (toInt32 value.length).toNat

/-- `assign`, which clears the data first. -/
def assign (value : Bytes) : Option Uuid := scan (value.take (scanned value)) clear [] 0

/-- The loop of `str` from the byte `i` on. -/
def strFrom : ℕ → Bytes → Bytes
  | _, [] => []
  | i, b :: bs =>
      Md5.hexText [b] ++ (if i = 3 ∨ i = 5 ∨ i = 7 ∨ i = 9 then [45] else []) ++ strFrom (i + 1) bs

def str (u : Uuid) : Bytes := strFrom 0 u.toList

/-! ## The bytes that digits stand for -/

/-- `k` bytes from a string of hexadecimal digits: a byte for each pair, one for an odd last digit, and zeros. -/
def bytesOf : ℕ → Bytes → Bytes
  | 0, _ => []
  | k + 1, [] => 0 :: bytesOf k []
  | k + 1, [a] => UInt8.ofNat (digitOf a) :: bytesOf k []
  | k + 1, a :: b :: ds => UInt8.ofNat (digitOf a * 16 + digitOf b) :: bytesOf k ds

theorem bytesOf_nil (k : ℕ) : bytesOf k [] = List.replicate k 0 := by
  induction k with
  | zero => rfl
  | succ k ih => rw [bytesOf, ih, List.replicate_succ]

/-! ## Reading -/

theorem isxdigit_spec : ∀ c : UInt8, isxdigit c = true → isspace c = false ∧ c ≠ 45 ∧ c ≠ 43 ∧ c ≠ 120 ∧
    c ≠ 88 ∧ digitOf c < 16 ∧ (digitOf c = 0 → c = 48) :=
  forall_byte (by decide +kernel)

/-- `strtol` on the one or two digits of `buf`. -/
theorem strtol_buf {a : UInt8} {t : Bytes} (ha : isxdigit a = true) (ht : ∀ b ∈ t, isxdigit b = true)
    (hlen : t.length ≤ 1) : strtol (a :: t) 16 = (valueIn 16 (a :: t) : ℕ) := by
  obtain ⟨hspace, hminus, hplus, -, -, ha16, -⟩ := isxdigit_spec a ha
  have hdigit : ∀ b ∈ t, digitOf b < 16 := fun b hb => (isxdigit_spec b (ht b hb)).2.2.2.2.2.1
  have hx : ∀ x : UInt8, isxdigit x = false → ((a :: t)[1]? == some x) = false := by
    intro x hx
    rw [beq_eq_false_iff_ne]
    intro h1
    rw [List.getElem?_cons_succ] at h1
    rw [ht x (List.mem_of_getElem? h1)] at hx
    cases hx
  have hall : (a :: t).takeWhile (fun c => decide (digitOf c < 16)) = a :: t := by
    refine List.takeWhile_eq_self_iff.mpr fun c hc => ?_
    obtain rfl | hc := List.mem_cons.mp hc
    · exact decide_eq_true ha16
    · exact decide_eq_true (hdigit c hc)
  have hvalue : valueIn 16 (a :: t) < 256 := by
    match t with
    | [] =>
      simp only [valueIn, List.foldl_cons, List.foldl_nil]
      omega
    | [b] =>
      have := hdigit b (by simp)
      simp only [valueIn, List.foldl_cons, List.foldl_nil]
      omega
    | _ :: _ :: _ => simp at hlen
  have hdrop : (a :: t).dropWhile isspace = a :: t := by simp [hspace]
  have hneg : ((a :: t).head? == some 45) = false := by simp [hminus]
  have hpos : ((a :: t).head? == some 43) = false := by simp [hplus]
  simp only [strtol, hdrop, hneg, hpos, hx 120 (by decide), hx 88 (by decide), Bool.or_self, Bool.and_false,
    Bool.false_and, Bool.false_eq_true, if_false, ne_eq, OfNat.ofNat_ne_zero, not_false_eq_true, if_true, hall]
  refine min_eq_left ?_
  unfold valueIn at hvalue
  omega

theorem store_eq {data : Uuid} {done t : Bytes} {a : UInt8} {j : ℕ} (hj : j < 16)
    (hdata : data.toList = done ++ List.replicate (16 - j) 0) (hdone : done.length = j)
    (ha : isxdigit a = true) (ht : ∀ b ∈ t, isxdigit b = true) (hlen : t.length ≤ 1) :
    ∃ data', data.store j (a :: t) = some data' ∧
      data'.toList = done ++ [UInt8.ofNat (valueIn 16 (a :: t))] ++ List.replicate (16 - (j + 1)) 0 := by
  refine ⟨_, dif_pos hj, ?_⟩
  have hsub : 16 - j = 16 - (j + 1) + 1 := by omega
  rw [strtol_buf ha ht hlen, Int.toNat_natCast, Vector.toList_set hj, hdata, hsub, List.replicate_succ, ← hdone,
    List.set_append_right _ _ (Nat.le_refl _), Nat.sub_self, List.set_cons_zero, List.append_assoc,
    List.singleton_append]

/-- The scanner writes the bytes of `buf` and the digits that are left behind the `j` bytes it has written. -/
theorem scan_eq (cs : Bytes) {data : Uuid} {done buf : Bytes} {j : ℕ} (hj : j < 16)
    (hdata : data.toList = done ++ List.replicate (16 - j) 0) (hdone : done.length = j)
    (hbuf : ∀ a ∈ buf, isxdigit a = true) (hlen : buf.length ≤ 1) :
    ∃ r, scan cs data buf j = some r ∧ r.toList = done ++ bytesOf (16 - j) (buf ++ cs.filter isxdigit) := by
  have hsub : 16 - j = 16 - (j + 1) + 1 := by omega
  induction cs generalizing data done buf j with
  | nil =>
    match buf, hlen with
    | [], _ => exact ⟨data, rfl, by rw [hdata, List.filter_nil, List.append_nil, bytesOf_nil]⟩
    | [a], _ =>
      obtain ⟨data', hstore, hdata'⟩ := store_eq hj hdata hdone (hbuf a (by simp)) (t := []) (by simp) (by simp)
      refine ⟨data', hstore, ?_⟩
      rw [hdata', hsub, List.filter_nil, List.append_nil, bytesOf, bytesOf_nil]
      simp [valueIn]
  | cons c cs ih =>
    by_cases hc : isxdigit c = true
    · rw [List.filter_cons_of_pos hc, scan, if_pos hc]
      match buf, hlen with
      | [], _ =>
        rw [if_neg (by simp)]
        exact ih hj hdata hdone (by simpa using hc) (by simp) hsub
      | [a], _ =>
        obtain ⟨data', hstore, hdata'⟩ :=
          store_eq hj hdata hdone (hbuf a (by simp)) (t := [c]) (by simpa using hc) (by simp)
        have hvalue : valueIn 16 [a, c] = digitOf a * 16 + digitOf c := by simp [valueIn]
        rw [if_pos (show ([a] ++ [c]).length = 2 from rfl), List.singleton_append, hstore, Option.bind_some, hsub, List.singleton_append, bytesOf]
        rw [hvalue] at hdata'
        by_cases hlast : j + 1 = 16
        · -- the sixteenth byte: the digits that are left do not count
          refine ⟨data', if_pos hlast, ?_⟩
          rw [hdata', hlast]
          simp [bytesOf]
        · rw [if_neg hlast]
          obtain ⟨r, hr, hlist⟩ := @ih data' _ [] (j + 1) (by omega) hdata'
            (by rw [List.length_append, hdone, List.length_singleton]) (by simp) (by simp) (by omega)
          refine ⟨r, hr, ?_⟩
          rw [hlist, List.nil_append]
          simp
    · rw [List.filter_cons_of_neg hc, scan, if_neg hc]
      exact ih hj hdata hdone hbuf hlen hsub

theorem assign_eq (value : Bytes) : ∃ r, assign value = some r ∧
    r.toList = bytesOf 16 ((value.take (scanned value)).filter isxdigit) := by
  obtain ⟨r, hr, hlist⟩ := @scan_eq (value.take (scanned value)) clear [] [] 0
    (by decide) Vector.toList_replicate rfl (by simp) (by simp)
  rw [List.nil_append, List.nil_append, Nat.sub_zero] at hlist
  exact ⟨r, by rw [assign, hr], hlist⟩

theorem take_scanned {value : Bytes} (h : value.length < 2 ^ 31) : value.take (scanned value) = value := by
  rw [scanned, toInt32_of_lt h, Int.toNat_natCast, List.take_length]

/-! ## Writing and reading back -/

theorem hexDigit_spec {n : ℕ} (h : n < 16) :
    isxdigit (Md5.hexDigit n) = true ∧ digitOf (Md5.hexDigit n) = n := by
  have hall : ∀ n : Fin 16, isxdigit (Md5.hexDigit n) = true ∧ digitOf (Md5.hexDigit n) = n := by
    decide +kernel
  exact hall ⟨n, h⟩

theorem hexDigit_lt_iff {n m : ℕ} (hn : n < 16) (hm : m < 16) : Md5.hexDigit n < Md5.hexDigit m ↔ n < m := by
  have hall : ∀ n m : Fin 16, Md5.hexDigit n < Md5.hexDigit m ↔ (n : ℕ) < m := by decide +kernel
  exact hall ⟨n, hn⟩ ⟨m, hm⟩

theorem nibbles (b : UInt8) : b.toNat / 16 < 16 ∧ b.toNat % 16 < 16 := by
  have := b.toNat_lt
  omega

theorem filter_strFrom (i : ℕ) (bs : Bytes) : (strFrom i bs).filter isxdigit = Md5.hexText bs := by
  induction bs generalizing i with
  | nil => rfl
  | cons b bs ih =>
    obtain ⟨h1, h2⟩ := nibbles b
    have hdash : (if i = 3 ∨ i = 5 ∨ i = 7 ∨ i = 9 then ([45] : Bytes) else []).filter isxdigit = [] := by
      split <;> rfl
    rw [strFrom, List.filter_append, List.filter_append, ih, hdash, List.append_nil]
    simp only [Md5.hexText, List.flatMap_cons, List.flatMap_nil, List.append_nil]
    rw [List.filter_cons_of_pos (hexDigit_spec h1).1, List.filter_cons_of_pos (hexDigit_spec h2).1]
    rfl

theorem bytesOf_hexText (bs : Bytes) : bytesOf bs.length (Md5.hexText bs) = bs := by
  induction bs with
  | nil => rfl
  | cons b bs ih =>
    obtain ⟨h1, h2⟩ := nibbles b
    have htext : Md5.hexText (b :: bs) =
        Md5.hexDigit (b.toNat / 16) :: Md5.hexDigit (b.toNat % 16) :: Md5.hexText bs := rfl
    have hbyte : UInt8.ofNat (b.toNat / 16 * 16 + b.toNat % 16) = b := by
      rw [Nat.div_add_mod', UInt8.ofNat_toNat]
    rw [htext, List.length_cons, bytesOf, (hexDigit_spec h1).2, (hexDigit_spec h2).2, hbyte, ih]

theorem length_strFrom_le (i : ℕ) (bs : Bytes) : (strFrom i bs).length ≤ 3 * bs.length := by
  induction bs generalizing i with
  | nil => exact Nat.le_refl _
  | cons b bs ih =>
    have := ih (i + 1)
    have hdash : (if i = 3 ∨ i = 5 ∨ i = 7 ∨ i = 9 then ([45] : Bytes) else []).length ≤ 1 := by
      split <;> simp
    simp only [strFrom, Md5.hexText, List.length_append, List.length_cons, List.length_flatMap] at hdash ⊢
    simp
    omega

/-- What `str` writes is read back. -/
theorem assign_str (u : Uuid) : assign u.str = some u := by
  have hlen : u.toList.length = 16 := Vector.length_toList
  have hshort : u.str.length < 2 ^ 31 := by
    have := length_strFrom_le 0 u.toList
    unfold str
    omega
  obtain ⟨r, hr, hlist⟩ := assign_eq u.str
  have hbytes := bytesOf_hexText u.toList
  rw [hlen] at hbytes
  rw [take_scanned hshort, str, filter_strFrom, hbytes] at hlist
  rw [hr, Vector.toList_inj.mp hlist]

/-! ## Order -/

/-- Texts of the same length in front decide first. -/
theorem append_lt_append_iff {x y s t : Bytes} (h : x.length = y.length) :
    x ++ s < y ++ t ↔ x < y ∨ x = y ∧ s < t := by
  induction x generalizing y with
  | nil =>
    rw [List.eq_nil_of_length_eq_zero h.symm]
    simp
  | cons a x ih =>
    cases y with
    | nil => simp at h
    | cons b y =>
      rw [List.cons_append, List.cons_append, List.cons_lt_cons_iff, List.cons_lt_cons_iff,
        ih (by simpa using h), List.cons.injEq]
      tauto

theorem hexText_lt_iff (a b : UInt8) : Md5.hexText [a] < Md5.hexText [b] ↔ a < b := by
  obtain ⟨ha1, ha2⟩ := nibbles a
  obtain ⟨hb1, hb2⟩ := nibbles b
  have heq : Md5.hexDigit (a.toNat / 16) = Md5.hexDigit (b.toNat / 16) ↔ a.toNat / 16 = b.toNat / 16 := by
    refine ⟨fun h => ?_, fun h => by rw [h]⟩
    rw [← (hexDigit_spec ha1).2, ← (hexDigit_spec hb1).2, h]
  have htext : ∀ c : UInt8, Md5.hexText [c] = [Md5.hexDigit (c.toNat / 16), Md5.hexDigit (c.toNat % 16)] :=
    fun _ => rfl
  rw [htext, htext, List.cons_lt_cons_iff, List.cons_lt_cons_iff, hexDigit_lt_iff ha1 hb1,
    hexDigit_lt_iff ha2 hb2, heq, UInt8.lt_iff_toNat_lt]
  simp only [List.not_lt_nil, and_false, or_false]
  omega

theorem strFrom_lt_iff {i : ℕ} {xs ys : Bytes} (h : xs.length = ys.length) :
    strFrom i xs < strFrom i ys ↔ xs < ys := by
  induction xs generalizing i ys with
  | nil =>
    rw [List.eq_nil_of_length_eq_zero h.symm]
    simp
  | cons a xs ih =>
    cases ys with
    | nil => simp at h
    | cons b ys =>
      have hlen : ∀ c : UInt8, (Md5.hexText [c]).length = 2 := fun _ => rfl
      have heq : Md5.hexText [a] = Md5.hexText [b] ↔ a = b := by
        refine ⟨fun hab => ?_, fun hab => by rw [hab]⟩
        have ha := bytesOf_hexText [a]
        rw [hab] at ha
        exact (List.cons.inj (ha.symm.trans (bytesOf_hexText [b]))).1
      rw [strFrom, strFrom, List.append_assoc, List.append_assoc,
        append_lt_append_iff (by rw [hlen, hlen]), append_lt_append_iff rfl, hexText_lt_iff, heq,
        ih (by simpa using h), List.cons_lt_cons_iff, and_iff_right rfl]
      have hself : ∀ x : Bytes, ¬ x < x := List.lt_irrefl
      simp only [hself, false_or]

theorem less_iff (u v : Uuid) : u.less v = true ↔ u.str < v.str := by
  rw [less, decide_eq_true_iff, str, str, strFrom_lt_iff (by simp)]

theorem equal_iff (u v : Uuid) : u.equal v = true ↔ u.str = v.str := by
  rw [equal, beq_iff_eq, Vector.toList_inj]
  refine ⟨fun h => by rw [h], fun h => ?_⟩
  have hu := assign_str u
  rw [h, assign_str] at hu
  exact (Option.some.inj hu).symm

/-! ## The characters that are not read -/

theorem ofNat_eq_iff {a b : ℕ} (ha : a < 256) (hb : b < 256) : UInt8.ofNat a = UInt8.ofNat b ↔ a = b := by
  rw [← UInt8.toNat_inj, UInt8.toNat_ofNat_of_lt' ha, UInt8.toNat_ofNat_of_lt' hb]

/-- Digits that are all zero. -/
theorem bytesOf_eq_zeros_iff (k : ℕ) (ds : Bytes) (hds : ∀ c ∈ ds, digitOf c < 16) :
    bytesOf k ds = bytesOf k [] ↔ ∀ c ∈ ds.take (2 * k), digitOf c = 0 := by
  induction k generalizing ds with
  | zero => simp [bytesOf]
  | succ k ih =>
    match ds with
    | [] => simp
    | [a] =>
      have ha := hds a (by simp)
      have hzero : UInt8.ofNat (digitOf a) = 0 ↔ digitOf a = 0 := ofNat_eq_iff (b := 0) (by omega) (by omega)
      rw [bytesOf, bytesOf, List.cons.injEq, and_iff_left rfl, hzero]
      simp [Nat.mul_succ]
    | a :: b :: ds =>
      have ha := hds a (by simp)
      have hb := hds b (by simp)
      have hzero : UInt8.ofNat (digitOf a * 16 + digitOf b) = 0 ↔ digitOf a = 0 ∧ digitOf b = 0 := by
        rw [show (0 : UInt8) = UInt8.ofNat 0 from rfl, ofNat_eq_iff (by omega) (by omega)]
        omega
      rw [bytesOf, bytesOf, List.cons.injEq, hzero, ih ds fun c hc => hds c (by simp [hc])]
      simp [Nat.mul_succ, and_assoc]

/-- Digits behind the first ones do not count when there is no place for them, or when they are zeros and none of
them makes a pair with a digit that is not. -/
theorem bytesOf_append_iff (k : ℕ) (read lost : Bytes) (hread : ∀ c ∈ read, digitOf c < 16)
    (hlost : ∀ c ∈ lost, digitOf c < 16) :
    bytesOf k read = bytesOf k (read ++ lost) ↔
      lost.take (2 * k - read.length) = [] ∨
      (∀ c ∈ lost.take (2 * k - read.length), digitOf c = 0) ∧
        (read.length % 2 = 1 → ∀ d ∈ read.getLast?, digitOf d = 0) := by
  induction k generalizing read with
  | zero => simp [bytesOf]
  | succ k ih =>
    match read with
    | [] =>
      rw [List.nil_append, eq_comm, bytesOf_eq_zeros_iff _ _ hlost]
      simp only [List.length_nil, Nat.sub_zero, Nat.zero_mod, Nat.zero_ne_one, false_implies, and_true]
      refine ⟨.inr, fun h => ?_⟩
      rcases h with h | h
      · rw [h]
        simp
      · exact h
    | [a] =>
      have ha := hread a (by simp)
      match lost with
      | [] => simp
      | b :: lost =>
        have hb := hlost b (by simp)
        have hbyte : UInt8.ofNat (digitOf a) = UInt8.ofNat (digitOf a * 16 + digitOf b) ↔
            digitOf a = 0 ∧ digitOf b = 0 := by
          rw [ofNat_eq_iff (by omega) (by omega)]
          omega
        have htake : (b :: lost).take (2 * (k + 1) - [a].length) = b :: lost.take (2 * k) := by
          rw [List.length_singleton, show 2 * (k + 1) - 1 = 2 * k + 1 by omega, List.take_succ_cons]
        rw [List.singleton_append, bytesOf, bytesOf, List.cons.injEq, hbyte, eq_comm (a := bytesOf k []),
          bytesOf_eq_zeros_iff _ _ fun c hc => hlost c (by simp [hc]), htake]
        simp only [reduceCtorEq, List.forall_mem_cons, List.length_singleton, List.getLast?_singleton,
          Option.mem_def, Option.some.injEq, forall_eq', Nat.one_mod, forall_const, false_or]
        tauto
    | a :: b :: read =>
      have hlen : 2 * (k + 1) - (a :: b :: read).length = 2 * k - read.length := by
        simp only [List.length_cons]
        omega
      have hlast : (read.length % 2 = 1 → ∀ d ∈ (a :: b :: read).getLast?, digitOf d = 0) ↔
          (read.length % 2 = 1 → ∀ d ∈ read.getLast?, digitOf d = 0) := by
        cases read with
        | nil => simp
        | cons c read => simp [List.getLast?_cons_cons]
      have hmod : (a :: b :: read).length % 2 = read.length % 2 := by
        simp only [List.length_cons]
        omega
      rw [List.cons_append, List.cons_append, bytesOf, bytesOf, List.cons.injEq, and_iff_right rfl,
        ih read fun c hc => hread c (by simp [hc]), hlen, hmod, hlast]

/-- The digits among the first 32 that stand behind the characters `assign` reads. -/
def lost (value : Bytes) : Bytes :=
  ((value.drop (scanned value)).filter isxdigit).take (32 - ((value.take (scanned value)).filter isxdigit).length)

theorem assign_bytesOf_iff (value : Bytes) :
    (∃ r, assign value = some r ∧ r.toList = bytesOf 16 (value.filter isxdigit)) ↔
      lost value = [] ∨ (∀ c ∈ lost value, c = 48) ∧
        (((value.take (scanned value)).filter isxdigit).length % 2 = 1 →
          ((value.take (scanned value)).filter isxdigit).getLast? = some 48) := by
  obtain ⟨r, hr, hlist⟩ := assign_eq value
  have hresult : (∃ r, assign value = some r ∧ r.toList = bytesOf 16 (value.filter isxdigit)) ↔
      bytesOf 16 ((value.take (scanned value)).filter isxdigit) = bytesOf 16 (value.filter isxdigit) := by
    rw [hr, ← hlist]
    constructor
    · rintro ⟨r', hr', h⟩
      rw [Option.some.inj hr']
      exact h
    · intro h
      exact ⟨r, rfl, h⟩
  have hdigit : ∀ s : Bytes, ∀ c ∈ s.filter isxdigit, digitOf c < 16 ∧ (digitOf c = 0 ↔ c = 48) := by
    intro s c hc
    obtain ⟨-, -, -, -, -, hlt, hzero⟩ := isxdigit_spec c (List.mem_filter.mp hc).2
    exact ⟨hlt, hzero, fun h => by rw [h]; rfl⟩
  have happend : value.filter isxdigit =
      (value.take (scanned value)).filter isxdigit ++ (value.drop (scanned value)).filter isxdigit := by
    rw [← List.filter_append, List.take_append_drop]
  rw [hresult, happend, bytesOf_append_iff 16 _ _ (fun c hc => (hdigit _ c hc).1) fun c hc => (hdigit _ c hc).1]
  have hzeros : (∀ c ∈ lost value, digitOf c = 0) ↔ ∀ c ∈ lost value, c = 48 :=
    forall₂_congr fun c hc => (hdigit _ c (List.mem_of_mem_take hc)).2
  have hlast : (((value.take (scanned value)).filter isxdigit).length % 2 = 1 →
      ∀ d ∈ ((value.take (scanned value)).filter isxdigit).getLast?, digitOf d = 0) ↔
      (((value.take (scanned value)).filter isxdigit).length % 2 = 1 →
        ((value.take (scanned value)).filter isxdigit).getLast? = some 48) := by
    refine forall_congr' fun hodd => ?_
    cases hl : ((value.take (scanned value)).filter isxdigit).getLast? with
    | none =>
      rw [List.getLast?_eq_none_iff.mp hl] at hodd
      cases hodd
    | some d =>
      have hd := (hdigit _ d (List.mem_of_getLast? hl)).2
      simpa using hd
  rw [← lost, hzeros, hlast]

/-- The text of a `uuid` is read back, texts are ordered and equal as the bytes are, and what is read of a string are
the bytes of its hexadecimal digits, exactly when the digits behind the length as an `int` do not count: there are
none among the first 32, or they are zeros and none of them completes a pair. -/
theorem uuid_text_iff (u v : Uuid) (s : Bytes) :
    (assign u.str = some u ∧ (u.less v = true ↔ u.str < v.str) ∧ (u.equal v = true ↔ u.str = v.str) ∧
      ∃ r, assign s = some r ∧ r.toList = bytesOf 16 (s.filter isxdigit)) ↔
    (lost s = [] ∨ (∀ c ∈ lost s, c = 48) ∧
      (((s.take (scanned s)).filter isxdigit).length % 2 = 1 →
        ((s.take (scanned s)).filter isxdigit).getLast? = some 48)) := by
  rw [← assign_bytesOf_iff]
  exact ⟨fun h => h.2.2.2, fun h => ⟨assign_str u, less_iff u v, equal_iff u v, h⟩⟩

/-- A string of `2 ^ 31` ones: none of them is read. -/
theorem uuid_long_text : ¬ ∃ r, assign (List.replicate (2 ^ 31) 49) = some r ∧
    r.toList = bytesOf 16 ((List.replicate (2 ^ 31) 49).filter isxdigit) := by
  have hscanned : scanned (List.replicate (2 ^ 31) 49) = 0 := by
    rw [scanned, List.length_replicate]
    decide
  have hlost : lost (List.replicate (2 ^ 31) 49) = List.replicate 32 49 := by
    have hdigit : isxdigit 49 = true := by decide
    rw [lost, hscanned, List.drop_zero, List.take_zero, List.filter_replicate, if_pos hdigit, List.take_replicate]
    rfl
  rw [assign_bytesOf_iff, hlost]
  decide

end Uuid

end Dcl.Values
