import Dcl.Strutils.Text

/-! # Numerals read by `from_string<int>`

`from_string<int>` takes its base from the text: a leading zero makes a string of decimal digits an
octal numeral, which ends before the first 8 or 9. `fromStringInt_decimal` says when that changes the
number; the text that `to_string<int>` writes has no leading zero and is read back. -/
namespace Dcl
set_option autoImplicit false

/-! ## The value in a base -/

/-- The value of a string of digits in base `b`, most significant first. -/
def valueIn (b : ℕ) (ds : Bytes) : ℕ := ds.foldl (fun n c => n * b + digitOf c) 0

theorem valueIn_concat (b : ℕ) (ds : Bytes) (c : UInt8) :
    valueIn b (ds ++ [c]) = valueIn b ds * b + digitOf c := by
  rw [valueIn, List.foldl_append]
  rfl

theorem digitsValue_eq {ds : Bytes} (h : ∀ c ∈ ds, isdigit c = true) :
    digitsValue ds = valueIn 10 ds := by
  induction ds using List.reverseRecOn with
  | nil => rfl
  | append_singleton ds c ih =>
    have hc : digitOf c = c.toNat - 48 := if_pos (h c (by simp))
    rw [valueIn_concat, hc, ← ih fun x hx => h x (by simp [hx]), digitsValue, List.foldl_append]
    rfl

theorem digitOf_lt {c : UInt8} (h : isdigit c = true) : digitOf c < 10 := by
  have hc := isdigit_range h
  rw [digitOf, if_pos h]
  omega

theorem valueIn_mono {b b' : ℕ} (h : b ≤ b') (ds : Bytes) : valueIn b ds ≤ valueIn b' ds := by
  induction ds using List.reverseRecOn with
  | nil => exact le_rfl
  | append_singleton ds c ih =>
    rw [valueIn_concat, valueIn_concat]
    have := Nat.mul_le_mul ih h
    omega

/-- The digits up to some digit are worth no more than the whole. -/
theorem valueIn_le_append (p : Bytes) (c : UInt8) (q : Bytes) :
    valueIn 10 p * 10 + digitOf c ≤ valueIn 10 (p ++ c :: q) := by
  induction q using List.reverseRecOn with
  | nil => rw [valueIn_concat]
  | append_singleton q d ih =>
    rw [← List.cons_append, ← List.append_assoc, valueIn_concat]
    omega

theorem digitOf_le_valueIn {ds : Bytes} {c : UInt8} (hc : c ∈ ds) : digitOf c ≤ valueIn 10 ds := by
  obtain ⟨p, q, rfl⟩ := List.append_of_mem hc
  have := valueIn_le_append p c q
  omega

/-- Read as octal, a numeral keeps its value below 8. -/
theorem octal_eq {ds : Bytes} (h : valueIn 10 ds < 8) :
    valueIn 8 (ds.takeWhile fun c => decide (digitOf c < 8)) = valueIn 10 ds := by
  have hall : ds.takeWhile (fun c => decide (digitOf c < 8)) = ds := by
    refine List.takeWhile_eq_self_iff.mpr fun c hc => ?_
    have := digitOf_le_valueIn hc
    simpa using by omega
  rw [hall]
  induction ds using List.reverseRecOn with
  | nil => rfl
  | append_singleton ds c ih =>
    have hmono := valueIn_mono (by omega : 8 ≤ 10) ds
    rw [valueIn_concat] at h
    rw [valueIn_concat, valueIn_concat]
    omega

/-- From 8 on it becomes less: a digit moves to a place of less weight, or is cut off. -/
theorem octal_lt {ds : Bytes} (h : 8 ≤ valueIn 10 ds) :
    valueIn 8 (ds.takeWhile fun c => decide (digitOf c < 8)) < valueIn 10 ds := by
  set p := ds.takeWhile fun c => decide (digitOf c < 8) with hp
  have hsplit : p ++ ds.dropWhile (fun c => decide (digitOf c < 8)) = ds := List.takeWhile_append_dropWhile
  have hmono := valueIn_mono (by omega : 8 ≤ 10)
  cases hq : ds.dropWhile fun c => decide (digitOf c < 8) with
  | cons c q =>
    have hc : ¬digitOf c < 8 := by
      have hhead := List.head?_dropWhile_not (fun c => decide (digitOf c < 8)) ds
      rw [hq] at hhead
      simpa using hhead
    have hle := valueIn_le_append p c q
    rw [← hq, hsplit] at hle
    have := hmono p
    omega
  | nil =>
    rw [hq, List.append_nil] at hsplit
    rw [hsplit]
    have hdigit : ∀ c ∈ ds, digitOf c < 8 := fun c hc => by
      rw [← hsplit, hp] at hc
      simpa using List.mem_takeWhile_imp hc
    obtain rfl | ⟨ds', c, rfl⟩ := List.eq_nil_or_concat ds
    · exact absurd h (by decide)
    · have hc := hdigit c (by simp)
      have := hmono ds'
      simp only [List.concat_eq_append, valueIn_concat] at h ⊢
      omega

/-! ## Reading -/

/-- The number that `strtol` with base 0 makes of decimal digits: the first of them decides the base. -/
def magnitude (v : Bytes) : ℕ :=
  if v.head? = some 48 then valueIn 8 (v.takeWhile fun c => decide (digitOf c < 8)) else valueIn 10 v

theorem magnitude_le (v : Bytes) : magnitude v ≤ valueIn 10 v := by
  unfold magnitude
  split
  · by_cases h8 : 8 ≤ valueIn 10 v
    · exact (octal_lt h8).le
    · exact (octal_eq (by omega)).le
  · exact le_rfl

/-- `strtol` on a sign and decimal digits. -/
theorem strtol_signed (negative : Bool) {c : UInt8} {t : Bytes} (h : ∀ x ∈ c :: t, isdigit x = true) :
    strtol ((if negative then [45] else []) ++ c :: t) 0 =
      if negative then max (-(magnitude (c :: t) : ℤ)) (-2 ^ 63)
      else min (magnitude (c :: t) : ℤ) (2 ^ 63 - 1) := by
  obtain ⟨hspace, hminus, hplus, _⟩ := isdigit_plain (h c (by simp))
  have hdrop : ((if negative then [45] else []) ++ c :: t).dropWhile isspace =
      (if negative then [45] else []) ++ c :: t := by
    cases negative with
    | true => rfl
    | false => simp [hspace]
  have hneg : (((if negative then [45] else []) ++ c :: t).head? == some 45) = negative := by
    cases negative with
    | true => rfl
    | false => simp [hminus]
  have hpos : (((if negative then [45] else []) ++ c :: t).head? == some 43) = false := by
    cases negative with
    | true => rfl
    | false => simp [hplus]
  have htail : (if negative = true then ((if negative then [45] else []) ++ c :: t).tail
      else (if negative then [45] else []) ++ c :: t) = c :: t := by
    cases negative with
    | true => rfl
    | false => rfl
  have hx : ∀ x : UInt8, isdigit x = false → ((c :: t)[1]? == some x) = false := by
    intro x hx
    rw [beq_eq_false_iff_ne]
    intro h1
    rw [h x (List.mem_of_getElem? h1)] at hx
    cases hx
  have htake : (c :: t).takeWhile (fun x => decide (digitOf x < 10)) = c :: t :=
    List.takeWhile_eq_self_iff.mpr fun x hx => by simpa using digitOf_lt (h x hx)
  simp only [strtol, hdrop, hneg, hpos, htail, Bool.or_false, hx 120 (by decide), hx 88 (by decide),
    Bool.or_self, Bool.and_false, Bool.false_and, Bool.false_eq_true, if_false, ne_eq, not_true_eq_false]
  by_cases hc : c = 48
  · simp only [magnitude, hc, List.head?_cons, beq_self_eq_true, if_true]
    rfl
  · have hhead : (some c == some (48 : UInt8)) = false := by simp [hc]
    have hne : ¬ some c = some (48 : UInt8) := by simpa using hc
    simp only [magnitude, List.head?_cons, hhead, hne, Bool.false_eq_true, if_false, htake]
    rfl

theorem strtol_digits {c : UInt8} {t : Bytes} (h : ∀ x ∈ c :: t, isdigit x = true)
    (hlt : valueIn 10 (c :: t) < 2 ^ 63) : strtol (c :: t) 0 = magnitude (c :: t) := by
  have hle := magnitude_le (c :: t)
  have hstrtol := strtol_signed false h
  rw [if_neg Bool.false_ne_true, if_neg Bool.false_ne_true, List.nil_append] at hstrtol
  rw [hstrtol]
  exact min_eq_left (by omega)

/-- A numeral that fits an `int` is read as a number that is not greater, and as itself if and only if
it has no leading zero or is less than 8. -/
theorem fromStringInt_decimal {d : Bytes} {n : ℕ} (h : Decimal d n) (hn : n < 2 ^ 31) :
    ∃ k : ℕ, fromStringInt d = k ∧ k ≤ n ∧ (k = n ↔ d.head? ≠ some 48 ∨ n < 8) := by
  obtain ⟨hne, hdigits, hvalue⟩ := h
  rw [digitsValue_eq hdigits] at hvalue
  obtain ⟨c, t, rfl⟩ := List.exists_cons_of_ne_nil hne
  have hcut : cString (c :: t) = c :: t :=
    takeWhile_bne_self fun h0 => (isdigit_plain (hdigits 0 h0)).2.2.2 rfl
  rw [fromStringInt, hcut, strtol_digits hdigits (by omega), magnitude, List.head?_cons]
  by_cases hc : c = 48
  · rw [if_pos (congrArg some hc)]
    by_cases h8 : 8 ≤ valueIn 10 (c :: t)
    · have hlt := octal_lt h8
      refine ⟨_, toInt32_of_lt (by omega), by omega, ?_⟩
      refine iff_of_false (by omega) (not_or.mpr ⟨?_, by omega⟩)
      rw [hc]
      exact fun h => h rfl
    · have heq := octal_eq (by omega : valueIn 10 (c :: t) < 8)
      refine ⟨_, toInt32_of_lt (by omega), by omega, ?_⟩
      exact iff_of_true (by omega) (.inr (by omega))
  · rw [if_neg (by simpa using hc)]
    exact ⟨_, toInt32_of_lt (by omega), by omega, iff_of_true hvalue (.inl (by simpa using hc))⟩

/-! ## The text of a number -/

/-- The digits of a positive number, most significant first, and the first of them. -/
theorem toStringInt_pos {n : ℕ} (h : 0 < n) : toStringInt n =
    (Nat.digits 10 n).reverse.map fun d => UInt8.ofNat (48 + d) := by
  have hne : Nat.digits 10 n ≠ [] := Nat.digits_ne_nil_iff_ne_zero.mpr (by omega)
  have hneg : ¬ (n : ℤ) < 0 := by omega
  simp only [toStringInt, if_neg hneg, Int.natAbs_natCast, List.nil_append]
  rw [if_neg]
  simpa using hne

theorem digitOf_ofNat {d : ℕ} (h : d < 10) :
    isdigit (UInt8.ofNat (48 + d)) = true ∧ digitOf (UInt8.ofNat (48 + d)) = d := by
  interval_cases d <;> decide

theorem valueIn_ofDigits (l : List ℕ) (h : ∀ d ∈ l, d < 10) :
    valueIn 10 (l.reverse.map fun d => UInt8.ofNat (48 + d)) = Nat.ofDigits 10 l := by
  induction l with
  | nil => rfl
  | cons d l ih =>
    have hd := (digitOf_ofNat (h d (by simp))).2
    rw [List.reverse_cons, List.map_append, List.map_singleton, valueIn_concat,
      ih fun e he => h e (by simp [he]), hd, Nat.ofDigits_cons]
    omega

theorem toStringInt_head {n : ℕ} (h : 0 < n) :
    ∃ c t, toStringInt n = c :: t ∧ c ≠ 48 ∧ ∀ x ∈ c :: t, isdigit x = true := by
  have hne : Nat.digits 10 n ≠ [] := Nat.digits_ne_nil_iff_ne_zero.mpr (by omega)
  have hlast := Nat.getLast_digit_ne_zero 10 (m := n) (by omega)
  have hlt : ∀ d ∈ Nat.digits 10 n, d < 10 := fun d hd => Nat.digits_lt_base (by norm_num) hd
  obtain ⟨ds, d, hd⟩ : ∃ ds d, Nat.digits 10 n = ds ++ [d] :=
    ⟨_, _, (List.dropLast_append_getLast hne).symm⟩
  simp only [hd, List.getLast_append_singleton] at hlast
  rw [toStringInt_pos h]
  refine ⟨UInt8.ofNat (48 + d), ds.reverse.map fun d => UInt8.ofNat (48 + d), by simp [hd], ?_, ?_⟩
  · intro h48
    have hd10 := hlt d (by simp [hd])
    have hval := congrArg digitOf h48
    rw [(digitOf_ofNat hd10).2] at hval
    exact hlast hval
  · intro x hx
    have hx' : x ∈ (Nat.digits 10 n).reverse.map fun d => UInt8.ofNat (48 + d) := by
      simpa [hd] using hx
    obtain ⟨e, he, rfl⟩ := List.mem_map.mp hx'
    exact (digitOf_ofNat (hlt e (List.mem_reverse.mp he))).1

theorem toStringInt_eq_zero {z : ℤ} (h : toStringInt z = ascii "0") : z = 0 := by
  have hfirst : (toStringInt z).head? = some 48 := congrArg List.head? h
  obtain hneg | rfl | hpos := lt_trichotomy z 0
  · -- the sign comes first
    rw [toStringInt, if_pos hneg] at hfirst
    exact absurd (Option.some.inj hfirst) (by decide)
  · rfl
  · obtain ⟨n, rfl⟩ := Int.eq_ofNat_of_zero_le hpos.le
    obtain ⟨c, t, htext, hzero, -⟩ := toStringInt_head (n := n) (by omega)
    rw [htext] at hfirst
    exact absurd (Option.some.inj hfirst) hzero

theorem valueIn_toStringInt {n : ℕ} (h : 0 < n) : valueIn 10 (toStringInt n) = n := by
  rw [toStringInt_pos h, valueIn_ofDigits _ fun d hd => Nat.digits_lt_base (by norm_num) hd,
    Nat.ofDigits_digits]

/-- The text of a number is a sign and digits without a leading zero, which are worth its absolute value. -/
theorem toStringInt_signed (z : ℤ) : ∃ c t, toStringInt z = (if z < 0 then [45] else []) ++ c :: t ∧
    (∀ x ∈ c :: t, isdigit x = true) ∧ magnitude (c :: t) = z.natAbs ∧ valueIn 10 (c :: t) = z.natAbs := by
  by_cases hz : z = 0
  · subst hz
    exact ⟨48, [], rfl, List.forall_mem_singleton.mpr (by decide), by decide, by decide⟩
  · have hpos : 0 < z.natAbs := by omega
    obtain ⟨c, t, htext, hzero, hdigits⟩ := toStringInt_head hpos
    have hvalue := valueIn_toStringInt hpos
    rw [htext] at hvalue
    refine ⟨c, t, ?_, hdigits, ?_, hvalue⟩
    · rw [← htext, toStringInt, toStringInt, Int.natAbs_natCast, if_neg (by omega : ¬ (z.natAbs : ℤ) < 0),
        List.nil_append]
    · rw [magnitude, if_neg (by simpa using hzero), hvalue]

theorem decimal_toStringInt (n : ℕ) : Decimal (toStringInt n) n := by
  obtain ⟨c, t, htext, hdigits, -, hvalue⟩ := toStringInt_signed n
  rw [if_neg (by omega), List.nil_append] at htext
  rw [htext]
  exact ⟨List.cons_ne_nil c t, hdigits, (digitsValue_eq hdigits).trans hvalue⟩

theorem nul_notMem_toStringInt (z : ℤ) : 0 ∉ toStringInt z := by
  obtain ⟨c, t, htext, hdigits, -⟩ := toStringInt_signed z
  rw [htext, List.mem_append]
  rintro (h | h)
  · split at h
    · exact absurd h (by decide)
    · cases h
  · exact (isdigit_plain (hdigits 0 h)).2.2.2 rfl

/-- The text of a number, whatever its size, is read as the number brought into the range of `long` and then of
`int`. -/
theorem fromStringInt_text (z : ℤ) :
    fromStringInt (toStringInt z) = toInt32 (if z < 0 then max z (-2 ^ 63) else min z (2 ^ 63 - 1)) := by
  rw [fromStringInt, cString_eq_self (nul_notMem_toStringInt z)]
  obtain ⟨c, t, htext, hdigits, hvalue, -⟩ := toStringInt_signed z
  have hstrtol := strtol_signed (decide (z < 0)) hdigits
  simp only [decide_eq_true_eq] at hstrtol
  rw [htext, hstrtol, hvalue]
  congr 1
  split
  · congr 1
    omega
  · congr 1
    omega

/-- An `int` is read back from its text. -/
theorem fromStringInt_int {z : ℤ} (h1 : -2 ^ 31 ≤ z) (h2 : z < 2 ^ 31) : fromStringInt (toStringInt z) = z := by
  rw [fromStringInt_text, toInt32, Int.bmod_def]
  split <;> omega

theorem fromStringInt_toStringInt {n : ℕ} (hlt : n < 2 ^ 31) : fromStringInt (toStringInt n) = n :=
  fromStringInt_int (by omega) (by omega)

end Dcl
