import Dcl.Strutils.Numerals

/-! # `my_strtod`

The conversion behind `from_string<double>` and `from_string<float>` in `src/dcl/strutils.cpp`. Its integers are of
type `int`, and each value that is computed for one of them is recorded before it is stored: `assigned` holds these
values as they are, the variables hold what an `int` makes of them. The operations on `double` are a parameter. Both
callers pass no `endptr`, which is left out. -/
namespace Dcl.Strtod
set_option autoImplicit false

/-- `DBL_MIN_EXP` and `DBL_MAX_EXP` of `<cfloat>`. -/
def dblMinExp : ℤ := -1021

def dblMaxExp : ℤ := 1024

/-- The type `double`: `digit x k` is `x * 10. + k`, and `huge` compares with `HUGE_VAL`. -/
structure Doubles (δ : Type*) where
  zero : δ
  ten : δ
  digit : δ → ℕ → δ
  neg : δ → δ
  mul : δ → δ → δ
  div : δ → δ → δ
  huge : δ → Bool

/-- The local variables; `p` is the text that `*p` begins. -/
structure Vars (δ : Type*) where
  p : Bytes
  number : δ
  exponent : ℤ
  n : ℤ
  numDigits : ℤ
  numDecimals : ℤ
  assigned : List ℤ

section Function
variable {δ : Type*} (d : Doubles δ)

def Vars.setExponent (v : Vars δ) (z : ℤ) : Vars δ :=
  { v with exponent := toInt32 z, assigned := v.assigned ++ [z] }

def Vars.setN (v : Vars δ) (z : ℤ) : Vars δ := { v with n := toInt32 z, assigned := v.assigned ++ [z] }

def Vars.setNumDigits (v : Vars δ) (z : ℤ) : Vars δ :=
  { v with numDigits := toInt32 z, assigned := v.assigned ++ [z] }

def Vars.setNumDecimals (v : Vars δ) (z : ℤ) : Vars δ :=
  { v with numDecimals := toInt32 z, assigned := v.assigned ++ [z] }

/-- Handle optional sign: `negative`, and the text behind it. -/
def sign : Bytes → Bool × Bytes
  | 45 :: p => (true, p)
  | 43 :: p => (false, p)
  | p => (false, p)

/-- `while (isdigit(*p)) { ...; p++; }`. -/
def digits (step : Vars δ → UInt8 → Vars δ) : Bytes → Vars δ → Vars δ
  | [], v => { v with p := [] }
  | c :: p, v => if isdigit c then digits step p (step v c) else { v with p := c :: p }

def wholeDigit (v : Vars δ) (c : UInt8) : Vars δ :=
  { v with number := d.digit v.number (c.toNat - 48) }.setNumDigits (v.numDigits + 1)

def decimalDigit (v : Vars δ) (c : UInt8) : Vars δ :=
  let v := { v with number := d.digit v.number (c.toNat - 48) }.setNumDigits (v.numDigits + 1)
  v.setNumDecimals (v.numDecimals + 1)

def exponentDigit (v : Vars δ) (c : UInt8) : Vars δ := v.setN (v.n * 10 + ((c.toNat : ℤ) - 48))

/-- Process the string of digits and the decimal part. -/
def mantissa (v : Vars δ) : Vars δ :=
  let v := digits (wholeDigit d) v.p v
  match v.p with
  | 46 :: p =>
      let v := digits (decimalDigit d) p v
      v.setExponent (v.exponent - v.numDecimals)
  | _ => v

/-- Process an exponent string. -/
def exponentPart (v : Vars δ) : Vars δ :=
  match v.p with
  | c :: p =>
      if c = 101 ∨ c = 69 then
        let v' := digits exponentDigit (sign p).2 { v with n := 0 }
        if (sign p).1 then v'.setExponent (v'.exponent - v'.n) else v'.setExponent (v'.exponent + v'.n)
      else v
  | [] => v

/-- The loop that scales the result. -/
def scaleFrom : ℕ → δ → Vars δ → Vars δ
  | 0, _, v => v
  | fuel + 1, p10, v =>
      if v.n = 0 then v
      else
        let v := if v.n % 2 = 0 then v
          else { v with number := if v.exponent < 0 then d.div v.number p10 else d.mul v.number p10 }
        scaleFrom fuel (d.mul p10 p10) (v.setN (v.n / 2))

/-- `n` is halved in every pass, so as many passes as its value are enough. -/
def scale (v : Vars δ) : Vars δ :=
  let v := v.setN v.exponent
  let v := if v.n < 0 then v.setN (-v.n) else v
  scaleFrom d v.n.toNat d.ten v

/-- The result, `none` for `type_conversion_exception`, and the values that were computed for the integers. -/
def myStrtod (str : Bytes) : Option δ × List ℤ :=
  let signed := sign ((cString str).dropWhile isspace)
  let v := mantissa d ⟨signed.2, d.zero, 0, 0, 0, 0, []⟩
  if v.numDigits = 0 then (none, v.assigned)
  else
    let v := exponentPart { v with number := if signed.1 then d.neg v.number else v.number }
    if v.exponent < dblMinExp ∨ dblMaxExp < v.exponent then (none, v.assigned)
    else
      let v := scale d v
      (if d.huge v.number then none else some v.number, v.assigned)

end Function

/-! ## The parts of a text -/

def body (str : Bytes) : Bytes := (sign ((cString str).dropWhile isspace)).2

/-- The digits before the point. -/
def whole (str : Bytes) : Bytes := (body str).takeWhile isdigit

/-- The digits behind the point. -/
def decimals (str : Bytes) : Bytes :=
  match (body str).dropWhile isdigit with
  | 46 :: p => p.takeWhile isdigit
  | _ => []

/-- What stands behind the mantissa. -/
def tail (str : Bytes) : Bytes :=
  match (body str).dropWhile isdigit with
  | 46 :: p => p.dropWhile isdigit
  | p => p

/-- The sign and the digits of the exponent part. -/
def exponentOf (str : Bytes) : Option (Bool × Bytes) :=
  match tail str with
  | c :: p => if c = 101 ∨ c = 69 then some ((sign p).1, (sign p).2.takeWhile isdigit) else none
  | [] => none

/-- The number that the exponent part denotes; 0 when there is none. -/
def denoted (str : Bytes) : ℤ :=
  match exponentOf str with
  | some (negative, ds) => if negative then -(digitsValue ds : ℤ) else digitsValue ds
  | none => 0

/-- The numeral of the exponent part is less than `2 ^ 31` and, with a minus sign, no more than `2 ^ 31` together with
the number of decimals. -/
def ExponentFits (str : Bytes) : Prop :=
  ∀ negative ds, exponentOf str = some (negative, ds) →
    digitsValue ds < 2 ^ 31 ∧ (negative = true → (decimals str).length + digitsValue ds ≤ 2 ^ 31)

/-! ## What the loops compute -/

/-- The range of `int`. -/
def Fits (z : ℤ) : Prop := -2 ^ 31 ≤ z ∧ z < 2 ^ 31

instance (z : ℤ) : Decidable (Fits z) := inferInstanceAs (Decidable (_ ∧ _))

theorem Fits.toInt32 {z : ℤ} (h : Fits z) : toInt32 z = z := by
  obtain ⟨h1, h2⟩ := h
  rw [Dcl.toInt32, Int.bmod_def]
  split <;> omega

/-- Every value that was computed for an integer is in the range of `int`. -/
def AllFit {δ : Type*} (v : Vars δ) : Prop := ∀ z ∈ v.assigned, Fits z

section Loops
variable {δ : Type*} (d : Doubles δ)

theorem allFit_append {v w : Vars δ} {z : ℤ} (h : w.assigned = v.assigned ++ [z]) :
    AllFit w ↔ AllFit v ∧ Fits z := by
  rw [AllFit, h, List.forall_mem_append, List.forall_mem_singleton]
  rfl

theorem allFit_setExponent (v : Vars δ) (z : ℤ) : AllFit (v.setExponent z) ↔ AllFit v ∧ Fits z :=
  allFit_append rfl

theorem setExponent_exponent (v : Vars δ) {z : ℤ} (h : Fits z) : (v.setExponent z).exponent = z := h.toInt32

theorem allFit_setN (v : Vars δ) (z : ℤ) : AllFit (v.setN z) ↔ AllFit v ∧ Fits z := allFit_append rfl

theorem allFit_setNumDigits (v : Vars δ) (z : ℤ) : AllFit (v.setNumDigits z) ↔ AllFit v ∧ Fits z :=
  allFit_append rfl

theorem allFit_setNumDecimals (v : Vars δ) (z : ℤ) : AllFit (v.setNumDecimals z) ↔ AllFit v ∧ Fits z :=
  allFit_append rfl

theorem digits_eq (step : Vars δ → UInt8 → Vars δ) (p : Bytes) (v : Vars δ) :
    digits step p v = { (p.takeWhile isdigit).foldl step v with p := p.dropWhile isdigit } := by
  induction p generalizing v with
  | nil => rfl
  | cons c p ih =>
    rw [digits]
    by_cases hc : isdigit c = true
    · rw [if_pos hc, ih, List.takeWhile_cons_of_pos hc, List.dropWhile_cons_of_pos hc, List.foldl_cons]
    · rw [if_neg hc, List.takeWhile_cons_of_neg hc, List.dropWhile_cons_of_neg hc, List.foldl_nil]

/-- The digits before the point: one more for each. -/
theorem foldl_wholeDigit (ds : Bytes) (v : Vars δ) {k : ℕ} (hk : v.numDigits = k)
    (hlen : k + ds.length < 2 ^ 31) :
    (ds.foldl (wholeDigit d) v).numDigits = (k + ds.length : ℕ) ∧
    (ds.foldl (wholeDigit d) v).numDecimals = v.numDecimals ∧
    (ds.foldl (wholeDigit d) v).exponent = v.exponent ∧
    (AllFit (ds.foldl (wholeDigit d) v) ↔ AllFit v) := by
  induction ds using List.reverseRecOn with
  | nil => exact ⟨hk, rfl, rfl, Iff.rfl⟩
  | append_singleton ds c ih =>
    rw [List.length_append, List.length_singleton] at hlen
    obtain ⟨h1, h2, h3, h4⟩ := ih (by omega)
    have hfit : Fits ((ds.foldl (wholeDigit d) v).numDigits + 1) := by
      rw [h1, Fits]
      omega
    rw [List.foldl_append, List.foldl_cons, List.foldl_nil, List.length_append, List.length_singleton]
    refine ⟨?_, h2, h3, ?_⟩
    · rw [show (wholeDigit d (ds.foldl (wholeDigit d) v) c).numDigits =
        toInt32 ((ds.foldl (wholeDigit d) v).numDigits + 1) from rfl, hfit.toInt32, h1]
      omega
    · rw [← h4, wholeDigit, allFit_setNumDigits]
      exact and_iff_left hfit

/-- The digits behind it are counted twice. -/
theorem foldl_decimalDigit (ds : Bytes) (v : Vars δ) {k : ℕ} (hk : v.numDigits = k) (h0 : v.numDecimals = 0)
    (hlen : k + ds.length < 2 ^ 31) :
    (ds.foldl (decimalDigit d) v).numDigits = (k + ds.length : ℕ) ∧
    (ds.foldl (decimalDigit d) v).numDecimals = ds.length ∧
    (ds.foldl (decimalDigit d) v).exponent = v.exponent ∧
    (AllFit (ds.foldl (decimalDigit d) v) ↔ AllFit v) := by
  induction ds using List.reverseRecOn with
  | nil => exact ⟨hk, h0, rfl, Iff.rfl⟩
  | append_singleton ds c ih =>
    rw [List.length_append, List.length_singleton] at hlen
    obtain ⟨h1, h2, h3, h4⟩ := ih (by omega)
    have hfit : Fits ((ds.foldl (decimalDigit d) v).numDigits + 1) := by
      rw [h1, Fits]
      omega
    have hfit' : Fits ((ds.foldl (decimalDigit d) v).numDecimals + 1) := by
      rw [h2, Fits]
      omega
    rw [List.foldl_append, List.foldl_cons, List.foldl_nil, List.length_append, List.length_singleton]
    refine ⟨?_, ?_, h3, ?_⟩
    · rw [show (decimalDigit d (ds.foldl (decimalDigit d) v) c).numDigits =
        toInt32 ((ds.foldl (decimalDigit d) v).numDigits + 1) from rfl, hfit.toInt32, h1]
      omega
    · rw [show (decimalDigit d (ds.foldl (decimalDigit d) v) c).numDecimals =
        toInt32 ((ds.foldl (decimalDigit d) v).numDecimals + 1) from rfl, hfit'.toInt32, h2]
      omega
    · rw [← h4, decimalDigit, allFit_setNumDecimals, allFit_setNumDigits]
      exact (and_iff_left hfit').trans (and_iff_left hfit)

theorem digitsValue_concat (ds : Bytes) (c : UInt8) :
    digitsValue (ds ++ [c]) = digitsValue ds * 10 + (c.toNat - 48) := by
  rw [digitsValue, List.foldl_append]
  rfl

/-- The digits of the exponent: the values of `n` fit as long as the whole numeral does. -/
theorem foldl_exponentDigit (ds : Bytes) (v : Vars δ) (h0 : v.n = 0) (hds : ∀ c ∈ ds, isdigit c = true) :
    (ds.foldl exponentDigit v).exponent = v.exponent ∧
    (digitsValue ds < 2 ^ 31 → (ds.foldl exponentDigit v).n = digitsValue ds) ∧
    (AllFit (ds.foldl exponentDigit v) ↔ AllFit v ∧ digitsValue ds < 2 ^ 31) := by
  induction ds using List.reverseRecOn with
  | nil => exact ⟨rfl, fun _ => h0, (and_iff_left (by decide)).symm⟩
  | append_singleton ds c ih =>
    obtain ⟨h1, h2, h3⟩ := ih fun x hx => hds x (by simp [hx])
    have hc := isdigit_range (hds c (by simp))
    rw [List.foldl_append, List.foldl_cons, List.foldl_nil, digitsValue_concat]
    have hn : (exponentDigit (ds.foldl exponentDigit v) c).n =
        toInt32 ((ds.foldl exponentDigit v).n * 10 + ((c.toNat : ℤ) - 48)) := rfl
    refine ⟨h1, fun hlt => ?_, ?_⟩
    · have hfit : Fits ((digitsValue ds : ℤ) * 10 + ((c.toNat : ℤ) - 48)) := by
        rw [Fits]
        omega
      rw [hn, h2 (by omega), hfit.toInt32]
      omega
    · rw [exponentDigit, allFit_setN, h3, and_assoc]
      refine and_congr_right fun _ => ?_
      constructor
      · rintro ⟨hlt, hfit⟩
        rw [h2 hlt] at hfit
        have := hfit.2
        omega
      · intro hlt
        rw [h2 (by omega), Fits]
        omega

theorem scaleFrom_allFit (fuel : ℕ) (p10 : δ) (v : Vars δ) (h0 : 0 ≤ v.n) (hlt : v.n < 2 ^ 31) :
    AllFit (scaleFrom d fuel p10 v) ↔ AllFit v := by
  induction fuel generalizing p10 v with
  | zero => rfl
  | succ fuel ih =>
    rw [scaleFrom]
    split
    · rfl
    · simp only
      have hfit : Fits (v.n / 2) := by
        rw [Fits]
        omega
      have hpass : ∀ w : Vars δ, w.n = v.n → w.assigned = v.assigned →
          (AllFit (scaleFrom d fuel (d.mul p10 p10) (w.setN (w.n / 2))) ↔ AllFit v) := by
        intro w hn hassigned
        have hset : (w.setN (w.n / 2)).n = v.n / 2 := by rw [Vars.setN, hn, hfit.toInt32]
        rw [ih _ _ (by rw [hset]; omega) (by rw [hset]; omega), allFit_setN, hn, and_iff_left hfit, AllFit,
          hassigned]
        rfl
      split
      · exact hpass v rfl rfl
      · exact hpass _ rfl rfl

theorem scale_allFit (v : Vars δ) (h1 : dblMinExp ≤ v.exponent) (h2 : v.exponent ≤ dblMaxExp) :
    AllFit (scale d v) ↔ AllFit v := by
  have hmin : dblMinExp = -1021 := rfl
  have hmax : dblMaxExp = 1024 := rfl
  have hfit : Fits v.exponent := by
    rw [Fits]
    omega
  have hset : (v.setN v.exponent).n = v.exponent := hfit.toInt32
  have hall : AllFit (v.setN v.exponent) ↔ AllFit v := by
    rw [allFit_setN, and_iff_left hfit]
  simp only [scale, hset]
  split
  next hneg =>
    have hfit' : Fits (-v.exponent) := by
      rw [Fits]
      omega
    have hset' : ((v.setN v.exponent).setN (-v.exponent)).n = -v.exponent := hfit'.toInt32
    rw [scaleFrom_allFit d _ _ _ (by rw [hset']; omega) (by rw [hset']; omega), allFit_setN, hall,
      and_iff_left hfit']
  next hneg =>
    rw [scaleFrom_allFit d _ _ _ (by rw [hset]; omega) (by rw [hset]; omega)]
    exact hall

end Loops

/-! ## The parts of the function -/

section Parts
variable {δ : Type*} (d : Doubles δ) {str : Bytes}

def start (str : Bytes) : Vars δ := ⟨body str, d.zero, 0, 0, 0, 0, []⟩

theorem length_sign_le (p : Bytes) : (sign p).2.length ≤ p.length := by
  unfold sign
  split <;> simp

theorem length_body_le (str : Bytes) : (body str).length ≤ str.length := by
  have h1 := length_sign_le ((cString str).dropWhile isspace)
  have h2 := (List.dropWhile_suffix isspace (l := cString str)).length_le
  have h3 := (List.takeWhile_prefix (· != 0) (l := str)).length_le
  unfold body
  unfold cString at *
  omega

theorem length_mantissa_le (str : Bytes) : (whole str).length + (decimals str).length ≤ str.length := by
  have hbody := length_body_le str
  have hsplit := congrArg List.length (List.takeWhile_append_dropWhile (p := isdigit) (l := body str))
  rw [List.length_append] at hsplit
  unfold whole decimals
  split
  next p hp =>
    have hle := (List.takeWhile_prefix isdigit (l := p)).length_le
    rw [hp, List.length_cons] at hsplit
    omega
  · simp only [List.length_nil]
    omega

theorem mantissa_point {v : Vars δ} {p : Bytes} (h : v.p.dropWhile isdigit = 46 :: p) :
    ∃ w : Vars δ, w = { (v.p.takeWhile isdigit).foldl (wholeDigit d) v with p := 46 :: p } ∧
      mantissa d v = ({ (p.takeWhile isdigit).foldl (decimalDigit d) w with
        p := p.dropWhile isdigit } : Vars δ).setExponent
          (((p.takeWhile isdigit).foldl (decimalDigit d) w).exponent -
            ((p.takeWhile isdigit).foldl (decimalDigit d) w).numDecimals) := by
  refine ⟨_, rfl, ?_⟩
  simp only [mantissa, digits_eq, h]

theorem mantissa_no_point {v : Vars δ} (h : ∀ p, v.p.dropWhile isdigit ≠ 46 :: p) :
    mantissa d v = { (v.p.takeWhile isdigit).foldl (wholeDigit d) v with p := v.p.dropWhile isdigit } := by
  simp only [mantissa, digits_eq]

/-- The mantissa: its digits are counted, and the exponent becomes less by the decimals. -/
theorem mantissa_spec (h : str.length < 2 ^ 31) :
    (mantissa d (start d str)).p = tail str ∧
    (mantissa d (start d str)).numDigits = ((whole str).length + (decimals str).length : ℕ) ∧
    (mantissa d (start d str)).exponent = -((decimals str).length : ℤ) ∧
    AllFit (mantissa d (start d str)) := by
  have hlen := length_mantissa_le str
  have hempty : AllFit (start d str) := by
    intro z hz
    cases hz
  obtain ⟨h1, h2, h3, h4⟩ := foldl_wholeDigit d (whole str) (start d str) (k := 0) rfl (by omega)
  rw [Nat.zero_add] at h1
  by_cases hpoint : ∃ p, (body str).dropWhile isdigit = 46 :: p
  · obtain ⟨p, hp⟩ := hpoint
    have hdec : decimals str = p.takeWhile isdigit := by simp only [decimals, hp]
    have htail : tail str = p.dropWhile isdigit := by simp only [tail, hp]
    obtain ⟨w, hw, hmantissa⟩ := mantissa_point d (v := start d str) hp
    have hall : AllFit w ↔ AllFit ((whole str).foldl (wholeDigit d) (start d str)) := by rw [hw]; rfl
    obtain ⟨k1, k2, k3, k4⟩ := foldl_decimalDigit d (decimals str) w (k := (whole str).length)
      (by rw [hw]; exact h1) (by rw [hw]; exact h2) (by omega)
    have hexp : ((decimals str).foldl (decimalDigit d) w).exponent = 0 := by
      rw [k3, hw]
      exact h3
    have hfit : Fits (0 - ((decimals str).length : ℤ)) := by
      rw [Fits]
      omega
    rw [hmantissa, ← hdec, htail, hexp, k2, allFit_setExponent]
    exact ⟨rfl, k1, (setExponent_exponent _ hfit).trans (by omega), k4.mpr (hall.mpr (h4.mpr hempty)), hfit⟩
  · rw [not_exists] at hpoint
    have hdec : decimals str = [] := by
      unfold decimals
      split
      next p hp => exact absurd hp (hpoint p)
      · rfl
    have htail : tail str = (body str).dropWhile isdigit := by
      unfold tail
      split
      next p hp => exact absurd hp (hpoint p)
      · rfl
    rw [mantissa_no_point d (v := start d str) hpoint, hdec, htail]
    exact ⟨rfl, h1, h3, h4.mpr hempty⟩

/-- The exponent less the decimals: there are less of them than an `int` counts. -/
theorem fits_sum {k m : ℕ} (hk : k < 2 ^ 31) (hm : m < 2 ^ 31) (negative : Bool) :
    Fits (if negative then -(k : ℤ) - m else -(k : ℤ) + m) ↔ (negative = true → k + m ≤ 2 ^ 31) := by
  rw [Fits]
  cases negative with
  | true =>
    simp only [if_true, forall_const]
    omega
  | false =>
    simp only [Bool.false_eq_true, if_false, false_implies, iff_true]
    omega

theorem exponentFits_iff {negative : Bool} {ds : Bytes} (h : exponentOf str = some (negative, ds)) :
    ExponentFits str ↔
      digitsValue ds < 2 ^ 31 ∧ (negative = true → (decimals str).length + digitsValue ds ≤ 2 ^ 31) := by
  rw [ExponentFits, h]
  constructor
  · intro hall
    exact hall negative ds rfl
  · rintro hfits negative' ds' ⟨rfl, rfl⟩
    exact hfits

/-- No exponent part: the exponent stays. -/
theorem exponentPart_none {v : Vars δ} (hp : v.p = tail str) (h : exponentOf str = none) : exponentPart v = v := by
  rw [exponentPart, hp]
  rw [exponentOf] at h
  cases htail : tail str with
  | nil => rfl
  | cons c p =>
    rw [htail] at h
    by_cases hc : c = 101 ∨ c = 69
    · simp only [if_pos hc, reduceCtorEq] at h
    · simp only [if_neg hc]

/-- With an exponent part: the loop over its digits ends in `w`, and the sum is stored. -/
theorem exponentPart_some {v : Vars δ} {negative : Bool} {ds : Bytes} (hp : v.p = tail str)
    (h : exponentOf str = some (negative, ds)) :
    ∃ w : Vars δ, exponentPart v = w.setExponent (if negative then w.exponent - w.n else w.exponent + w.n) ∧
      w.exponent = v.exponent ∧ (digitsValue ds < 2 ^ 31 → w.n = digitsValue ds) ∧
      (AllFit w ↔ AllFit v ∧ digitsValue ds < 2 ^ 31) := by
  rw [exponentOf] at h
  cases htail : tail str with
  | nil => simp only [htail, reduceCtorEq] at h
  | cons c p =>
    by_cases hc : c = 101 ∨ c = 69
    · simp only [htail, if_pos hc, Option.some.injEq, Prod.mk.injEq] at h
      obtain ⟨rfl, rfl⟩ := h
      have hloop := foldl_exponentDigit ((sign p).2.takeWhile isdigit) { v with n := 0 } rfl
        fun c hc => List.mem_takeWhile_imp hc
      refine ⟨digits exponentDigit (sign p).2 { v with n := 0 }, ?_, ?_⟩
      · simp only [exponentPart, hp, htail, if_pos hc]
        split <;> rfl
      · rw [digits_eq]
        exact hloop
    · simp only [htail, if_neg hc, reduceCtorEq] at h

/-- The exponent part: what fits, and what it makes of the exponent then. -/
theorem exponentPart_spec (str : Bytes) (v : Vars δ) (hp : v.p = tail str)
    (hexp : v.exponent = -((decimals str).length : ℤ)) (hk : (decimals str).length < 2 ^ 31) (hv : AllFit v) :
    (AllFit (exponentPart v) ↔ ExponentFits str) ∧
    (AllFit (exponentPart v) → (exponentPart v).exponent = denoted str - (decimals str).length) := by
  cases hexponent : exponentOf str with
  | none =>
    rw [exponentPart_none hp hexponent, ExponentFits, denoted, hexponent]
    refine ⟨iff_of_true hv (by simp), fun _ => ?_⟩
    simp only
    omega
  | some e =>
    obtain ⟨negative, ds⟩ := e
    obtain ⟨w, hpart, hw, hn, hfit⟩ := exponentPart_some hp hexponent
    have hdenoted : denoted str = if negative then -(digitsValue ds : ℤ) else digitsValue ds := by
      rw [denoted, hexponent]
    rw [exponentFits_iff hexponent, hpart, allFit_setExponent, hfit, and_iff_right hv, hw, hexp, hdenoted]
    constructor
    · refine and_congr_right fun hlt => ?_
      rw [hn hlt]
      exact fits_sum hk hlt negative
    · rintro ⟨hlt, hsum⟩
      rw [setExponent_exponent w hsum, hn hlt]
      cases negative with
      | true =>
        simp only [if_true]
        omega
      | false =>
        simp only [Bool.false_eq_true, if_false]
        omega

end Parts

/-! ## The integers of a call -/

/-- Every integer stays in the range of `int`, and an exponent part that denotes a number outside of the exponents of
`double`, less the decimals, makes the function throw. -/
structure Keeps {δ : Type*} (d : Doubles δ) (str : Bytes) : Prop where
  ints : ∀ z ∈ (myStrtod d str).2, -2 ^ 31 ≤ z ∧ z < 2 ^ 31
  throws : (exponentOf str).isSome → denoted str - (decimals str).length < dblMinExp ∨
    dblMaxExp < denoted str - (decimals str).length → (myStrtod d str).1 = none

/-- For a string of less than `2 ^ 31` characters: there is no digit before the exponent part, or the exponent part
fits. -/
theorem strtod_keeps_iff {δ : Type*} (d : Doubles δ) (str : Bytes) (h : str.length < 2 ^ 31) :
    Keeps d str ↔ whole str = [] ∧ decimals str = [] ∨ ExponentFits str := by
  have hlen := length_mantissa_le str
  obtain ⟨hp, hdigits, hexp, hfit⟩ := mantissa_spec d h
  have hstart : (⟨body str, d.zero, 0, 0, 0, 0, []⟩ : Vars δ) = start d str := rfl
  have hnone : whole str = [] ∧ decimals str = [] ↔ (mantissa d (start d str)).numDigits = 0 := by
    rw [hdigits, ← List.length_eq_zero_iff, ← List.length_eq_zero_iff]
    omega
  have hcall : myStrtod d str = if (mantissa d (start d str)).numDigits = 0 then
      (none, (mantissa d (start d str)).assigned)
    else
      let v := exponentPart { mantissa d (start d str) with
        number := if (sign ((cString str).dropWhile isspace)).1 then d.neg (mantissa d (start d str)).number
          else (mantissa d (start d str)).number }
      if v.exponent < dblMinExp ∨ dblMaxExp < v.exponent then (none, v.assigned)
      else (if d.huge (scale d v).number then none else some (scale d v).number, (scale d v).assigned) := rfl
  by_cases h0 : (mantissa d (start d str)).numDigits = 0
  · -- it throws before the exponent part
    rw [if_pos h0] at hcall
    refine iff_of_true ⟨?_, fun _ _ => by rw [hcall]⟩ (.inl (hnone.mpr h0))
    rw [hcall]
    exact hfit
  · rw [if_neg h0] at hcall
    obtain ⟨hall, hvalue⟩ := exponentPart_spec str { mantissa d (start d str) with
      number := if (sign ((cString str).dropWhile isspace)).1 then d.neg (mantissa d (start d str)).number
        else (mantissa d (start d str)).number } hp hexp (by omega) hfit
    generalize exponentPart { mantissa d (start d str) with
      number := if (sign ((cString str).dropWhile isspace)).1 then d.neg (mantissa d (start d str)).number
        else (mantissa d (start d str)).number } = v at hcall hall hvalue
    simp only at hcall
    rw [hnone, or_iff_right h0, ← hall]
    by_cases hrange : v.exponent < dblMinExp ∨ dblMaxExp < v.exponent
    · rw [if_pos hrange] at hcall
      refine ⟨fun hk => ?_, fun hv => ⟨?_, fun _ _ => by rw [hcall]⟩⟩
      · have hints := hk.ints
        rw [hcall] at hints
        exact hints
      · rw [hcall]
        exact hv
    · rw [if_neg hrange] at hcall
      obtain ⟨hmin, hmax⟩ := not_or.mp hrange
      have hscale := scale_allFit d v (by omega) (by omega)
      refine ⟨fun hk => ?_, fun hv => ⟨?_, fun _ hout => ?_⟩⟩
      · have hints := hk.ints
        rw [hcall] at hints
        exact hscale.mp hints
      · rw [hcall]
        exact hscale.mpr hv
      · rw [hvalue hv] at hrange
        exact absurd hout hrange

/-- The rational numbers in the place of `double`; none of them is `HUGE_VAL`. -/
def rationals : Doubles ℚ where
  zero := 0
  ten := 10
  digit x k := x * 10 + k
  neg x := -x
  mul x y := x * y
  div x y := x / y
  huge _ := false

theorem strtod_keeps_exponent : Keeps rationals (ascii "-2.50e+1") := by
  have hexponent : exponentOf (ascii "-2.50e+1") = some (false, [49]) := by decide
  have hfits : ExponentFits (ascii "-2.50e+1") := (exponentFits_iff hexponent).mpr (by decide)
  exact (strtod_keeps_iff rationals (ascii "-2.50e+1") (by decide)).mpr (.inr hfits)

/-- The exponent `2 ^ 32 + 1` becomes 1. -/
theorem strtod_exponent_wraps : (myStrtod rationals (ascii "1e4294967297")).1 = some 10 ∧
    dblMaxExp < denoted (ascii "1e4294967297") - (decimals (ascii "1e4294967297")).length ∧
    4294967297 ∈ (myStrtod rationals (ascii "1e4294967297")).2 := by
  decide +kernel

end Dcl.Strtod
