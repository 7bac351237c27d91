import Dcl.Foundations.OrderedMap
import Dcl.Foundations.StringStream
import Mathlib.Data.Nat.Digits.Lemmas

/-! # `strutils`: trimming, splitting, comparing and converting strings

`src/dcl/strutils.cpp` and the header comparison `http_header::ci_less`. Strings are lists of bytes,
positions are natural numbers and `string::npos` is `none`. Character classes and case are those of
the C locale. -/
namespace Dcl
set_option autoImplicit false

/-! ## Searching -/

def findFirstOf (s delims : Bytes) (start : ℕ) : Option ℕ :=
  ((s.drop start).findIdx? fun c => delims.contains c).map (start + ·)

def findLastOf (s delims : Bytes) : Option ℕ :=
  (s.reverse.findIdx? fun c => delims.contains c).map (s.length - 1 - ·)

def findFirstNotOf (s delims : Bytes) : Option ℕ := s.findIdx? fun c => !delims.contains c

def findLastNotOf (s delims : Bytes) : Option ℕ :=
  (s.reverse.findIdx? fun c => !delims.contains c).map (s.length - 1 - ·)

def substr (s : Bytes) (pos count : ℕ) : Bytes := (s.drop pos).take count

/-! ## `trim` and `tokenize` -/

/-- The default delimiters of `trim`: space, tab, carriage return, line feed. -/
def blanks : Bytes := [32, 9, 13, 10]

def trimOf (delims source : Bytes) : Bytes :=
  let result := match findLastNotOf source delims with
    | some index => source.take (index + 1)
    | none => source
  match findFirstNotOf result delims with
  | some index => result.drop index
  | none => []

def trim (source : Bytes) : Bytes := trimOf blanks source

/-- The loop of `tokenize`; every pass moves `oldPos` behind a delimiter. -/
def tokenizeFrom (source delims : Bytes) : ℕ → ℕ → List Bytes
  | 0, _ => []
  | fuel + 1, oldPos =>
      match findFirstOf source delims oldPos with
      | some pos => trim (substr source oldPos (pos - oldPos)) :: tokenizeFrom source delims fuel (pos + 1)
      | none => [trim (substr source oldPos source.length)]

def tokenize (source delims : Bytes) : List Bytes :=
  if source.isEmpty then [] else tokenizeFrom source delims (source.length + 1) 0

/-- The pair form of `tokenize`: the new values of `left` and `right`. -/
def tokenizePair (source left right : Bytes) (greedy : Bool) (delims : Bytes) : Bytes × Bytes :=
  if source.isEmpty then (left, right)
  else if greedy then
    match findLastOf source delims with
    | none => ([], source)
    | some pos => (source.take pos, substr source (pos + 1) (source.length - pos - 1))
  else
    match findFirstOf source delims 0 with
    | none => (source, right)
    | some pos => (source.take pos, substr source (pos + 1) (source.length - pos - 1))

/-! ## Case -/

def toupper (c : UInt8) : UInt8 := if 97 ≤ c ∧ c ≤ 122 then c - 32 else c

def tolower (c : UInt8) : UInt8 := if 65 ≤ c ∧ c ≤ 90 then c + 32 else c

def compare (x y : Bytes) : Bool :=
  x.length == y.length && (x.zip y).all fun p => toupper p.1 == toupper p.2

/-- `std::lexicographical_compare` with `nocase_compare`. -/
def ciLess : Bytes → Bytes → Bool
  | _, [] => false
  | [], _ :: _ => true
  | c :: x, d :: y =>
      if tolower c < tolower d then true
      else if tolower d < tolower c then false
      else ciLess x y

theorem ciLess_irrefl (x : Bytes) : ciLess x x = false := by
  induction x with
  | nil => rfl
  | cons c x ih => simp [ciLess, ih]

theorem ciLess_split (x y z : Bytes) (h : ciLess x z = true) :
    ciLess x y = true ∨ ciLess y z = true := by
  induction x generalizing y z with
  | nil =>
    cases y with
    | nil => exact Or.inr h
    | cons d y => exact Or.inl rfl
  | cons c x ih =>
    cases z with
    | nil => simp [ciLess] at h
    | cons e z =>
      cases y with
      | nil => exact Or.inr rfl
      | cons d y =>
        simp only [ciLess, UInt8.lt_iff_toNat_lt] at h ⊢
        split_ifs at h ⊢ <;> first | omega | exact ih y z h | exact Or.inl rfl | exact Or.inr rfl

theorem ciLess_trans (x y z : Bytes) (hxy : ciLess x y = true) (hyz : ciLess y z = true) :
    ciLess x z = true := by
  induction x generalizing y z with
  | nil =>
    cases z with
    | nil => cases y <;> simp [ciLess] at hyz
    | cons e z => rfl
  | cons c x ih =>
    cases y with
    | nil => simp [ciLess] at hxy
    | cons d y =>
      cases z with
      | nil => simp [ciLess] at hyz
      | cons e z =>
        simp only [ciLess, UInt8.lt_iff_toNat_lt] at hxy hyz ⊢
        split_ifs at hxy hyz ⊢ <;> first | omega | exact ih y z hxy hyz

def ciOrder : KeyOrder Bytes := ⟨ciLess, ciLess_irrefl, ciLess_trans, ciLess_split⟩

/-- What a `const char*` function sees of a string: the bytes before the first NUL. -/
def cString (s : Bytes) : Bytes := s.takeWhile (· != 0)

theorem nul_notMem_cString (s : Bytes) : 0 ∉ cString s := by
  intro h
  have := List.mem_takeWhile_imp h
  simp at this

theorem cString_eq_self {s : Bytes} (h : 0 ∉ s) : cString s = s :=
  takeWhile_bne_self h

theorem cString_nul {a : Bytes} (h : 0 ∉ a) (r : Bytes) : cString (a ++ 0 :: r) = a :=
  takeWhile_bne_append h r

/-- Of a text that is handled in pieces, each as a C string, nothing is lost exactly when it has no NUL. -/
theorem flatMap_cString_eq_iff {ps : List Bytes} : ps.flatMap cString = ps.flatten ↔ 0 ∉ ps.flatten := by
  constructor
  · intro h
    rw [← h]
    intro hmem
    obtain ⟨p, -, hp⟩ := List.mem_flatMap.mp hmem
    exact nul_notMem_cString p hp
  · intro h
    have hps : ∀ p ∈ ps, cString p = p := fun p hp =>
      cString_eq_self fun h0 => h (List.mem_flatten.mpr ⟨p, hp, h0⟩)
    rw [List.flatMap_def, List.map_congr_left hps, List.map_id']

/-! ## Numbers -/

def isspace (c : UInt8) : Bool := c == 32 || (9 ≤ c && c ≤ 13)

def isdigit (c : UInt8) : Bool := 48 ≤ c && c ≤ 57

def isxdigit (c : UInt8) : Bool := isdigit c || (97 ≤ c && c ≤ 102) || (65 ≤ c && c ≤ 70)

def isalnum (c : UInt8) : Bool := isdigit c || (97 ≤ c && c ≤ 122) || (65 ≤ c && c ≤ 90)

/-- The value of a string of decimal digits, most significant first. -/
def digitsValue (ds : Bytes) : ℕ := ds.foldl (fun n c => n * 10 + (c.toNat - 48)) 0

/-- A numeral of a natural number: decimal digits, leading zeros allowed. -/
def Decimal (v : Bytes) (n : ℕ) : Prop := v ≠ [] ∧ (∀ c ∈ v, isdigit c = true) ∧ digitsValue v = n

/-- `from_string<size_t>`: an `istringstream` extraction; `none` is `type_conversion_exception`. -/
def fromStringSize (value : Bytes) : Option ℕ :=
  let v := value.dropWhile isspace
  let negative := v.head? == some 45
  let v := if negative || v.head? == some 43 then v.tail else v
  let ds := v.takeWhile isdigit
  if ds.isEmpty || 2 ^ 64 ≤ digitsValue ds then none
  else if negative then some ((2 ^ 64 - digitsValue ds) % 2 ^ 64)
  else some (digitsValue ds)

theorem fromStringSize_lt {v : Bytes} {n : ℕ} (h : fromStringSize v = some n) : n < 2 ^ 64 := by
  unfold fromStringSize at h
  simp only at h
  generalize List.takeWhile isdigit _ = ds at h
  split at h
  · cases h
  next hlt =>
    simp only [Bool.or_eq_true, not_or, decide_eq_true_eq] at hlt
    split at h
    · rw [← Option.some.inj h]
      exact Nat.mod_lt _ (by norm_num)
    · rw [← Option.some.inj h]
      omega

theorem isdigit_range {c : UInt8} (h : isdigit c = true) : 48 ≤ c.toNat ∧ c.toNat ≤ 57 := by
  simpa [isdigit, UInt8.le_iff_toNat_le] using h

theorem isdigit_plain {c : UInt8} (h : isdigit c = true) :
    isspace c = false ∧ c ≠ 45 ∧ c ≠ 43 ∧ c ≠ 0 := by
  have hc := isdigit_range h
  refine ⟨?_, fun h0 => ?_, fun h0 => ?_, fun h0 => ?_⟩
  · have h1 : c ≠ 32 := fun h0 => by simp [h0] at hc
    have h2 : ¬ c ≤ 13 := fun h0 => by
      rw [UInt8.le_iff_toNat_le] at h0
      have : (13 : UInt8).toNat = 13 := rfl
      omega
    simp [isspace, h1, h2]
  · simp [h0] at hc
  · simp [h0] at hc
  · simp [h0] at hc

theorem isdigit_not_blank {c : UInt8} (h : isdigit c = true) : blanks.contains c = false := by
  rw [Bool.eq_false_iff]
  intro hc
  have hspace := (isdigit_plain h).1
  simp only [blanks, List.contains_cons, List.contains_nil, Bool.or_false, Bool.or_eq_true, beq_iff_eq] at hc
  obtain rfl | rfl | rfl | rfl := hc <;> exact absurd hspace (by decide)

theorem fromStringSize_decimal {v : Bytes} {n : ℕ} (h : Decimal v n) :
    fromStringSize v = if 2 ^ 64 ≤ n then none else some n := by
  obtain ⟨hne, hdig, hval⟩ := h
  obtain ⟨c, t, rfl⟩ := List.exists_cons_of_ne_nil hne
  obtain ⟨hspace, hminus, hplus, _⟩ := isdigit_plain (hdig c (by simp))
  have hneg : ((c :: t).head? == some 45) = false := by simp [hminus]
  have hpos : ((c :: t).head? == some 43) = false := by simp [hplus]
  have hdrop : (c :: t).dropWhile isspace = c :: t := by simp [hspace]
  have htake : (c :: t).takeWhile isdigit = c :: t := List.takeWhile_eq_self_iff.mpr hdig
  simp only [fromStringSize, hdrop, hneg, hpos, Bool.or_self, Bool.false_eq_true, if_false, htake,
    hval, List.isEmpty_cons, Bool.false_or, decide_eq_true_eq]

/-- The value of a character as a digit in some base up to 16. -/
def digitOf (c : UInt8) : ℕ :=
  if isdigit c then c.toNat - 48
  else if 97 ≤ c ∧ c ≤ 102 then c.toNat - 87
  else if 65 ≤ c ∧ c ≤ 70 then c.toNat - 55
  else 16

/-- `strtol` on a string, with a 64-bit `long`; base 0 is octal, hexadecimal or decimal as in C. -/
def strtol (value : Bytes) (base : ℕ) : ℤ :=
  let v := value.dropWhile isspace
  let negative := v.head? == some 45
  let v := if negative || v.head? == some 43 then v.tail else v
  let hex := (base == 0 || base == 16) && v.head? == some 48 &&
    (v[1]? == some 120 || v[1]? == some 88) && v[2]?.any isxdigit
  let b := if base ≠ 0 then base else if hex then 16 else if v.head? == some 48 then 8 else 10
  let digits := (if hex then v.drop 2 else v).takeWhile fun c => decide (digitOf c < b)
  let n := digits.foldl (fun n c => n * b + digitOf c) 0
  if negative then max (-(n : ℤ)) (-2 ^ 63) else min (n : ℤ) (2 ^ 63 - 1)

/-- `from_string<int>`: `strtol` with base 0, as an `int`. -/
def fromStringInt (value : Bytes) : ℤ := toInt32 (strtol (cString value) 0)

/-- `to_string<int>`: `snprintf` with `%d`. -/
def toStringInt (z : ℤ) : Bytes :=
  let digits := (Nat.digits 10 z.natAbs).reverse.map fun d => UInt8.ofNat (48 + d)
  (if z < 0 then [45] else []) ++ (if digits.isEmpty then [48] else digits)

end Dcl
