import Dcl.Strutils.Numerals

/-! # `any`

`include/dcl/any.h` for values of the types `int`, `bool` and `std::string`. `operator==` brings its right operand
to the type of the left one through a string, with `to_string` and `from_string` of `strutils.h`; the conversions
that throw `type_conversion_exception` answer `none`. -/
namespace Dcl.Values
set_option autoImplicit false

/-! ## Conversions -/

/-- `from_string<bool>`: an `istringstream` extraction, which takes the numbers 0 and 1 only. -/
def fromStringBool (value : Bytes) : Option Bool :=
  let v := value.dropWhile isspace
  let negative := v.head? == some 45
  let v := if negative || v.head? == some 43 then v.tail else v
  let ds := v.takeWhile isdigit
  if ds.isEmpty then none
  else if digitsValue ds = 0 then some false
  else if digitsValue ds = 1 && !negative then some true
  else none

/-- `to_string<bool>`. -/
def toStringBool (b : Bool) : Bytes := if b then ascii "1" else ascii "0"

/-- The values of an `int`. -/
structure CInt where
  val : ℤ
  ge : -2 ^ 31 ≤ val
  lt : val < 2 ^ 31
  deriving DecidableEq

theorem fromStringInt_range (value : Bytes) : -2 ^ 31 ≤ fromStringInt value ∧ fromStringInt value < 2 ^ 31 := by
  rw [fromStringInt, toInt32, Int.bmod_def]
  omega

/-- A type with its `to_string` and `from_string`. -/
class Convertible (T : Type) where
  text : T → Bytes
  read : Bytes → Option T

instance : Convertible CInt where
  text n := toStringInt n.val
  read s := some ⟨fromStringInt s, (fromStringInt_range s).1, (fromStringInt_range s).2⟩

instance : Convertible Bool := ⟨toStringBool, fromStringBool⟩

instance : Convertible Bytes := ⟨id, some⟩

/-! ## The class -/

/-- `pimpl`, with the value it holds. -/
inductive Any where
  | empty
  | int (n : CInt)
  | bool (b : Bool)
  | string (s : Bytes)
  deriving DecidableEq

namespace Any

/-- `impl<T>::operator==`, on the `str()` of the other value. -/
def implEq {T : Type} [DecidableEq T] [Convertible T] (value : T) (other : Bytes) : Option Bool :=
  (Convertible.read other).map fun x => decide (value = x)

def str : Any → Bytes
  | .empty => []
  | .int n => Convertible.text n
  | .bool b => Convertible.text b
  | .string s => Convertible.text s

/-- `operator==`; `none` for an exception. -/
def eq (a b : Any) : Option Bool :=
  match a, b with
  | .empty, .empty => some true
  | .empty, _ => some false
  | _, .empty => some false
  | .int n, b => implEq n b.str
  | .bool x, b => implEq x b.str
  | .string s, b => implEq s b.str

/-! ## Values of one type -/

/-- A value is read back from its text. -/
theorem implEq_text {T : Type} [DecidableEq T] [Convertible T]
    (h : ∀ x : T, Convertible.read (Convertible.text x) = some x) (x y : T) :
    implEq x (Convertible.text y) = some (decide (x = y)) := by
  rw [implEq, h y, Option.map_some]

theorem symmetric_text {T : Type} [DecidableEq T] [Convertible T]
    (h : ∀ x : T, Convertible.read (Convertible.text x) = some x) (x y : T) :
    ∃ r, implEq x (Convertible.text y) = some r ∧ implEq y (Convertible.text x) = some r := by
  refine ⟨decide (x = y), implEq_text h x y, ?_⟩
  rw [implEq_text h y x, decide_eq_decide.mpr (eq_comm (a := y) (b := x))]

theorem read_text_int (n : CInt) : Convertible.read (Convertible.text n) = some n := by
  have hread : fromStringInt (toStringInt n.val) = n.val := fromStringInt_int n.ge n.lt
  simp only [Convertible.read, Convertible.text, hread]

theorem read_text_bool (b : Bool) : Convertible.read (Convertible.text b) = some b := by
  cases b <;> decide

theorem read_text_string (s : Bytes) : Convertible.read (Convertible.text s) = some s := rfl

/-! ## Values of two types -/

/-- A number as a `bool`: its sign and its digits are read, and only 0 and 1 are taken. -/
theorem fromStringBool_text (z : ℤ) :
    fromStringBool (toStringInt z) = if z = 0 then some false else if z = 1 then some true else none := by
  obtain ⟨c, t, htext, hdigits, -, hvalue⟩ := toStringInt_signed z
  obtain ⟨hspace, hminus, hplus, -⟩ := isdigit_plain (hdigits c (by simp))
  have htake : (c :: t).takeWhile isdigit = c :: t := List.takeWhile_eq_self_iff.mpr hdigits
  have hdec : digitsValue (c :: t) = z.natAbs := by rw [digitsValue_eq hdigits, hvalue]
  rw [htext]
  by_cases hneg : z < 0
  · have h45 : isspace 45 = false := by decide
    rw [if_pos hneg, if_neg (by omega), if_neg (by omega)]
    simp [fromStringBool, h45, htake, hdec]
    omega
  · rw [if_neg hneg, List.nil_append]
    simp only [fromStringBool, List.dropWhile_cons, hspace, Bool.false_eq_true, if_false, List.head?_cons,
      Option.some_beq_some, beq_eq_false_iff_ne.mpr hminus, beq_eq_false_iff_ne.mpr hplus, Bool.or_self, htake,
      List.isEmpty_cons, hdec, Bool.not_false, Bool.and_true, decide_eq_true_eq]
    have h0 : z.natAbs = 0 ↔ z = 0 := by omega
    have h1 : z.natAbs = 1 ↔ z = 1 := by omega
    simp only [h0, h1]

theorem fromStringInt_toStringBool (x : Bool) : fromStringInt (toStringBool x) = if x then 1 else 0 := by
  cases x <;> decide

/-- Both orders give one result, and none of them throws. -/
def Symmetric (a b : Any) : Prop := ∃ r, a.eq b = some r ∧ b.eq a = some r

/-- When they do: one is empty, both are of one type, or their conversions into each other agree. -/
def Agree : Any → Any → Prop
  | .int n, .bool _ | .bool _, .int n => n.val = 0 ∨ n.val = 1
  | .int n, .string s | .string s, .int n => s = toStringInt n.val ∨ fromStringInt s ≠ n.val
  | .bool x, .string s | .string s, .bool x => s = toStringBool x ∨ fromStringBool s = some (!x)
  | _, _ => True

theorem Symmetric.comm {a b : Any} : Symmetric a b ↔ Symmetric b a :=
  ⟨fun ⟨r, h1, h2⟩ => ⟨r, h2, h1⟩, fun ⟨r, h1, h2⟩ => ⟨r, h2, h1⟩⟩

theorem symmetric_int_bool (n : CInt) (x : Bool) : Symmetric (.int n) (.bool x) ↔ n.val = 0 ∨ n.val = 1 := by
  have hleft : (Any.int n).eq (.bool x) = some (decide (n.val = if x then 1 else 0)) := by
    simp only [eq, implEq, str, Convertible.read, Convertible.text, Option.map_some,
      fromStringInt_toStringBool]
    cases n
    simp
  have hright : (Any.bool x).eq (.int n) =
      (if n.val = 0 then some false else if n.val = 1 then some true else none).map fun y => decide (x = y) := by
    rw [← fromStringBool_text]
    rfl
  rw [Symmetric, hleft, hright]
  by_cases h0 : n.val = 0
  · rw [if_pos h0, h0]
    cases x <;> simp
  · rw [if_neg h0]
    by_cases h1 : n.val = 1
    · rw [if_pos h1, h1]
      cases x <;> simp
    · rw [if_neg h1]
      simp [h0, h1]

/-- Against a string, the other value is compared with what the string is read as, and its text with the string. -/
theorem symmetric_string {T : Type} [DecidableEq T] [Convertible T]
    (h : ∀ x : T, Convertible.read (Convertible.text x) = some x) (x : T) (s : Bytes) :
    (∃ r, implEq x s = some r ∧ implEq s (Convertible.text x) = some r) ↔
      s = Convertible.text x ∨ ∃ y, Convertible.read s = some y ∧ y ≠ x := by
  have hright : implEq s (Convertible.text x) = some (decide (s = Convertible.text x)) := rfl
  rw [hright, implEq]
  constructor
  · rintro ⟨r, h1, h2⟩
    obtain ⟨y, hy, hyr⟩ := Option.map_eq_some_iff.mp h1
    rw [← Option.some.inj h2, decide_eq_decide] at hyr
    by_cases hs : s = Convertible.text x
    · exact .inl hs
    · exact .inr ⟨y, hy, fun hyx => hs (hyr.mp hyx.symm)⟩
  · rintro (rfl | ⟨y, hy, hyx⟩)
    · exact ⟨true, by simp [h x], by simp⟩
    · have hs : s ≠ Convertible.text x := by
        rintro rfl
        exact hyx (Option.some.inj (hy.symm.trans (h x)))
      exact ⟨false, by simp [hy, Ne.symm hyx], by simp [hs]⟩

theorem symmetric_int_string (n : CInt) (s : Bytes) :
    Symmetric (.int n) (.string s) ↔ s = toStringInt n.val ∨ fromStringInt s ≠ n.val := by
  refine (symmetric_string read_text_int n s).trans (or_congr Iff.rfl ?_)
  constructor
  · rintro ⟨y, hy, hne⟩ hval
    rw [← Option.some.inj hy] at hne
    refine hne ?_
    cases n
    simpa using hval
  · intro hne
    exact ⟨_, rfl, fun h => hne (congrArg CInt.val h)⟩

theorem symmetric_bool_string (x : Bool) (s : Bytes) :
    Symmetric (.bool x) (.string s) ↔ s = toStringBool x ∨ fromStringBool s = some (!x) := by
  refine (symmetric_string read_text_bool x s).trans (or_congr Iff.rfl ?_)
  constructor
  · rintro ⟨y, hy, hne⟩
    rw [← Bool.eq_not.mpr hne]
    exact hy
  · intro h
    exact ⟨!x, h, by simp⟩

/-- `a == b` and `b == a` give the same result without an exception in exactly these cases. -/
theorem eq_symmetric_iff (a b : Any) : Symmetric a b ↔ Agree a b := by
  cases a with
  | empty => cases b <;> exact iff_of_true ⟨_, rfl, rfl⟩ trivial
  | int n =>
    cases b with
    | empty => exact iff_of_true ⟨false, rfl, rfl⟩ trivial
    | int m => exact iff_of_true (symmetric_text read_text_int n m) trivial
    | bool x => exact symmetric_int_bool n x
    | string s => exact symmetric_int_string n s
  | bool x =>
    cases b with
    | empty => exact iff_of_true ⟨false, rfl, rfl⟩ trivial
    | int n => exact Symmetric.comm.trans (symmetric_int_bool n x)
    | bool y => exact iff_of_true (symmetric_text read_text_bool x y) trivial
    | string s => exact symmetric_bool_string x s
  | string s =>
    cases b with
    | empty => exact iff_of_true ⟨false, rfl, rfl⟩ trivial
    | int n => exact Symmetric.comm.trans (symmetric_int_string n s)
    | bool x => exact Symmetric.comm.trans (symmetric_bool_string x s)
    | string t => exact iff_of_true (symmetric_text read_text_string s t) trivial

/-- A string that is no number, and a number with something behind it. -/
theorem eq_not_symmetric :
    (Any.bool true).eq (.string (ascii "test")) = none ∧
    (Any.string (ascii "test")).eq (.bool true) = some false ∧
    (Any.int ⟨1, by decide, by decide⟩).eq (.string (ascii "1x")) = some true ∧
    (Any.string (ascii "1x")).eq (.int ⟨1, by decide, by decide⟩) = some false := by
  decide +kernel

end Any

end Dcl.Values
