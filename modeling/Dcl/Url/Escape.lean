import Dcl.Strutils.Tokens
import Dcl.Url.Parse

/-! # `encode` and `decode`

An escaped text has no character that a form uses as a separator, and `decode` reads back what
`encode` wrote. -/
namespace Dcl.Url
set_option autoImplicit false

/-! ## One character -/

theorem hexDigits_read : ∀ i < 16, ∀ j < 16, isxdigit (hexDigit i) = true ∧
    isxdigit (hexDigit j) = true ∧ strtol [hexDigit i, hexDigit j] 16 = 16 * i + j := by
  decide +kernel

theorem unescaped_plain {c : UInt8} (h : unescaped c = true) : c ≠ 37 ∧ c ≠ 43 := by
  constructor
  · rintro rfl
    exact absurd h (by decide)
  · rintro rfl
    exact absurd h (by decide)

theorem decodeFrom_plain {c : UInt8} (h : c ≠ 37) (rest : Bytes) :
    decodeFrom (c :: rest) = (if c = 43 then 32 else c) :: decodeFrom rest := by
  match rest with
  | [] => rfl
  | [_] => rfl
  | a :: b :: rest => simp [decodeFrom, h]

theorem decodeFrom_escape (c : UInt8) (rest : Bytes) :
    decodeFrom (escape c ++ rest) = c :: decodeFrom rest := by
  rw [escape]
  split
  next h =>
    obtain ⟨hpercent, hplus⟩ := unescaped_plain h
    rw [List.singleton_append, decodeFrom_plain hpercent, if_neg hplus]
  next =>
    have hc := c.toNat_lt
    obtain ⟨hi, hj, hvalue⟩ := hexDigits_read (c.toNat / 16) (by omega) (c.toNat % 16) (by omega)
    have hbyte : UInt8.ofNat (strtol [hexDigit (c.toNat / 16), hexDigit (c.toNat % 16)] 16).toNat = c := by
      have hnat : (16 * (c.toNat / 16 : ℕ) + (c.toNat % 16 : ℕ) : ℤ).toNat = c.toNat := by omega
      rw [hvalue, hnat, UInt8.ofNat_toNat]
    simp only [List.cons_append, List.nil_append, decodeFrom, hi, hj, hbyte, and_self, if_true]

/-- What stands for a character is no separator of a form, no white space and not NUL. -/
theorem escape_clean (c : UInt8) : ∀ x ∈ escape c, x ≠ 0 ∧ x ≠ 38 ∧ x ≠ 61 ∧
    blanks.contains x = false := by
  -- the members of the text are run through, not all the bytes
  have h : (escape c).all (fun x => decide (x ≠ 0 ∧ x ≠ 38 ∧ x ≠ 61 ∧ blanks.contains x = false)) = true := by
    revert c
    exact forall_byte (by decide +kernel)
  intro x hx
  exact of_decide_eq_true (List.all_eq_true.mp h x hx)

/-! ## Strings -/

theorem decodeFrom_flatMap (s : Bytes) : decodeFrom (s.flatMap escape) = s := by
  induction s with
  | nil => rfl
  | cons c s ih => rw [List.flatMap_cons, decodeFrom_escape, ih]

theorem encode_eq {s : Bytes} (h : s.length < 2 ^ 31) : encode s = s.flatMap escape := by
  rw [encode, toInt32_of_lt h, Int.toNat_natCast, List.take_length]

theorem decode_eq {s : Bytes} (h : s.length < 2 ^ 31) : decode s = decodeFrom s := by
  rw [decode, toInt32_of_lt h, Int.toNat_natCast, List.take_length]

theorem decode_encode {s : Bytes} (h : s.length < 2 ^ 31) (he : (encode s).length < 2 ^ 31) :
    decode (encode s) = s := by
  rw [decode_eq he, encode_eq h, decodeFrom_flatMap]

theorem encode_clean (s : Bytes) : ∀ x ∈ encode s, x ≠ 0 ∧ x ≠ 38 ∧ x ≠ 61 ∧
    blanks.contains x = false := by
  intro x hx
  obtain ⟨c, _, hc⟩ := List.mem_flatMap.mp hx
  exact escape_clean c x hc

end Dcl.Url
