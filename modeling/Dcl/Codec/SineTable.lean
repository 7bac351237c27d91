import Dcl.Codec.Rfc1321
import Mathlib.Analysis.Complex.Basic
import Mathlib.Analysis.Complex.Trigonometric
import Mathlib.Tactic.LinearCombination

/-! # The table of the RFC is that of the sine function

`T[i]` is the integer part of 2^32 times the absolute value of the sine of `i` radians. The powers of a
rational approximation of `exp I` are computed with integers; their distance from the points
`exp (n * I)` grows by no more than the distance of the first one at each step. -/
namespace Dcl.SineTable
set_option autoImplicit false
open Complex

/-- The sum of the first twenty terms of the series of `exp I`, as a fraction over 19!. -/
def turn : ℤ × ℤ := (65725128248453315, 102360822438075317)

def turns : ℕ → ℤ × ℤ
  | 0 => (1, 0)
  | n + 1 =>
      let p := turns n
      (p.1 * turn.1 - p.2 * turn.2, p.2 * turn.1 + p.1 * turn.2)

noncomputable def approx : ℂ := (turn.1 + turn.2 * I) / 121645100408832000

theorem approx_eq : approx = ∑ m ∈ Finset.range 20, I ^ m / m.factorial := by
  have h2 : ∀ n, I ^ (n + 2) = -I ^ n := by
    intro n
    rw [pow_add, I_sq]
    ring
  simp only [Finset.sum_range_succ, Finset.sum_range_zero, h2, pow_zero, pow_one, Nat.factorial, approx, turn]
  apply Complex.ext
  · simp
    norm_num
  · simp
    norm_num

theorem norm_approx : ‖approx‖ ≤ 1 := by
  have hsq : ‖approx‖ ^ 2 ≤ 1 := by
    rw [Complex.sq_norm, normSq_apply]
    simp [approx, turn]
    norm_num
  exact (sq_le_one_iff₀ (norm_nonneg _)).mp hsq

theorem dist_approx : ‖exp I - approx‖ ≤ 21 / (400 * 121645100408832000) := by
  have h := exp_bound (x := I) (by simp) (n := 20) (by decide)
  rw [← approx_eq] at h
  refine h.trans (le_of_eq ?_)
  simp [Nat.factorial]
  norm_num

/-- The powers of two points of the unit disc move apart by their distance at each step. -/
theorem norm_pow_sub_pow {z w : ℂ} (hz : ‖z‖ ≤ 1) (hw : ‖w‖ ≤ 1) (n : ℕ) :
    ‖z ^ n - w ^ n‖ ≤ n * ‖z - w‖ := by
  induction n with
  | zero => simp
  | succ n ih =>
    have hsplit : z ^ (n + 1) - w ^ (n + 1) = z ^ n * (z - w) + (z ^ n - w ^ n) * w := by ring
    have hzn : ‖z ^ n‖ ≤ 1 := by
      rw [norm_pow]
      exact pow_le_one₀ (norm_nonneg z) hz
    calc ‖z ^ (n + 1) - w ^ (n + 1)‖
        ≤ ‖z ^ n * (z - w)‖ + ‖(z ^ n - w ^ n) * w‖ := by
          rw [hsplit]
          exact norm_add_le _ _
      _ = ‖z ^ n‖ * ‖z - w‖ + ‖z ^ n - w ^ n‖ * ‖w‖ := by rw [norm_mul, norm_mul]
      _ ≤ 1 * ‖z - w‖ + ‖z ^ n - w ^ n‖ * 1 := by gcongr
      _ ≤ (n + 1 : ℕ) * ‖z - w‖ := by
          push_cast
          linarith

theorem approx_pow (n : ℕ) :
    approx ^ n = ((turns n).1 + (turns n).2 * I) / 121645100408832000 ^ n := by
  induction n with
  | zero => simp [turns]
  | succ n ih =>
    rw [pow_succ, ih, approx, turns]
    push_cast
    field_simp
    linear_combination ((turns n).2 * turn.2 : ℂ) * 121645100408832000 ^ (n + 1) * I_mul_I

theorem sin_near (n : ℕ) : |Real.sin n - (turns n).2 / 121645100408832000 ^ n| ≤
    n * (21 / (400 * 121645100408832000)) := by
  have hpow : exp I ^ n = exp ((n : ℝ) * I) := by
    rw [← exp_nat_mul]
    simp
  have him : (exp I ^ n - approx ^ n).im =
      Real.sin n - (turns n).2 / 121645100408832000 ^ n := by
    have hscale : (121645100408832000 : ℂ) ^ n = ((121645100408832000 ^ n : ℝ) : ℂ) := by
      push_cast
      rfl
    rw [hpow, approx_pow, sub_im, exp_ofReal_mul_I_im, hscale, div_ofReal_im]
    simp
  have hunit : ‖exp I‖ ≤ 1 := by
    have h := norm_exp_ofReal_mul_I 1
    simp at h
    exact h.le
  rw [← him]
  calc |(exp I ^ n - approx ^ n).im| ≤ ‖exp I ^ n - approx ^ n‖ := abs_im_le_norm _
    _ ≤ n * ‖exp I - approx‖ := norm_pow_sub_pow hunit norm_approx n
    _ ≤ n * (21 / (400 * 121645100408832000)) := by
        gcongr
        exact dist_approx

def Encloses (t n : ℕ) : Prop :=
  t * 400 * 121645100408832000 ^ (n + 1) + 21 * n * 2 ^ 32 * 121645100408832000 ^ n ≤
      400 * 121645100408832000 * 2 ^ 32 * |(turns n).2| ∧
    400 * 121645100408832000 * 2 ^ 32 * |(turns n).2| +
        21 * n * 2 ^ 32 * 121645100408832000 ^ n < (t + 1) * 400 * 121645100408832000 ^ (n + 1)

instance (t n : ℕ) : Decidable (Encloses t n) := inferInstanceAs (Decidable (_ ∧ _))

theorem floor_eq {t n : ℕ} (h : Encloses t n) : ⌊(2 : ℝ) ^ 32 * |Real.sin n|⌋ = t := by
  obtain ⟨hlow, hhigh⟩ := h
  have hnear := sin_near n
  have hpos : (0 : ℝ) < 121645100408832000 ^ n := by positivity
  have habs : |(|Real.sin n| - |((turns n).2 : ℝ)| / 121645100408832000 ^ n)| ≤
      n * (21 / (400 * 121645100408832000)) := by
    refine le_trans ?_ hnear
    have h := abs_abs_sub_abs_le_abs_sub (Real.sin n) ((turns n).2 / 121645100408832000 ^ n)
    rwa [abs_div, abs_of_pos hpos] at h
  obtain ⟨y, hy⟩ : ∃ y, |((turns n).2 : ℝ)| = y * 121645100408832000 ^ n :=
    ⟨_, (div_mul_cancel₀ _ hpos.ne').symm⟩
  rw [hy, mul_div_cancel_right₀ _ hpos.ne'] at habs
  obtain ⟨hl, hr⟩ := abs_le.mp habs
  have hlow' : (t : ℝ) * 400 * 121645100408832000 ^ (n + 1) +
      21 * n * 2 ^ 32 * 121645100408832000 ^ n ≤
        400 * 121645100408832000 * 2 ^ 32 * |((turns n).2 : ℝ)| := by exact_mod_cast hlow
  have hhigh' : 400 * 121645100408832000 * 2 ^ 32 * |((turns n).2 : ℝ)| +
      21 * n * 2 ^ 32 * 121645100408832000 ^ n <
        ((t : ℝ) + 1) * 400 * 121645100408832000 ^ (n + 1) := by exact_mod_cast hhigh
  rw [hy, pow_succ _ n] at hlow' hhigh'
  -- the common factor of the two inequalities is the power of 19!
  have hlow'' : (t : ℝ) * 400 * 121645100408832000 + 21 * n * 2 ^ 32 ≤
      400 * 121645100408832000 * 2 ^ 32 * y := by
    refine le_of_mul_le_mul_right ?_ hpos
    linarith
  have hhigh'' : 400 * 121645100408832000 * 2 ^ 32 * y + 21 * n * 2 ^ 32 <
      ((t : ℝ) + 1) * 400 * 121645100408832000 := by
    refine lt_of_mul_lt_mul_right ?_ hpos.le
    linarith
  rw [Int.floor_eq_iff]
  constructor
  · push_cast
    linarith
  · push_cast
    linarith

theorem table_encloses : ∀ i < 64, Encloses (Rfc1321.T.getD i 0).toNat (i + 1) := by
  decide +kernel

/-- `T[i]` is the integer part of 2^32 times the absolute value of the sine of `i` radians. -/
theorem table_sine {i : ℕ} (h : i < 64) :
    ((Rfc1321.T.getD i 0).toNat : ℤ) = ⌊(2 : ℝ) ^ 32 * |Real.sin (i + 1 : ℕ)|⌋ :=
  (floor_eq (table_encloses i h)).symm

end Dcl.SineTable
