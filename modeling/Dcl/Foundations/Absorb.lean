import Mathlib.Data.List.Basic
import Mathlib.Tactic.Common

/-! # Taking in a sequence block by block

`absorb f k s xs` feeds the blocks of `k` elements of `xs` to `f`, one after the other, and keeps what
is left over. Feeding a sequence in pieces, each behind what the last one left over, comes to the same
as feeding it at once. -/
namespace Dcl
set_option autoImplicit false

variable {σ α : Type*} (f : σ → List α → σ) {k : ℕ}

/-- The blocks of `k` elements at the beginning of a list. -/
def blocks (k : ℕ) (xs : List α) : List (List α) :=
  (List.range (xs.length / k)).map fun i => (xs.drop (k * i)).take k

def residue (k : ℕ) (xs : List α) : List α := xs.drop (k * (xs.length / k))

def absorb (k : ℕ) (s : σ) (xs : List α) : σ × List α := ((blocks k xs).foldl f s, residue k xs)

theorem blocks_short {xs : List α} (h : xs.length < k) : blocks k xs = [] := by
  rw [blocks, Nat.div_eq_of_lt h]
  rfl

theorem residue_short {xs : List α} (h : xs.length < k) : residue k xs = xs := by
  rw [residue, Nat.div_eq_of_lt h, Nat.mul_zero, List.drop_zero]

theorem length_residue (k : ℕ) (xs : List α) : (residue k xs).length = xs.length % k := by
  have := Nat.div_add_mod xs.length k
  rw [residue, List.length_drop]
  omega

theorem length_block_append (hk : 0 < k) {b : List α} (hb : b.length = k) (xs : List α) :
    (b ++ xs).length / k = xs.length / k + 1 := by
  rw [List.length_append, hb, Nat.add_comm, Nat.add_div_right _ hk]

theorem drop_block_append {b : List α} (hb : b.length = k) (xs : List α) (i : ℕ) :
    (b ++ xs).drop (k * (i + 1)) = xs.drop (k * i) := by
  have hi : k * (i + 1) = b.length + k * i := by rw [hb, Nat.mul_add, Nat.mul_one, Nat.add_comm]
  rw [hi, List.drop_length_add_append]

theorem blocks_block (hk : 0 < k) {b : List α} (hb : b.length = k) (xs : List α) :
    blocks k (b ++ xs) = b :: blocks k xs := by
  rw [blocks, blocks, length_block_append hk hb, List.range_succ_eq_map, List.map_cons, List.map_map]
  congr 1
  · rw [Nat.mul_zero, List.drop_zero, ← hb, List.take_left]
  · refine List.map_congr_left fun i _ => ?_
    rw [Function.comp_apply, drop_block_append hb]

theorem residue_block (hk : 0 < k) {b : List α} (hb : b.length = k) (xs : List α) :
    residue k (b ++ xs) = residue k xs := by
  rw [residue, length_block_append hk hb, drop_block_append hb, residue]

theorem absorb_block (hk : 0 < k) {b : List α} (hb : b.length = k) (s : σ) (xs : List α) :
    absorb f k s (b ++ xs) = absorb f k (f s b) xs := by
  rw [absorb, blocks_block hk hb, residue_block hk hb, List.foldl_cons, absorb]

theorem absorb_short {xs : List α} (h : xs.length < k) (s : σ) : absorb f k s xs = (s, xs) := by
  rw [absorb, blocks_short h, residue_short h, List.foldl_nil]

theorem absorb_exact (hk : 0 < k) {b : List α} (hb : b.length = k) (s : σ) :
    absorb f k s b = (f s b, []) := by
  have hblock := absorb_block f hk hb s []
  rw [List.append_nil] at hblock
  rw [hblock, absorb_short f hk]

/-- Feeding a sequence in two pieces. -/
theorem absorb_append (hk : 0 < k) (s : σ) (xs ys : List α) :
    absorb f k s (xs ++ ys) = absorb f k (absorb f k s xs).1 ((absorb f k s xs).2 ++ ys) := by
  by_cases hshort : xs.length < k
  · rw [absorb_short f hshort]
  · -- the first block of `xs`
    have htake : (xs.take k).length = k := by
      rw [List.length_take]
      omega
    have hstep := absorb_append hk (f s (xs.take k)) (xs.drop k) ys
    rw [← absorb_block f hk htake, ← absorb_block f hk htake, ← List.append_assoc,
      List.take_append_drop] at hstep
    exact hstep
termination_by xs.length
decreasing_by
  rw [List.length_drop]
  omega

end Dcl
