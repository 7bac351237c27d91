import Mathlib.Data.List.Basic
import Mathlib.Tactic.Common

/-! # A vector that records its accesses

A list with, next to it, every access made so far: the index and the size of the vector at that moment.
An access behind the end is recorded like any other and changes no element. -/
namespace Dcl
set_option autoImplicit false

structure TracedVector (α : Type*) where
  data : List α
  accesses : List (ℕ × ℕ)

namespace TracedVector
variable {α : Type*}

def of (l : List α) : TracedVector α := ⟨l, []⟩

/-- Every access so far was to an element of the vector. -/
def InBounds (v : TracedVector α) : Prop := ∀ a ∈ v.accesses, a.1 < a.2

/-- The address of an element is taken. -/
def touch (v : TracedVector α) (i : ℕ) : TracedVector α :=
  { v with accesses := v.accesses ++ [(i, v.data.length)] }

def write (v : TracedVector α) (i : ℕ) (a : α) : TracedVector α :=
  { v.touch i with data := v.data.set i a }

def pushBack (v : TracedVector α) (a : α) : TracedVector α :=
  ⟨v.data ++ [a], v.accesses ++ [(v.data.length, v.data.length + 1)]⟩

/-- The vector grows by `n` elements `a`. -/
def grow (v : TracedVector α) (n : ℕ) (a : α) : TracedVector α :=
  ⟨v.data ++ List.replicate n a,
    v.accesses ++ (List.range n).map fun i => (v.data.length + i, v.data.length + n)⟩

/-- The elements of `l` are written one after another, from `i` on. -/
def writeAll (v : TracedVector α) (i : ℕ) : List α → TracedVector α
  | [] => v
  | a :: l => (v.write i a).writeAll (i + 1) l

variable {v : TracedVector α} {i : ℕ}

theorem inBounds_of (l : List α) : (of l).InBounds := nofun

theorem InBounds.touch (hv : v.InBounds) (hi : i < v.data.length) : (v.touch i).InBounds :=
  List.forall_mem_append.mpr ⟨hv, by simpa using hi⟩

theorem InBounds.pushBack (hv : v.InBounds) (a : α) : (v.pushBack a).InBounds :=
  List.forall_mem_append.mpr ⟨hv, by simp⟩

theorem InBounds.grow (hv : v.InBounds) (n : ℕ) (a : α) : (v.grow n a).InBounds := by
  refine List.forall_mem_append.mpr ⟨hv, fun x hx => ?_⟩
  obtain ⟨j, hj, rfl⟩ := List.mem_map.mp hx
  have := List.mem_range.mp hj
  dsimp only
  omega

theorem length_write (v : TracedVector α) (i : ℕ) (a : α) : (v.write i a).data.length = v.data.length :=
  List.length_set

/-- What is written stays in the vector when there is room for it. -/
theorem data_writeAll {l : List α} (h : i + l.length ≤ v.data.length) :
    (v.writeAll i l).data = v.data.take i ++ l ++ v.data.drop (i + l.length) := by
  induction l generalizing v i with
  | nil => simp [writeAll]
  | cons a l ih =>
    rw [List.length_cons] at h
    have hi : i < v.data.length := by omega
    have htake : (v.data.set i a).take (i + 1) = v.data.take i ++ [a] := by
      rw [List.take_add_one, List.take_set_of_le (Nat.le_refl i), List.getElem?_set_self hi]
      rfl
    have hdrop : (v.data.set i a).drop (i + 1 + l.length) = v.data.drop (i + (l.length + 1)) := by
      rw [List.drop_set_of_lt (by omega)]
      congr 1
      omega
    rw [writeAll, ih (by rw [length_write]; omega)]
    change (v.data.set i a).take (i + 1) ++ l ++ (v.data.set i a).drop (i + 1 + l.length) = _
    rw [htake, hdrop, List.length_cons]
    simp

theorem InBounds.writeAll (hv : v.InBounds) {l : List α} (h : i + l.length ≤ v.data.length) :
    (v.writeAll i l).InBounds := by
  induction l generalizing v i with
  | nil => exact hv
  | cons a l ih =>
    rw [List.length_cons] at h
    have hwrite : (v.write i a).InBounds := hv.touch (by omega)
    exact ih hwrite (by rw [length_write]; omega)

end TracedVector

end Dcl
