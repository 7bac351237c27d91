import Mathlib.Algebra.GroupWithZero.Nat
import Mathlib.Algebra.Order.BigOperators.Group.List
import Mathlib.Algebra.Order.Group.Nat
import Mathlib.Data.List.Basic
import Mathlib.Data.List.Perm.Subperm
import Mathlib.Tactic.Common

/-! # Lists of slots

Objects that are moved between lists and slots are followed by counting: removing the element at a
position lowers its count by one, and changing what one slot holds changes two counts. The second
part is about what a change of one slot leaves as it was. -/
namespace Dcl.Slots
set_option autoImplicit false

variable {α β : Type*}

theorem count_eraseIdx [DecidableEq α] (l : List α) (i : ℕ) (a : α) (h : l[i]? = some a) (x : α) :
    (l.eraseIdx i).count x + [a].count x = l.count x := by
  induction l generalizing i with
  | nil => simp at h
  | cons b l ih =>
    cases i with
    | zero =>
      have hb : b = a := by simpa using h
      subst hb
      simp only [List.eraseIdx_zero, List.tail_cons, List.count_cons, List.count_nil]
      omega
    | succ i =>
      have hi : l[i]? = some a := by simpa using h
      have := ih i hi
      simp only [List.eraseIdx_cons_succ, List.count_cons] at *
      omega

theorem countP_set {l : List α} {k : ℕ} {a : α} (h : l[k]? = some a) (b : α) (f : α → Bool) :
    (l.set k b).countP f + (f a).toNat = l.countP f + (f b).toNat := by
  induction l generalizing k with
  | nil => simp at h
  | cons c l ih =>
    cases k with
    | zero =>
      have hc : c = a := by simpa using h
      subst hc
      simp only [List.set_cons_zero, List.countP_cons]
      cases f c <;> cases f b <;> simp
    | succ k =>
      have hk : l[k]? = some a := by simpa using h
      have := ih hk
      simp only [List.set_cons_succ, List.countP_cons]
      omega

theorem sum_set {l : List α} {k : ℕ} {a : α} (h : l[k]? = some a) (b : α) (f : α → ℕ) :
    ((l.set k b).map f).sum + f a = (l.map f).sum + f b := by
  induction l generalizing k with
  | nil => simp at h
  | cons c l ih =>
    cases k with
    | zero =>
      have hc : c = a := by simpa using h
      subst hc
      simp only [List.set_cons_zero, List.map_cons, List.sum_cons]
      omega
    | succ k =>
      have hk : l[k]? = some a := by simpa using h
      have := ih hk
      simp only [List.set_cons_succ, List.map_cons, List.sum_cons]
      omega

/-- The weights of two different slots are parts of the sum. -/
theorem add_le_sum {l : List α} {i j : ℕ} {a b : α} (hi : l[i]? = some a) (hj : l[j]? = some b)
    (hij : i ≠ j) (f : α → ℕ) : f a + f b ≤ (l.map f).sum := by
  induction l generalizing i j with
  | nil => simp at hi
  | cons c l ih =>
    have hmem : ∀ {k : ℕ} {d : α}, l[k]? = some d → f d ≤ (l.map f).sum := fun h =>
      List.le_sum_of_mem (List.mem_map_of_mem (List.mem_of_getElem? h))
    rw [List.map_cons, List.sum_cons]
    cases i with
    | zero =>
      obtain ⟨j, rfl⟩ : ∃ k, j = k + 1 := ⟨j - 1, by omega⟩
      obtain rfl : c = a := by simpa using hi
      have := hmem (show l[j]? = some b by simpa using hj)
      omega
    | succ i =>
      have hi' : l[i]? = some a := by simpa using hi
      cases j with
      | zero =>
        obtain rfl : c = b := by simpa using hj
        have := hmem hi'
        omega
      | succ j =>
        have := ih hi' (show l[j]? = some b by simpa using hj) (by omega)
        omega

/-- The occurrences of `x` in the slots after slot `k` went from `a` to `b`. -/
theorem count_filterMap_set [DecidableEq β] (f : α → Option β) (l : List α) (k : ℕ) (a b : α)
    (h : l[k]? = some a) (x : β) :
    ((l.set k b).filterMap f).count x + (f a).toList.count x =
      (l.filterMap f).count x + (f b).toList.count x := by
  have hslot : ∀ o : Option β, o.toList.count x = (o == some x).toNat := by
    intro o
    cases o with
    | none => rfl
    | some y =>
      rw [Option.toList_some, List.count_singleton, Option.some_beq_some]
      cases y == x <;> rfl
  rw [List.count_filterMap, List.count_filterMap, hslot, hslot]
  exact countP_set h b fun c => f c == some x

theorem length_eq_countP_range {l : List ℕ} (hl : l.Nodup) {n : ℕ} {p : ℕ → Bool}
    (h : ∀ x, x ∈ l ↔ x < n ∧ p x = true) : l.length = (List.range n).countP p := by
  have hperm : l.Perm ((List.range n).filter p) := by
    rw [List.perm_ext_iff_of_nodup hl (List.nodup_range.filter p)]
    intro x
    rw [List.mem_filter, List.mem_range]
    exact h x
  rw [List.countP_eq_length_filter]
  exact hperm.length_eq

/-! ## Changing one slot -/

theorem getElem?_set_of_some {l : List α} {k : ℕ} {a : α} (h : l[k]? = some a) (b : α) (i : ℕ) :
    (l.set k b)[i]? = if i = k then some b else l[i]? := by
  have hk : k < l.length := (List.getElem?_eq_some_iff.mp h).1
  by_cases hi : i = k
  · subst hi
    rw [if_pos rfl, List.getElem?_set_self hk]
  · rw [if_neg hi, List.getElem?_set_ne (Ne.symm hi)]

theorem getElem?_set_cases {l : List α} {k i : ℕ} {b c : α} (h : (l.set k b)[i]? = some c) :
    (i = k ∧ c = b) ∨ (i ≠ k ∧ l[i]? = some c) := by
  by_cases hi : i = k
  · subst hi
    have hlen : i < l.length := by simpa using (List.getElem?_eq_some_iff.mp h).1
    rw [List.getElem?_set_self hlen, Option.some.injEq] at h
    exact .inl ⟨rfl, h.symm⟩
  · rw [List.getElem?_set_ne (Ne.symm hi)] at h
    exact .inr ⟨hi, h⟩

theorem any_iff (l : List α) (f : α → Bool) :
    l.any f = true ↔ ∃ (i : ℕ) (a : α), l[i]? = some a ∧ f a = true := by
  rw [List.any_eq_true]
  constructor
  · rintro ⟨a, ha, hf⟩
    obtain ⟨i, hi⟩ := List.mem_iff_getElem?.mp ha
    exact ⟨i, a, hi, hf⟩
  · rintro ⟨i, a, hi, hf⟩
    exact ⟨a, List.mem_of_getElem? hi, hf⟩

theorem any_set_iff {l : List α} {k : ℕ} {a : α} (h : l[k]? = some a) (b : α) (f : α → Bool) :
    (l.set k b).any f = true ↔ f b = true ∨ ∃ i c, i ≠ k ∧ l[i]? = some c ∧ f c = true := by
  rw [any_iff]
  constructor
  · rintro ⟨i, c, hi, hf⟩
    obtain ⟨_, rfl⟩ | ⟨hik, hi⟩ := getElem?_set_cases hi
    · exact .inl hf
    · exact .inr ⟨i, c, hik, hi, hf⟩
  · rintro (hf | ⟨i, c, hik, hi, hf⟩)
    · exact ⟨k, b, by rw [getElem?_set_of_some h, if_pos rfl], hf⟩
    · exact ⟨i, c, by rw [getElem?_set_of_some h, if_neg hik, hi], hf⟩

theorem any_set_same {l : List α} {k : ℕ} {a b : α} (h : l[k]? = some a) {f : α → Bool}
    (hf : f b = f a) : (l.set k b).any f = l.any f := by
  rw [Bool.eq_iff_iff, any_set_iff h, any_iff, hf]
  constructor
  · rintro (ha | ⟨i, c, _, hi, hc⟩)
    · exact ⟨k, a, h, ha⟩
    · exact ⟨i, c, hi, hc⟩
  · rintro ⟨i, c, hi, hc⟩
    by_cases hik : i = k
    · subst hik
      rw [h, Option.some.injEq] at hi
      exact .inl (hi ▸ hc)
    · exact .inr ⟨i, c, hik, hi, hc⟩

end Dcl.Slots
