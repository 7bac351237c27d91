import Mathlib.Data.List.DropRight
import Mathlib.Tactic.Common

/-! # A stack, and a scan from its end

A word of names, of marks that take back the last name, and of marks that do nothing. `stack` reads it from
left to right. `scan` reads it from right to left and counts the marks that still have to take back a name;
what it does with a name is decided by `skips`, a test of the counter. With the test `0 < q` the scan leaves
the stack. A test that fails from some bound on leaves more names than the stack has, from the first name on
where it fails. What stands in front of a word adds nothing to it exactly when its names are all skipped by
the marks that are pending there. -/
namespace Dcl.StackScan
set_option autoImplicit false

inductive Mark where
  | name
  | back
  | stay
  deriving DecidableEq

section Scan
variable {α : Type*} (mark : α → Mark)

def push (stack : List α) (x : α) : List α :=
  match mark x with
  | .name => stack ++ [x]
  | .back => stack.dropLast
  | .stay => stack

def stack (w : List α) : List α := w.foldl (push mark) []

/-- The elements from the last to the first, `q` marks pending. -/
def scan (skips : ℕ → Bool) : List α → ℕ → List α → List α
  | [], _, kept => kept
  | x :: v, q, kept =>
      match mark x with
      | .back => scan skips v (q + 1) kept
      | .stay => scan skips v q kept
      | .name => if skips q then scan skips v (q - 1) kept else scan skips v q (x :: kept)

/-- The test takes every name for one that is to be skipped when a mark is pending for it. -/
def Tested (skips : ℕ → Bool) : List α → ℕ → Prop
  | [], _ => True
  | x :: v, q =>
      match mark x with
      | .back => Tested skips v (q + 1)
      | .stay => Tested skips v q
      | .name => (0 < q → skips q = true) ∧ Tested skips v (q - 1)

/-- The marks that are pending behind the elements. -/
def pending (skips : ℕ → Bool) : List α → ℕ → ℕ
  | [], q => q
  | x :: v, q =>
      match mark x with
      | .back => pending skips v (q + 1)
      | .stay => pending skips v q
      | .name => if skips q then pending skips v (q - 1) else pending skips v q

/-- The test takes every name for one that is to be skipped. -/
def Skipped (skips : ℕ → Bool) : List α → ℕ → Prop
  | [], _ => True
  | x :: v, q =>
      match mark x with
      | .back => Skipped skips v (q + 1)
      | .stay => Skipped skips v q
      | .name => skips q = true ∧ Skipped skips v (q - 1)

variable {mark} {skips : ℕ → Bool}

theorem rdrop_succ (l : List α) (n : ℕ) : l.rdrop (n + 1) = l.dropLast.rdrop n := by
  rw [List.rdrop, List.rdrop, List.dropLast_eq_take, List.take_take, List.length_take]
  congr 1
  omega

/-- The scan that counts right leaves the stack, less one name for each mark that is pending already. -/
theorem scan_reverse (w : List α) (q : ℕ) (kept : List α) :
    scan mark (fun q => decide (0 < q)) w.reverse q kept = (stack mark w).rdrop q ++ kept := by
  induction w using List.reverseRecOn generalizing q kept with
  | nil => simp [scan, stack]
  | append_singleton w x ih =>
    have hstack : stack mark (w ++ [x]) = push mark (stack mark w) x := by simp [stack]
    rw [List.reverse_append, List.reverse_singleton, List.singleton_append, hstack, scan, push]
    cases mark x with
    | back => rw [ih, rdrop_succ]
    | stay => exact ih q kept
    | name =>
      cases q with
      | zero =>
        simp only [Nat.lt_irrefl, decide_false, Bool.false_eq_true, ↓reduceIte, ih, List.rdrop_zero]
        simp
      | succ q =>
        simp only [Nat.zero_lt_succ, decide_true, ↓reduceIte, ih, Nat.add_sub_cancel, List.rdrop_concat_succ]

theorem stack_eq_scan (mark : α → Mark) (w : List α) :
    stack mark w = scan mark (fun q => decide (0 < q)) w.reverse 0 [] := by
  rw [scan_reverse, List.rdrop_zero, List.append_nil]

/-- As long as the test is right, the scan is. -/
theorem scan_of_tested {v : List α} {q : ℕ} (kept : List α) (hzero : skips 0 = false)
    (h : Tested mark skips v q) :
    scan mark skips v q kept = scan mark (fun q => decide (0 < q)) v q kept := by
  induction v generalizing q kept with
  | nil => rfl
  | cons x v ih =>
    rw [Tested] at h
    rw [scan, scan]
    cases hx : mark x with
    | back => exact ih kept (by rwa [hx] at h)
    | stay => exact ih kept (by rwa [hx] at h)
    | name =>
      rw [hx] at h
      rcases Nat.eq_zero_or_pos q with rfl | hq
      · simp only [hzero, Nat.lt_irrefl, decide_false, Bool.false_eq_true, ↓reduceIte]
        exact ih (x :: kept) h.2
      · simp only [h.1 hq, hq, decide_true, ↓reduceIte]
        exact ih kept h.2

/-- A test that fails from `bound` on, where the counter does not come back below it. -/
structure Fails (skips : ℕ → Bool) (bound : ℕ) : Prop where
  zero : skips 0 = false
  below : ∀ q, 0 < q → q < bound → skips q = true
  above : ∀ q, bound ≤ q → skips q = true → bound < q

/-- A scan whose counter is ahead by the names it has kept too many stays ahead. -/
theorem length_scan_ahead {bound : ℕ} (hfails : Fails skips bound) (hpos : 0 < bound) (v : List α) {c q : ℕ}
    (hc : bound ≤ c) (hq : q < c) {kept kept' : List α} (hkept : kept.length + q = kept'.length + c) :
    (scan mark (fun q => decide (0 < q)) v q kept').length < (scan mark skips v c kept).length := by
  induction v generalizing c q kept kept' with
  | nil =>
    rw [scan, scan]
    omega
  | cons x v ih =>
    rw [scan, scan]
    cases mark x with
    | back => exact ih (Nat.le_succ_of_le hc) (Nat.succ_lt_succ hq) (by omega)
    | stay => exact ih hc hq hkept
    | name =>
      rcases Nat.eq_zero_or_pos q with rfl | hq'
      · simp only [Nat.lt_irrefl, decide_false, Bool.false_eq_true, ↓reduceIte]
        cases hs : skips c with
        | true =>
          have := hfails.above c hc hs
          exact ih (by omega) (by omega) (by rw [List.length_cons]; omega)
        | false => exact ih hc hq (by rw [List.length_cons, List.length_cons]; omega)
      · simp only [hq', decide_true, ↓reduceIte]
        cases hs : skips c with
        | true =>
          have := hfails.above c hc hs
          exact ih (by omega) (by omega) (by omega)
        | false => exact ih hc (by omega) (by rw [List.length_cons]; omega)

theorem length_scan_of_not_tested {bound : ℕ} (hfails : Fails skips bound) (hpos : 0 < bound) {v : List α}
    {q : ℕ} (h : ¬Tested mark skips v q) (kept : List α) :
    (scan mark (fun q => decide (0 < q)) v q kept).length < (scan mark skips v q kept).length := by
  induction v generalizing q kept with
  | nil => exact absurd trivial h
  | cons x v ih =>
    rw [Tested] at h
    rw [scan, scan]
    cases hx : mark x with
    | back => exact ih (by rwa [hx] at h) kept
    | stay => exact ih (by rwa [hx] at h) kept
    | name =>
      rw [hx] at h
      rcases Nat.eq_zero_or_pos q with rfl | hq
      · simp only [hfails.zero, Nat.lt_irrefl, decide_false, Bool.false_eq_true, ↓reduceIte]
        exact ih (fun ht => h ⟨nofun, ht⟩) (x :: kept)
      · cases hs : skips q with
        | true =>
          simp only [hq, decide_true, ↓reduceIte]
          exact ih (fun ht => h ⟨fun _ => hs, ht⟩) kept
        | false =>
          -- the first name that the test loses
          have hbound : bound ≤ q := by
            by_contra hlt
            rw [hfails.below q hq (by omega)] at hs
            cases hs
          simp only [hq, decide_true, ↓reduceIte, Bool.false_eq_true]
          exact length_scan_ahead hfails hpos v hbound (by omega) (by rw [List.length_cons]; omega)

/-- The scan leaves the stack exactly when the test is right wherever it is used. -/
theorem scan_eq_stack_iff {bound : ℕ} (hfails : Fails skips bound) (hpos : 0 < bound) (w : List α) :
    scan mark skips w.reverse 0 [] = stack mark w ↔ Tested mark skips w.reverse 0 := by
  constructor
  · intro h
    by_contra hnot
    have hlt := length_scan_of_not_tested hfails hpos hnot []
    rw [← stack_eq_scan, h] at hlt
    exact Nat.lt_irrefl _ hlt
  · intro h
    rw [scan_of_tested [] hfails.zero h, ← stack_eq_scan]

/-- What is kept are names. -/
theorem mem_scan {v : List α} {q : ℕ} {kept : List α} {x : α} (h : x ∈ scan mark skips v q kept) :
    x ∈ kept ∨ x ∈ v ∧ mark x = .name := by
  induction v generalizing q kept with
  | nil => exact .inl h
  | cons y v ih =>
    have hcons : ∀ {l : List α}, x ∈ l ∨ x ∈ v ∧ mark x = .name → x ∈ l ∨ x ∈ y :: v ∧ mark x = .name :=
      fun h => h.imp_right (And.imp_left (List.mem_cons_of_mem y))
    rw [scan] at h
    cases hy : mark y with
    | back =>
      rw [hy] at h
      exact hcons (ih h)
    | stay =>
      rw [hy] at h
      exact hcons (ih h)
    | name =>
      rw [hy] at h
      dsimp only at h
      split at h
      · exact hcons (ih h)
      · rcases hcons (ih h) with hk | hv
        · rcases List.mem_cons.mp hk with rfl | hk
          · exact .inr ⟨List.mem_cons_self, hy⟩
          · exact .inl hk
        · exact .inr hv

theorem mem_stack {w : List α} {x : α} (h : x ∈ stack mark w) : x ∈ w := by
  rw [stack_eq_scan] at h
  rcases mem_scan h with hnil | ⟨hmem, -⟩
  · cases hnil
  · exact List.mem_reverse.mp hmem

/-- A test that fails from `bound` on is right when there are fewer marks than that. -/
theorem tested_of_few {bound : ℕ} (hfails : Fails skips bound) {v : List α} {q : ℕ}
    (h : q + v.countP (fun x => mark x == .back) < bound) : Tested mark skips v q := by
  induction v generalizing q with
  | nil => trivial
  | cons x v ih =>
    rw [List.countP_cons] at h
    rw [Tested]
    cases hx : mark x with
    | back =>
      rw [hx, beq_self_eq_true, if_pos rfl] at h
      exact ih (by omega)
    | stay => exact ih (by omega)
    | name => exact ⟨fun hq => hfails.below q hq (by omega), ih (by omega)⟩

theorem scan_names {v : List α} (hzero : skips 0 = false) (h : ∀ x ∈ v, mark x = .name) (kept : List α) :
    scan mark skips v 0 kept = v.reverse ++ kept := by
  induction v generalizing kept with
  | nil => rfl
  | cons x v ih =>
    rw [scan, h x List.mem_cons_self]
    simp only [hzero, Bool.false_eq_true, ↓reduceIte]
    rw [ih (fun y hy => h y (List.mem_cons_of_mem x hy)), List.reverse_cons, List.append_assoc]
    rfl

theorem scan_backs {x : α} (hx : mark x = .back) (n : ℕ) (v : List α) (q : ℕ) (kept : List α) :
    scan mark skips (List.replicate n x ++ v) q kept = scan mark skips v (q + n) kept := by
  induction n generalizing q with
  | zero => rfl
  | succ n ih =>
    rw [List.replicate_succ, List.cons_append, scan, hx]
    dsimp only
    rw [ih]
    congr 1
    omega

theorem scan_append (v v' : List α) (q : ℕ) (kept : List α) :
    scan mark skips (v ++ v') q kept =
      scan mark skips v' (pending mark skips v q) (scan mark skips v q kept) := by
  induction v generalizing q kept with
  | nil => rfl
  | cons x v ih =>
    rw [List.cons_append, scan, scan, pending]
    cases mark x with
    | back => exact ih (q + 1) kept
    | stay => exact ih q kept
    | name =>
      cases hs : skips q with
      | true => exact ih (q - 1) kept
      | false => exact ih q (x :: kept)

theorem length_scan_le (v : List α) (q : ℕ) (kept : List α) : kept.length ≤ (scan mark skips v q kept).length := by
  induction v generalizing q kept with
  | nil => exact Nat.le_refl _
  | cons x v ih =>
    rw [scan]
    cases mark x with
    | back => exact ih (q + 1) kept
    | stay => exact ih q kept
    | name =>
      cases hs : skips q with
      | true => exact ih (q - 1) kept
      | false => exact (Nat.le_succ _).trans (ih q (x :: kept))

/-- Nothing is added exactly when every name is skipped. -/
theorem scan_eq_kept_iff (v : List α) (q : ℕ) (kept : List α) :
    scan mark skips v q kept = kept ↔ Skipped mark skips v q := by
  induction v generalizing q kept with
  | nil => exact iff_of_true rfl trivial
  | cons x v ih =>
    rw [scan, Skipped]
    cases mark x with
    | back => exact ih (q + 1) kept
    | stay => exact ih q kept
    | name =>
      cases hs : skips q with
      | true => exact (ih (q - 1) kept).trans (and_iff_right rfl).symm
      | false =>
        refine iff_of_false (fun he => ?_) (fun h => Bool.false_ne_true h.1)
        have hle := @length_scan_le _ mark skips v q (x :: kept)
        have hlen := congrArg List.length he
        rw [List.length_cons] at hle
        simp only [Bool.false_eq_true, ↓reduceIte] at hlen
        omega

/-! ## Words that stay above their start -/

/-- No mark takes back more names than the `n` that are there and those that the word has pushed. -/
def Within (mark : α → Mark) : List α → ℕ → Prop
  | [], _ => True
  | x :: w, n =>
      match mark x with
      | .name => Within mark w (n + 1)
      | .back => 0 < n ∧ Within mark w (n - 1)
      | .stay => Within mark w n

theorem foldl_push_within {w : List α} {s : List α} (r : List α) (h : Within mark w s.length) :
    w.foldl (push mark) (r ++ s) = r ++ w.foldl (push mark) s := by
  induction w generalizing s with
  | nil => rfl
  | cons x w ih =>
    rw [Within] at h
    rw [List.foldl_cons, List.foldl_cons, push, push]
    cases hx : mark x with
    | name =>
      rw [hx] at h
      dsimp only
      rw [List.append_assoc]
      exact ih (by rwa [List.length_append, List.length_singleton])
    | back =>
      rw [hx] at h
      dsimp only
      rw [List.dropLast_append_of_ne_nil (List.ne_nil_of_length_pos h.1)]
      exact ih (by rw [List.length_dropLast]; exact h.2)
    | stay =>
      rw [hx] at h
      exact ih h

theorem mem_foldl_push {w s : List α} {x : α} (h : x ∈ w.foldl (push mark) s) : x ∈ s ∨ x ∈ w := by
  induction w generalizing s with
  | nil => exact .inl h
  | cons y w ih =>
    have hmem : x ∈ push mark s y → x ∈ s ∨ x ∈ y :: w := fun hx => by
      rw [push] at hx
      cases hy : mark y with
      | name =>
        rw [hy] at hx
        rcases List.mem_append.mp hx with hs | hone
        · exact .inl hs
        · exact .inr (List.mem_cons.mpr (.inl (List.mem_singleton.mp hone)))
      | back =>
        rw [hy] at hx
        exact .inl (List.dropLast_subset _ hx)
      | stay =>
        rw [hy] at hx
        exact .inl hx
    rcases ih h with hs | hw
    · exact hmem hs
    · exact .inr (List.mem_cons_of_mem y hw)

theorem foldl_push_names {w : List α} (h : ∀ x ∈ w, mark x = .name) (s : List α) :
    w.foldl (push mark) s = s ++ w := by
  induction w generalizing s with
  | nil => rw [List.foldl_nil, List.append_nil]
  | cons x w ih =>
    have hpush : push mark s x = s ++ [x] := by rw [push, h x List.mem_cons_self]
    rw [List.foldl_cons, hpush, ih (fun y hy => h y (List.mem_cons_of_mem x hy)), List.append_assoc]
    rfl

/-- A word that does not stay above its start takes back what lies right under it. -/
theorem notMem_of_not_within {w s : List α} {z : α} (hs : z ∉ s) (hw : z ∉ w)
    (h : ¬Within mark w s.length) : z ∉ w.foldl (push mark) (z :: s) := by
  induction w generalizing s with
  | nil => exact absurd trivial h
  | cons x w ih =>
    have hzw : z ∉ w := fun hmem => hw (List.mem_cons_of_mem x hmem)
    rw [Within] at h
    rw [List.foldl_cons, push]
    cases hx : mark x with
    | name =>
      rw [hx] at h
      refine ih (s := s ++ [x]) (fun hmem => ?_) hzw (by rwa [List.length_append, List.length_singleton])
      rcases List.mem_append.mp hmem with hmem | hmem
      · exact hs hmem
      · exact hw (List.mem_cons.mpr (.inl (List.mem_singleton.mp hmem)))
    | back =>
      rw [hx] at h
      cases s with
      | nil =>
        intro hmem
        rcases mem_foldl_push hmem with hnil | hmem
        · cases hnil
        · exact hzw hmem
      | cons y s =>
        have hlen : ((y :: s).dropLast).length = (y :: s).length - 1 := List.length_dropLast
        refine ih (s := (y :: s).dropLast) (fun hmem => hs (List.dropLast_subset _ hmem)) hzw ?_
        rw [hlen]
        exact fun hwithin => h ⟨Nat.succ_pos _, hwithin⟩
    | stay =>
      rw [hx] at h
      exact ih hs hzw h

end Scan

end Dcl.StackScan
