import Mathlib.Data.List.Induction
import Mathlib.Data.Nat.Notation
import Mathlib.Tactic.Common

/-! # `while (1)` loops

The body of an unbounded loop is a function `α → α ⊕ β`: `inl` goes round again with a new state,
`inr` leaves the loop (by `break`, `return` or an exception, as `β` records).

* `loop body n a`: the loop from `a` with a budget of `n` passes; `none` when they do not suffice.
* `Passes body n a b`: exactly `n` passes lead from `a` to `b`, none of which leaves the loop.
-/
namespace Dcl.Loop
set_option autoImplicit false

section Body
variable {α β : Type*} (body : α → α ⊕ β)

def loop : ℕ → α → Option β
  | 0, _ => none
  | n + 1, a =>
      match body a with
      | .inl b => loop n b
      | .inr r => some r

def Passes : ℕ → α → α → Prop
  | 0, a, c => a = c
  | n + 1, a, c => ∃ b, body a = .inl b ∧ Passes n b c

variable {body}

theorem Passes.single {a b : α} (h : body a = .inl b) : Passes body 1 a b := ⟨b, h, rfl⟩

theorem Passes.trans {m n : ℕ} {a b c : α} (h1 : Passes body m a b) (h2 : Passes body n b c) :
    Passes body (m + n) a c := by
  induction m generalizing a with
  | zero =>
    have hab : a = b := h1
    subst hab
    simpa using h2
  | succ m ih =>
    obtain ⟨a', ha, h⟩ := h1
    have hmn : m + 1 + n = m + n + 1 := by omega
    rw [hmn]
    exact ⟨a', ha, ih h⟩

/-- Passes that end where the body leaves the loop are a run of the loop, on any larger budget. -/
theorem Passes.loop {n fuel : ℕ} {a b : α} {r : β} (h : Passes body n a b)
    (hr : body b = .inr r) (hf : n < fuel) : loop body fuel a = some r := by
  induction n generalizing a fuel with
  | zero =>
    have hab : a = b := h
    subst hab
    obtain ⟨f, rfl⟩ : ∃ f, fuel = f + 1 := ⟨fuel - 1, by omega⟩
    simp [Loop.loop, hr]
  | succ n ih =>
    obtain ⟨a', ha, h'⟩ := h
    obtain ⟨f, rfl⟩ : ∃ f, fuel = f + 1 := ⟨fuel - 1, by omega⟩
    simp only [Loop.loop, ha]
    exact ih h' (by omega)

/-- Passes that reach a state from which the body always goes round again never leave the loop. -/
theorem loop_diverges {P : α → Prop} (h : ∀ a, P a → ∃ b, body a = .inl b ∧ P b) {a : α}
    (ha : P a) (fuel : ℕ) : loop body fuel a = none := by
  induction fuel generalizing a with
  | zero => rfl
  | succ n ih =>
    obtain ⟨b, hb, hp⟩ := h a ha
    simp only [loop, hb]
    exact ih hp

theorem Passes.diverges {P : α → Prop} (h : ∀ a, P a → ∃ b, body a = .inl b ∧ P b) {n : ℕ}
    {a b : α} (hn : Passes body n a b) (hb : P b) (fuel : ℕ) : Loop.loop body fuel a = none := by
  induction n generalizing a fuel with
  | zero =>
    have hab : a = b := hn
    subst hab
    exact loop_diverges h hb fuel
  | succ n ih =>
    obtain ⟨a', ha, h'⟩ := hn
    cases fuel with
    | zero => rfl
    | succ f =>
      simp only [Loop.loop, ha]
      exact ih h' f

/-- What every pass preserves holds after any number of them. -/
theorem Passes.preserves {P : α → Prop} (h : ∀ a b, P a → body a = .inl b → P b) {n : ℕ} {a b : α}
    (hn : Passes body n a b) (ha : P a) : P b := by
  induction n generalizing a with
  | zero =>
    have hab : a = b := hn
    exact hab ▸ ha
  | succ n ih =>
    obtain ⟨a', hstep, hrest⟩ := hn
    exact ih hrest (h a a' ha hstep)

/-- The invariant rule: the pass that leaves the loop starts where the invariant holds. -/
theorem loop_invariant {P : α → Prop} (h : ∀ a b, P a → body a = .inl b → P b) {n : ℕ} {a : α}
    {r : β} (hr : loop body n a = some r) (ha : P a) : ∃ b, P b ∧ body b = .inr r := by
  induction n generalizing a with
  | zero => cases hr
  | succ n ih =>
    cases hb : body a with
    | inl b =>
      simp only [loop, hb] at hr
      exact ih hr (h a b ha hb)
    | inr x =>
      simp only [loop, hb, Option.some.injEq] at hr
      exact ⟨a, ha, by rw [hb, hr]⟩

theorem loop_unique {m n : ℕ} {a : α} {r r' : β} (h : loop body m a = some r)
    (h' : loop body n a = some r') : r = r' := by
  induction m generalizing n a with
  | zero => cases h
  | succ m ih =>
    cases n with
    | zero => cases h'
    | succ n =>
      cases hb : body a with
      | inl b =>
        simp only [loop, hb] at h h'
        exact ih h h'
      | inr x =>
        simp only [loop, hb, Option.some.injEq] at h h'
        exact h.symm.trans h'

/-- A budget above a measure that every pass lowers, unless it is one that is repeated for ever, is
enough: a loop that does not end within it never ends. -/
theorem loop_adequate {μ : α → ℕ} {P : α → Prop} (hP : ∀ a, P a → ∃ b, body a = .inl b ∧ P b)
    (hμ : ∀ a b, body a = .inl b → P a ∨ μ b < μ a) {fuel : ℕ} {a : α} (hf : μ a < fuel)
    (h : loop body fuel a = none) (n : ℕ) : loop body n a = none := by
  induction fuel generalizing a n with
  | zero => omega
  | succ fuel ih =>
    cases hb : body a with
    | inr r => simp [loop, hb] at h
    | inl b =>
      obtain hp | hlt := hμ a b hb
      · exact loop_diverges hP hp n
      · simp only [loop, hb] at h
        cases n with
        | zero => rfl
        | succ n =>
          simp only [loop, hb]
          exact ih (by omega) h n

/-- The variant rule: a loop whose passes keep an invariant and lower a measure under it ends within
any budget above the measure. -/
theorem loop_ends {μ : α → ℕ} {P : α → Prop}
    (h : ∀ a b, P a → body a = .inl b → P b ∧ μ b < μ a) {fuel : ℕ} {a : α} (ha : P a)
    (hf : μ a < fuel) : ∃ r, loop body fuel a = some r := by
  induction fuel generalizing a with
  | zero => omega
  | succ fuel ih =>
    cases hb : body a with
    | inr r => exact ⟨r, by simp [loop, hb]⟩
    | inl b =>
      obtain ⟨hp, hlt⟩ := h a b ha hb
      simp only [loop, hb]
      exact ih hp (by omega)

end Body

/-! ## Loops over a list -/

/-- When an element either sets what `g` reads or leaves it alone, the last one that sets it decides. -/
theorem foldl_last {σ α β : Type*} {f : σ → α → σ} {g : σ → β} {p : α → Bool} {h : α → β}
    (hf : ∀ s a, g (f s a) = if p a = true then h a else g s) (s : σ) (l : List α) :
    g (l.foldl f s) = ((l.filter p).getLast?.map h).getD (g s) := by
  induction l using List.reverseRecOn with
  | nil => rfl
  | append_singleton l a ih =>
    rw [List.foldl_append, List.foldl_cons, List.foldl_nil, hf, List.filter_append]
    cases hp : p a with
    | true => simp [hp]
    | false =>
      have hnone : [a].filter p = [] := List.filter_cons_of_neg (by simp [hp])
      rw [hnone, List.append_nil, if_neg Bool.false_ne_true]
      exact ih

/-- When all that set it agree, their order does not matter. -/
theorem foldl_agreed {σ α β : Type*} {f : σ → α → σ} {g : σ → β} {p : α → Bool} {h : α → β}
    (hf : ∀ s a, g (f s a) = if p a = true then h a else g s) {l : List α} {v : β}
    (hv : ∀ a ∈ l, p a = true → h a = v) (s : σ) : g (l.foldl f s) = if l.any p = true then v else g s := by
  rw [foldl_last hf]
  cases hlast : (l.filter p).getLast? with
  | none =>
    have hany : l.any p = false := by
      simpa using List.getLast?_eq_none_iff.mp hlast
    rw [hany]
    rfl
  | some a =>
    obtain ⟨ha, hp⟩ := List.mem_filter.mp (List.mem_of_getLast? hlast)
    rw [if_pos (List.any_eq_true.mpr ⟨a, ha, hp⟩), Option.map_some, Option.getD_some, hv a ha hp]

/-- When only one element adds anything, the order of the others does not matter. -/
theorem flatMap_perm {α β : Type*} {f : α → List β} {l l' : List α} (h : l.Perm l')
    (hone : l'.countP (fun a => !(f a).isEmpty) ≤ 1) : l.flatMap f = l'.flatMap f := by
  have hadding : ∀ l : List α, l.flatMap f = (l.filter fun a => !(f a).isEmpty).flatMap f := by
    intro l
    induction l with
    | nil => rfl
    | cons a l ih =>
      rw [List.flatMap_cons, ih, List.filter_cons]
      cases hf : f a <;> simp [hf]
  rw [hadding l, hadding l']
  have hfilter := h.filter fun a => !(f a).isEmpty
  rw [List.countP_eq_length_filter] at hone
  generalize l'.filter (fun a => !(f a).isEmpty) = xs at hfilter hone
  match xs, hone with
  | [], _ => rw [hfilter.eq_nil]
  | [a], _ => rw [List.perm_singleton.mp hfilter]

end Dcl.Loop
