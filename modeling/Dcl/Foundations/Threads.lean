import Dcl.Foundations.Slots
import Dcl.Foundations.Transition

/-! # Threads around one shared object

A system of threads is a shared object and one local state for each thread. What a thread can do is a
function `act : ℕ → S → L → ο → Option (S × L)`: the operation `o` of the thread with this number is
possible when the object and its own state allow it, and changes only these two. An operation that has
to wait is one that is not possible yet. -/
namespace Dcl.Threads
set_option autoImplicit false

structure System (S L : Type*) where
  shared : S
  threads : List L

section Steps
variable {S L ο : Type*} (act : ℕ → S → L → ο → Option (S × L))

def step (s : System S L) (e : ℕ × ο) : Option (System S L) :=
  (s.threads[e.1]?).bind fun l =>
    (act e.1 s.shared l e.2).map fun r => ⟨r.1, s.threads.set e.1 r.2⟩

/-- The local state `l` of the acting thread and the object become `r`. -/
structure Acts (s : System S L) (t : ℕ) (o : ο) (s' : System S L) (l : L) (r : S × L) : Prop where
  thread : s.threads[t]? = some l
  act : act t s.shared l o = some r
  next : s' = ⟨r.1, s.threads.set t r.2⟩

variable {act}

theorem step_acts {s s' : System S L} {e : ℕ × ο} (h : step act s e = some s') :
    ∃ l r, Acts act s e.1 e.2 s' l r := by
  obtain ⟨l, hl, h⟩ := Option.bind_eq_some_iff.mp h
  obtain ⟨r, hr, h⟩ := Option.map_eq_some_iff.mp h
  exact ⟨l, r, hl, hr, h.symm⟩

variable {s s' : System S L} {t : ℕ} {o : ο} {l : L} {r : S × L}

theorem Acts.shared (h : Acts act s t o s' l r) : s'.shared = r.1 := by
  rw [h.next]

theorem Acts.getElem? (h : Acts act s t o s' l r) (i : ℕ) :
    s'.threads[i]? = if i = t then some r.2 else s.threads[i]? := by
  rw [h.next]
  exact Slots.getElem?_set_of_some h.thread r.2 i

theorem Acts.self (h : Acts act s t o s' l r) : s'.threads[t]? = some r.2 := by
  rw [h.getElem?, if_pos rfl]

theorem Acts.other (h : Acts act s t o s' l r) {i : ℕ} (hi : i ≠ t) :
    s'.threads[i]? = s.threads[i]? := by
  rw [h.getElem?, if_neg hi]

/-- What holds of the acting thread and is not lost by the others holds of every thread. -/
theorem Acts.forall_threads (h : Acts act s t o s' l r) {P Q : ℕ → L → Prop}
    (hs : ∀ i a, s.threads[i]? = some a → P i a) (hself : Q t r.2)
    (hother : ∀ i a, i ≠ t → P i a → Q i a) : ∀ i a, s'.threads[i]? = some a → Q i a := by
  intro i a hi
  by_cases hit : i = t
  · rw [hit, h.self, Option.some.injEq] at hi
    rw [hit, ← hi]
    exact hself
  · rw [h.other hit] at hi
    exact hother i a hit (hs i a hi)

end Steps

/-! ## Sums over the threads -/

section Totals
variable {S L ο : Type*} {act : ℕ → S → L → ο → Option (S × L)} (f : L → ℕ)

def total (s : System S L) : ℕ := (s.threads.map f).sum

theorem Acts.total {s s' : System S L} {t : ℕ} {o : ο} {l : L} {r : S × L}
    (h : Acts act s t o s' l r) : total f s' + f l = total f s + f r.2 := by
  rw [h.next]
  exact Slots.sum_set h.thread r.2 f

theorem le_total {s : System S L} {i : ℕ} {a : L} (h : s.threads[i]? = some a) : f a ≤ total f s :=
  List.le_sum_of_mem (List.mem_map_of_mem (List.mem_of_getElem? h))

theorem add_le_total {s : System S L} {i j : ℕ} {a b : L} (h : s.threads[i]? = some a)
    (h' : s.threads[j]? = some b) (hij : i ≠ j) : f a + f b ≤ total f s :=
  Slots.add_le_sum h h' hij f

theorem total_eq_zero {s : System S L} (h : ∀ a ∈ s.threads, f a = 0) : total f s = 0 := by
  rw [total, List.sum_eq_zero_iff]
  intro n hn
  obtain ⟨a, ha, rfl⟩ := List.mem_map.mp hn
  exact h a ha

end Totals

end Dcl.Threads
