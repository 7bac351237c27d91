import Mathlib.Data.Option.Basic
import Mathlib.Logic.Function.Basic

/-! # A mutex and its threads

The owner of a mutex that is not recursive, next to what each thread does. `holds` reads off a thread's
own state whether it is between entering and leaving; `Owned` says that the two agree, so that at most
one thread is. Each step of a thread keeps its side, acquires the free mutex or releases it. -/
namespace Dcl.Mutex
set_option autoImplicit false

section Owner
variable {T L : Type*} [DecidableEq T] {holds : L → Bool} {owner : Option T} {threads : T → L} {t : T}
  {b : L}

/-- The owner is the thread that holds the mutex, if there is one. -/
def Owned (holds : L → Bool) (owner : Option T) (threads : T → L) : Prop :=
  ∀ t, owner = some t ↔ holds (threads t) = true

theorem Owned.keep (h : Owned holds owner threads) (hb : holds b = holds (threads t)) :
    Owned holds owner (Function.update threads t b) := by
  intro u
  rw [h u]
  by_cases hu : u = t
  · rw [hu, Function.update_self, hb]
  · rw [Function.update_of_ne hu]

theorem Owned.acquire (h : Owned holds none threads) (hb : holds b = true) :
    Owned holds (some t) (Function.update threads t b) := by
  intro u
  by_cases hu : u = t
  · rw [hu, Function.update_self, hb]
    simp
  · rw [Function.update_of_ne hu, ← h u]
    simpa using fun he => hu he.symm

theorem Owned.release (h : Owned holds owner threads) (ha : holds (threads t) = true)
    (hb : holds b = false) : Owned holds none (Function.update threads t b) := by
  intro u
  by_cases hu : u = t
  · rw [hu, Function.update_self, hb]
    simp
  · rw [Function.update_of_ne hu, ← h u, (h t).mpr ha]
    simpa using fun he => hu he.symm

end Owner

end Dcl.Mutex
