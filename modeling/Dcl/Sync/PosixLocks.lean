import Dcl.Foundations.Threads

/-! # `mutex` and `rwlock` on POSIX

`mutex_impl` of `src/dcl/posix/mutex_impl.cpp` and `rwlock_impl` of `src/dcl/posix/rwlock_impl.cpp`
turn the return values of the pthread functions into booleans and exceptions. The functions themselves
are those of the standard: which values a call can return, and what it does to the lock. Where it leaves
the effect of a call undefined (unlocking what the thread does not have), the two answers that
implementations give are possible: `EPERM`, or the lock is released.

The `try` methods return true on `EBUSY` and false when they got the lock. A thread works inside the
protected area when `enter` returned or `try_enter` returned true. -/
namespace Dcl.Sync.Posix
open Threads
set_option autoImplicit false

/-- The return values that the wrappers or the functions tell apart. -/
inductive Errno where
  | success
  | eagain
  | ebusy
  | edeadlk
  | einval
  | eperm
  deriving DecidableEq

/-! ## The wrappers -/

def entered (object : String) : Errno → Except String Unit
  | .edeadlk => .error ("the " ++ object ++ " is already locked by the calling thread")
  | .einval => .error ("the " ++ object ++ " has not been properly initialized")
  | _ => .ok ()

def tried (object : String) : Errno → Except String Bool
  | .ebusy => .ok true
  | .einval => .error ("the " ++ object ++ " has not been properly initialized")
  | _ => .ok false

def left (object : String) : Errno → Except String Unit
  | .eperm => .error ("the calling thread does not own the " ++ object)
  | .einval => .error ("the " ++ object ++ " has not been properly initialized")
  | _ => .ok ()

namespace MutexImpl

def enter : Errno → Except String Unit := entered "mutex"

def tryEnter : Errno → Except String Bool := tried "mutex"

def leave : Errno → Except String Unit := left "mutex"

end MutexImpl

namespace RwlockImpl

def enterRead : Errno → Except String Unit := entered "rwlock"

def tryEnterRead : Errno → Except String Bool := tried "rwlock"

def leaveRead : Errno → Except String Unit := left "rwlock"

def enterWrite : Errno → Except String Unit := entered "rwlock"

def tryEnterWrite : Errno → Except String Bool := tried "rwlock"

def leaveWrite : Errno → Except String Unit := left "rwlock"

end RwlockImpl

/-- The caller may conclude from what came back that it has entered. -/
def isIn : Except String Bool → Bool
  | .ok b => b
  | .error _ => false

def isDone : Except String Unit → Bool
  | .ok _ => true
  | .error _ => false

/-! ## Mutexes -/

/-- The thread that has locked it. -/
abbrev PthreadMutex := Option ℕ

def pthreadMutexLock (m : PthreadMutex) (t : ℕ) : Errno → Option PthreadMutex
  | .success => if m = none then some (some t) else none
  | .edeadlk => if m = some t then some m else none
  | _ => none

def pthreadMutexTrylock (m : PthreadMutex) (t : ℕ) : Errno → Option PthreadMutex
  | .success => if m = none then some (some t) else none
  | .ebusy => if m = none then none else some m
  | _ => none

def pthreadMutexUnlock (m : PthreadMutex) (t : ℕ) : Errno → Option PthreadMutex
  | .success => some none
  | .eperm => if m = some t then none else some m
  | _ => none

inductive MutexOp where
  | enter (r : Errno)
  | tryEnter (r : Errno)
  | leave (r : Errno)

/-- A thread is inside or not. -/
def mutexAct (t : ℕ) (m : PthreadMutex) (inside : Bool) : MutexOp → Option (PthreadMutex × Bool)
  | .enter r => (pthreadMutexLock m t r).map fun m' => (m', inside || isDone (MutexImpl.enter r))
  | .tryEnter r => (pthreadMutexTrylock m t r).map fun m' => (m', inside || isIn (MutexImpl.tryEnter r))
  | .leave r =>
      if inside then (pthreadMutexUnlock m t r).map fun m' => (m', !isDone (MutexImpl.leave r))
      else none

abbrev MutexState := System PthreadMutex Bool

def mutexInit (n : ℕ) : MutexState := ⟨none, List.replicate n false⟩

def MutexExcludes (s : MutexState) : Prop :=
  ∀ i j : ℕ, s.threads[i]? = some true → s.threads[j]? = some true → i = j

/-- A `try_enter` that finds the mutex locked is called while no other thread is inside. -/
def triesAlone (s : MutexState) : ℕ × MutexOp → Bool
  | (t, .tryEnter .ebusy) =>
      (List.range s.threads.length).all fun i => i == t || s.threads[i]? != some true
  | _ => true

/-- Nobody is inside when the mutex is free. -/
def Guarded (s : MutexState) : Prop := s.shared = none → ∀ i : ℕ, s.threads[i]? ≠ some true

theorem triesAlone_iff {s : MutexState} {t : ℕ} :
    triesAlone s (t, .tryEnter .ebusy) = true ↔ ∀ i : ℕ, s.threads[i]? = some true → i = t := by
  simp only [triesAlone, List.all_eq_true, List.mem_range, Bool.or_eq_true, beq_iff_eq, bne_iff_ne, ne_eq]
  constructor
  · intro h i hi
    have hlt := (List.getElem?_eq_some_iff.mp hi).1
    exact (h i hlt).resolve_right fun hne => hne hi
  · intro h i _
    by_cases hi : s.threads[i]? = some true
    · exact .inl (h i hi)
    · exact .inr hi

theorem triesAlone_of_ne {s : MutexState} {t : ℕ} {o : MutexOp} (h : o ≠ .tryEnter .ebusy) :
    triesAlone s (t, o) = true := by
  unfold triesAlone
  split
  next heq => exact absurd (Prod.mk.inj heq).2 h
  next => rfl

/-- What an operation can do: a thread comes in by the lock or by a busy `try_enter`, gets the lock and
stays outside, leaves, or gets an exception. -/
inductive MutexEffect (t : ℕ) (m : PthreadMutex) (inside : Bool) (o : MutexOp) (m' : PthreadMutex)
    (inside' : Bool) : Prop where
  | enter (free : m = none) (other : o ≠ .tryEnter .ebusy) (locked : m' = some t)
  | busy (op : o = .tryEnter .ebusy) (locked : m ≠ none) (same : m' = m) (inside : inside' = true)
  | leave (other : o ≠ .tryEnter .ebusy) (was : inside = true) (out : inside' = false)
  | throws (other : o ≠ .tryEnter .ebusy) (same : m' = m) (place : inside' = inside)

theorem mutex_effect {t : ℕ} {m : PthreadMutex} {inside : Bool} {o : MutexOp} {r : PthreadMutex × Bool}
    (h : mutexAct t m inside o = some r) : MutexEffect t m inside o r.1 r.2 := by
  cases o with
  | enter e =>
    obtain ⟨m', hm, rfl⟩ := Option.map_eq_some_iff.mp h
    cases e <;> simp only [pthreadMutexLock, Option.ite_none_right_eq_some, reduceCtorEq] at hm
    · exact .enter hm.1 nofun (Option.some.inj hm.2).symm
    · exact .throws nofun (Option.some.inj hm.2).symm (by simp [MutexImpl.enter, entered, isDone])
  | tryEnter e =>
    obtain ⟨m', hm, rfl⟩ := Option.map_eq_some_iff.mp h
    cases e <;> simp only [pthreadMutexTrylock, Option.ite_none_right_eq_some,
      Option.ite_none_left_eq_some, reduceCtorEq] at hm
    · exact .enter hm.1 nofun (Option.some.inj hm.2).symm
    · exact .busy rfl hm.1 (Option.some.inj hm.2).symm (by simp [MutexImpl.tryEnter, tried, isIn])
  | leave e =>
    simp only [mutexAct, Option.ite_none_right_eq_some] at h
    obtain ⟨hin, h⟩ := h
    obtain ⟨m', hm, rfl⟩ := Option.map_eq_some_iff.mp h
    cases e <;> simp only [pthreadMutexUnlock, Option.ite_none_left_eq_some, reduceCtorEq] at hm
    · exact .leave nofun hin rfl
    · exact .throws nofun (Option.some.inj hm.2).symm hin.symm

section Mutexes
variable {s s' : MutexState} {t : ℕ} {o : MutexOp} {l : Bool} {r : PthreadMutex × Bool}

theorem guarded_acts (hg : Guarded s) (hs : MutexExcludes s) (hacts : Acts mutexAct s t o s' l r) :
    Guarded s' := by
  intro hfree i hi
  rw [hacts.shared] at hfree
  cases mutex_effect hacts.act with
  | enter free other locked =>
    rw [locked] at hfree
    cases hfree
  | busy op locked same inside => exact locked (same ▸ hfree)
  | leave other was out =>
    by_cases hit : i = t
    · rw [hit, hacts.self, out] at hi
      cases hi
    · rw [hacts.other hit] at hi
      exact hit (hs i t hi (was ▸ hacts.thread))
  | throws other same place =>
    refine hg (same ▸ hfree) i ?_
    by_cases hit : i = t
    · rw [hit, hacts.self, place] at hi
      rw [hit, hacts.thread, hi]
    · rwa [hacts.other hit] at hi

/-- Who is inside afterwards was inside before, or is the thread that acted. -/
theorem inside_or_self (hacts : Acts mutexAct s t o s' l r) {i : ℕ} (hi : s'.threads[i]? = some true) :
    i = t ∨ s.threads[i]? = some true := by
  by_cases hit : i = t
  · exact .inl hit
  · rw [hacts.other hit] at hi
    exact .inr hi

theorem mutexExcludes_acts (hg : Guarded s) (hs : MutexExcludes s) (hacts : Acts mutexAct s t o s' l r) :
    MutexExcludes s' ↔ triesAlone s (t, o) = true := by
  -- a step after which only threads are inside that were inside before
  have hkeep (hmem : ∀ i : ℕ, s'.threads[i]? = some true → s.threads[i]? = some true)
      (hop : o ≠ .tryEnter .ebusy) : MutexExcludes s' ↔ triesAlone s (t, o) = true := by
    exact iff_of_true (fun i j hi hj => hs i j (hmem i hi) (hmem j hj)) (triesAlone_of_ne hop)
  cases mutex_effect hacts.act with
  | enter free other locked =>
    have hself : ∀ i : ℕ, s'.threads[i]? = some true → i = t := fun i hi =>
      (inside_or_self hacts hi).resolve_right (hg free i)
    exact iff_of_true (fun i j hi hj => (hself i hi).trans (hself j hj).symm) (triesAlone_of_ne other)
  | busy op locked same inside =>
    rw [op, triesAlone_iff]
    have hself : s'.threads[t]? = some true := by rw [hacts.self, inside]
    constructor
    · intro h i hi
      by_contra hit
      rw [← hacts.other hit] at hi
      exact hit (h i t hi hself)
    · intro h i j hi hj
      have hboth : ∀ k : ℕ, s'.threads[k]? = some true → k = t := fun k hk =>
        (inside_or_self hacts hk).elim (fun hkt => hkt) (h k)
      exact (hboth i hi).trans (hboth j hj).symm
  | leave other was out =>
    refine hkeep (fun i hi => (inside_or_self hacts hi).resolve_left fun hit => ?_) other
    rw [hit, hacts.self, out] at hi
    cases hi
  | throws other same place =>
    refine hkeep (fun i hi => (inside_or_self hacts hi).elim (fun hit => ?_) (fun h => h)) other
    rw [hit, hacts.self, place] at hi
    rw [hit, hacts.thread, hi]

end Mutexes

theorem mutexExcludes_init (n : ℕ) : MutexExcludes (mutexInit n) := by
  intro i j hi
  have := List.eq_of_mem_replicate (List.mem_of_getElem? hi)
  cases this

theorem guarded_init (n : ℕ) : Guarded (mutexInit n) := by
  intro _ i hi
  have := List.eq_of_mem_replicate (List.mem_of_getElem? hi)
  cases this

/-- A run of threads around a mutex: two of them are never inside if and only if every `try_enter` that
finds the mutex locked is called while no other thread is inside. -/
theorem mutex_run {n : ℕ} {es : List (ℕ × MutexOp)} {s : MutexState}
    (hrun : Transition.run (step mutexAct) (mutexInit n) es = some s) :
    (∀ es₁ s₁, es₁ <+: es → Transition.run (step mutexAct) (mutexInit n) es₁ = some s₁ →
        MutexExcludes s₁) ↔
      Transition.Along (step mutexAct) (fun s e => triesAlone s e = true) (mutexInit n) es := by
  refine Transition.reached_iff_along_of (step mutexAct) (J := Guarded) (fun s e s' hg hs h => ?_)
    (fun s e s' hg hs h => ?_) (guarded_init n) (mutexExcludes_init n) hrun
  · obtain ⟨l, r, hacts⟩ := step_acts h
    exact guarded_acts hg hs hacts
  · obtain ⟨l, r, hacts⟩ := step_acts h
    exact mutexExcludes_acts hg hs hacts

/-! ## Read-write locks -/

/-- The threads that have it for reading, each as often as it has, and the one that has it for writing. -/
structure PthreadRwlock where
  readers : List ℕ
  writer : Option ℕ
  deriving DecidableEq

namespace PthreadRwlock

/-- `limit` is the greatest number of read locks. -/
def rdlock (limit : ℕ) (l : PthreadRwlock) (t : ℕ) : Errno → Option PthreadRwlock
  | .success =>
      if l.writer = none ∧ l.readers.length < limit then some { l with readers := t :: l.readers }
      else none
  | .eagain => if limit ≤ l.readers.length then some l else none
  | .edeadlk => if l.writer = some t then some l else none
  | _ => none

/-- A reader finds the lock busy when a writer has it, or waits for the threads that have it. -/
def tryrdlock (limit : ℕ) (l : PthreadRwlock) (t : ℕ) : Errno → Option PthreadRwlock
  | .success =>
      if l.writer = none ∧ l.readers.length < limit then some { l with readers := t :: l.readers }
      else none
  | .eagain => if limit ≤ l.readers.length then some l else none
  | .ebusy => if l.writer = none ∧ l.readers = [] then none else some l
  | _ => none

def wrlock (l : PthreadRwlock) (t : ℕ) : Errno → Option PthreadRwlock
  | .success => if l.writer = none ∧ l.readers = [] then some { l with writer := some t } else none
  | .edeadlk => if l.writer = some t ∨ t ∈ l.readers then some l else none
  | _ => none

def trywrlock (l : PthreadRwlock) (t : ℕ) : Errno → Option PthreadRwlock
  | .success => if l.writer = none ∧ l.readers = [] then some { l with writer := some t } else none
  | .ebusy => if l.writer = none ∧ l.readers = [] then none else some l
  | _ => none

def unlock (l : PthreadRwlock) (t : ℕ) : Errno → Option PthreadRwlock
  | .success =>
      if t ∈ l.readers then some { l with readers := l.readers.erase t }
      else if l.writer = none then some { l with readers := l.readers.tail }
      else some { l with writer := none }
  | .eperm => if l.writer = some t ∨ t ∈ l.readers then none else some l
  | _ => none

end PthreadRwlock

inductive RwlockOp where
  | enterRead (r : Errno)
  | tryEnterRead (r : Errno)
  | leaveRead (r : Errno)
  | enterWrite (r : Errno)
  | tryEnterWrite (r : Errno)
  | leaveWrite (r : Errno)

/-- What a thread has entered and not left. -/
structure Entries where
  reads : ℕ
  writes : ℕ
  deriving DecidableEq

def rwlockAct (limit : ℕ) (t : ℕ) (l : PthreadRwlock) (a : Entries) :
    RwlockOp → Option (PthreadRwlock × Entries)
  | .enterRead r => (l.rdlock limit t r).map fun l' =>
      (l', { a with reads := a.reads + (isDone (RwlockImpl.enterRead r)).toNat })
  | .tryEnterRead r => (l.tryrdlock limit t r).map fun l' =>
      (l', { a with reads := a.reads + (isIn (RwlockImpl.tryEnterRead r)).toNat })
  | .leaveRead r =>
      if 0 < a.reads then (l.unlock t r).map fun l' =>
        (l', { a with reads := a.reads - (isDone (RwlockImpl.leaveRead r)).toNat })
      else none
  | .enterWrite r => (l.wrlock t r).map fun l' =>
      (l', { a with writes := a.writes + (isDone (RwlockImpl.enterWrite r)).toNat })
  | .tryEnterWrite r => (l.trywrlock t r).map fun l' =>
      (l', { a with writes := a.writes + (isIn (RwlockImpl.tryEnterWrite r)).toNat })
  | .leaveWrite r =>
      if 0 < a.writes then (l.unlock t r).map fun l' =>
        (l', { a with writes := a.writes - (isDone (RwlockImpl.leaveWrite r)).toNat })
      else none

abbrev RwlockState := System PthreadRwlock Entries

def rwlockInit (n : ℕ) : RwlockState := ⟨⟨[], none⟩, List.replicate n ⟨0, 0⟩⟩

/-- No thread is inside as a writer while another one is inside. -/
def RwlockExcludes (s : RwlockState) : Prop :=
  ∀ (i j : ℕ) (a b : Entries), i ≠ j → s.threads[i]? = some a → s.threads[j]? = some b →
    0 < a.writes → b.reads = 0 ∧ b.writes = 0

/-- No `try` finds the lock busy, and no `enter_read` meets the limit on read locks. -/
def RwlockOp.served : RwlockOp → Bool
  | .enterRead .eagain => false
  | .tryEnterRead .ebusy => false
  | .tryEnterWrite .ebusy => false
  | _ => true

/-- What a thread has entered it has locked, and a writer has the lock alone. -/
structure Backed (s : RwlockState) : Prop where
  entries : ∀ (i : ℕ) (a : Entries), s.threads[i]? = some a →
    a.reads ≤ s.shared.readers.count i ∧ (0 < a.writes → a.writes = 1 ∧ s.shared.writer = some i)
  alone : s.shared.writer ≠ none → s.shared.readers = []

section Rwlocks
variable {limit : ℕ} {s s' : RwlockState} {t : ℕ} {o : RwlockOp} {a : Entries}
  {r : PthreadRwlock × Entries}

/-- What an operation that is served can do. -/
inductive RwlockEffect (t : ℕ) (l : PthreadRwlock) (a : Entries) (l' : PthreadRwlock) (a' : Entries) :
    Prop where
  | read (free : l.writer = none) (lock : l' = { l with readers := t :: l.readers })
      (reads : a'.reads ≤ a.reads + 1) (writes : a'.writes = a.writes)
  | write (free : l.writer = none) (empty : l.readers = []) (lock : l' = { l with writer := some t })
      (reads : a'.reads = a.reads) (writes : a'.writes ≤ a.writes + 1)
  | leaveRead (inside : 0 < a.reads) (unlock : l.unlock t .success = some l')
      (reads : a'.reads = a.reads - 1) (writes : a'.writes = a.writes)
  | leaveWrite (inside : 0 < a.writes) (unlock : l.unlock t .success = some l')
      (reads : a'.reads = a.reads) (writes : a'.writes = a.writes - 1)
  | fails (lock : l' = l) (reads : a'.reads ≤ a.reads) (writes : a'.writes = a.writes)

theorem rwlock_effect {l : PthreadRwlock} (h : rwlockAct limit t l a o = some r)
    (hserved : o.served = true) : RwlockEffect t l a r.1 r.2 := by
  cases o with
  | enterRead e =>
    obtain ⟨l', hl, rfl⟩ := Option.map_eq_some_iff.mp h
    cases e <;> simp only [PthreadRwlock.rdlock, Option.ite_none_right_eq_some, reduceCtorEq] at hl
    · exact .read hl.1.1 (Option.some.inj hl.2).symm le_rfl rfl
    · exact absurd hserved (by decide)
    · exact .fails (Option.some.inj hl.2).symm le_rfl rfl
  | tryEnterRead e =>
    obtain ⟨l', hl, rfl⟩ := Option.map_eq_some_iff.mp h
    cases e <;> simp only [PthreadRwlock.tryrdlock, Option.ite_none_right_eq_some,
      Option.ite_none_left_eq_some, reduceCtorEq] at hl
    · exact .read hl.1.1 (Option.some.inj hl.2).symm (Nat.le_succ _) rfl
    · exact .fails (Option.some.inj hl.2).symm le_rfl rfl
    · exact absurd hserved (by decide)
  | leaveRead e =>
    simp only [rwlockAct, Option.ite_none_right_eq_some] at h
    obtain ⟨hin, h⟩ := h
    obtain ⟨l', hl, rfl⟩ := Option.map_eq_some_iff.mp h
    cases e <;> simp only [PthreadRwlock.unlock, Option.ite_none_left_eq_some, reduceCtorEq] at hl
    · exact .leaveRead hin hl rfl rfl
    · exact .fails (Option.some.inj hl.2).symm le_rfl rfl
  | enterWrite e =>
    obtain ⟨l', hl, rfl⟩ := Option.map_eq_some_iff.mp h
    cases e <;> simp only [PthreadRwlock.wrlock, Option.ite_none_right_eq_some, reduceCtorEq] at hl
    · exact .write hl.1.1 hl.1.2 (Option.some.inj hl.2).symm rfl le_rfl
    · exact .fails (Option.some.inj hl.2).symm le_rfl rfl
  | tryEnterWrite e =>
    obtain ⟨l', hl, rfl⟩ := Option.map_eq_some_iff.mp h
    cases e <;> simp only [PthreadRwlock.trywrlock, Option.ite_none_right_eq_some,
      Option.ite_none_left_eq_some, reduceCtorEq] at hl
    · exact .write hl.1.1 hl.1.2 (Option.some.inj hl.2).symm rfl (Nat.le_succ _)
    · exact absurd hserved (by decide)
  | leaveWrite e =>
    simp only [rwlockAct, Option.ite_none_right_eq_some] at h
    obtain ⟨hin, h⟩ := h
    obtain ⟨l', hl, rfl⟩ := Option.map_eq_some_iff.mp h
    cases e <;> simp only [PthreadRwlock.unlock, Option.ite_none_left_eq_some, reduceCtorEq] at hl
    · exact .leaveWrite hin hl rfl rfl
    · exact .fails (Option.some.inj hl.2).symm le_rfl rfl

theorem Backed.no_writer (hs : Backed s) (hfree : s.shared.writer = none) {i : ℕ} {a : Entries}
    (ha : s.threads[i]? = some a) : a.writes = 0 := by
  by_contra hw
  have := ((hs.entries i a ha).2 (Nat.pos_of_ne_zero hw)).2
  rw [hfree] at this
  cases this

theorem backed_acts (hs : Backed s) (hacts : Acts (rwlockAct limit) s t o s' a r)
    (hserved : o.served = true) : Backed s' := by
  obtain ⟨hreads, hwrites⟩ := hs.entries t a hacts.thread
  cases rwlock_effect hacts.act hserved with
  | read free lock reads writes =>
    have hzero := hs.no_writer free hacts.thread
    refine ⟨hacts.forall_threads hs.entries ⟨?_, fun hw => by omega⟩ fun i b hi hb => ⟨?_, fun hw => ?_⟩, ?_⟩
    · rw [hacts.shared, lock, List.count_cons_self]
      omega
    · rw [hacts.shared, lock, List.count_cons_of_ne (Ne.symm hi)]
      exact hb.1
    · rw [hacts.shared, lock]
      exact hb.2 hw
    · rw [hacts.shared, lock]
      exact fun h => absurd free h
  | write free empty lock reads writes =>
    have hzero := hs.no_writer free hacts.thread
    refine ⟨hacts.forall_threads hs.entries ⟨?_, fun hw => ⟨by omega, by rw [hacts.shared, lock]⟩⟩
      fun i b hi hb => ⟨?_, fun hw => ?_⟩, ?_⟩
    · rw [hacts.shared, lock, reads]
      exact hreads
    · rw [hacts.shared, lock]
      exact hb.1
    · have := (hb.2 hw).2
      rw [free] at this
      cases this
    · rw [hacts.shared, lock]
      exact fun _ => empty
  | leaveRead inside unlock reads writes =>
    have hmem : t ∈ s.shared.readers := List.count_pos_iff.mp (by omega)
    have hfree : s.shared.writer = none := by
      by_contra hw
      rw [hs.alone hw] at hmem
      cases hmem
    have hzero := hs.no_writer hfree hacts.thread
    have hlock : r.1 = { s.shared with readers := s.shared.readers.erase t } := by
      rw [PthreadRwlock.unlock, if_pos hmem] at unlock
      exact (Option.some.inj unlock).symm
    refine ⟨hacts.forall_threads hs.entries ⟨?_, fun hw => by omega⟩ fun i b hi hb => ⟨?_, fun hw => ?_⟩, ?_⟩
    · rw [hacts.shared, hlock, List.count_erase_self]
      omega
    · rw [hacts.shared, hlock, List.count_erase_of_ne hi]
      exact hb.1
    · rw [hacts.shared, hlock]
      exact hb.2 hw
    · rw [hacts.shared, hlock]
      exact fun h => absurd hfree h
  | leaveWrite inside unlock reads writes =>
    obtain ⟨hone, hwriter⟩ := hwrites inside
    have hempty := hs.alone (by simp [hwriter])
    have hlock : r.1 = { s.shared with writer := none } := by
      rw [PthreadRwlock.unlock, if_neg (by simp [hempty]), if_neg (by simp [hwriter])] at unlock
      exact (Option.some.inj unlock).symm
    refine ⟨hacts.forall_threads hs.entries ⟨?_, fun hw => by omega⟩ fun i b hi hb => ⟨?_, fun hw => ?_⟩, ?_⟩
    · rw [hacts.shared, hlock, reads]
      exact hreads
    · rw [hacts.shared, hlock]
      exact hb.1
    · have := (hb.2 hw).2
      rw [hwriter, Option.some.injEq] at this
      exact absurd this.symm hi
    · rw [hacts.shared, hlock]
      exact fun h => absurd rfl h
  | fails lock reads writes =>
    refine ⟨hacts.forall_threads hs.entries ⟨?_, fun hw => ?_⟩ fun i b hi hb => ?_, ?_⟩
    · rw [hacts.shared, lock]
      omega
    · rw [hacts.shared, lock, writes]
      exact hwrites (writes ▸ hw)
    · rw [hacts.shared, lock]
      exact hb
    · rw [hacts.shared, lock]
      exact hs.alone

theorem Backed.excludes (hs : Backed s) : RwlockExcludes s := by
  intro i j a b hij hi hj hw
  have hwriter := ((hs.entries i a hi).2 hw).2
  obtain ⟨hreads, hwrites⟩ := hs.entries j b hj
  rw [hs.alone (by simp [hwriter])] at hreads
  refine ⟨Nat.le_zero.mp hreads, ?_⟩
  by_contra hne
  have := (hwrites (Nat.pos_of_ne_zero hne)).2
  rw [hwriter, Option.some.injEq] at this
  exact hij this

theorem backed_init (n : ℕ) : Backed (rwlockInit n) := by
  refine ⟨fun i a ha => ?_, fun h => absurd rfl h⟩
  rw [List.eq_of_mem_replicate (List.mem_of_getElem? ha)]
  exact ⟨Nat.zero_le _, fun h => absurd h (Nat.lt_irrefl 0)⟩

end Rwlocks

theorem rwlock_run {limit n : ℕ} {es : List (ℕ × RwlockOp)} {s : RwlockState}
    (hrun : Transition.run (step (rwlockAct limit)) (rwlockInit n) es = some s)
    (hserved : ∀ e ∈ es, e.2.served = true) : RwlockExcludes s := by
  have hok : Transition.Along (step (rwlockAct limit)) (fun _ e => e.2.served = true) (rwlockInit n) es :=
    Transition.along_of_mem _ (fun e he _ => hserved e he) _
  have hs : Backed s := by
    refine Transition.run_invariant _ (fun s e s' hs hok h => ?_) hok hrun (backed_init n)
    obtain ⟨a, r, hacts⟩ := step_acts h
    exact backed_acts hs hacts hok
  exact hs.excludes

/-! ## Both -/

/-- Two threads are never inside a mutex if and only if every `try_enter` that finds it locked is called
while no other thread is inside; and a writer is alone inside a read-write lock in every run in which no
`try` finds it busy and no `enter_read` meets the limit on read locks. -/
theorem try_locks_exclude_when (limit n : ℕ) :
    (∀ (es : List (ℕ × MutexOp)) (s : MutexState),
      Transition.run (step mutexAct) (mutexInit n) es = some s →
      ((∀ es₁ s₁, es₁ <+: es → Transition.run (step mutexAct) (mutexInit n) es₁ = some s₁ →
          MutexExcludes s₁) ↔
        Transition.Along (step mutexAct) (fun s e => triesAlone s e = true) (mutexInit n) es)) ∧
    ∀ (es : List (ℕ × RwlockOp)) (s : RwlockState),
      Transition.run (step (rwlockAct limit)) (rwlockInit n) es = some s →
      (∀ e ∈ es, e.2.served = true) → RwlockExcludes s :=
  ⟨fun _ _ hrun => mutex_run hrun, fun _ _ hrun hserved => rwlock_run hrun hserved⟩

theorem try_locks_exclude_three :
    let mutexOps : List (ℕ × MutexOp) := [(0, .tryEnter .success), (1, .tryEnter .ebusy), (1, .leave .eperm)]
    let rwlockOps : List (ℕ × RwlockOp) := [(0, .enterRead .success), (1, .tryEnterRead .success),
      (2, .enterRead .success), (0, .leaveRead .success)]
    (∃ s : MutexState, Transition.run (step mutexAct) (mutexInit 3) mutexOps = some s ∧
      s.threads = [false, true, false] ∧ MutexExcludes s) ∧
    ∃ s : RwlockState, Transition.run (step (rwlockAct 8)) (rwlockInit 3) rwlockOps = some s ∧
      s.threads = [⟨0, 0⟩, ⟨0, 0⟩, ⟨1, 0⟩] ∧ RwlockExcludes s := by
  intro mutexOps rwlockOps
  refine ⟨⟨_, rfl, rfl, ?_⟩, _, rfl, rfl, ?_⟩
  · exact ((try_locks_exclude_when 8 3).1 mutexOps _ rfl).mpr (by decide) _ _ List.prefix_rfl rfl
  · exact (try_locks_exclude_when 8 3).2 rwlockOps _ rfl (by decide)

/-- A thread that finds the lock taken is told that it has entered. -/
theorem try_enter_true_when_busy :
    (∃ s : MutexState, Transition.run (step mutexAct) (mutexInit 2)
        [(0, .enter .success), (1, .tryEnter .ebusy)] = some s ∧
      s.threads = [true, true] ∧ ¬MutexExcludes s) ∧
    ∃ s : RwlockState, Transition.run (step (rwlockAct 8)) (rwlockInit 2)
        [(0, .enterWrite .success), (1, .tryEnterRead .ebusy)] = some s ∧
      s.threads = [⟨0, 1⟩, ⟨1, 0⟩] ∧ ¬RwlockExcludes s := by
  refine ⟨⟨_, rfl, rfl, fun h => ?_⟩, _, rfl, rfl, fun h => ?_⟩
  · exact absurd (h 0 1 rfl rfl) (by decide)
  · exact absurd (h 0 1 _ _ (by decide) rfl rfl (by decide)).1 (by decide)

end Dcl.Sync.Posix
