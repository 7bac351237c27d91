import Dcl.Foundations.Slots
import Dcl.Pools.System
import Mathlib.Data.String.Basic

/-! # The size limit of a pool

`acquire_item` takes a permit of the semaphore and then enters the locked section; `release_item` gives
the permit back before it enters its own. `Balance` says what the permits are worth: those of the
semaphore, those of the threads that are about to enter `acquire_item`, and the objects that are
neither in the queue nor on their way back to it. A thread that makes an object while another one is
still on its way back exceeds the limit; otherwise the limit holds. -/
namespace Dcl.Pools
set_option autoImplicit false

namespace Pc
variable {κ : Type}

/-- The thread has a permit of pool `i` and is about to enter the locked section of `acquire_item`. -/
def enters (i : PoolId) : Pc κ → Bool
  | .lockPool j _ => j == i
  | _ => false

/-- The thread has given its permit back and is about to enter the locked section of
`release_item`. -/
def returns (i : PoolId) : Pc κ → Bool
  | .pushBack _ j _ _ => j == i
  | _ => false

def label : Pc κ → Option (PoolId × κ)
  | .lockPolicy pool key => some (pool, key)
  | .lockPool pool key => some (pool, key)
  | .acquired _ pool key => some (pool, key)
  | .unlockPolicy _ pool key _ => some (pool, key)
  | .pushBack _ pool key _ => some (pool, key)
  | _ => none

end Pc

section Limit
variable {κ : Type} [LinearOrder κ]

namespace State

def entering (s : State κ) (i : PoolId) : ℕ := s.threads.countP (Pc.enters i)

def returning (s : State κ) (i : PoolId) : ℕ := s.threads.countP (Pc.returns i)

end State

/-! ## One key -/

/-- Everything of pool `i` that threads and pointers have was acquired under the key `k`. -/
structure Keyed (i : PoolId) (k : κ) (s : State κ) : Prop where
  threads : ∀ pc ∈ s.threads, ∀ key, pc.label = some (i, key) → key = k
  ptrs : ∀ src, some src ∈ s.ptrs → src.pool = some i → src.key = k

section Key
variable {i : PoolId} {k : κ} {s s' : State κ}

theorem Keyed.setThread (hs : Keyed i k s) {t : ThreadId} {pc : Pc κ}
    (hthreads : s'.threads = s.threads.set t pc) (hptrs : s'.ptrs = s.ptrs)
    (hpc : ∀ key, pc.label = some (i, key) → key = k) : Keyed i k s' := by
  refine ⟨fun c hc => ?_, hptrs ▸ hs.ptrs⟩
  rw [hthreads] at hc
  obtain hc | rfl := List.mem_or_eq_of_mem_set hc
  · exact hs.threads c hc
  · exact hpc

theorem Keyed.mem_ptr {p : PtrId} {src : PoolPtr κ} (h : s.ptr p = some src) : some src ∈ s.ptrs := by
  rw [State.ptr, Option.join_eq_some_iff] at h
  exact List.mem_of_getElem? h

theorem Keyed.finish (hs : Keyed i k s) {op : Operation} (h : s.finish op = some s') :
    Keyed i k s' := by
  cases op with
  | assign p q =>
    obtain ⟨src, hsrc, rfl⟩ := Option.map_eq_some_iff.mp h
    refine ⟨hs.threads, fun c hc => ?_⟩
    obtain hc | hc := List.mem_or_eq_of_mem_set hc
    · obtain hc | hc := List.mem_or_eq_of_mem_set hc
      · exact hs.ptrs c hc
      · cases hc
        exact hs.ptrs src (Keyed.mem_ptr hsrc)
    · cases hc
      intro hpool
      simp [PoolPtr.moved] at hpool
  | destroy p =>
    cases h
    refine ⟨hs.threads, fun c hc => ?_⟩
    obtain hc | hc := List.mem_or_eq_of_mem_set hc
    · exact hs.ptrs c hc
    · cases hc

theorem keyed_step [Inhabited κ] {e : Event κ} (hs : Keyed i k s)
    (hkey : ∀ t key, e = .acquire t i key → key = k) (h : step s e = some s') : Keyed i k s' := by
  -- a thread that goes on with the pool and the key it works with
  have hgo : ∀ {t : ThreadId} {pc₀ pc : Pc κ} {s'' : State κ}, s.threads[t]? = some pc₀ →
      s''.threads = s.threads.set t pc → s''.ptrs = s.ptrs → pc.label = pc₀.label → Keyed i k s'' :=
    fun ht hthreads hptrs hlabel => hs.setThread hthreads hptrs fun key hl =>
      hs.threads _ (List.mem_of_getElem? ht) key (hlabel ▸ hl)
  cases step_cases h with
  | default t ht =>
    refine ⟨hs.threads, fun src hsrc hpool => ?_⟩
    obtain hsrc | hsrc := List.mem_append.mp hsrc
    · exact hs.ptrs src hsrc hpool
    · rw [List.mem_singleton, Option.some.injEq] at hsrc
      simp [hsrc] at hpool
  | copy t q src ht hbusy hq =>
    refine ⟨hs.threads, fun c hc hpool => ?_⟩
    obtain hc | hc := List.mem_append.mp hc
    · obtain hc | hc := List.mem_or_eq_of_mem_set hc
      · exact hs.ptrs c hc hpool
      · cases hc
        simp [PoolPtr.moved] at hpool
    · rw [List.mem_singleton, Option.some.injEq] at hc
      subst hc
      exact hs.ptrs c (Keyed.mem_ptr hq) hpool
  | acquire t pool key ht =>
    refine hs.setThread rfl rfl fun key' hl => ?_
    simp only [Pc.label, Option.some.injEq, Prod.mk.injEq] at hl
    obtain ⟨rfl, rfl⟩ := hl
    exact hkey t key rfl
  | lock t pool key p ht hp => exact hgo ht rfl rfl rfl
  | acquireItem t throws pool key ht =>
    obtain ⟨_, hptrs, pc, hthreads, rfl | ⟨item, rfl⟩⟩ := s.acquireItem_frame t pool key throws
    · exact hs.setThread hthreads hptrs fun key' hl => by simp [Pc.label] at hl
    · exact hgo ht hthreads hptrs rfl
  | makePtr t item pool key ht =>
    have hidle : Keyed i k (s.setThread t .idle) :=
      hs.setThread rfl rfl fun key' hl => by simp [Pc.label] at hl
    refine ⟨hidle.threads, fun src hsrc hpool => ?_⟩
    obtain hsrc | hsrc := List.mem_append.mp hsrc
    · exact hs.ptrs src hsrc hpool
    · rw [List.mem_singleton, Option.some.injEq] at hsrc
      subst hsrc
      simp only [Option.some.injEq] at hpool
      exact hs.threads _ (List.mem_of_getElem? ht) key (by rw [Pc.label, hpool])
  | start t op _ ht hptrs h =>
    obtain ⟨dst, hdst, ⟨item, pool, key, hheld, rfl⟩ | ⟨_, h⟩⟩ := State.start_cases h
    · refine hs.setThread rfl rfl fun key' hl => ?_
      simp only [Pc.label, Option.some.injEq, Prod.mk.injEq] at hl
      obtain ⟨rfl, rfl⟩ := hl
      have hpool := PoolPtr.held_some hheld
      rw [← hpool.2]
      exact hs.ptrs dst (Keyed.mem_ptr hdst) hpool.1
    · exact hs.finish h
  | unlock t item pool key op ht => exact hgo ht rfl rfl rfl
  | releaseItem t item pool key op ht =>
    exact hs.setThread rfl rfl fun key' hl => by simp [Pc.label] at hl
  | finish t op _ ht h =>
    have hidle : Keyed i k (s.setThread t .idle) :=
      hs.setThread rfl rfl fun key' hl => by simp [Pc.label] at hl
    exact hidle.finish h

end Key

/-! ## What a step does to one pool -/

/-- What a step does to pool `i`, to the threads that are about to enter `acquire_item`, and to those
that are about to enter `release_item`. -/
inductive Account (i : PoolId) (s : State κ) (e : Event κ) (s' : State κ) : Prop where
  | quiet (pool : s'.pools i = s.pools i) (entering : s'.entering i = s.entering i)
      (returning : s'.returning i = s.returning i)
  | lock (pool : (s.pools i).lock = some (s'.pools i)) (entering : s'.entering i = s.entering i + 1)
      (returning : s'.returning i = s.returning i)
  | acquire (t : ThreadId) (throws : Bool) (key : κ) (event : e = .acquireItem t throws)
      (thread : s.threads[t]? = some (.lockPool i key))
      (pool : s'.pools i =
        ((s.pools i).acquireItem key (if throws then none else some s.created)).2)
      (entering : s'.entering i + 1 = s.entering i) (returning : s'.returning i = s.returning i)
  | unlock (pool : s'.pools i = (s.pools i).unlock) (entering : s'.entering i = s.entering i)
      (returning : s'.returning i = s.returning i + 1)
  | release (t : ThreadId) (item : ItemId) (key : κ) (op : Operation)
      (thread : s.threads[t]? = some (.pushBack item i key op))
      (pool : s'.pools i = (s.pools i).releaseItem item key)
      (entering : s'.entering i = s.entering i) (returning : s'.returning i + 1 = s.returning i)

section Accounts
variable {s s' : State κ} {t : ThreadId} {pc₀ pc : Pc κ}

theorem entering_set (ht : s.threads[t]? = some pc₀) (h : s'.threads = s.threads.set t pc)
    (i : PoolId) : s'.entering i + (pc₀.enters i).toNat = s.entering i + (pc.enters i).toNat := by
  rw [State.entering, h]
  exact Slots.countP_set ht pc _

theorem returning_set (ht : s.threads[t]? = some pc₀) (h : s'.threads = s.threads.set t pc)
    (i : PoolId) : s'.returning i + (pc₀.returns i).toNat = s.returning i + (pc.returns i).toNat := by
  rw [State.returning, h]
  exact Slots.countP_set ht pc _

theorem account_thread {e : Event κ} {i : PoolId} (ht : s.threads[t]? = some pc₀)
    (h : s'.threads = s.threads.set t pc) (hpool : s'.pools i = s.pools i)
    (henters : pc.enters i = pc₀.enters i) (hreturns : pc.returns i = pc₀.returns i) :
    Account i s e s' := by
  have h1 := entering_set ht h i
  have h2 := returning_set ht h i
  rw [henters] at h1
  rw [hreturns] at h2
  exact .quiet hpool (by omega) (by omega)

/-- A thread that changes one pool: nothing happens to the others. -/
theorem account_pool {e : Event κ} {i pool : PoolId} {p : Pool κ} (ht : s.threads[t]? = some pc₀)
    (h : s'.threads = s.threads.set t pc) (hpools : s'.pools = Function.update s.pools pool p)
    (hother : pool ≠ i → pc.enters i = pc₀.enters i ∧ pc.returns i = pc₀.returns i)
    (hsame : pool = i → s'.pools i = p →
      s'.entering i + (pc₀.enters i).toNat = s.entering i + (pc.enters i).toNat →
      s'.returning i + (pc₀.returns i).toNat = s.returning i + (pc.returns i).toNat →
      Account i s e s') : Account i s e s' := by
  by_cases hi : pool = i
  · have hpool : s'.pools i = p := by rw [hpools, ← hi, Function.update_self]
    exact hsame hi hpool (entering_set ht h i) (returning_set ht h i)
  · have hpool : s'.pools i = s.pools i := by rw [hpools, Function.update_of_ne (Ne.symm hi)]
    exact account_thread ht h hpool (hother hi).1 (hother hi).2

theorem step_account [Inhabited κ] {e : Event κ} (h : step s e = some s') (i : PoolId) :
    Account i s e s' := by
  cases step_cases h with
  | default t ht => exact .quiet rfl rfl rfl
  | copy t q src ht hbusy hq => exact .quiet rfl rfl rfl
  | acquire t pool key ht => exact account_thread ht rfl rfl rfl rfl
  | lock t pool key p ht hp =>
    refine account_pool ht rfl rfl (fun hi => by simp [Pc.enters, Pc.returns, hi]) ?_
    rintro rfl hpool h1 h2
    simp only [Pc.enters, Pc.returns, beq_self_eq_true] at h1 h2
    exact .lock (by rw [hp, hpool]) h1 h2
  | acquireItem t throws pool key ht =>
    obtain ⟨hpools, _, pc, hthreads, hcases⟩ := s.acquireItem_frame t pool key throws
    have hpc : ∀ j, pc.enters j = false ∧ pc.returns j = false := by
      intro j
      obtain rfl | ⟨item, rfl⟩ := hcases
      · exact ⟨rfl, rfl⟩
      · exact ⟨rfl, rfl⟩
    refine account_pool ht hthreads hpools (fun hi => ?_) ?_
    · rw [(hpc i).1, (hpc i).2]
      simp [Pc.enters, Pc.returns, hi]
    rintro rfl hpool h1 h2
    rw [(hpc pool).1] at h1
    rw [(hpc pool).2] at h2
    simp only [Pc.enters, Pc.returns, beq_self_eq_true] at h1 h2
    exact .acquire t throws key rfl ht hpool h1 h2
  | makePtr t item pool key ht => exact account_thread ht rfl rfl rfl rfl
  | start t op _ ht hptrs h =>
    obtain ⟨dst, _, ⟨item, pool, key, _, rfl⟩ | ⟨_, h⟩⟩ := State.start_cases h
    · exact account_thread ht rfl rfl rfl rfl
    · obtain ⟨hpools, hthreads, _⟩ := State.finish_frame h
      exact .quiet (by rw [hpools]) (by rw [State.entering, hthreads]; rfl)
        (by rw [State.returning, hthreads]; rfl)
  | unlock t item pool key op ht =>
    refine account_pool ht rfl rfl (fun hi => by simp [Pc.enters, Pc.returns, hi]) ?_
    rintro rfl hpool h1 h2
    simp only [Pc.enters, Pc.returns, beq_self_eq_true] at h1 h2
    exact .unlock hpool h1 h2
  | releaseItem t item pool key op ht =>
    refine account_pool ht rfl rfl (fun hi => by simp [Pc.enters, Pc.returns, hi]) ?_
    rintro rfl hpool h1 h2
    simp only [Pc.enters, Pc.returns, beq_self_eq_true] at h1 h2
    exact .release t item key op ht hpool h1 h2
  | finish t op _ ht h =>
    obtain ⟨hpools, hthreads, _⟩ := State.finish_frame h
    exact account_thread ht hthreads (by rw [hpools]; rfl) rfl rfl

end Accounts

/-! ## The limit -/

/-- No object is made while another one is on its way back to the queue, its permit already given
back. -/
def makesInTurn (i : PoolId) (s : State κ) : Event κ → Bool
  | .acquireItem t false =>
      match s.threads[t]? with
      | some (.lockPool j key) => j != i || !((s.pools i).queue key).isEmpty || s.returning i == 0
      | _ => true
  | _ => true

theorem makesInTurn_returning {i : PoolId} {s : State κ} {t : ThreadId} {key : κ}
    (h : makesInTurn i s (.acquireItem t false) = true)
    (ht : s.threads[t]? = some (.lockPool i key)) (hq : (s.pools i).queue key = []) :
    s.returning i = 0 := by
  simpa [makesInTurn, ht, hq] using h

/-- The permits of a pool with the limit `n` and the one key `k`. -/
structure Balance (i : PoolId) (k : κ) (n : ℕ) (s : State κ) : Prop where
  keyed : Keyed i k s
  permits : ∃ p, (s.pools i).permits = some p ∧
    p + s.entering i + (s.pools i).all.length ≤ n + ((s.pools i).queue k).length + s.returning i
  size : (s.pools i).all.length ≤ n

theorem balance_init {limits : PoolId → Option ℕ} {i : PoolId} {n : ℕ} (hlimit : limits i = some n)
    (k : κ) (m : ℕ) : Balance i k n (State.init limits m : State κ) := by
  have hidle : ∀ pc ∈ (State.init limits m : State κ).threads, pc = .idle := fun pc hpc =>
    List.eq_of_mem_replicate hpc
  refine ⟨⟨fun pc hpc key hl => ?_, fun src hsrc => ?_⟩, ⟨n, hlimit, ?_⟩, Nat.zero_le n⟩
  · rw [hidle pc hpc] at hl
    simp [Pc.label] at hl
  · simp [State.init] at hsrc
  · have hentering : (State.init limits m : State κ).entering i = 0 := by
      refine List.countP_eq_zero.mpr fun pc hpc => ?_
      simp [hidle pc hpc, Pc.enters]
    have hall : ((State.init limits m : State κ).pools i).all = [] := rfl
    rw [hentering, hall, List.length_nil]
    omega

theorem balance_step [Inhabited κ] {i : PoolId} {k : κ} {n : ℕ} (s : State κ) (e : Event κ)
    (s' : State κ) (hs : Balance i k n s)
    (hok : (∀ t key, e = .acquire t i key → key = k) ∧ makesInTurn i s e = true) (h : step s e = some s') :
    Balance i k n s' := by
  have hkeyed := keyed_step hs.keyed hok.1 h
  obtain ⟨p, hp, hle⟩ := hs.permits
  have hsize := hs.size
  cases step_account h i with
  | quiet pool entering returning =>
    exact ⟨hkeyed, ⟨p, by rw [pool, hp], by rw [pool, entering, returning]; exact hle⟩, pool ▸ hsize⟩
  | lock pool entering returning =>
    obtain ⟨hfree, hall⟩ := Pool.lock_frame pool
    have hq : (s'.pools i).queue k = (s.pools i).queue k := by rw [Pool.queue, hfree]; rfl
    obtain ⟨p', rfl, hp'⟩ := Pool.lock_permits hp pool
    refine ⟨hkeyed, ⟨p', hp', ?_⟩, hall ▸ hsize⟩
    rw [hall, hq, entering, returning]
    omega
  | acquire t throws key event thread pool entering returning =>
    have hkey : key = k := hs.keyed.threads _ (List.mem_of_getElem? thread) key rfl
    subst hkey
    obtain ⟨hperm, hcases⟩ := (s.pools i).acquireItem_cases key
      (if throws then none else some s.created)
    rw [← pool] at hperm hcases
    obtain ⟨item, hnew, hq, hq', hall⟩ | ⟨_, hq, hp'⟩ | ⟨item, q, hq, hq', hall⟩ := hcases
    · -- the thread has a permit, and no object is on its way back
      have hthrows : throws = false := by
        cases throws
        · rfl
        · simp at hnew
      subst event hthrows
      have hret := makesInTurn_returning hok.2 thread hq
      have hle' : (s'.pools i).all.length ≤ n := by
        rw [hall, List.length_append, List.length_singleton]
        simp only [hq, List.length_nil] at hle
        omega
      refine ⟨hkeyed, ⟨p, by rw [hperm, hp], ?_⟩, hle'⟩
      rw [hall, List.length_append, List.length_singleton, hq', returning]
      simp only [hq] at hle
      omega
    · have hall : (s'.pools i).all = (s.pools i).all := by rw [hp']; rfl
      refine ⟨hkeyed, ⟨p, by rw [hperm, hp], ?_⟩, hall ▸ hsize⟩
      rw [hall, hp', Pool.queue_setQueue_same _ hq, returning]
      omega
    · refine ⟨hkeyed, ⟨p, by rw [hperm, hp], ?_⟩, hall ▸ hsize⟩
      rw [hall, hq', returning]
      simp only [hq, List.length_cons] at hle
      omega
  | unlock pool entering returning =>
    refine ⟨hkeyed, ⟨p + 1, by rw [pool, Pool.unlock, hp]; rfl, ?_⟩, by rw [pool]; exact hsize⟩
    have hq : (s.pools i).unlock.queue k = (s.pools i).queue k := rfl
    have hall : (s.pools i).unlock.all = (s.pools i).all := rfl
    rw [pool, hq, hall, entering, returning]
    omega
  | release t item key op thread pool entering returning =>
    have hkey : key = k := hs.keyed.threads _ (List.mem_of_getElem? thread) key rfl
    subst hkey
    refine ⟨hkeyed, ⟨p, by rw [pool, ← hp]; rfl, ?_⟩, by rw [pool]; exact hsize⟩
    have hall : ((s.pools i).releaseItem item key).all = (s.pools i).all := rfl
    rw [pool, hall, Pool.releaseItem, Pool.queue_setQueue, List.length_append, List.length_singleton,
      entering]
    omega

theorem Pool.size_le (p : Pool κ) : p.size ≤ p.all.length := by
  unfold Pool.size toInt32
  rw [Int.bmod_def]
  split <;> omega

/-- As long as no object is made while another one is on its way back, a limited pool that is used
with a single key does not exceed its limit, in any interleaving. -/
theorem size_within_limit [Inhabited κ] (limits : PoolId → Option ℕ) (m : ℕ) (i : PoolId) (n : ℕ)
    (hlimit : limits i = some n) (k : κ) (es : List (Event κ)) (s : State κ)
    (hkey : ∀ t key, Event.acquire t i key ∈ es → key = k)
    (hturn : Transition.Along step (fun s e => makesInTurn i s e = true) (State.init limits m) es)
    (hrun : Transition.run step (State.init limits m) es = some s) : (s.pools i).size ≤ n := by
  have hkeys : Transition.Along step (fun _ e => ∀ t key, e = .acquire t i key → key = k)
      (State.init limits m) es := by
    refine Transition.along_of_mem step (fun e he _ t key h => ?_) _
    exact hkey t key (h ▸ he)
  have hok := Transition.Along.and step hkeys hturn
  have hs : Balance i k n s :=
    Transition.run_invariant step balance_step hok hrun (balance_init hlimit k m)
  have hle := (s.pools i).size_le
  have hsize := hs.size
  omega

namespace Sample

/-- Thread `t` acquires an object of pool 0 with the key `""`, as far as the locked section. -/
def acquireOne (t : ThreadId) : List (Event String) :=
  [.acquire t 0 "", .lock t, .acquireItem t false]

/-- Thread 0 destroys its first `pool_ptr`, as far as the permit is given back. -/
def beginRelease : List (Event String) := [.makePtr 0, .start 0 (.destroy 0), .unlock 0]

theorem acquireOne_key {t u : ThreadId} {key : String}
    (h : Event.acquire t 0 key ∈ acquireOne u) : key = "" := by
  simp only [acquireOne, List.mem_cons, List.not_mem_nil, or_false, reduceCtorEq,
    Event.acquire.injEq] at h
  exact h.2.2

theorem acquireTwo_key {es : List (Event String)} (hes : ∀ t key, Event.acquire t 0 key ∉ es) :
    ∀ t key, Event.acquire t 0 key ∈ acquireOne 0 ++ es ++ acquireOne 1 → key = "" := by
  intro t key h
  rw [List.append_assoc, List.mem_append, List.mem_append] at h
  obtain h | h | h := h
  · exact acquireOne_key h
  · exact absurd h (hes t key)
  · exact acquireOne_key h

end Sample

/-- Thread 1 gets in between the two steps of `release_item` and makes a second object. -/
theorem limit_exceeded : ∃ s : State String,
    Transition.run step (State.init (fun _ => some 1) 2)
      (Sample.acquireOne 0 ++ Sample.beginRelease ++ Sample.acquireOne 1) = some s ∧
    (∀ t key, Event.acquire t 0 key ∈
      Sample.acquireOne 0 ++ Sample.beginRelease ++ Sample.acquireOne 1 → key = "") ∧
    ¬ (s.pools 0).size ≤ 1 := by
  refine ⟨_, rfl, Sample.acquireTwo_key ?_, ?_⟩
  · simp [Sample.beginRelease]
  · decide +kernel

theorem size_within_limit_reused : ∃ s : State String,
    Transition.run step (State.init (fun _ => some 1) 2)
      (Sample.acquireOne 0 ++ (Sample.beginRelease ++ [.releaseItem 0, .finish 0]) ++
        Sample.acquireOne 1) = some s ∧ (s.pools 0).all = [0] ∧ (s.pools 0).size ≤ 1 := by
  refine ⟨_, rfl, rfl, size_within_limit (fun _ => some 1) 2 0 1 rfl ""
    (Sample.acquireOne 0 ++ (Sample.beginRelease ++ [.releaseItem 0, .finish 0]) ++
      Sample.acquireOne 1) _ (Sample.acquireTwo_key ?_) (by decide +kernel) rfl⟩
  simp [Sample.beginRelease]

/-! ## Acquires that fail -/

/-- A call of `acquire` by thread `t` in which the constructor throws, if it is called. -/
def failedAcquire (i : PoolId) (t : ThreadId) (key : κ) : List (Event κ) :=
  [.acquire t i key, .lock t, .acquireItem t true]

theorem failedAcquire_run [Inhabited κ] {s s' : State κ} {i : PoolId} {t : ThreadId} {key : κ}
    (hq : (s.pools i).queue key = [])
    (h : Transition.run step s (failedAcquire i t key) = some s') :
    ∃ p, (s.pools i).lock = some p ∧ s'.pools i = p.setQueue key [] := by
  obtain ⟨s₁, h₁, h⟩ := Transition.run_cons_some step h
  obtain ⟨s₂, h₂, h⟩ := Transition.run_cons_some step h
  obtain ⟨s₃, h₃, h⟩ := Transition.run_cons_some step h
  cases h
  cases step_cases h₁ with | acquire _ _ _ ht₁ =>
  have hlen : t < s.threads.length := (List.getElem?_eq_some_iff.mp ht₁).1
  cases step_cases h₂ with | lock _ pool key' p ht₂ hp =>
  have hpc₂ : pool = i ∧ key' = key := by
    simp only [State.setThread, List.getElem?_set_self hlen, Option.some.injEq, Pc.lockPolicy.injEq]
      at ht₂
    exact ⟨ht₂.1.symm, ht₂.2.symm⟩
  obtain ⟨rfl, rfl⟩ := hpc₂
  cases step_cases h₃ with | acquireItem _ _ pool' key'' ht₃ =>
  have hpc₃ : pool' = pool ∧ key'' = key' := by
    simp only [State.setThread, State.setPool, List.set_set, List.getElem?_set_self hlen,
      Option.some.injEq, Pc.lockPool.injEq] at ht₃
    exact ⟨ht₃.1.symm, ht₃.2.symm⟩
  obtain ⟨rfl, rfl⟩ := hpc₃
  refine ⟨p, hp, ?_⟩
  have hfree : p.queue key'' = [] := by rw [Pool.queue, (Pool.lock_frame hp).1]; exact hq
  rw [(State.acquireItem_frame _ t pool' key'' true).1, Function.update_self]
  simp [State.setThread, State.setPool, Pool.acquireItem, hfree]

/-- What failing calls leave behind: the same objects and queues, and a permit less for each. -/
theorem failedAcquires_run [Inhabited κ] {i : PoolId} {s s' : State κ} {n : ℕ}
    (hp : (s.pools i).permits = some n) {calls : List (ThreadId × κ)}
    (hnew : ∀ c ∈ calls, (s.pools i).queue c.2 = [])
    (h : Transition.run step s (calls.flatMap fun c => failedAcquire i c.1 c.2) = some s') :
    ∃ p, n = p + calls.length ∧ (s'.pools i).permits = some p ∧
      (s'.pools i).all = (s.pools i).all ∧ (s'.pools i).inUse = (s.pools i).inUse ∧
      ∀ key, (s'.pools i).queue key = (s.pools i).queue key := by
  induction calls generalizing s n with
  | nil =>
    cases h
    exact ⟨n, rfl, hp, rfl, rfl, fun key => rfl⟩
  | cons c calls ih =>
    rw [List.flatMap_cons, Transition.run_append] at h
    obtain ⟨s₁, h₁, h⟩ := Option.bind_eq_some_iff.mp h
    have hq := hnew c (by simp)
    obtain ⟨p, hlock, hpool⟩ := failedAcquire_run hq h₁
    obtain ⟨hfree, hall⟩ := Pool.lock_frame hlock
    obtain ⟨n', rfl, hp'⟩ := Pool.lock_permits hp hlock
    have hqp : ∀ key, p.queue key = (s.pools i).queue key := fun key => by rw [Pool.queue, hfree]; rfl
    have hsame : ∀ key, (s₁.pools i).queue key = (s.pools i).queue key := fun key => by
      rw [hpool, Pool.queue_setQueue_same p ((hqp c.2).trans hq), hqp]
    have hp₁ : (s₁.pools i).permits = some n' := by rw [hpool, ← hp']; rfl
    have hall₁ : (s₁.pools i).all = (s.pools i).all := by rw [hpool, ← hall]; rfl
    have huse : (s₁.pools i).inUse = (s.pools i).inUse := by
      rw [hpool, Pool.inUse_setQueue_same p ((hqp c.2).trans hq), Pool.inUse, hfree, hall]
      rfl
    obtain ⟨p', hn, hp'', hall', huse', hqueue⟩ :=
      ih hp₁ (fun d hd => by rw [hsame]; exact hnew d (by simp [hd])) h
    refine ⟨p', by rw [hn, List.length_cons]; omega, hp'', hall'.trans hall₁, huse'.trans huse, ?_⟩
    exact fun key => (hqueue key).trans (hsame key)

theorem failedAcquire_possible [Inhabited κ] {s : State κ} {i : PoolId} {t : ThreadId} {key : κ}
    {n : ℕ} (ht : s.threads[t]? = some .idle) (hq : (s.pools i).queue key = [])
    (hp : (s.pools i).permits = some (n + 1)) :
    ∃ s', Transition.run step s (failedAcquire i t key) = some s' ∧ s'.threads[t]? = some .idle := by
  have hlen : t < s.threads.length := (List.getElem?_eq_some_iff.mp ht).1
  have hlock : (s.pools i).lock = some { s.pools i with permits := some n } := by rw [Pool.lock, hp]
  have hqueue : ({ s.pools i with permits := some n } : Pool κ).queue key = [] := hq
  refine ⟨_, by
    simp only [failedAcquire, Transition.run, step, ht, Option.bind_some, State.setThread,
      List.getElem?_set_self hlen, hlock, Option.map_some, State.setPool, List.set_set]
    rfl, ?_⟩
  simp [State.acquireItem, Pool.acquireItem, hqueue, State.setThread, State.setPool, hlen]

theorem failedAcquires_possible [Inhabited κ] {s : State κ} {i : PoolId} {t : ThreadId} {key : κ}
    {n : ℕ} (ht : s.threads[t]? = some .idle) (hq : (s.pools i).queue key = [])
    (hp : (s.pools i).permits = some n) :
    ∃ s', Transition.run step s
      ((List.replicate n (t, key)).flatMap fun c => failedAcquire i c.1 c.2) = some s' := by
  induction n generalizing s with
  | zero => exact ⟨s, rfl⟩
  | succ n ih =>
    obtain ⟨s₁, h₁, ht₁⟩ := failedAcquire_possible ht hq hp
    have hsingle : Transition.run step s ([(t, key)].flatMap fun c => failedAcquire i c.1 c.2) =
        some s₁ := by simpa using h₁
    obtain ⟨p, hn, hp₁, _, _, hqueue⟩ := failedAcquires_run hp (by simpa using hq) hsingle
    have hpn : p = n := by
      simp only [List.length_singleton] at hn
      omega
    obtain ⟨s', h'⟩ := ih ht₁ (by rw [hqueue, hq]) (hpn ▸ hp₁)
    refine ⟨s', ?_⟩
    rw [List.replicate_succ, List.flatMap_cons, Transition.run_append, h₁]
    exact h'

theorem limited_run [Inhabited κ] {limits : PoolId → Option ℕ} {m : ℕ} {i : PoolId} {n : ℕ}
    (hlimit : limits i = some n) {es : List (Event κ)} {s : State κ}
    (hrun : Transition.run step (State.init limits m) es = some s) :
    ∃ p, (s.pools i).permits = some p := by
  refine Transition.run_preserves step (P := fun s => ∃ p, (s.pools i).permits = some p)
    (fun s e s' hs h => ?_) hrun ⟨n, hlimit⟩
  obtain ⟨p, hp⟩ := hs
  cases step_account h i with
  | quiet pool _ _ => exact ⟨p, by rw [pool, hp]⟩
  | lock pool _ _ =>
    obtain ⟨p', _, hp'⟩ := Pool.lock_permits hp pool
    exact ⟨p', hp'⟩
  | acquire t throws key _ _ pool _ _ =>
    exact ⟨p, by rw [pool, (Pool.acquireItem_cases _ _ _).1, hp]⟩
  | unlock pool _ _ => exact ⟨p + 1, by rw [pool, Pool.unlock, hp]; rfl⟩
  | release t item key op _ pool _ _ => exact ⟨p, by rw [pool, ← hp]; rfl⟩

/-- In every reachable state: an `acquire` whose constructor throws leaves the objects and the queues
of a limited pool as they were, but not its permits; and there is a number of such calls after which
every `acquire` blocks, although no more objects are in use. -/
theorem failed_acquire_loses_permit [Inhabited κ] (limits : PoolId → Option ℕ) (m : ℕ) (i : PoolId)
    (n : ℕ) (hlimit : limits i = some n) (es : List (Event κ)) (s : State κ)
    (hrun : Transition.run step (State.init limits m) es = some s) :
    (∀ t key s', (s.pools i).queue key = [] →
      Transition.run step s (failedAcquire i t key) = some s' →
      (s'.pools i).all = (s.pools i).all ∧ (∀ k, (s'.pools i).queue k = (s.pools i).queue k) ∧
        (s'.pools i).permits.map (· + 1) = (s.pools i).permits ∧
        (s'.pools i).permits ≠ (s.pools i).permits) ∧
    ∀ t key, s.threads[t]? = some .idle → (s.pools i).queue key = [] →
      ∃ count s', Transition.run step s
          ((List.replicate count (t, key)).flatMap fun c => failedAcquire i c.1 c.2) = some s' ∧
        (s'.pools i).inUse = (s.pools i).inUse ∧ (s'.pools i).lock = none := by
  obtain ⟨p, hp⟩ := limited_run hlimit hrun
  refine ⟨fun t key s' hq h => ?_, fun t key ht hq => ?_⟩
  · have hsingle : Transition.run step s ([(t, key)].flatMap fun c => failedAcquire i c.1 c.2) =
        some s' := by simpa using h
    obtain ⟨p', rfl, hp', hall, _, hqueue⟩ := failedAcquires_run hp (by simpa using hq) hsingle
    refine ⟨hall, hqueue, ?_, ?_⟩
    · rw [hp, hp']
      rfl
    · rw [hp, hp']
      simp
  · obtain ⟨s', h⟩ := failedAcquires_possible ht hq hp
    have hnew : ∀ c ∈ List.replicate p (t, key), (s.pools i).queue c.2 = [] := fun c hc => by
      rw [List.eq_of_mem_replicate hc]
      exact hq
    obtain ⟨p', hn, hp', _, huse, _⟩ := failedAcquires_run hp hnew h
    refine ⟨p, s', h, huse, ?_⟩
    rw [List.length_replicate] at hn
    have hzero : p' = 0 := by omega
    rw [Pool.lock, hp', hzero]

/-- One failing `acquire` of a pool with the limit 1: nothing is in use, and the next call blocks. -/
theorem failed_acquire_blocks : ∃ s s' : State String,
    Transition.run step (State.init (fun _ => some 1) 1) [] = some s ∧
    Transition.run step s (failedAcquire 0 0 "") = some s' ∧
    (s'.pools 0).permits ≠ (s.pools 0).permits ∧ (s'.pools 0).inUse < 1 ∧
    Transition.run step s' [.acquire 0 0 "", .lock 0] = none := by
  refine ⟨_, _, rfl, rfl, ?_, ?_, rfl⟩
  · decide +kernel
  · decide +kernel

theorem failed_acquire_loses_permit_two : ∃ s' : State String,
    Transition.run step (State.init (fun _ => some 2) 1) (failedAcquire 0 0 "") = some s' ∧
    (s'.pools 0).permits = some 1 ∧
    (s'.pools 0).permits ≠ ((State.init (fun _ => some 2) 1 : State String).pools 0).permits := by
  refine ⟨_, rfl, rfl, ?_⟩
  exact ((failed_acquire_loses_permit (fun _ => some 2) 1 0 2 rfl [] _ rfl).1 0 "" _ rfl rfl).2.2.2

end Limit

end Dcl.Pools
