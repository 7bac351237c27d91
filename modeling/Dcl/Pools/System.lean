import Dcl.Foundations.OrderedMap
import Dcl.Foundations.StringStream
import Dcl.Foundations.Transition

/-! # `pool` and `pool_ptr`

The object pools of `include/dcl/pool.h` and the smart pointers that hold their objects, as one
transition system: any number of pools, of threads and of `pool_ptr`s. A call of the semaphore and a
locked section are one step each; what a thread does between them touches only its own `pool_ptr`s.

* `Pool.acquireItem`, `Pool.releaseItem`: the locked sections.
* `Pc`: where a thread is, with the object it has in its hands.
* `step`: the transition function. A `pool_ptr` has no lock of its own, so two threads may not use
  one at the same time; an event that would do so is not possible.
* `State.handouts`: which object was handed out under which key, in order. It is read by no step.

The keys of a pool are strings; all that is used of them is their order. Pools are never destroyed. -/
namespace Dcl.Pools
set_option autoImplicit false

/-- An object of type `T`: its number in order of creation. -/
abbrev ItemId := ℕ

abbrev PoolId := ℕ

abbrev PtrId := ℕ

abbrev ThreadId := ℕ

/-! ## Pools -/

/-- `permits` is the value of the semaphore, or `none` for the unlimited policy. -/
structure Pool (κ : Type) [LinearOrder κ] where
  free : OrderedMap (KeyOrder.linear κ) (List ItemId)
  all : List ItemId
  permits : Option ℕ

namespace Pool
variable {κ : Type} [LinearOrder κ]

def new (κ : Type) [LinearOrder κ] (limit : Option ℕ) : Pool κ := ⟨.empty, [], limit⟩

def queue (p : Pool κ) (key : κ) : List ItemId := (p.free.find key).getD []

def setQueue (p : Pool κ) (key : κ) (q : List ItemId) : Pool κ := { p with free := p.free.set key q }

/-- `size()`: the number of objects, as an `int`. -/
def size (p : Pool κ) : ℤ := toInt32 p.all.length

/-- `in_use()`: the objects less those in the queues, as an `int`. -/
def inUse (p : Pool κ) : ℤ :=
  toInt32 (p.all.length - (p.free.entries.map fun e => (e.2.length : ℤ)).sum)

/-- `size_policy->lock()`; `none` while it blocks. -/
def lock (p : Pool κ) : Option (Pool κ) :=
  match p.permits with
  | none => some p
  | some 0 => none
  | some (n + 1) => some { p with permits := some n }

def unlock (p : Pool κ) : Pool κ := { p with permits := p.permits.map (· + 1) }

/-- The semaphore is no part of the queues. -/
theorem lock_frame {p p' : Pool κ} (h : p.lock = some p') : p'.free = p.free ∧ p'.all = p.all := by
  unfold lock at h
  split at h
  · cases h
    exact ⟨rfl, rfl⟩
  · cases h
  · cases h
    exact ⟨rfl, rfl⟩

theorem lock_permits {p p' : Pool κ} {n : ℕ} (hn : p.permits = some n) (h : p.lock = some p') :
    ∃ m, n = m + 1 ∧ p'.permits = some m := by
  unfold lock at h
  rw [hn] at h
  cases n with
  | zero => cases h
  | succ m => exact ⟨m, rfl, by rw [← Option.some.inj h]⟩

/-- The locked section of `acquire_item`. `new` is the object that `new T()` makes, or `none` when the
constructor throws. -/
def acquireItem (p : Pool κ) (key : κ) (new : Option ItemId) : Option ItemId × Pool κ :=
  match p.queue key with
  | [] =>
      match new with
      | some item => (some item, { p.setQueue key [] with all := p.all ++ [item] })
      | none => (none, p.setQueue key [])
  | item :: q => (some item, p.setQueue key q)

def releaseItem (p : Pool κ) (item : ItemId) (key : κ) : Pool κ :=
  p.setQueue key (p.queue key ++ [item])

theorem queue_setQueue (p : Pool κ) (key : κ) (q : List ItemId) : (p.setQueue key q).queue key = q := by
  rw [queue, setQueue, OrderedMap.find_set]
  rfl

theorem queue_setQueue_of_ne (p : Pool κ) {key key' : κ} (h : key' ≠ key) (q : List ItemId) :
    (p.setQueue key q).queue key' = p.queue key' := by
  have hne : (KeyOrder.linear κ).same key key' = false := by
    rw [← Bool.not_eq_true, KeyOrder.linear_same]
    exact Ne.symm h
  rw [queue, setQueue, OrderedMap.find_set_of_not_same _ _ hne]
  rfl

theorem queue_setQueue_same (p : Pool κ) {key : κ} (h : p.queue key = []) (key' : κ) :
    (p.setQueue key []).queue key' = p.queue key' := by
  by_cases hk : key' = key
  · rw [hk, queue_setQueue, h]
  · exact queue_setQueue_of_ne p hk []

theorem inUse_setQueue_same (p : Pool κ) {key : κ} (h : p.queue key = []) :
    (p.setQueue key []).inUse = p.inUse := by
  have hsum := OrderedMap.sum_set p.free key [] fun q => (q.length : ℤ)
  have hold : ((p.free.find key).map fun q => (q.length : ℤ)).getD 0 = 0 := by
    rw [queue] at h
    cases hf : p.free.find key with
    | none => rfl
    | some q =>
      rw [hf, Option.getD_some] at h
      simp [h]
  rw [hold, add_zero, List.length_nil, Nat.cast_zero, add_zero] at hsum
  simp only [inUse, setQueue, hsum]

/-- `acquire_item` makes an object, or the constructor throws, or it takes the first of the queue. -/
theorem acquireItem_cases (p : Pool κ) (key : κ) (new : Option ItemId) :
    (p.acquireItem key new).2.permits = p.permits ∧
      ((∃ item, new = some item ∧ p.queue key = [] ∧ (p.acquireItem key new).2.queue key = [] ∧
          (p.acquireItem key new).2.all = p.all ++ [item]) ∨
        (new = none ∧ p.queue key = [] ∧ (p.acquireItem key new).2 = p.setQueue key []) ∨
        ∃ item q, p.queue key = item :: q ∧ (p.acquireItem key new).2.queue key = q ∧
          (p.acquireItem key new).2.all = p.all) := by
  unfold acquireItem
  cases hq : p.queue key with
  | nil =>
    cases new with
    | none => exact ⟨rfl, .inr (.inl ⟨rfl, rfl, rfl⟩)⟩
    | some item => exact ⟨rfl, .inl ⟨item, rfl, rfl, queue_setQueue p key [], rfl⟩⟩
  | cons item q => exact ⟨rfl, .inr (.inr ⟨item, q, rfl, queue_setQueue p key q, rfl⟩)⟩

end Pool

/-! ## Pointers and threads -/

structure PoolPtr (κ : Type) where
  item : Option ItemId
  pool : Option PoolId
  key : κ
  deriving DecidableEq

/-- The object that a `pool_ptr` or a thread has, with its pool and its key. -/
abbrev Hold (κ : Type) := ItemId × PoolId × κ

namespace PoolPtr
variable {κ : Type}

/-- What `_pool && _item` tests. -/
def held (p : PoolPtr κ) : Option (Hold κ) :=
  match p.item, p.pool with
  | some item, some pool => some (item, pool, p.key)
  | _, _ => none

theorem held_some {p : PoolPtr κ} {item : ItemId} {pool : PoolId} {key : κ}
    (h : p.held = some (item, pool, key)) : p.pool = some pool ∧ p.key = key := by
  unfold held at h
  split at h
  next hp =>
    simp only [Option.some.injEq, Prod.mk.injEq] at h
    exact ⟨by rw [hp, h.2.1], h.2.2⟩
  next => cases h

/-- The source of a copy afterwards; its key stays. -/
def moved (p : PoolPtr κ) : PoolPtr κ := { p with item := none, pool := none }

end PoolPtr

/-- The operation on `pool_ptr`s that calls `release_item`: `p = q`, or the destructor of `p`. -/
inductive Operation where
  | assign (p q : PtrId)
  | destroy (p : PtrId)
  deriving DecidableEq

namespace Operation

def target : Operation → PtrId
  | .assign p _ => p
  | .destroy p => p

def ptrs : Operation → List PtrId
  | .assign p q => [p, q]
  | .destroy p => [p]

theorem target_mem (op : Operation) : op.target ∈ op.ptrs := by cases op <;> simp [ptrs, target]

end Operation

/-- A thread. `lockPolicy` and `lockPool` are inside `acquire_item`, before `size_policy->lock()` and
before the locked section; `acquired`: the `pool_ptr` has still to be made. `unlockPolicy` and
`pushBack` are inside `release_item`; `released`: the operation has still to be finished. -/
inductive Pc (κ : Type) where
  | idle
  | lockPolicy (pool : PoolId) (key : κ)
  | lockPool (pool : PoolId) (key : κ)
  | acquired (item : ItemId) (pool : PoolId) (key : κ)
  | unlockPolicy (item : ItemId) (pool : PoolId) (key : κ) (op : Operation)
  | pushBack (item : ItemId) (pool : PoolId) (key : κ) (op : Operation)
  | released (op : Operation)
  deriving DecidableEq

namespace Pc
variable {κ : Type}

def held : Pc κ → Option (Hold κ)
  | .acquired item pool key => some (item, pool, key)
  | .unlockPolicy item pool key _ => some (item, pool, key)
  | .pushBack item pool key _ => some (item, pool, key)
  | _ => none

def op : Pc κ → Option Operation
  | .unlockPolicy _ _ _ op => some op
  | .pushBack _ _ _ op => some op
  | .released op => some op
  | _ => none

def uses (p : PtrId) (pc : Pc κ) : Bool := pc.op.any fun op => op.ptrs.contains p

/-- The object of `p` is being released, or it was and the operation is not finished. -/
def releases (p : PtrId) (pc : Pc κ) : Bool := pc.op.any fun op => op.target == p

theorem uses_iff {p : PtrId} {pc : Pc κ} : pc.uses p = true ↔ ∃ op, pc.op = some op ∧ p ∈ op.ptrs := by
  simp [uses, Option.any_eq_true]

theorem releases_iff {p : PtrId} {pc : Pc κ} :
    pc.releases p = true ↔ ∃ op, pc.op = some op ∧ op.target = p := by
  simp [releases, Option.any_eq_true]

theorem uses_of_releases {p : PtrId} {pc : Pc κ} (h : pc.releases p = true) : pc.uses p = true := by
  obtain ⟨op, hop, rfl⟩ := releases_iff.mp h
  exact uses_iff.mpr ⟨op, hop, op.target_mem⟩

end Pc

/-! ## The system -/

structure State (κ : Type) [LinearOrder κ] where
  pools : PoolId → Pool κ
  ptrs : List (Option (PoolPtr κ))
  threads : List (Pc κ)
  created : ℕ
  handouts : List (Hold κ)

inductive Event (κ : Type) where
  | default (t : ThreadId)
  | copy (t : ThreadId) (q : PtrId)
  | acquire (t : ThreadId) (pool : PoolId) (key : κ)
  | lock (t : ThreadId)
  | acquireItem (t : ThreadId) (throws : Bool)
  | makePtr (t : ThreadId)
  | start (t : ThreadId) (op : Operation)
  | unlock (t : ThreadId)
  | releaseItem (t : ThreadId)
  | finish (t : ThreadId)

section System
variable {κ : Type} [LinearOrder κ]

namespace State

/-- Pools with these policies, `n` threads, no pointer. -/
def init (limits : PoolId → Option ℕ) (n : ℕ) : State κ :=
  ⟨fun i => .new κ (limits i), [], List.replicate n .idle, 0, []⟩

def ptr (s : State κ) (p : PtrId) : Option (PoolPtr κ) := s.ptrs[p]?.join

def busy (s : State κ) (p : PtrId) : Bool := s.threads.any (Pc.uses p)

def setThread (s : State κ) (t : ThreadId) (pc : Pc κ) : State κ :=
  { s with threads := s.threads.set t pc }

def setPool (s : State κ) (i : PoolId) (p : Pool κ) : State κ :=
  { s with pools := Function.update s.pools i p }

/-- The rest of an operation, after the release: the fields are copied and the source is nulled, or
the pointer is gone. -/
def finish (s : State κ) : Operation → Option (State κ)
  | .assign p q => (s.ptr q).map fun src =>
      { s with ptrs := (s.ptrs.set p (some src)).set q (some src.moved) }
  | .destroy p => some { s with ptrs := s.ptrs.set p none }

/-- The beginning of an operation: `release_item` is called if the target has an object. -/
def start (s : State κ) (t : ThreadId) (op : Operation) : Option (State κ) :=
  (s.ptr op.target).bind fun dst =>
    match dst.held with
    | some (item, pool, key) => some (s.setThread t (.unlockPolicy item pool key op))
    | none => s.finish op

/-- Where a thread gets by the locked section of `acquire_item`. -/
def acquireItem (s : State κ) (t : ThreadId) (pool : PoolId) (key : κ) (throws : Bool) : State κ :=
  let r := (s.pools pool).acquireItem key (if throws then none else some s.created)
  match r.1 with
  | none => (s.setPool pool r.2).setThread t .idle
  | some item =>
      { (s.setPool pool r.2).setThread t (.acquired item pool key) with
        created := if item = s.created then s.created + 1 else s.created
        handouts := s.handouts ++ [(item, pool, key)] }

end State

def step [Inhabited κ] (s : State κ) : Event κ → Option (State κ)
  | .default t =>
      match s.threads[t]? with
      | some .idle => some { s with ptrs := s.ptrs ++ [some ⟨none, none, Inhabited.default⟩] }
      | _ => none
  | .copy t q =>
      match s.threads[t]? with
      | some .idle =>
          if s.busy q then none
          else (s.ptr q).map fun src =>
            { s with ptrs := s.ptrs.set q (some src.moved) ++ [some src] }
      | _ => none
  | .acquire t pool key =>
      match s.threads[t]? with
      | some .idle => some (s.setThread t (.lockPolicy pool key))
      | _ => none
  | .lock t =>
      match s.threads[t]? with
      | some (.lockPolicy pool key) => (s.pools pool).lock.map fun p =>
          (s.setPool pool p).setThread t (.lockPool pool key)
      | _ => none
  | .acquireItem t throws =>
      match s.threads[t]? with
      | some (.lockPool pool key) => some (s.acquireItem t pool key throws)
      | _ => none
  | .makePtr t =>
      match s.threads[t]? with
      | some (.acquired item pool key) =>
          some { s.setThread t .idle with ptrs := s.ptrs ++ [some ⟨some item, some pool, key⟩] }
      | _ => none
  | .start t op =>
      match s.threads[t]? with
      | some .idle =>
          if op.ptrs.all fun p => (s.ptr p).isSome && !s.busy p then s.start t op else none
      | _ => none
  | .unlock t =>
      match s.threads[t]? with
      | some (.unlockPolicy item pool key op) =>
          some ((s.setPool pool (s.pools pool).unlock).setThread t (.pushBack item pool key op))
      | _ => none
  | .releaseItem t =>
      match s.threads[t]? with
      | some (.pushBack item pool key op) =>
          some ((s.setPool pool ((s.pools pool).releaseItem item key)).setThread t (.released op))
      | _ => none
  | .finish t =>
      match s.threads[t]? with
      | some (.released op) => (s.setThread t .idle).finish op
      | _ => none

/-! ## What a step can do -/

inductive Step [Inhabited κ] (s : State κ) : Event κ → State κ → Prop where
  | default (t : ThreadId) (ht : s.threads[t]? = some .idle) :
      Step s (.default t) { s with ptrs := s.ptrs ++ [some ⟨none, none, Inhabited.default⟩] }
  | copy (t : ThreadId) (q : PtrId) (src : PoolPtr κ) (ht : s.threads[t]? = some .idle)
      (hbusy : s.busy q = false) (hq : s.ptr q = some src) :
      Step s (.copy t q) { s with ptrs := s.ptrs.set q (some src.moved) ++ [some src] }
  | acquire (t : ThreadId) (pool : PoolId) (key : κ) (ht : s.threads[t]? = some .idle) :
      Step s (.acquire t pool key) (s.setThread t (.lockPolicy pool key))
  | lock (t : ThreadId) (pool : PoolId) (key : κ) (p : Pool κ)
      (ht : s.threads[t]? = some (.lockPolicy pool key)) (hp : (s.pools pool).lock = some p) :
      Step s (.lock t) ((s.setPool pool p).setThread t (.lockPool pool key))
  | acquireItem (t : ThreadId) (throws : Bool) (pool : PoolId) (key : κ)
      (ht : s.threads[t]? = some (.lockPool pool key)) :
      Step s (.acquireItem t throws) (s.acquireItem t pool key throws)
  | makePtr (t : ThreadId) (item : ItemId) (pool : PoolId) (key : κ)
      (ht : s.threads[t]? = some (.acquired item pool key)) :
      Step s (.makePtr t)
        { s.setThread t .idle with ptrs := s.ptrs ++ [some ⟨some item, some pool, key⟩] }
  | start (t : ThreadId) (op : Operation) (s' : State κ) (ht : s.threads[t]? = some .idle)
      (hptrs : ∀ p ∈ op.ptrs, (s.ptr p).isSome = true ∧ s.busy p = false)
      (h : s.start t op = some s') : Step s (.start t op) s'
  | unlock (t : ThreadId) (item : ItemId) (pool : PoolId) (key : κ) (op : Operation)
      (ht : s.threads[t]? = some (.unlockPolicy item pool key op)) :
      Step s (.unlock t)
        ((s.setPool pool (s.pools pool).unlock).setThread t (.pushBack item pool key op))
  | releaseItem (t : ThreadId) (item : ItemId) (pool : PoolId) (key : κ) (op : Operation)
      (ht : s.threads[t]? = some (.pushBack item pool key op)) :
      Step s (.releaseItem t)
        ((s.setPool pool ((s.pools pool).releaseItem item key)).setThread t (.released op))
  | finish (t : ThreadId) (op : Operation) (s' : State κ) (ht : s.threads[t]? = some (.released op))
      (h : (s.setThread t .idle).finish op = some s') : Step s (.finish t) s'

theorem step_cases [Inhabited κ] {s s' : State κ} {e : Event κ} (h : step s e = some s') :
    Step s e s' := by
  cases e with
  | default t =>
    simp only [step] at h
    split at h
    next ht =>
      cases h
      exact .default t ht
    next => cases h
  | copy t q =>
    simp only [step] at h
    split at h
    next ht =>
      split at h
      · cases h
      next hbusy =>
        obtain ⟨src, hsrc, rfl⟩ := Option.map_eq_some_iff.mp h
        exact .copy t q src ht (by simpa using hbusy) hsrc
    next => cases h
  | acquire t pool key =>
    simp only [step] at h
    split at h
    next ht =>
      cases h
      exact .acquire t pool key ht
    next => cases h
  | lock t =>
    simp only [step] at h
    split at h
    next pool key ht =>
      obtain ⟨p, hp, rfl⟩ := Option.map_eq_some_iff.mp h
      exact .lock t pool key p ht hp
    next => cases h
  | acquireItem t throws =>
    simp only [step] at h
    split at h
    next pool key ht =>
      cases h
      exact .acquireItem t throws pool key ht
    next => cases h
  | makePtr t =>
    simp only [step] at h
    split at h
    next item pool key ht =>
      cases h
      exact .makePtr t item pool key ht
    next => cases h
  | start t op =>
    simp only [step] at h
    split at h
    next ht =>
      split at h
      next hptrs =>
        rw [List.all_eq_true] at hptrs
        exact .start t op s' ht (fun p hp => by simpa using hptrs p hp) h
      next => cases h
    next => cases h
  | unlock t =>
    simp only [step] at h
    split at h
    next item pool key op ht =>
      cases h
      exact .unlock t item pool key op ht
    next => cases h
  | releaseItem t =>
    simp only [step] at h
    split at h
    next item pool key op ht =>
      cases h
      exact .releaseItem t item pool key op ht
    next => cases h
  | finish t =>
    simp only [step] at h
    split at h
    next op ht => exact .finish t op s' ht h
    next => cases h

/-- An operation begins with the call of `release_item`, or it is done at once. -/
theorem State.start_cases {s s' : State κ} {t : ThreadId} {op : Operation}
    (h : s.start t op = some s') : ∃ dst, s.ptr op.target = some dst ∧
      ((∃ item pool key, dst.held = some (item, pool, key) ∧
          s' = s.setThread t (.unlockPolicy item pool key op)) ∨
        dst.held = none ∧ s.finish op = some s') := by
  obtain ⟨dst, hdst, h⟩ := Option.bind_eq_some_iff.mp h
  refine ⟨dst, hdst, ?_⟩
  split at h
  next item pool key hheld =>
    cases h
    exact .inl ⟨item, pool, key, hheld, rfl⟩
  next hheld => exact .inr ⟨hheld, h⟩

/-- The rest of an operation only changes pointers. -/
theorem State.finish_frame {s s' : State κ} {op : Operation} (h : s.finish op = some s') :
    s'.pools = s.pools ∧ s'.threads = s.threads ∧ s.ptrs.length ≤ s'.ptrs.length := by
  cases op with
  | assign p q =>
    obtain ⟨src, _, rfl⟩ := Option.map_eq_some_iff.mp h
    exact ⟨rfl, rfl, by simp⟩
  | destroy p =>
    cases h
    exact ⟨rfl, rfl, by simp⟩

/-- The locked section of `acquire_item` leaves the thread with an object, or idle when the
constructor threw. -/
theorem State.acquireItem_frame (s : State κ) (t : ThreadId) (pool : PoolId) (key : κ)
    (throws : Bool) :
    (s.acquireItem t pool key throws).pools = Function.update s.pools pool
        ((s.pools pool).acquireItem key (if throws then none else some s.created)).2 ∧
      (s.acquireItem t pool key throws).ptrs = s.ptrs ∧
      ∃ pc, (s.acquireItem t pool key throws).threads = s.threads.set t pc ∧
        (pc = .idle ∨ ∃ item, pc = .acquired item pool key) := by
  unfold State.acquireItem
  simp only
  split
  · exact ⟨rfl, rfl, _, rfl, .inl rfl⟩
  next item _ => exact ⟨rfl, rfl, _, rfl, .inr ⟨item, rfl⟩⟩

end System

end Dcl.Pools
