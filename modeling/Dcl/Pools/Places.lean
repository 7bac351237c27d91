import Dcl.Foundations.Placement
import Dcl.Foundations.Slots
import Dcl.Pools.System

/-! # Where the objects of the pools are

An object is held by a `pool_ptr`, in a free queue, or in the hands of a thread. `State.contents` lists
what is at each of these places; a `pool_ptr` whose object is being released does not hold it any
more, although its fields are overwritten only after the release. `Effect` says once what a step does
to the places: it leaves them alone, transfers an object from one to another, or makes one. -/
namespace Dcl.Pools
set_option autoImplicit false

inductive Place (κ : Type) where
  | held (p : PtrId)
  | queued (pool : PoolId) (key : κ)
  | hands (t : ThreadId)
  deriving DecidableEq

section Places
variable {κ : Type} [LinearOrder κ]

namespace State

def releasing (s : State κ) (p : PtrId) : Bool := s.threads.any (Pc.releases p)

def holder (s : State κ) (p : PtrId) : Option (Hold κ) :=
  if s.releasing p then none else (s.ptr p).bind PoolPtr.held

def hand (s : State κ) (t : ThreadId) : Option (Hold κ) := s.threads[t]?.bind Pc.held

/-- What is at a place, with its pool and its key. -/
def contents (s : State κ) : Place κ → List (Hold κ)
  | .held p => (s.holder p).toList
  | .queued pool key => ((s.pools pool).queue key).map fun item => (item, pool, key)
  | .hands t => (s.hand t).toList

end State

/-! ## Pointers that are in use -/

/-- An operation uses pointers that exist, and no two threads use the same one. -/
structure Orderly (s : State κ) : Prop where
  apart : ∀ (i j : ℕ) pc pc' p, s.threads[i]? = some pc → s.threads[j]? = some pc' →
    pc.uses p = true → pc'.uses p = true → i = j
  known : ∀ (i : ℕ) pc p, s.threads[i]? = some pc → pc.uses p = true → p < s.ptrs.length

theorem orderly_init (limits : PoolId → Option ℕ) (n : ℕ) :
    Orderly (State.init limits n : State κ) := by
  have hidle : ∀ (i : ℕ) pc, (State.init limits n : State κ).threads[i]? = some pc → pc = .idle := by
    intro i pc h
    exact (List.mem_replicate.mp (List.mem_of_getElem? h)).2
  refine ⟨fun i j pc pc' p hi _ hp => ?_, fun i pc p hi hp => ?_⟩
  · simp [hidle i pc hi, Pc.uses, Pc.op] at hp
  · simp [hidle i pc hi, Pc.uses, Pc.op] at hp

theorem Orderly.setThread {s s' : State κ} (hs : Orderly s) {t : ThreadId} {pc₀ pc : Pc κ}
    (ht : s.threads[t]? = some pc₀) (hpc : ∀ p, pc.uses p = true → pc₀.uses p = true)
    (hthreads : s'.threads = s.threads.set t pc) (hptrs : s.ptrs.length ≤ s'.ptrs.length) :
    Orderly s' := by
  -- every thread of `s'` uses what the thread of the same number uses in `s`
  have hold : ∀ (i : ℕ) c p, s'.threads[i]? = some c → c.uses p = true →
      ∃ c', s.threads[i]? = some c' ∧ c'.uses p = true := by
    intro i c p hi hc
    rw [hthreads] at hi
    obtain ⟨rfl, rfl⟩ | ⟨_, hi⟩ := Slots.getElem?_set_cases hi
    · exact ⟨pc₀, ht, hpc p hc⟩
    · exact ⟨c, hi, hc⟩
  refine ⟨fun i j c c' p hi hj hc hc' => ?_, fun i c p hi hc => ?_⟩
  · obtain ⟨d, hd, hdp⟩ := hold i c p hi hc
    obtain ⟨d', hd', hdp'⟩ := hold j c' p hj hc'
    exact hs.apart i j d d' p hd hd' hdp hdp'
  · obtain ⟨d, hd, hdp⟩ := hold i c p hi hc
    exact Nat.lt_of_lt_of_le (hs.known i d p hd hdp) hptrs

theorem Orderly.of_threads {s s' : State κ} (hs : Orderly s) (hthreads : s'.threads = s.threads)
    (hptrs : s.ptrs.length ≤ s'.ptrs.length) : Orderly s' :=
  ⟨fun i j c c' p hi hj => hs.apart i j c c' p (hthreads ▸ hi) (hthreads ▸ hj),
    fun i c p hi hc => Nat.lt_of_lt_of_le (hs.known i c p (hthreads ▸ hi) hc) hptrs⟩

theorem State.not_releasing {s : State κ} {p : PtrId} (h : s.busy p = false) :
    s.releasing p = false := by
  rw [← Bool.not_eq_true] at h ⊢
  intro hr
  obtain ⟨i, pc, hi, hpc⟩ := (Slots.any_iff _ _).mp hr
  exact h ((Slots.any_iff _ _).mpr ⟨i, pc, hi, Pc.uses_of_releases hpc⟩)

/-- A pointer that does not exist yet is used by no thread. -/
theorem Orderly.not_releasing_length {s : State κ} (hs : Orderly s) :
    s.releasing s.ptrs.length = false := by
  rw [← Bool.not_eq_true]
  intro hr
  obtain ⟨i, c, hi, hc⟩ := (Slots.any_iff _ _).mp hr
  exact Nat.lt_irrefl _ (hs.known i c _ hi (Pc.uses_of_releases hc))

/-! ## What the changes of a state do to the places -/

section Changes
variable {s s' : State κ} {t : ThreadId} {pc₀ pc : Pc κ}

theorem hand_set (ht : s.threads[t]? = some pc₀) (h : s'.threads = s.threads.set t pc) (i : ThreadId) :
    s'.hand i = if i = t then pc.held else s.hand i := by
  rw [State.hand, h, Slots.getElem?_set_of_some ht]
  split <;> rfl

theorem hand_at (ht : s.threads[t]? = some pc₀) : s.hand t = pc₀.held := by
  rw [State.hand, ht]
  rfl

theorem releasing_set (ht : s.threads[t]? = some pc₀) (h : s'.threads = s.threads.set t pc)
    (hop : pc.op = pc₀.op) (p : PtrId) : s'.releasing p = s.releasing p := by
  rw [State.releasing, h]
  exact Slots.any_set_same ht (by simp only [Pc.releases, hop])

theorem releasing_begin {op : Operation} (ht : s.threads[t]? = some pc₀)
    (h : s'.threads = s.threads.set t pc) (hop₀ : pc₀.op = none) (hop : pc.op = some op) (p : PtrId) :
    s'.releasing p = true ↔ s.releasing p = true ∨ p = op.target := by
  rw [State.releasing, h, Slots.any_set_iff ht, Pc.releases_iff, hop]
  constructor
  · rintro (⟨op', hop', rfl⟩ | ⟨i, c, _, hi, hc⟩)
    · rw [Option.some.injEq] at hop'
      exact .inr (by rw [hop'])
    · exact .inl ((Slots.any_iff _ _).mpr ⟨i, c, hi, hc⟩)
  · rintro (hr | rfl)
    · obtain ⟨i, c, hi, hc⟩ := (Slots.any_iff _ _).mp hr
      refine .inr ⟨i, c, ?_, hi, hc⟩
      rintro rfl
      rw [ht, Option.some.injEq] at hi
      simp [← hi, Pc.releases, hop₀] at hc
    · exact .inl ⟨op, rfl, rfl⟩

theorem releasing_end {op : Operation} (hs : Orderly s) (ht : s.threads[t]? = some pc₀)
    (h : s'.threads = s.threads.set t pc) (hop₀ : pc₀.op = some op) (hop : pc.op = none) (p : PtrId) :
    s'.releasing p = true ↔ s.releasing p = true ∧ p ≠ op.target := by
  rw [State.releasing, h, Slots.any_set_iff ht]
  constructor
  · rintro (hr | ⟨i, c, hit, hi, hc⟩)
    · simp [Pc.releases, hop] at hr
    · refine ⟨(Slots.any_iff _ _).mpr ⟨i, c, hi, hc⟩, ?_⟩
      rintro rfl
      exact hit (hs.apart i t c pc₀ _ hi ht (Pc.uses_of_releases hc)
        (Pc.uses_iff.mpr ⟨op, hop₀, op.target_mem⟩))
  · rintro ⟨hr, hne⟩
    obtain ⟨i, c, hi, hc⟩ := (Slots.any_iff _ _).mp hr
    refine .inr ⟨i, c, ?_, hi, hc⟩
    rintro rfl
    rw [ht, Option.some.injEq] at hi
    obtain ⟨op', hop', rfl⟩ := Pc.releases_iff.mp (hi ▸ hc)
    rw [hop₀, Option.some.injEq] at hop'
    exact hne (by rw [hop'])

theorem holder_congr {p : PtrId} (hr : s'.releasing p = s.releasing p) (hp : s'.ptr p = s.ptr p) :
    s'.holder p = s.holder p := by rw [State.holder, State.holder, hr, hp]

theorem ptr_append {o : Option (PoolPtr κ)} (h : s'.ptrs = s.ptrs ++ [o]) (p : ℕ) :
    s'.ptr p = if p = s.ptrs.length then o else s.ptr p := by
  rw [State.ptr, h, State.ptr]
  by_cases hp : p = s.ptrs.length
  · rw [if_pos hp, hp, List.getElem?_concat_length]
    rfl
  · rw [if_neg hp]
    by_cases hlt : p < s.ptrs.length
    · rw [List.getElem?_append_left hlt]
    · rw [List.getElem?_eq_none (by simp; omega), List.getElem?_eq_none (by omega)]

theorem ptr_set {o : Option (PoolPtr κ)} {q : PtrId} (hq : q < s.ptrs.length)
    (h : s'.ptrs = s.ptrs.set q o) (p : PtrId) : s'.ptr p = if p = q then o else s.ptr p := by
  rw [State.ptr, h, Slots.getElem?_set_of_some (List.getElem?_eq_getElem hq), State.ptr]
  split <;> rfl

theorem ptr_length : s.ptr s.ptrs.length = none := by
  rw [State.ptr, List.getElem?_eq_none (Nat.le_refl _)]
  rfl

theorem ptr_lt {p : PtrId} {src : PoolPtr κ} (h : s.ptr p = some src) : p < s.ptrs.length := by
  rw [State.ptr, Option.join_eq_some_iff] at h
  exact (List.getElem?_eq_some_iff.mp h).1

theorem holder_of_ptr_none {p : PtrId} (h : (s.ptr p).bind PoolPtr.held = none) :
    s.holder p = none := by
  rw [State.holder, h]
  split <;> rfl

theorem holder_of_not_releasing {p : PtrId} {src : PoolPtr κ} (hr : s.releasing p = false)
    (h : s.ptr p = some src) : s.holder p = src.held := by
  rw [State.holder, hr, h]
  rfl

end Changes

/-! ## What a step can do -/

/-- What a step does to the places, to `_all`, and to the record of what was handed out. -/
inductive Effect (s s' : State κ) : Prop where
  | still (contents : ∀ pl, s'.contents pl = s.contents pl)
      (all : ∀ i, (s'.pools i).all = (s.pools i).all) (created : s'.created = s.created)
      (handouts : s'.handouts = s.handouts)
  | move (a b : Place κ) (h : Hold κ)
      (transfer : Placement.Transfer s.contents s'.contents a b h)
      (all : ∀ i, (s'.pools i).all = (s.pools i).all) (created : s'.created = s.created)
      (handouts : s'.handouts = s.handouts ∨ s'.handouts = s.handouts ++ [h])
  | make (b : Place κ) (pool : PoolId) (key : κ)
      (arrival : Placement.Arrival s.contents s'.contents b (s.created, pool, key))
      (all : ∀ i, (s'.pools i).all =
        if i = pool then (s.pools i).all ++ [s.created] else (s.pools i).all)
      (created : s'.created = s.created + 1)
      (handouts : s'.handouts = s.handouts ++ [(s.created, pool, key)])

section Effects
variable {s s' : State κ} {t : ThreadId} {pc₀ pc : Pc κ}

structure SamePools (s s' : State κ) : Prop where
  queue : ∀ i key, (s'.pools i).queue key = (s.pools i).queue key
  all : ∀ i, (s'.pools i).all = (s.pools i).all

theorem SamePools.of_eq (h : s'.pools = s.pools) : SamePools s s' :=
  ⟨fun i key => by rw [h], fun i => by rw [h]⟩

theorem SamePools.of_update {i : PoolId} {p : Pool κ} (h : s'.pools = Function.update s.pools i p)
    (hq : ∀ key, p.queue key = (s.pools i).queue key) (ha : p.all = (s.pools i).all) :
    SamePools s s' := by
  refine ⟨fun j key => ?_, fun j => ?_⟩
  · rw [h]
    by_cases hj : j = i
    · rw [hj, Function.update_self, hq]
    · rw [Function.update_of_ne hj]
  · rw [h]
    by_cases hj : j = i
    · rw [hj, Function.update_self, ha]
    · rw [Function.update_of_ne hj]

theorem effect_still (hheld : ∀ p, s'.holder p = s.holder p) (hpools : SamePools s s')
    (hhand : ∀ i, s'.hand i = s.hand i) (hcreated : s'.created = s.created)
    (hhandouts : s'.handouts = s.handouts) : Effect s s' := by
  refine .still (fun pl => ?_) hpools.all hcreated hhandouts
  cases pl with
  | held p => rw [State.contents, State.contents, hheld]
  | queued i key => rw [State.contents, State.contents, hpools.queue]
  | hands i => rw [State.contents, State.contents, hhand]

theorem holder_thread (ht : s.threads[t]? = some pc₀) (hthreads : s'.threads = s.threads.set t pc)
    (hop : pc.op = pc₀.op) (hptrs : s'.ptrs = s.ptrs) (p : PtrId) : s'.holder p = s.holder p :=
  holder_congr (releasing_set ht hthreads hop p) (by rw [State.ptr, hptrs]; rfl)

theorem contents_hands (ht : s.threads[t]? = some pc₀) (hthreads : s'.threads = s.threads.set t pc)
    (i : ThreadId) :
    s'.contents (.hands i) = if i = t then pc.held.toList else s.contents (.hands i) := by
  rw [State.contents, hand_set ht hthreads i]
  split <;> rfl

theorem effect_thread (ht : s.threads[t]? = some pc₀) (hthreads : s'.threads = s.threads.set t pc)
    (hheld : pc.held = pc₀.held) (hop : pc.op = pc₀.op) (hptrs : s'.ptrs = s.ptrs)
    (hpools : SamePools s s') (hcreated : s'.created = s.created)
    (hhandouts : s'.handouts = s.handouts) : Effect s s' := by
  refine effect_still (fun p => ?_) hpools (fun i => ?_) hcreated hhandouts
  · exact holder_thread ht hthreads hop hptrs p
  · rw [hand_set ht hthreads i]
    split
    next hi => rw [hheld, hi, hand_at ht]
    next => rfl

theorem transfer_held {p q : PtrId} {h : Hold κ} (hq : s.holder q = some h)
    (hq' : s'.holder q = none) (hp : s.holder p = none) (hp' : s'.holder p = some h)
    (hrest : ∀ x, x ≠ q → x ≠ p → s'.holder x = s.holder x) (hpools : SamePools s s')
    (hhand : ∀ i, s'.hand i = s.hand i) :
    Placement.Transfer s.contents s'.contents (.held q) (.held p) h := by
  refine ⟨?_, ?_, fun pl hq hp => ?_⟩
  · simp [State.contents, hq, hq']
  · simp [State.contents, hp, hp']
  · cases pl with
    | held x => rw [State.contents, State.contents, hrest x (by simpa using hq) (by simpa using hp)]
    | queued i key => rw [State.contents, State.contents, hpools.queue]
    | hands i => rw [State.contents, State.contents, hhand]

theorem effect_copy {q : PtrId} {src : PoolPtr κ} (hs : Orderly s) (hbusy : s.busy q = false)
    (hq : s.ptr q = some src) :
    Effect s { s with ptrs := s.ptrs.set q (some src.moved) ++ [some src] } := by
  let s₁ : State κ := { s with ptrs := s.ptrs.set q (some src.moved) }
  let s' : State κ := { s with ptrs := s.ptrs.set q (some src.moved) ++ [some src] }
  have hlt := ptr_lt hq
  have hlen : s₁.ptrs.length = s.ptrs.length := List.length_set
  have hptr : ∀ p, s'.ptr p = if p = s.ptrs.length then some src else
      if p = q then some src.moved else s.ptr p := by
    intro p
    have happ : s'.ptrs = s₁.ptrs ++ [some src] := rfl
    have hset : s₁.ptrs = s.ptrs.set q (some src.moved) := rfl
    rw [ptr_append happ p, hlen, ptr_set hlt hset p]
  have hrel := State.not_releasing hbusy
  have hne : q ≠ s.ptrs.length := Nat.ne_of_lt hlt
  have hq' : s'.holder q = none := by
    refine holder_of_ptr_none ?_
    rw [hptr q, if_neg hne, if_pos rfl]
    rfl
  have hn : s.holder s.ptrs.length = none := holder_of_ptr_none (by rw [ptr_length]; rfl)
  have hn' : s'.holder s.ptrs.length = src.held :=
    holder_of_not_releasing hs.not_releasing_length (by rw [hptr, if_pos rfl])
  have hrest : ∀ x, x ≠ q → x ≠ s.ptrs.length → s'.holder x = s.holder x := fun x hxq hxn =>
    holder_congr rfl (by rw [hptr, if_neg hxn, if_neg hxq])
  have hhold := holder_of_not_releasing hrel hq
  show Effect s s'
  cases hheld : src.held with
  | none =>
    refine effect_still (fun x => ?_) (.of_eq rfl) (fun i => rfl) rfl rfl
    by_cases hxq : x = q
    · rw [hxq, hq', hhold, hheld]
    · by_cases hxn : x = s.ptrs.length
      · rw [hxn, hn, hn', hheld]
      · exact hrest x hxq hxn
  | some h =>
    exact .move _ _ h (transfer_held (hhold.trans hheld) hq' hn (hn'.trans hheld) hrest
      (.of_eq rfl) fun i => rfl) (fun i => rfl) rfl (.inl rfl)

/-- The rest of an operation whose target holds nothing any more. -/
theorem effect_finish {s₁ : State κ} {op : Operation} (h : s₁.finish op = some s')
    (hpools : s₁.pools = s.pools) (hptrs : s₁.ptrs = s.ptrs) (hcreated : s₁.created = s.created)
    (hhandouts : s₁.handouts = s.handouts) (hhand : ∀ i, s₁.hand i = s.hand i)
    (hfree : ∀ p ∈ op.ptrs, s₁.releasing p = false)
    (hrel : ∀ p, p ≠ op.target → s₁.releasing p = s.releasing p)
    (hlt : op.target < s.ptrs.length) (hnone : s.holder op.target = none) : Effect s s' := by
  have hptr₁ : ∀ p, s₁.ptr p = s.ptr p := fun p => by rw [State.ptr, hptrs]; rfl
  rw [← hptrs] at hlt
  cases op with
  | destroy p =>
    simp only [Operation.target] at hrel hlt hnone
    rw [State.finish, Option.some.injEq] at h
    subst h
    refine effect_still (fun x => ?_) (.of_eq hpools) hhand hcreated hhandouts
    have hptr := ptr_set hlt
      (rfl : ({ s₁ with ptrs := s₁.ptrs.set p none } : State κ).ptrs = s₁.ptrs.set p none) x
    by_cases hx : x = p
    · rw [if_pos hx] at hptr
      rw [holder_of_ptr_none (by rw [hptr]; rfl), hx]
      exact hnone.symm
    · rw [if_neg hx] at hptr
      exact holder_congr (hrel x hx) (hptr.trans (hptr₁ x))
  | assign p q =>
    simp only [Operation.target] at hrel hlt hnone
    obtain ⟨src, hsrc, rfl⟩ := Option.map_eq_some_iff.mp h
    let s₂ : State κ := { s₁ with ptrs := s₁.ptrs.set p (some src) }
    let s₃ : State κ := { s₁ with ptrs := (s₁.ptrs.set p (some src)).set q (some src.moved) }
    show Effect s s₃
    have hlen : s₂.ptrs.length = s₁.ptrs.length := List.length_set
    have hptr : ∀ x, s₃.ptr x = if x = q then some src.moved else
        if x = p then some src else s.ptr x := by
      intro x
      have hset₂ : s₂.ptrs = s₁.ptrs.set p (some src) := rfl
      have hset₃ : s₃.ptrs = s₂.ptrs.set q (some src.moved) := rfl
      rw [ptr_set (hlen ▸ ptr_lt hsrc) hset₃ x, ptr_set hlt hset₂ x, hptr₁ x]
    have hq' : s₃.holder q = none := holder_of_ptr_none (by rw [hptr, if_pos rfl]; rfl)
    have hrest : ∀ x, x ≠ q → x ≠ p → s₃.holder x = s.holder x := fun x hxq hxp =>
      holder_congr (hrel x hxp) (by rw [hptr, if_neg hxq, if_neg hxp])
    by_cases hqp : q = p
    · -- self-assignment: the pointer is nulled
      subst hqp
      refine effect_still (fun x => ?_) (.of_eq hpools) hhand hcreated hhandouts
      by_cases hx : x = q
      · rw [hx, hq']
        exact hnone.symm
      · exact hrest x hx hx
    · have hp' : s₃.holder p = src.held :=
        holder_of_not_releasing (hfree p (by simp [Operation.ptrs])) (by
          rw [hptr, if_neg (Ne.symm hqp), if_pos rfl])
      have hq : s.holder q = src.held :=
        holder_of_not_releasing ((hrel q hqp).symm.trans (hfree q (by simp [Operation.ptrs])))
          ((hptr₁ q).symm.trans hsrc)
      cases hheld : src.held with
      | none =>
        refine effect_still (fun x => ?_) (.of_eq hpools) hhand hcreated hhandouts
        by_cases hxq : x = q
        · rw [hxq, hq', hq, hheld]
        · by_cases hxp : x = p
          · rw [hxp, hp', hheld]
            exact hnone.symm
          · exact hrest x hxq hxp
      | some e =>
        exact .move _ _ e (transfer_held (hq.trans hheld) hq' hnone (hp'.trans hheld) hrest
          (.of_eq hpools) hhand) (fun i => by rw [← hpools]) hcreated (.inl hhandouts)

theorem effect_start {op : Operation} (ht : s.threads[t]? = some .idle)
    (hfree : ∀ p ∈ op.ptrs, s.busy p = false) (h : s.start t op = some s') : Effect s s' := by
  obtain ⟨dst, hdst, hcases⟩ := State.start_cases h
  have hrel : ∀ p ∈ op.ptrs, s.releasing p = false := fun p hp => State.not_releasing (hfree p hp)
  have hhold := holder_of_not_releasing (hrel _ op.target_mem) hdst
  obtain ⟨item, pool, key, hheld, rfl⟩ | ⟨hheld, h⟩ := hcases
  · have hset : (s.setThread t (.unlockPolicy item pool key op)).threads =
        s.threads.set t (.unlockPolicy item pool key op) := rfl
    have hbegin := releasing_begin ht hset rfl rfl
    refine .move (.held op.target) (.hands t) (item, pool, key) ⟨?_, ?_, fun pl hp hq => ?_⟩
      (fun i => rfl) rfl (.inl rfl)
    · have hnone : (s.setThread t (.unlockPolicy item pool key op)).holder op.target = none := by
        rw [State.holder, (hbegin _).mpr (.inr rfl)]
        rfl
      simp [State.contents, hhold, hheld, hnone]
    · simp [State.contents, hand_set ht hset, hand_at ht, Pc.held]
    · cases pl with
      | held x =>
        have hx : x ≠ op.target := by simpa using hp
        have hsame : (s.setThread t (.unlockPolicy item pool key op)).releasing x =
            s.releasing x := by
          rw [Bool.eq_iff_iff, hbegin x]
          exact or_iff_left hx
        rw [State.contents, State.contents, holder_congr hsame rfl]
      | queued i k => rfl
      | hands i =>
        have hi : i ≠ t := by simpa using hq
        rw [State.contents, State.contents, hand_set ht hset, if_neg hi]
  · exact effect_finish h rfl rfl rfl rfl (fun i => rfl) hrel (fun p _ => rfl) (ptr_lt hdst)
      (hhold.trans hheld)

theorem effect_make {pool : PoolId} {key : κ} (ht : s.threads[t]? = some pc₀)
    (hheld : pc₀.held = none) (hop : pc₀.op = none)
    (hthreads : s'.threads = s.threads.set t (.acquired s.created pool key))
    (hptrs : s'.ptrs = s.ptrs) {p : Pool κ} (hpools : s'.pools = Function.update s.pools pool p)
    (hqueue : ∀ k, p.queue k = (s.pools pool).queue k)
    (hall : p.all = (s.pools pool).all ++ [s.created]) (hcreated : s'.created = s.created + 1)
    (hhandouts : s'.handouts = s.handouts ++ [(s.created, pool, key)]) : Effect s s' := by
  refine .make (.hands t) pool key ⟨?_, fun pl hpl => ?_⟩ (fun i => ?_) hcreated hhandouts
  · rw [contents_hands ht hthreads, if_pos rfl, State.contents, hand_at ht, hheld]
    rfl
  · cases pl with
    | held p =>
      rw [State.contents, State.contents, holder_thread ht hthreads (by rw [hop]; rfl) hptrs p]
    | queued i k =>
      rw [State.contents, State.contents, hpools]
      by_cases hi : i = pool
      · rw [hi, Function.update_self, hqueue]
      · rw [Function.update_of_ne hi]
    | hands i => rw [contents_hands ht hthreads, if_neg (by simpa using hpl)]
  · rw [hpools]
    by_cases hi : i = pool
    · rw [hi, Function.update_self, hall, if_pos rfl]
    · rw [Function.update_of_ne hi, if_neg hi]

theorem contents_queued {pool : PoolId} {key : κ} {q : List ItemId}
    (hpools : s'.pools = Function.update s.pools pool ((s.pools pool).setQueue key q)) (i : PoolId)
    (k : κ) : s'.contents (.queued i k) =
      if i = pool ∧ k = key then q.map fun item => (item, pool, key) else s.contents (.queued i k) := by
  rw [State.contents, State.contents, hpools]
  by_cases hi : i = pool
  · subst hi
    rw [Function.update_self]
    by_cases hk : k = key
    · rw [if_pos ⟨rfl, hk⟩, hk, Pool.queue_setQueue]
    · rw [if_neg fun h => hk h.2, Pool.queue_setQueue_of_ne _ hk]
  · rw [if_neg fun h => hi h.1, Function.update_of_ne hi]

/-- A thread takes an object from a queue, or it puts one back. -/
theorem contents_rest {pool : PoolId} {key : κ} {q : List ItemId} (ht : s.threads[t]? = some pc₀)
    (hthreads : s'.threads = s.threads.set t pc) (hop : pc.op = pc₀.op) (hptrs : s'.ptrs = s.ptrs)
    (hpools : s'.pools = Function.update s.pools pool ((s.pools pool).setQueue key q)) {pl : Place κ}
    (hqueued : pl ≠ .queued pool key) (hhands : pl ≠ .hands t) : s'.contents pl = s.contents pl := by
  cases pl with
  | held p => rw [State.contents, State.contents, holder_thread ht hthreads hop hptrs p]
  | queued i k =>
    rw [contents_queued hpools, if_neg]
    rintro ⟨rfl, rfl⟩
    exact hqueued rfl
  | hands i => rw [contents_hands ht hthreads, if_neg (by simpa using hhands)]

theorem setPool_all {pool : PoolId} {key : κ} {q : List ItemId}
    (hpools : s'.pools = Function.update s.pools pool ((s.pools pool).setQueue key q)) (i : PoolId) :
    (s'.pools i).all = (s.pools i).all := by
  rw [hpools]
  by_cases hi : i = pool
  · rw [hi, Function.update_self]
    rfl
  · rw [Function.update_of_ne hi]

theorem effect_pop {item : ItemId} {pool : PoolId} {key : κ} {q : List ItemId}
    (ht : s.threads[t]? = some pc₀) (hheld : pc₀.held = none) (hop : pc₀.op = none)
    (hq : (s.pools pool).queue key = item :: q)
    (hthreads : s'.threads = s.threads.set t (.acquired item pool key)) (hptrs : s'.ptrs = s.ptrs)
    (hpools : s'.pools = Function.update s.pools pool ((s.pools pool).setQueue key q))
    (hcreated : s'.created = s.created)
    (hhandouts : s'.handouts = s.handouts ++ [(item, pool, key)]) : Effect s s' := by
  refine .move (.queued pool key) (.hands t) (item, pool, key) ⟨?_, ?_, fun pl hpl hpl' => ?_⟩
    (setPool_all hpools) hcreated (.inr hhandouts)
  · rw [contents_queued hpools, if_pos ⟨rfl, rfl⟩, State.contents, hq]
    rfl
  · rw [contents_hands ht hthreads, if_pos rfl, State.contents, hand_at ht, hheld]
    rfl
  · exact contents_rest ht hthreads (by rw [hop]; rfl) hptrs hpools hpl hpl'

theorem effect_push {item : ItemId} {pool : PoolId} {key : κ} (ht : s.threads[t]? = some pc₀)
    (hheld₀ : pc₀.held = some (item, pool, key)) (hthreads : s'.threads = s.threads.set t pc)
    (hheld : pc.held = none) (hop : pc.op = pc₀.op) (hptrs : s'.ptrs = s.ptrs)
    (hpools : s'.pools = Function.update s.pools pool ((s.pools pool).releaseItem item key))
    (hcreated : s'.created = s.created) (hhandouts : s'.handouts = s.handouts) : Effect s s' := by
  refine .move (.hands t) (.queued pool key) (item, pool, key) ⟨?_, ?_, fun pl hpl hpl' => ?_⟩
    (setPool_all hpools) hcreated (.inl hhandouts)
  · rw [contents_hands ht hthreads, if_pos rfl, State.contents, hand_at ht, hheld, hheld₀]
    rfl
  · rw [contents_queued hpools, if_pos ⟨rfl, rfl⟩, State.contents, List.map_append]
    rfl
  · exact contents_rest ht hthreads hop hptrs hpools hpl' hpl

theorem effect_acquireItem {pool : PoolId} {key : κ} {throws : Bool}
    (hfresh : ∀ pl l, (s.created, l) ∉ s.contents pl)
    (ht : s.threads[t]? = some (.lockPool pool key)) : Effect s (s.acquireItem t pool key throws) := by
  unfold State.acquireItem Pool.acquireItem
  cases hq : (s.pools pool).queue key with
  | nil =>
    have hqueue : ∀ k, ((s.pools pool).setQueue key []).queue k = (s.pools pool).queue k := by
      intro k
      by_cases hk : k = key
      · rw [hk, Pool.queue_setQueue, hq]
      · exact Pool.queue_setQueue_of_ne _ hk _
    cases throws with
    | true => exact effect_thread ht rfl rfl rfl rfl (.of_update rfl hqueue rfl) rfl rfl
    | false =>
      exact effect_make ht rfl rfl rfl rfl rfl hqueue rfl (if_pos rfl) rfl
  | cons item q =>
    have hmem : (item, pool, key) ∈ s.contents (.queued pool key) := by simp [State.contents, hq]
    have hne : item ≠ s.created := by
      rintro rfl
      exact hfresh _ _ hmem
    exact effect_pop ht rfl rfl hq rfl rfl rfl (if_neg hne) rfl

theorem effect_makePtr {item : ItemId} {pool : PoolId} {key : κ} (hs : Orderly s)
    (ht : s.threads[t]? = some (.acquired item pool key)) :
    Effect s { s.setThread t .idle with ptrs := s.ptrs ++ [some ⟨some item, some pool, key⟩] } := by
  let s' : State κ :=
    { s.setThread t .idle with ptrs := s.ptrs ++ [some ⟨some item, some pool, key⟩] }
  have hthreads : s'.threads = s.threads.set t .idle := rfl
  show Effect s s'
  have hrel : ∀ p, s'.releasing p = s.releasing p := releasing_set ht hthreads rfl
  have hptr : ∀ p, s'.ptr p =
      if p = s.ptrs.length then some ⟨some item, some pool, key⟩ else s.ptr p :=
    ptr_append rfl
  refine .move (.hands t) (.held s.ptrs.length) (item, pool, key) ⟨?_, ?_, fun pl hh hp => ?_⟩
    (fun i => rfl) rfl (.inl rfl)
  · rw [contents_hands ht hthreads, if_pos rfl, State.contents, hand_at ht]
    rfl
  · have hn : s.holder s.ptrs.length = none := holder_of_ptr_none (by rw [ptr_length]; rfl)
    have hn' : s'.holder s.ptrs.length = some (item, pool, key) := by
      rw [holder_of_not_releasing ((hrel _).trans hs.not_releasing_length) (by rw [hptr, if_pos rfl])]
      rfl
    rw [State.contents, State.contents, hn, hn']
    rfl
  · cases pl with
    | held p =>
      have hne : p ≠ s.ptrs.length := by simpa using hp
      rw [State.contents, State.contents, holder_congr (hrel p) (by rw [hptr, if_neg hne])]
    | queued i k => rfl
    | hands i => rw [contents_hands ht hthreads, if_neg (by simpa using hh)]

theorem effect_default {key : κ} :
    Effect s { s with ptrs := s.ptrs ++ [some ⟨none, none, key⟩] } := by
  let s' : State κ := { s with ptrs := s.ptrs ++ [some ⟨none, none, key⟩] }
  have hptr : ∀ p, s'.ptr p = if p = s.ptrs.length then some ⟨none, none, key⟩ else s.ptr p :=
    ptr_append rfl
  show Effect s s'
  refine effect_still (fun p => ?_) (.of_eq rfl) (fun i => rfl) rfl rfl
  by_cases hp : p = s.ptrs.length
  · have hn : s.holder s.ptrs.length = none := holder_of_ptr_none (by rw [ptr_length]; rfl)
    have hn' : s'.holder s.ptrs.length = none := holder_of_ptr_none (by rw [hptr, if_pos rfl]; rfl)
    rw [hp, hn, hn']
  · exact holder_congr rfl (by rw [hptr, if_neg hp])

theorem effect_end {op : Operation} (hs : Orderly s) (ht : s.threads[t]? = some (.released op))
    (h : (s.setThread t .idle).finish op = some s') : Effect s s' := by
  have hthreads : (s.setThread t .idle).threads = s.threads.set t .idle := rfl
  have hend := releasing_end hs ht hthreads rfl rfl
  have htarget : s.releasing op.target = true :=
    (Slots.any_iff _ _).mpr ⟨t, _, ht, Pc.releases_iff.mpr ⟨op, rfl, rfl⟩⟩
  -- no other thread uses the pointers of the operation
  have hfree : ∀ p ∈ op.ptrs, (s.setThread t .idle).releasing p = false := by
    intro p hp
    rw [← Bool.not_eq_true]
    intro hr
    rw [State.releasing, hthreads, Slots.any_set_iff ht] at hr
    obtain hr | ⟨i, c, hit, hi, hc⟩ := hr
    · simp [Pc.releases, Pc.op] at hr
    · exact hit (hs.apart i t c _ p hi ht (Pc.uses_of_releases hc) (Pc.uses_iff.mpr ⟨op, rfl, hp⟩))
  refine effect_finish h rfl rfl rfl rfl (fun i => ?_) hfree (fun p hp => ?_)
    (hs.known t _ _ ht (Pc.uses_iff.mpr ⟨op, rfl, op.target_mem⟩)) ?_
  · rw [hand_set ht hthreads]
    split
    next hi => rw [hi, hand_at ht]; rfl
    next => rfl
  · rw [Bool.eq_iff_iff, hend p]
    exact and_iff_left hp
  · rw [State.holder, htarget]
    rfl

theorem step_effect [Inhabited κ] {e : Event κ} (hs : Orderly s)
    (hfresh : ∀ pl l, (s.created, l) ∉ s.contents pl) (h : step s e = some s') : Effect s s' := by
  cases step_cases h with
  | default t ht => exact effect_default
  | copy t q src ht hbusy hq => exact effect_copy hs hbusy hq
  | acquire t pool key ht => exact effect_thread ht rfl rfl rfl rfl (.of_eq rfl) rfl rfl
  | lock t pool key p ht hp =>
    obtain ⟨hfree, hall⟩ := Pool.lock_frame hp
    exact effect_thread ht rfl rfl rfl rfl
      (.of_update rfl (fun k => by rw [Pool.queue, hfree]; rfl) hall) rfl rfl
  | acquireItem t throws pool key ht => exact effect_acquireItem hfresh ht
  | makePtr t item pool key ht => exact effect_makePtr hs ht
  | start t op _ ht hptrs h => exact effect_start ht (fun p hp => (hptrs p hp).2) h
  | unlock t item pool key op ht =>
    exact effect_thread ht rfl rfl rfl rfl (.of_update rfl (fun k => rfl) rfl) rfl rfl
  | releaseItem t item pool key op ht => exact effect_push ht rfl rfl rfl rfl rfl rfl rfl rfl
  | finish t op _ ht h => exact effect_end hs ht h

end Effects

end Places

end Dcl.Pools
