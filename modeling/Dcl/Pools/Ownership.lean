import Dcl.Pools.Places
import Mathlib.Data.String.Basic

/-! # Who owns the objects of the pools

In every reachable state each object of `_all` is at exactly one place, held by one `pool_ptr`, once in
one free queue, or in the hands of one thread, and it was handed out under one key only. Both hold for
any number of pools, threads and pointers, also when constructors throw and when pointers of several
pools are assigned to each other. -/
namespace Dcl.Pools
set_option autoImplicit false

section Ownership
variable {κ : Type} [LinearOrder κ]

/-! ## Pointers in use -/

theorem Orderly.begin {s s' : State κ} (hs : Orderly s) {t : ThreadId} {pc₀ pc : Pc κ} {op : Operation}
    (ht : s.threads[t]? = some pc₀) (hop : pc.op = some op)
    (hthreads : s'.threads = s.threads.set t pc) (hptrs : s'.ptrs = s.ptrs)
    (hfree : ∀ p ∈ op.ptrs, s.busy p = false) (hknown : ∀ p ∈ op.ptrs, p < s.ptrs.length) :
    Orderly s' := by
  -- a thread of `s'` is the one that begins, or a thread of `s`
  have hold : ∀ (i : ℕ) c p, s'.threads[i]? = some c → c.uses p = true →
      (i = t ∧ p ∈ op.ptrs) ∨ (s.threads[i]? = some c ∧ p ∉ op.ptrs) := by
    intro i c p hi hc
    rw [hthreads] at hi
    obtain ⟨rfl, rfl⟩ | ⟨_, hi⟩ := Slots.getElem?_set_cases hi
    · obtain ⟨op', hop', hp⟩ := Pc.uses_iff.mp hc
      rw [hop, Option.some.injEq] at hop'
      exact .inl ⟨rfl, hop' ▸ hp⟩
    · refine .inr ⟨hi, fun hp => ?_⟩
      have hb : s.busy p = true := (Slots.any_iff _ _).mpr ⟨i, c, hi, hc⟩
      rw [hfree p hp] at hb
      exact Bool.false_ne_true hb
  refine ⟨fun i j c c' p hi hj hc hc' => ?_, fun i c p hi hc => ?_⟩
  · obtain ⟨rfl, hp⟩ | ⟨hi', hp⟩ := hold i c p hi hc
    · obtain ⟨rfl, _⟩ | ⟨_, hp'⟩ := hold j c' p hj hc'
      · rfl
      · exact absurd hp hp'
    · obtain ⟨_, hp'⟩ | ⟨hj', _⟩ := hold j c' p hj hc'
      · exact absurd hp' hp
      · exact hs.apart i j c c' p hi' hj' hc hc'
  · rw [hptrs]
    obtain ⟨_, hp⟩ | ⟨hi', _⟩ := hold i c p hi hc
    · exact hknown p hp
    · exact hs.known i c p hi' hc

theorem orderly_step [Inhabited κ] {s s' : State κ} {e : Event κ} (hs : Orderly s) (h : step s e = some s') :
    Orderly s' := by
  -- a thread that does not begin an operation
  have hgo : ∀ {t : ThreadId} {pc₀ pc : Pc κ} {s'' : State κ}, s.threads[t]? = some pc₀ →
      s''.threads = s.threads.set t pc → s.ptrs.length ≤ s''.ptrs.length →
      (∀ p, pc.uses p = true → pc₀.uses p = true) → Orderly s'' :=
    fun ht hthreads hptrs hpc => hs.setThread ht hpc hthreads hptrs
  cases step_cases h with
  | default t ht => exact hs.of_threads rfl (by simp)
  | copy t q src ht hbusy hq => exact hs.of_threads rfl (by simp)
  | acquire t pool key ht =>
    exact hgo ht rfl (Nat.le_refl _) fun p hp => by simp [Pc.uses, Pc.op] at hp
  | lock t pool key p ht hp =>
    exact hgo ht rfl (Nat.le_refl _) fun p hp => by simp [Pc.uses, Pc.op] at hp
  | acquireItem t throws pool key ht =>
    obtain ⟨_, hptrs, pc, hthreads, rfl | ⟨item, rfl⟩⟩ := s.acquireItem_frame t pool key throws
    · exact hgo ht hthreads (hptrs ▸ Nat.le_refl _) fun p hp => by simp [Pc.uses, Pc.op] at hp
    · exact hgo ht hthreads (hptrs ▸ Nat.le_refl _) fun p hp => by simp [Pc.uses, Pc.op] at hp
  | makePtr t item pool key ht =>
    exact hgo ht rfl (by simp) fun p hp => by simp [Pc.uses, Pc.op] at hp
  | start t op _ ht hptrs h =>
    obtain ⟨dst, _, ⟨item, pool, key, _, rfl⟩ | ⟨_, h⟩⟩ := State.start_cases h
    · refine hs.begin ht rfl rfl rfl (fun p hp => (hptrs p hp).2) (fun p hp => ?_)
      obtain ⟨src, hsrc⟩ := Option.isSome_iff_exists.mp (hptrs p hp).1
      exact ptr_lt hsrc
    · obtain ⟨_, hthreads, hlength⟩ := State.finish_frame h
      exact hs.of_threads hthreads hlength
  | unlock t item pool key op ht => exact hgo ht rfl (Nat.le_refl _) fun p hp => hp
  | releaseItem t item pool key op ht => exact hgo ht rfl (Nat.le_refl _) fun p hp => hp
  | finish t op _ ht h =>
    obtain ⟨_, hthreads, hptrs⟩ := State.finish_frame h
    exact hgo ht hthreads hptrs fun p hp => by simp [Pc.uses, Pc.op] at hp

/-! ## Places and keys -/

/-- Every object of `_all` is at one place; where it is, it has the pool and the key under which it
was handed out. -/
structure Kept (s : State κ) : Prop where
  orderly : Orderly s
  single : Placement.Single s.contents
  born : ∀ pl x l, (x, l) ∈ s.contents pl → x < s.created
  present : ∀ i x, x ∈ (s.pools i).all → ∃ pl l, (x, l) ∈ s.contents pl
  past : ∀ x l, (x, l) ∈ s.handouts → x < s.created
  label : ∀ pl x l l', (x, l) ∈ s.contents pl → (x, l') ∈ s.handouts → l' = l
  keyed : ∀ x l l', (x, l) ∈ s.handouts → (x, l') ∈ s.handouts → l = l'

theorem kept_init (limits : PoolId → Option ℕ) (n : ℕ) : Kept (State.init limits n : State κ) := by
  have hnone : ∀ pl, (State.init limits n : State κ).contents pl = [] := by
    intro pl
    cases pl with
    | held p => simp [State.contents, State.holder, State.ptr, State.init]
    | queued i k => rfl
    | hands t =>
      have hh : (State.init limits n : State κ).hand t = none := by
        simp only [State.hand, State.init, List.getElem?_replicate]
        split <;> rfl
      rw [State.contents, hh]
      rfl
  refine ⟨orderly_init limits n, ⟨fun pl => by simp [hnone pl], fun p p' x l l' h => ?_⟩,
    fun pl x l h => ?_, fun i x h => ?_, fun x l h => ?_, fun pl x l l' h => ?_, fun x l l' h => ?_⟩
  · simp [hnone p] at h
  · simp [hnone pl] at h
  · simp [State.init, Pool.new] at h
  · simp [State.init] at h
  · simp [hnone pl] at h
  · simp [State.init] at h

theorem Kept.fresh {s : State κ} (hs : Kept s) (pl : Place κ) (l : PoolId × κ) :
    (s.created, l) ∉ s.contents pl :=
  fun hmem => Nat.lt_irrefl _ (hs.born pl _ l hmem)

section Steps
variable {s s' : State κ} (hs : Kept s) (hord : Orderly s')
include hs hord

theorem Kept.still (contents : ∀ pl, s'.contents pl = s.contents pl)
    (all : ∀ i, (s'.pools i).all = (s.pools i).all) (created : s'.created = s.created)
    (handouts : s'.handouts = s.handouts) : Kept s' := by
  have hc : s'.contents = s.contents := funext contents
  refine ⟨hord, hc ▸ hs.single, ?_, ?_, ?_, ?_, handouts ▸ hs.keyed⟩
  · rw [hc, created]
    exact hs.born
  · intro i x hx
    rw [hc]
    exact hs.present i x (all i ▸ hx)
  · rw [handouts, created]
    exact hs.past
  · rw [hc, handouts]
    exact hs.label

theorem Kept.move {a b : Place κ} {e : Hold κ}
    (transfer : Placement.Transfer s.contents s'.contents a b e)
    (all : ∀ i, (s'.pools i).all = (s.pools i).all) (created : s'.created = s.created)
    (handouts : s'.handouts = s.handouts ∨ s'.handouts = s.handouts ++ [e]) : Kept s' := by
  have hsrc : ∀ {pl x l}, (x, l) ∈ s'.contents pl → ∃ q, (x, l) ∈ s.contents q :=
    fun hmem => transfer.source hmem
  have hea : (e.1, e.2) ∈ s.contents a := by simp [transfer.left]
  -- what was handed out under this number has the label that the object has
  have hnew : ∀ x l, (x, l) ∈ s'.handouts → (x, l) ∈ s.handouts ∨ (x, l) = e := by
    intro x l hmem
    rcases handouts with ho | ho <;> rw [ho] at hmem
    · exact .inl hmem
    · simpa using hmem
  refine ⟨hord, hs.single.transfer transfer, fun pl x l hmem => ?_, fun i x hx => ?_,
    fun x l hmem => ?_, fun pl x l l' hmem hmem' => ?_, fun x l l' hmem hmem' => ?_⟩
  · obtain ⟨q, hq⟩ := hsrc hmem
    rw [created]
    exact hs.born q x l hq
  · obtain ⟨pl, l, hmem⟩ := hs.present i x (all i ▸ hx)
    obtain ⟨q, hq⟩ := transfer.kept hmem
    exact ⟨q, l, hq⟩
  · rw [created]
    obtain h0 | rfl := hnew x l hmem
    · exact hs.past x l h0
    · exact hs.born a x l hea
  · obtain ⟨q, hq⟩ := hsrc hmem
    obtain h0 | rfl := hnew x l' hmem'
    · exact hs.label q x l l' hq h0
    · exact (hs.single.label hq hea).symm
  · obtain h0 | rfl := hnew x l hmem
    · obtain h1 | rfl := hnew x l' hmem'
      · exact hs.keyed x l l' h0 h1
      · exact hs.label a x l' l hea h0
    · obtain h1 | h1 := hnew x l' hmem'
      · exact (hs.label a x l l' hea h1).symm
      · rw [Prod.mk.injEq] at h1
        exact h1.2.symm

theorem Kept.make {b : Place κ} {pool : PoolId} {key : κ}
    (arrival : Placement.Arrival s.contents s'.contents b (s.created, pool, key))
    (all : ∀ i, (s'.pools i).all =
      if i = pool then (s.pools i).all ++ [s.created] else (s.pools i).all)
    (created : s'.created = s.created + 1)
    (handouts : s'.handouts = s.handouts ++ [(s.created, pool, key)]) : Kept s' := by
  have hold : ∀ pl x l, (x, l) ∈ s'.contents pl →
      (x, l) ∈ s.contents pl ∨ (x = s.created ∧ l = (pool, key)) := by
    intro pl x l hmem
    refine (arrival.mem_iff.mp hmem).imp_right fun h0 => ?_
    simpa using h0.2
  have hnew : ∀ x l, (x, l) ∈ s'.handouts →
      (x, l) ∈ s.handouts ∨ (x = s.created ∧ l = (pool, key)) := by
    intro x l hmem
    rw [handouts] at hmem
    simpa using hmem
  have hlt : s.created < s'.created := by omega
  refine ⟨hord, hs.single.arrival arrival hs.fresh, fun pl x l hmem => ?_, fun i x hx => ?_,
    fun x l hmem => ?_, fun pl x l l' hmem hmem' => ?_, fun x l l' hmem hmem' => ?_⟩
  · obtain h0 | ⟨rfl, _⟩ := hold pl x l hmem
    · exact Nat.lt_trans (hs.born pl x l h0) hlt
    · exact hlt
  · have hx' : x ∈ (s.pools i).all ∨ x = s.created := by
      rw [all i] at hx
      split at hx
      · simpa using hx
      · exact .inl hx
    obtain hx | rfl := hx'
    · obtain ⟨pl, l, hmem⟩ := hs.present i x hx
      exact ⟨pl, l, arrival.mem_iff.mpr (.inl hmem)⟩
    · exact ⟨b, (pool, key), arrival.mem_iff.mpr (.inr ⟨rfl, rfl⟩)⟩
  · obtain h0 | ⟨rfl, _⟩ := hnew x l hmem
    · exact Nat.lt_trans (hs.past x l h0) hlt
    · exact hlt
  · obtain h0 | ⟨rfl, rfl⟩ := hold pl x l hmem
    · obtain h1 | ⟨rfl, _⟩ := hnew x l' hmem'
      · exact hs.label pl x l l' h0 h1
      · exact absurd h0 (hs.fresh pl l)
    · obtain h1 | ⟨_, rfl⟩ := hnew _ l' hmem'
      · exact absurd (hs.past _ l' h1) (Nat.lt_irrefl _)
      · rfl
  · obtain h0 | ⟨rfl, rfl⟩ := hnew x l hmem
    · obtain h1 | ⟨rfl, _⟩ := hnew x l' hmem'
      · exact hs.keyed x l l' h0 h1
      · exact absurd (hs.past _ l h0) (Nat.lt_irrefl _)
    · obtain h1 | ⟨_, rfl⟩ := hnew _ l' hmem'
      · exact absurd (hs.past _ l' h1) (Nat.lt_irrefl _)
      · rfl

end Steps

theorem kept_step [Inhabited κ] (s : State κ) (e : Event κ) (s' : State κ) (hs : Kept s) (h : step s e = some s') :
    Kept s' := by
  have hord := orderly_step hs.orderly h
  cases step_effect hs.orderly hs.fresh h with
  | still contents all created handouts => exact hs.still hord contents all created handouts
  | move a b e transfer all created handouts => exact hs.move hord transfer all created handouts
  | make b pool key arrival all created handouts => exact hs.make hord arrival all created handouts

def State.items (s : State κ) (pl : Place κ) : List ItemId := (s.contents pl).map Prod.fst

theorem State.mem_items {s : State κ} {pl : Place κ} {x : ItemId} :
    x ∈ s.items pl ↔ ∃ l, (x, l) ∈ s.contents pl := by
  simp [State.items]

/-- In every reachable state every object of a pool is at exactly one place, and there once, and an
object is handed out under one key only. -/
theorem item_at_one_place [Inhabited κ] (limits : PoolId → Option ℕ) (n : ℕ) (es : List (Event κ))
    (s : State κ) (hrun : Transition.run step (State.init limits n) es = some s) :
    (∀ i, ∀ x ∈ (s.pools i).all, ∃! pl, x ∈ s.items pl) ∧
      (∀ pl x, x ∈ s.items pl → (s.items pl).count x = 1) ∧
      ∀ x i k i' k', (x, i, k) ∈ s.handouts → (x, i', k') ∈ s.handouts → k = k' := by
  have hs : Kept s := Transition.run_preserves step kept_step hrun (kept_init limits n)
  refine ⟨fun i x hx => ?_, fun pl x hx => ?_, fun x i k i' k' h h' => ?_⟩
  · obtain ⟨pl, l, hl⟩ := hs.present i x hx
    refine ⟨pl, State.mem_items.mpr ⟨l, hl⟩, fun pl' hpl' => ?_⟩
    obtain ⟨l', hl'⟩ := State.mem_items.mp hpl'
    exact hs.single.apart pl' pl x l' l hl' hl
  · exact List.count_eq_one_of_mem (hs.single.nodup pl) hx
  · exact (Prod.mk.inj (hs.keyed x _ _ h h')).2

end Ownership

/-! ## Three objects of one pool -/

namespace Sample

def acquireRound (t : ThreadId) (key : String) : List (Event String) :=
  [.acquire t 0 key, .lock t, .acquireItem t false, .makePtr t]

def releaseRound (t : ThreadId) (op : Operation) : List (Event String) :=
  [.start t op, .unlock t, .releaseItem t, .finish t]

/-- One object is copied from pointer to pointer and then released by a self-assignment, one is held,
and one is in the hands of a thread. -/
def threeObjects : List (Event String) :=
  acquireRound 0 "key1" ++ [.copy 0 0] ++ releaseRound 0 (.assign 1 1) ++ acquireRound 1 "key2" ++
    [.acquire 0 0 "", .lock 0, .acquireItem 0 false]

end Sample

theorem item_at_one_place_three : ∃ s : State String,
    (s.pools 0).all = [0, 1, 2] ∧ s.items (.queued 0 "key1") = [0] ∧ s.items (.held 2) = [1] ∧
      s.items (.hands 0) = [2] ∧
      (∀ i, ∀ x ∈ (s.pools i).all, ∃! pl, x ∈ s.items pl) ∧
      (∀ pl x, x ∈ s.items pl → (s.items pl).count x = 1) ∧
      ∀ x i k i' k', (x, i, k) ∈ s.handouts → (x, i', k') ∈ s.handouts → k = k' := by
  refine ⟨_, ?_, ?_, ?_, ?_, item_at_one_place (fun _ => none) 2 Sample.threeObjects _ rfl⟩
  · rfl
  · rfl
  · rfl
  · rfl

end Dcl.Pools
