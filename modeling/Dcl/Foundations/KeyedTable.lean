import Dcl.Foundations.OrderedMap

/-! # A table that is set by key

A `KeyedTable` is known by what its documentation says: setting a key replaces the entry of that key,
or adds one, and leaves the others alone. Two keys are the same as the comparison `o` has it. The
entries of a table that was built by `set` are `Apart`: no two of them have the same key. -/
namespace Dcl
set_option autoImplicit false

namespace KeyOrder
variable {κ ν : Type*} (o : KeyOrder κ)

/-- No two entries have the same key. -/
def Apart (es : List (κ × ν)) : Prop := es.Pairwise fun a b => o.same a.1 b.1 = false

variable {o}

theorem not_same_trans {a b c : κ} (hab : o.same a b = false) (hbc : o.same b c = true) :
    o.same a c = false := by
  rw [← Bool.not_eq_true] at *
  exact fun hac => hab (o.same_trans hac (o.same_comm b c ▸ hbc))

theorem Apart.perm {es fs : List (κ × ν)} (h : o.Apart es) (hp : es.Perm fs) : o.Apart fs :=
  (hp.pairwise_iff fun {a b} hab => by rwa [o.same_comm]).mp h

theorem Apart.countP_le_one {es : List (κ × ν)} (h : o.Apart es) (k : κ) :
    es.countP (fun e => o.same e.1 k) ≤ 1 := by
  induction es with
  | nil => simp
  | cons e es ih =>
    obtain ⟨he, hes⟩ := List.pairwise_cons.mp h
    cases hk : o.same e.1 k with
    | false =>
      rw [List.countP_cons_of_neg (by simp [hk])]
      exact ih hes
    | true =>
      have hzero : es.countP (fun e => o.same e.1 k) = 0 := by
        refine List.countP_eq_zero.mpr fun b hb hbk => ?_
        rw [o.same_comm] at hbk
        have := o.same_trans hk hbk
        rw [he b hb] at this
        exact Bool.false_ne_true this
      rw [List.countP_cons_of_pos (by simp [hk]), hzero]

end KeyOrder

theorem OrderedMap.apart {κ ν : Type*} {o : KeyOrder κ} (m : OrderedMap o ν) : o.Apart m.entries :=
  m.sorted.imp fun h => o.same_of_lt h

structure KeyedTable {κ : Type} (o : KeyOrder κ) (ν : Type) where
  Table : Type
  make : Table
  entries : Table → List (κ × ν)
  set : Table → κ → ν → Table
  entries_make : entries make = []
  /-- The spelling of a key that is already there is left open. -/
  entries_set : ∀ t k v, ∃ k', o.same k' k = true ∧
    ((∀ e ∈ entries t, o.same e.1 k = false) → k' = k) ∧
    (entries (set t k v)).Perm ((k', v) :: (entries t).filter fun e => !o.same e.1 k)

namespace KeyedTable
variable {κ ν : Type} {o : KeyOrder κ} (T : KeyedTable o ν)

def setAll (t : T.Table) (es : List (κ × ν)) : T.Table := es.foldl (fun t e => T.set t e.1 e.2) t

theorem set_fresh {t : T.Table} {k : κ} (v : ν) (h : ∀ e ∈ T.entries t, o.same e.1 k = false) :
    (T.entries (T.set t k v)).Perm ((k, v) :: T.entries t) := by
  obtain ⟨k', -, hk, hp⟩ := T.entries_set t k v
  have hall : (T.entries t).filter (fun e => !o.same e.1 k) = T.entries t :=
    List.filter_eq_self.mpr fun e he => by simp [h e he]
  rw [hk h, hall] at hp
  exact hp

theorem set_apart {t : T.Table} (h : o.Apart (T.entries t)) (k : κ) (v : ν) :
    o.Apart (T.entries (T.set t k v)) := by
  obtain ⟨k', hk, -, hp⟩ := T.entries_set t k v
  refine KeyOrder.Apart.perm ?_ hp.symm
  refine List.pairwise_cons.mpr ⟨fun e he => ?_, h.filter _⟩
  have hek : o.same e.1 k = false := by simpa using (List.mem_filter.mp he).2
  rw [o.same_comm]
  exact KeyOrder.not_same_trans hek (o.same_comm k' k ▸ hk)

/-- What holds of every key up to `same`, and of every value, holds of the entries. -/
theorem set_forall {P : κ → Prop} {Q : ν → Prop} (hP : ∀ a b, o.same a b = true → P b → P a)
    {t : T.Table} (h : ∀ e ∈ T.entries t, P e.1 ∧ Q e.2) {k : κ} {v : ν} (hk : P k) (hv : Q v) :
    ∀ e ∈ T.entries (T.set t k v), P e.1 ∧ Q e.2 := by
  obtain ⟨k', hk', -, hp⟩ := T.entries_set t k v
  intro e he
  obtain rfl | he := List.mem_cons.mp (hp.mem_iff.mp he)
  · exact ⟨hP k' k hk' hk, hv⟩
  · exact h e (List.mem_filter.mp he).1

theorem setAll_apart (es : List (κ × ν)) {t : T.Table} (h : o.Apart (T.entries t)) :
    o.Apart (T.entries (T.setAll t es)) := by
  induction es generalizing t with
  | nil => exact h
  | cons e es ih => exact ih (T.set_apart h e.1 e.2)

theorem setAll_forall {P : κ → Prop} {Q : ν → Prop} (hP : ∀ a b, o.same a b = true → P b → P a)
    {es : List (κ × ν)} (hes : ∀ e ∈ es, P e.1 ∧ Q e.2) {t : T.Table}
    (h : ∀ e ∈ T.entries t, P e.1 ∧ Q e.2) : ∀ e ∈ T.entries (T.setAll t es), P e.1 ∧ Q e.2 := by
  induction es generalizing t with
  | nil => exact h
  | cons e es ih =>
    obtain ⟨he, hes⟩ := List.forall_mem_cons.mp hes
    exact ih hes (T.set_forall hP h he.1 he.2)

/-- Entries with different keys are all there afterwards. -/
theorem setAll_fresh (es : List (κ × ν)) {t : T.Table} (h : o.Apart (T.entries t ++ es)) :
    (T.entries (T.setAll t es)).Perm (T.entries t ++ es) := by
  induction es generalizing t with
  | nil => rw [List.append_nil]; exact List.Perm.refl _
  | cons e es ih =>
    have hfresh : ∀ a ∈ T.entries t, o.same a.1 e.1 = false := fun a ha =>
      (List.pairwise_append.mp h).2.2 a ha e (by simp)
    have hset := T.set_fresh e.2 hfresh
    have hmove : (T.entries (T.set t e.1 e.2) ++ es).Perm (T.entries t ++ e :: es) :=
      (hset.append_right es).trans List.perm_middle.symm
    exact (ih (h.perm hmove.symm)).trans hmove

/-! ## A table that is a list -/

def assignFirst (o : KeyOrder κ) (k : κ) (v : ν) : List (κ × ν) → List (κ × ν)
  | [] => [(k, v)]
  | e :: es =>
      if o.same e.1 k then (e.1, v) :: es.filter fun e => !o.same e.1 k else e :: assignFirst o k v es

theorem assignFirst_spec (o : KeyOrder κ) (es : List (κ × ν)) (k : κ) (v : ν) :
    ∃ k', o.same k' k = true ∧ ((∀ e ∈ es, o.same e.1 k = false) → k' = k) ∧
      (assignFirst o k v es).Perm ((k', v) :: es.filter fun e => !o.same e.1 k) := by
  induction es with
  | nil => exact ⟨k, o.same_refl k, fun _ => rfl, List.Perm.refl _⟩
  | cons e es ih =>
    rw [assignFirst]
    cases hk : o.same e.1 k with
    | true =>
      refine ⟨e.1, hk, fun h => ?_, ?_⟩
      · have := h e (by simp)
        rw [hk] at this
        cases this
      · rw [if_pos rfl, List.filter_cons_of_neg (by simp [hk])]
    | false =>
      obtain ⟨k', hk', hfresh, hp⟩ := ih
      refine ⟨k', hk', fun h => hfresh fun a ha => h a (by simp [ha]), ?_⟩
      rw [if_neg Bool.false_ne_true, List.filter_cons_of_pos (by simp [hk])]
      exact (hp.cons e).trans (List.Perm.swap _ _ _)

/-- The entry of the key is overwritten where it stands; a new one is appended. -/
def list (o : KeyOrder κ) (ν : Type) : KeyedTable o ν where
  Table := List (κ × ν)
  make := []
  entries := id
  set t k v := assignFirst o k v t
  entries_make := rfl
  entries_set := assignFirst_spec o

end KeyedTable

end Dcl
