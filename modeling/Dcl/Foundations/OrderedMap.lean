import Mathlib.Algebra.Order.Ring.Int
import Mathlib.Data.List.Basic
import Mathlib.Order.Lattice
import Mathlib.Tactic.Common

/-! # `std::map` over a comparison

A map is its list of entries in key order. Two keys are the same key when neither is less than the
other, so assigning to a key that is already there keeps the spelling of the entry and replaces its
value. The order of the entries is part of the type. -/
namespace Dcl
set_option autoImplicit false

/-- The comparison of a map: a strict weak ordering. -/
structure KeyOrder (κ : Type*) where
  lt : κ → κ → Bool
  irrefl : ∀ a, lt a a = false
  trans : ∀ a b c, lt a b = true → lt b c = true → lt a c = true
  split : ∀ a b c, lt a c = true → lt a b = true ∨ lt b c = true

namespace KeyOrder
variable {κ : Type*} (o : KeyOrder κ)

def same (a b : κ) : Bool := !o.lt a b && !o.lt b a

theorem same_refl (a : κ) : o.same a a = true := by simp [same, o.irrefl]

theorem same_of_lt {a b : κ} (h : o.lt a b = true) : o.same a b = false := by simp [same, h]

theorem same_comm (a b : κ) : o.same a b = o.same b a := by
  simp only [same]
  exact Bool.and_comm _ _

theorem same_trans {a b c : κ} (hab : o.same a b = true) (hbc : o.same b c = true) :
    o.same a c = true := by
  simp only [same, Bool.and_eq_true, Bool.not_eq_true', ← Bool.not_eq_true] at *
  refine ⟨fun h => ?_, fun h => ?_⟩
  · obtain h | h := o.split a b c h
    · exact hab.1 h
    · exact hbc.1 h
  · obtain h | h := o.split c b a h
    · exact hbc.2 h
    · exact hab.2 h

/-- The order of a type whose values are keys as they are. -/
def linear (κ : Type*) [LinearOrder κ] : KeyOrder κ where
  lt a b := decide (a < b)
  irrefl a := by simp
  trans a b c hab hbc := by
    simp only [decide_eq_true_eq] at *
    exact hab.trans hbc
  split a b c h := by
    simp only [decide_eq_true_eq] at *
    exact (lt_or_ge a b).imp_right fun hba => lt_of_le_of_lt hba h

theorem linear_same [LinearOrder κ] {a b : κ} : (linear κ).same a b = true ↔ a = b := by
  simp only [same, linear, Bool.and_eq_true, Bool.not_eq_true', decide_eq_false_iff_not, not_lt]
  exact ⟨fun h => le_antisymm h.2 h.1, fun h => ⟨h.ge, h.le⟩⟩

/-- Keys are compared by their images. -/
def along {ι : Type*} [LinearOrder ι] (f : κ → ι) : KeyOrder κ where
  lt a b := (linear ι).lt (f a) (f b)
  irrefl a := (linear ι).irrefl (f a)
  trans a b c := (linear ι).trans (f a) (f b) (f c)
  split a b c := (linear ι).split (f a) (f b) (f c)

theorem along_same {ι : Type*} [LinearOrder ι] {f : κ → ι} (hf : Function.Injective f) {a b : κ} :
    (along f).same a b = true ↔ a = b :=
  linear_same.trans hf.eq_iff

end KeyOrder

structure OrderedMap {κ : Type*} (o : KeyOrder κ) (ν : Type*) where
  entries : List (κ × ν)
  sorted : entries.Pairwise fun a b => o.lt a.1 b.1 = true

namespace OrderedMap
variable {κ ν : Type*} {o : KeyOrder κ}

def empty : OrderedMap o ν := ⟨[], List.Pairwise.nil⟩

theorem ext {m n : OrderedMap o ν} (h : m.entries = n.entries) : m = n := by
  cases m
  cases n
  simpa using h

instance [DecidableEq κ] [DecidableEq ν] : DecidableEq (OrderedMap o ν) := fun m n =>
  decidable_of_iff (m.entries = n.entries) ⟨ext, congrArg entries⟩

def find (m : OrderedMap o ν) (k : κ) : Option ν :=
  (m.entries.find? fun e => o.same e.1 k).map Prod.snd

/-- `map[k] = v` on the list of entries. -/
def assign (o : KeyOrder κ) (k : κ) (v : ν) : List (κ × ν) → List (κ × ν)
  | [] => [(k, v)]
  | e :: es =>
      if o.lt k e.1 then (k, v) :: e :: es
      else if o.lt e.1 k then e :: assign o k v es
      else (e.1, v) :: es

theorem mem_assign {k : κ} {v : ν} {es : List (κ × ν)} {a : κ × ν} (h : a ∈ assign o k v es) :
    a.1 = k ∨ ∃ b ∈ es, b.1 = a.1 := by
  induction es with
  | nil =>
    simp only [assign, List.mem_singleton] at h
    exact Or.inl (by rw [h])
  | cons e es ih =>
    simp only [assign] at h
    split at h
    · obtain rfl | h := List.mem_cons.mp h
      · exact Or.inl rfl
      · exact Or.inr ⟨a, h, rfl⟩
    · split at h
      · obtain rfl | h := List.mem_cons.mp h
        · exact Or.inr ⟨a, by simp, rfl⟩
        · obtain h | ⟨b, hb, he⟩ := ih h
          · exact Or.inl h
          · exact Or.inr ⟨b, by simp [hb], he⟩
      · obtain rfl | h := List.mem_cons.mp h
        · exact Or.inr ⟨e, by simp, rfl⟩
        · exact Or.inr ⟨a, by simp [h], rfl⟩

theorem assign_ne_nil (k : κ) (v : ν) (es : List (κ × ν)) : assign o k v es ≠ [] := by
  cases es with
  | nil => exact List.cons_ne_nil _ _
  | cons e es =>
    rw [assign]
    split_ifs
    · exact List.cons_ne_nil _ _
    · exact List.cons_ne_nil _ _
    · exact List.cons_ne_nil _ _

/-- The keys and the values after an assignment are old ones or the assigned ones. -/
theorem assign_forall {P : κ → Prop} {Q : ν → Prop} {k : κ} {v : ν} {es : List (κ × ν)}
    (hk : P k) (hv : Q v) (h : ∀ e ∈ es, P e.1 ∧ Q e.2) : ∀ e ∈ assign o k v es, P e.1 ∧ Q e.2 := by
  induction es with
  | nil => simpa [assign] using ⟨hk, hv⟩
  | cons e es ih =>
    obtain ⟨he, hes⟩ := List.forall_mem_cons.mp h
    simp only [assign]
    split
    · exact List.forall_mem_cons.mpr ⟨⟨hk, hv⟩, h⟩
    · split
      · exact List.forall_mem_cons.mpr ⟨he, ih hes⟩
      · exact List.forall_mem_cons.mpr ⟨⟨he.1, hv⟩, hes⟩

theorem assign_greatest {k : κ} {es : List (κ × ν)} (v : ν) (h : ∀ e ∈ es, o.lt e.1 k = true) :
    assign o k v es = es ++ [(k, v)] := by
  induction es with
  | nil => rfl
  | cons e es ih =>
    obtain ⟨he, hes⟩ := List.forall_mem_cons.mp h
    have hk : ¬o.lt k e.1 = true := by
      intro hk
      have hself := o.trans k e.1 k hk he
      rw [o.irrefl] at hself
      exact Bool.false_ne_true hself
    rw [assign, if_neg hk, if_pos he, ih hes, List.cons_append]

theorem assign_sorted (k : κ) (v : ν) {es : List (κ × ν)}
    (h : es.Pairwise fun a b => o.lt a.1 b.1 = true) :
    (assign o k v es).Pairwise fun a b => o.lt a.1 b.1 = true := by
  induction es with
  | nil => simp [assign]
  | cons e es ih =>
    obtain ⟨he, hes⟩ := List.pairwise_cons.mp h
    simp only [assign]
    split
    · rename_i hk
      refine List.pairwise_cons.mpr ⟨?_, h⟩
      intro b hb
      obtain rfl | hb := List.mem_cons.mp hb
      · exact hk
      · exact o.trans k e.1 b.1 hk (he b hb)
    · split
      · rename_i hk
        refine List.pairwise_cons.mpr ⟨?_, ih hes⟩
        intro a ha
        obtain h | ⟨b, hb, hab⟩ := mem_assign ha
        · rw [h]
          exact hk
        · rw [← hab]
          exact he b hb
      · exact List.pairwise_cons.mpr ⟨he, hes⟩

def set (m : OrderedMap o ν) (k : κ) (v : ν) : OrderedMap o ν :=
  ⟨assign o k v m.entries, assign_sorted k v m.sorted⟩

theorem set_set (m : OrderedMap o ν) (k : κ) (v w : ν) : (m.set k v).set k w = m.set k w := by
  have h : ∀ es : List (κ × ν), assign o k w (assign o k v es) = assign o k w es := by
    intro es
    induction es with
    | nil => simp [assign, o.irrefl]
    | cons e es ih =>
      by_cases hlt : o.lt k e.1 = true
      · simp [assign, hlt, o.irrefl]
      · by_cases hgt : o.lt e.1 k = true
        · simp [assign, hlt, hgt, ih]
        · simp [assign, hlt, hgt]
  exact ext (h m.entries)

/-- Entries that come in key order are appended one after the other. -/
theorem entries_foldl_set (es : List (κ × ν)) (m : OrderedMap o ν)
    (h : (m.entries ++ es).Pairwise fun a b => o.lt a.1 b.1 = true) :
    (es.foldl (fun m e => m.set e.1 e.2) m).entries = m.entries ++ es := by
  induction es generalizing m with
  | nil => simp
  | cons e es ih =>
    have hgreatest : (m.set e.1 e.2).entries = m.entries ++ [e] :=
      assign_greatest e.2 fun a ha => (List.pairwise_append.mp h).2.2 a ha e (by simp)
    rw [List.foldl_cons, ih, hgreatest, List.append_assoc, List.singleton_append]
    rw [hgreatest, List.append_assoc, List.singleton_append]
    exact h

theorem foldl_set_entries (m : OrderedMap o ν) :
    m.entries.foldl (fun m e => m.set e.1 e.2) .empty = m :=
  ext (entries_foldl_set m.entries .empty m.sorted)

theorem find_set (m : OrderedMap o ν) (k : κ) (v : ν) : (m.set k v).find k = some v := by
  have h : ∀ es : List (κ × ν),
      ((assign o k v es).find? fun e => o.same e.1 k).map Prod.snd = some v := by
    intro es
    induction es with
    | nil => simp [assign, o.same_refl]
    | cons e es ih =>
      simp only [assign]
      split
      · simp [o.same_refl]
      · split
        · rename_i hk
          rw [List.find?_cons_of_neg (by simp [o.same_of_lt hk])]
          exact ih
        · rename_i h1 h2
          have hs : o.same e.1 k = true := by simp [KeyOrder.same, h1, h2]
          simp [hs]
  exact h m.entries

theorem exists_of_find {m : OrderedMap o ν} {k : κ} {v : ν} (h : m.find k = some v) :
    ∃ e ∈ m.entries, o.same e.1 k = true ∧ e.2 = v := by
  obtain ⟨e, he, hv⟩ := Option.map_eq_some_iff.mp h
  have hsame := List.find?_some he
  exact ⟨e, List.mem_of_find?_eq_some he, hsame, hv⟩

/-- No two entries have the same key. -/
theorem find_of_mem (m : OrderedMap o ν) {k : κ} {e : κ × ν} (he : e ∈ m.entries) (hk : o.same e.1 k = true) :
    m.find k = some e.2 := by
  have h : ∀ es : List (κ × ν), es.Pairwise (fun a b => o.lt a.1 b.1 = true) → e ∈ es →
      es.find? (fun a => o.same a.1 k) = some e := by
    intro es hes hmem
    induction es with
    | nil => cases hmem
    | cons a es ih =>
      obtain ⟨ha, hes⟩ := List.pairwise_cons.mp hes
      rcases List.mem_cons.mp hmem with rfl | hmem
      · exact List.find?_cons_of_pos hk
      · have hnot : o.same a.1 k = false := by
          rw [← Bool.not_eq_true]
          intro hsame
          have hae := o.same_trans hsame (o.same_comm e.1 k ▸ hk)
          rw [o.same_of_lt (ha e hmem)] at hae
          exact Bool.false_ne_true hae
        rw [List.find?_cons_of_neg (by simp [hnot])]
        exact ih hes hmem
  rw [find, h m.entries m.sorted he, Option.map_some]

theorem find_congr {m : OrderedMap o ν} {k k' : κ} (h : o.same k k' = true) : m.find k' = m.find k := by
  have hsame : ∀ a, o.same a k' = o.same a k := by
    intro a
    rw [Bool.eq_iff_iff]
    exact ⟨fun ha => o.same_trans ha (o.same_comm k k' ▸ h), fun ha => o.same_trans ha h⟩
  simp only [find, hsame]

theorem find_set_of_not_same (m : OrderedMap o ν) {k k' : κ} (v : ν) (hne : o.same k k' = false) :
    (m.set k v).find k' = m.find k' := by
  have h : ∀ es : List (κ × ν), (assign o k v es).find? (fun e => o.same e.1 k') =
      es.find? fun e => o.same e.1 k' := by
    intro es
    induction es with
    | nil => simp [assign, hne]
    | cons e es ih =>
      simp only [assign]
      split
      · rw [List.find?_cons_of_neg (by simp [hne])]
      · split
        · rw [List.find?_cons, List.find?_cons, ih]
        · rename_i h1 h2
          -- the entry that is replaced has the key `k`, so it is not the one that is looked for
          have hek : o.same e.1 k = true := by simp [KeyOrder.same, h1, h2]
          have he : o.same e.1 k' = false := by
            rw [← Bool.not_eq_true]
            intro he
            have hkk := o.same_trans (o.same_comm e.1 k ▸ hek) he
            rw [hne] at hkk
            exact Bool.false_ne_true hkk
          simp [he]
  rw [find, find]
  exact congrArg _ (h m.entries)

theorem find?_eq_none_of_lt {k : κ} {es : List (κ × ν)} (h : ∀ e ∈ es, o.lt k e.1 = true) :
    es.find? (fun e => o.same e.1 k) = none := by
  refine List.find?_eq_none.mpr fun e he => ?_
  rw [o.same_comm, o.same_of_lt (h e he)]
  exact Bool.false_ne_true

theorem sum_set (m : OrderedMap o ν) (k : κ) (v : ν) (f : ν → ℤ) :
    ((m.set k v).entries.map fun e => f e.2).sum + ((m.find k).map f).getD 0 =
      (m.entries.map fun e => f e.2).sum + f v := by
  have h : ∀ es : List (κ × ν), es.Pairwise (fun a b => o.lt a.1 b.1 = true) →
      ((assign o k v es).map fun e => f e.2).sum +
        (((es.find? fun e => o.same e.1 k).map Prod.snd).map f).getD 0 =
      (es.map fun e => f e.2).sum + f v := by
    intro es hes
    induction es with
    | nil => simp [assign]
    | cons e es ih =>
      obtain ⟨he, hes⟩ := List.pairwise_cons.mp hes
      simp only [assign]
      split
      next hk =>
        have hnone : (e :: es).find? (fun e => o.same e.1 k) = none := by
          refine find?_eq_none_of_lt fun b hb => ?_
          obtain rfl | hb := List.mem_cons.mp hb
          · exact hk
          · exact o.trans k e.1 b.1 hk (he b hb)
        rw [hnone]
        simp only [List.map_cons, List.sum_cons, Option.map_none, Option.getD_none]
        omega
      next hk =>
        split
        next hk' =>
          rw [List.find?_cons_of_neg (by simp [o.same_of_lt hk'])]
          have := ih hes
          simp only [List.map_cons, List.sum_cons]
          omega
        next hk' =>
          have hs : o.same e.1 k = true := by simp [KeyOrder.same, hk, hk']
          simp only [List.find?_cons, hs, List.map_cons, List.sum_cons, Option.map_some,
            Option.getD_some]
          omega
  exact h m.entries m.sorted

end OrderedMap

end Dcl
