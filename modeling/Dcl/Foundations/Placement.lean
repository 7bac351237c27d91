import Mathlib.Data.List.Basic
import Mathlib.Data.List.Nodup

/-! # Objects that are at one place

`c p` lists what is at the place `p`: objects, each with a label. `Single`: no object is twice at a
place or at two places. `Transfer`: the first object of a place goes to the end of another place.
`Arrival`: an object comes from outside. -/
namespace Dcl.Placement
set_option autoImplicit false

variable {π ι ℓ : Type*}

structure Single (c : π → List (ι × ℓ)) : Prop where
  nodup : ∀ p, ((c p).map Prod.fst).Nodup
  apart : ∀ p p' x l l', (x, l) ∈ c p → (x, l') ∈ c p' → p = p'

structure Arrival (c c' : π → List (ι × ℓ)) (b : π) (h : ι × ℓ) : Prop where
  here : c' b = c b ++ [h]
  rest : ∀ p, p ≠ b → c' p = c p

structure Transfer (c c' : π → List (ι × ℓ)) (a b : π) (h : ι × ℓ) : Prop where
  left : c a = h :: c' a
  here : c' b = c b ++ [h]
  rest : ∀ p, p ≠ a → p ≠ b → c' p = c p

section Rules
variable {c c' : π → List (ι × ℓ)} {a b : π} {h : ι × ℓ}

theorem Arrival.mem_iff (ht : Arrival c c' b h) {p : π} {e : ι × ℓ} :
    e ∈ c' p ↔ e ∈ c p ∨ p = b ∧ e = h := by
  by_cases hp : p = b
  · subst hp
    simp [ht.here]
  · simp [ht.rest p hp, hp]

/-- What is at a place after a transfer was there before, or it is what was transferred. -/
theorem Transfer.old (ht : Transfer c c' a b h) {p : π} {e : ι × ℓ} (he : e ∈ c' p) :
    e ∈ c p ∨ p = b ∧ e = h := by
  by_cases hp : p = b
  · subst hp
    rw [ht.here, List.mem_append, List.mem_singleton] at he
    exact he.imp_right fun h0 => ⟨rfl, h0⟩
  · left
    by_cases hpa : p = a
    · subst hpa
      rw [ht.left]
      exact List.mem_cons_of_mem h he
    · rwa [← ht.rest p hpa hp]

theorem Transfer.source (ht : Transfer c c' a b h) {p : π} {e : ι × ℓ} (he : e ∈ c' p) :
    ∃ q, e ∈ c q := by
  obtain h0 | ⟨_, rfl⟩ := ht.old he
  · exact ⟨p, h0⟩
  · exact ⟨a, by simp [ht.left]⟩

theorem Transfer.kept (ht : Transfer c c' a b h) {p : π} {e : ι × ℓ} (he : e ∈ c p) :
    ∃ q, e ∈ c' q := by
  by_cases hp : p = a
  · subst hp
    rw [ht.left, List.mem_cons] at he
    obtain rfl | he := he
    · exact ⟨b, by simp [ht.here]⟩
    · exact ⟨p, he⟩
  · refine ⟨p, ?_⟩
    by_cases hpb : p = b
    · subst hpb
      rw [ht.here]
      exact List.mem_append_left _ he
    · rwa [ht.rest p hp hpb]

theorem Single.label (hc : Single c) {p p' : π} {x : ι} {l l' : ℓ} (h : (x, l) ∈ c p)
    (h' : (x, l') ∈ c p') : l = l' := by
  obtain rfl := hc.apart p p' x l l' h h'
  have heq : (x, l) = (x, l') := List.inj_on_of_nodup_map (hc.nodup p) h h' rfl
  exact (Prod.mk.inj heq).2

/-- Objects that are different from those of a place can be put there. -/
theorem Single.nodup_concat (hc : Single c) {p : π} (hnew : ∀ l, (h.1, l) ∉ c p) :
    ((c p ++ [h]).map Prod.fst).Nodup := by
  rw [List.map_append, List.map_singleton, List.nodup_append]
  refine ⟨hc.nodup p, List.nodup_singleton _, fun x hx y hy heq => ?_⟩
  obtain ⟨⟨x', l⟩, hmem, rfl⟩ := List.mem_map.mp hx
  rw [List.mem_singleton] at hy
  subst hy
  exact hnew l (heq ▸ hmem)

theorem Single.arrival (hc : Single c) (ht : Arrival c c' b h) (hnew : ∀ p l, (h.1, l) ∉ c p) :
    Single c' := by
  refine ⟨fun p => ?_, fun p p' x l l' he he' => ?_⟩
  · by_cases hp : p = b
    · subst hp
      rw [ht.here]
      exact hc.nodup_concat (hnew p)
    · rw [ht.rest p hp]
      exact hc.nodup p
  · obtain h0 | ⟨rfl, rfl⟩ := ht.mem_iff.mp he
    · obtain h1 | ⟨_, rfl⟩ := ht.mem_iff.mp he'
      · exact hc.apart p p' x l l' h0 h1
      · exact absurd h0 (hnew p l)
    · obtain h1 | ⟨rfl, _⟩ := ht.mem_iff.mp he'
      · exact absurd h1 (hnew p' l')
      · rfl

/-- What stays at the place that an object leaves is not that object. -/
theorem Single.left_ne (hc : Single c) (ht : Transfer c c' a b h) {e : ι × ℓ} (he : e ∈ c' a) :
    e.1 ≠ h.1 := by
  have hn := hc.nodup a
  rw [ht.left, List.map_cons, List.nodup_cons] at hn
  exact fun heq => hn.1 (heq ▸ List.mem_map_of_mem he)

theorem Single.transfer (hc : Single c) (ht : Transfer c c' a b h) : Single c' := by
  have hha : (h.1, h.2) ∈ c a := by simp [ht.left]
  -- an object that is at a place it was at before is not the one that was transferred
  have hold : ∀ p x l, (x, l) ∈ c' p → (x, l) ∈ c p → x ≠ h.1 := by
    rintro p x l he hpe rfl
    obtain rfl := hc.apart p a _ l h.2 hpe hha
    exact hc.left_ne ht he rfl
  refine ⟨fun p => ?_, fun p p' x l l' he he' => ?_⟩
  · by_cases hp : p = a
    · subst hp
      have hn := hc.nodup p
      rw [ht.left, List.map_cons, List.nodup_cons] at hn
      exact hn.2
    · by_cases hpb : p = b
      · subst hpb
        rw [ht.here]
        exact hc.nodup_concat fun l hl => hp (hc.apart p a h.1 l h.2 hl hha)
      · rw [ht.rest p hp hpb]
        exact hc.nodup p
  · obtain h0 | ⟨rfl, rfl⟩ := ht.old he
    · obtain h1 | ⟨rfl, rfl⟩ := ht.old he'
      · exact hc.apart p p' x l l' h0 h1
      · exact absurd rfl (hold p x l he h0)
    · obtain h1 | ⟨rfl, _⟩ := ht.old he'
      · exact absurd rfl (hold p' x l' he' h1)
      · rfl

end Rules

end Dcl.Placement
