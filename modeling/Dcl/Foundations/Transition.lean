import Mathlib.Data.List.Basic

/-! # Runs of a partial transition function

A system is given by `step : σ → ε → Option σ`: the event `e` is possible in `s` when `step s e`
is a state. Everything here is about such a function and names no particular system.

* `run step s es`: the state the events `es` lead to, if each of them is possible in its turn.
* `Along step ok s es`: every step of that run is taken from a state in which `ok` allows it.
* `run_invariant`: what each allowed step preserves, a whole allowed run preserves.
-/
namespace Dcl.Transition
set_option autoImplicit false

section Runs
variable {σ ε : Type*} (step : σ → ε → Option σ)

def run : σ → List ε → Option σ
  | s, [] => some s
  | s, e :: es => (step s e).bind fun s' => run s' es

/-- Every step of the run meets `ok` in the state it is taken from. -/
def Along (ok : σ → ε → Prop) : σ → List ε → Prop
  | _, [] => True
  | s, e :: es => ok s e ∧ ∀ s' ∈ step s e, Along ok s' es

instance Along.decidable (ok : σ → ε → Prop) [∀ s e, Decidable (ok s e)] :
    ∀ s es, Decidable (Along step ok s es)
  | _, [] => .isTrue trivial
  | s, e :: es =>
      have := fun t => Along.decidable ok t es
      inferInstanceAs (Decidable (ok s e ∧ ∀ s' ∈ step s e, Along step ok s' es))

theorem run_cons (s : σ) (e : ε) (es : List ε) :
    run step s (e :: es) = (step s e).bind fun s' => run step s' es := rfl

theorem run_cons_some {s s' : σ} {e : ε} {es : List ε} (h : run step s (e :: es) = some s') :
    ∃ t, step s e = some t ∧ run step t es = some s' := by
  rw [run_cons] at h
  exact Option.bind_eq_some_iff.mp h

theorem run_append (s : σ) (es fs : List ε) :
    run step s (es ++ fs) = (run step s es).bind fun t => run step t fs := by
  induction es generalizing s with
  | nil => rfl
  | cons e es ih =>
    rw [List.cons_append, run_cons, run_cons]
    cases step s e with
    | none => rfl
    | some t => exact ih t

theorem run_snoc {s t u : σ} {es : List ε} {e : ε} (h : run step s es = some t)
    (he : step t e = some u) : run step s (es ++ [e]) = some u := by
  rw [run_append, h]
  simp [run, he]

theorem run_shorter {s s' : σ} {es es' : List ε} (hpre : es' <+: es) (h : run step s es = some s') :
    ∃ t, run step s es' = some t := by
  obtain ⟨rest, rfl⟩ := hpre
  rw [run_append] at h
  obtain ⟨t, ht, -⟩ := Option.bind_eq_some_iff.mp h
  exact ⟨t, ht⟩

/-! ## Invariants -/

/-- The invariant rule: `P` holds at the start and every allowed step preserves it. -/
theorem run_invariant {P : σ → Prop} {ok : σ → ε → Prop}
    (hstep : ∀ s e s', P s → ok s e → step s e = some s' → P s') {s s' : σ} {es : List ε}
    (hok : Along step ok s es) (hrun : run step s es = some s') (hs : P s) : P s' := by
  induction es generalizing s with
  | nil =>
    cases hrun
    exact hs
  | cons e es ih =>
    obtain ⟨t, ht, hrest⟩ := run_cons_some step hrun
    exact ih (hok.2 t ht) hrest (hstep s e t hs hok.1 ht)

theorem along_of_mem {ok : σ → ε → Prop} {es : List ε} (h : ∀ e ∈ es, ∀ s, ok s e) (s : σ) :
    Along step ok s es := by
  induction es generalizing s with
  | nil => trivial
  | cons e es ih =>
    exact ⟨h e (by simp) s, fun t _ => ih (fun e' he' => h e' (by simp [he'])) t⟩

theorem along_of_forall {ok : σ → ε → Prop} (h : ∀ s e, ok s e) (s : σ) (es : List ε) :
    Along step ok s es := along_of_mem step (fun e _ s => h s e) s

theorem Along.and {ok ok' : σ → ε → Prop} {s : σ} {es : List ε} (h : Along step ok s es)
    (h' : Along step ok' s es) : Along step (fun s e => ok s e ∧ ok' s e) s es := by
  induction es generalizing s with
  | nil => trivial
  | cons e es ih => exact ⟨⟨h.1, h'.1⟩, fun t ht => ih (h.2 t ht) (h'.2 t ht)⟩

/-- The invariant rule for a system all of whose steps are allowed. -/
theorem run_preserves {P : σ → Prop} (hstep : ∀ s e s', P s → step s e = some s' → P s')
    {s s' : σ} {es : List ε} (hrun : run step s es = some s') (hs : P s) : P s' := by
  have hok : Along step (fun _ _ => True) s es := along_of_forall step (fun _ _ => trivial) s es
  exact run_invariant step (fun s e s' hp _ h => hstep s e s' hp h) hok hrun hs

/-- A run whose steps all lower a measure is no longer than the measure at its start. -/
theorem run_bounded {P : σ → Prop} {μ : σ → ℕ}
    (hstep : ∀ s e s', P s → step s e = some s' → P s' ∧ μ s' < μ s) {s s' : σ} {es : List ε}
    (hrun : run step s es = some s') (hs : P s) : es.length + μ s' ≤ μ s := by
  induction es generalizing s with
  | nil =>
    cases hrun
    simp
  | cons e es ih =>
    obtain ⟨t, ht, hrest⟩ := run_cons_some step hrun
    obtain ⟨hp, hlt⟩ := hstep s e t hs ht
    have hle := ih hrest hp
    rw [List.length_cons]
    omega

theorem Along.imp {ok ok' : σ → ε → Prop} (h : ∀ s e, ok s e → ok' s e) {s : σ} {es : List ε}
    (ha : Along step ok s es) : Along step ok' s es := by
  induction es generalizing s with
  | nil => trivial
  | cons e es ih => exact ⟨h s e ha.1, fun t ht => ih (ha.2 t ht)⟩

/-- All steps are allowed when each is, behind the events before it. -/
theorem along_iff {ok : σ → ε → Prop} {s : σ} {es : List ε} : Along step ok s es ↔
    ∀ es₁ e t, es₁ ++ [e] <+: es → run step s es₁ = some t → ok t e := by
  induction es generalizing s with
  | nil =>
    refine iff_of_true trivial fun es₁ e t hpre => ?_
    exact absurd (List.prefix_nil.mp hpre) (List.append_ne_nil_of_right_ne_nil es₁ (List.cons_ne_nil e []))
  | cons e es ih =>
    constructor
    · rintro ⟨hok, hall⟩ es₁ e₁ t hpre hrun
      cases es₁ with
      | nil =>
        obtain ⟨rfl, -⟩ := List.cons_prefix_cons.mp hpre
        cases hrun
        exact hok
      | cons e₂ es₁ =>
        obtain ⟨rfl, hrest⟩ := List.cons_prefix_cons.mp hpre
        obtain ⟨u, hu, hrun⟩ := run_cons_some step hrun
        exact ih.mp (hall u hu) es₁ e₁ t hrest hrun
    · intro h
      refine ⟨h [] e s (List.cons_prefix_cons.mpr ⟨rfl, List.nil_prefix⟩) rfl, fun u hu => ?_⟩
      refine ih.mpr fun es₁ e₁ t hpre hrun => ?_
      refine h (e :: es₁) e₁ t (List.cons_prefix_cons.mpr ⟨rfl, hpre⟩) ?_
      rw [run_cons, Option.mem_def.mp hu]
      exact hrun

theorem Along.shorter {ok : σ → ε → Prop} {s : σ} {es es' : List ε} (h : Along step ok s es)
    (hpre : es' <+: es) : Along step ok s es' :=
  (along_iff step).mpr fun es₁ e t hpre' hrun => (along_iff step).mp h es₁ e t (hpre'.trans hpre) hrun

/-- A run whose steps are not all allowed comes to one that is not. -/
theorem exists_not_along {ok : σ → ε → Prop} {s s' : σ} {es : List ε} (hrun : run step s es = some s')
    (h : ¬Along step ok s es) : ∃ es₁ e es₂ t u, run step s es₁ = some t ∧ ¬ok t e ∧
      step t e = some u ∧ run step u es₂ = some s' := by
  induction es generalizing s with
  | nil => exact absurd trivial h
  | cons e es ih =>
    obtain ⟨t, ht, hrest⟩ := run_cons_some step hrun
    by_cases hok : ok s e
    · have hnot : ¬Along step ok t es := by
        refine fun hall => h ⟨hok, fun t' ht' => ?_⟩
        rw [Option.mem_def, ht, Option.some.injEq] at ht'
        exact ht' ▸ hall
      obtain ⟨es₁, e', es₂, t', u, hrun₁, hbad, hstep, hrun₂⟩ := ih hrest hnot
      refine ⟨e :: es₁, e', es₂, t', u, ?_, hbad, hstep, hrun₂⟩
      rw [run_cons, ht]
      exact hrun₁
    · exact ⟨[], e, es, s, t, rfl, hok, ht, hrest⟩

/-! ## Exact conditions -/

theorem reached_cons {P : σ → Prop} {s t : σ} {e : ε} {es : List ε} (h : step s e = some t) :
    (∀ es₁ s₁, es₁ <+: e :: es → run step s es₁ = some s₁ → P s₁) ↔
      P s ∧ ∀ es₁ s₁, es₁ <+: es → run step t es₁ = some s₁ → P s₁ := by
  constructor
  · intro hall
    refine ⟨hall [] s List.nil_prefix rfl, fun es₁ s₁ hpre hrun => ?_⟩
    refine hall (e :: es₁) s₁ (List.cons_prefix_cons.mpr ⟨rfl, hpre⟩) ?_
    rw [run_cons, h]
    exact hrun
  · rintro ⟨hs, hall⟩ es₁ s₁ hpre hrun
    cases es₁ with
    | nil =>
      cases hrun
      exact hs
    | cons e₁ es₁ =>
      obtain ⟨rfl, hrest⟩ := List.cons_prefix_cons.mp hpre
      rw [run_cons, h] at hrun
      exact hall es₁ s₁ hrest hrun

/-- When a step keeps `P` exactly if it is allowed, `P` holds in every state of a run exactly if all
of its steps are allowed; `J` is what each step keeps as long as `P` holds. -/
theorem reached_iff_along_of {J P : σ → Prop} {ok : σ → ε → Prop}
    (hkeep : ∀ s e s', J s → P s → step s e = some s' → J s')
    (hstep : ∀ s e s', J s → P s → step s e = some s' → (P s' ↔ ok s e)) {s s' : σ} {es : List ε}
    (hj : J s) (hs : P s) (hrun : run step s es = some s') :
    (∀ es₁ s₁, es₁ <+: es → run step s es₁ = some s₁ → P s₁) ↔ Along step ok s es := by
  induction es generalizing s with
  | nil =>
    refine ⟨fun _ => trivial, fun _ es₁ s₁ hpre h => ?_⟩
    rw [List.prefix_nil.mp hpre] at h
    cases h
    exact hs
  | cons e es ih =>
    obtain ⟨t, ht, hrest⟩ := run_cons_some step hrun
    have hP := hstep s e t hj hs ht
    have hJ := hkeep s e t hj hs ht
    rw [reached_cons step ht]
    constructor
    · rintro ⟨_, hall⟩
      have htP : P t := hall [] t List.nil_prefix rfl
      refine ⟨hP.mp htP, fun t' ht' => ?_⟩
      rw [Option.mem_def, ht, Option.some.injEq] at ht'
      exact ht' ▸ (ih hJ htP hrest).mp hall
    · rintro ⟨hok, hall⟩
      exact ⟨hs, (ih hJ (hP.mpr hok) hrest).mpr (hall t ht)⟩

theorem reached_iff_along {P : σ → Prop} {ok : σ → ε → Prop}
    (hstep : ∀ s e s', P s → step s e = some s' → (P s' ↔ ok s e)) {s s' : σ} {es : List ε}
    (hs : P s) (hrun : run step s es = some s') :
    (∀ es₁ s₁, es₁ <+: es → run step s es₁ = some s₁ → P s₁) ↔ Along step ok s es :=
  reached_iff_along_of step (J := fun _ => True) (fun _ _ _ _ _ _ => trivial)
    (fun s e s' _ => hstep s e s') trivial hs hrun

end Runs

/-! ## Simulation -/

/-- A run of one system is a run of another, seen through `f`, when each of its steps is one of the
other's steps or none; `J` is an invariant of the first. -/
theorem run_simulates {σ ε τ δ : Type*} (step : σ → ε → Option σ) (step' : τ → δ → Option τ) (f : σ → τ)
    {J : σ → Prop} (hkeep : ∀ s e s', J s → step s e = some s' → J s')
    (hsim : ∀ s e s', J s → step s e = some s' → f s' = f s ∨ ∃ d, step' (f s) d = some (f s'))
    {s s' : σ} {es : List ε} (hs : J s) (hrun : run step s es = some s') :
    ∃ ds, run step' (f s) ds = some (f s') := by
  induction es generalizing s with
  | nil =>
    cases hrun
    exact ⟨[], rfl⟩
  | cons e es ih =>
    obtain ⟨t, ht, hrest⟩ := run_cons_some step hrun
    obtain ⟨ds, hds⟩ := ih (hkeep s e t hs ht) hrest
    rcases hsim s e t hs ht with hsame | ⟨d, hd⟩
    · exact ⟨ds, hsame ▸ hds⟩
    · refine ⟨d :: ds, ?_⟩
      rw [run_cons, hd]
      exact hds

/-- Step by step, with the same events: as long as its steps are allowed, a run of one system is one of another. -/
theorem run_follows {σ τ ε : Type*} (step : σ → ε → Option σ) (step' : τ → ε → Option τ) (f : σ → τ)
    {J : σ → Prop} {ok : σ → ε → Prop}
    (hstep : ∀ s e s', J s → ok s e → step s e = some s' → J s' ∧ step' (f s) e = some (f s'))
    {s s' : σ} {es : List ε} (hs : J s) (hok : Along step ok s es) (hrun : run step s es = some s') :
    J s' ∧ run step' (f s) es = some (f s') := by
  induction es generalizing s with
  | nil =>
    cases hrun
    exact ⟨hs, rfl⟩
  | cons e es ih =>
    obtain ⟨t, ht, hrest⟩ := run_cons_some step hrun
    obtain ⟨hkeep, hsim⟩ := hstep s e t hs hok.1 ht
    obtain ⟨hlast, hfollow⟩ := ih hkeep (hok.2 t ht) hrest
    refine ⟨hlast, ?_⟩
    rw [run_cons, hsim]
    exact hfollow

end Dcl.Transition
