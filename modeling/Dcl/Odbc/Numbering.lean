import Dcl.Odbc.Execution

/-! # The numbers of parameters

`operator<<` assigns the values it is given to the parameters one after the other. The counter `_prmcnt` is
set back to zero by a `flush` whose execution returns, and by nothing else: not by `prepare`, and not by a
`flush` that throws. -/
namespace Dcl.Odbc
set_option autoImplicit false

/-- The parameters after the one with the number `k`, if there is one, was given a value. -/
def assignParameter (ps : List Parameter) (k : ℕ) (v : Bytes) : List Parameter :=
  ps.modify k fun p => { p with value := v }

/-- The number of values given since the last `prepare` or `flush`. -/
def Call.given (n : ℕ) : Call → ℕ
  | .prepare _ => 0
  | .flush => 0
  | .put _ => n + 1
  | .execute => n
  | .executeStatement _ => n

/-- The object, and the number of values that its statement was given. -/
abbrev Session := Query × ℕ

def sessionStep (s : Session) (e : Answers × Call) : Option Session :=
  (s.1.call e.1 e.2).map fun r => (r.1, e.2.given s.2)

/-- The next value is assigned to the parameter whose number is the number of values given before it. -/
def Numbered (s : Session) : Prop :=
  ∀ v, (s.1.put v).1.parameters = assignParameter s.1.parameters s.2 v

/-- A `prepare`, and a `flush` that throws, find the counter at zero, or the statement has no parameter; and
the counter does not overflow before the last parameter. -/
def restarts (s : Session) : Answers × Call → Bool
  | (_, .prepare statement) => s.1.prmcnt == 0 || (parse statement).all fun r => r.2.isEmpty
  | (a, .flush) => (s.1.execute a).2.isOk || s.1.prmcnt == 0 || s.1.parameters.isEmpty
  | (_, .put _) => s.1.prmcnt != 2 ^ 31 - 1 || decide (s.1.parameters.length ≤ 2 ^ 31)
  | (_, .execute) => true
  | (_, .executeStatement _) => true

/-! ## Slots -/

/-- The parameter that the counter stands at. -/
def slot (prmcnt : ℤ) (length : ℕ) : Option ℕ :=
  if 0 ≤ prmcnt ∧ prmcnt < length then some prmcnt.toNat else none

theorem slot_eq_some {c : ℤ} {n k : ℕ} (h : slot c n = some k) : c = k ∧ k < n := by
  unfold slot at h
  split at h
  next hin =>
    have hk := Option.some.inj h
    omega
  next => cases h

theorem slot_natCast (k n : ℕ) : slot k n = if k < n then some k else none := by
  unfold slot
  by_cases h : k < n
  · rw [if_pos ⟨by omega, by omega⟩, if_pos h, Int.toNat_natCast]
  · rw [if_neg (by omega), if_neg h]

theorem put_eq (q : Query) (v : Bytes) : (q.put v).1 =
    match slot q.prmcnt q.parameters.length with
    | some k => { q with parameters := assignParameter q.parameters k v, prmcnt := toInt32 (q.prmcnt + 1) }
    | none => q := by
  unfold Query.put Query.setParameter slot
  by_cases h : 0 ≤ q.prmcnt ∧ q.prmcnt < q.parameters.length
  · rw [if_pos h, if_pos h]
    rfl
  · rw [if_neg h, if_neg h]

/-- Different values show which parameter they are assigned to. -/
theorem assignParameter_inj {ps : List Parameter} {j k : ℕ}
    (h : ∀ v, assignParameter ps j v = assignParameter ps k v) (hj : j < ps.length) : j = k := by
  by_contra hne
  have hv := congrArg (fun l => l[j]?) (h (ps[j].value ++ [0]))
  simp only [assignParameter, List.getElem?_modify, if_neg (Ne.symm hne), if_true,
    List.getElem?_eq_getElem hj, Option.map_eq_map, Option.map_some, Option.some.injEq] at hv
  have hvalue := congrArg Parameter.value hv
  simp at hvalue

theorem assignParameter_of_le {ps : List Parameter} {k : ℕ} (h : ps.length ≤ k) (v : Bytes) :
    assignParameter ps k v = ps := List.modify_eq_self h

theorem numbered_iff {q : Query} {n : ℕ} :
    Numbered (q, n) ↔ slot q.prmcnt q.parameters.length = slot n q.parameters.length := by
  have hput : Numbered (q, n) ↔ ∀ v, assignParameter q.parameters
      ((slot q.prmcnt q.parameters.length).getD q.parameters.length) v = assignParameter q.parameters n v := by
    refine forall_congr' fun v => ?_
    rw [put_eq]
    cases slot q.prmcnt q.parameters.length with
    | some k => rfl
    | none => rw [Option.getD_none, assignParameter_of_le le_rfl]
  rw [hput, slot_natCast]
  constructor
  · intro h
    by_cases hn : n < q.parameters.length
    · rw [if_pos hn]
      have hk := assignParameter_inj (fun v => (h v).symm) hn
      cases hs : slot q.prmcnt q.parameters.length with
      | some k =>
        rw [hs] at hk
        exact congrArg some hk.symm
      | none =>
        rw [hs, Option.getD_none] at hk
        omega
    · rw [if_neg hn]
      cases hs : slot q.prmcnt q.parameters.length with
      | some k =>
        rw [hs, Option.getD_some] at h
        have := (slot_eq_some hs).2
        have := assignParameter_inj h this
        omega
      | none => rfl
  · intro h v
    rw [h]
    by_cases hn : n < q.parameters.length
    · rw [if_pos hn, Option.getD_some]
    · rw [if_neg hn, Option.getD_none, assignParameter_of_le le_rfl, assignParameter_of_le (by omega)]

/-! ## Steps -/

/-- The counter stands at parameter zero, or there is none. -/
theorem slot_eq_slot_zero {c : ℤ} {n : ℕ} : slot c n = slot (0 : ℕ) n ↔ c = 0 ∨ n = 0 := by
  rw [slot_natCast]
  constructor
  · intro h
    by_cases hn : 0 < n
    · rw [if_pos hn] at h
      exact .inl (slot_eq_some h).1
    · exact .inr (by omega)
  · rintro (rfl | rfl)
    · exact slot_natCast 0 n
    · simp [slot]

/-- The counter behind parameter `k`. -/
theorem slot_succ {k n : ℕ} (hk : k < n) (hint : (k : ℤ) < 2 ^ 31) :
    slot (toInt32 ((k : ℤ) + 1)) n = slot ((k + 1 : ℕ) : ℤ) n ↔ (k : ℤ) ≠ 2 ^ 31 - 1 ∨ n ≤ 2 ^ 31 := by
  by_cases hmax : (k : ℤ) = 2 ^ 31 - 1
  · have hwrap : toInt32 ((k : ℤ) + 1) = -2 ^ 31 := by
      rw [hmax]
      decide
    rw [hwrap, slot_natCast, slot, if_neg (by omega)]
    by_cases hn : n ≤ 2 ^ 31
    · rw [if_neg (by omega)]
      exact iff_of_true rfl (.inr hn)
    · rw [if_pos (by omega)]
      exact iff_of_false (Option.some_ne_none _).symm fun h => h.elim (fun h => h hmax) hn
  · have hnext : toInt32 ((k : ℤ) + 1) = ((k + 1 : ℕ) : ℤ) := by
      have hlt := toInt32_of_lt (by omega : k + 1 < 2 ^ 31)
      rw [Nat.cast_succ] at hlt ⊢
      exact hlt
    rw [hnext]
    exact iff_of_true rfl (.inl hmax)

theorem put_numbered {q : Query} {n : ℕ} (hint : q.prmcnt < 2 ^ 31) (hs : Numbered (q, n)) (v : Bytes) :
    Numbered ((q.put v).1, n + 1) ↔ q.prmcnt ≠ 2 ^ 31 - 1 ∨ q.parameters.length ≤ 2 ^ 31 := by
  rw [numbered_iff, slot_natCast] at hs
  rw [numbered_iff, put_eq]
  by_cases hn : n < q.parameters.length
  · rw [if_pos hn] at hs
    obtain ⟨hc, -⟩ := slot_eq_some hs
    rw [hs]
    simp only [assignParameter, List.length_modify, hc]
    exact slot_succ hn (hc ▸ hint)
  · -- no parameter is left: the value is refused
    rw [if_neg hn] at hs
    rw [hs]
    dsimp only
    rw [slot_natCast, if_neg (by omega)]
    refine iff_of_true hs ?_
    by_contra hbad
    rw [not_or, not_not] at hbad
    rw [slot, if_pos (by omega)] at hs
    cases hs

theorem sessionStep_cases {s s' : Session} {e : Answers × Call} (h : sessionStep s e = some s') :
    ∃ r, s.1.call e.1 e.2 = some r ∧ s' = (r.1, e.2.given s.2) := by
  obtain ⟨r, hr, rfl⟩ := Option.map_eq_some_iff.mp h
  exact ⟨r, hr, rfl⟩

/-- The counter stays an `int`. -/
theorem prmcnt_step {s s' : Session} {e : Answers × Call} (hint : s.1.prmcnt < 2 ^ 31)
    (h : sessionStep s e = some s') : s'.1.prmcnt < 2 ^ 31 := by
  obtain ⟨a, c⟩ := e
  obtain ⟨r, hr, rfl⟩ := sessionStep_cases h
  cases c with
  | prepare statement =>
    obtain ⟨r₁, hr₁, rfl⟩ := Option.map_eq_some_iff.mp hr
    obtain ⟨r₂, -, rfl⟩ := Option.map_eq_some_iff.mp hr₁
    exact hint
  | put value =>
    rw [← Option.some.inj hr]
    change (s.1.put value).1.prmcnt < 2 ^ 31
    rw [put_eq]
    split
    · exact toInt32_lt _
    · exact hint
  | flush =>
    rw [← Option.some.inj hr]
    change (s.1.flush a).1.prmcnt < 2 ^ 31
    rw [flush_frame.2]
    split
    · norm_num
    · exact hint
  | execute =>
    rw [← Option.some.inj hr]
    exact execute_frame.1.trans_lt hint
  | executeStatement statement =>
    rw [← Option.some.inj hr]
    exact (executed_frame _).1.trans_lt hint

theorem numbered_step {s s' : Session} {e : Answers × Call} (hint : s.1.prmcnt < 2 ^ 31) (hs : Numbered s)
    (h : sessionStep s e = some s') : Numbered s' ↔ restarts s e = true := by
  obtain ⟨a, c⟩ := e
  obtain ⟨q, n⟩ := s
  obtain ⟨r, hr, rfl⟩ := sessionStep_cases h
  cases c with
  | prepare statement =>
    obtain ⟨r₁, hr₁, rfl⟩ := Option.map_eq_some_iff.mp hr
    obtain ⟨r₂, hparse, rfl⟩ := Option.map_eq_some_iff.mp hr₁
    simp only [Call.given, numbered_iff, restarts, hparse]
    rw [slot_eq_slot_zero]
    simp
  | put value =>
    rw [← Option.some.inj hr]
    refine (put_numbered hint hs value).trans ?_
    simp [restarts]
  | flush =>
    rw [← Option.some.inj hr]
    simp only [Call.given, numbered_iff, restarts, flush_frame.1, flush_frame.2]
    rw [slot_eq_slot_zero]
    cases (q.execute a).2.isOk <;> simp
  | execute =>
    rw [← Option.some.inj hr]
    refine iff_of_true ?_ rfl
    rw [numbered_iff] at hs
    simpa only [numbered_iff, Call.given, execute_frame.1, execute_frame.2] using hs
  | executeStatement statement =>
    rw [← Option.some.inj hr]
    refine iff_of_true ?_ rfl
    rw [numbered_iff] at hs
    simpa only [numbered_iff, Call.given, Query.executeStatement, (executed_frame _).1, (executed_frame _).2]
      using hs

theorem numbered_new : Numbered (Query.new, 0) := numbered_iff.mpr rfl

/-- In every state of a run the next value is assigned to the parameter whose number is the number of values
given since the last `prepare` or `flush`, if and only if every `prepare` and every `flush` that throws finds
the counter at zero or has no parameter to number, and the counter does not overflow. -/
theorem parameters_numbered_iff {es : List (Answers × Call)} {s : Session}
    (hrun : Transition.run sessionStep (Query.new, 0) es = some s) :
    (∀ es₁ s₁, es₁ <+: es → Transition.run sessionStep (Query.new, 0) es₁ = some s₁ → Numbered s₁) ↔
      Transition.Along sessionStep (fun s e => restarts s e = true) (Query.new, 0) es :=
  Transition.reached_iff_along_of sessionStep (J := fun s => s.1.prmcnt < 2 ^ 31)
    (fun _ _ _ hint _ h => prmcnt_step hint h) (fun _ _ _ hint hs h => numbered_step hint hs h) (by decide)
    numbered_new hrun

namespace Sample

/-- A driver that accepts everything and has no columns. -/
def accepting : Answers where
  prepare _ := .success
  bindParameter _ _ := .success
  execute := .success
  execDirect _ := .success
  numResultCols := (.success, 0)
  describeCol _ := (.error, [])
  diagnostics := []

def refusing : Answers := { accepting with execute := .error }

/-- `insert into t values (?, ?)`, two values and a `flush`, and that again. -/
def insertTwice : List (Answers × Call) :=
  [(accepting, .prepare (ascii "insert into t values (?, ?)")), (accepting, .put (ascii "1")),
    (accepting, .put (ascii "a")), (accepting, .flush), (accepting, .put (ascii "2")),
    (accepting, .put (ascii "b")), (accepting, .flush), (refusing, .flush)]

/-- Two statements, the first of which is abandoned after one value. -/
def abandoned : List (Answers × Call) :=
  [(accepting, .prepare (ascii "?")), (accepting, .put (ascii "1")), (accepting, .prepare (ascii "? ?"))]

/-- A `flush` that throws after one value. -/
def thrown : List (Answers × Call) :=
  [(accepting, .prepare (ascii "? ?")), (accepting, .put (ascii "1")), (refusing, .flush)]

end Sample

theorem parameters_numbered_insert : ∃ s, Transition.run sessionStep (Query.new, 0) Sample.insertTwice = some s ∧
    s.1.parameters = [⟨[], ascii "2"⟩, ⟨[], ascii "b"⟩] ∧ Numbered s := by
  refine ⟨_, rfl, rfl, ?_⟩
  exact (@parameters_numbered_iff Sample.insertTwice _ rfl).mpr (by decide) _ _ List.prefix_rfl rfl

/-- After a statement was abandoned, and after a `flush` that throws, the first value is assigned to the
second parameter. -/
theorem parameters_misnumbered :
    (∃ s, Transition.run sessionStep (Query.new, 0) Sample.abandoned = some s ∧ s.2 = 0 ∧
      (s.1.put (ascii "x")).1.parameters = [⟨[], []⟩, ⟨[], ascii "x"⟩] ∧ ¬Numbered s) ∧
    ∃ s, Transition.run sessionStep (Query.new, 0) Sample.thrown = some s ∧ s.2 = 0 ∧
      (s.1.put (ascii "x")).1.parameters = [⟨[], ascii "1"⟩, ⟨[], ascii "x"⟩] ∧ ¬Numbered s := by
  refine ⟨⟨_, rfl, rfl, rfl, fun h => ?_⟩, _, rfl, rfl, rfl, fun h => ?_⟩
  · exact absurd (h (ascii "x")) (by decide)
  · exact absurd (h (ascii "x")) (by decide)

end Dcl.Odbc
