import Dcl.Foundations.Loop
import Dcl.Odbc.Execution

/-! # Result sets

The field list that `execute` returns, and the values of its columns.

`retrieve_metadata` appends the columns of a result set to the list of the object, which nothing clears, and
takes their names from a buffer of 256 bytes. `get_field` puts a value together from the pieces that
`SQLGetData` delivers in such a buffer. -/
namespace Dcl.Odbc
set_option autoImplicit false

/-! ## The columns of a result set -/

/-- The columns of the result set that the driver describes, with their numbers from 0 on and their names. -/
def Answers.columns (a : Answers) : List Field :=
  (List.range a.columnCount).map fun i : ℕ => ⟨(i : ℤ), (a.describeCol (i + 1)).2⟩

/-- A column name that the buffer holds. -/
def fits (name : Bytes) : Bool := decide (name.length ≤ 255) && !name.contains 0

theorem colName_eq_iff {name : Bytes} : colName name = name ↔ fits name = true := by
  simp only [fits, Bool.and_eq_true, decide_eq_true_eq, Bool.not_eq_true', List.contains_eq_mem,
    decide_eq_false_iff_not]
  constructor
  · intro h
    have hlen := (List.takeWhile_sublist (l := name.take 255) (· != 0)).length_le
    rw [colName, cString] at h
    rw [h, List.length_take] at hlen
    refine ⟨by omega, ?_⟩
    rw [← h]
    exact nul_notMem_cString (name.take 255)
  · rintro ⟨hlen, hnul⟩
    rw [colName, List.take_of_length_le hlen, cString_eq_self hnul]

section Metadata
variable {a : Answers} {q : Query}

/-- The fields that the loop of `retrieve_metadata` adds for the columns from `i` on. -/
def described (a : Answers) (n i : ℕ) : List Field :=
  (List.range n).map fun j => ⟨((i + j : ℕ) : ℤ) - 1, colName (a.describeCol (i + j)).2⟩

theorem described_succ (a : Answers) (n i : ℕ) :
    described a (n + 1) i = ⟨(i : ℤ) - 1, colName (a.describeCol i).2⟩ :: described a n (i + 1) := by
  rw [described, List.range_succ_eq_map, List.map_cons, List.map_map]
  refine congrArg₂ _ rfl (List.map_congr_left fun j _ => ?_)
  rw [Function.comp_apply, show i + j.succ = i + 1 + j by omega]

theorem describeCols_ok {n i : ℕ} {fields : List Field} (h : (describeCols a n i fields).2.isOk = true) :
    (describeCols a n i fields).1 = fields ++ described a n i := by
  induction n generalizing i fields with
  | zero => rw [describeCols, described, List.range_zero, List.map_nil, List.append_nil]
  | succ n ih =>
    rw [describeCols] at h ⊢
    split at h
    next hcol =>
      rw [if_pos hcol, ih h, described_succ, List.append_assoc, List.singleton_append]
    next => cases h

/-- A call that returns the list has added the columns to it. -/
theorem executed_ok {r : SqlReturn} {fs : List Field} (h : (q.executed a r).2 = .ok fs) :
    fs = q.fields ++ described a a.columnCount 1 := by
  unfold Query.executed Query.retrieveMetadata at h
  split_ifs at h with hr hcols
  · dsimp only at h
    rcases hd : (describeCols a a.columnCount 1 q.fields).2 with e | u
    · rw [hd] at h
      cases h
    · rw [hd] at h
      rw [← Except.ok.inj h]
      exact describeCols_ok (by rw [hd]; rfl)
  · cases h

theorem described_eq_columns_iff :
    described a a.columnCount 1 = a.columns ↔ ∀ f ∈ a.columns, fits f.name = true := by
  simp only [described, Answers.columns, List.map_inj_left, List.forall_mem_map, Field.mk.injEq,
    ← colName_eq_iff]
  refine forall₂_congr fun i _ => ?_
  rw [Nat.add_comm 1 i]
  exact and_iff_right (by omega)

/-- The list is that of the result set exactly when it was empty before and every name fits the buffer. -/
theorem executed_eq_columns_iff {r : SqlReturn} {fs : List Field} (h : (q.executed a r).2 = .ok fs) :
    fs = a.columns ↔ q.fields = [] ∧ ∀ f ∈ a.columns, fits f.name = true := by
  rw [executed_ok h, ← described_eq_columns_iff]
  constructor
  · intro heq
    have hlen := congrArg List.length heq
    simp only [List.length_append, described, Answers.columns, List.length_map, List.length_range] at hlen
    have hnil : q.fields = [] := List.eq_nil_of_length_eq_zero (by omega)
    rw [hnil, List.nil_append] at heq
    exact ⟨hnil, heq⟩
  · rintro ⟨hnil, heq⟩
    rw [hnil, heq, List.nil_append]

end Metadata

/-! ## Histories -/

/-- The object, and what the last call returned beside the columns of its result set, if it returned a list. -/
abbrev History := Query × Option (List Field × List Field)

def historyStep (s : History) (e : Answers × Call) : Option History :=
  (s.1.call e.1 e.2).map fun r =>
    (r.1, match r.2 with
      | .ok (some fs) => some (fs, e.1.columns)
      | _ => none)

/-- The list that was returned is that of the result set. -/
def Described (s : History) : Prop := ∀ r ∈ s.2, r.1 = r.2

/-- A call that returns a list finds the list of the object empty, and every name fits the buffer. -/
def describesFirst (s : History) (e : Answers × Call) : Bool :=
  match s.1.call e.1 e.2 with
  | some (_, .ok (some _)) => s.1.fields.isEmpty && e.1.columns.all fun f => fits f.name
  | _ => true

theorem map_eq_ok {ε α β : Type} {f : α → β} {x : Except ε α} {y : β} (h : x.map f = .ok y) :
    ∃ z, x = .ok z ∧ f z = y := by
  cases x with
  | error e => cases h
  | ok z => exact ⟨z, rfl, Except.ok.inj h⟩

/-- A list is returned by what `execute` does behind the statement. -/
theorem call_returns {q q' : Query} {a : Answers} {c : Call} {fs : List Field}
    (h : q.call a c = some (q', .ok (some fs))) : ∃ r, (q.executed a r).2 = .ok fs := by
  cases c with
  | prepare statement =>
    obtain ⟨r, -, hr⟩ := Option.map_eq_some_iff.mp h
    obtain ⟨z, -, hz⟩ := map_eq_ok (Prod.mk.inj hr).2
    cases hz
  | put value =>
    obtain ⟨z, -, hz⟩ := map_eq_ok (Prod.mk.inj (Option.some.inj h)).2
    cases hz
  | flush =>
    obtain ⟨z, -, hz⟩ := map_eq_ok (Prod.mk.inj (Option.some.inj h)).2
    cases hz
  | execute =>
    obtain ⟨z, hexec, hz⟩ := map_eq_ok (Prod.mk.inj (Option.some.inj h)).2
    rw [Option.some.inj hz] at hexec
    unfold Query.execute at hexec
    split at hexec
    · exact ⟨a.execute, hexec⟩
    · cases hexec
  | executeStatement statement =>
    obtain ⟨z, hexec, hz⟩ := map_eq_ok (Prod.mk.inj (Option.some.inj h)).2
    rw [Option.some.inj hz] at hexec
    exact ⟨a.execDirect (cString statement), hexec⟩

theorem described_step {s s' : History} {e : Answers × Call} (h : historyStep s e = some s') :
    Described s' ↔ describesFirst s e = true := by
  obtain ⟨⟨q', r⟩, hcall, rfl⟩ := Option.map_eq_some_iff.mp h
  unfold describesFirst Described
  rw [hcall]
  rcases r with e' | _ | fs
  · simp
  · simp
  · obtain ⟨r, hr⟩ := call_returns hcall
    simpa using executed_eq_columns_iff hr

/-- In every state of a run the list that the last call returned is that of its result set, if and only if
every call that returns a list finds the list of the object empty and column names of at most 255 bytes
without a NUL. -/
theorem result_sets_described_iff {es : List (Answers × Call)} {s : History}
    (hrun : Transition.run historyStep (Query.new, none) es = some s) :
    (∀ es₁ s₁, es₁ <+: es → Transition.run historyStep (Query.new, none) es₁ = some s₁ → Described s₁) ↔
      Transition.Along historyStep (fun s e => describesFirst s e = true) (Query.new, none) es :=
  Transition.reached_iff_along historyStep (fun _ _ _ _ h => described_step h) nofun hrun

namespace Sample

/-- A driver that accepts everything and whose result sets have these columns. -/
def describing (names : List Bytes) : Answers where
  prepare _ := .success
  bindParameter _ _ := .success
  execute := .success
  execDirect _ := .success
  numResultCols := (.success, Int16.ofNat names.length)
  describeCol i := (.success, names.getD (i - 1) [])
  diagnostics := []

/-- A statement without a result set, one that is refused, and one with two columns. -/
def selectOnce : List (Answers × Call) :=
  [(describing [], .executeStatement (ascii "create table t (id int, v text)")),
    ({ describing [ascii "id"] with execDirect := fun _ => .error }, .executeStatement (ascii "select")),
    (describing [], .prepare (ascii "select id, v from t")), (describing [ascii "id", ascii "v"], .execute)]

def selectTwice : List (Answers × Call) :=
  [(describing [ascii "id"], .executeStatement (ascii "select id from t")),
    (describing [ascii "v"], .executeStatement (ascii "select v from t"))]

end Sample

theorem result_sets_described_once :
    ∃ s, Transition.run historyStep (Query.new, none) Sample.selectOnce = some s ∧
      s.2 = some ([⟨0, ascii "id"⟩, ⟨1, ascii "v"⟩], [⟨0, ascii "id"⟩, ⟨1, ascii "v"⟩]) ∧ Described s := by
  refine ⟨_, rfl, rfl, ?_⟩
  exact (@result_sets_described_iff Sample.selectOnce _ rfl).mpr (by decide +kernel) _ _ List.prefix_rfl rfl

/-- The second of two selects with one column each returns two fields. -/
theorem result_sets_accumulate :
    ∃ s, Transition.run historyStep (Query.new, none) Sample.selectTwice = some s ∧
      s.2 = some ([⟨0, ascii "id"⟩, ⟨0, ascii "v"⟩], [⟨0, ascii "v"⟩]) ∧ ¬Described s := by
  refine ⟨_, rfl, rfl, fun h => ?_⟩
  exact absurd (h _ rfl) (by decide)

/-! ## The value of a column -/

/-- What one `SQLGetData` returns: the bytes before the terminating NUL in the buffer, and the indicator. -/
structure Piece where
  ret : SqlReturn
  data : Bytes
  size : ℤ

/-- `SQL_NO_TOTAL`. -/
def noTotal : ℤ := -4

/-- The variables of `get_field`, and the state of the driver. -/
structure GetField (σ : Type) where
  driver : σ
  buffer : Bytes
  s : Bytes

section GetField
variable {σ : Type} (sqlGetData : σ → Piece × σ) (diagnostics : Bytes)

/-- One pass of the loop of `get_field`. -/
def getFieldPass (x : GetField σ) : GetField σ ⊕ Except Thrown Bytes :=
  let p := (sqlGetData x.driver).1
  if p.ret = .noData then .inr (.ok x.s)
  else if p.ret = .error then
    .inr (.error (.queryException (ascii "Can't retrieve data for column: " ++ diagnostics)))
  else
    let buffer := p.data ++ 0 :: x.buffer.drop (p.data.length + 1)
    if p.ret = .success then .inr (.ok (x.s ++ buffer.take p.size.toNat))
    else
      let numBytes := toInt32 (if 255 < p.size ∨ p.size = noTotal then 255 else p.size)
      .inl ⟨(sqlGetData x.driver).2, buffer, x.s ++ buffer.take numBytes.toNat⟩

/-- `get_field` within a number of calls of `SQLGetData`; the buffer is not initialised. -/
def getField (calls : ℕ) (driver : σ) (buffer : Bytes) : Option (Except Thrown Bytes) :=
  Loop.loop (getFieldPass sqlGetData diagnostics) calls ⟨driver, buffer, []⟩

/-- `SQLGetData` as it is documented, with a buffer of 256 bytes: `holds` says which bytes of the value are
left, or that all were delivered. While they do not fit the buffer, the indicator is their number or
`SQL_NO_TOTAL`. -/
structure Conforms (holds : σ → Option Bytes → Prop) : Prop where
  more : ∀ d v, holds d (some v) → 255 < v.length →
    (sqlGetData d).1.ret = .successWithInfo ∧ (sqlGetData d).1.data = v.take 255 ∧
      ((sqlGetData d).1.size = v.length ∨ (sqlGetData d).1.size = noTotal) ∧
      holds (sqlGetData d).2 (some (v.drop 255))
  last : ∀ d v, holds d (some v) → v.length ≤ 255 →
    (sqlGetData d).1 = ⟨.success, v, v.length⟩ ∧ holds (sqlGetData d).2 none
  ended : ∀ d, holds d none → (sqlGetData d).1.ret = .noData

variable {sqlGetData} {holds : σ → Option Bytes → Prop}

theorem getFieldPass_last (hd : Conforms sqlGetData holds) {x : GetField σ} {v : Bytes}
    (hx : holds x.driver (some v)) (hv : v.length ≤ 255) :
    getFieldPass sqlGetData diagnostics x = .inr (.ok (x.s ++ v)) := by
  obtain ⟨hp, -⟩ := hd.last x.driver v hx hv
  unfold getFieldPass
  rw [hp]
  simp

theorem getFieldPass_more (hd : Conforms sqlGetData holds) {x : GetField σ} {v : Bytes}
    (hx : holds x.driver (some v)) (hv : 255 < v.length) :
    ∃ driver buffer, holds driver (some (v.drop 255)) ∧
      getFieldPass sqlGetData diagnostics x = .inl ⟨driver, buffer, x.s ++ v.take 255⟩ := by
  obtain ⟨hret, hdata, hsize, hnext⟩ := hd.more x.driver v hx hv
  refine ⟨(sqlGetData x.driver).2, v.take 255 ++ 0 :: x.buffer.drop ((v.take 255).length + 1), hnext, ?_⟩
  have hbytes : (if 255 < (sqlGetData x.driver).1.size ∨ (sqlGetData x.driver).1.size = noTotal then
      (255 : ℤ) else (sqlGetData x.driver).1.size) = 255 := by
    rcases hsize with hsize | hsize
    · rw [if_pos (.inl (by omega))]
    · rw [if_pos (.inr hsize)]
  have htake : (v.take 255 ++ 0 :: x.buffer.drop ((v.take 255).length + 1)).take (toInt32 255).toNat =
      v.take 255 := by
    have hlen : (toInt32 255).toNat = (v.take 255).length := by
      rw [List.length_take, Nat.min_eq_left (by omega)]
      decide
    rw [hlen, List.take_left]
  unfold getFieldPass
  simp only [hret, hbytes, hdata, htake, reduceCtorEq, if_false]

/-- What is left to read stands behind what was read. -/
theorem loop_getFieldPass (hd : Conforms sqlGetData holds) {calls : ℕ} {x : GetField σ} {rest : Bytes}
    (hx : holds x.driver (some rest)) (hcalls : rest.length < calls) :
    Loop.loop (getFieldPass sqlGetData diagnostics) calls x = some (.ok (x.s ++ rest)) := by
  induction calls generalizing x rest with
  | zero => omega
  | succ calls ih =>
    rw [Loop.loop]
    by_cases hshort : rest.length ≤ 255
    · rw [getFieldPass_last diagnostics hd hx hshort]
    · obtain ⟨driver, buffer, hnext, hpass⟩ := getFieldPass_more diagnostics hd hx (by omega)
      have hlen : (rest.drop 255).length < calls := by
        rw [List.length_drop]
        omega
      rw [hpass]
      dsimp only
      rw [@ih ⟨driver, buffer, x.s ++ rest.take 255⟩ _ hnext hlen, List.append_assoc, List.take_append_drop]

/-- Whatever the indicators are, `get_field` puts the whole value together, after finitely many calls. -/
theorem get_field_whole (hd : Conforms sqlGetData holds) {driver : σ} {v : Bytes}
    (hv : holds driver (some v)) (buffer : Bytes) :
    ∃ n, ∀ calls, n ≤ calls → getField sqlGetData diagnostics calls driver buffer = some (.ok v) :=
  ⟨v.length + 1, fun _ hcalls => loop_getFieldPass diagnostics hd hv (by omega)⟩

end GetField

namespace Sample

/-- A driver that says how much is left as long as it has said so less than twice, and then does not. -/
def sqlGetData (d : ℕ × Option Bytes) : Piece × (ℕ × Option Bytes) :=
  match d.2 with
  | none => (⟨.noData, [], 0⟩, d)
  | some v =>
      if 255 < v.length then
        (⟨.successWithInfo, v.take 255, if d.1 < 2 then (v.length : ℤ) else noTotal⟩,
          (d.1 + 1, some (v.drop 255)))
      else (⟨.success, v, v.length⟩, (d.1, none))

theorem sqlGetData_conforms : Conforms sqlGetData fun d r => d.2 = r where
  more := by
    rintro ⟨n, _⟩ v rfl hlen
    simp only [sqlGetData, if_pos hlen, true_and, and_true]
    split
    · exact .inl rfl
    · exact .inr rfl
  last := by
    rintro ⟨n, _⟩ v rfl hlen
    simp only [sqlGetData, if_neg (Nat.not_lt.mpr hlen), and_true]
  ended := by
    rintro ⟨n, _⟩ rfl
    rfl

end Sample

theorem get_field_long : ∃ n, ∀ calls, n ≤ calls →
    getField Sample.sqlGetData [] calls (0, some (List.replicate 1021 65)) [] =
      some (.ok (List.replicate 1021 65)) :=
  get_field_whole [] Sample.sqlGetData_conforms rfl []

end Dcl.Odbc
