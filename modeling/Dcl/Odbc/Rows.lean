import Dcl.Foundations.Transition
import Dcl.Odbc.ResultSets

/-! # Reading the rows of a result set

`query::next`, `operator>>`, `get_field` and `field::get_value` of `src/dcl/query.cpp` and `include/dcl/query.h`,
over a driver that delivers the columns in pieces. `Cursor` is what they mean: the rows one after the other, and in
a row the column that is being read. A driver keeps its place in one column only: when another one was read in
between, a column is delivered from its start again, or, by a driver that wants the columns in order, not at all.

`get_field` for a number is the text form with `from_string` behind it. -/
namespace Dcl.Odbc
set_option autoImplicit false

/-! ## The query -/

/-- The driver during the calls on one result set: `SQLFetch`, the SQLSTATE of its diagnostic record, `SQLGetData`
for a column from 1 on, and what the buffer of `get_field` holds at first. -/
structure Driver (σ : Type) where
  fetch : σ → SqlReturn × σ
  sqlState : σ → Bytes
  getData : ℕ → σ → Piece × σ
  buffer : Bytes

inductive ReadAnswer where
  | row (available : Bool)
  | value (v : Bytes)
  | thrown (e : Thrown)
  deriving DecidableEq

/-- Every call has the text that `get_error` would make of the diagnostic record. -/
inductive ReadCall where
  | next (diagnostics : Bytes)
  | extract (diagnostics : Bytes)
  | getField (num : ℤ) (diagnostics : Bytes)

structure Reader (σ : Type) where
  fldcnt : ℤ
  driver : σ
  answers : List ReadAnswer

/-- `num + 1` as the `SQLUSMALLINT` that `SQLGetData` takes. -/
def ordinal (num : ℤ) : ℕ := ((num + 1) % 65536).toNat

def notFetched (diagnostics : Bytes) : Thrown :=
  .queryException (ascii "Can't fetch the data row: " ++ diagnostics)

def notRetrieved (diagnostics : Bytes) : Thrown :=
  .queryException (ascii "Can't retrieve data for column: " ++ diagnostics)

section Query
variable {σ : Type} (d : Driver σ)

/-- `getFieldPass` with the driver that it leaves behind. -/
def retrievePass (column : ℕ) (diagnostics : Bytes) (x : GetField σ) :
    GetField σ ⊕ (Except Thrown Bytes × σ) :=
  match getFieldPass (d.getData column) diagnostics x with
  | .inl y => .inl y
  | .inr r => .inr (r, (d.getData column x.driver).2)

def retrieve (calls : ℕ) (num : ℤ) (diagnostics : Bytes) (s : σ) : Option (Except Thrown Bytes × σ) :=
  Loop.loop (retrievePass d (ordinal num) diagnostics) calls ⟨s, d.buffer, []⟩

def answered : Except Thrown Bytes → ReadAnswer
  | .ok v => .value v
  | .error e => .thrown e

def Driver.next (diagnostics : Bytes) (s : σ) : ReadAnswer × σ :=
  let r := d.fetch s
  if r.1 = .success then (.row true, r.2)
  else if r.1 = .noData then (.row false, r.2)
  else if r.1 = .error ∧ d.sqlState r.2 = ascii "24000" then (.row false, r.2)
  else (.thrown (notFetched diagnostics), r.2)

/-- `none` when the loop of `get_field` does not end within a number of calls of `SQLGetData`. -/
def Reader.step (calls : ℕ) (s : Reader σ) : ReadCall → Option (Reader σ)
  | .next diagnostics =>
      let r := d.next diagnostics s.driver
      some ⟨0, r.2, s.answers ++ [r.1]⟩
  | .extract diagnostics => (retrieve d calls s.fldcnt diagnostics s.driver).map fun r =>
      ⟨if r.1.isOk then toInt32 (s.fldcnt + 1) else s.fldcnt, r.2, s.answers ++ [answered r.1]⟩
  | .getField num diagnostics => (retrieve d calls num diagnostics s.driver).map fun r =>
      ⟨s.fldcnt, r.2, s.answers ++ [answered r.1]⟩

end Query

/-! ## What reading means -/

/-- The columns of a row, with `none` for a null. Their number is a `SQLSMALLINT`; fetching the row may come with a
warning. -/
structure Row where
  columns : List (Option Bytes)
  warns : Bool
  narrow : columns.length < 2 ^ 15

/-- What is left of a column to read. -/
inductive Cell where
  | null
  | bytes (v : Bytes)
  | read
  deriving DecidableEq

def Cell.fresh : Option Bytes → Cell
  | none => .null
  | some v => .bytes v

/-- A null and a column with nothing left are the empty string. -/
def Cell.text : Cell → Bytes
  | .bytes v => v
  | _ => []

/-- The rows that are still to be fetched, if there is a result set, the columns of the current one, and the
column that was read last with what is left of it. -/
structure Cursor where
  rows : Option (List Row)
  columns : List (Option Bytes)
  current : Option (ℕ × Cell)

structure Reading where
  position : ℕ
  cursor : Cursor
  answers : List ReadAnswer

namespace Cursor

/-- What is left of a column, if there is one: all of it, unless it was the last one read. -/
def cell (c : Cursor) (k : ℕ) : Option Cell :=
  c.columns[k]?.map fun v => (c.current.filter (·.1 == k)).elim (Cell.fresh v) Prod.snd

/-- A driver without `SQL_GD_ANY_ORDER` does not go back to a column. -/
def allows (anyOrder : Bool) (c : Cursor) (k : ℕ) : Bool := anyOrder || c.current.all fun r => decide (r.1 ≤ k)

def next (diagnostics : Bytes) (c : Cursor) : ReadAnswer × Cursor :=
  match c.rows with
  | none => (.row false, c)
  | some [] => (.row false, ⟨some [], [], none⟩)
  | some (r :: rest) =>
      (if r.warns then .thrown (notFetched diagnostics) else .row true, ⟨some rest, r.columns, none⟩)

def retrieve (anyOrder : Bool) (k : ℕ) (diagnostics : Bytes) (c : Cursor) : Except Thrown Bytes × Cursor :=
  match c.cell k with
  | none => (.error (notRetrieved diagnostics), c)
  | some cell =>
      if c.allows anyOrder k then (.ok cell.text, { c with current := some (k, .read) })
      else (.error (notRetrieved diagnostics), c)

end Cursor

/-- Column numbers are taken modulo 2^16. -/
def Reading.step (anyOrder : Bool) (s : Reading) : ReadCall → Option Reading
  | .next diagnostics => some ⟨0, (s.cursor.next diagnostics).2, s.answers ++ [(s.cursor.next diagnostics).1]⟩
  | .extract diagnostics =>
      let r := s.cursor.retrieve anyOrder s.position diagnostics
      some ⟨if r.1.isOk then s.position + 1 else s.position, r.2, s.answers ++ [answered r.1]⟩
  | .getField num diagnostics =>
      let r := s.cursor.retrieve anyOrder (num % 65536).toNat diagnostics
      some ⟨s.position, r.2, s.answers ++ [answered r.1]⟩

/-! ## The driver as it is documented -/

/-- What is left of column `k` for `SQLGetData`, in the row that `c` is at. -/
structure Cursor.Holds (anyOrder : Bool) (c : Cursor) (k : ℕ) (view : Cursor) (left : Option Bytes) : Prop where
  rows : view.rows = c.rows
  columns : view.columns = c.columns
  allowed : view.allows anyOrder k = true
  cell : view.cell k = some (left.elim .read .bytes)

/-- `SQLFetch` and `SQLGetData` as they are documented: a call for another column than the last one begins at the
start of that column, or is refused (`07009`). Column 0 is that of bookmarks, which are off. -/
structure Driver.Conforms {σ : Type} (d : Driver σ) (anyOrder : Bool) (view : σ → Cursor) : Prop where
  fetch_row : ∀ s r rest, (view s).rows = some (r :: rest) →
    (d.fetch s).1 = (if r.warns then .successWithInfo else .success) ∧
      view (d.fetch s).2 = ⟨some rest, r.columns, none⟩
  fetch_end : ∀ s, (view s).rows = some [] → (d.fetch s).1 = .noData ∧ view (d.fetch s).2 = ⟨some [], [], none⟩
  fetch_none : ∀ s, (view s).rows = none →
    (d.fetch s).1 = .error ∧ d.sqlState (d.fetch s).2 = ascii "24000" ∧ view (d.fetch s).2 = view s
  bookmark : ∀ s, (d.getData 0 s).1.ret = .error ∧ view (d.getData 0 s).2 = view s
  absent : ∀ s k, (view s).cell k = none → k < 65535 →
    (d.getData (k + 1) s).1.ret = .error ∧ view (d.getData (k + 1) s).2 = view s
  refused : ∀ s k, (view s).allows anyOrder k = false → k < (view s).columns.length →
    (d.getData (k + 1) s).1.ret = .error ∧ view (d.getData (k + 1) s).2 = view s
  null : ∀ s k, (view s).cell k = some .null → (view s).allows anyOrder k = true →
    (d.getData (k + 1) s).1 = ⟨.success, [], -1⟩ ∧
      view (d.getData (k + 1) s).2 = { view s with current := some (k, .read) }
  /-- The pieces of a value, and that there is no more of it. -/
  pieces : ∀ (c : Cursor) k, k < c.columns.length →
    Odbc.Conforms (d.getData (k + 1)) fun s left => c.Holds anyOrder k (view s) left
  ended : ∀ s k, (view s).cell k = some .read → view (d.getData (k + 1) s).2 = view s

theorem Cursor.cell_fresh_ne_read (v : Option Bytes) : Cell.fresh v ≠ .read := by
  cases v <;> simp [Cell.fresh]

/-- A column of which nothing is left is the one that was read last. -/
theorem Cursor.current_of_read {c : Cursor} {k : ℕ} (h : c.cell k = some .read) :
    c.current = some (k, .read) := by
  obtain ⟨v, -, hv⟩ := Option.map_eq_some_iff.mp h
  cases hcurrent : c.current with
  | none =>
    rw [hcurrent] at hv
    exact absurd hv (cell_fresh_ne_read v)
  | some r =>
    rw [hcurrent, Option.filter_some] at hv
    by_cases hk : (r.1 == k) = true
    · rw [if_pos hk] at hv
      rw [← beq_iff_eq.mp hk, ← show r.2 = .read from hv]
    · rw [if_neg hk] at hv
      exact absurd hv (cell_fresh_ne_read v)

/-- When nothing is left of a column, the cursor is at that column. -/
theorem Cursor.Holds.eq {anyOrder : Bool} {c view : Cursor} {k : ℕ} (h : c.Holds anyOrder k view none) :
    view = { c with current := some (k, .read) } := by
  have hcurrent := Cursor.current_of_read h.cell
  obtain ⟨rows, columns, current⟩ := view
  obtain rfl : rows = c.rows := h.rows
  obtain rfl : columns = c.columns := h.columns
  obtain rfl : current = some (k, .read) := hcurrent
  rfl

theorem Cursor.lt_of_cell {c : Cursor} {k : ℕ} {cell : Cell} (h : c.cell k = some cell) : k < c.columns.length := by
  obtain ⟨v, hv, -⟩ := Option.map_eq_some_iff.mp h
  exact (List.getElem?_eq_some_iff.mp hv).1

section Retrieve
variable {σ : Type} {d : Driver σ} {view : σ → Cursor} {s : σ} {k : ℕ} (diagnostics : Bytes)

/-- The loop of `get_field` ends with a last piece, in a state that the earlier pieces lead to. -/
theorem loop_retrievePass {column : ℕ} {P : GetField σ → Prop}
    (hkeep : ∀ x y, P x → getFieldPass (d.getData column) diagnostics x = .inl y → P y) {calls : ℕ}
    {x : GetField σ} {r : Except Thrown Bytes} (hx : P x)
    (h : Loop.loop (getFieldPass (d.getData column) diagnostics) calls x = some r) :
    ∃ y, P y ∧ getFieldPass (d.getData column) diagnostics y = .inr r ∧
      Loop.loop (retrievePass d column diagnostics) calls x = some (r, (d.getData column y.driver).2) := by
  induction calls generalizing x with
  | zero => cases h
  | succ calls ih =>
    rw [Loop.loop] at h ⊢
    rw [retrievePass]
    cases hpass : getFieldPass (d.getData column) diagnostics x with
    | inl y =>
      rw [hpass] at h
      exact ih (hkeep x y hx hpass) h
    | inr r' =>
      rw [hpass] at h
      obtain rfl : r' = r := Option.some.inj h
      exact ⟨x, hx, hpass, rfl⟩

/-- A value is put together from its pieces, and none of it is left. -/
theorem retrieve_pieces {holds : σ → Option Bytes → Prop} {column : ℕ}
    (hd : Odbc.Conforms (d.getData column) holds) {v : Bytes} (hs : holds s (some v)) {calls : ℕ}
    (hcalls : v.length < calls) :
    ∃ t, holds t none ∧
      Loop.loop (retrievePass d column diagnostics) calls ⟨s, d.buffer, []⟩ = some (.ok v, t) := by
  have hloop : Loop.loop (getFieldPass (d.getData column) diagnostics) calls ⟨s, d.buffer, []⟩ = some (.ok v) :=
    loop_getFieldPass diagnostics hd hs hcalls
  have hkeep (x y : GetField σ) (hx : ∃ rest, holds x.driver (some rest))
      (hpass : getFieldPass (d.getData column) diagnostics x = .inl y) : ∃ rest, holds y.driver (some rest) := by
    obtain ⟨rest, hrest⟩ := hx
    by_cases hshort : rest.length ≤ 255
    · rw [getFieldPass_last diagnostics hd hrest hshort] at hpass
      cases hpass
    · obtain ⟨driver, buffer, hnext, hpass'⟩ := getFieldPass_more diagnostics hd hrest (by omega)
      rw [hpass] at hpass'
      rw [Sum.inl.inj hpass']
      exact ⟨_, hnext⟩
  obtain ⟨y, ⟨rest, hrest⟩, hlast, hretrieve⟩ := loop_retrievePass diagnostics hkeep ⟨v, hs⟩ hloop
  refine ⟨_, ?_, hretrieve⟩
  by_cases hshort : rest.length ≤ 255
  · exact (hd.last y.driver rest hrest hshort).2
  · obtain ⟨_, _, -, hpass⟩ := getFieldPass_more diagnostics hd hrest (by omega)
    rw [hlast] at hpass
    cases hpass

/-- One call is enough. -/
theorem retrieve_once {column : ℕ} {r : Except Thrown Bytes}
    (hpass : getFieldPass (d.getData column) diagnostics ⟨s, d.buffer, []⟩ = .inr r) {calls : ℕ} (hcalls : 1 ≤ calls) :
    Loop.loop (retrievePass d column diagnostics) calls ⟨s, d.buffer, []⟩ = some (r, (d.getData column s).2) := by
  obtain ⟨calls, rfl⟩ : ∃ c, calls = c + 1 := ⟨calls - 1, by omega⟩
  rw [Loop.loop, retrievePass, hpass]

theorem ordinal_of_lt {num : ℤ} {k : ℕ} (hnum : num % 65536 = k) (hk : k < 65535) : ordinal num = k + 1 := by
  rw [ordinal]
  omega

theorem ordinal_bookmark {num : ℤ} (hnum : num % 65536 = 65535) : ordinal num = 0 := by
  rw [ordinal]
  omega

/-- `get_field` reads a column of the row, or throws when the row does not have it or the driver refuses it. -/
theorem retrieve_column {anyOrder : Bool} (hd : d.Conforms anyOrder view)
    (hnarrow : (view s).columns.length < 2 ^ 15) {num : ℤ} (hnum : num % 65536 = k) :
    ∃ n t, view t = ((view s).retrieve anyOrder k diagnostics).2 ∧
      ∀ calls, n ≤ calls → retrieve d calls num diagnostics s =
        some (((view s).retrieve anyOrder k diagnostics).1, t) := by
  -- one call that fails
  have hthrows (herror : (d.getData (ordinal num) s).1.ret = .error ∧ view (d.getData (ordinal num) s).2 = view s) :
      ∃ n t, view t = view s ∧ ∀ calls, n ≤ calls → Loop.loop (retrievePass d (ordinal num) diagnostics) calls
        ⟨s, d.buffer, []⟩ = some (.error (notRetrieved diagnostics), t) := by
    refine ⟨1, (d.getData (ordinal num) s).2, herror.2, fun calls hcalls => retrieve_once diagnostics ?_ hcalls⟩
    simp [getFieldPass, herror.1, notRetrieved]
  unfold retrieve Cursor.retrieve
  cases hcell : (view s).cell k with
  | none =>
    refine hthrows ?_
    by_cases hk : k < 65535
    · rw [ordinal_of_lt hnum hk]
      exact hd.absent s k hcell hk
    · rw [ordinal_bookmark (by omega)]
      exact hd.bookmark s
  | some cell =>
    have hlt := Cursor.lt_of_cell hcell
    have hordinal : ordinal num = k + 1 := ordinal_of_lt hnum (by omega)
    dsimp only
    cases hallows : (view s).allows anyOrder k with
    | false =>
      refine hthrows ?_
      rw [hordinal]
      exact hd.refused s k hallows hlt
    | true =>
      rw [if_pos rfl, hordinal]
      dsimp only
      cases cell with
      | null =>
        obtain ⟨hpiece, hview⟩ := hd.null s k hcell hallows
        refine ⟨1, (d.getData (k + 1) s).2, hview, fun calls hcalls => retrieve_once diagnostics ?_ hcalls⟩
        simp [getFieldPass, hpiece, Cell.text]
      | bytes v =>
        have hread (calls : ℕ) (hcalls : v.length < calls) :=
          retrieve_pieces diagnostics (hd.pieces (view s) k hlt) ⟨rfl, rfl, hallows, hcell⟩ hcalls
        obtain ⟨t, ht, hloop⟩ := hread (v.length + 1) (Nat.lt_succ_self _)
        refine ⟨v.length + 1, t, ht.eq, fun calls hcalls => ?_⟩
        obtain ⟨t', -, hloop'⟩ := hread calls hcalls
        exact hloop'.trans (congrArg some (Loop.loop_unique hloop' hloop))
      | read =>
        have hended := (hd.pieces (view s) k hlt).ended s ⟨rfl, rfl, hallows, hcell⟩
        refine ⟨1, (d.getData (k + 1) s).2, ?_, fun calls hcalls => retrieve_once diagnostics ?_ hcalls⟩
        · rw [hd.ended s k hcell, ← Cursor.current_of_read hcell]
        · simp [getFieldPass, hended, Cell.text]

end Retrieve

/-! ## Calls one after the other -/

section Runs
variable {σ : Type} {d : Driver σ} {anyOrder : Bool} {view : σ → Cursor}

/-- The query and what it means: they have given the same answers and stand at the same column. -/
structure Follows (view : σ → Cursor) (s : Reader σ) (t : Reading) : Prop where
  answers : s.answers = t.answers
  position : s.fldcnt = t.position
  cursor : view s.driver = t.cursor
  bound : t.position ≤ 2 ^ 15
  narrow : t.cursor.columns.length < 2 ^ 15

variable {s : Reader σ} {t : Reading}

theorem follows_next (hd : d.Conforms anyOrder view) (h : Follows view s t) (diagnostics : Bytes) :
    (d.next diagnostics s.driver).1 = (t.cursor.next diagnostics).1 ∧
      view (d.next diagnostics s.driver).2 = (t.cursor.next diagnostics).2 ∧
        (t.cursor.next diagnostics).2.columns.length < 2 ^ 15 := by
  have hnarrow := h.narrow
  rw [← h.cursor] at hnarrow ⊢
  unfold Driver.next Cursor.next
  cases hrows : (view s.driver).rows with
  | none =>
    obtain ⟨hret, hstate, hview⟩ := hd.fetch_none s.driver hrows
    simp only [hret, hstate, hview, reduceCtorEq, if_false, and_self, if_true, true_and]
    exact hnarrow
  | some rows =>
    cases rows with
    | nil =>
      obtain ⟨hret, hview⟩ := hd.fetch_end s.driver hrows
      simp [hret, hview]
    | cons r rest =>
      obtain ⟨hret, hview⟩ := hd.fetch_row s.driver r rest hrows
      have hlen := r.narrow
      refine ⟨?_, ?_, ?_⟩
      · cases hwarns : r.warns <;> simp [hret, hwarns]
      · cases hwarns : r.warns <;> simp [hret, hwarns, hview]
      · exact hlen

theorem retrieve_columns (c : Cursor) (k : ℕ) (diagnostics : Bytes) :
    (c.retrieve anyOrder k diagnostics).2.columns = c.columns := by
  unfold Cursor.retrieve
  split
  · rfl
  · split <;> rfl

theorem retrieve_isOk {c : Cursor} {k : ℕ} {diagnostics : Bytes}
    (h : (c.retrieve anyOrder k diagnostics).1.isOk = true) : k < c.columns.length := by
  unfold Cursor.retrieve at h
  split at h
  case h_1 => cases h
  case h_2 hcell => exact Cursor.lt_of_cell hcell

theorem follows_step (hd : d.Conforms anyOrder view) (h : Follows view s t) (o : ReadCall) :
    ∃ n s' t', (∀ calls, n ≤ calls → s.step d calls o = some s') ∧ t.step anyOrder o = some t' ∧ Follows view s' t' := by
  have hnarrow := h.narrow
  rw [← h.cursor] at hnarrow
  cases o with
  | next diagnostics =>
    obtain ⟨hanswer, hview, hcells⟩ := follows_next hd h diagnostics
    refine ⟨0, _, _, fun _ _ => rfl, rfl, ⟨?_, rfl, hview, Nat.zero_le _, hcells⟩⟩
    rw [h.answers, hanswer]
  | extract diagnostics =>
    have hbound := h.bound
    have hnum : s.fldcnt % 65536 = t.position := by
      rw [h.position]
      omega
    obtain ⟨n, driver, hview, hretrieve⟩ := retrieve_column diagnostics hd hnarrow hnum
    rw [h.cursor] at hview hretrieve
    have hok := @retrieve_isOk anyOrder t.cursor t.position diagnostics
    have hcolumns := @retrieve_columns anyOrder t.cursor t.position diagnostics
    have hlt := h.narrow
    simp only [Reading.step]
    generalize t.cursor.retrieve anyOrder t.position diagnostics = r at hview hretrieve hok hcolumns
    refine ⟨n, ⟨if r.1.isOk then toInt32 (s.fldcnt + 1) else s.fldcnt, driver, s.answers ++ [answered r.1]⟩, _,
      fun calls hcalls => ?_, rfl, ⟨by rw [h.answers], ?_, hview, ?_, hcolumns ▸ hlt⟩⟩
    · rw [Reader.step, hretrieve calls hcalls, Option.map_some]
    · cases hr : r.1.isOk with
      | true =>
        change toInt32 (s.fldcnt + 1) = ((t.position + 1 : ℕ) : ℤ)
        rw [h.position, toInt32, Int.bmod_def]
        omega
      | false => exact h.position
    · cases hr : r.1.isOk with
      | true =>
        have := hok hr
        simp only [if_true]
        omega
      | false => exact hbound
  | getField num diagnostics =>
    have hnum : num % 65536 = (num % 65536).toNat := (Int.toNat_of_nonneg (Int.emod_nonneg _ (by decide))).symm
    obtain ⟨n, driver, hview, hretrieve⟩ := retrieve_column diagnostics hd hnarrow hnum
    rw [h.cursor] at hview hretrieve
    have hcolumns := @retrieve_columns anyOrder t.cursor (num % 65536).toNat diagnostics
    simp only [Reading.step]
    generalize t.cursor.retrieve anyOrder (num % 65536).toNat diagnostics = r at hview hretrieve hcolumns
    refine ⟨n, ⟨s.fldcnt, driver, s.answers ++ [answered r.1]⟩, _, fun calls hcalls => ?_, rfl,
      ⟨by rw [h.answers], h.position, hview, h.bound, hcolumns ▸ h.narrow⟩⟩
    rw [Reader.step, hretrieve calls hcalls, Option.map_some]

theorem follows_run (hd : d.Conforms anyOrder view) (h : Follows view s t) (os : List ReadCall) :
    ∃ n s' t', (∀ calls, n ≤ calls → Transition.run (Reader.step d calls) s os = some s') ∧
      Transition.run (Reading.step anyOrder) t os = some t' ∧ Follows view s' t' := by
  induction os generalizing s t with
  | nil => exact ⟨0, s, t, fun _ _ => rfl, rfl, h⟩
  | cons o os ih =>
    obtain ⟨n, s₁, t₁, hstep, hreading, hfollows⟩ := follows_step hd h o
    obtain ⟨m, s₂, t₂, hrun, hreadings, hlast⟩ := ih hfollows
    refine ⟨max n m, s₂, t₂, fun calls hcalls => ?_, ?_, hlast⟩
    · rw [Transition.run_cons, hstep calls (le_of_max_le_left hcalls), Option.bind_some]
      exact hrun calls (le_of_max_le_right hcalls)
    · rw [Transition.run_cons, hreading, Option.bind_some]
      exact hreadings

/-- On a driver that conforms, any calls on a result set return, and give the answers of a cursor: `next` goes to the
next row and the first column, and a column is read whole, however the driver cuts it into pieces. -/
theorem rows_read (hd : d.Conforms anyOrder view) {fldcnt : ℕ} (hfldcnt : fldcnt ≤ 2 ^ 15) {driver : σ}
    (hcolumns : (view driver).columns = []) (os : List ReadCall) :
    ∃ n s t, (∀ calls, n ≤ calls → Transition.run (Reader.step d calls) ⟨fldcnt, driver, []⟩ os = some s) ∧
      Transition.run (Reading.step anyOrder) ⟨fldcnt, view driver, []⟩ os = some t ∧
        s.answers = t.answers ∧ s.fldcnt = t.position ∧ view s.driver = t.cursor ∧ t.position ≤ 2 ^ 15 := by
  have hstart : Follows view ⟨fldcnt, driver, []⟩ ⟨fldcnt, view driver, []⟩ :=
    ⟨rfl, rfl, rfl, hfldcnt, by simp [hcolumns]⟩
  obtain ⟨n, s, t, hrun, hreading, hlast⟩ := follows_run hd hstart os
  exact ⟨n, s, t, hrun, hreading, hlast.answers, hlast.position, hlast.cursor, hlast.bound⟩

end Runs

namespace Sample

/-- A driver that does what is documented, and says how much of a value is left. -/
def fetching (anyOrder : Bool) : Driver Cursor where
  fetch c :=
    match c.rows with
    | none => (.error, c)
    | some [] => (.noData, ⟨some [], [], none⟩)
    | some (r :: rest) => (if r.warns then .successWithInfo else .success, ⟨some rest, r.columns, none⟩)
  sqlState _ := ascii "24000"
  getData column c :=
    match column with
    | 0 => (⟨.error, [], 0⟩, c)
    | k + 1 =>
        if c.allows anyOrder k then
          match c.cell k with
          | none => (⟨.error, [], 0⟩, c)
          | some .null => (⟨.success, [], -1⟩, { c with current := some (k, .read) })
          | some .read => (⟨.noData, [], 0⟩, c)
          | some (.bytes v) =>
              if 255 < v.length then
                (⟨.successWithInfo, v.take 255, v.length⟩, { c with current := some (k, .bytes (v.drop 255)) })
              else (⟨.success, v, v.length⟩, { c with current := some (k, .read) })
        else (⟨.error, [], 0⟩, c)
  buffer := []

theorem fetching_conforms (anyOrder : Bool) : (fetching anyOrder).Conforms anyOrder id where
  fetch_row := by
    rintro c r rest hrows
    simp only [id] at hrows
    simp [fetching, hrows]
  fetch_end := by
    rintro c hrows
    simp only [id] at hrows
    simp [fetching, hrows]
  fetch_none := by
    rintro c hrows
    simp only [id] at hrows
    simp [fetching, hrows]
  bookmark _ := ⟨rfl, rfl⟩
  absent := by
    rintro c k hcell -
    simp only [id] at hcell
    cases hallows : c.allows anyOrder k <;> simp [fetching, hcell, hallows]
  refused := by
    rintro c k hallows -
    simp only [id] at hallows
    simp [fetching, hallows]
  null := by
    rintro c k hcell hallows
    simp only [id] at hcell hallows
    simp [fetching, hcell, hallows]
  pieces := by
    rintro c k hlt
    obtain ⟨v, hv⟩ : ∃ v, c.columns[k]? = some v := ⟨_, List.getElem?_eq_getElem hlt⟩
    have hnext (view : Cursor) (left : Option Bytes) (hrows : view.rows = c.rows)
        (hcolumns : view.columns = c.columns) : c.Holds anyOrder k
          { view with current := some (k, left.elim .read .bytes) } left := by
      refine ⟨hrows, hcolumns, ?_, ?_⟩
      · simp [Cursor.allows]
      · simp [Cursor.cell, hcolumns, hv, Option.filter]
    refine ⟨?_, ?_, ?_⟩
    · rintro view v ⟨hrows, hcolumns, hallows, hcell⟩ hlen
      simp only [id, Option.elim_some] at hrows hcolumns hallows hcell
      simp only [fetching, hallows, hcell, hlen, if_true]
      exact ⟨trivial, trivial, .inl trivial, hnext view (some (v.drop 255)) hrows hcolumns⟩
    · rintro view v ⟨hrows, hcolumns, hallows, hcell⟩ hlen
      simp only [id, Option.elim_some] at hrows hcolumns hallows hcell
      simp only [fetching, hallows, hcell, Nat.not_lt.mpr hlen, if_true, if_false]
      exact ⟨trivial, hnext view none hrows hcolumns⟩
    · rintro view ⟨-, -, hallows, hcell⟩
      simp only [id, Option.elim_none] at hallows hcell
      simp [fetching, hallows, hcell]
  ended := by
    rintro c k hcell
    simp only [id] at hcell
    have hallows : c.allows anyOrder k = true := by
      rw [Cursor.allows, Cursor.current_of_read hcell]
      simp
    simp [fetching, hcell, hallows]

/-- Two rows: the second has a null and comes with a warning. -/
def table : Cursor :=
  ⟨some [⟨[some (List.replicate 600 65), some (ascii "b")], false, by decide⟩, ⟨[none, some []], true, by decide⟩],
    [], none⟩

def reads : List ReadCall :=
  [.next [], .extract [], .extract [], .extract [], .getField 1 [], .getField 0 [], .next [], .extract [], .next [],
    .next []]

end Sample

theorem rows_read_table : ∃ n s t,
    (∀ calls, n ≤ calls →
      Transition.run (Reader.step (Sample.fetching true) calls) ⟨(7 : ℕ), Sample.table, []⟩ Sample.reads = some s) ∧
    Transition.run (Reading.step true) ⟨7, Sample.table, []⟩ Sample.reads = some t ∧
      s.answers = t.answers ∧ s.fldcnt = t.position ∧ s.driver = t.cursor ∧ t.position ≤ 2 ^ 15 :=
  rows_read (Sample.fetching_conforms true) (by decide) rfl Sample.reads

example : (Transition.run (Reading.step true) ⟨7, Sample.table, []⟩ Sample.reads).map Reading.answers =
    some [.row true, .value (List.replicate 600 65), .value (ascii "b"), .thrown (notRetrieved []), .value [],
      .value (List.replicate 600 65), .thrown (notFetched []), .value [], .row false, .row false] := by
  decide +kernel

end Dcl.Odbc
