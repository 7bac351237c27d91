import Dcl.Foundations.Transition
import Dcl.Odbc.Query

/-! # `odbc::query`: preparing, binding and executing

`prepare`, `set_parameter`, `operator<<`, `execute` and `retrieve_metadata` of `src/dcl/query.cpp` and
`include/dcl/query.h`. What the driver answers is an argument of every call. A call that throws leaves the
object as it is at that moment.

`_prmcnt` is an `int`: the number of the parameter that the next `operator<<` sets. `_fields` is the list that
`execute` returns; it belongs to the object. -/
namespace Dcl.Odbc
set_option autoImplicit false

/-! ## The driver -/

inductive SqlReturn where
  | success
  | successWithInfo
  | noData
  | error
  | invalidHandle
  | stillExecuting
  | needData
  deriving DecidableEq, Repr

def SqlReturn.accepted (r : SqlReturn) : Bool := r == .success || r == .successWithInfo

/-- The answers of the driver during one call. A parameter is bound by its number from 1 on with its value,
or `none` for `SQL_NULL_DATA`; a column is described by its number from 1 on. `diagnostics` is what
`get_error` makes of the diagnostic record. -/
structure Answers where
  prepare : Bytes → SqlReturn
  bindParameter : ℕ → Option Bytes → SqlReturn
  execute : SqlReturn
  execDirect : Bytes → SqlReturn
  numResultCols : SqlReturn × Int16
  describeCol : ℕ → SqlReturn × Bytes
  diagnostics : Bytes

/-- What a call throws; `outOfRange` is that of `std::vector::at`. -/
inductive Thrown where
  | queryException (msg : Bytes)
  | outOfRange
  deriving DecidableEq

/-! ## The object -/

structure Field where
  number : ℤ
  name : Bytes
  deriving DecidableEq, Repr

structure Query where
  prmcnt : ℤ
  parameters : List Parameter
  fields : List Field
  deriving DecidableEq

def Query.new : Query := ⟨0, [], []⟩

/-- What `SQLDescribeCol` leaves in a buffer of 256 bytes, as a C string. -/
def colName (name : Bytes) : Bytes := cString (name.take 255)

/-- The loop of `retrieve_metadata` over the columns from `i` on, `n` of them. -/
def describeCols (a : Answers) : ℕ → ℕ → List Field → List Field × Except Thrown Unit
  | 0, _, fields => (fields, .ok ())
  | n + 1, i, fields =>
      if (a.describeCol i).1.accepted then
        describeCols a n (i + 1) (fields ++ [⟨(i : ℤ) - 1, colName (a.describeCol i).2⟩])
      else (fields, .error (.queryException (ascii "Can't obtain column metadata: " ++ a.diagnostics)))

/-- The number of columns the driver reports. -/
def Answers.columnCount (a : Answers) : ℕ := a.numResultCols.2.toInt.toNat

namespace Query

def retrieveMetadata (a : Answers) (q : Query) : Query × Except Thrown Unit :=
  if a.numResultCols.1.accepted then
    let r := describeCols a a.columnCount 1 q.fields
    ({ q with fields := r.1 }, r.2)
  else (q, .error (.queryException (ascii "Can't obtain a columns count: " ++ a.diagnostics)))

/-- What `execute` does once the statement was sent: `SQL_NO_DATA` is no error. -/
def executed (a : Answers) (q : Query) (r : SqlReturn) : Query × Except Thrown (List Field) :=
  if r.accepted || r == .noData then
    let m := q.retrieveMetadata a
    (m.1, m.2.map fun _ => m.1.fields)
  else (q, .error (.queryException (ascii "Can't execute SQL statement: " ++ a.diagnostics)))

/-- Every parameter is bound, an empty value as a null. -/
def binds (a : Answers) : ℕ → List Parameter → Bool
  | _, [] => true
  | num, i :: parameters =>
      (a.bindParameter num (if i.value.isEmpty then none else some (cString i.value))).accepted &&
        binds a (num + 1) parameters

def execute (a : Answers) (q : Query) : Query × Except Thrown (List Field) :=
  if binds a 1 q.parameters then q.executed a a.execute
  else (q, .error (.queryException (ascii "Can't assign SQL parameter: " ++ a.diagnostics)))

def executeStatement (a : Answers) (q : Query) (statement : Bytes) :
    Query × Except Thrown (List Field) :=
  q.executed a (a.execDirect (cString statement))

/-- `prepare` and `operator()`; `none` when `parse` does not return. -/
def prepare (a : Answers) (q : Query) (statement : Bytes) : Option (Query × Except Thrown Unit) :=
  (parse statement).map fun r =>
    ({ q with parameters := r.2 },
      if (a.prepare (cString r.1)).accepted then .ok ()
      else .error (.queryException (ascii "Can't prepare SQL statement: " ++ a.diagnostics)))

/-- `set_parameter` with the text of the value. -/
def setParameter (q : Query) (num : ℤ) (value : Bytes) : Query × Except Thrown Unit :=
  if 0 ≤ num ∧ num < q.parameters.length then
    ({ q with parameters := q.parameters.modify num.toNat fun p => { p with value := value } }, .ok ())
  else (q, .error .outOfRange)

/-- `operator<<` with a value. -/
def put (q : Query) (value : Bytes) : Query × Except Thrown Unit :=
  match q.setParameter q.prmcnt value with
  | (q, .ok ()) => ({ q with prmcnt := toInt32 (q.prmcnt + 1) }, .ok ())
  | r => r

/-- `operator<<` with a `flush`: the counter is set to -1 and then incremented. -/
def flush (a : Answers) (q : Query) : Query × Except Thrown Unit :=
  match q.execute a with
  | (q, .ok _) => ({ q with prmcnt := toInt32 (-1 + 1) }, .ok ())
  | (q, .error e) => (q, .error e)

end Query

/-! ## Calls -/

inductive Call where
  | prepare (statement : Bytes)
  | put (value : Bytes)
  | flush
  | execute
  | executeStatement (statement : Bytes)

/-- What a call leaves, and the field list if it returns one. -/
def Query.call (q : Query) (a : Answers) : Call → Option (Query × Except Thrown (Option (List Field)))
  | .prepare statement => (q.prepare a statement).map fun r => (r.1, r.2.map fun _ => none)
  | .put value => some ((q.put value).1, (q.put value).2.map fun _ => none)
  | .flush => some ((q.flush a).1, (q.flush a).2.map fun _ => none)
  | .execute => some ((q.execute a).1, (q.execute a).2.map some)
  | .executeStatement statement =>
      some ((q.executeStatement a statement).1, (q.executeStatement a statement).2.map some)

/-! ## What execution leaves alone -/

section Frame
variable {a : Answers} {q : Query}

theorem executed_frame (r : SqlReturn) :
    (q.executed a r).1.prmcnt = q.prmcnt ∧ (q.executed a r).1.parameters = q.parameters := by
  unfold Query.executed Query.retrieveMetadata
  split_ifs <;> exact ⟨rfl, rfl⟩

theorem execute_frame :
    (q.execute a).1.prmcnt = q.prmcnt ∧ (q.execute a).1.parameters = q.parameters := by
  unfold Query.execute
  split
  · exact executed_frame a.execute
  · exact ⟨rfl, rfl⟩

/-- A `flush` sets the counter to zero when the execution returns. -/
theorem flush_frame : (q.flush a).1.parameters = q.parameters ∧
    (q.flush a).1.prmcnt = if (q.execute a).2.isOk then 0 else q.prmcnt := by
  obtain ⟨hprmcnt, hparameters⟩ := @execute_frame a q
  unfold Query.flush
  rcases hexec : q.execute a with ⟨q', e | fields⟩
  · rw [hexec] at hprmcnt hparameters
    exact ⟨hparameters, hprmcnt⟩
  · rw [hexec] at hparameters
    exact ⟨hparameters, rfl⟩

end Frame

end Dcl.Odbc
