import Dcl.Foundations.Ledger
import Dcl.Foundations.Slots
import Dcl.Foundations.Transition
import Dcl.Odbc.Execution
import Dcl.Strutils.Format

/-! # ODBC handles

`src/dcl/connection.cpp`, with the constructor and the destructor of `query` from `src/dcl/query.cpp`: which
handles a program has while it constructs, opens, closes and destroys connections and queries in any order. The
objects are not copied.

The driver's answers are arguments. Three of its own doings are part of the model: `SQLDisconnect` frees the
statements of the connection when it succeeds, `SQLFreeHandle` refuses a connection that still has a data source,
and every allocation gives a new handle. -/
namespace Dcl.Odbc
open Ledger (Entry)
set_option autoImplicit false

/-- A statement is allocated on a connection handle. -/
inductive Handle where
  | env (n : ℕ)
  | dbc (n : ℕ)
  | stmt (n hdbc : ℕ)
  deriving DecidableEq

def Handle.number : Handle → ℕ
  | .env n => n
  | .dbc n => n
  | .stmt n _ => n

structure Connection where
  hdbc : ℕ
  isOpen : Bool
  deriving DecidableEq

structure StatementHandle where
  stmt : ℕ
  hdbc : ℕ
  deriving DecidableEq

def StatementHandle.handle (q : StatementHandle) : Handle := .stmt q.stmt q.hdbc

/-- The objects are numbered as they are constructed, and `none` once they are destroyed. `environment` is the
handle of the singleton, and `connected` are the connection handles that have a data source. -/
structure Client where
  environment : Option ℕ
  connections : List (Option Connection)
  queries : List (Option StatementHandle)
  connected : List ℕ
  handles : ℕ
  ledger : Ledger Handle

/-- The three calls in the constructor of `environment`. -/
structure EnvironmentAnswers where
  pooling : SqlReturn
  allocate : SqlReturn
  version : SqlReturn

inductive IsolationLevel where
  | readUncommitted
  | readCommitted
  | repeatableRead
  | serializable

inductive Transaction where
  | begin (level : IsolationLevel)
  | commit
  | rollback

/-- What a transaction call says when its first or its second driver call fails. -/
def Transaction.messages : Transaction → Bytes × Bytes
  | .begin _ =>
      (ascii "Can't setup the transaction isolation level: ", ascii "Can't turn off autocommit mode: ")
  | .commit => (ascii "Transaction commit failed: ", ascii "Can't turn on autocommit mode: ")
  | .rollback => (ascii "Transaction rollback failed: ", ascii "Can't turn on autocommit mode: ")

/-- `«open»` with a `dsn` is the call with three arguments. `statement` is any call of a query on its handle. -/
inductive Request where
  | initEnvironment (a : EnvironmentAnswers)
  | connection (a : EnvironmentAnswers) (allocate : SqlReturn)
  | open (d : ℕ) (dsn : Option Bytes) (disconnect connect : SqlReturn) (diagnostics : Bytes)
  | close (d : ℕ) (disconnect : SqlReturn)
  | transaction (d : ℕ) (t : Transaction) (first second : SqlReturn) (diagnostics : Bytes)
  | destroyConnection (d : ℕ) (disconnect : SqlReturn)
  | query (d : ℕ) (allocate : SqlReturn)
  | statement (q : ℕ)
  | destroyQuery (q : ℕ)

namespace Client

def new : Client := ⟨none, [], [], [], 0, .empty⟩

def connectionAt (s : Client) (d : ℕ) : Option Connection := s.connections[d]?.join

def queryAt (s : Client) (q : ℕ) : Option StatementHandle := s.queries[q]?.join

def enter (s : Client) (e : Entry Handle) : Client := { s with ledger := s.ledger.enter e }

/-- A new handle, whose number is `handles` before the call. -/
def allocate (s : Client) (h : ℕ → Handle) : Client :=
  { s.enter (.opened (h s.handles)) with handles := s.handles + 1 }

/-- `environment::instance`; when the last call of the constructor fails, nothing frees the handle. -/
def environmentInstance (s : Client) (a : EnvironmentAnswers) : Client × Except Bytes ℕ :=
  match s.environment with
  | some e => (s, .ok e)
  | none =>
      if !a.pooling.accepted then (s, .error (ascii "Can't initialize ODBC environment"))
      else if !a.allocate.accepted then (s, .error (ascii "Can't allocate ODBC environment handle"))
      else
        let t := (s.allocate .env).enter (.used (.env s.handles))
        if !a.version.accepted then (t, .error (ascii "Can't setup ODBC environment version"))
        else ({ t with environment := some s.handles }, .ok s.handles)

def construct (s : Client) (a : EnvironmentAnswers) (r : SqlReturn) : Client × Except Bytes Unit :=
  match s.environmentInstance a with
  | (s, .error msg) => (s, .error msg)
  | (s, .ok e) =>
      let s := s.enter (.used (.env e))
      if r.accepted then
        ({ s.allocate .dbc with connections := s.connections ++ [some ⟨s.handles, false⟩] }, .ok ())
      else (s, .error (ascii "Can't allocate ODBC connection handle"))

def isStatementOf (hdbc : ℕ) : Handle → Bool
  | .stmt _ h => h == hdbc
  | _ => false

/-- `SQLDisconnect`. -/
def disconnect (s : Client) (hdbc : ℕ) (r : SqlReturn) : Client :=
  let s := s.enter (.used (.dbc hdbc))
  if r.accepted then
    { s with
      connected := s.connected.filter (· != hdbc)
      ledger := s.ledger.enterAll ((s.ledger.live.filter (isStatementOf hdbc)).map .closed) }
  else s

def setConnection (s : Client) (d : ℕ) (c : Option Connection) : Client :=
  { s with connections := s.connections.set d c }

/-- `close`: what `SQLDisconnect` answers is not looked at. -/
def close (s : Client) (d : ℕ) (c : Connection) (r : SqlReturn) : Client :=
  let s := if c.isOpen then s.disconnect c.hdbc r else s
  s.setConnection d (some { c with isOpen := false })

def notOpened (dsn : Option Bytes) (diagnostics : Bytes) : Bytes :=
  match dsn with
  | some dsn => (Format.str (ascii "Can't open the database \x7b0\x7d: \x7b1\x7d") [dsn, diagnostics]).getD []
  | none => (Format.str (ascii "Can't open the database: \x7b0\x7d") [diagnostics]).getD []

def connect (s : Client) (d : ℕ) (c : Connection) (dsn : Option Bytes) (disconnect connect : SqlReturn)
    (diagnostics : Bytes) : Client × Except Bytes Unit :=
  let s := (s.close d c disconnect).enter (.used (.dbc c.hdbc))
  if connect.accepted then
    ({ s with connected := c.hdbc :: s.connected }.setConnection d (some { c with isOpen := true }), .ok ())
  else (s, .error (notOpened dsn diagnostics))

/-- The destructor of a connection. -/
def destroyConnection (s : Client) (d : ℕ) (c : Connection) (disconnect : SqlReturn) : Client :=
  let s := s.close d c disconnect
  let s := if c.hdbc ∈ s.connected then s.enter (.used (.dbc c.hdbc)) else s.enter (.closed (.dbc c.hdbc))
  s.setConnection d none

def query (s : Client) (hdbc : ℕ) (r : SqlReturn) : Client × Except Bytes Unit :=
  let s := s.enter (.used (.dbc hdbc))
  if r.accepted then
    ({ s.allocate (.stmt · hdbc) with queries := s.queries ++ [some ⟨s.handles, hdbc⟩] }, .ok ())
  else (s, .error (ascii "Can't allocate ODBC statement handle"))

def op (s : Client) : Request → Option (Client × Except Bytes Unit)
  | .initEnvironment a => some ((s.environmentInstance a).1, (s.environmentInstance a).2.map fun _ => ())
  | .connection a r => some (s.construct a r)
  | .open d dsn disconnect connect diagnostics =>
      (s.connectionAt d).map fun c => s.connect d c dsn disconnect connect diagnostics
  | .close d disconnect => (s.connectionAt d).map fun c => (s.close d c disconnect, .ok ())
  | .transaction d t first second diagnostics => (s.connectionAt d).map fun c =>
      (s.enter (.used (.dbc c.hdbc)),
        if !first.accepted then .error (t.messages.1 ++ diagnostics)
        else if !second.accepted then .error (t.messages.2 ++ diagnostics)
        else .ok ())
  | .destroyConnection d disconnect =>
      (s.connectionAt d).map fun c => (s.destroyConnection d c disconnect, .ok ())
  | .query d r => (s.connectionAt d).map fun c => s.query c.hdbc r
  | .statement q => (s.queryAt q).map fun h => (s.enter (.used h.handle), .ok ())
  | .destroyQuery q => (s.queryAt q).map fun h =>
      ({ s.enter (.closed h.handle) with queries := s.queries.set q none }, .ok ())

def step (s : Client) (o : Request) : Option Client := (s.op o).map Prod.fst

/-! ## Which steps are in order -/

/-- No query of a connection that is open is there when the connection is closed. -/
def closes (s : Client) (c : Connection) (disconnect : SqlReturn) : Bool :=
  !c.isOpen || !disconnect.accepted || s.queries.all fun q => q.all fun q => q.hdbc != c.hdbc

/-- The constructor of the environment fails with its last call only if it allocated nothing. -/
def starts (s : Client) (a : EnvironmentAnswers) : Bool :=
  s.environment.isSome || !(a.pooling.accepted && a.allocate.accepted) || a.version.accepted

def inOrder (s : Client) : Request → Bool
  | .initEnvironment a => s.starts a
  | .connection a _ => s.starts a
  | .open d _ disconnect _ _ => (s.connectionAt d).all fun c => s.closes c disconnect
  | .close d disconnect => (s.connectionAt d).all fun c => s.closes c disconnect
  | .destroyConnection d disconnect => (s.connectionAt d).all fun c =>
      s.closes c disconnect && (!s.connected.contains c.hdbc || (c.isOpen && disconnect.accepted))
  | _ => true

/-- The handles of the objects. -/
def held (s : Client) : List Handle :=
  (s.environment.map Handle.env).toList ++
    (s.connections.filterMap (Option.map fun c => Handle.dbc c.hdbc) ++
      s.queries.filterMap (Option.map StatementHandle.handle))

end Client

open Client

/-- No driver call was made on a handle that was not allocated, and the allocated handles are those of the
objects. -/
structure Proper (s : Client) : Prop where
  faults : s.ledger.faults = []
  live : s.ledger.live.Perm s.held

section Runs
variable {s t : Client} {h : Handle} {d : ℕ} {c : Connection} {q : StatementHandle} {r : SqlReturn}

/-! ## The handles of the objects -/

theorem mem_held_environment {e : ℕ} (he : s.environment = some e) : Handle.env e ∈ s.held := by
  rw [held, he]
  exact List.mem_append_left _ List.mem_cons_self

theorem mem_held_connection (hc : s.connectionAt d = some c) : Handle.dbc c.hdbc ∈ s.held :=
  List.mem_append_right _ (List.mem_append_left _
    (List.mem_filterMap.mpr ⟨some c, List.mem_of_getElem? (Option.join_eq_some_iff.mp hc), rfl⟩))

theorem mem_held_queries (hq : some q ∈ s.queries) : q.handle ∈ s.held :=
  List.mem_append_right _ (List.mem_append_right _ (List.mem_filterMap.mpr ⟨some q, hq, rfl⟩))

theorem mem_held_query {i : ℕ} (hq : s.queryAt i = some q) : q.handle ∈ s.held :=
  mem_held_queries (List.mem_of_getElem? (Option.join_eq_some_iff.mp hq))

/-- The statements among the handles are those of the queries. -/
theorem isStatementOf_held {hdbc : ℕ} (hh : h ∈ s.held) (hs : isStatementOf hdbc h = true) :
    ∃ q, some q ∈ s.queries ∧ q.handle = h ∧ q.hdbc = hdbc := by
  rcases List.mem_append.mp hh with hh | hh
  · obtain ⟨e, -, rfl⟩ := Option.map_eq_some_iff.mp (Option.mem_toList.mp hh)
    cases hs
  · rcases List.mem_append.mp hh with hh | hh
    · obtain ⟨c, -, hh⟩ := List.mem_filterMap.mp hh
      obtain ⟨c, -, rfl⟩ := Option.map_eq_some_iff.mp hh
      cases hs
    · obtain ⟨o, ho, hh⟩ := List.mem_filterMap.mp hh
      obtain ⟨q, rfl, rfl⟩ := Option.map_eq_some_iff.mp hh
      exact ⟨q, ho, rfl, beq_iff_eq.mp hs⟩

/-- A connection is replaced, or taken away. -/
theorem held_setConnection (hc : s.connectionAt d = some c) (c' : Option Connection) :
    ((c'.map fun c => Handle.dbc c.hdbc).toList ++ s.held).Perm
      (Handle.dbc c.hdbc :: (s.setConnection d c').held) := by
  refine List.perm_iff_count.mpr fun x => ?_
  have hcount := Slots.count_filterMap_set (Option.map fun c => Handle.dbc c.hdbc) s.connections d (some c) c'
    (Option.join_eq_some_iff.mp hc) x
  rw [Option.map_some, Option.toList_some] at hcount
  simp only [held, setConnection, List.count_append, ← List.singleton_append (l := _ ++ _)]
  omega

theorem held_setConnection_same (hc : s.connectionAt d = some c) (isOpen : Bool) :
    (s.setConnection d (some { c with isOpen := isOpen })).held.Perm s.held :=
  ((List.perm_cons _).mp (held_setConnection hc (some { c with isOpen := isOpen }))).symm

theorem held_destroyQuery {i : ℕ} (hq : s.queryAt i = some q) :
    s.held.Perm (q.handle :: { s with queries := s.queries.set i none }.held) := by
  refine List.perm_iff_count.mpr fun x => ?_
  have hcount := Slots.count_filterMap_set (Option.map StatementHandle.handle) s.queries i (some q) none
    (Option.join_eq_some_iff.mp hq) x
  simp only [Option.map_some, Option.map_none, Option.toList_some, Option.toList_none, List.count_nil] at hcount
  simp only [held, List.count_append, ← List.singleton_append (l := _ ++ _)]
  omega

theorem held_push (s : Client) (q : StatementHandle) :
    { s with queries := s.queries ++ [some q] }.held.Perm (q.handle :: s.held) := by
  refine List.perm_iff_count.mpr fun x => ?_
  simp only [held, List.filterMap_append, List.count_append, ← List.singleton_append (l := _ ++ _),
    List.filterMap_cons_some (f := Option.map StatementHandle.handle) (a := some q) rfl, List.filterMap_nil]
  omega

theorem held_construct (s : Client) (c : Connection) :
    { s with connections := s.connections ++ [some c] }.held.Perm (Handle.dbc c.hdbc :: s.held) := by
  refine List.perm_iff_count.mpr fun x => ?_
  simp only [held, List.filterMap_append, List.count_append, ← List.singleton_append (l := _ ++ _),
    List.filterMap_cons_some (f := Option.map fun c : Connection => Handle.dbc c.hdbc) (a := some c) rfl,
    List.filterMap_nil]
  omega

/-! ## Every handle belongs to one object -/

structure Sound (s : Client) : Prop where
  nodup : s.held.Nodup
  numbered : ∀ h ∈ s.held, h.number < s.handles

theorem Sound.same (hs : Sound s) (hheld : t.held.Perm s.held) (hle : s.handles ≤ t.handles) : Sound t :=
  ⟨hheld.nodup_iff.mpr hs.nodup, fun h hh => (hs.numbered h (hheld.mem_iff.mp hh)).trans_le hle⟩

theorem Sound.less (hs : Sound s) (hheld : s.held.Perm (h :: t.held)) (hle : s.handles ≤ t.handles) : Sound t :=
  ⟨(List.nodup_cons.mp (hheld.nodup_iff.mp hs.nodup)).2,
    fun x hx => (hs.numbered x (hheld.mem_iff.mpr (List.mem_cons_of_mem h hx))).trans_le hle⟩

theorem Sound.fresh (hs : Sound s) (hh : h.number = s.handles) : h ∉ s.held :=
  fun hmem => absurd (hs.numbered h hmem) (by omega)

theorem Sound.more (hs : Sound s) (hh : h.number = s.handles) (hheld : t.held.Perm (h :: s.held))
    (hhandles : t.handles = s.handles + 1) : Sound t := by
  refine ⟨hheld.nodup_iff.mpr (List.nodup_cons.mpr ⟨hs.fresh hh, hs.nodup⟩), fun x hx => ?_⟩
  rcases List.mem_cons.mp (hheld.mem_iff.mp hx) with rfl | hx
  · omega
  · have := hs.numbered x hx
    omega

/-! ## Handles that are used, freed and allocated -/

theorem Proper.enter_used (hp : Proper s) (hh : h ∈ s.held) : s.enter (.used h) = s :=
  congrArg (fun ledger => { s with ledger := ledger }) (Ledger.enter_used (hp.live.mem_iff.mpr hh))

theorem Proper.allocated (hs : Sound s) (hp : Proper s) {m : ℕ → Handle}
    (hnumber : (m s.handles).number = s.handles) (hledger : t.ledger = (s.allocate m).ledger)
    (hheld : t.held.Perm (m s.handles :: s.held)) : Proper t := by
  obtain ⟨hlive, hfaults⟩ := Ledger.enter_opened hp.live (hs.fresh hnumber)
  refine ⟨?_, ?_⟩
  · rw [hledger]
    exact hfaults.trans hp.faults
  · rw [hledger]
    exact hlive.trans hheld.symm

theorem Proper.freed (hp : Proper s) (hledger : t.ledger = s.ledger.enter (.closed h))
    (hheld : s.held.Perm (h :: t.held)) : Proper t := by
  obtain ⟨hlive, hfaults⟩ := Ledger.enter_closed (hp.live.trans hheld)
  refine ⟨?_, ?_⟩
  · rw [hledger]
    exact hfaults.trans hp.faults
  · rw [hledger]
    exact hlive

theorem Proper.same (hp : Proper s) (hledger : t.ledger = s.ledger) (hheld : t.held.Perm s.held) : Proper t :=
  ⟨by rw [hledger, hp.faults], by rw [hledger]; exact hp.live.trans hheld.symm⟩

theorem Proper.query_live (hp : Proper s) (hq : some q ∈ s.queries) : q.handle ∈ s.ledger.live :=
  hp.live.mem_iff.mpr (mem_held_queries hq)

/-! ## The environment -/

theorem environmentInstance_sound (hs : Sound s) (a : EnvironmentAnswers) :
    Sound (s.environmentInstance a).1 := by
  unfold Client.environmentInstance
  split
  · exact hs
  case h_2 hnone =>
    have hnew : ({ (s.allocate .env).enter (.used (.env s.handles)) with environment := some s.handles } : Client).held
        = .env s.handles :: s.held := by
      simp only [held, hnone]
      rfl
    split_ifs
    · exact hs
    · exact hs
    · exact hs.same (.refl _) (Nat.le_succ _)
    · exact hs.more rfl (.of_eq hnew) rfl

theorem environmentInstance_proper (hs : Sound s) (hp : Proper s) (a : EnvironmentAnswers) :
    Proper (s.environmentInstance a).1 ↔ s.starts a = true := by
  unfold Client.environmentInstance Client.starts
  cases henv : s.environment with
  | some e => simpa using hp
  | none =>
    have hused (h : Proper { s.allocate .env with environment := some s.handles }) :
        (s.allocate .env).ledger.enter (.used (.env s.handles)) = (s.allocate .env).ledger :=
      Ledger.enter_used (h.live.mem_iff.mpr (mem_held_environment rfl))
    have hnew : ({ s.allocate .env with environment := some s.handles } : Client).held = .env s.handles :: s.held := by
      simp only [held, henv]
      rfl
    have hproper : Proper { s.allocate .env with environment := some s.handles } :=
      hp.allocated hs rfl rfl (.of_eq hnew)
    simp only [Option.isSome_none, Bool.false_or]
    cases a.pooling.accepted with
    | false => simpa using hp
    | true =>
      cases a.allocate.accepted with
      | false => simpa using hp
      | true =>
        cases a.version.accepted with
        | false =>
          refine iff_of_false (fun hp' => ?_) (by simp)
          have hlive : s.held.length + 1 = s.held.length := by
            have hlength := (hp'.live.symm.trans (.of_eq (congrArg Ledger.live (hused hproper)))).length_eq
            rw [hproper.live.length_eq, hnew] at hlength
            exact hlength.symm
          omega
        | true =>
          refine iff_of_true ?_ (by simp)
          exact hproper.same (hused hproper) (.refl _)

theorem environmentInstance_ok {a : EnvironmentAnswers} {e : ℕ} (h : (s.environmentInstance a).2 = .ok e) :
    (s.environmentInstance a).1.environment = some e ∧ s.starts a = true := by
  unfold Client.environmentInstance Client.starts at *
  cases henv : s.environment with
  | some e' =>
    rw [henv] at h
    exact ⟨henv.trans (congrArg some (Except.ok.inj h)), rfl⟩
  | none =>
    rw [henv] at h
    simp only at h ⊢
    split_ifs at h ⊢ with hpooling hallocate hversion
    exact ⟨congrArg some (Except.ok.inj h), by simp_all⟩

theorem construct_sound (hs : Sound s) (a : EnvironmentAnswers) (r : SqlReturn) : Sound (s.construct a r).1 := by
  have hinstance := environmentInstance_sound hs a
  unfold Client.construct
  generalize s.environmentInstance a = u at hinstance
  rcases u with ⟨t, msg | e⟩
  · exact hinstance
  · simp only
    split
    · exact hinstance.more rfl (held_construct t ⟨t.handles, false⟩) rfl
    · exact hinstance.same (.refl _) le_rfl

theorem construct_proper (hs : Sound s) (hp : Proper s) (a : EnvironmentAnswers) (r : SqlReturn) :
    Proper (s.construct a r).1 ↔ s.starts a = true := by
  have hsound := environmentInstance_sound hs a
  have hiff := environmentInstance_proper hs hp a
  have hok (e : ℕ) := environmentInstance_ok (s := s) (a := a) (e := e)
  unfold Client.construct
  generalize s.environmentInstance a = u at hsound hiff hok
  rcases u with ⟨t, msg | e⟩
  · exact hiff
  · obtain ⟨henv, hstarts⟩ := hok e rfl
    have ht : Proper t := hiff.mpr hstarts
    refine iff_of_true ?_ hstarts
    simp only
    rw [ht.enter_used (mem_held_environment henv)]
    split
    · exact ht.allocated hsound (m := .dbc) rfl rfl (held_construct t ⟨t.handles, false⟩)
    · exact ht

/-! ## Closing a connection -/

theorem disconnect_objects (s : Client) (hdbc : ℕ) (r : SqlReturn) :
    (s.disconnect hdbc r).held = s.held ∧ (s.disconnect hdbc r).queries = s.queries ∧
      (s.disconnect hdbc r).connections = s.connections ∧ (s.disconnect hdbc r).handles = s.handles ∧
      (s.disconnect hdbc r).connected = if r.accepted then s.connected.filter (· != hdbc) else s.connected := by
  unfold Client.disconnect
  split_ifs <;> exact ⟨rfl, rfl, rfl, rfl, rfl⟩

theorem disconnect_accepted (hp : Proper s) {hdbc : ℕ} (hd : .dbc hdbc ∈ s.held) (hr : r.accepted = true) :
    (s.disconnect hdbc r).ledger.live.Perm (s.held.filter fun h => !isStatementOf hdbc h) ∧
      (s.disconnect hdbc r).ledger.faults = [] := by
  have hsplit : s.ledger.live.Perm
      (s.ledger.live.filter (isStatementOf hdbc) ++ s.ledger.live.filter fun h => !isStatementOf hdbc h) :=
    (List.filter_append_perm (isStatementOf hdbc) s.ledger.live).symm
  obtain ⟨hlive, hfaults⟩ := Ledger.enterAll_closed hsplit
  rw [Client.disconnect, hp.enter_used hd, if_pos hr]
  exact ⟨hlive.trans (hp.live.filter _), hfaults.trans hp.faults⟩

theorem close_held (hc : s.connectionAt d = some c) (r : SqlReturn) :
    (s.close d c r).held.Perm s.held ∧ (s.close d c r).handles = s.handles ∧
      (s.close d c r).queries = s.queries := by
  unfold Client.close
  split
  · obtain ⟨hheld, hqueries, hconnections, hhandles, -⟩ := disconnect_objects s c.hdbc r
    have hc' : (s.disconnect c.hdbc r).connectionAt d = some c := by
      rw [connectionAt, hconnections]
      exact hc
    exact ⟨(held_setConnection_same hc' false).trans (.of_eq hheld), hhandles, hqueries⟩
  · exact ⟨held_setConnection_same hc false, rfl, rfl⟩

theorem close_connectionAt (hc : s.connectionAt d = some c) (r : SqlReturn) :
    (s.close d c r).connectionAt d = some { c with isOpen := false } := by
  have hset (t : Client) (ht : t.connections = s.connections) :
      (t.setConnection d (some { c with isOpen := false })).connectionAt d = some { c with isOpen := false } := by
    obtain ⟨hlt, -⟩ := List.getElem?_eq_some_iff.mp (Option.join_eq_some_iff.mp hc)
    rw [connectionAt, setConnection, ht, List.getElem?_set_self hlt]
    rfl
  unfold Client.close
  split
  · exact hset _ (disconnect_objects s c.hdbc r).2.2.1
  · exact hset _ rfl

theorem close_connected (s : Client) (d : ℕ) (c : Connection) (r : SqlReturn) :
    c.hdbc ∈ (s.close d c r).connected ↔ c.hdbc ∈ s.connected ∧ ¬(c.isOpen = true ∧ r.accepted = true) := by
  unfold Client.close
  cases c.isOpen with
  | false => simp [setConnection]
  | true =>
    change c.hdbc ∈ (s.disconnect c.hdbc r).connected ↔ _
    rw [(disconnect_objects s c.hdbc r).2.2.2.2]
    split_ifs with hr <;> simp [hr]

theorem close_sound (hs : Sound s) (hc : s.connectionAt d = some c) (r : SqlReturn) : Sound (s.close d c r) := by
  obtain ⟨hheld, hhandles, -⟩ := close_held hc r
  exact hs.same hheld hhandles.ge

/-- A connection that is closed over one of its queries frees that query's handle. -/
theorem close_breaks (hp : Proper s) (hc : s.connectionAt d = some c) (hok : s.closes c r ≠ true) :
    ∃ q, some q ∈ s.queries ∧ q.handle ∉ (s.close d c r).ledger.live := by
  simp only [closes, ne_eq, Bool.or_eq_true, Bool.not_eq_true', not_or, Bool.not_eq_false, List.all_eq_true,
    not_forall] at hok
  obtain ⟨⟨hopen, haccepted⟩, o, ho, hq⟩ := hok
  obtain ⟨q, rfl, hparent⟩ : ∃ q, o = some q ∧ q.hdbc = c.hdbc := by
    cases o with
    | none => exact absurd rfl hq
    | some q => exact ⟨q, rfl, by simpa using hq⟩
  obtain ⟨hlive, -⟩ := disconnect_accepted hp (mem_held_connection hc) haccepted
  refine ⟨q, ho, fun hmem => ?_⟩
  rw [Client.close, if_pos hopen] at hmem
  have hfilter := (List.mem_filter.mp (hlive.mem_iff.mp hmem)).2
  simp [StatementHandle.handle, isStatementOf, hparent] at hfilter

theorem close_proper (hp : Proper s) (hc : s.connectionAt d = some c) (hok : s.closes c r = true) :
    Proper (s.close d c r) := by
  have hheld := (close_held hc r).1
  by_cases hopen : c.isOpen = true
  · by_cases haccepted : r.accepted = true
    · obtain ⟨hlive, hfaults⟩ := disconnect_accepted hp (mem_held_connection hc) haccepted
      have hnone : (s.held.filter fun h => !isStatementOf c.hdbc h) = s.held := by
        refine List.filter_eq_self.mpr fun h hh => ?_
        by_contra hstmt
        obtain ⟨q, hq, rfl, hhdbc⟩ := isStatementOf_held hh (by simpa using hstmt)
        simp only [closes, hopen, haccepted, Bool.not_true, Bool.false_or, List.all_eq_true] at hok
        simpa [hhdbc] using hok _ hq
      rw [hnone] at hlive
      refine ⟨?_, ?_⟩
      · rw [Client.close, if_pos hopen]
        exact hfaults
      · refine List.Perm.trans ?_ hheld.symm
        rw [Client.close, if_pos hopen]
        exact hlive
    · refine hp.same ?_ hheld
      rw [Client.close, if_pos hopen, Client.disconnect, hp.enter_used (mem_held_connection hc), if_neg haccepted]
      rfl
  · refine hp.same ?_ hheld
    rw [Client.close, if_neg hopen]
    rfl

theorem close_proper_iff (hp : Proper s) (hc : s.connectionAt d = some c) (r : SqlReturn) :
    Proper (s.close d c r) ↔ s.closes c r = true := by
  refine ⟨fun hclose => ?_, close_proper hp hc⟩
  by_contra hok
  obtain ⟨q, hq, hgone⟩ := close_breaks hp hc hok
  exact hgone (hclose.query_live ((close_held hc r).2.2 ▸ hq))

/-! ## Opening and destroying a connection -/

theorem setConnection_held (hc : s.connectionAt d = some c) (connected : List ℕ) (isOpen : Bool) :
    ({ s with connected := connected }.setConnection d (some { c with isOpen := isOpen })).held.Perm s.held :=
  held_setConnection_same (s := { s with connected := connected }) hc isOpen

theorem connect_sound (hs : Sound s) (hc : s.connectionAt d = some c) (dsn : Option Bytes)
    (disconnect connect : SqlReturn) (diagnostics : Bytes) :
    Sound (s.connect d c dsn disconnect connect diagnostics).1 := by
  have hclose := close_sound hs hc disconnect
  have hset := setConnection_held (close_connectionAt hc disconnect)
    (c.hdbc :: (s.close d c disconnect).connected) true
  unfold Client.connect
  simp only
  split
  · exact hclose.same hset le_rfl
  · exact hclose.same (.refl _) le_rfl

theorem connect_proper (hp : Proper s) (hc : s.connectionAt d = some c) (dsn : Option Bytes)
    (disconnect connect : SqlReturn) (diagnostics : Bytes) :
    Proper (s.connect d c dsn disconnect connect diagnostics).1 ↔ s.closes c disconnect = true := by
  have hc' := close_connectionAt hc disconnect
  unfold Client.connect
  simp only
  constructor
  · intro hconnect
    by_contra hok
    obtain ⟨q, hq, hgone⟩ := close_breaks hp hc hok
    rw [← (close_held hc disconnect).2.2] at hq
    have hgone' : q.handle ∉ ((s.close d c disconnect).enter (.used (.dbc c.hdbc))).ledger.live :=
      fun hmem => hgone (Ledger.mem_enter_live (e := .used _) nofun hmem)
    split at hconnect
    · exact hgone' (hconnect.query_live hq)
    · exact hgone' (hconnect.query_live hq)
  · intro hok
    have hclose := close_proper hp hc hok
    rw [hclose.enter_used (mem_held_connection hc')]
    split
    · exact hclose.same rfl (setConnection_held hc' _ true)
    · exact hclose

theorem destroyConnection_held (hc : s.connectionAt d = some c) (r : SqlReturn) :
    s.held.Perm (.dbc c.hdbc :: (s.destroyConnection d c r).held) ∧
      (s.destroyConnection d c r).handles = s.handles := by
  obtain ⟨hheld, hhandles, -⟩ := close_held hc r
  have hset := held_setConnection (close_connectionAt hc r) none
  unfold Client.destroyConnection
  simp only
  split <;> exact ⟨hheld.symm.trans hset, hhandles⟩

theorem destroyConnection_proper (hp : Proper s) (hc : s.connectionAt d = some c) (r : SqlReturn) :
    Proper (s.destroyConnection d c r) ↔
      s.closes c r = true ∧ (c.hdbc ∉ s.connected ∨ c.isOpen = true ∧ r.accepted = true) := by
  have hc' := close_connectionAt hc r
  have hset : (s.close d c r).held.Perm (.dbc c.hdbc :: (s.destroyConnection d c r).held) :=
    (close_held hc r).1.trans (destroyConnection_held hc r).1
  have hconnected := close_connected s d c r
  by_cases hok : s.closes c r = true
  · have hclose := close_proper hp hc hok
    rw [and_iff_right hok, ← not_iff_not, not_or, not_not, ← hconnected]
    by_cases hstill : c.hdbc ∈ (s.close d c r).connected
    · refine iff_of_true (fun hdestroy => ?_) hstill
      have hlive : (s.destroyConnection d c r).ledger.live = (s.close d c r).ledger.live := by
        rw [Client.destroyConnection]
        simp only [if_pos hstill, setConnection, hclose.enter_used (mem_held_connection hc')]
      have hlength := (hclose.live.trans hset).length_eq
      rw [← hlive, hdestroy.live.length_eq, List.length_cons] at hlength
      omega
    · refine iff_of_false (not_not.mpr ?_) hstill
      refine hclose.freed ?_ hset
      rw [Client.destroyConnection]
      simp only [if_neg hstill]
      rfl
  · refine iff_of_false (fun hdestroy => ?_) fun h => hok h.1
    obtain ⟨q, hq, hgone⟩ := close_breaks hp hc hok
    rw [← (close_held hc r).2.2] at hq
    unfold Client.destroyConnection at hdestroy
    simp only at hdestroy
    split at hdestroy
    · exact hgone (Ledger.mem_enter_live (e := .used _) nofun (hdestroy.query_live hq))
    · exact hgone (Ledger.mem_enter_live (e := .closed _) nofun (hdestroy.query_live hq))

/-! ## Runs -/

theorem sound_step {o : Request} (hs : Sound s) (hstep : s.step o = some t) : Sound t := by
  obtain ⟨⟨u, res⟩, hop, rfl⟩ := Option.map_eq_some_iff.mp hstep
  cases o with
  | initEnvironment a =>
    cases hop
    exact environmentInstance_sound hs a
  | connection a r =>
    obtain rfl : (s.construct a r).1 = u := congrArg Prod.fst (Option.some.inj hop)
    exact construct_sound hs a r
  | «open» d dsn disconnect connect diagnostics =>
    obtain ⟨c, hc, hop⟩ := Option.map_eq_some_iff.mp hop
    obtain rfl : (s.connect d c dsn disconnect connect diagnostics).1 = u := congrArg Prod.fst hop
    exact connect_sound hs hc dsn disconnect connect diagnostics
  | close d disconnect =>
    obtain ⟨c, hc, hop⟩ := Option.map_eq_some_iff.mp hop
    cases hop
    exact close_sound hs hc disconnect
  | transaction d t first second diagnostics =>
    obtain ⟨c, hc, hop⟩ := Option.map_eq_some_iff.mp hop
    cases hop
    exact hs.same (.refl _) le_rfl
  | destroyConnection d disconnect =>
    obtain ⟨c, hc, hop⟩ := Option.map_eq_some_iff.mp hop
    cases hop
    obtain ⟨hheld, hhandles⟩ := destroyConnection_held hc disconnect
    exact hs.less hheld hhandles.ge
  | query d r =>
    obtain ⟨c, hc, hop⟩ := Option.map_eq_some_iff.mp hop
    simp only [Client.query] at hop
    split at hop
    · cases hop
      exact hs.more (h := .stmt s.handles c.hdbc) rfl (held_push s ⟨s.handles, c.hdbc⟩) rfl
    · cases hop
      exact hs.same (.refl _) le_rfl
  | statement i =>
    obtain ⟨q, hq, hop⟩ := Option.map_eq_some_iff.mp hop
    cases hop
    exact hs.same (.refl _) le_rfl
  | destroyQuery i =>
    obtain ⟨q, hq, hop⟩ := Option.map_eq_some_iff.mp hop
    cases hop
    exact hs.less (held_destroyQuery hq) le_rfl

theorem proper_step {o : Request} (hs : Sound s) (hp : Proper s) (hstep : s.step o = some t) :
    Proper t ↔ s.inOrder o = true := by
  obtain ⟨⟨u, res⟩, hop, rfl⟩ := Option.map_eq_some_iff.mp hstep
  cases o with
  | initEnvironment a =>
    cases hop
    exact environmentInstance_proper hs hp a
  | connection a r =>
    obtain rfl : (s.construct a r).1 = u := congrArg Prod.fst (Option.some.inj hop)
    exact construct_proper hs hp a r
  | «open» d dsn disconnect connect diagnostics =>
    obtain ⟨c, hc, hop⟩ := Option.map_eq_some_iff.mp hop
    obtain rfl : (s.connect d c dsn disconnect connect diagnostics).1 = u := congrArg Prod.fst hop
    rw [inOrder, hc]
    exact connect_proper hp hc dsn disconnect connect diagnostics
  | close d disconnect =>
    obtain ⟨c, hc, hop⟩ := Option.map_eq_some_iff.mp hop
    cases hop
    rw [inOrder, hc]
    exact close_proper_iff hp hc disconnect
  | transaction d t first second diagnostics =>
    obtain ⟨c, hc, hop⟩ := Option.map_eq_some_iff.mp hop
    cases hop
    rw [hp.enter_used (mem_held_connection hc)]
    exact iff_of_true hp rfl
  | destroyConnection d disconnect =>
    obtain ⟨c, hc, hop⟩ := Option.map_eq_some_iff.mp hop
    cases hop
    rw [inOrder, hc]
    simpa using destroyConnection_proper hp hc disconnect
  | query d r =>
    obtain ⟨c, hc, hop⟩ := Option.map_eq_some_iff.mp hop
    simp only [Client.query, hp.enter_used (mem_held_connection hc)] at hop
    refine iff_of_true ?_ rfl
    split at hop
    · cases hop
      exact hp.allocated hs (m := (.stmt · c.hdbc)) rfl rfl (held_push s ⟨s.handles, c.hdbc⟩)
    · cases hop
      exact hp
  | statement i =>
    obtain ⟨q, hq, hop⟩ := Option.map_eq_some_iff.mp hop
    cases hop
    rw [hp.enter_used (mem_held_query hq)]
    exact iff_of_true hp rfl
  | destroyQuery i =>
    obtain ⟨q, hq, hop⟩ := Option.map_eq_some_iff.mp hop
    cases hop
    exact iff_of_true (hp.freed rfl (held_destroyQuery hq)) rfl

theorem sound_new : Sound .new := ⟨List.nodup_nil, fun _ hh => absurd hh List.not_mem_nil⟩

/-- No driver call is made on a handle that is not allocated, and no handle outlives its object, in every state of
a run, if and only if every step is in order: a connection is closed, opened again or destroyed only while it has
no query, or when the driver refuses to disconnect, and never destroyed with its data source; and the environment
is set up to the end. -/
theorem handles_owned_iff {os : List Request} (hrun : Transition.run Client.step .new os = some s) :
    (∀ os₁ s₁, os₁ <+: os → Transition.run Client.step .new os₁ = some s₁ → Proper s₁) ↔
      Transition.Along Client.step (fun s o => s.inOrder o = true) .new os :=
  Transition.reached_iff_along_of Client.step (J := Sound) (fun _ _ _ hs _ h => sound_step hs h)
    (fun _ _ _ hs hp h => proper_step hs hp h) sound_new ⟨rfl, .refl _⟩ hrun

end Runs

namespace Sample

def halfway : EnvironmentAnswers := ⟨.success, .error, .success⟩

def complete : EnvironmentAnswers := ⟨.success, .success, .successWithInfo⟩

/-- The environment is set up at the second attempt, and one connection is opened twice. -/
def reopened : List Request :=
  [.initEnvironment halfway, .connection complete .success, .open 0 none .success .success [], .query 0 .success,
    .transaction 0 (.begin .serializable) .success .success [], .statement 0, .transaction 0 .commit .success .error [],
    .destroyQuery 0, .open 0 (some (ascii "db")) .success .success [], .query 0 .error, .close 0 .success,
    .destroyConnection 0 .error]

end Sample

theorem handles_owned_reopened : ∃ s, Transition.run Client.step .new Sample.reopened = some s ∧
    s.connected = [] ∧ s.held = [.env 0] ∧ Proper s := by
  obtain ⟨s, hrun, hstate⟩ := Option.map_eq_some_iff.mp
    (show (Transition.run Client.step .new Sample.reopened).map (fun s => (s.connected, s.held)) =
      some ([], [.env 0]) by decide +kernel)
  have hok : Transition.Along Client.step (fun s o => s.inOrder o = true) .new Sample.reopened := by decide +kernel
  exact ⟨s, hrun, congrArg Prod.fst hstate, congrArg Prod.snd hstate,
    (handles_owned_iff hrun).mpr hok _ _ List.prefix_rfl hrun⟩

end Dcl.Odbc
