import Dcl.Http.Local
import Dcl.Tcp.Ownership

/-! # How often a request is passed to the handler

Every request object has a number, and `Table.passed` records with which number each invocation of
the request handler was made. `Once` is the invariant behind at-most-once delivery: no number was
passed twice, and a request that was passed and is still stored belongs to a connection that no
thread will ever find again.

An exception of the handler leaves the object stored when it was stored before. In a worker the
connection is lost with it. In the I/O thread the connection stays, and its next bytes invoke the
handler again: `returns` excludes just these invocations. -/
namespace Dcl.Http
set_option autoImplicit false

/-! ## One call -/

section Calls
variable {pf : Platform} {on : OnRequest}

/-- In a call the handler is invoked at most once, by the pass that goes to `closing`. -/
def Frame.Invoked (f : Frame) : Prop :=
  f.passed = [] ∨ ∃ q, f.passed = [q] ∧ f.rq.state = .closing

theorem endOfHeaders_passed (f : Frame) :
    (Sum.elim id Prod.fst (endOfHeaders f)).passed = f.passed := by
  simp only [endOfHeaders]
  split
  · rfl
  · split <;> rfl

/-- Only the pass that invokes the handler adds to `passed`. -/
theorem pass_passed {f : Frame} (hs : f.rq.state ≠ .processRequest) :
    (Sum.elim id Prod.fst (pass pf on f)).passed = f.passed := by
  unfold pass
  cases hf : f.rq.state with
  | waitCommand =>
    simp only [waitCommand]
    split <;> rfl
  | waitHeader =>
    simp only [waitHeader]
    split
    · rfl
    · split
      · exact endOfHeaders_passed _
      · rfl
  | receivingData =>
    simp only [receivingData]
    split
    · split <;> rfl
    · rfl
  | processRequest => exact absurd hf hs
  | closing => rfl

theorem invoked_pass (f g : Frame) (hf : f.Invoked) (h : pass pf on f = .inl g) : g.Invoked := by
  obtain hf | ⟨q, _, hs⟩ := hf
  · by_cases hs : f.rq.state = .processRequest
    · simp only [pass, hs, processRequest] at h
      split at h
      · cases h
      · cases h
        exact .inr ⟨f.rq.req, by rw [hf]; rfl, rfl⟩
    · have hg := @pass_passed pf on f hs
      rw [h] at hg
      exact .inl (hg.trans hf)
  · simp [pass, hs] at h

/-- A call passes no request to the handler, or it passes one and does not store it, unless the
handler throws on a request that was stored before. -/
theorem process_passed {entry : Option Request} {inp : StringStream} {r : Served}
    (h : process pf on entry inp = some r) :
    r.passed = [] ∨ ∃ q, r.passed = [q] ∧
      (r.entry = none ∨ entry.isSome ∧ on q = none ∧ r.result = none) := by
  obtain ⟨⟨g, x⟩, hloop, rfl⟩ := Option.map_eq_some_iff.mp h
  obtain ⟨f, hf, hpass⟩ := Loop.loop_invariant invoked_pass hloop (.inl rfl)
  have hpassed : (Served.of entry.isSome (g, x)).passed = g.passed := by cases x <;> rfl
  rw [hpassed]
  obtain hf | ⟨q, hq, hs⟩ := hf
  · by_cases hs : f.rq.state = .processRequest
    · simp only [pass, hs, processRequest] at hpass
      split at hpass
      next hon =>
        cases hpass
        refine .inr ⟨f.rq.req, by rw [hf]; rfl, ?_⟩
        cases he : entry.isSome with
        | true => exact .inr ⟨rfl, hon, rfl⟩
        | false => exact .inl rfl
      next => cases hpass
    · have hg := @pass_passed pf on f hs
      rw [hpass] at hg
      exact .inl (hg.trans hf)
  · simp only [pass, hs, Sum.inr.injEq, Prod.mk.injEq] at hpass
    obtain ⟨rfl, rfl⟩ := hpass
    exact .inr ⟨q, hq, .inl rfl⟩

end Calls

/-! ## The table -/

def Table.serials (tb : Table) : List ℕ := tb.passed.map Delivery.serial

/-- No number was passed twice, and the numbers of the stored objects are different. -/
structure Table.Once (tb : Table) : Prop where
  stored : ∀ fd p, tb.reqs fd = some p → p.1 < tb.made
  apart : ∀ fd fd' p p', tb.reqs fd = some p → tb.reqs fd' = some p' → p.1 = p'.1 → fd = fd'
  known : ∀ n ∈ tb.serials, n < tb.made
  once : tb.serials.Nodup

section Tables
variable {tb : Table} {c : Tcp.Conn} {r : Served}

theorem Table.after_reqs {fd : Tcp.Fd} {p : ℕ × Request} (h : (tb.after c r).reqs fd = some p) :
    (fd = c.handle ∧ p.1 = tb.serial c.handle ∧ r.entry = some p.2) ∨
      (fd ≠ c.handle ∧ tb.reqs fd = some p) := by
  by_cases hfd : fd = c.handle
  · left
    subst hfd
    simp only [Table.after, Function.update_self, Option.map_eq_some_iff] at h
    obtain ⟨q, hq, rfl⟩ := h
    exact ⟨rfl, rfl, hq⟩
  · right
    simp only [Table.after, Function.update_of_ne hfd] at h
    exact ⟨hfd, h⟩

theorem Table.after_serials :
    (tb.after c r).serials = tb.serials ++ r.passed.map fun _ => tb.serial c.handle := by
  simp [Table.serials, Table.after, Function.comp_def]

theorem Table.Once.serial_lt (h : tb.Once) : tb.serial c.handle < (tb.after c r).made := by
  unfold Table.serial Table.after
  cases hp : tb.reqs c.handle with
  | none => simp
  | some p => simpa using h.stored c.handle p hp

theorem Table.made_le : tb.made ≤ (tb.after c r).made := by
  unfold Table.after
  split <;> simp

theorem Table.Once.serial_ne (h : tb.Once) {fd : Tcp.Fd} {p : ℕ × Request}
    (hp : tb.reqs fd = some p) (hne : fd ≠ c.handle) : p.1 ≠ tb.serial c.handle := by
  unfold Table.serial
  cases hq : tb.reqs c.handle with
  | none => simpa using (h.stored fd p hp).ne
  | some q => exact fun heq => hne (h.apart fd c.handle p q hp hq (by simpa using heq))

theorem Table.Once.after (h : tb.Once) (hnew : tb.serial c.handle ∉ tb.serials)
    (hone : r.passed.length ≤ 1) : (tb.after c r).Once := by
  refine ⟨fun fd p hp => ?_, fun fd fd' p p' hp hp' heq => ?_, fun n hn => ?_, ?_⟩
  · obtain ⟨_, hp1, _⟩ | ⟨_, hp⟩ := Table.after_reqs hp
    · rw [hp1]
      exact h.serial_lt
    · exact lt_of_lt_of_le (h.stored fd p hp) Table.made_le
  · obtain ⟨hfd, hp1, _⟩ | ⟨hfd, hp⟩ := Table.after_reqs hp
    · obtain ⟨hfd', _, _⟩ | ⟨hfd', hp'⟩ := Table.after_reqs hp'
      · rw [hfd, hfd']
      · exact absurd (by rw [← heq, hp1]) (h.serial_ne hp' hfd')
    · obtain ⟨_, hp1', _⟩ | ⟨_, hp'⟩ := Table.after_reqs hp'
      · exact absurd (by rw [heq, hp1']) (h.serial_ne hp hfd)
      · exact h.apart fd fd' p p' hp hp' heq
  · rw [Table.after_serials, List.mem_append] at hn
    obtain hn | hn := hn
    · exact lt_of_lt_of_le (h.known n hn) Table.made_le
    · obtain ⟨_, _, rfl⟩ := List.mem_map.mp hn
      exact h.serial_lt
  · rw [Table.after_serials]
    match hr : r.passed, hone with
    | [], _ => simpa using h.once
    | [q], _ =>
      rw [List.map_singleton, List.nodup_append]
      refine ⟨h.once, List.nodup_singleton _, fun n hn m hm heq => hnew ?_⟩
      rw [← List.mem_singleton.mp hm, ← heq]
      exact hn

end Tables

/-! ## The server -/

/-- The invocations that the I/O thread makes for a stored request return. -/
def returns (pf : Platform) (s : Tcp.State Table OnRequest) : Tcp.Event OnRequest → Bool
  | .dispatch _ (.data bs) on =>
      match s.io with
      | .dispatch i rfds _ => (s.aReqs[i]?.bind s.heap).all fun rq =>
          !rfds.contains rq.handle || (s.user.reqs rq.handle).all fun p =>
            (process pf on (some p.2) (rq.readBuffer.clear.insert bs)).all fun r =>
              r.passed.all fun q => (on q).isSome
      | _ => true
  | _ => true

/-- No request was passed twice. A request that was passed and is still stored belongs to a
connection that is in no place. -/
structure Once (s : Tcp.State Table OnRequest) : Prop where
  exclusive : Tcp.Exclusive s
  numbered : Tcp.Numbered s
  distinct : Tcp.Distinct s
  table : s.user.Once
  spent : ∀ fd p, s.user.reqs fd = some p → p.1 ∈ s.user.serials →
    ∃ id rq, s.heap id = some rq ∧ rq.handle = fd ∧ s.tally id = 0

section Runs
variable {pf : Platform} {cfg : Tcp.Config} {s s' : Tcp.State Table OnRequest}

theorem once_init (n : ℕ) : Once (Tcp.State.init OnRequest n Table.empty) := by
  refine ⟨Tcp.exclusive_init n _, Tcp.numbered_init n _, fun i j rq rq' h => ?_, ⟨?_, ?_, ?_, ?_⟩,
    fun fd p h => ?_⟩
  · simp [Tcp.State.init] at h
  · simp [Tcp.State.init, Table.empty]
  · simp [Tcp.State.init, Table.empty]
  · simp [Tcp.State.init, Table.empty, Table.serials]
  · simp [Tcp.State.init, Table.empty, Table.serials]
  · simp [Tcp.State.init, Table.empty] at h

/-- A connection that is in some place has no request that was passed before. -/
theorem Once.serial_notMem (hs : Once s) {id : Tcp.ReqId} {rq : Tcp.Request}
    (hrq : s.heap id = some rq) (hpos : 0 < s.tally id) :
    s.user.serial rq.handle ∉ s.user.serials := by
  intro hmem
  cases hp : s.user.reqs rq.handle with
  | none =>
    rw [Table.serial, hp] at hmem
    exact Nat.lt_irrefl _ (hs.table.known _ hmem)
  | some p =>
    rw [Table.serial, hp] at hmem
    obtain ⟨j, rq', hrq', hfd, hj⟩ := hs.spent _ p hp hmem
    rw [hs.distinct j id rq' rq hrq' hrq hfd] at hj
    omega

theorem Once.spent_of (hs : Once s) (huser : s'.user = s.user)
    (hkeep : ∀ id rq, s.heap id = some rq → s.tally id = 0 →
      ∃ rq', s'.heap id = some rq' ∧ rq'.handle = rq.handle ∧ s'.tally id = 0) :
    ∀ fd p, s'.user.reqs fd = some p → p.1 ∈ s'.user.serials →
      ∃ id rq, s'.heap id = some rq ∧ rq.handle = fd ∧ s'.tally id = 0 := by
  intro fd p hp hmem
  rw [huser] at hp hmem
  obtain ⟨id, rq, hrq, hfd, h0⟩ := hs.spent fd p hp hmem
  obtain ⟨rq', hrq', hfd', h0'⟩ := hkeep id rq hrq h0
  exact ⟨id, rq', hrq', hfd'.trans hfd, h0'⟩

/-- A call for connection `id`, which is in some place before. -/
theorem Once.call (hs : Once s) {id : Tcp.ReqId} {rq rq' : Tcp.Request} {r : Served}
    (hrq : s.heap id = some rq) (hpos : 0 < s.tally id) (hfd : rq'.handle = rq.handle)
    (hheap : s'.heap = Function.update s.heap id (some rq'))
    (huser : s'.user = s.user.after ⟨id, rq.handle⟩ r) (htally : ∀ x, s'.tally x ≤ s.tally x)
    (hone : r.passed = [] ∨ ∃ q, r.passed = [q] ∧ (r.entry = none ∨ s'.tally id = 0)) :
    s'.user.Once ∧ ∀ fd p, s'.user.reqs fd = some p → p.1 ∈ s'.user.serials →
      ∃ id rq, s'.heap id = some rq ∧ rq.handle = fd ∧ s'.tally id = 0 := by
  have hnew := hs.serial_notMem hrq hpos
  refine ⟨?_, fun fd p hp hmem => ?_⟩
  · rw [huser]
    refine hs.table.after hnew ?_
    obtain h0 | ⟨q, hq, _⟩ := hone
    · simp [h0]
    · simp [hq]
  · rw [huser] at hp hmem
    rw [Table.after_serials, List.mem_append] at hmem
    obtain ⟨rfl, hp1, hentry⟩ | ⟨hne, hp⟩ := Table.after_reqs hp
    · -- the object of the call: it was passed by this very call
      have hpassed : r.passed ≠ [] := by
        intro h0
        rw [h0, List.map_nil, hp1] at hmem
        exact hnew (hmem.resolve_right List.not_mem_nil)
      obtain ⟨q, _, h0⟩ := hone.resolve_left hpassed
      rw [hentry] at h0
      exact ⟨id, rq', by rw [hheap, Function.update_self], hfd, h0.resolve_left (by simp)⟩
    · have hold : p.1 ∈ s.user.serials := by
        refine hmem.resolve_right fun hm => ?_
        obtain ⟨_, _, heq⟩ := List.mem_map.mp hm
        exact hs.table.serial_ne hp hne heq.symm
      obtain ⟨j, rqj, hrqj, hfdj, hj⟩ := hs.spent fd p hp hold
      have hji : j ≠ id := by
        rintro rfl
        omega
      refine ⟨j, rqj, by rw [hheap, Function.update_of_ne hji, hrqj], hfdj, ?_⟩
      have := htally j
      omega

theorem Once.quiet (hs : Once s) {id : Tcp.ReqId} {rq rq' : Tcp.Request}
    (hrq : s.heap id = some rq) (hfd : rq'.handle = rq.handle)
    (hheap : s'.heap = Function.update s.heap id (some rq')) (huser : s'.user = s.user)
    (htally : ∀ x, s'.tally x = s.tally x) :
    s'.user.Once ∧ ∀ fd p, s'.user.reqs fd = some p → p.1 ∈ s'.user.serials →
      ∃ id rq, s'.heap id = some rq ∧ rq.handle = fd ∧ s'.tally id = 0 := by
  refine ⟨huser ▸ hs.table, hs.spent_of huser fun j rqj hj h0 => ?_⟩
  rw [hheap, htally j]
  by_cases hji : j = id
  · subst hji
    rw [hrq, Option.some.injEq] at hj
    exact ⟨rq', Function.update_self .., by rw [hfd, hj], h0⟩
  · exact ⟨rqj, by rw [Function.update_of_ne hji, hj], rfl, h0⟩

theorem returns_call {i : ℕ} {rfds wfds : List Tcp.Fd} {id : Tcp.ReqId} {rq : Tcp.Request}
    {wr : Tcp.WriteResult} {bs : Bytes} {on : OnRequest} {r : Served}
    (hret : returns pf s (.dispatch wr (.data bs) on)) (hio : s.io = .dispatch i rfds wfds)
    (hi : s.aReqs[i]? = some id) (hrq : s.heap id = some rq)
    (hready : rfds.contains rq.handle = true)
    (hcall : process pf on ((s.user.reqs rq.handle).map Prod.snd) (rq.readBuffer.clear.insert bs) =
      some r) :
    r.passed = [] ∨ ∃ q, r.passed = [q] ∧ r.entry = none := by
  refine (process_passed hcall).imp_right fun ⟨q, hq, h⟩ => ⟨q, hq, ?_⟩
  refine h.resolve_right fun ⟨hsome, hnone, _⟩ => ?_
  obtain ⟨p, hp⟩ := Option.isSome_iff_exists.mp (by simpa using hsome)
  rw [hp, Option.map_some] at hcall
  have hmem : rq.handle ∈ rfds := by simpa using hready
  simp [returns, hio, hi, hrq, hmem, hp, hcall, hq, hnone] at hret

theorem once_step (s : Tcp.State Table OnRequest) (e : Tcp.Event OnRequest)
    (s' : Tcp.State Table OnRequest) (hs : Once s) (hret : returns pf s e)
    (h : Tcp.step cfg (handlers pf) s e = some s') : Once s' := by
  suffices hsuf : s'.user.Once ∧ ∀ fd p, s'.user.reqs fd = some p → p.1 ∈ s'.user.serials →
      ∃ id rq, s'.heap id = some rq ∧ rq.handle = fd ∧ s'.tally id = 0 from
    ⟨Tcp.exclusive_step s e s' hs.exclusive h, Tcp.numbered_step s e s' hs.numbered h,
      Tcp.distinct_step hs.numbered hs.distinct h, hsuf.1, hsuf.2⟩
  cases Tcp.step_effect h with
  | move data tally =>
    refine ⟨data.user ▸ hs.table, hs.spent_of data.user fun id rq hrq h0 => ?_⟩
    exact ⟨rq, by rw [data.heap, hrq], rfl, by rw [tally id, h0]⟩
  | accept fd o t _ _ turn data tally =>
    obtain rfl : ⟨.new fd, s.user, [], false⟩ = t := Option.some.inj turn
    refine ⟨data.user ▸ hs.table, hs.spent_of data.user fun id rq hrq h0 => ?_⟩
    have hne : id ≠ s.created := Nat.ne_of_lt (hs.numbered.heap id rq hrq)
    refine ⟨rq, by rw [data.heap, Function.update_of_ne hne, hrq], rfl, ?_⟩
    rw [tally id, h0]
    simp [Ne.symm hne]
  | dispatch i rfds wfds id rq wr rd o t event pc active object turn data tally =>
    subst event
    have hfd := Tcp.ioTurn_handle turn
    have hpos : 0 < s.tally id := (Tcp.tally_pos_iff s id).mpr (.inl (List.mem_of_getElem? active))
    cases ioTurn_http turn with
    | quiet user => exact hs.quiet object hfd data.heap (data.user.trans user) tally
    | broken user => exact hs.quiet object hfd data.heap (data.user.trans user) tally
    | call bs r ready hdata _ call user =>
      subst hdata
      refine hs.call object hpos hfd data.heap (data.user.trans user) (fun x => (tally x).le) ?_
      exact (returns_call hret pc active object ready call).imp_right fun ⟨q, hq, h0⟩ =>
        ⟨q, hq, .inl h0⟩
  | serve k id rq o t _ holding object turn data tally =>
    obtain ⟨r, call, user, _, threw, _⟩ := processConnection_http turn
    have hheld : id ∈ s.held := List.mem_filterMap.mpr ⟨_, List.mem_of_getElem? holding, rfl⟩
    have hpos : 0 < s.tally id := (Tcp.tally_pos_iff s id).mpr (.inr (.inr (.inl hheld)))
    refine hs.call object hpos (Tcp.processConnection_handle turn) data.heap
      (data.user.trans user) (fun x => by have := tally x; omega) ?_
    refine (process_passed call).imp_right fun ⟨q, hq, h0⟩ => ⟨q, hq, h0.imp_right fun ⟨_, _, hr⟩ => ?_⟩
    -- the connection is lost with the exception
    have hid := tally id
    rw [threw, hr] at hid
    have := hs.exclusive.once id
    simp at hid
    omega
  | disconnect _ _ _ id rq _ _ active _ _ _ data tally =>
    refine ⟨data.user ▸ hs.table, hs.spent_of data.user fun j rqj hj h0 => ?_⟩
    have hne : j ≠ id := by
      rintro rfl
      have := (Tcp.tally_pos_iff s j).mpr (.inl (List.mem_of_getElem? active))
      omega
    have := tally j
    exact ⟨rqj, by rw [data.heap, Function.update_of_ne hne, hj], rfl, by omega⟩
  | disconnectThrows id rq _ _ _ _ data tally =>
    refine ⟨data.user ▸ hs.table, hs.spent_of data.user fun j rqj hj h0 => ?_⟩
    exact ⟨rqj, by rw [data.heap, hj], rfl, by rw [tally j, h0]⟩

end Runs

/-- In every run in which no invocation that the I/O thread makes for a stored request throws, every
request is passed to the handler at most once. -/
theorem request_passed_once (pf : Platform) (cfg : Tcp.Config) (n : ℕ)
    (es : List (Tcp.Event OnRequest)) (s : Tcp.State Table OnRequest)
    (hrun : Transition.run (Tcp.step cfg (handlers pf)) (Tcp.State.init _ n Table.empty) es = some s)
    (hret : Transition.Along (Tcp.step cfg (handlers pf)) (fun s e => returns pf s e)
      (Tcp.State.init _ n Table.empty) es) :
    s.user.serials.Nodup :=
  (Transition.run_invariant (Tcp.step cfg (handlers pf)) once_step hret hrun
    (once_init n)).table.once

/-! ## A request that is passed twice -/

namespace Sample
open Tcp.Sample (acceptRound readRound workerRound)

def throwing : OnRequest := fun _ => none

def throwRound (bs : Bytes) : List (Tcp.Event OnRequest) :=
  (readRound 5 (.data bs) throwing).take 8 ++ [.caught]

def inOneChunk : List (Tcp.Event OnRequest) :=
  acceptRound 5 onRequest ++ throwRound (ascii "P / 1\n\n") ++
    readRound 5 (.data (ascii "P / 1\n\n")) onRequest

def inTwoChunks : List (Tcp.Event OnRequest) :=
  acceptRound 5 onRequest ++ readRound 5 (.data (ascii "P / 1\nA")) onRequest ++
    workerRound onRequest ++ throwRound (ascii "\n\n") ++ readRound 5 (.data (ascii "x")) onRequest

end Sample

theorem request_passed_once_thrown :
    ∃ s : Tcp.State Table OnRequest, s.user.serials = [0, 1] ∧ s.user.serials.Nodup := by
  have h : (Sample.final Sample.inOneChunk).map (fun s => s.user.serials) = some [0, 1] := by
    decide +kernel
  obtain ⟨s, hrun, hs⟩ := Option.map_eq_some_iff.mp h
  exact ⟨s, hs, request_passed_once Sample.platform Tcp.Sample.config 1 _ s hrun (by decide +kernel)⟩

/-- The handler throws on a request of two chunks in the I/O thread, and the next byte on the
connection passes the same request again. -/
theorem request_passed_again :
    ∃ s : Tcp.State Table OnRequest, Sample.final Sample.inTwoChunks = some s ∧
      s.user.serials = [0, 0] ∧ ¬ s.user.serials.Nodup := by
  have h : (Sample.final Sample.inTwoChunks).map (fun s => s.user.serials) = some [0, 0] := by
    decide +kernel
  obtain ⟨s, hrun, hs⟩ := Option.map_eq_some_iff.mp h
  exact ⟨s, hrun, hs, by simp [hs]⟩

end Dcl.Http
