import Dcl.Tcp.Ownership

/-! # What becomes of the bytes written to a connection

The output stream of a handler is the write buffer of the connection. Of the bytes a handler writes,
those that find the stream good enter the buffer (`entered`); `connection_write` offers the unread
part of the buffer to the socket, and the bytes it accepts are `sent`.

* `Turn.Carries`: a turn neither loses nor repeats a byte that entered the buffer.
* `Marked`: eofbit, the marker for "nothing to send", stands only on a buffer without unread bytes,
  unless the socket reported a write error before.

Both need positions that fit an `int`: `connection_write` keeps them in `int`s. -/
namespace Dcl.Tcp
set_option autoImplicit false

section Log
variable {ω : Type}

/-- The bytes of connection `id` that handlers wrote, taken by the stream or not. -/
def Obs.written (id : ReqId) : Obs ω → Bytes
  | .wrote i bs _ => if i = id then bs else []
  | _ => []

/-- The bytes of connection `id` that entered its write buffer. -/
def Obs.entered (id : ReqId) : Obs ω → Bytes
  | .wrote i bs true => if i = id then bs else []
  | _ => []

def Obs.accepted (id : ReqId) : Obs ω → Bytes
  | .sent i bs => if i = id then bs else []
  | _ => []

def Obs.failed (id : ReqId) : Obs ω → Bool
  | .writeError i => i == id
  | _ => false

def written (log : List (Obs ω)) (id : ReqId) : Bytes := log.flatMap (Obs.written id)

def entered (log : List (Obs ω)) (id : ReqId) : Bytes := log.flatMap (Obs.entered id)

def sent (log : List (Obs ω)) (id : ReqId) : Bytes := log.flatMap (Obs.accepted id)

/-- The socket of connection `id` reported a write error. -/
def writeFailed (log : List (Obs ω)) (id : ReqId) : Bool := log.any (Obs.failed id)

theorem flatMap_elsewhere {log : List (Obs ω)} {id : ReqId} {f : Obs ω → Bytes}
    (hf : ∀ x : Obs ω, x.conn ≠ id → f x = []) (h : ∀ x ∈ log, x.conn ≠ id) :
    log.flatMap f = [] :=
  List.flatMap_eq_nil_iff.mpr fun x hx => hf x (h x hx)

theorem Obs.entered_elsewhere {id : ReqId} (x : Obs ω) (h : x.conn ≠ id) : x.entered id = [] := by
  cases x with
  | wrote i bs taken => cases taken <;> simp_all [Obs.entered, Obs.conn]
  | _ => rfl

theorem Obs.accepted_elsewhere {id : ReqId} (x : Obs ω) (h : x.conn ≠ id) :
    x.accepted id = [] := by
  cases x with
  | sent i bs => simp_all [Obs.accepted, Obs.conn]
  | _ => rfl

theorem writeFailed_elsewhere {log : List (Obs ω)} {id : ReqId} (h : ∀ x ∈ log, x.conn ≠ id) :
    writeFailed log id = false := by
  rw [writeFailed, List.any_eq_false]
  intro x hx
  have hne := h x hx
  cases x <;> simp_all [Obs.failed, Obs.conn]

theorem entered_append (a b : List (Obs ω)) (id : ReqId) :
    entered (a ++ b) id = entered a id ++ entered b id := List.flatMap_append

theorem sent_append (a b : List (Obs ω)) (id : ReqId) :
    sent (a ++ b) id = sent a id ++ sent b id := List.flatMap_append

theorem writeFailed_append (a b : List (Obs ω)) (id : ReqId) :
    writeFailed (a ++ b) id = (writeFailed a id || writeFailed b id) := List.any_append

end Log

/-! ## `connection_write` -/

section Turns
variable {σ ω : Type}

/-- What `connection_write` does to a buffer whose size fits an `int`. -/
inductive WriteEffect (id : ReqId) (b : StringStream) : StringStream → List (Obs ω) → Prop where
  | marked (h : b.eofbit = true) : WriteEffect id b b []
  | failed (h : b.fail = true) :
      WriteEffect id b { b with eofbit := true, failbit := true } []
  | drained (h : b.rest = []) : WriteEffect id b b.setEof []
  | error : WriteEffect id b b.setBad [.writeError id]
  | later : WriteEffect id b b []
  | some (n : ℕ) (taken : Bytes) :
      WriteEffect id b { b with taken := taken, rest := b.rest.drop n }
        [.sent id (b.rest.take n)]

theorem connectionWrite_failed {u : σ} {id : ReqId} {rq : Request} {wr : WriteResult}
    (he : rq.writeBuffer.eofbit = false) (hf : rq.writeBuffer.fail = true) :
    connectionWrite ω u id rq wr =
      some ⟨{ rq with writeBuffer := { rq.writeBuffer with eofbit := true, failbit := true } }, u,
        [], false⟩ := by
  have hg : rq.writeBuffer.good = false := by
    simp only [StringStream.good, StringStream.fail, Bool.or_eq_true] at hf ⊢
    rcases hf with hf | hf <;> simp [hf]
  have hseek : rq.writeBuffer.setFail.seekgEnd = rq.writeBuffer.setFail := by
    unfold StringStream.seekgEnd
    rw [StringStream.seekg_failed rfl]
    simp [StringStream.setFail, he]
  have hg' : rq.writeBuffer.setFail.good = false := by simp [StringStream.good, StringStream.setFail]
  simp only [connectionWrite, he, Bool.false_eq_true, if_false, StringStream.tellg_not_good hg, hseek,
    StringStream.tellg_not_good hg', toInt32_neg_one, Int.sub_self]
  rfl

theorem connectionWrite_good {u : σ} {id : ReqId} {rq : Request} {wr : WriteResult}
    (hg : rq.writeBuffer.good = true) (hsize : rq.writeBuffer.data.length < 2 ^ 31) :
    connectionWrite ω u id rq wr =
      let b := rq.writeBuffer
      if b.rest = [] then some ⟨{ rq with writeBuffer := b.setEof }, u, [], false⟩
      else match wr with
        | .ioError => some ⟨{ rq with writeBuffer := b.setBad }, u, [.writeError id], false⟩
        | .notReady => some ⟨rq, u, [], false⟩
        | .wrote n =>
            if b.rest.length < n then none
            else some ⟨{ rq with writeBuffer :=
                if n = 0 then b else if b.rest.length = n then b.discard else b.seekgCur n }, u,
              [.sent id (b.rest.take n)], false⟩ := by
  obtain ⟨l, r, hb⟩ : ∃ l r, rq.writeBuffer = .cut l r := ⟨_, _, StringStream.eq_cut hg⟩
  have hlen : (l ++ r).length = l.length + r.length := List.length_append
  rw [hb, StringStream.cut_data, hlen] at hsize
  have hback : (StringStream.cut (l ++ r) []).seekg l.length = .cut l r :=
    StringStream.seekg_cut (by simp)
  have hpos : toInt32 (l.length : ℤ) = l.length := toInt32_of_lt (by omega)
  have hsz : toInt32 (toInt32 ((l ++ r).length : ℤ) - l.length) = r.length := by
    have hdiff : ((l ++ r).length : ℤ) - l.length = r.length := by omega
    rw [toInt32_of_lt (by omega), hdiff, toInt32_of_lt (by omega)]
  have hread : (StringStream.cut l r).read r.length = (r, .cut (l ++ r) []) := by
    simpa using StringStream.read_cut l r []
  have he : (StringStream.cut l r).eofbit = false := rfl
  simp only [connectionWrite, hb, he, StringStream.tellg_cut, StringStream.seekgEnd_cut, hpos, hsz,
    Bool.false_eq_true, if_false, StringStream.cut_rest, hback, Int.toNat_natCast, hread, lt_irrefl]
  cases r with
  | nil => simp [StringStream.cut]
  | cons c r =>
    have hne : ¬ ((c :: r).length : ℤ) = 0 := by simp only [List.length_cons]; omega
    have hnn : ¬ ((c :: r).length : ℤ) < 0 := by omega
    simp only [if_neg hne, if_neg hnn, reduceCtorEq, if_false]
    cases wr with
    | ioError => rfl
    | notReady => rw [← hb]
    | wrote n => rfl

theorem sentEffect {id : ReqId} {b : StringStream} (hg : b.good = true) {n : ℕ}
    (hn : n ≤ b.rest.length) :
    @WriteEffect ω id b
      (if n = 0 then b else if b.rest.length = n then b.discard else b.seekgCur n)
      [.sent id (b.rest.take n)] := by
  obtain ⟨l, r, rfl⟩ : ∃ l r, b = .cut l r := ⟨_, _, StringStream.eq_cut hg⟩
  rw [StringStream.cut_rest] at *
  by_cases h0 : n = 0
  · rw [if_pos h0, h0]
    exact .some 0 l
  rw [if_neg h0]
  by_cases hall : r.length = n
  · rw [if_pos hall]
    have hd : (StringStream.cut l r).discard = { StringStream.cut l r with
        taken := [], rest := (StringStream.cut l r).rest.drop n } := by
      simp [StringStream.discard, StringStream.cut, List.drop_of_length_le hall.le]
    rw [hd]
    exact .some n []
  · rw [if_neg hall]
    have hpos : ((l.length : ℤ) + n) = ((l ++ r.take n).length : ℤ) := by
      rw [List.length_append, List.length_take]
      omega
    have hseek : (StringStream.cut l r).seekgCur n = .cut (l ++ r.take n) (r.drop n) := by
      rw [StringStream.seekgCur, StringStream.cut_taken, hpos]
      exact StringStream.seekg_cut (by simp)
    rw [hseek]
    exact .some n (l ++ r.take n)

theorem connectionWrite_effect {u : σ} {id : ReqId} {rq : Request} {wr : WriteResult}
    {t : Turn σ ω} (hsize : rq.writeBuffer.eofbit = true ∨ rq.writeBuffer.data.length < 2 ^ 31)
    (h : connectionWrite ω u id rq wr = some t) :
    WriteEffect id rq.writeBuffer t.rq.writeBuffer t.obs := by
  cases he : rq.writeBuffer.eofbit with
  | true =>
    simp only [connectionWrite, he, if_true, Option.some.injEq] at h
    rw [← h]
    exact .marked he
  | false =>
    have hsize := hsize.resolve_left (by simp [he])
    cases hf : rq.writeBuffer.fail with
    | true =>
      rw [connectionWrite_failed he hf, Option.some.injEq] at h
      rw [← h]
      exact .failed hf
    | false =>
      have hg : rq.writeBuffer.good = true := by
        simp only [StringStream.fail, Bool.or_eq_false_iff] at hf
        exact StringStream.good_iff.mpr ⟨he, hf⟩
      rw [connectionWrite_good hg hsize] at h
      simp only at h
      split at h
      next hr =>
        cases h
        exact .drained hr
      next hr =>
        cases wr with
        | ioError =>
          cases h
          exact .error
        | notReady =>
          cases h
          exact .later
        | wrote n =>
          simp only at h
          split at h
          · cases h
          next hn =>
            cases h
            exact sentEffect hg (by omega)

/-! ## Turns -/

/-- eofbit and the error bits of a write buffer, given whether its socket reported a write error. -/
def Marked (failed : Bool) (b : StringStream) : Prop :=
  failed = false → b.fail = false ∧ (b.eofbit = true → b.rest = [])

theorem marked_of_good (failed : Bool) {b : StringStream} (h : b.good = true) : Marked failed b := by
  obtain ⟨he, hf, hb⟩ := StringStream.good_iff.mp h
  exact fun _ => ⟨by simp [StringStream.fail, hf, hb], by simp [he]⟩

/-- What a turn on `id` does to the write buffer `b`: every byte that was in it or entered it was
accepted by the socket or is still there, in order; and the marks stay right. -/
structure Turn.Carries (t : Turn σ ω) (id : ReqId) (b : StringStream) : Prop where
  bytes : b.rest ++ entered t.obs id = sent t.obs id ++ t.rq.writeBuffer.rest
  marks : ∀ failed, Marked failed b → Marked (failed || writeFailed t.obs id) t.rq.writeBuffer

theorem carries_of_eq {t : Turn σ ω} {id : ReqId} {b : StringStream} (hb : t.rq.writeBuffer = b)
    (he : entered t.obs id = []) (hs : sent t.obs id = []) : t.Carries id b := by
  refine ⟨by rw [he, hs, hb]; simp, fun failed h hf => ?_⟩
  rw [hb]
  exact h (Bool.or_eq_false_iff.mp hf).1

theorem connectionWrite_carries {u : σ} {id : ReqId} {rq : Request} {wr : WriteResult}
    {t : Turn σ ω} (hsize : rq.writeBuffer.eofbit = true ∨ rq.writeBuffer.data.length < 2 ^ 31)
    (h : connectionWrite ω u id rq wr = some t) : t.Carries id rq.writeBuffer := by
  have heff := connectionWrite_effect hsize h
  obtain ⟨rq', u', obs, threw⟩ := t
  obtain ⟨c, fd, rb, b⟩ := rq'
  simp only at heff
  cases heff with
  | marked => exact carries_of_eq rfl rfl rfl
  | failed hf =>
    refine ⟨by simp [entered, sent], fun failed hm he => ?_⟩
    have := (hm (Bool.or_eq_false_iff.mp he).1).1
    simp [hf] at this
  | drained hr =>
    refine ⟨by simp [entered, sent, StringStream.setEof], fun failed hm he => ?_⟩
    exact ⟨(hm (Bool.or_eq_false_iff.mp he).1).1, fun _ => hr⟩
  | error =>
    refine ⟨by simp [entered, sent, Obs.entered, Obs.accepted, StringStream.setBad], fun failed _ he => ?_⟩
    simp [writeFailed, Obs.failed] at he
  | later => exact carries_of_eq rfl rfl rfl
  | some n taken =>
    refine ⟨by simp [entered, sent, Obs.entered, Obs.accepted], fun failed hm he => ?_⟩
    have h0 := hm (Bool.or_eq_false_iff.mp he).1
    exact ⟨h0.1, fun heof => by simp [h0.2 heof]⟩

theorem callHandler_carries {f : Handler σ ω} {o : ω} {u : σ} {id : ReqId} {rq : Request}
    {t : Turn σ ω} (h : callHandler f o u id rq = some t) : t.Carries id rq.writeBuffer := by
  obtain ⟨r, _, rfl⟩ := Option.map_eq_some_iff.mp h
  cases hg : rq.writeBuffer.good with
  | true =>
    refine ⟨?_, fun failed _ => ?_⟩
    · simp [entered, sent, Obs.entered, Obs.accepted, StringStream.insert_good hg]
    · apply marked_of_good
      simpa [StringStream.insert_good hg, StringStream.good] using hg
  | false =>
    refine carries_of_eq (StringStream.insert_not_good hg _) ?_ ?_
    · simp [entered, Obs.entered]
    · simp [sent, Obs.accepted]

theorem Turn.Carries.cons {t t' : Turn σ ω} {id : ReqId} {b : StringStream} (h : t.Carries id b)
    (hb : t'.rq.writeBuffer = t.rq.writeBuffer) {x : Obs ω} (hobs : t'.obs = x :: t.obs)
    (he : x.entered id = []) (hs : x.accepted id = []) (hf : x.failed id = false) :
    t'.Carries id b := by
  refine ⟨?_, fun failed hm => ?_⟩
  · have hbytes := h.bytes
    simp only [entered, sent] at hbytes ⊢
    rw [hobs, hb, List.flatMap_cons, List.flatMap_cons, he, hs]
    exact hbytes
  · have hmarks := h.marks failed hm
    simp only [writeFailed] at hmarks ⊢
    rw [hobs, hb, List.any_cons, hf, Bool.false_or]
    exact hmarks

theorem connectionRead_carries {H : Handlers σ ω} {o : ω} {u : σ} {id : ReqId} {rq : Request}
    {rd : ReadResult} {t : Turn σ ω} (h : connectionRead H o u id rq rd = some t) :
    t.Carries id rq.writeBuffer := by
  obtain ⟨b, c, obs, rfl, rfl | rfl⟩ | ⟨f, bs, t', ht', rfl⟩ := connectionRead_cases h
  · exact carries_of_eq rfl rfl rfl
  · exact carries_of_eq rfl rfl rfl
  · have hc := callHandler_carries ht'
    -- `clear` keeps the unread bytes, and a good buffer is rightly marked
    have hclear : t'.Carries id rq.writeBuffer :=
      ⟨hc.bytes, fun failed _ => hc.marks failed (marked_of_good failed rfl)⟩
    refine hclear.cons ?_ rfl rfl rfl rfl
    cases t'.threw <;> rfl

theorem processConnection_carries {H : Handlers σ ω} {o : ω} {u : σ} {id : ReqId} {rq : Request}
    {t : Turn σ ω} (h : processConnection H o u id rq = some t) : t.Carries id rq.writeBuffer := by
  obtain ⟨_, rfl⟩ | ⟨f, t', _, ht', rfl⟩ := processConnection_cases h
  · exact carries_of_eq rfl rfl rfl
  · exact (callHandler_carries ht').cons rfl rfl rfl rfl rfl

theorem ioTurn_carries {H : Handlers σ ω} {o : ω} {u : σ} {id : ReqId} {rq : Request} {w r : Bool}
    {wr : WriteResult} {rd : ReadResult} {t : Turn σ ω}
    (hsize : w = true → rq.writeBuffer.eofbit = true ∨ rq.writeBuffer.data.length < 2 ^ 31)
    (h : ioTurn H o u id rq w r wr rd = some t) : t.Carries id rq.writeBuffer := by
  obtain ⟨t₁, hw, hr⟩ := ioTurn_cases h
  have h₁ : t₁.Carries id rq.writeBuffer := by
    obtain ⟨htrue, hw⟩ | ⟨_, rfl⟩ := hw
    · exact connectionWrite_carries (hsize htrue) hw
    · exact carries_of_eq rfl rfl rfl
  obtain ⟨_, t₂, h₂, rfl⟩ | ⟨_, rfl⟩ := hr
  · have h₂ := connectionRead_carries h₂
    refine ⟨?_, fun failed hm => ?_⟩
    · rw [entered_append, sent_append, ← List.append_assoc, h₁.bytes, List.append_assoc, h₂.bytes,
        List.append_assoc]
    · rw [writeFailed_append, ← Bool.or_assoc]
      exact h₂.marks _ (h₁.marks failed hm)
  · exact h₁

theorem connectTurn_carries {H : Handlers σ ω} {o : ω} {u : σ} {id : ReqId} {fd : Fd}
    {t : Turn σ ω} (h : connectTurn H o u id fd = some t) :
    t.Carries id (Request.new fd).writeBuffer := by
  obtain ⟨_, rfl⟩ | ⟨f, t', _, ht', rfl⟩ := connectTurn_cases h
  · exact carries_of_eq rfl rfl rfl
  · exact ⟨(callHandler_carries ht').bytes, (callHandler_carries ht').marks⟩

end Turns

/-! ## Runs -/

section Runs
variable {σ ω : Type} {H : Handlers σ ω}

/-- The step writes from no buffer whose positions do not fit an `int`. -/
def fitsInt (s : State σ ω) : Event ω → Bool
  | .dispatch _ _ _ =>
      match s.io with
      | .dispatch i _ wfds => (s.aReqs[i]?.bind s.heap).all fun rq =>
          !wfds.contains rq.handle || rq.writeBuffer.eofbit ||
            decide (rq.writeBuffer.data.length < 2 ^ 31)
      | _ => true
  | _ => true

/-- Every live connection's buffer holds, unread, what entered it and was not yet accepted. -/
structure Flow (s : State σ ω) : Prop where
  numbered : Numbered s
  bytes : ∀ id rq, s.heap id = some rq →
    entered s.log id = sent s.log id ++ rq.writeBuffer.rest
  marks : ∀ id rq, s.heap id = some rq → Marked (writeFailed s.log id) rq.writeBuffer

theorem flow_init (n : ℕ) (u : σ) : Flow (State.init ω n u) :=
  ⟨numbered_init n u, fun id rq h => by simp [State.init] at h,
    fun id rq h => by simp [State.init] at h⟩

theorem Flow.turn {s s' : State σ ω} (hs : Flow s) (hn : Numbered s') {id : ReqId} {t : Turn σ ω}
    {b : StringStream} {c : ℕ} (hrep : t.Reports id) (hcar : t.Carries id b)
    (hb : entered s.log id = sent s.log id ++ b.rest) (hm : Marked (writeFailed s.log id) b)
    (hd : s'.Data (Function.update s.heap id (some t.rq)) t.user (s.log ++ t.obs) c) : Flow s' := by
  refine ⟨hn, fun x rq hx => ?_, fun x rq hx => ?_⟩
  · rw [hd.log, entered_append, sent_append]
    rw [hd.heap] at hx
    by_cases hxi : x = id
    · subst hxi
      rw [Function.update_self, Option.some.injEq] at hx
      rw [hb, List.append_assoc, hcar.bytes, ← hx, List.append_assoc]
    · rw [Function.update_of_ne hxi] at hx
      have hne : ∀ y ∈ t.obs, y.conn ≠ x := fun y hy => by rw [(hrep y hy).1]; exact Ne.symm hxi
      have h1 : entered t.obs x = [] := flatMap_elsewhere Obs.entered_elsewhere hne
      have h2 : sent t.obs x = [] := flatMap_elsewhere Obs.accepted_elsewhere hne
      rw [h1, h2, List.append_nil, List.append_nil]
      exact hs.bytes x rq hx
  · rw [hd.log, writeFailed_append]
    rw [hd.heap] at hx
    by_cases hxi : x = id
    · subst hxi
      rw [Function.update_self, Option.some.injEq] at hx
      exact hx ▸ hcar.marks _ hm
    · rw [Function.update_of_ne hxi] at hx
      have hne : ∀ y ∈ t.obs, y.conn ≠ x := fun y hy => by rw [(hrep y hy).1]; exact Ne.symm hxi
      rw [writeFailed_elsewhere hne, Bool.or_false]
      exact hs.marks x rq hx

theorem Flow.snoc {s s' : State σ ω} (hs : Flow s) (hn : Numbered s') {id : ReqId}
    (hheap : ∀ x rq, s'.heap x = some rq → s.heap x = some rq)
    (hlog : s'.log = s.log ++ [.disconnected id]) : Flow s' := by
  refine ⟨hn, fun x rq hx => ?_, fun x rq hx => ?_⟩
  · rw [hlog, entered_append, sent_append]
    simpa [entered, sent, Obs.entered, Obs.accepted] using hs.bytes x rq (hheap x rq hx)
  · rw [hlog, writeFailed_append]
    simpa [writeFailed, Obs.failed] using hs.marks x rq (hheap x rq hx)

theorem flow_step {cfg : Config} (s : State σ ω) (e : Event ω) (s' : State σ ω) (hs : Flow s)
    (hfit : fitsInt s e) (h : step cfg H s e = some s') : Flow s' := by
  have hn := numbered_step s e s' hs.numbered h
  cases step_effect h with
  | move data => exact ⟨hn, data.heap ▸ data.log ▸ hs.bytes, data.heap ▸ data.log ▸ hs.marks⟩
  | accept fd o t _ _ turn data =>
    have hne : ∀ y ∈ s.log, y.conn ≠ s.created := fun y hy heq =>
      Nat.lt_irrefl _ (hs.numbered.log y hy _ heq)
    have h1 : entered s.log s.created = [] := flatMap_elsewhere Obs.entered_elsewhere hne
    have h2 : sent s.log s.created = [] := flatMap_elsewhere Obs.accepted_elsewhere hne
    refine hs.turn hn (connectTurn_reports turn) (connectTurn_carries turn) ?_ ?_ data
    · rw [h1, h2]
      rfl
    · exact fun _ => ⟨rfl, fun _ => rfl⟩
  | dispatch i rfds wfds id rq wr rd o t event pc active object turn data =>
    subst event
    have hsize : wfds.contains rq.handle = true →
        rq.writeBuffer.eofbit = true ∨ rq.writeBuffer.data.length < 2 ^ 31 := by
      intro hw
      have hmem : rq.handle ∈ wfds := by simpa using hw
      simpa [fitsInt, pc, active, object, hmem] using hfit
    exact hs.turn hn (ioTurn_reports turn) (ioTurn_carries hsize turn) (hs.bytes id rq object)
      (hs.marks id rq object) data
  | serve k id rq o t _ _ object turn data =>
    exact hs.turn hn (processConnection_reports turn) (processConnection_carries turn)
      (hs.bytes id rq object) (hs.marks id rq object) data
  | disconnect _ _ _ id rq _ _ _ _ _ _ data =>
    refine hs.snoc hn (fun x rx hx => ?_) data.log
    by_cases hxi : x = id
    · simp [data.heap, hxi] at hx
    · rwa [data.heap, Function.update_of_ne hxi] at hx
  | disconnectThrows id rq _ _ _ _ data =>
    exact hs.snoc hn (fun x rx hx => data.heap ▸ hx) data.log

theorem flow_run {cfg : Config} {n : ℕ} {u : σ} {es : List (Event ω)} {s : State σ ω}
    (hrun : Transition.run (step cfg H) (State.init ω n u) es = some s)
    (hfit : Transition.Along (step cfg H) (fun s e => fitsInt s e) (State.init ω n u) es) :
    Flow s :=
  Transition.run_invariant (step cfg H) flow_step hfit hrun (flow_init n u)

/-! ## A connection is ended only when it is drained -/

/-- Whenever a run whose positions fit an `int` goes on to call `disconnect_client`, the unread part
of the write buffer is empty and every byte that entered it was accepted, or an earlier write
reported an error. -/
theorem ended_only_drained (cfg : Config) (H : Handlers σ ω) (n : ℕ) (u : σ) (es : List (Event ω))
    (s : State σ ω) (hrun : Transition.run (step cfg H) (State.init ω n u) es = some s)
    (hfit : Transition.Along (step cfg H) (fun s e => fitsInt s e) (State.init ω n u) es)
    (e : Event ω) (s' : State σ ω) (id : ReqId) (hstep : step cfg H s e = some s')
    (hend : id ∈ s.endedBy s') : ∃ rq, s.heap id = some rq ∧
      (rq.writeBuffer.rest = [] ∧ entered s.log id = sent s.log id ∨
        writeFailed s.log id = true) := by
  have hs := flow_run hrun hfit
  obtain ⟨_, rq, hrq, _, heof⟩ := State.endedBy_cases hstep hend
  refine ⟨rq, hrq, ?_⟩
  cases hfail : writeFailed s.log id with
  | true => exact .inr rfl
  | false =>
    have hempty := (hs.marks id rq hrq hfail).2 heof
    have hbytes := hs.bytes id rq hrq
    rw [hempty, List.append_nil] at hbytes
    exact .inl ⟨hempty, hbytes⟩

/-! ## No response byte is lost

A byte is lost when the stream does not take it: always in the `on_connect` call, where eofbit is
set, and in a worker's call after `connection_write` has set eofbit again. -/

def Handler.output (f : Handler σ ω) (o : ω) (u : σ) (c : Conn) (inp : StringStream) : Bytes :=
  ((f o u c inp).map fun r => r.1.out).getD []

/-- The step's handler call writes nothing to a stream that is not good. -/
def keepsOutput (H : Handlers σ ω) (s : State σ ω) : Event ω → Bool
  | .accept fd o => H.onConnect.all fun f =>
      (f.output o s.user ⟨s.created, fd⟩ (Request.new fd).readBuffer).isEmpty
  | .serve k o => ((s.workers[k]?.bind WorkerPc.held).all fun id => (s.heap id).all fun rq =>
      rq.writeBuffer.good || H.onProcessData.all fun f =>
        (f.output o s.user ⟨id, rq.handle⟩ rq.readBuffer).isEmpty)
  | _ => true

/-- The streams took all that was written in this turn. -/
def Turn.AllTaken (t : Turn σ ω) : Prop := ∀ x ∈ t.obs, ∀ id, x.written id = x.entered id

theorem callHandler_allTaken {f : Handler σ ω} {o : ω} {u : σ} {id : ReqId} {rq : Request}
    {t : Turn σ ω} (h : callHandler f o u id rq = some t)
    (hkeep : rq.writeBuffer.good = true ∨ f.output o u ⟨id, rq.handle⟩ rq.readBuffer = []) :
    t.AllTaken := by
  obtain ⟨r, hr, rfl⟩ := Option.map_eq_some_iff.mp h
  intro x hx y
  rw [List.mem_singleton.mp hx]
  obtain hg | hout := hkeep
  · rw [hg]
    rfl
  · have : r.1.out = [] := by simpa [Handler.output, hr] using hout
    rw [this]
    cases rq.writeBuffer.good <;> simp [Obs.written, Obs.entered]

theorem connectionWrite_allTaken {u : σ} {id : ReqId} {rq : Request} {wr : WriteResult}
    {t : Turn σ ω} (h : connectionWrite ω u id rq wr = some t) : t.AllTaken := by
  obtain ⟨b, obs, rfl, rfl | rfl | ⟨bs, rfl⟩⟩ := connectionWrite_frame h <;>
    simp [Turn.AllTaken, Obs.written, Obs.entered]

theorem Turn.AllTaken.cons {t t' : Turn σ ω} (h : t.AllTaken) {x : Obs ω}
    (hx : ∀ id, x.written id = x.entered id) (hobs : t'.obs = x :: t.obs) : t'.AllTaken := by
  rw [Turn.AllTaken, hobs]
  exact List.forall_mem_cons.mpr ⟨hx, h⟩

/-- `connection_read` clears the write buffer's state before it calls the handler. -/
theorem connectionRead_allTaken {o : ω} {u : σ} {id : ReqId} {rq : Request}
    {rd : ReadResult} {t : Turn σ ω} (h : connectionRead H o u id rq rd = some t) :
    t.AllTaken := by
  obtain ⟨b, c, obs, rfl, rfl | rfl⟩ | ⟨f, bs, t', ht', rfl⟩ := connectionRead_cases h
  · simp [Turn.AllTaken]
  · simp [Turn.AllTaken, Obs.written, Obs.entered]
  · exact (callHandler_allTaken ht' (.inl rfl)).cons (fun _ => rfl) rfl

theorem ioTurn_allTaken {o : ω} {u : σ} {id : ReqId} {rq : Request} {w r : Bool}
    {wr : WriteResult} {rd : ReadResult} {t : Turn σ ω}
    (h : ioTurn H o u id rq w r wr rd = some t) : t.AllTaken := by
  obtain ⟨t₁, hw, hr⟩ := ioTurn_cases h
  have h₁ : t₁.AllTaken := by
    obtain ⟨_, hw⟩ | ⟨_, rfl⟩ := hw
    · exact connectionWrite_allTaken hw
    · simp [Turn.AllTaken]
  obtain ⟨_, t₂, h₂, rfl⟩ | ⟨_, rfl⟩ := hr
  · exact List.forall_mem_append.mpr ⟨h₁, connectionRead_allTaken h₂⟩
  · exact h₁

theorem connectTurn_allTaken {o : ω} {u : σ} {id : ReqId} {fd : Fd} {t : Turn σ ω}
    (h : connectTurn H o u id fd = some t)
    (hkeep : ∀ f ∈ H.onConnect, f.output o u ⟨id, fd⟩ (Request.new fd).readBuffer = []) :
    t.AllTaken := by
  obtain ⟨_, rfl⟩ | ⟨f, t', hf, ht', rfl⟩ := connectTurn_cases h
  · simp [Turn.AllTaken]
  · exact (callHandler_allTaken ht' (.inr (hkeep f hf)) :)

theorem processConnection_allTaken {o : ω} {u : σ} {id : ReqId} {rq : Request} {t : Turn σ ω}
    (h : processConnection H o u id rq = some t)
    (hkeep : rq.writeBuffer.good = true ∨
      ∀ f ∈ H.onProcessData, f.output o u ⟨id, rq.handle⟩ rq.readBuffer = []) : t.AllTaken := by
  obtain ⟨_, rfl⟩ | ⟨f, t', hf, ht', rfl⟩ := processConnection_cases h
  · simp [Turn.AllTaken]
  · exact (callHandler_allTaken ht' (hkeep.imp_right fun h => h f hf)).cons (fun _ => rfl) rfl

def AllTaken (s : State σ ω) : Prop := ∀ x ∈ s.log, ∀ id, x.written id = x.entered id

theorem AllTaken.turn {s s' : State σ ω} (hs : AllTaken s) {t : Turn σ ω} (ht : t.AllTaken)
    (hlog : s'.log = s.log ++ t.obs) : AllTaken s' := by
  intro x hx
  rw [hlog, List.mem_append] at hx
  exact hx.elim (hs x) (ht x)

theorem AllTaken.snoc {s s' : State σ ω} (hs : AllTaken s) {id : ReqId}
    (hlog : s'.log = s.log ++ [.disconnected id]) : AllTaken s' := by
  intro x hx
  rw [hlog, List.mem_append, List.mem_singleton] at hx
  obtain hx | rfl := hx
  · exact hs x hx
  · exact fun _ => rfl

theorem allTaken_step {cfg : Config} (s : State σ ω) (e : Event ω) (s' : State σ ω)
    (hs : AllTaken s) (hkeep : keepsOutput H s e) (h : step cfg H s e = some s') :
    AllTaken s' := by
  cases step_effect h with
  | move data => exact fun x hx => hs x (data.log ▸ hx)
  | accept fd o t event _ turn data =>
    subst event
    refine hs.turn (connectTurn_allTaken turn fun f hf => ?_) data.log
    simpa [keepsOutput, Option.mem_def.mp hf] using hkeep
  | dispatch _ _ _ _ _ _ _ _ t _ _ _ _ turn data => exact hs.turn (ioTurn_allTaken turn) data.log
  | serve k id rq o t event holding object turn data =>
    subst event
    have hk : rq.writeBuffer.good = true ∨
        ∀ f ∈ H.onProcessData, f.output o s.user ⟨id, rq.handle⟩ rq.readBuffer = [] := by
      simpa [keepsOutput, holding, WorkerPc.held, object, Option.all_eq_true] using hkeep
    exact hs.turn (processConnection_allTaken turn hk) data.log
  | disconnect _ _ _ _ _ _ _ _ _ _ _ data => exact hs.snoc data.log
  | disconnectThrows id rq _ _ _ _ data => exact hs.snoc data.log

/-- In every run whose handlers write to good streams only and whose positions fit an `int`, what
was written to a live connection is what its socket accepted followed by what is unread. -/
theorem output_in_order (cfg : Config) (H : Handlers σ ω) (n : ℕ) (u : σ) (es : List (Event ω))
    (s : State σ ω) (hrun : Transition.run (step cfg H) (State.init ω n u) es = some s)
    (hok : Transition.Along (step cfg H) (fun s e => keepsOutput H s e ∧ fitsInt s e)
      (State.init ω n u) es) (id : ReqId) (rq : Request) (hrq : s.heap id = some rq) :
    written s.log id = sent s.log id ++ rq.writeBuffer.rest := by
  have hflow := flow_run hrun (Transition.Along.imp _ (fun _ _ h => h.2) hok)
  have htaken : AllTaken s :=
    Transition.run_invariant (step cfg H) allTaken_step
      (Transition.Along.imp _ (fun _ _ h => h.1) hok) hrun (by simp [AllTaken, State.init])
  have hall : written s.log id = entered s.log id :=
    List.flatMap_congr fun x hx => htaken x hx id
  rw [hall, hflow.bytes id rq hrq]

end Runs

/-! ## Runs of the small server -/

namespace Sample

/-- A request of one byte, answered with `out` in the I/O thread; the answer is written out whole,
and the next write finds the buffer empty. -/
def answered (out : Bytes) : List (Event Answer) :=
  acceptRound 5 ([], some true) ++ readRound 5 (.data [65]) (out, some false) ++
    writeRound 5 (.wrote out.length) ([], none) ++ writeRound 5 .notReady ([], none)

end Sample

theorem output_in_order_sent : ∃ s : State Unit Sample.Answer, ∃ rq,
    Transition.run (step Sample.config Sample.handlers) (State.init _ 1 ())
      (Sample.answered [1, 2, 3]) = some s ∧ s.heap 0 = some rq ∧ sent s.log 0 = [1, 2, 3] ∧
    written s.log 0 = sent s.log 0 ++ rq.writeBuffer.rest :=
  ⟨_, _, rfl, rfl, rfl, output_in_order Sample.config Sample.handlers 1 ()
    (Sample.answered [1, 2, 3]) _ rfl (by decide) 0 _ rfl⟩

/-- The `on_connect` handler writes a byte: it is lost, although no write failed. -/
theorem connect_output_lost : ∃ s : State Unit Sample.Answer, ∃ rq,
    Transition.run (step Sample.config Sample.handlers) (State.init _ 1 ())
      (Sample.acceptRound 5 ([65], some true)) = some s ∧
    s.heap 0 = some rq ∧ writeFailed s.log 0 = false ∧
    written s.log 0 ≠ sent s.log 0 ++ rq.writeBuffer.rest :=
  ⟨_, _, rfl, rfl, rfl, by decide⟩

theorem ended_only_drained_sent : ∃ s s' : State Unit Sample.Answer,
    Transition.run (step Sample.config Sample.handlers) (State.init _ 1 ())
      (Sample.answered [1, 2, 3] ++ [.checkStop, .lockScan]) = some s ∧
    step Sample.config Sample.handlers s (.scan false) = some s' ∧ s.endedBy s' = [0] ∧
    sent s.log 0 = [1, 2, 3] ∧ ∃ rq, s.heap 0 = some rq ∧
      (rq.writeBuffer.rest = [] ∧ entered s.log 0 = sent s.log 0 ∨ writeFailed s.log 0 = true) :=
  ⟨_, _, rfl, rfl, rfl, rfl, ended_only_drained Sample.config Sample.handlers 1 ()
    (Sample.answered [1, 2, 3] ++ [.checkStop, .lockScan]) _ rfl (by decide) (.scan false) _ 0 rfl
    (by decide)⟩

/-! ## An answer of 2 ^ 32 bytes -/

namespace Sample

def accepted : Request := { Request.new 5 with readBuffer := .empty }

/-- The small server about to write out the answer `out` to its only connection, which is closing. -/
def closingWith (out : Bytes) : State Unit Answer where
  isStopped := false
  raising := false
  aReqs := [0]
  reqs := []
  heap := Function.update (Function.update (Function.update (fun _ => none)
    0 (some accepted)) 0 (some accepted)) 0 (some ⟨.closing, 5, .empty, .cut [] out⟩)
  created := 1
  io := .dispatch 0 [] [5]
  workers := [.idle]
  user := ()
  log := [.wrote 0 [] false, .received 0 [65] (out, some false), .wrote 0 out true]

def closingEvents (out : Bytes) : List (Event Answer) :=
  acceptRound 5 ([], some true) ++ readRound 5 (.data [65]) (out, some false) ++
    [.checkStop, .lockScan, .scan false, .scan false, .select [] [5], .visitListener, .lockDispatch]

theorem run_closingEvents (out : Bytes) :
    Transition.run (step config handlers) (State.init _ 1 ()) (closingEvents out) =
      some (closingWith out) := rfl

/-- `connection_write` takes 2 ^ 32 unread bytes for none. -/
theorem write_wrapped (out : Bytes) (hout : out.length = 2 ^ 32) :
    connectionWrite Answer () 0 ⟨.closing, 5, .empty, .cut [] out⟩ .notReady =
      some ⟨⟨.closing, 5, .empty, (StringStream.cut out []).setEof⟩, (), [], false⟩ := by
  have he : (StringStream.cut [] out).eofbit = false := rfl
  have hsize : toInt32 (toInt32 (out.length : ℤ) - toInt32 (([] : Bytes).length : ℤ)) = 0 := by
    rw [hout]
    decide
  simp only [connectionWrite, he, Bool.false_eq_true, if_false, StringStream.tellg_cut,
    StringStream.seekgEnd_cut, List.nil_append, hsize, if_true]

theorem step_wrapped (out : Bytes) (hout : out.length = 2 ^ 32) :
    step config handlers (closingWith out) (.dispatch .notReady .notReady ([], none)) =
      some { closingWith out with
        heap := Function.update (closingWith out).heap 0
          (some ⟨.closing, 5, .empty, (StringStream.cut out []).setEof⟩)
        log := (closingWith out).log ++ []
        io := .dispatch 1 [] [] } := by
  have hturn : ioTurn handlers ([], none) () 0 ⟨.closing, 5, .empty, .cut [] out⟩ true false .notReady
      .notReady =
        some ⟨⟨.closing, 5, .empty, (StringStream.cut out []).setEof⟩, (), [], false⟩ := by
    rw [ioTurn, if_pos rfl, write_wrapped out hout]
    rfl
  have hstep : step config handlers (closingWith out) (.dispatch .notReady .notReady ([], none)) =
      (ioTurn handlers ([], none) () 0 ⟨.closing, 5, .empty, .cut [] out⟩ true false .notReady
        .notReady).map fun t =>
          if t.threw then { (closingWith out).turn 0 t with io := .catching }
          else if (true || false) && t.rq.curState != .closing then
            { (closingWith out).turn 0 t with
              reqs := [0]
              aReqs := []
              io := .dispatch 0 [] []
              workers := [.idle] }
          else { (closingWith out).turn 0 t with io := .dispatch 1 [] [] } := rfl
  rw [hstep, hturn]
  rfl

end Sample

/-- A handler answers with 2 ^ 32 bytes and closes: `disconnect_client` is called although none of
them was sent and no write failed. -/
theorem ended_undrained : ∃ (es : List (Event Sample.Answer)) (s s' : State Unit Sample.Answer),
    Transition.run (step Sample.config Sample.handlers) (State.init _ 1 ()) es = some s ∧
    step Sample.config Sample.handlers s (.scan false) = some s' ∧ 0 ∈ s.endedBy s' ∧
    ∀ rq, s.heap 0 = some rq →
      ¬ (rq.writeBuffer.rest = [] ∧ entered s.log 0 = sent s.log 0 ∨ writeFailed s.log 0 = true) := by
  obtain ⟨out, hout⟩ : ∃ out : Bytes, out.length = 2 ^ 32 :=
    ⟨List.replicate (2 ^ 32) 65, List.length_replicate⟩
  have hrun := Transition.run_snoc (step Sample.config Sample.handlers)
    (Sample.run_closingEvents out) (Sample.step_wrapped out hout)
  refine ⟨Sample.closingEvents out ++ [.dispatch .notReady .notReady ([], none)] ++
    [.dispatch .notReady .notReady ([], none), .checkStop, .lockScan], ?_⟩
  rw [Transition.run_append, hrun]
  refine ⟨_, _, rfl, rfl, List.mem_singleton.mpr rfl, fun rq _ hbad => ?_⟩
  obtain ⟨_, hbytes⟩ | hfail := hbad
  · have h : entered (Sample.closingWith out).log 0 = sent (Sample.closingWith out).log 0 := hbytes
    have hlen := congrArg List.length h
    simp only [entered, sent, Sample.closingWith, List.flatMap_cons, List.flatMap_nil, Obs.entered,
      Obs.accepted, if_true, List.nil_append, List.append_nil, List.length_nil, hout] at hlen
    omega
  · have h : writeFailed (Sample.closingWith out).log 0 = true := hfail
    simp [writeFailed, Sample.closingWith, Obs.failed] at h

end Dcl.Tcp
