import Dcl.Http.Lines
import Dcl.Http.Local

/-! # Cutting a request into chunks

A complete request is delivered in chunks: each chunk by one `connection_read`, followed by the
handler call of a worker on the same buffers unless the connection is closing. `Harmless` says that
the cuts make no difference: the handler is called once, after the last chunk, with the request it
gets when everything arrives at once.

`process_data` looks for the end of the stream with `eof()` after `getline`. When a chunk ends
directly behind a line feed, `getline` finds nothing and sets failbit too; the second call of
`process_data` then reads from a failed stream that is not at its end, and takes that for the blank
line. When the buffer ends inside the body, the bytes received are counted with a position of `-1`.
`Clean` is what remains: no chunk but the last ends behind a line feed or in the body. -/
namespace Dcl.Http
set_option autoImplicit false

/-! ## Delivering chunks -/

/-- A connection with its I/O thread and worker; `lost`: the worker's handler call threw. -/
structure Link where
  table : Table
  rq : Tcp.Request
  lost : Bool

def Link.start (fd : Tcp.Fd) : Link := ⟨.empty, .new fd, false⟩

/-- One chunk: `connection_read`, then the worker's call of the handler unless the connection is
closing or the first call threw. -/
def Link.feed (pf : Platform) (on : OnRequest) (id : Tcp.ReqId) (k : Link) (c : Bytes) :
    Option Link :=
  if k.lost then some k
  else (Tcp.connectionRead (handlers pf) on k.table id k.rq (.data c)).bind fun t =>
    if t.threw ∨ t.rq.curState = .closing then some ⟨t.user, t.rq, false⟩
    else (Tcp.processConnection (handlers pf) on t.user id t.rq).map fun t' =>
      ⟨t'.user, t'.rq, t'.threw⟩

/-- The same, seen from the connection. -/
structure Lane where
  loc : Local
  state : Tcp.ConnState
  lost : Bool

def Lane.feed (pf : Platform) (on : OnRequest) (s : Lane) (c : Bytes) : Option Lane :=
  if s.lost then some s
  else (s.loc.read pf on c).bind fun p =>
    let st := stateAfter s.state p.2
    if p.2.isNone ∨ st = .closing then some ⟨p.1, st, false⟩
    else (p.1.work pf on).map fun q => ⟨q.1, stateAfter st q.2, q.2.isNone⟩

def Link.lane (k : Link) (id : Tcp.ReqId) : Lane := ⟨view k.table id k.rq, k.rq.curState, k.lost⟩

section Feeding
variable {pf : Platform} {on : OnRequest}

theorem feed_lane (id : Tcp.ReqId) (k : Link) {c : Bytes} (hc : c ≠ []) :
    (k.feed pf on id c).map (fun k => k.lane id) = (k.lane id).feed pf on c := by
  cases hl : k.lost with
  | true => simp [Link.feed, Lane.feed, Link.lane, hl]
  | false =>
    have hread := @connectionRead_view pf on k.table id k.rq c hc
    simp only [Link.feed, Lane.feed, Link.lane, hl, Bool.false_eq_true, if_false]
    cases ht : Tcp.connectionRead (handlers pf) on k.table id k.rq (.data c) with
    | none =>
      rw [ht, Option.map_none] at hread
      rw [Option.map_eq_none_iff.mp hread.symm]
      rfl
    | some t =>
      rw [ht, Option.map_some] at hread
      obtain ⟨p, hp, hview⟩ := Option.map_eq_some_iff.mp hread.symm
      obtain ⟨hv, hthrew, hstate⟩ : p.1 = view t.user id t.rq ∧ p.2.isNone = t.threw ∧
          stateAfter k.rq.curState p.2 = t.rq.curState := by simpa using hview
      simp only [hp, Option.bind_some, hv, hthrew, hstate]
      by_cases hend : t.threw = true ∨ t.rq.curState = .closing
      · rw [if_pos hend, if_pos hend]
        rfl
      · rw [if_neg hend, if_neg hend]
        have hwork := @processConnection_view pf on t.user id t.rq
        have := congrArg (Option.map fun x => (⟨x.1, x.2.2, x.2.1⟩ : Lane)) hwork
        simpa only [Option.map_map, Function.comp_def] using this

def Link.feedAll (pf : Platform) (on : OnRequest) (id : Tcp.ReqId) (k : Link) (cs : List Bytes) :
    Option Link :=
  cs.foldlM (Link.feed pf on id) k

def Lane.feedAll (pf : Platform) (on : OnRequest) (s : Lane) (cs : List Bytes) : Option Lane :=
  cs.foldlM (Lane.feed pf on) s

theorem feedAll_lane (id : Tcp.ReqId) (k : Link) {cs : List Bytes} (hcs : ∀ c ∈ cs, c ≠ []) :
    (k.feedAll pf on id cs).map (fun k => k.lane id) = (k.lane id).feedAll pf on cs := by
  induction cs generalizing k with
  | nil => rfl
  | cons c cs ih =>
    have hfeed := @feed_lane pf on id k c (hcs c (by simp))
    simp only [Link.feedAll, Lane.feedAll, List.foldlM_cons, Option.bind_eq_bind]
    rw [← hfeed]
    cases k.feed pf on id c with
    | none => rfl
    | some k' => exact ih k' fun c hc => hcs c (by simp [hc])

end Feeding

/-! ## One chunk -/

section Chunk
variable {pf : Platform} {on : HttpRequest → HttpResponse}

/-- Behind complete lines `done` and the part `x` of the next line, nothing passed on yet. -/
structure Lane.At (pf : Platform) (s : Lane) (done : List Bytes) (x : Bytes) : Prop where
  entry : s.loc.entry.getD .new = progress pf done
  taken : s.loc.buffer.taken = Message.lines done
  rest : s.loc.buffer.rest = x
  passed : s.loc.passed = []
  state : s.state = .waitData
  lost : s.lost = false

theorem Lane.At.buffer {s : Lane} {done : List Bytes} {x : Bytes} (h : s.At pf done x) (c : Bytes) :
    s.loc.buffer.clear.insert c = .cut (Message.lines done) (x ++ c) := by
  rw [StringStream.clear_eq_cut, StringStream.insert_cut, h.taken, h.rest]

theorem discard_cut {l y : Bytes} (hy : y ≠ []) : Local.discard (.cut l y) = .cut l y := by
  have hpos : 0 < y.length := List.length_pos_iff.mpr hy
  have hne : ¬ ((l.length : ℤ) = (l ++ y).length) := by
    rw [List.length_append]
    omega
  simp only [Local.discard, StringStream.tellg_cut, StringStream.tellp_cut]
  exact if_neg hne

theorem discard_all (l : Bytes) : Local.discard (.cut l []) = .cut [] [] := by
  simp only [Local.discard, StringStream.tellg_cut, StringStream.tellp_cut, List.append_nil]
  rfl

theorem discard_failed (l : Bytes) :
    Local.discard ⟨l, [], false, true, false⟩ = ⟨[], [], false, true, false⟩ := rfl

theorem feed_unfinished {s : Lane} {done more : List Bytes} {x y c : Bytes} (h : s.At pf done x)
    (hc : x ++ c = Message.lines more ++ y) (hlf : ∀ z ∈ more, LF ∉ z)
    (htrim : ∀ z ∈ (done ++ more).tail, trim z ≠ []) (hy : LF ∉ y) (hne : y ≠ [])
    (hl : done ++ more ≠ [] → (Message.lines (done ++ more)).length < 2 ^ 31) :
    ∃ s', s.feed pf (fun q => some (on q)) c = some s' ∧ s'.At pf (done ++ more) y := by
  have hread : s.loc.read pf (fun q => some (on q)) c =
      some (⟨some (progress pf (done ++ more)), .cut (Message.lines (done ++ more)) y, []⟩, some true) := by
    rw [Local.read, h.buffer, hc, process_unfinished h.entry hlf htrim hy hne (by rwa [← lines_append]),
      Option.map_some, ← lines_append, h.passed]
    simp [discard_cut hne]
  have hwork : (⟨some (progress pf (done ++ more)), .cut (Message.lines (done ++ more)) y, []⟩ :
      Local).work pf (fun q => some (on q)) =
      some (⟨some (progress pf (done ++ more)), .cut (Message.lines (done ++ more)) y, []⟩, some true) := by
    have hp := @process_unfinished pf (fun q => some (on q)) (some (progress pf (done ++ more)))
      (done ++ more) [] rfl (by simp) (by simpa using htrim) (Message.lines (done ++ more)) y hy hne
      (by simpa [Message.lines] using hl)
    have hnil : Message.lines [] = [] := rfl
    rw [hnil, List.nil_append, List.append_nil, List.append_nil] at hp
    rw [Local.work, hp]
    rfl
  have hst : stateAfter s.state (some true) = .waitData := h.state
  refine ⟨⟨⟨some (progress pf (done ++ more)), .cut (Message.lines (done ++ more)) y, []⟩, .waitData,
    false⟩, ?_, ⟨rfl, rfl, rfl, rfl, rfl, rfl⟩⟩
  simp only [Lane.feed, h.lost, Bool.false_eq_true, if_false, hread, Option.bind_some, hst,
    Option.isNone_some, reduceCtorEq, or_self, hwork, Option.map_some]
  rfl

theorem feed_passed_grows {on : OnRequest} {s s' : Lane} {c : Bytes} {p : Local × Option Bool}
    (hl : s.lost = false) (hread : s.loc.read pf on c = some p)
    (h : s.feed pf on c = some s') : p.1.passed <+: s'.loc.passed := by
  simp only [Lane.feed, hl, Bool.false_eq_true, if_false, hread, Option.bind_some] at h
  split at h
  · cases h
    exact List.prefix_rfl
  · obtain ⟨q, hq, rfl⟩ := Option.map_eq_some_iff.mp h
    obtain ⟨r, _, rfl⟩ := Option.map_eq_some_iff.mp hq
    exact List.prefix_append _ _

theorem read_delivers {on : OnRequest} {s : Lane} {c : Bytes} (hp : s.loc.passed = []) {n : ℕ}
    {f : Frame} (h : Loop.Passes (pass pf on) n
      ⟨s.loc.entry.getD .new, s.loc.buffer.clear.insert c, [], []⟩ f)
    (hs : f.rq.state = .processRequest) (hf : f.passed = []) :
    ∃ p, s.loc.read pf on c = some p ∧ p.1.passed = [f.rq.req] := by
  obtain ⟨r, hr, _, hpassed, _⟩ := process_of_delivery h hs
  rw [hf, List.nil_append] at hpassed
  refine ⟨_, by rw [Local.read, hr]; rfl, ?_⟩
  simp only [hp, hpassed, List.nil_append]

theorem feed_complete {s : Lane} {done more : List Bytes} {x c : Bytes} {m : Message}
    (h : s.At pf done x) (hsize : m.size pf = some m.body.length) (hlt : m.body.length < 2 ^ 31)
    (hsplit : m.requestLine :: m.fields = done ++ more)
    (hc : x ++ c = Message.lines more ++ (m.blank ++ LF :: m.body)) :
    ∃ s', s.feed pf (fun q => some (on q)) c = some s' ∧ s'.loc.passed = [m.delivered pf] := by
  have hpasses := (@head_rest_passes pf (fun q => some (on q)) m _ hsize done more hsplit
    (Message.lines done) m.body).trans (body_passes hlt _)
  rw [← hc, ← h.buffer, ← h.entry] at hpasses
  obtain ⟨r, hr, hinp, hpassed, hres, hentry⟩ := process_of_delivery hpasses rfl
  have hres : r.result = some (keepAlive (m.delivered pf)) := by simpa using hres
  have hentry : r.entry = none := by simpa using hentry
  have hread : s.loc.read pf (fun q => some (on q)) c =
      some (⟨none, .cut [] [], [m.delivered pf]⟩, some (keepAlive (m.delivered pf))) := by
    rw [Local.read, hr, Option.map_some, hres, hentry, hinp, hpassed, h.passed]
    simp [discard_all]
  simp only [Lane.feed, h.lost, Bool.false_eq_true, if_false, hread, Option.bind_some]
  split
  · exact ⟨_, rfl, rfl⟩
  · -- the worker finds nothing to read
    have hproc := @process_lines pf (fun q => some (on q)) none [] [] rfl (by simp) (by simp) []
    have hnil : Message.lines [] = [] := rfl
    rw [hnil] at hproc
    rw [Local.work, hproc]
    exact ⟨_, rfl, rfl⟩

/-- A chunk that ends inside the body, or before it. -/
theorem feed_short {s s' : Lane} {done more : List Bytes} {x c t : Bytes} {m : Message}
    (h : s.At pf done x) (hsize : m.size pf = some m.body.length)
    (hsplit : m.requestLine :: m.fields = done ++ more)
    (hc : x ++ c = Message.lines more ++ (m.blank ++ LF :: t)) (ht : t.length < m.body.length)
    (hsmall : m.bytes.length < 2 ^ 31) (hfeed : s.feed pf (fun q => some (on q)) c = some s') :
    s'.loc.passed ≠ [] := by
  have hhead := @head_rest_passes pf (fun q => some (on q)) m _ hsize done more hsplit
    (Message.lines done) t
  have hl : Message.lines done ++ Message.lines more ++ m.blank ++ [LF] = m.head := by
    rw [← lines_append, ← hsplit, lines_cons]
    simp [Message.head]
  rw [hl, ← hc, ← h.buffer, ← h.entry] at hhead
  obtain ⟨k, f, hk, hs, hp⟩ := @short_body pf (fun q => some (on q)) m t m.head ht (by
    rw [Message.bytes, List.length_append] at hsmall
    exact hsmall)
  obtain ⟨p, hread, hpassed⟩ := read_delivers h.passed (hhead.trans hk) hs hp
  obtain ⟨u, hu⟩ := feed_passed_grows h.lost hread hfeed
  rw [← hu, hpassed]
  simp

/-- A chunk that ends behind a line feed of the header block: the handler is called, the worker's
call throws, or what follows is going to be taken for the body. -/
theorem feed_behind_line {s s' : Lane} {done more : List Bytes} {x c : Bytes} (h : s.At pf done x)
    (hc : x ++ c = Message.lines more) (hne : done ++ more ≠ []) (hlf : ∀ z ∈ more, LF ∉ z)
    (htrim : ∀ z ∈ (done ++ more).tail, trim z ≠ [])
    (hfeed : s.feed pf (fun q => some (on q)) c = some s') :
    s'.loc.passed ≠ [] ∨ s'.loc.passed = [] ∧ s'.lost = true ∨
      s'.loc.passed = [] ∧ s'.lost = false ∧ ∃ n q, 0 < n ∧ n < 2 ^ 64 ∧
        q = (progress pf (done ++ more)).req ∧
        s'.loc.entry = some ⟨.receivingData, n, 0, q⟩ ∧ s'.loc.buffer.clear = .cut [] [] := by
  have hread : s.loc.read pf (fun q => some (on q)) c =
      some (⟨some (progress pf (done ++ more)), ⟨[], [], false, true, false⟩, []⟩, some true) := by
    rw [Local.read, h.buffer, hc, process_lines h.entry hlf htrim, Option.map_some, h.passed]
    simp [discard_failed]
  have hst : stateAfter s.state (some true) = .waitData := h.state
  obtain ⟨z, zs, hz⟩ := List.exists_cons_of_ne_nil hne
  obtain ⟨r, hr, hcases⟩ := @process_failed pf on z zs []
  rw [← hz] at hr hcases
  simp only [Lane.feed, h.lost, Bool.false_eq_true, if_false, hread, Option.bind_some, hst,
    Option.isNone_some, reduceCtorEq, or_self, Local.work, hr, Option.map_some, Option.some.injEq,
    List.nil_append] at hfeed
  rw [← hfeed]
  obtain hp | ⟨hp, hres⟩ | ⟨hp, hres, n, hn, hlt, hentry, htaken, hrest⟩ := hcases
  · exact .inl hp
  · exact .inr (.inl ⟨hp, by simp [hres]⟩)
  · refine .inr (.inr ⟨hp, by simp [hres], n, _, hn, hlt, rfl, hentry, ?_⟩)
    rw [StringStream.clear_eq_cut, htaken, hrest]

/-- The chunk after one that ended behind a line feed, when a body is awaited. -/
theorem feed_misread {s s' : Lane} {n : ℕ} {q : HttpRequest} {c : Bytes} (hpassed : s.loc.passed = [])
    (hlost : s.lost = false) (hentry : s.loc.entry = some ⟨.receivingData, n, 0, q⟩)
    (hbuf : s.loc.buffer.clear = .cut [] []) (hn : 0 < n) (hlt : n < 2 ^ 64) (hq : q.content = [])
    (hc : c ≠ []) (hclt : c.length < 2 ^ 31) (hfeed : s.feed pf (fun q => some (on q)) c = some s') :
    ∃ q' qs, s'.loc.passed = q' :: qs ∧ q'.bytes = c := by
  obtain ⟨k, f, hk, hs, hb, hp⟩ := @some_body pf (fun q => some (on q)) n q hq [] c hc hclt (by simp) hn
    (by simpa using hlt)
  have hbuf' : s.loc.buffer.clear.insert c = .cut [] c := by rw [hbuf]; rfl
  have hentry' : s.loc.entry.getD .new = ⟨.receivingData, n, 0, q⟩ := by rw [hentry]; rfl
  rw [← hbuf', ← hentry'] at hk
  obtain ⟨p, hread, hpp⟩ := read_delivers hpassed hk hs hp
  obtain ⟨u, hu⟩ := feed_passed_grows hlost hread hfeed
  exact ⟨f.rq.req, u, by rw [← hu, hpp]; rfl, hb⟩

end Chunk

/-! ## Clean cuts -/

/-- A cut behind the bytes `b` of the request: inside a line of the header block, not behind its line
feed, and where that line begins is a position that fits an `int`. -/
structure CleanCut (m : Message) (b : Bytes) : Prop where
  head : b.length < m.head.length
  inside : b.getLast? ≠ some LF
  fits : ∀ u v, b = u ++ LF :: v → u.length + 1 < 2 ^ 31

structure Clean (m : Message) (cs : List Bytes) : Prop where
  body : m.body.length < 2 ^ 31
  cuts : ∀ p s, cs = p ++ s → p ≠ [] → s ≠ [] → CleanCut m p.flatten

section Cuts
variable {pf : Platform} {on : HttpRequest → HttpResponse}

theorem getLast_lines {L : List Bytes} (hL : L ≠ []) : (Message.lines L).getLast? = some LF := by
  obtain h | ⟨ds, d, rfl⟩ := List.eq_nil_or_concat L
  · exact absurd h hL
  · rw [List.concat_eq_append, lines_append, lines_cons]
    simp [Message.lines]

/-- A chunk that ends inside the header block ends some lines of it and begins the next. -/
theorem chunk_lines {done rest : List Bytes} {x c : Bytes} {m : Message}
    (hdone : m.requestLine :: m.fields = done ++ rest)
    (hpre : Message.lines done ++ x ++ c <+: m.bytes)
    (hhead : (Message.lines done ++ x ++ c).length < m.head.length) :
    ∃ more y, x ++ c = Message.lines more ++ y ∧ (∀ z ∈ more, LF ∉ z) ∧ LF ∉ y ∧
      Message.lines done ++ x ++ c = Message.lines (done ++ more) ++ y ∧
      ∃ rest', m.requestLine :: m.fields = done ++ more ++ rest' := by
  obtain ⟨hsplit, hmore, hy⟩ := splitLines_spec (x ++ c)
  generalize (splitLines (x ++ c)).1 = more at hsplit hmore
  generalize (splitLines (x ++ c)).2 = y at hsplit hy
  have htotal : Message.lines done ++ x ++ c = Message.lines (done ++ more) ++ y := by
    rw [List.append_assoc, hsplit, lines_append, List.append_assoc]
  have hlf : ∀ z ∈ done ++ more, LF ∉ z := fun z hz =>
    (List.mem_append.mp hz).elim (fun hz => m.line_lf z (by simp [hdone, hz])) (hmore z)
  exact ⟨more, y, hsplit, hmore, hy, htotal, m.split_head hlf (htotal ▸ hpre) (htotal ▸ hhead)⟩

theorem feed_clean {s : Lane} {done rest₀ : List Bytes} {x c : Bytes} {m : Message}
    (h : s.At pf done x) (hdone : m.requestLine :: m.fields = done ++ rest₀)
    (hpre : Message.lines done ++ x ++ c <+: m.bytes) (hc : c ≠ [])
    (hcut : CleanCut m (Message.lines done ++ x ++ c)) :
    ∃ s' more y, s.feed pf (fun q => some (on q)) c = some s' ∧ s'.At pf (done ++ more) y ∧
      Message.lines done ++ x ++ c = Message.lines (done ++ more) ++ y ∧
      ∃ rest, m.requestLine :: m.fields = done ++ more ++ rest := by
  obtain ⟨more, y, hsplit, hmore, hy, htotal, rest, hrest⟩ := chunk_lines hdone hpre hcut.head
  rw [htotal] at hcut
  have hne : y ≠ [] := by
    rintro rfl
    rw [List.append_nil] at hcut htotal
    by_cases hz : done ++ more = []
    · rw [hz] at htotal
      have : c = [] := (List.append_eq_nil_iff.mp (htotal.trans rfl)).2
      exact hc this
    · exact hcut.inside (getLast_lines hz)
  have htrim := m.tail_trim hrest
  have hl : done ++ more ≠ [] → (Message.lines (done ++ more)).length < 2 ^ 31 := by
    intro hnil
    obtain ⟨u, hu⟩ := List.getLast?_eq_some_iff.mp (getLast_lines hnil)
    have := hcut.fits u y (by rw [hu]; simp)
    rw [hu, List.length_append, List.length_singleton]
    exact this
  obtain ⟨s', hs', hat⟩ := @feed_unfinished pf on s done more x y c h hsplit hmore htrim hy hne hl
  exact ⟨s', more, y, hs', hat, htotal, rest, hrest⟩

theorem rest_of_head {m : Message} {done more : List Bytes} {x c t : Bytes}
    (hsplit : m.requestLine :: m.fields = done ++ more)
    (h : Message.lines done ++ x ++ c = m.head ++ t) :
    x ++ c = Message.lines more ++ (m.blank ++ LF :: t) := by
  rw [m.head_eq, hsplit, lines_append, lines_append, lines_cons, List.append_assoc] at h
  simp only [List.append_assoc] at h
  have := List.append_cancel_left h
  rw [this]
  simp [Message.lines]

/-- From inside a line, chunks with clean cuts: nothing is passed on before the last of them. -/
theorem clean_run {cs : List Bytes} (hcs : ∀ c ∈ cs, c ≠ []) (hne : cs ≠ []) {m : Message}
    (hsize : m.size pf = some m.body.length) (hlt : m.body.length < 2 ^ 31) {s : Lane}
    {done rest : List Bytes} {x : Bytes} (h : s.At pf done x)
    (hdone : m.requestLine :: m.fields = done ++ rest)
    (htotal : Message.lines done ++ x ++ cs.flatten = m.bytes)
    (hcuts : ∀ p r, cs = p ++ r → p ≠ [] → r ≠ [] →
      CleanCut m (Message.lines done ++ x ++ p.flatten)) :
    (∀ p r, cs = p ++ r → r ≠ [] → ∃ t, s.feedAll pf (fun q => some (on q)) p = some t ∧
        t.loc.passed = []) ∧
      ∃ t, s.feedAll pf (fun q => some (on q)) cs = some t ∧ t.loc.passed = [m.delivered pf] := by
  induction cs generalizing s done rest x with
  | nil => exact absurd rfl hne
  | cons c cs ih =>
    have hc : c ≠ [] := hcs c (by simp)
    have hcs' : ∀ d ∈ cs, d ≠ [] := fun d hd => hcs d (by simp [hd])
    have hstart : ∃ t, s.feedAll pf (fun q => some (on q)) [] = some t ∧ t.loc.passed = [] :=
      ⟨s, rfl, h.passed⟩
    by_cases hlast : cs = []
    · subst hlast
      rw [List.flatten_singleton, Message.bytes] at htotal
      obtain ⟨s', hs', hpassed⟩ := @feed_complete pf on s done rest x c m h hsize hlt hdone
        (rest_of_head hdone htotal)
      refine ⟨fun p r hpr hr => ?_, s', ?_, hpassed⟩
      · have hp : p = [] := by
          have hlen := congrArg List.length hpr
          have hpos := List.length_pos_iff.mpr hr
          simp only [List.length_singleton, List.length_append] at hlen
          exact List.length_eq_zero_iff.mp (by omega)
        exact hp ▸ hstart
      · simp [Lane.feedAll, hs']
    · rw [List.flatten_cons, ← List.append_assoc] at htotal
      have hcut := hcuts [c] cs rfl (by simp) hlast
      rw [List.flatten_singleton] at hcut
      obtain ⟨s', more, y, hs', hat, heq, rest', hrest'⟩ := @feed_clean pf on s done rest x c m h hdone
        ⟨cs.flatten, htotal⟩ hc hcut
      obtain ⟨hearly, t, ht, hpassed⟩ := ih hcs' hlast hat hrest' (by rw [← heq]; exact htotal)
        fun p r hpr hp hr => by
          have := hcuts (c :: p) r (by rw [hpr]; rfl) (by simp) hr
          rwa [List.flatten_cons, ← List.append_assoc, heq] at this
      have hcons : ∀ p, s.feedAll pf (fun q => some (on q)) (c :: p) =
          s'.feedAll pf (fun q => some (on q)) p := fun p => by simp [Lane.feedAll, hs']
      refine ⟨fun p r hpr hr => ?_, t, by rw [hcons, ht], hpassed⟩
      cases p with
      | nil => exact hstart
      | cons d p =>
        obtain ⟨rfl, htl⟩ : c = d ∧ cs = p ++ r := by simpa using hpr
        rw [hcons]
        exact hearly p r htl hr

theorem feedAll_lost {on : OnRequest} {s : Lane} (h : s.lost = true) (cs : List Bytes) :
    s.feedAll pf on cs = some s := by
  induction cs with
  | nil => rfl
  | cons c cs ih =>
    have hfeed : s.feed pf on c = some s := by simp [Lane.feed, h]
    simpa [Lane.feedAll, hfeed] using ih

/-- A chunk that ends elsewhere: something is passed on too early, or the rest of the request is not
delivered as it should be. -/
theorem unclean_chunk {s s₁ : Lane} {done rest : List Bytes} {x c : Bytes} {m : Message}
    (hsize : m.size pf = some m.body.length) (hsmall : m.bytes.length < 2 ^ 31) (h : s.At pf done x)
    (hdone : m.requestLine :: m.fields = done ++ rest) (hc : c ≠ []) {v : Bytes} (hv : v ≠ [])
    (htotal : Message.lines done ++ x ++ c ++ v = m.bytes)
    (hcut : ¬ CleanCut m (Message.lines done ++ x ++ c))
    (hfeed : s.feed pf (fun q => some (on q)) c = some s₁) :
    s₁.loc.passed ≠ [] ∨ s₁.loc.passed = [] ∧ s₁.lost = true ∨
      m.body.length < v.length ∧ s₁.loc.passed = [] ∧ s₁.lost = false ∧
        ∃ n q, 0 < n ∧ n < 2 ^ 64 ∧ q.content = [] ∧
          s₁.loc.entry = some ⟨.receivingData, n, 0, q⟩ ∧ s₁.loc.buffer.clear = .cut [] [] := by
  have hlen := congrArg List.length htotal
  rw [List.length_append] at hlen
  have hvpos := List.length_pos_iff.mpr hv
  have hbytes : m.bytes.length = m.head.length + m.body.length := List.length_append
  by_cases hhead : (Message.lines done ++ x ++ c).length < m.head.length
  · -- the cut is behind a line feed of the header block
    obtain ⟨more, y, hsplit, hmore, hy, htotal', rest', hrest'⟩ := chunk_lines hdone ⟨v, htotal⟩ hhead
    have hlast : (Message.lines done ++ x ++ c).getLast? = some LF := by
      by_contra hne
      refine hcut ⟨hhead, hne, fun u w hu => ?_⟩
      have hulen : (Message.lines done ++ x ++ c).length = u.length + (w.length + 1) := by
        rw [hu, List.length_append, List.length_cons]
      omega
    have hy0 : y = [] := by
      by_contra hne
      rw [htotal', List.getLast?_append_of_ne_nil _ hne] at hlast
      exact hy (List.mem_of_getLast? hlast)
    rw [hy0, List.append_nil] at hsplit htotal'
    have hne : done ++ more ≠ [] := by
      intro h0
      rw [h0] at htotal'
      exact hc (List.append_eq_nil_iff.mp (htotal'.trans rfl)).2
    obtain hp | hl | hw := feed_behind_line h hsplit hne hmore (m.tail_trim hrest') hfeed
    · exact .inl hp
    · exact .inr (.inl hl)
    · obtain ⟨hp, hl, n, q, hn, hlt, hq, hentry, hbuf⟩ := hw
      exact .inr (.inr ⟨by omega, hp, hl, n, q, hn, hlt, hq ▸ progress_content _, hentry, hbuf⟩)
  · -- the cut is behind the header block
    obtain ⟨t, ht⟩ : m.head <+: Message.lines done ++ x ++ c :=
      List.prefix_of_prefix_length_le ⟨m.body, rfl⟩ ⟨v, htotal⟩ (by omega)
    have hshort : t.length < m.body.length := by
      have := congrArg List.length ht
      rw [List.length_append] at this
      omega
    exact .inl (feed_short h hsize hdone (rest_of_head hdone ht.symm) hshort hsmall hfeed)

/-- Chunks of which none is passed on before the last, and then the whole request, are cut cleanly. -/
theorem clean_of_run {cs : List Bytes} (hcs : ∀ c ∈ cs, c ≠ []) {m : Message}
    (hsize : m.size pf = some m.body.length) (hsmall : m.bytes.length < 2 ^ 31) {s : Lane}
    {done rest : List Bytes} {x : Bytes} (h : s.At pf done x)
    (hdone : m.requestLine :: m.fields = done ++ rest)
    (htotal : Message.lines done ++ x ++ cs.flatten = m.bytes)
    (hearly : ∀ p r, cs = p ++ r → r ≠ [] → ∃ t, s.feedAll pf (fun q => some (on q)) p = some t ∧
      t.loc.passed = [])
    (honce : ∃ t, s.feedAll pf (fun q => some (on q)) cs = some t ∧
      t.loc.passed = [m.delivered pf]) :
    ∀ p r, cs = p ++ r → p ≠ [] → r ≠ [] → CleanCut m (Message.lines done ++ x ++ p.flatten) := by
  induction cs generalizing s done rest x with
  | nil =>
    intro p r hpr hp hr
    exact absurd (List.append_eq_nil_iff.mp hpr.symm).1 hp
  | cons c cs ih =>
    intro p r hpr hp hr
    have hc : c ≠ [] := hcs c (by simp)
    have hcs' : ∀ d ∈ cs, d ≠ [] := fun d hd => hcs d (by simp [hd])
    obtain ⟨d, p, rfl⟩ := List.exists_cons_of_ne_nil hp
    obtain ⟨rfl, htl⟩ : c = d ∧ cs = p ++ r := by simpa using hpr
    have hlast : cs ≠ [] := by
      rw [htl]
      simp [hr]
    rw [List.flatten_cons, ← List.append_assoc] at htotal
    obtain ⟨s₁, hs₁, hpassed₁⟩ := hearly [c] cs rfl hlast
    have hs₁ : s.feed pf (fun q => some (on q)) c = some s₁ := by simpa [Lane.feedAll] using hs₁
    have hcons : ∀ p, s.feedAll pf (fun q => some (on q)) (c :: p) =
        s₁.feedAll pf (fun q => some (on q)) p := fun p => by simp [Lane.feedAll, hs₁]
    have hearly' : ∀ p r, cs = p ++ r → r ≠ [] → ∃ t, s₁.feedAll pf (fun q => some (on q)) p = some t ∧
        t.loc.passed = [] := fun p r hpr hr => by
      have := hearly (c :: p) r (by rw [hpr]; rfl) hr
      rwa [hcons] at this
    rw [hcons] at honce
    by_cases hcut : CleanCut m (Message.lines done ++ x ++ c)
    · obtain ⟨s', more, y, hs', hat, heq, rest', hrest'⟩ := @feed_clean pf on s done rest x c m h hdone
        ⟨cs.flatten, htotal⟩ hc hcut
      obtain rfl : s₁ = s' := Option.some.inj (hs₁.symm.trans hs')
      rw [List.flatten_cons, ← List.append_assoc]
      by_cases hp0 : p = []
      · simpa [hp0] using hcut
      · rw [heq]
        exact ih hcs' hat hrest' (by rw [← heq]; exact htotal) hearly' honce p r htl hp0 hr
    · exfalso
      obtain ⟨c', cs', rfl⟩ := List.exists_cons_of_ne_nil hlast
      have hc' : c' ≠ [] := hcs' c' (by simp)
      have hv : (c' :: cs').flatten ≠ [] := by simp [hc']
      obtain hp | ⟨_, hl⟩ | hw := unclean_chunk hsize hsmall h hdone hc hv htotal hcut hs₁
      · exact hp hpassed₁
      · obtain ⟨t, ht, htp⟩ := honce
        rw [feedAll_lost hl, Option.some.injEq] at ht
        rw [← ht, hpassed₁] at htp
        cases htp
      · -- the next chunk is passed on as a body
        obtain ⟨hlen, hp, hl, n, q, hn, hlt, hq, hentry, hbuf⟩ := hw
        obtain ⟨t, ht, htp⟩ := honce
        obtain ⟨s₂, hs₂, ht⟩ : ∃ s₂, s₁.feed pf (fun q => some (on q)) c' = some s₂ ∧
            s₂.feedAll pf (fun q => some (on q)) cs' = some t := by
          simpa [Lane.feedAll, Option.bind_eq_some_iff] using ht
        have hclt : c'.length < 2 ^ 31 := by
          have := congrArg List.length htotal
          simp only [List.flatten_cons, List.length_append] at this
          omega
        obtain ⟨q', qs, hpassed, hbody⟩ := feed_misread hp hl hentry hbuf hn hlt hq hc' hclt hs₂
        by_cases hend : cs' = []
        · subst hend
          obtain rfl : s₂ = t := Option.some.inj ht
          rw [htp, List.cons.injEq] at hpassed
          rw [← hpassed.1, delivered_bytes] at hbody
          rw [hbody, List.flatten_singleton] at hlen
          exact Nat.lt_irrefl _ hlen
        · obtain ⟨t', ht', htp'⟩ := hearly' [c'] cs' rfl hend
          obtain rfl : s₂ = t' := by simpa [Lane.feedAll, hs₂] using ht'
          rw [htp'] at hpassed
          cases hpassed

end Cuts

/-! ## Which cuts are harmless -/

/-- The requests passed to the handler for a new connection that got these chunks. -/
def passedAfter (pf : Platform) (on : HttpRequest → HttpResponse) (id : Tcp.ReqId) (fd : Tcp.Fd)
    (cs : List Bytes) : Option (List HttpRequest) :=
  ((Link.start fd).feedAll pf (fun q => some (on q)) id cs).map fun k => k.table.passedFor id

/-- Nothing is passed on before the last chunk, and then one request, the same as for `m` in one
chunk. -/
structure Harmless (pf : Platform) (on : HttpRequest → HttpResponse) (id : Tcp.ReqId) (fd : Tcp.Fd)
    (m : Message) (cs : List Bytes) : Prop where
  early : ∀ p r, cs = p ++ r → r ≠ [] → passedAfter pf on id fd p = some []
  once : ∃ q, passedAfter pf on id fd [m.bytes] = some [q] ∧ passedAfter pf on id fd cs = some [q]

/-- A complete request: its `Content-Length` is the size of its body, or there is neither. -/
def Message.Complete (pf : Platform) (m : Message) : Prop :=
  (m.parsed pf).getHeader contentLength = [] ∧ m.body = [] ∨
    Decimal ((m.parsed pf).getHeader contentLength) m.body.length

section Harm
variable {pf : Platform} {on : HttpRequest → HttpResponse} {id : Tcp.ReqId} {fd : Tcp.Fd}

theorem passedAfter_lane {cs : List Bytes} (hcs : ∀ c ∈ cs, c ≠ []) :
    passedAfter pf on id fd cs =
      (((Link.start fd).lane id).feedAll pf (fun q => some (on q)) cs).map fun s => s.loc.passed := by
  rw [← feedAll_lane id (Link.start fd) hcs, Option.map_map]
  rfl

theorem start_at : ((Link.start fd).lane id).At pf [] [] := ⟨rfl, rfl, rfl, rfl, rfl, rfl⟩

theorem Message.Complete.size {m : Message} (h : m.Complete pf) (hlt : m.body.length < 2 ^ 31) :
    m.size pf = some m.body.length := by
  obtain ⟨htext, hbody⟩ | hdec := h
  · simp [Message.size, HttpRequest.bodySize, htext, hbody]
  · rw [size_of_decimal hdec, if_neg (by omega)]

theorem bytes_ne_nil (m : Message) : m.bytes ≠ [] := by
  simp [Message.bytes, Message.head]

theorem harmless_run {m : Message} (hsize : m.size pf = some m.body.length) {cs : List Bytes}
    (hcs : ∀ c ∈ cs, c ≠ []) (hflat : cs.flatten = m.bytes) (h : Clean m cs) :
    (∀ p r, cs = p ++ r → r ≠ [] → passedAfter pf on id fd p = some []) ∧
      passedAfter pf on id fd cs = some [m.delivered pf] := by
  have hne : cs ≠ [] := by
    rintro rfl
    exact bytes_ne_nil m hflat.symm
  obtain ⟨hearly, t, ht, hpassed⟩ := @clean_run pf on cs hcs hne m hsize h.body
    ((Link.start fd).lane id) [] (m.requestLine :: m.fields) [] start_at rfl hflat h.cuts
  refine ⟨fun p r hpr hr => ?_, ?_⟩
  · obtain ⟨t, ht, hp⟩ := hearly p r hpr hr
    rw [passedAfter_lane fun c hc => hcs c (by simp [hpr, hc]), ht, Option.map_some, hp]
  · rw [passedAfter_lane hcs, ht, Option.map_some, hpassed]

theorem clean_single {m : Message} (hlt : m.body.length < 2 ^ 31) : Clean m [m.bytes] := by
  refine ⟨hlt, fun p r hpr hp hr => ?_⟩
  have hlen := congrArg List.length hpr
  have h1 := List.length_pos_iff.mpr hp
  have h2 := List.length_pos_iff.mpr hr
  simp only [List.length_singleton, List.length_append] at hlen
  omega

/-- For every complete request and every way of cutting it into non-empty chunks: clean cuts are
harmless, and harmless cuts of a request shorter than 2 ^ 31 bytes are clean. -/
theorem harmless_iff_clean (pf : Platform) (on : HttpRequest → HttpResponse) (id : Tcp.ReqId)
    (fd : Tcp.Fd) (m : Message) (hm : m.Complete pf) (cs : List Bytes) (hcs : ∀ c ∈ cs, c ≠ [])
    (hflat : cs.flatten = m.bytes) :
    (Clean m cs → Harmless pf on id fd m cs) ∧
      (m.bytes.length < 2 ^ 31 → Harmless pf on id fd m cs → Clean m cs) := by
  have hsingle : m.body.length < 2 ^ 31 → m.size pf = some m.body.length →
      passedAfter pf on id fd [m.bytes] = some [m.delivered pf] := fun hlt hsize =>
    (harmless_run hsize (by simpa using bytes_ne_nil m) (by simp) (clean_single hlt)).2
  constructor
  · intro h
    have hsize := hm.size h.body
    have hrun := @harmless_run pf on id fd m hsize cs hcs hflat h
    exact ⟨hrun.1, m.delivered pf, hsingle h.body hsize, hrun.2⟩
  · rintro hsmall ⟨hearly, q, hq, honce⟩
    have hlt : m.body.length < 2 ^ 31 := by
      rw [Message.bytes, List.length_append] at hsmall
      omega
    have hsize := hm.size hlt
    rw [hsingle hlt hsize, Option.some.injEq, List.cons.injEq] at hq
    refine ⟨hlt, @clean_of_run pf on cs hcs m hsize hsmall ((Link.start fd).lane id) []
      (m.requestLine :: m.fields) [] start_at rfl hflat (fun p r hpr hr => ?_) ?_⟩
    · have := hearly p r hpr hr
      rw [passedAfter_lane fun c hc => hcs c (by simp [hpr, hc])] at this
      exact Option.map_eq_some_iff.mp this
    · rw [passedAfter_lane hcs, ← hq.1] at honce
      exact Option.map_eq_some_iff.mp honce

end Harm

namespace Sample

def cleanChunks : List Bytes := [ascii "PUT / 1\nContent", ascii "-Length:1\n\nx"]

def lineChunks : List Bytes := [ascii "PUT / 1\n", ascii "Content-Length:1\n\nx"]

theorem cleanChunks_clean : Clean message cleanChunks := by
  refine ⟨by decide, fun p r hpr hp hr => ?_⟩
  obtain ⟨d, p, rfl⟩ := List.exists_cons_of_ne_nil hp
  obtain ⟨e, r, rfl⟩ := List.exists_cons_of_ne_nil hr
  have hp0 : p = [] ∧ d = ascii "PUT / 1\nContent" := by
    have hlen := congrArg List.length hpr
    simp only [cleanChunks, List.length_cons, List.length_append, List.length_nil] at hlen
    have hpl : p = [] := List.length_eq_zero_iff.mp (by omega)
    rw [hpl] at hpr
    exact ⟨hpl, (List.cons.inj hpr).1.symm⟩
  rw [hp0.1, hp0.2, List.flatten_singleton]
  refine ⟨by decide, by decide, fun u v hu => ?_⟩
  have hlen := congrArg List.length hu
  rw [List.length_append, List.length_cons] at hlen
  have htotal : (ascii "PUT / 1\nContent").length = 15 := by decide
  omega

end Sample

theorem harmless_clean_chunks :
    Harmless Sample.platform (fun _ => .new) 0 5 Sample.message Sample.cleanChunks :=
  (harmless_iff_clean Sample.platform (fun _ => .new) 0 5 Sample.message
    (.inr Sample.message_decimal) Sample.cleanChunks (by decide) (by decide)).1
    Sample.cleanChunks_clean

/-- A request cut behind its request line: the handler is called before the second chunk. -/
theorem cut_behind_line_harms :
    Sample.message.Complete Sample.platform ∧ (∀ c ∈ Sample.lineChunks, c ≠ []) ∧
    Sample.lineChunks.flatten = Sample.message.bytes ∧
    ¬ Harmless Sample.platform (fun _ => .new) 0 5 Sample.message Sample.lineChunks := by
  refine ⟨.inr Sample.message_decimal, by decide, by decide, fun h => ?_⟩
  have hearly := h.early [ascii "PUT / 1\n"] [ascii "Content-Length:1\n\nx"] rfl (by simp)
  revert hearly
  decide +kernel

end Dcl.Http
