import Dcl.Http.Message
import Dcl.Strutils.Tokens

/-! # A header block, written and read again

`operator<<` writes a header map as lines `key: value`, one for each entry and in key order;
`WAIT_HEADER` cuts its input at line feeds, trims each line and hands it to `set_header` until a line
is blank. Keys and values that `set_header` stored are trimmed and no key has a colon (`Stored`), so a
line is cut where it was joined, and the entries come back in the order in which the map keeps them. -/
namespace Dcl.Http
set_option autoImplicit false

/-! ## What `set_header` stores -/

def StoredKey (k : Bytes) : Prop :=
  Trimmed k ∧ LF ∉ k ∧ 58 ∉ k ∧ compare k (ascii "Cookie") = false ∧
    compare k (ascii "Set-Cookie") = false

def StoredValue (v : Bytes) : Prop := Trimmed v ∧ LF ∉ v

def Stored (h : HttpHeaders) : Prop := ∀ e ∈ h.entries, StoredKey e.1 ∧ StoredValue e.2

theorem setField_header {k : Bytes} (hk : StoredKey k) (pf : Platform) (h : HttpHeader) (v : Bytes) :
    h.setField pf k v = { h with headers := h.headers.set k v } := by
  obtain ⟨-, -, -, hcookie, hset⟩ := hk
  rw [HttpHeader.setField, hcookie, hset]
  rfl

theorem setHeader_stored (pf : Platform) {h : HttpHeader} (hs : Stored h.headers) {x : Bytes}
    (hx : LF ∉ x) : Stored (h.setHeader pf x).headers := by
  unfold HttpHeader.setHeader
  split
  next pos hpos =>
    obtain ⟨a, c, b, hsplit, ha, -, rfl⟩ := findFirstOf_some hpos
    rw [List.drop_zero] at hsplit
    have htake : x.take (0 + a.length) = a := by
      rw [hsplit, Nat.zero_add]
      exact List.take_left
    have hkey : LF ∉ trim (x.take (0 + a.length)) := fun h0 =>
      hx (List.mem_of_mem_take (mem_of_mem_trim h0))
    have hcolon : 58 ∉ trim (x.take (0 + a.length)) := by
      intro h0
      rw [htake] at h0
      have hc := ha 58 (mem_of_mem_trim h0)
      exact Bool.false_ne_true (hc.symm.trans (by decide))
    have hvalue : StoredValue (trim (x.drop (0 + a.length + 1))) :=
      ⟨trimmed_trim _, fun h0 => hx (List.mem_of_mem_drop (mem_of_mem_trim h0))⟩
    unfold HttpHeader.setField
    split_ifs with hcookie hset
    · exact hs
    · exact hs
    · refine OrderedMap.assign_forall ⟨trimmed_trim _, hkey, hcolon, ?_, ?_⟩ hvalue hs
      · exact Bool.eq_false_iff.mpr hcookie
      · exact Bool.eq_false_iff.mpr hset
  next => exact hs

theorem setHeaders_stored (pf : Platform) (ls : List Bytes) (hlf : ∀ x ∈ ls, LF ∉ x)
    (h : HttpHeader) (hs : Stored h.headers) :
    Stored (ls.foldl (HttpHeader.setHeader pf) h).headers := by
  induction ls generalizing h with
  | nil => exact hs
  | cons x ls ih =>
    obtain ⟨hx, hls⟩ := List.forall_mem_cons.mp hlf
    exact ih hls _ (setHeader_stored pf hs hx)

/-! ## The lines of the block -/

def fieldLine (e : Bytes × Bytes) : Bytes := e.1 ++ ascii ": " ++ e.2

/-- A line of the output between two line feeds. -/
def writtenLine (e : Bytes × Bytes) : Bytes := fieldLine e ++ ascii "\r"

theorem entries_lines (es : List (Bytes × Bytes)) :
    (es.flatMap fun e => e.1 ++ ascii ": " ++ e.2 ++ crlf) = Message.lines (es.map writtenLine) := by
  rw [Message.lines, List.flatMap_map]
  congr 1
  funext e
  rw [writtenLine, fieldLine, List.append_assoc _ (ascii "\r")]
  rfl

theorem output_eq {r : HttpRequest} (hc : r.cookies = []) :
    r.output = Message.lines (r.headers.entries.map writtenLine) ++
      (ascii "\r" ++ LF :: r.content.take r.getContentSize.toNat) := by
  have hline : r.cookieLine = [] := by
    rw [HttpRequest.cookieLine, hc]
    rfl
  rw [HttpRequest.output, entries_lines, hline, List.append_nil, List.append_assoc]
  rfl

theorem writtenLine_lf {e : Bytes × Bytes} (hk : StoredKey e.1) (hv : StoredValue e.2) :
    LF ∉ writtenLine e := by
  have hsep : LF ∉ ascii ": " := by decide
  have hend : LF ∉ ascii "\r" := by decide
  simp only [writtenLine, fieldLine, List.mem_append, not_or]
  exact ⟨⟨⟨hk.2.1, hsep⟩, hv.2⟩, hend⟩

theorem splitOn_line {x : Bytes} (hx : LF ∉ x) (t : Bytes) :
    (x ++ LF :: t).splitOn LF = x :: t.splitOn LF := by
  have hne : ∀ c ∈ x, (c == LF) = false := fun c hc => by
    rw [beq_eq_false_iff_ne]
    exact fun h => hx (h ▸ hc)
  rw [List.splitOn_eq_splitOnP, List.splitOnP_append_cons_of_forall_mem hne LF (by simp),
    ← List.splitOn_eq_splitOnP]

theorem splitOn_lines {ls : List Bytes} (hlf : ∀ x ∈ ls, LF ∉ x) (t : Bytes) :
    (Message.lines ls ++ t).splitOn LF = ls ++ t.splitOn LF := by
  induction ls with
  | nil => rfl
  | cons x ls ih =>
    obtain ⟨hx, hls⟩ := List.forall_mem_cons.mp hlf
    have hsplit : Message.lines (x :: ls) ++ t = x ++ LF :: (Message.lines ls ++ t) := by
      simp [Message.lines]
    rw [hsplit, splitOn_line hx, ih hls, List.cons_append]

/-! ## Reading one line -/

theorem trimmed_keyed {k s : Bytes} (hk : Trimmed k) (hs : ∀ c ∈ s.getLast?, blanks.contains c = false) :
    Trimmed (k ++ 58 :: s) := by
  refine ⟨fun c hc => ?_, fun c hc => ?_⟩
  · by_cases hne : k = []
    · subst hne
      obtain rfl : 58 = c := Option.some.inj hc
      decide
    · rw [List.head?_append_of_ne_nil _ hne] at hc
      exact hk.1 c hc
  · rw [List.getLast?_append_of_ne_nil _ (by simp)] at hc
    by_cases hne : s = []
    · subst hne
      obtain rfl : 58 = c := Option.some.inj hc
      decide
    · rw [List.getLast?_cons_of_ne_nil hne] at hc
      exact hs c hc

/-- What is left of a written line: the blank behind the colon goes when the value is empty. -/
theorem trim_writtenLine {k v : Bytes} (hk : Trimmed k) (hv : Trimmed v) :
    trim (writtenLine (k, v)) = k ++ 58 :: (if v = [] then [] else 32 :: v) := by
  by_cases hne : v = []
  · have hpad := trim_padded (x := []) (s := k ++ [58]) (y := [32, 13]) (by simp)
      (trimmed_keyed hk (by simp)) (by simp) (by decide +kernel)
    rw [if_pos hne, ← hpad, hne, writtenLine, fieldLine]
    congr 1
    simp only [List.append_assoc, List.nil_append]
    rfl
  · have hlast : ∀ c ∈ (32 :: v).getLast?, blanks.contains c = false := by
      rw [List.getLast?_cons_of_ne_nil hne]
      exact hv.2
    have hpad := trim_padded (x := []) (s := k ++ 58 :: 32 :: v) (y := [13]) (by simp)
      (trimmed_keyed hk hlast) (by simp) (by decide +kernel)
    rw [if_neg hne, ← hpad, writtenLine, fieldLine]
    congr 1
    simp only [List.append_assoc, List.nil_append]
    rfl

theorem trim_writtenLine_ne_nil {e : Bytes × Bytes} (hk : StoredKey e.1) (hv : StoredValue e.2) :
    trim (writtenLine e) ≠ [] := by
  rw [trim_writtenLine hk.1 hv.1]
  simp

theorem setHeader_writtenLine {e : Bytes × Bytes} (hk : StoredKey e.1) (hv : StoredValue e.2)
    (pf : Platform) (h : HttpHeader) :
    h.setHeader pf (trim (writtenLine e)) = { h with headers := h.headers.set e.1 e.2 } := by
  obtain ⟨k, v⟩ := e
  have hcut : findFirstOf (trim (writtenLine (k, v))) (ascii ":") 0 = some k.length := by
    rw [trim_writtenLine hk.1 hv.1]
    exact findFirstOf_append hk.2.2.1
  have hkey : trim ((trim (writtenLine (k, v))).take k.length) = k := by
    rw [trim_writtenLine hk.1 hv.1, List.take_left, trim_eq_self hk.1]
  have hvalue : trim ((trim (writtenLine (k, v))).drop (k.length + 1)) = v := by
    have hdrop : ∀ s : Bytes, (k ++ 58 :: s).drop (k.length + 1) = s := by simp
    rw [trim_writtenLine hk.1 hv.1, hdrop]
    by_cases hne : v = []
    · rw [if_pos hne, hne]
      rfl
    · rw [if_neg hne]
      exact trim_cons_space hv.1 hne
  rw [HttpHeader.setHeader, hcut]
  simp only [hkey, hvalue]
  exact setField_header hk pf h v

theorem addField_writtenLine {e : Bytes × Bytes} (hk : StoredKey e.1) (hv : StoredValue e.2)
    (pf : Platform) (r : HttpRequest) :
    r.addField pf (writtenLine e) = { r with headers := r.headers.set e.1 e.2 } := by
  rw [HttpRequest.addField, setHeader_writtenLine hk hv]

/-! ## Reading the block -/

theorem addFields_writtenLines {es : List (Bytes × Bytes)}
    (hs : ∀ e ∈ es, StoredKey e.1 ∧ StoredValue e.2) (pf : Platform) (r : HttpRequest) :
    (es.map writtenLine).foldl (HttpRequest.addField pf) r =
      { r with headers := es.foldl (fun m e => m.set e.1 e.2) r.headers } := by
  induction es generalizing r with
  | nil => rfl
  | cons e es ih =>
    obtain ⟨he, hes⟩ := List.forall_mem_cons.mp hs
    rw [List.map_cons, List.foldl_cons, addField_writtenLine he.1 he.2, ih hes]
    rfl

/-- The lines before the first blank one. -/
def headerLines (text : Bytes) : List Bytes :=
  (text.splitOn LF).takeWhile fun x => !(trim x).isEmpty

theorem headerLines_block {ls : List Bytes} (hlf : ∀ x ∈ ls, LF ∉ x) (htrim : ∀ x ∈ ls, trim x ≠ [])
    {b : Bytes} (hb : LF ∉ b) (hblank : trim b = []) (t : Bytes) :
    headerLines (Message.lines ls ++ (b ++ LF :: t)) = ls := by
  have hall : ∀ x ∈ ls, (!(trim x).isEmpty) = true := fun x hx => by simpa using htrim x hx
  rw [headerLines, splitOn_lines hlf, splitOn_line hb, List.takeWhile_append_of_pos hall,
    List.takeWhile_cons_of_neg (by simp [hblank]), List.append_nil]

theorem Stored.lines_lf {h : HttpHeaders} (hs : Stored h) :
    ∀ x ∈ h.entries.map writtenLine, LF ∉ x := by
  intro x hx
  obtain ⟨e, he, rfl⟩ := List.mem_map.mp hx
  exact writtenLine_lf (hs e he).1 (hs e he).2

theorem Stored.lines_trim {h : HttpHeaders} (hs : Stored h) :
    ∀ x ∈ h.entries.map writtenLine, trim x ≠ [] := by
  intro x hx
  obtain ⟨e, he, rfl⟩ := List.mem_map.mp hx
  exact trim_writtenLine_ne_nil (hs e he).1 (hs e he).2

theorem Stored.read_back {h : HttpHeaders} (hs : Stored h) (pf : Platform) :
    (h.entries.map writtenLine).foldl (HttpRequest.addField pf) .new =
      { HttpRequest.new with headers := h } := by
  rw [addFields_writtenLines hs]
  exact congrArg (fun m => { HttpRequest.new with headers := m }) h.foldl_set_entries

/-- The state machine over a written header block, up to the blank line. -/
theorem Stored.passes {r : HttpRequest} (hs : Stored r.headers) (hc : r.cookies = []) (pf : Platform)
    (on : OnRequest) (l : Bytes) (n d : ℕ) (out : Bytes) (ps : List HttpRequest) :
    Loop.Passes (pass pf on) r.headers.entries.length
      ⟨⟨.waitHeader, n, d, .new⟩, .cut l r.output, out, ps⟩
      ⟨⟨.waitHeader, n, d, { HttpRequest.new with headers := r.headers }⟩,
        .cut (l ++ Message.lines (r.headers.entries.map writtenLine))
          (ascii "\r" ++ LF :: r.content.take r.getContentSize.toNat), out, ps⟩ := by
  have h := @fields_passes pf on (r.headers.entries.map writtenLine) hs.lines_lf hs.lines_trim l
    (ascii "\r" ++ LF :: r.content.take r.getContentSize.toNat) n d .new out ps
  rw [List.length_map, hs.read_back, ← output_eq hc] at h
  exact h

/-- The header block of a request without cookies is read back: the same keys with the same spelling,
the same values, and nothing else. Lines with a cookie's key do not change the header map, so they may
be among those that built it. -/
theorem header_block_read_back (pf : Platform) (ls : List Bytes) (hlf : ∀ x ∈ ls, LF ∉ x)
    (r : HttpRequest) (hr : r.headers = (ls.foldl (HttpHeader.setHeader pf) .new).headers)
    (hc : r.cookies = []) :
    (headerLines r.output).foldl (HttpRequest.addField pf) .new =
        { HttpRequest.new with headers := r.headers } ∧
      (headerLines r.output).length = r.headers.entries.length ∧
      ∃ blank rest, r.output.splitOn LF = headerLines r.output ++ blank :: rest ∧
        trim blank = [] := by
  have hs : Stored r.headers := by
    rw [hr]
    exact setHeaders_stored pf ls hlf .new (by simp [Stored, HttpHeader.new, OrderedMap.empty])
  have hblock : headerLines r.output = r.headers.entries.map writtenLine := by
    rw [output_eq hc]
    exact headerLines_block hs.lines_lf hs.lines_trim (by decide) (by decide) _
  have hsplit : r.output.splitOn LF = r.headers.entries.map writtenLine ++
      ascii "\r" :: (r.content.take r.getContentSize.toNat).splitOn LF := by
    rw [output_eq hc, splitOn_lines hs.lines_lf, splitOn_line (by decide)]
  rw [hblock]
  exact ⟨hs.read_back pf, List.length_map _, ascii "\r", _, hsplit, by decide⟩

/-- Two spellings of one key and a value with a colon: the first spelling and the last value stay. -/
theorem header_block_read_back_spelling :
    let ls := [ascii "Host : a:80", ascii "X:", ascii "HOST: b:8\r"]
    let r : HttpRequest := { HttpRequest.new with
      headers := (ls.foldl (HttpHeader.setHeader Sample.platform) .new).headers }
    r.headers.entries = [(ascii "Host", ascii "b:8"), (ascii "X", [])] ∧
      (headerLines r.output).foldl (HttpRequest.addField Sample.platform) .new =
        { HttpRequest.new with headers := r.headers } :=
  ⟨by decide, (header_block_read_back Sample.platform
    [ascii "Host : a:80", ascii "X:", ascii "HOST: b:8\r"] (by decide) _ rfl rfl).1⟩

end Dcl.Http
