import Dcl.Http.Content
import Dcl.Http.HeaderBlock

/-! # The header block of a response

`operator<<` for responses concatenates what was stored: a line for each header and for each cookie,
each ended by CRLF, then an empty line. No setter rejects or escapes anything. A reader that takes the
bytes before the first CRLF CRLF and cuts them at every CRLF gets back the stored fields exactly when
no key, value or cookie contains a CRLF. -/
namespace Dcl.Http
set_option autoImplicit false

/-! ## The fields of a response and the calls that store them -/

/-- The header fields as names and values: the headers in key order, then the cookies. -/
def HttpResponse.fields (pf : Platform) (r : HttpResponse) : List (Bytes × Bytes) :=
  r.headers.entries ++ r.cookies.map fun c => (ascii "Set-Cookie", c.str pf)

/-- `http_header::add_cookie`. -/
def HttpHeader.addCookie (h : HttpHeader) (c : HttpCookie) : HttpHeader :=
  { h with cookies := h.cookies ++ [c] }

inductive ResponseCall where
  | setHeader (key value : Bytes)
  | setContentType (value : Bytes)
  | addCookie (c : HttpCookie)
  | setContent (value : Bytes)

/-- A `set_content` that throws leaves the response as it was. -/
def ResponseCall.apply (pf : Platform) (h : HttpHeader) : ResponseCall → HttpHeader
  | .setHeader key value => h.setField pf key value
  | .setContentType value => h.setContentType value
  | .addCookie c => h.addCookie c
  | .setContent value => (h.setContentString value).getD h

/-- A new response after some calls. -/
def HttpResponse.build (pf : Platform) (calls : List ResponseCall) : HttpResponse :=
  { HttpResponse.new with
    toHttpHeader := calls.foldl (ResponseCall.apply pf) HttpResponse.new.toHttpHeader }

theorem apply_headers_ne_nil (pf : Platform) {h : HttpHeader} (hne : h.headers.entries ≠ [])
    (c : ResponseCall) : (c.apply pf h).headers.entries ≠ [] := by
  cases c with
  | setHeader key value =>
    simp only [ResponseCall.apply, HttpHeader.setField]
    split_ifs
    · exact hne
    · exact hne
    · exact OrderedMap.assign_ne_nil _ _ _
  | setContentType value => exact OrderedMap.assign_ne_nil _ _ _
  | addCookie c => exact hne
  | setContent value =>
    rw [ResponseCall.apply, HttpHeader.setContentString_eq]
    split_ifs
    · exact hne
    · exact OrderedMap.assign_ne_nil _ _ _

theorem foldl_headers_ne_nil (pf : Platform) (calls : List ResponseCall) (h : HttpHeader)
    (hne : h.headers.entries ≠ []) :
    (calls.foldl (ResponseCall.apply pf) h).headers.entries ≠ [] := by
  induction calls generalizing h with
  | nil => exact hne
  | cons c calls ih => exact ih _ (apply_headers_ne_nil pf hne c)

/-- The constructor stores a content type, and no call removes a header. -/
theorem fields_ne_nil (pf : Platform) (calls : List ResponseCall) :
    (HttpResponse.build pf calls).fields pf ≠ [] :=
  List.append_ne_nil_of_left_ne_nil (foldl_headers_ne_nil pf calls _ (OrderedMap.assign_ne_nil _ _ _)) _

theorem response_output_eq (pf : Platform) (r : HttpResponse) :
    r.output pf = (((r.fields pf).map fieldLine).flatMap fun x => x ++ crlf) ++
      (crlf ++ r.content.take r.getContentSize.toNat) := by
  rw [HttpResponse.output, HttpResponse.fields, List.flatMap_map, List.flatMap_append,
    List.flatMap_map, List.append_assoc _ crlf]
  rfl

/-! ## Reading the block -/

theorem crlf_append (t : Bytes) : crlf ++ t = 13 :: 10 :: t := rfl

/-- The bytes before the first CRLF CRLF. -/
def headerBlock : Bytes → Option Bytes
  | [] => none
  | c :: t => if crlf ++ crlf <+: c :: t then some [] else (headerBlock t).map (c :: ·)

/-- The parts between one CRLF and the next. -/
def splitCrlf : Bytes → List Bytes
  | [] => [[]]
  | [c] => [[c]]
  | c :: d :: t =>
      if c = 13 ∧ d = 10 then [] :: splitCrlf t
      else match splitCrlf (d :: t) with
        | [] => []
        | x :: xs => (c :: x) :: xs

/-- Nothing in the text ends a line. -/
def OneLine (x : Bytes) : Prop := ¬crlf <:+: x

instance (x : Bytes) : Decidable (OneLine x) := inferInstanceAs (Decidable (¬_))

theorem OneLine.tail {c : UInt8} {x : Bytes} (h : OneLine (c :: x)) : OneLine x :=
  fun hx => h (List.infix_cons hx)

theorem OneLine.head {c d : UInt8} {x : Bytes} (h : OneLine (c :: d :: x)) : ¬(c = 13 ∧ d = 10) := by
  rintro ⟨rfl, rfl⟩
  exact h ⟨[], x, rfl⟩

/-- A line that is not empty and the CRLF behind it do not begin with a CRLF. -/
theorem OneLine.not_crlf_first {x : Bytes} (h : OneLine x) (hne : x ≠ []) (t : Bytes) :
    ¬crlf <+: x ++ 13 :: 10 :: t := by
  intro hp
  match x, hne with
  | [c], _ =>
    have h10 : (10 : UInt8) = 13 := (List.cons_prefix_cons.mp (List.cons_prefix_cons.mp hp).2).1
    exact absurd h10 (by decide)
  | c :: d :: x, _ =>
    have hc : 13 = c := (List.cons_prefix_cons.mp hp).1
    have hd : 10 = d := (List.cons_prefix_cons.mp (List.cons_prefix_cons.mp hp).2).1
    exact h.head ⟨hc.symm, hd.symm⟩

/-- No part contains a CRLF, and the first part begins as the text does. -/
theorem splitCrlf_spec (t : Bytes) :
    (∀ x ∈ splitCrlf t, OneLine x) ∧ ∀ d x xs, splitCrlf t = (d :: x) :: xs → t.head? = some d := by
  fun_induction splitCrlf t with
  | case1 => simp [OneLine, crlf]; decide
  | case2 c =>
    refine ⟨?_, ?_⟩
    · intro x hx
      rw [List.mem_singleton.mp hx]
      intro hc
      have hlen : 2 ≤ 1 := hc.length_le
      omega
    · intro d x xs h
      simp only [List.cons.injEq] at h
      rw [List.head?_cons, h.1.1]
  | case3 c d t hcd ih =>
    refine ⟨?_, ?_⟩
    · refine List.forall_mem_cons.mpr ⟨by decide, ih.1⟩
    · intro d x xs h
      cases h
  | case4 c d t hcd hnil ih =>
    refine ⟨by simp, ?_⟩
    intro d x xs h
    cases h
  | case5 c d t hcd x xs hx ih =>
    rw [hx] at ih
    obtain ⟨hfirst, hrest⟩ := List.forall_mem_cons.mp ih.1
    refine ⟨List.forall_mem_cons.mpr ⟨?_, hrest⟩, ?_⟩
    · -- a CRLF across the join would have been cut
      intro hinfix
      obtain hp | hi := List.infix_cons_iff.mp hinfix
      · obtain ⟨hc, hp⟩ := List.cons_prefix_cons.mp hp
        cases x with
        | nil => simp at hp
        | cons e x =>
          have he : 10 = e := (List.cons_prefix_cons.mp hp).1
          have hd := ih.2 e x xs rfl
          rw [List.head?_cons, Option.some.injEq] at hd
          exact hcd ⟨hc.symm, hd.trans he.symm⟩
      · exact hfirst hi
    · intro a y ys h
      simp only [List.cons.injEq] at h
      rw [List.head?_cons, h.1.1]

theorem splitCrlf_oneLine {x : Bytes} (h : OneLine x) : splitCrlf x = [x] := by
  fun_induction splitCrlf x with
  | case1 => rfl
  | case2 c => rfl
  | case3 c d t hcd ih => exact absurd hcd h.head
  | case4 c d t hcd hnil ih => simp [ih h.tail] at hnil
  | case5 c d t hcd x xs hx ih =>
    rw [ih h.tail] at hx
    simp only [List.cons.injEq] at hx
    rw [← hx.1, ← hx.2]

theorem splitCrlf_append {x : Bytes} (h : OneLine x) (t : Bytes) :
    splitCrlf (x ++ 13 :: 10 :: t) = x :: splitCrlf t := by
  match x with
  | [] => simp [splitCrlf]
  | [c] => simp [splitCrlf]
  | c :: d :: x =>
    have ih := splitCrlf_append h.tail t
    rw [List.cons_append, List.cons_append, splitCrlf, if_neg h.head, ← List.cons_append, ih]

theorem splitCrlf_intercalate {ls : List Bytes} (hls : ∀ x ∈ ls, OneLine x) (hne : ls ≠ []) :
    splitCrlf (crlf.intercalate ls) = ls := by
  induction ls with
  | nil => exact absurd rfl hne
  | cons x ls ih =>
    obtain ⟨hx, hls⟩ := List.forall_mem_cons.mp hls
    by_cases hnil : ls = []
    · rw [hnil, List.intercalate_singleton, splitCrlf_oneLine hx]
    · rw [List.intercalate_cons_of_ne_nil hnil, List.append_assoc, crlf_append, splitCrlf_append hx,
        ih hls hnil]

theorem headerBlock_cons {c : UInt8} {x : Bytes} (h : OneLine (c :: x)) (s : Bytes) :
    headerBlock (c :: x ++ 13 :: 10 :: s) = (headerBlock (x ++ 13 :: 10 :: s)).map (c :: ·) := by
  have hp : ¬crlf ++ crlf <+: c :: (x ++ 13 :: 10 :: s) := fun hp =>
    h.not_crlf_first (List.cons_ne_nil c x) s ((List.prefix_append _ _).trans hp)
  rw [List.cons_append, headerBlock, if_neg hp]

theorem headerBlock_append {x : Bytes} (h : OneLine x) {s : Bytes} (hs : ¬crlf <+: s) :
    headerBlock (x ++ 13 :: 10 :: s) = (headerBlock s).map (fun b => x ++ 13 :: 10 :: b) := by
  induction x with
  | nil =>
    have h0 : ¬crlf ++ crlf <+: 13 :: 10 :: s := by
      intro hp
      exact hs (by simpa [crlf, ascii] using hp)
    have h1 : ¬crlf ++ crlf <+: 10 :: s := by
      intro hp
      exact absurd (List.cons_prefix_cons.mp hp).1 (by decide)
    rw [List.nil_append, headerBlock, if_neg h0, headerBlock, if_neg h1, Option.map_map]
    rfl
  | cons c x ih =>
    rw [headerBlock_cons h, ih h.tail, Option.map_map]
    rfl

theorem headerBlock_last {x : Bytes} (h : OneLine x) (t : Bytes) :
    headerBlock (x ++ 13 :: 10 :: 13 :: 10 :: t) = some x := by
  induction x with
  | nil =>
    rw [List.nil_append, headerBlock, if_pos]
    exact ⟨t, rfl⟩
  | cons c x ih =>
    rw [headerBlock_cons h, ih h.tail, Option.map_some]

theorem headerBlock_lines {ls : List Bytes} (hls : ∀ x ∈ ls, OneLine x ∧ x ≠ []) (hne : ls ≠ [])
    (t : Bytes) :
    headerBlock ((ls.flatMap fun x => x ++ crlf) ++ (crlf ++ t)) = some (crlf.intercalate ls) := by
  induction ls with
  | nil => exact absurd rfl hne
  | cons x ls ih =>
    obtain ⟨hx, hls⟩ := List.forall_mem_cons.mp hls
    rw [List.flatMap_cons, List.append_assoc, List.append_assoc]
    by_cases hnil : ls = []
    · rw [hnil, List.intercalate_singleton]
      exact headerBlock_last hx.1 t
    · obtain ⟨y, ys, rfl⟩ := List.exists_cons_of_ne_nil hnil
      have hnext : ¬crlf <+: ((y :: ys).flatMap fun x => x ++ crlf) ++ (crlf ++ t) := by
        rw [List.flatMap_cons, List.append_assoc, List.append_assoc]
        exact (hls y (by simp)).1.not_crlf_first (hls y (by simp)).2 _
      refine (headerBlock_append hx.1 hnext).trans ?_
      rw [ih hls hnil, List.intercalate_cons_of_ne_nil hnil, List.append_assoc]
      rfl

/-! ## When a line stays one line -/

theorem prefix_append_cons {α : Type*} {s a b : List α} {c : α} (hc : c ∉ s) :
    s <+: a ++ c :: b ↔ s <+: a := by
  refine ⟨fun h => ?_, fun h => h.trans (List.prefix_append a _)⟩
  by_cases hlen : s.length ≤ a.length
  · exact List.prefix_of_prefix_length_le h (List.prefix_append a _) hlen
  · have hac : a ++ [c] <+: s := by
      have hle : a ++ [c] <+: a ++ c :: b := ⟨b, by simp⟩
      refine List.prefix_of_prefix_length_le hle h ?_
      rw [List.length_append, List.length_singleton]
      omega
    exact absurd (hac.subset (by simp)) hc

theorem infix_append_cons {α : Type*} {s a b : List α} {c : α} (hc : c ∉ s) (hs : s ≠ []) :
    s <:+: a ++ c :: b ↔ s <:+: a ∨ s <:+: b := by
  induction a with
  | nil =>
    have hp : ¬s <+: c :: b := fun h => hs (List.prefix_nil.mp ((prefix_append_cons hc (a := [])).mp h))
    rw [List.nil_append, List.infix_cons_iff, List.infix_nil]
    simp [hp, hs]
  | cons d a ih =>
    rw [List.cons_append, List.infix_cons_iff, List.infix_cons_iff, ih, ← List.cons_append,
      prefix_append_cons hc]
    exact or_assoc.symm

theorem oneLine_fieldLine (e : Bytes × Bytes) :
    OneLine (fieldLine e) ↔ OneLine e.1 ∧ OneLine e.2 := by
  have hsplit : fieldLine e = e.1 ++ 58 :: ([] ++ 32 :: e.2) := by
    rw [fieldLine, List.append_assoc]
    rfl
  unfold OneLine
  rw [hsplit, infix_append_cons (by decide) (by decide), infix_append_cons (by decide) (by decide),
    List.infix_nil, not_or, not_or]
  exact and_congr_right fun _ => and_iff_right (by decide)

/-- A reader of the header block finds exactly the stored fields, one line each, if and only if no
name and no value of a field contains a CRLF. -/
theorem header_lines_are_fields_iff (pf : Platform) (calls : List ResponseCall) :
    (headerBlock ((HttpResponse.build pf calls).output pf)).map splitCrlf =
        some (((HttpResponse.build pf calls).fields pf).map fieldLine) ↔
      ∀ e ∈ (HttpResponse.build pf calls).fields pf, OneLine e.1 ∧ OneLine e.2 := by
  set r := HttpResponse.build pf calls
  have hlines : (∀ e ∈ r.fields pf, OneLine e.1 ∧ OneLine e.2) ↔
      ∀ x ∈ (r.fields pf).map fieldLine, OneLine x := by
    simp only [List.forall_mem_map, oneLine_fieldLine]
  rw [hlines]
  constructor
  · intro h
    obtain ⟨b, -, hb⟩ := Option.map_eq_some_iff.mp h
    rw [← hb]
    exact (splitCrlf_spec b).1
  · intro h
    have hne : (r.fields pf).map fieldLine ≠ [] := by
      simpa using fields_ne_nil pf calls
    have hnonempty : ∀ x ∈ (r.fields pf).map fieldLine, OneLine x ∧ x ≠ [] := by
      intro x hx
      obtain ⟨e, -, rfl⟩ := List.mem_map.mp hx
      exact ⟨h _ hx, by simp [fieldLine, ascii]⟩
    rw [response_output_eq, headerBlock_lines hnonempty hne, Option.map_some, splitCrlf_intercalate h hne]

/-- A value that carries a line of its own, and one that ends the block. -/
theorem header_lines_injected :
    let forged := HttpResponse.build Sample.platform
      [.setContentType (ascii "text/html"), .setHeader (ascii "X") (ascii "a\r\nSet-Cookie: s=1")]
    let ended := HttpResponse.build Sample.platform
      [.setContentType (ascii "a\r\n\r\nb"), .setHeader (ascii "X") (ascii "c")]
    (headerBlock (forged.output Sample.platform)).map splitCrlf =
        some [ascii "Content-Type: text/html", ascii "X: a", ascii "Set-Cookie: s=1"] ∧
      (headerBlock (forged.output Sample.platform)).map splitCrlf ≠
        some ((forged.fields Sample.platform).map fieldLine) ∧
      (headerBlock (ended.output Sample.platform)).map splitCrlf = some [ascii "Content-Type: a"] := by
  decide +kernel

end Dcl.Http
