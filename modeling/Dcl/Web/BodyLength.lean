import Dcl.Strutils.Numerals
import Dcl.Web.Applications

/-! # The length of a body, from `CONTENT_LENGTH` and from `Content-Length`

`cgi_application` converts the variable by `from_string<int>`, whose base depends on the text;
`http_server` converts the header by `from_string<size_t>`, which is decimal. The two agree with the
numeral exactly when it has no leading zero or is less than 8. -/
namespace Dcl.Web
open Http
set_option autoImplicit false

/-! ## The environment -/

theorem header_contentLen (pf : Platform) (q : CgiRequest) (left right : Bytes) :
    (q.header pf left right).contentLen = q.contentLen := by
  unfold CgiRequest.header
  split
  · rfl
  · rfl

/-- Only `CONTENT_LENGTH` sets the length. -/
theorem variables_contentLen : ∀ e ∈ CgiRequest.variables, ascii e.1 ≠ ascii "CONTENT_LENGTH" →
    ∀ q right, (e.2 q right).contentLen = q.contentLen := by
  simp only [CgiRequest.variables, List.forall_mem_cons, implies_true, and_true, true_and,
    List.not_mem_nil, false_implies]
  exact fun h => absurd rfl h

theorem variable_contentLen (pf : Platform) (q : CgiRequest) (left right : Bytes) :
    (q.variable pf left right).contentLen =
      if left = ascii "CONTENT_LENGTH" then fromStringInt right else q.contentLen := by
  by_cases h : left = ascii "CONTENT_LENGTH"
  · rw [if_pos h, h]
    rfl
  · rw [if_neg h, CgiRequest.variable]
    cases hfind : CgiRequest.variables.find? fun e => ascii e.1 == left with
    | none => exact header_contentLen pf q left right
    | some e =>
      have hname : ascii e.1 = left := by simpa using List.find?_some hfind
      exact variables_contentLen e (List.mem_of_find?_eq_some hfind) (hname ▸ h) q right

theorem line_named (pf : Platform) (q : CgiRequest) {name : Bytes} (h : 61 ∉ name) (right : Bytes) :
    q.line pf (name ++ 61 :: right) = q.variable pf name right := by
  have hcut : findFirstOf (name ++ 61 :: right) (ascii "=") 0 = some name.length := findFirstOf_append h
  have hright : substr (name ++ 61 :: right) (name.length + 1)
      ((name ++ 61 :: right).length - name.length - 1) = right := by
    have hdrop : (name ++ 61 :: right).drop (name.length + 1) = right := by simp
    rw [substr, hdrop, List.take_of_length_le (by simp)]
  rw [CgiRequest.line, hcut]
  simp only [hright, List.take_left]

/-- A string of the environment that is not named `CONTENT_LENGTH`. -/
def OtherVariable (x : Bytes) : Prop := x.takeWhile (· != 61) ≠ ascii "CONTENT_LENGTH"

theorem line_other (pf : Platform) (q : CgiRequest) {x : Bytes} (h : OtherVariable x) :
    (q.line pf x).contentLen = q.contentLen := by
  unfold OtherVariable at h
  by_cases hx : 61 ∈ x
  · obtain ⟨name, right, rfl, hname⟩ := List.eq_append_cons_of_mem hx
    rw [takeWhile_bne_append hname] at h
    rw [line_named pf q hname, variable_contentLen, if_neg h]
  · have hnone : findFirstOf x (ascii "=") 0 = none := findFirstOf_eq_none hx
    rw [takeWhile_bne_self hx] at h
    rw [CgiRequest.line, hnone]
    exact (variable_contentLen pf q x []).trans (if_neg h)

theorem lines_other (pf : Platform) (env : List Bytes) (h : ∀ x ∈ env, OtherVariable x)
    (q : CgiRequest) : (env.foldl (CgiRequest.line pf) q).contentLen = q.contentLen := by
  induction env generalizing q with
  | nil => rfl
  | cons x env ih =>
    obtain ⟨hx, henv⟩ := List.forall_mem_cons.mp h
    rw [List.foldl_cons, ih henv, line_other pf q hx]

/-- The last `CONTENT_LENGTH` of the environment counts. -/
theorem env_contentLen (pf : Platform) (before after : List Bytes) (d : Bytes)
    (h : ∀ x ∈ after, OtherVariable x) :
    ((before ++ (ascii "CONTENT_LENGTH=" ++ d) :: after).foldl (CgiRequest.line pf) .new).contentLen =
      fromStringInt d := by
  have hline : ∀ q : CgiRequest, (q.line pf (ascii "CONTENT_LENGTH=" ++ d)).contentLen =
      fromStringInt d := by
    intro q
    have hsplit : ascii "CONTENT_LENGTH=" ++ d = ascii "CONTENT_LENGTH" ++ 61 :: d := rfl
    rw [hsplit, line_named pf q (by decide), variable_contentLen, if_pos rfl]
  rw [List.foldl_append, List.foldl_cons, lines_other pf after h, hline]

/-- As many bytes are read as the variable says, when the input has them. -/
theorem cgi_taken (pf : Platform) (env : List Bytes) {k : ℕ}
    (hk : (env.foldl (CgiRequest.line pf) .new).contentLen = k) {cin : StringStream}
    (hgood : cin.good = true) (hlen : k ≤ cin.rest.length) :
    (cgiGetRequest pf env cin).2.taken.length = cin.taken.length + k := by
  unfold cgiGetRequest
  simp only [hk]
  by_cases hpos : 0 < k
  · rw [if_pos (by omega), HttpHeader.addContent_pos _ k hpos cin hgood hlen]
    simp [hlen]
  · rw [if_neg (by omega)]
    simp only
    omega

/-! ## The header -/

theorem storedValue_of_decimal {d : Bytes} {n : ℕ} (h : Decimal d n) : StoredValue d := by
  have hplain : ∀ c ∈ d, blanks.contains c = false := by
    intro c hc
    have hspace := (isdigit_plain (h.2.1 c hc)).1
    rw [← Bool.not_eq_true] at hspace ⊢
    intro hblank
    apply hspace
    simp only [blanks, List.contains_cons, List.contains_nil, Bool.or_false, Bool.or_eq_true,
      beq_iff_eq] at hblank
    rcases hblank with rfl | rfl | rfl | rfl <;> rfl
  refine ⟨⟨fun c hc => hplain c ?_, fun c hc => hplain c ?_⟩, fun hlf => ?_⟩
  · exact List.mem_of_mem_head? hc
  · exact List.mem_of_mem_getLast? hc
  · exact absurd (hplain LF hlf) (by decide)

/-- `WAIT_HEADER` on the header's line and the blank line behind it. -/
theorem contentLength_passes {d : Bytes} {n : ℕ} (hd : Decimal d n) (hn : n < 2 ^ 64) (pf : Platform)
    (on : OnRequest) (r : HttpRequest) (l t : Bytes) :
    ∃ f, Loop.Passes (pass pf on) 2
        ⟨⟨.waitHeader, 0, 0, r⟩, .cut l (ascii "Content-Length: " ++ d ++ crlf ++ (crlf ++ t)), [], []⟩ f ∧
      f.rq.state = .receivingData ∧ f.rq.dataSize = n := by
  have hkey : StoredKey contentLength := by
    unfold StoredKey
    decide +kernel
  have hvalue := storedValue_of_decimal hd
  set x := writtenLine (contentLength, d) with hx
  have hsplit : ascii "Content-Length: " ++ d ++ crlf ++ (crlf ++ t) =
      x ++ LF :: (ascii "\r" ++ LF :: t) := by
    rw [hx, writtenLine, fieldLine]
    simp only [List.append_assoc]
    rfl
  have hadd := addField_writtenLine (e := (contentLength, d)) hkey hvalue pf r
  have hsize : ({ r with headers := r.headers.set contentLength d } : HttpRequest).bodySize = some n := by
    have hget := HttpHeader.getHeader_set r.headers r.cookies r.content r.httpVersion contentLength d
    have hne : d.isEmpty = false := by simpa using hd.1
    rw [HttpRequest.bodySize]
    simp only [hget, hne, Bool.false_eq_true, if_false]
    rw [fromStringSize_decimal hd, if_neg (by omega)]
  have hline := @header_pass pf on x (writtenLine_lf hkey hvalue) (trim_writtenLine_ne_nil hkey hvalue) l
    (ascii "\r" ++ LF :: t) 0 0 r [] []
  have hblank := @blank_pass pf on (ascii "\r") (by decide) (by decide) (l ++ x ++ [LF]) t 0 0
    { r with headers := r.headers.set contentLength d } [] []
  rw [hadd] at hline
  rw [endOfHeaders_some hsize] at hblank
  rw [hsplit]
  exact ⟨_, (Loop.Passes.single hline).trans (Loop.Passes.single hblank), rfl, rfl⟩

/-- A string of decimal digits that fits an `int`: the bytes that the CGI program reads and the
`data_size` of the server are both the number if and only if there is no leading zero or the number is
less than 8. -/
theorem body_length_agrees_iff (pf : Platform) (on : OnRequest) {d : Bytes} {n : ℕ}
    (hd : Decimal d n) (hn : n < 2 ^ 31) (before after : List Bytes)
    (hafter : ∀ x ∈ after, OtherVariable x) (cin : StringStream) (hgood : cin.good = true)
    (hlen : n ≤ cin.rest.length) (r : HttpRequest) (l t : Bytes) :
    ((cgiGetRequest pf (before ++ (ascii "CONTENT_LENGTH=" ++ d) :: after) cin).2.taken.length =
          cin.taken.length + n ∧
        ∃ f, Loop.Passes (pass pf on) 2 ⟨⟨.waitHeader, 0, 0, r⟩,
            .cut l (ascii "Content-Length: " ++ d ++ crlf ++ (crlf ++ t)), [], []⟩ f ∧
          f.rq.state = .receivingData ∧ f.rq.dataSize = n) ↔
      d.head? ≠ some 48 ∨ n < 8 := by
  obtain ⟨k, hk, hle, hiff⟩ := fromStringInt_decimal hd hn
  have htaken := cgi_taken pf _ ((env_contentLen pf before after d hafter).trans hk) hgood
    (hle.trans hlen)
  have hserver := contentLength_passes hd (by omega) pf on r l t
  rw [and_iff_left hserver, htaken, ← hiff]
  omega

theorem body_length_agrees_07 :
    (cgiGetRequest Sample.platform [ascii "CONTENT_LENGTH=07", ascii "HTTP_X_Y=1"]
        (.cut [] (ascii "a=1&b=2"))).2.taken.length = 7 ∧
      ∃ f, Loop.Passes (pass Sample.platform Sample.onRequest) 2 ⟨⟨.waitHeader, 0, 0, .new⟩,
          .cut [] (ascii "Content-Length: 07" ++ crlf ++ (crlf ++ ascii "a=1&b=2")), [], []⟩ f ∧
        f.rq.state = .receivingData ∧ f.rq.dataSize = 7 :=
  (body_length_agrees_iff Sample.platform Sample.onRequest (d := ascii "07") (n := 7)
    ⟨by decide, by decide +kernel, by decide⟩ (by decide) [] [ascii "HTTP_X_Y=1"]
    (by unfold OtherVariable; decide +kernel) (.cut [] (ascii "a=1&b=2")) (by decide) (by decide) .new []
    (ascii "a=1&b=2")).mpr (.inr (by decide))

/-- `010` is 8 for the CGI program and 10 for the server. -/
theorem body_length_differs_010 :
    Decimal (ascii "010") 10 ∧
      (cgiGetRequest Sample.platform [ascii "CONTENT_LENGTH=010"]
        (.cut [] (ascii "0123456789"))).2.taken.length = 8 ∧
      (HttpRequest.new.addField Sample.platform (ascii "Content-Length: 010")).bodySize = some 10 := by
  refine ⟨⟨by decide, by decide +kernel, by decide⟩, by decide +kernel, by decide +kernel⟩

end Dcl.Web
