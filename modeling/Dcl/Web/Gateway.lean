import Dcl.Http.HeaderLookup
import Dcl.Http.Transfer
import Dcl.Web.BodyLength

/-! # One request, through CGI and through `http_server`

A web server that runs a CGI program hands it the request in variables of the environment and the body as its
standard input. `Draft.environment` are the variables of a request whose path is that of the program, without a
query and without escapes. `request_through_cgi` compares what `cgi_application::get_request` makes of them with
what the request handler of an `http_server` gets for the same request. -/
namespace Dcl.Web
open Http
set_option autoImplicit false

/-! ## The variables -/

/-- The variable that holds a header. -/
def metaName (key : Bytes) : Bytes :=
  if compare key contentLength then ascii "CONTENT_LENGTH"
  else if compare key (ascii "Content-Type") then ascii "CONTENT_TYPE"
  else ascii "HTTP_" ++ key.map fun c => if c = 45 then 95 else toupper c

def environmentOf (pf : Platform) (d : Draft) : List Bytes :=
  [ascii "REQUEST_METHOD" ++ 61 :: d.method.text, ascii "PATH_INFO" ++ 61 :: d.pathInfo,
    ascii "SERVER_PROTOCOL" ++ 61 :: d.version] ++
  (((d.header pf).headers.entries.map fun e => metaName e.1 ++ 61 :: e.2) ++
    if (cookieText d.cookies).isEmpty then [] else [ascii "HTTP_COOKIE" ++ 61 :: cookieText d.cookies])

/-- What a variable can be: no NUL, and in a name of a header neither `=` nor `_`, which stands for `-`. -/
structure Portable (pf : Platform) (d : Draft) : Prop where
  path : 0 ∉ d.pathInfo ∧ 63 ∉ d.pathInfo ∧ 37 ∉ d.pathInfo
  version : 0 ∉ d.version
  headers : ∀ e ∈ (d.header pf).headers.entries, 61 ∉ e.1 ∧ 95 ∉ e.1 ∧ 0 ∉ e.1 ∧ 0 ∉ e.2
  cookies : 0 ∉ cookieText d.cookies

def lineName (x : Bytes) : Bytes := x.takeWhile (· != 61)

def lineValue (x : Bytes) : Bytes := (x.dropWhile (· != 61)).drop 1

/-- A variable that says nothing about the request line, the headers or the body. -/
def Foreign (x : Bytes) : Prop :=
  (lineName x).take 5 ≠ ascii "HTTP_" ∧
    lineName x ∉ [ascii "REQUEST_METHOD", ascii "PATH_INFO", ascii "SERVER_PROTOCOL", ascii "CONTENT_LENGTH",
      ascii "CONTENT_TYPE"]

theorem lineName_named {name : Bytes} (h : 61 ∉ name) (right : Bytes) : lineName (name ++ 61 :: right) = name :=
  takeWhile_bne_append h right

theorem lineValue_named {name : Bytes} (h : 61 ∉ name) (right : Bytes) : lineValue (name ++ 61 :: right) = right := by
  rw [lineValue, dropWhile_bne_append h]
  rfl

theorem line_eq (pf : Platform) (q : CgiRequest) (x : Bytes) :
    q.line pf x = q.variable pf (lineName x) (lineValue x) := by
  by_cases hx : 61 ∈ x
  · obtain ⟨name, right, rfl, hname⟩ := List.eq_append_cons_of_mem hx
    rw [line_named pf q hname, lineName_named hname, lineValue_named hname]
  · have hnone : findFirstOf x (ascii "=") 0 = none := findFirstOf_eq_none hx
    have hvalue : lineValue x = [] := by
      rw [lineValue, List.dropWhile_eq_nil_iff.mpr (forall_mem_bne hx), List.drop_nil]
    rw [CgiRequest.line, hnone, lineName, takeWhile_bne_self hx, hvalue]

/-! ## What a variable sets -/

section Variable
variable (pf : Platform)

/-- A field that only the variable `n` sets. -/
theorem variable_field {β : Type} {g : CgiRequest → β} {f : Bytes → β} {n : String}
    (hheader : ∀ q left right, g (q.header pf left right) = g q)
    (hothers : ∀ e ∈ CgiRequest.variables, ascii e.1 ≠ ascii n → ∀ q right, g (e.2 q right) = g q)
    (hset : ∀ (q : CgiRequest) right, g (q.variable pf (ascii n) right) = f right) (q : CgiRequest) (left right : Bytes) :
    g (q.variable pf left right) = if left = ascii n then f right else g q := by
  by_cases h : left = ascii n
  · rw [if_pos h, h, hset]
  · rw [if_neg h, CgiRequest.variable]
    cases hfind : CgiRequest.variables.find? fun e => ascii e.1 == left with
    | none => exact hheader q left right
    | some e =>
      have hname : ascii e.1 = left := by simpa using List.find?_some hfind
      exact hothers e (List.mem_of_find?_eq_some hfind) (hname ▸ h) q right

theorem header_fields (q : CgiRequest) (left right : Bytes) :
    (q.header pf left right).method = q.method ∧ (q.header pf left right).pathInfo = q.pathInfo ∧
      (q.header pf left right).serverProtocol = q.serverProtocol := by
  unfold CgiRequest.header
  split <;> exact ⟨rfl, rfl, rfl⟩

theorem variable_method (q : CgiRequest) (left right : Bytes) : (q.variable pf left right).method =
    if left = ascii "REQUEST_METHOD" then some (HttpMethod.ofText right) else q.method := by
  refine variable_field pf (g := fun q => q.method) (n := "REQUEST_METHOD") (f := fun v => some (.ofText v)) (fun q left right => (header_fields pf q left right).1) ?_
    (fun _ _ => rfl) q left right
  simp only [CgiRequest.variables, List.forall_mem_cons, implies_true, and_true, true_and,
    List.not_mem_nil, false_implies]
  exact fun h => absurd rfl h

theorem variable_pathInfo (q : CgiRequest) (left right : Bytes) : (q.variable pf left right).pathInfo =
    if left = ascii "PATH_INFO" then right else q.pathInfo := by
  refine variable_field pf (g := fun q => q.pathInfo) (n := "PATH_INFO") (f := id) (fun q left right => (header_fields pf q left right).2.1) ?_
    (fun _ _ => rfl) q left right
  simp only [CgiRequest.variables, List.forall_mem_cons, implies_true, and_true, true_and,
    List.not_mem_nil, false_implies]
  exact fun h => absurd rfl h

theorem variable_serverProtocol (q : CgiRequest) (left right : Bytes) : (q.variable pf left right).serverProtocol =
    if left = ascii "SERVER_PROTOCOL" then right else q.serverProtocol := by
  refine variable_field pf (g := fun q => q.serverProtocol) (n := "SERVER_PROTOCOL") (f := id) (fun q left right => (header_fields pf q left right).2.2)
    ?_ (fun _ _ => rfl) q left right
  simp only [CgiRequest.variables, List.forall_mem_cons, implies_true, and_true, true_and,
    List.not_mem_nil, false_implies]
  exact fun h => absurd rfl h

/-- The key of the header that a variable `HTTP_…` holds. -/
def headerKey (left : Bytes) : Bytes := (left.drop 5).map fun c => if c = 95 then 45 else c

/-- A variable other than `CONTENT_TYPE` and `HTTP_…` leaves the headers, the cookies and the content alone. -/
theorem variable_toHttpHeader (q : CgiRequest) (left right : Bytes) :
    (q.variable pf left right).toHttpHeader =
      if left = ascii "CONTENT_TYPE" then q.toHttpHeader.setContentType right
      else if left.take 5 = ascii "HTTP_" then q.toHttpHeader.setField pf (headerKey left) right
      else q.toHttpHeader := by
  by_cases htype : left = ascii "CONTENT_TYPE"
  · rw [if_pos htype, htype]
    rfl
  · rw [if_neg htype, CgiRequest.variable]
    cases hfind : CgiRequest.variables.find? fun e => ascii e.1 == left with
    | none =>
      simp only [CgiRequest.header]
      split <;> rfl
    | some e =>
      have hname : ascii e.1 = left := by simpa using List.find?_some hfind
      have hplain : ∀ e ∈ CgiRequest.variables, (ascii e.1).take 5 ≠ ascii "HTTP_" := by
        simp only [CgiRequest.variables, List.forall_mem_cons, List.not_mem_nil, false_implies, implies_true, and_true]
        decide +kernel
      have hothers : ∀ e ∈ CgiRequest.variables, ascii e.1 ≠ ascii "CONTENT_TYPE" → ∀ (q : CgiRequest) right,
          (e.2 q right).toHttpHeader = q.toHttpHeader := by
        simp only [CgiRequest.variables, List.forall_mem_cons, implies_true, and_true, true_and,
          List.not_mem_nil, false_implies]
        exact fun h => absurd rfl h
      have hmem := List.mem_of_find?_eq_some hfind
      rw [if_neg (hname ▸ hplain e hmem)]
      exact hothers e hmem (hname ▸ htype) q right

/-- What a string of the environment does to the header that is asked for as `k`. -/
def setsHeader (k x : Bytes) : Bool :=
  if lineName x = ascii "CONTENT_TYPE" then decide (SameText (ascii "Content-Type") k)
  else decide ((lineName x).take 5 = ascii "HTTP_") && plainKey (headerKey (lineName x)) &&
    decide (SameText (headerKey (lineName x)) k)

theorem line_getHeader (q : CgiRequest) (k x : Bytes) : (q.line pf x).toHttpHeader.getHeader k =
    if setsHeader k x = true then lineValue x else q.toHttpHeader.getHeader k := by
  have hcontent (h : HttpHeader) (v : Bytes) : h.setContentType v = h.setField pf (ascii "Content-Type") v :=
    (setField_plain (by decide +kernel) h v).symm
  have hplain : plainKey (ascii "Content-Type") = true := by decide +kernel
  rw [line_eq, variable_toHttpHeader, setsHeader]
  by_cases htype : lineName x = ascii "CONTENT_TYPE"
  · rw [if_pos htype, if_pos htype, hcontent]
    refine (getHeader_setField k _ (ascii "Content-Type", lineValue x)).trans ?_
    rw [hplain, Bool.true_and]
  · rw [if_neg htype, if_neg htype]
    by_cases hhttp : (lineName x).take 5 = ascii "HTTP_"
    · rw [if_pos hhttp, decide_eq_true hhttp, Bool.true_and]
      exact getHeader_setField k _ (headerKey (lineName x), lineValue x)
    · rw [if_neg hhttp, decide_eq_false hhttp]
      rfl

/-- The cookies that a string of the environment adds. -/
def addsCookies (x : Bytes) : List HttpCookie :=
  if (lineName x).take 5 = ascii "HTTP_" then
    (HttpHeader.new.setField pf (headerKey (lineName x)) (lineValue x)).cookies
  else []

theorem setField_rest (h : HttpHeader) (key value : Bytes) :
    (h.setField pf key value).cookies = h.cookies ++ (HttpHeader.new.setField pf key value).cookies ∧
      (h.setField pf key value).content = h.content := by
  unfold HttpHeader.setField
  split_ifs
  · exact ⟨rfl, rfl⟩
  · exact ⟨rfl, rfl⟩
  · exact ⟨(List.append_nil _).symm, rfl⟩

theorem line_rest (q : CgiRequest) (x : Bytes) :
    (q.line pf x).cookies = q.cookies ++ addsCookies pf x ∧ (q.line pf x).content = q.content := by
  rw [line_eq, variable_toHttpHeader, addsCookies]
  by_cases htype : lineName x = ascii "CONTENT_TYPE"
  · rw [if_pos htype, if_neg (by rw [htype]; decide), List.append_nil]
    exact ⟨rfl, rfl⟩
  · rw [if_neg htype]
    by_cases hhttp : (lineName x).take 5 = ascii "HTTP_"
    · rw [if_pos hhttp, if_pos hhttp]
      exact setField_rest pf q.toHttpHeader _ _
    · rw [if_neg hhttp, if_neg hhttp, List.append_nil]
      exact ⟨rfl, rfl⟩

theorem lines_rest (env : List Bytes) (q : CgiRequest) :
    (env.foldl (CgiRequest.line pf) q).cookies = q.cookies ++ env.flatMap (addsCookies pf) ∧
      (env.foldl (CgiRequest.line pf) q).content = q.content := by
  induction env generalizing q with
  | nil => exact ⟨(List.append_nil _).symm, rfl⟩
  | cons x env ih =>
    obtain ⟨hcookies, hcontent⟩ := line_rest pf q x
    obtain ⟨ihcookies, ihcontent⟩ := ih (q.line pf x)
    rw [List.foldl_cons, ihcookies, ihcontent, hcookies, hcontent, List.append_assoc, List.flatMap_cons]
    exact ⟨rfl, rfl⟩

end Variable

/-! ## The variable of a header -/

theorem toupper_facts (c : UInt8) : toupper (toupper c) = toupper c ∧ (toupper c = 61 ↔ c = 61) ∧
    (toupper c = 95 ↔ c = 95) ∧ (toupper c = 45 ↔ c = 45) := by
  revert c
  refine forall_byte ?_
  decide +kernel

theorem metaName_word {key : Bytes} (h : 61 ∉ key) : 61 ∉ metaName key := by
  rw [metaName]
  split_ifs
  · decide
  · decide
  · refine fun hmem => (List.mem_append.mp hmem).elim (by decide) fun hmem => ?_
    obtain ⟨c, hc, h61⟩ := List.mem_map.mp hmem
    split at h61
    · cases h61
    · exact h ((toupper_facts c).2.1.mp h61 ▸ hc)

/-- The key is read back in capital letters. -/
theorem headerKey_metaName {key : Bytes} (h : 95 ∉ key) :
    headerKey (ascii "HTTP_" ++ key.map fun c => if c = 45 then 95 else toupper c) = key.map toupper := by
  have hdrop : (ascii "HTTP_" ++ key.map fun c => if c = 45 then 95 else toupper c).drop 5 =
      key.map fun c => if c = 45 then 95 else toupper c := List.drop_left' rfl
  rw [headerKey, hdrop, List.map_map]
  refine List.map_congr_left fun c hc => ?_
  have hne : c ≠ 95 := fun h95 => h (h95 ▸ hc)
  obtain ⟨-, -, h95, h45⟩ := toupper_facts c
  rw [Function.comp_apply]
  by_cases hdash : c = 45
  · rw [if_pos hdash, if_pos rfl, hdash]
    rfl
  · rw [if_neg hdash, if_neg (fun h => hne (h95.mp h))]

theorem map_toupper_idem (key : Bytes) : (key.map toupper).map toupper = key.map toupper := by
  rw [List.map_map]
  exact List.map_congr_left fun c _ => (toupper_facts c).1

theorem compare_map (x y : Bytes) : compare (x.map toupper) y = compare x y := by
  rw [Bool.eq_iff_iff, compare_iff, compare_iff, sameText_iff, sameText_iff, map_toupper_idem]

section Entry
variable (pf : Platform) {key : Bytes} (value : Bytes)

/-- The variable of a header sets that header, and `CONTENT_LENGTH` none. -/
theorem setsHeader_metaName (hword : 61 ∉ key) (hline : 95 ∉ key) (hplain : plainKey key = true) (k : Bytes) :
    setsHeader k (metaName key ++ 61 :: value) = (!compare key contentLength && decide (SameText key k)) := by
  rw [setsHeader, lineName_named (metaName_word hword)]
  by_cases hlength : compare key contentLength = true
  · have hname : metaName key = ascii "CONTENT_LENGTH" := if_pos hlength
    have hother : ascii "CONTENT_LENGTH" ≠ ascii "CONTENT_TYPE" := by decide
    have hhttp : (ascii "CONTENT_LENGTH").take 5 ≠ ascii "HTTP_" := by decide
    rw [hname, if_neg hother, decide_eq_false hhttp, hlength]
    rfl
  · have hlength' : compare key contentLength = false := by simpa using hlength
    by_cases htype : compare key (ascii "Content-Type") = true
    · have hname : metaName key = ascii "CONTENT_TYPE" := by
        rw [metaName, if_neg hlength, if_pos htype]
      have hsame : SameText key k ↔ SameText (ascii "Content-Type") k := by
        rw [compare_iff, sameText_iff] at htype
        rw [sameText_iff, sameText_iff, htype]
      rw [hname, if_pos rfl, hlength']
      simp [hsame]
    · have hname : metaName key = ascii "HTTP_" ++ key.map fun c => if c = 45 then 95 else toupper c := by
        rw [metaName, if_neg hlength, if_neg htype]
      have htake : (metaName key).take 5 = ascii "HTTP_" := by
        rw [hname]
        exact List.take_left' rfl
      have hother : metaName key ≠ ascii "CONTENT_TYPE" := by
        intro heq
        rw [heq] at htake
        exact absurd htake (by decide)
      have hkey : headerKey (metaName key) = key.map toupper := by
        rw [hname, headerKey_metaName hline]
      have hsame : SameText (key.map toupper) k ↔ SameText key k := by
        rw [sameText_iff, sameText_iff, map_toupper_idem]
      have hplain' : plainKey (key.map toupper) = true := by
        rw [plainKey, compare_map, compare_map]
        exact hplain
      rw [if_neg hother, decide_eq_true htake, hkey, hplain', hlength']
      simp [hsame]

theorem addsCookies_metaName (hword : 61 ∉ key) (hline : 95 ∉ key) (hplain : plainKey key = true) :
    addsCookies pf (metaName key ++ 61 :: value) = [] := by
  rw [addsCookies, lineName_named (metaName_word hword)]
  split_ifs with hhttp
  · have hname : metaName key = ascii "HTTP_" ++ key.map fun c => if c = 45 then 95 else toupper c := by
      rw [metaName] at hhttp ⊢
      split_ifs at hhttp ⊢
      · exact absurd hhttp (by decide)
      · exact absurd hhttp (by decide)
      · rfl
    have hplain' : plainKey (headerKey (metaName key)) = true := by
      rw [hname, headerKey_metaName hline, plainKey, compare_map, compare_map]
      exact hplain
    rw [setField_plain hplain']
    rfl
  · rfl

end Entry

/-! ## The request -/

section Request
variable {pf : Platform} {d : Draft} {env others : List Bytes}

theorem metaName_cases (key : Bytes) : metaName key = ascii "CONTENT_LENGTH" ∧ compare key contentLength = true ∨
    metaName key = ascii "CONTENT_TYPE" ∨ (metaName key).take 5 = ascii "HTTP_" := by
  rw [metaName]
  split_ifs with hlength
  · exact .inl ⟨rfl, hlength⟩
  · exact .inr (.inl rfl)
  · exact .inr (.inr (List.take_left' rfl))

/-- Every string of the environment is one of those of the request or is foreign. -/
theorem mem_env (hothers : ∀ x ∈ others, Foreign x) (hperm : env.Perm (environmentOf pf d ++ others)) {x : Bytes}
    (hx : x ∈ env) :
    x ∈ [ascii "REQUEST_METHOD" ++ 61 :: d.method.text, ascii "PATH_INFO" ++ 61 :: d.pathInfo,
      ascii "SERVER_PROTOCOL" ++ 61 :: d.version] ∨
    (∃ e ∈ (d.header pf).headers.entries, x = metaName e.1 ++ 61 :: e.2) ∨
    ((cookieText d.cookies).isEmpty = false ∧ x = ascii "HTTP_COOKIE" ++ 61 :: cookieText d.cookies) ∨ Foreign x := by
  rcases List.mem_append.mp (hperm.mem_iff.mp hx) with hx | hx
  · rcases List.mem_append.mp hx with hx | hx
    · exact .inl hx
    · rcases List.mem_append.mp hx with hx | hx
      · obtain ⟨e, he, rfl⟩ := List.mem_map.mp hx
        exact .inr (.inl ⟨e, he, rfl⟩)
      · split at hx
        · cases hx
        next hne => exact .inr (.inr (.inl ⟨by simpa using hne, List.mem_singleton.mp hx⟩))
  · exact .inr (.inr (.inr (hothers x hx)))

theorem env_mem (hperm : env.Perm (environmentOf pf d ++ others)) {x : Bytes} (hx : x ∈ environmentOf pf d) : x ∈ env :=
  hperm.mem_iff.mpr (List.mem_append_left _ hx)

/-- The three variables of the request line are there once each. -/
theorem env_named (hportable : Portable pf d) (hothers : ∀ x ∈ others, Foreign x)
    (hperm : env.Perm (environmentOf pf d ++ others)) {n v : Bytes}
    (hn : (n, v) ∈ [(ascii "REQUEST_METHOD", d.method.text), (ascii "PATH_INFO", d.pathInfo),
      (ascii "SERVER_PROTOCOL", d.version)]) :
    env.any (fun x => decide (lineName x = n)) = true ∧
      ∀ x ∈ env, decide (lineName x = n) = true → lineValue x = v := by
  have hword (name : Bytes) (hname : name ∈ [ascii "REQUEST_METHOD", ascii "PATH_INFO", ascii "SERVER_PROTOCOL"]) :
      61 ∉ name ∧ name.take 5 ≠ ascii "HTTP_" ∧ name ≠ ascii "CONTENT_LENGTH" ∧ name ≠ ascii "CONTENT_TYPE" ∧
        name ∈ [ascii "REQUEST_METHOD", ascii "PATH_INFO", ascii "SERVER_PROTOCOL", ascii "CONTENT_LENGTH",
          ascii "CONTENT_TYPE"] := by
    revert name
    decide +kernel
  have hmem : n ∈ [ascii "REQUEST_METHOD", ascii "PATH_INFO", ascii "SERVER_PROTOCOL"] :=
    List.mem_map_of_mem (f := Prod.fst) hn
  obtain ⟨h61, hhttp, hlength, htype, hlisted⟩ := hword n hmem
  refine ⟨List.any_eq_true.mpr ⟨n ++ 61 :: v, env_mem hperm ?_, decide_eq_true (lineName_named h61 v)⟩, ?_⟩
  · refine List.mem_append_left _ ?_
    have hpair := List.mem_map_of_mem (f := fun e : Bytes × Bytes => e.1 ++ 61 :: e.2) hn
    exact hpair
  · intro x hx hname
    have hname := of_decide_eq_true hname
    rcases mem_env hothers hperm hx with hx | ⟨e, he, rfl⟩ | ⟨-, rfl⟩ | hforeign
    · have hpair : ∃ e ∈ [(ascii "REQUEST_METHOD", d.method.text), (ascii "PATH_INFO", d.pathInfo),
          (ascii "SERVER_PROTOCOL", d.version)], x = e.1 ++ 61 :: e.2 := by
        simpa using hx
      obtain ⟨e, he, rfl⟩ := hpair
      have heword := (hword e.1 (List.mem_map_of_mem (f := Prod.fst) he)).1
      rw [lineName_named heword] at hname
      rw [lineValue_named heword]
      simp only [List.mem_cons, List.not_mem_nil, or_false, Prod.mk.injEq] at hn
      simp only [List.mem_cons, List.not_mem_nil, or_false] at he
      rcases hn with ⟨rfl, rfl⟩ | ⟨rfl, rfl⟩ | ⟨rfl, rfl⟩ <;> rcases he with rfl | rfl | rfl <;>
        first
        | rfl
        | (dsimp only at hname; exact absurd hname (by decide))
    · rw [lineName_named (metaName_word (hportable.headers e he).1)] at hname
      rcases metaName_cases e.1 with ⟨h, -⟩ | h | h
      · exact absurd (hname.symm.trans h) hlength
      · exact absurd (hname.symm.trans h) htype
      · exact absurd (hname ▸ h) hhttp
    · rw [lineName_named (by decide)] at hname
      exact absurd (by rw [← hname]; decide) hhttp
    · exact absurd (hname ▸ hlisted) hforeign.2

theorem env_requestLine (hportable : Portable pf d) (hothers : ∀ x ∈ others, Foreign x)
    (hperm : env.Perm (environmentOf pf d ++ others)) :
    (env.foldl (CgiRequest.line pf) .new).method = some d.method ∧
      (env.foldl (CgiRequest.line pf) .new).pathInfo = d.pathInfo ∧
      (env.foldl (CgiRequest.line pf) .new).serverProtocol = d.version := by
  obtain ⟨hmethod, hmethods⟩ := env_named hportable hothers hperm (n := ascii "REQUEST_METHOD") (v := d.method.text)
    (by simp)
  obtain ⟨hpath, hpaths⟩ := env_named hportable hothers hperm (n := ascii "PATH_INFO") (v := d.pathInfo) (by simp)
  obtain ⟨hversion, hversions⟩ := env_named hportable hothers hperm (n := ascii "SERVER_PROTOCOL") (v := d.version)
    (by simp)
  refine ⟨?_, ?_, ?_⟩
  · rw [Loop.foldl_agreed (g := fun q : CgiRequest => q.method) (p := fun x => decide (lineName x = ascii "REQUEST_METHOD"))
      (h := fun x => some (HttpMethod.ofText (lineValue x))) (v := some d.method)
      (fun q x => by simp only [line_eq, variable_method, decide_eq_true_eq]) (fun x hx hp => ?_), if_pos hmethod]
    rw [hmethods x hx hp, (HttpMethod.ofText_text d.method_known).1]
  · rw [Loop.foldl_agreed (g := fun q : CgiRequest => q.pathInfo) (p := fun x => decide (lineName x = ascii "PATH_INFO"))
      (h := lineValue) (fun q x => by simp only [line_eq, variable_pathInfo, decide_eq_true_eq]) hpaths, if_pos hpath]
  · rw [Loop.foldl_agreed (g := fun q : CgiRequest => q.serverProtocol)
      (p := fun x => decide (lineName x = ascii "SERVER_PROTOCOL")) (h := lineValue)
      (fun q x => by simp only [line_eq, variable_serverProtocol, decide_eq_true_eq]) hversions, if_pos hversion]

theorem entry_plain {e : Bytes × Bytes} (he : e ∈ (d.header pf).headers.entries) : plainKey e.1 = true := by
  obtain ⟨-, -, -, hcookie, hset⟩ := (header_stored pf d e he).1
  rw [plainKey, hcookie, hset]
  rfl

/-- Only the variable of a header sets it. -/
theorem env_setsHeader (hportable : Portable pf d) (hothers : ∀ x ∈ others, Foreign x)
    (hperm : env.Perm (environmentOf pf d ++ others)) {k x : Bytes} (hx : x ∈ env) (hsets : setsHeader k x = true) :
    ∃ e ∈ (d.header pf).headers.entries, x = metaName e.1 ++ 61 :: e.2 ∧ compare e.1 contentLength = false ∧
      SameText e.1 k := by
  have hplain (x : Bytes) (hhttp : (lineName x).take 5 ≠ ascii "HTTP_") (htype : lineName x ≠ ascii "CONTENT_TYPE") :
      setsHeader k x = false := by
    rw [setsHeader, if_neg htype, decide_eq_false hhttp]
    rfl
  rcases mem_env hothers hperm hx with hx | ⟨e, he, rfl⟩ | ⟨-, rfl⟩ | hforeign
  · simp only [List.mem_cons, List.not_mem_nil, or_false] at hx
    have hnot : setsHeader k x = false := by
      rcases hx with rfl | rfl | rfl
      · refine hplain _ ?_ ?_ <;> rw [lineName_named (by decide)] <;> decide
      · refine hplain _ ?_ ?_ <;> rw [lineName_named (by decide)] <;> decide
      · refine hplain _ ?_ ?_ <;> rw [lineName_named (by decide)] <;> decide
    rw [hnot] at hsets
    cases hsets
  · obtain ⟨hword, hline, -, -⟩ := hportable.headers e he
    rw [setsHeader_metaName e.2 hword hline (entry_plain he), Bool.and_eq_true, Bool.not_eq_true',
      decide_eq_true_eq] at hsets
    exact ⟨e, he, rfl, hsets⟩
  · have hnot : setsHeader k (ascii "HTTP_COOKIE" ++ 61 :: cookieText d.cookies) = false := by
      have hcookie : plainKey (headerKey (ascii "HTTP_COOKIE")) = false := by decide +kernel
      have hother : ascii "HTTP_COOKIE" ≠ ascii "CONTENT_TYPE" := by decide
      rw [setsHeader, lineName_named (by decide), if_neg hother, hcookie, Bool.and_false]
      rfl
    rw [hnot] at hsets
    cases hsets
  · rw [hplain x hforeign.1 fun htype => hforeign.2 (by rw [htype]; decide)] at hsets
    cases hsets

theorem env_getHeader (hportable : Portable pf d) (hothers : ∀ x ∈ others, Foreign x)
    (hperm : env.Perm (environmentOf pf d ++ others)) (k : Bytes) :
    (env.foldl (CgiRequest.line pf) .new).toHttpHeader.getHeader k =
      if SameText k contentLength then [] else (d.header pf).getHeader k := by
  have hvalue (x : Bytes) (hx : x ∈ env) (hsets : setsHeader k x = true) :
      lineValue x = (d.header pf).getHeader k := by
    obtain ⟨e, he, rfl, -, hsame⟩ := env_setsHeader hportable hothers hperm hx hsets
    rw [lineValue_named (metaName_word (hportable.headers e he).1), HttpHeader.getHeader,
      OrderedMap.find_of_mem _ he ((same_iff _ _).mpr hsame), Option.getD_some]
  rw [Loop.foldl_agreed (g := fun q : CgiRequest => q.toHttpHeader.getHeader k)
    (fun q x => line_getHeader pf q k x) hvalue]
  by_cases hlength : SameText k contentLength
  · have hnone : env.any (setsHeader k) = false := by
      rw [List.any_eq_false]
      intro x hx hsets
      obtain ⟨e, he, -, hcompare, hsame⟩ := env_setsHeader hportable hothers hperm hx hsets
      rw [← Bool.not_eq_true, compare_iff, sameText_iff] at hcompare
      rw [sameText_iff] at hsame hlength
      exact hcompare (hsame.trans hlength)
    rw [if_pos hlength, hnone]
    rfl
  · rw [if_neg hlength]
    split
    · rfl
    next hnone =>
      -- a header that no variable sets was not there
      show [] = ((d.header pf).headers.find k).getD []
      cases hfind : (d.header pf).headers.find k with
      | none => rfl
      | some v =>
        obtain ⟨e, he, hsame, rfl⟩ := OrderedMap.exists_of_find hfind
        have hkey := (same_iff _ _).mp hsame
        refine absurd (List.any_eq_true.mpr ⟨metaName e.1 ++ 61 :: e.2, env_mem hperm ?_, ?_⟩) hnone
        · exact List.mem_append_right _ (List.mem_append_left _ (List.mem_map_of_mem he))
        · obtain ⟨hword, hline, -, -⟩ := hportable.headers e he
          have hother : compare e.1 contentLength = false := by
            rw [← Bool.not_eq_true, compare_iff, sameText_iff]
            intro heq
            rw [sameText_iff] at hlength hkey
            exact hlength (hkey.symm.trans heq)
          rw [setsHeader_metaName e.2 hword hline (entry_plain he), hother, decide_eq_true hkey]
          rfl

/-- The size of the body is in the headers, and in `CONTENT_LENGTH`. -/
theorem header_contentLength : (d.header pf).headers.find contentLength = some (toStringInt d.body.length) := by
  rw [header_eq]
  exact OrderedMap.find_set _ _ _

theorem contentLength_of_compare {e : Bytes × Bytes} (he : e ∈ (d.header pf).headers.entries)
    (hlength : compare e.1 contentLength = true) : e.2 = toStringInt d.body.length := by
  have hfind := OrderedMap.find_of_mem _ he ((same_iff _ _).mpr ((Http.compare_iff _ _).mp hlength))
  exact Option.some.inj (hfind.symm.trans header_contentLength)

theorem env_length (hportable : Portable pf d) (hothers : ∀ x ∈ others, Foreign x)
    (hperm : env.Perm (environmentOf pf d ++ others)) :
    (env.foldl (CgiRequest.line pf) .new).contentLen = d.body.length := by
  have hvalue (x : Bytes) (hx : x ∈ env) (hname : decide (lineName x = ascii "CONTENT_LENGTH") = true) :
      fromStringInt (lineValue x) = d.body.length := by
    have hname := of_decide_eq_true hname
    rcases mem_env hothers hperm hx with hx | ⟨e, he, rfl⟩ | ⟨-, rfl⟩ | hforeign
    · simp only [List.mem_cons, List.not_mem_nil, or_false] at hx
      rcases hx with rfl | rfl | rfl <;>
      · rw [lineName_named (by decide)] at hname
        exact absurd hname (by decide)
    · have hword := metaName_word (hportable.headers e he).1
      rw [lineName_named hword] at hname
      rw [lineValue_named hword]
      rcases metaName_cases e.1 with ⟨-, h⟩ | h | h
      · rw [contentLength_of_compare he h, fromStringInt_toStringInt d.body_lt]
      · exact absurd (hname.symm.trans h) (by decide)
      · rw [hname] at h
        exact absurd h (by decide)
    · rw [lineName_named (by decide)] at hname
      exact absurd hname (by decide)
    · exact absurd (by rw [hname]; decide) hforeign.2
  have hlength : (d.header pf).headers.find contentLength = some (toStringInt d.body.length) :=
    header_contentLength
  obtain ⟨e, he, hsame, hsize⟩ := OrderedMap.exists_of_find hlength
  have hcompare : compare e.1 contentLength = true := (Http.compare_iff _ _).mpr ((same_iff _ _).mp hsame)
  have hany : env.any (fun x => decide (lineName x = ascii "CONTENT_LENGTH")) = true := by
    refine List.any_eq_true.mpr ⟨metaName e.1 ++ 61 :: e.2, env_mem hperm ?_, ?_⟩
    · exact List.mem_append_right _ (List.mem_append_left _ (List.mem_map_of_mem he))
    · rw [lineName_named (metaName_word (hportable.headers e he).1), metaName, if_pos hcompare]
      rfl
  rw [Loop.foldl_agreed (g := CgiRequest.contentLen) (p := fun x => decide (lineName x = ascii "CONTENT_LENGTH"))
    (h := fun x => fromStringInt (lineValue x))
    (fun q x => by simp only [line_eq, variable_contentLen, decide_eq_true_eq]) hvalue, if_pos hany]

theorem addsCookies_other {x : Bytes} (hhttp : (lineName x).take 5 ≠ ascii "HTTP_") : addsCookies pf x = [] :=
  if_neg hhttp

theorem addsCookies_cookie : addsCookies pf (ascii "HTTP_COOKIE" ++ 61 :: cookieText d.cookies) =
    (tokenize (cookieText d.cookies) (ascii ";")).map (HttpCookie.parse pf) := by
  have hhttp : (ascii "HTTP_COOKIE").take 5 = ascii "HTTP_" := by decide
  have hkey : compare (headerKey (ascii "HTTP_COOKIE")) (ascii "Cookie") = true := by decide +kernel
  rw [addsCookies, lineName_named (by decide), lineValue_named (by decide), if_pos hhttp, HttpHeader.setField,
    if_pos hkey]
  rfl

/-- The strings of the request before the cookies add none. -/
theorem addsCookies_before (hportable : Portable pf d) {x : Bytes} (hx : x ∈ [ascii "REQUEST_METHOD" ++ 61 :: d.method.text,
    ascii "PATH_INFO" ++ 61 :: d.pathInfo, ascii "SERVER_PROTOCOL" ++ 61 :: d.version] ++
      (d.header pf).headers.entries.map fun e => metaName e.1 ++ 61 :: e.2) : addsCookies pf x = [] := by
  rcases List.mem_append.mp hx with hx | hx
  · refine addsCookies_other ?_
    simp only [List.mem_cons, List.not_mem_nil, or_false] at hx
    rcases hx with rfl | rfl | rfl <;>
    · rw [lineName_named (by decide)]
      decide
  · obtain ⟨e, he, rfl⟩ := List.mem_map.mp hx
    obtain ⟨hword, hline, -, -⟩ := hportable.headers e he
    exact addsCookies_metaName pf e.2 hword hline (entry_plain he)

theorem environmentOf_cookies (hportable : Portable pf d) :
    (environmentOf pf d).flatMap (addsCookies pf) = d.cookies.map HttpCookie.sent := by
  have hall := d.cookies_sendable
  rw [environmentOf, ← List.append_assoc, List.flatMap_append,
    List.flatMap_eq_nil_iff.mpr fun x hx => addsCookies_before hportable hx, List.nil_append]
  cases hcs : d.cookies with
  | nil => rfl
  | cons c cs =>
    rw [hcs] at hall
    have hne : (cookieText (c :: cs)).isEmpty = false := by
      simpa using (cookieText_trimmed fun e he => (hall e he).1).2
    rw [if_neg (by simp [hne]), List.flatMap_singleton, ← hcs, addsCookies_cookie, hcs,
      map_parse_cookieText pf fun e he => (hall e he).1]
    exact List.map_congr_left fun e he => assign_ordinary (hall e he).2.1

theorem env_cookies (hportable : Portable pf d) (hothers : ∀ x ∈ others, Foreign x)
    (hperm : env.Perm (environmentOf pf d ++ others)) :
    (env.foldl (CgiRequest.line pf) .new).cookies = d.cookies.map HttpCookie.sent := by
  have hone : (environmentOf pf d ++ others).countP (fun x => !(addsCookies pf x).isEmpty) ≤ 1 := by
    have hbefore : ([ascii "REQUEST_METHOD" ++ 61 :: d.method.text, ascii "PATH_INFO" ++ 61 :: d.pathInfo,
        ascii "SERVER_PROTOCOL" ++ 61 :: d.version] ++
        (d.header pf).headers.entries.map fun e => metaName e.1 ++ 61 :: e.2).countP
          (fun x => !(addsCookies pf x).isEmpty) = 0 := by
      refine List.countP_eq_zero.mpr fun x hx => ?_
      rw [addsCookies_before hportable hx]
      decide
    have hbehind : others.countP (fun x => !(addsCookies pf x).isEmpty) = 0 := by
      refine List.countP_eq_zero.mpr fun x hx => ?_
      rw [addsCookies_other (hothers x hx).1]
      decide
    rw [environmentOf, ← List.append_assoc, List.countP_append, List.countP_append, hbefore, hbehind, Nat.zero_add,
      Nat.add_zero]
    refine List.countP_le_length.trans ?_
    split
    · exact Nat.zero_le 1
    · exact Nat.le_refl 1
  rw [(lines_rest pf env .new).1, Loop.flatMap_perm hperm hone, List.flatMap_append,
    environmentOf_cookies hportable, List.flatMap_eq_nil_iff.mpr fun x hx => addsCookies_other (hothers x hx).1,
    List.append_nil]
  rfl

/-- Whatever order its variables are in, and whatever else is in the environment and behind the body: a CGI program
gets the request that the handler of an `http_server` gets. Only a body that is not there has no length for the
program. -/
theorem request_through_cgi (hportable : Portable pf d) (hothers : ∀ x ∈ others, Foreign x)
    (hperm : env.Perm (environmentOf pf d ++ others)) (m l rest : Bytes) (on : OnRequest) :
    ∃ c s q, cgiGetRequest pf env (.cut m (d.body ++ rest)) = (c, .cut (m ++ d.body) rest) ∧
      process pf on none (.cut l (d.request pf).wire) = some s ∧ s.passed = [q] ∧
      c.method = q.method ∧ c.pathInfo = q.pathInfo ∧ c.serverProtocol = q.httpVersion ∧
      c.cookies = q.cookies ∧ c.content = q.content ∧
      ∀ k, c.toHttpHeader.getHeader k =
        if d.body = [] ∧ SameText k contentLength then [] else q.toHttpHeader.getHeader k := by
  obtain ⟨s, hs, hpassed, -, -⟩ := received_process pf d on l
  obtain ⟨hmethod, hpath, hversion⟩ := env_requestLine hportable hothers hperm
  have hcookies := env_cookies hportable hothers hperm
  have hlength := env_length hportable hothers hperm
  have hheader := env_getHeader hportable hothers hperm
  have hcontent := (lines_rest pf env .new).2
  unfold cgiGetRequest
  generalize env.foldl (CgiRequest.line pf) .new = q at *
  simp only [hlength]
  by_cases hnil : d.body = []
  · have hreceived : (d.received pf).content = [] := if_pos hnil
    refine ⟨q, s, d.received pf, ?_, hs, hpassed, hmethod, hpath, hversion, hcookies,
      hcontent.trans hreceived.symm, fun k => ?_⟩
    · simp [hnil]
    · rw [hheader k]
      simp only [hnil, true_and]
      rfl
  · have hpos : 0 < d.body.length := List.length_pos_iff.mpr hnil
    have hbytes : q.toHttpHeader.bytes = [] := by
      rw [HttpHeader.bytes, hcontent]
      rfl
    have hreceived : (d.received pf).content = d.body ++ [0] := if_neg hnil
    have hsize : toInt32 (([] : Bytes).length + d.body.length : ℤ) = d.body.length := by
      rw [List.length_nil, Nat.cast_zero, zero_add, toInt32_of_lt d.body_lt]
    have hadd : q.toHttpHeader.addContent d.body.length (.cut m (d.body ++ rest)) =
        ({ q.toHttpHeader with
          content := d.body ++ [0]
          headers := q.headers.set contentLength (toStringInt d.body.length) }, .cut (m ++ d.body) rest) := by
      rw [HttpHeader.addContent_pos q.toHttpHeader d.body.length hpos _ rfl (by simp), hbytes, hsize]
      simp [StringStream.cut]
    rw [if_pos (by omega), hadd]
    refine ⟨_, s, d.received pf, rfl, hs, hpassed, hmethod, hpath, hversion, hcookies, hreceived.symm, fun k => ?_⟩
    have hnot : ¬(d.body = [] ∧ SameText k contentLength) := fun h => hnil h.1
    rw [if_neg hnot]
    show ((q.headers.set contentLength (toStringInt d.body.length)).find k).getD [] = (d.header pf).getHeader k
    by_cases hk : SameText k contentLength
    · have hsame : ciOrder.same contentLength k = true := by
        rw [ciOrder.same_comm]
        exact (same_iff _ _).mpr hk
      rw [OrderedMap.find_congr hsame, OrderedMap.find_set, HttpHeader.getHeader, OrderedMap.find_congr hsame,
        header_contentLength]
    · have hsame : ciOrder.same contentLength k = false := by
        rw [ciOrder.same_comm, same_eq, decide_eq_false hk]
      rw [OrderedMap.find_set_of_not_same _ _ hsame]
      have hk' := hheader k
      rw [if_neg hk] at hk'
      exact hk'

end Request

namespace Sample

theorem draft_portable : Portable Http.Sample.platform Http.Sample.draft where
  path := by decide +kernel
  version := by decide +kernel
  headers := by decide +kernel
  cookies := by decide +kernel

/-- The variables in another order, with two of the program's own among them. -/
def environment : List Bytes :=
  ascii "PATH=/bin" :: (environmentOf Http.Sample.platform Http.Sample.draft).reverse ++ [ascii "HTTPS=on"]

end Sample

theorem request_through_cgi_reordered :
    ∃ c s q, cgiGetRequest Http.Sample.platform Sample.environment (.cut [] (ascii "k=v" ++ ascii "\n")) =
        (c, .cut (ascii "k=v") (ascii "\n")) ∧
      process Http.Sample.platform (fun _ => none) none
        (.cut [] (Http.Sample.draft.request Http.Sample.platform).wire) = some s ∧ s.passed = [q] ∧
      c.method = q.method ∧ c.pathInfo = q.pathInfo ∧ c.serverProtocol = q.httpVersion ∧
      c.cookies = q.cookies ∧ c.content = q.content ∧
      ∀ k, c.toHttpHeader.getHeader k =
        if Http.Sample.draft.body = [] ∧ SameText k contentLength then [] else q.toHttpHeader.getHeader k := by
  have hothers : ∀ x ∈ [ascii "PATH=/bin", ascii "HTTPS=on"], Foreign x := by
    simp only [List.forall_mem_cons, List.not_mem_nil, false_implies, implies_true, and_true]
    exact ⟨⟨by decide +kernel, by decide +kernel⟩, ⟨by decide +kernel, by decide +kernel⟩⟩
  have hperm : Sample.environment.Perm
      (environmentOf Http.Sample.platform Http.Sample.draft ++ [ascii "PATH=/bin", ascii "HTTPS=on"]) := by
    refine (List.perm_append_comm.trans ?_)
    refine .trans ?_ List.perm_append_comm
    exact ((List.reverse_perm _).cons _ |>.cons _).trans (List.Perm.swap _ _ _)
  exact request_through_cgi Sample.draft_portable hothers hperm [] [] (ascii "\n") fun _ => none

end Dcl.Web
