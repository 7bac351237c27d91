import Dcl.Foundations.Loop
import Dcl.Http.Cookies

/-! # The name of a cookie and its attributes

A `Set-Cookie` value is a pair `name=value` and attributes behind it. The constructor of `http_cookie` treats
all fields alike: a field whose name it does not know sets the name and the value of the cookie, so that the
last such field decides, and the names it knows are known in one spelling only. -/
namespace Dcl.Http
set_option autoImplicit false

/-! ## Fields -/

/-- What stands before the first `=` of a field, without the white space around it. -/
def fieldName (a : Bytes) : Bytes := trim (a.takeWhile (· != 61))

/-- What stands behind the first `=` of a field. -/
def fieldValue (a : Bytes) : Bytes := trim ((a.dropWhile (· != 61)).drop 1)

/-- The value of the last field whose name meets `p`; the empty text when there is none. -/
def lastValue (p : Bytes → Bool) (attrs : List Bytes) : Bytes :=
  ((attrs.filter fun a => p (fieldName a)).getLast?.map fieldValue).getD []

section Split
variable {a b : Bytes}

theorem fieldName_pair (h : 61 ∉ a) (b : Bytes) : fieldName (a ++ 61 :: b) = trim a := by
  rw [fieldName, takeWhile_bne_append h]

theorem fieldValue_pair (h : 61 ∉ a) (b : Bytes) : fieldValue (a ++ 61 :: b) = trim b := by
  rw [fieldValue, dropWhile_bne_append h]
  rfl

theorem fieldName_word (h : 61 ∉ a) : fieldName a = trim a := by
  rw [fieldName, takeWhile_bne_self h]

theorem fieldValue_word (h : 61 ∉ a) : fieldValue a = [] := by
  rw [fieldValue, List.dropWhile_eq_nil_iff.mpr (forall_mem_bne h)]
  rfl

theorem not_mem_blank {x : Bytes} (h : ∀ c ∈ x, blanks.contains c = true) : 61 ∉ x := by
  intro hx
  exact absurd (h 61 hx) (by decide)

end Split

section Parsing
variable {pf : Platform}

/-- The constructor trims a field before it splits it, which changes nothing. -/
theorem field_trim (c : HttpCookie) (a : Bytes) :
    HttpCookie.field pf c (trim a) = HttpCookie.assign pf c (fieldName a) (fieldValue a) := by
  obtain ⟨x, y, ha, hx, hy⟩ := exists_trim a
  by_cases heq : 61 ∈ trim a
  · obtain ⟨n, v, htrim, hn⟩ := List.eq_append_cons_of_mem heq
    have hpair : tokenizePair (trim a) [] [] false (ascii "=") = (n, v) := by
      rw [htrim]
      exact tokenizePair_split hn [] []
    have hall : a = (x ++ n) ++ 61 :: (v ++ y) := by
      conv_lhs => rw [ha, htrim]
      simp
    have hxn : 61 ∉ x ++ n := by simp [not_mem_blank hx, hn]
    have hname : fieldName a = trim n := by
      rw [hall, fieldName_pair hxn]
      simpa using trim_around (y := []) n hx (by simp)
    have hvalue : fieldValue a = trim v := by
      rw [hall, fieldValue_pair hxn]
      simpa using trim_around (x := []) v (by simp) hy
    rw [hname, hvalue]
    simp only [HttpCookie.field, hpair]
    rfl
  · have hword : 61 ∉ a := by
      rw [ha]
      simp [not_mem_blank hx, not_mem_blank hy, heq]
    have hpair : tokenizePair (trim a) [] [] false (ascii "=") = (trim a, []) := tokenizePair_whole heq []
    rw [fieldName_word hword, fieldValue_word hword]
    simp only [HttpCookie.field, hpair, trim_eq_self (trimmed_trim a)]
    rfl

/-- The field as it stands in the header. -/
def HttpCookie.read (pf : Platform) (c : HttpCookie) (a : Bytes) : HttpCookie :=
  c.assign pf (fieldName a) (fieldValue a)

theorem parse_fields {parts : List Bytes} (h : ∀ a ∈ parts, 59 ∉ a) (hne : [59].intercalate parts ≠ []) :
    HttpCookie.parse pf ([59].intercalate parts) = parts.foldl (HttpCookie.read pf) .new := by
  have htok : tokenize ([59].intercalate parts) (ascii ";") = parts.map trim := tokenize_intercalate h hne
  rw [HttpCookie.parse, htok, List.foldl_map]
  refine congrArg (parts.foldl · HttpCookie.new) ?_
  funext c a
  exact field_trim c a

/-! ## What each field sets -/

/-- The constructor takes a field of this name for the pair. -/
def ordinary (p : Bytes) : Bool := !attributeNames.contains p

theorem ordinary_iff {p : Bytes} : ordinary p = true ↔ p ∉ attributeNames := by
  simp [ordinary]

theorem read_pair (c : HttpCookie) (a : Bytes) :
    ((c.read pf a).name, (c.read pf a).value) =
      if ordinary (fieldName a) = true then (fieldName a, fieldValue a) else (c.name, c.value) := by
  by_cases h : fieldName a ∈ attributeNames
  · have hord : ordinary (fieldName a) ≠ true := fun ho => ordinary_iff.mp ho h
    obtain ⟨hname, hvalue⟩ :
        (c.read pf a).name = c.name ∧ (c.read pf a).value = c.value := assign_attribute h
    rw [if_neg hord, hname, hvalue]
  · rw [if_pos (ordinary_iff.mpr h), HttpCookie.read, assign_ordinary h]

theorem read_domain (c : HttpCookie) (a : Bytes) :
    (c.read pf a).domain = if (fieldName a == ascii "domain") = true then fieldValue a else c.domain := by
  by_cases h : fieldName a = ascii "domain"
  · rw [if_pos (beq_iff_eq.mpr h), HttpCookie.read, h]
    rfl
  · rw [if_neg (mt beq_iff_eq.mp h), HttpCookie.read, HttpCookie.assign, if_neg h]
    split_ifs <;> rfl

theorem read_path (c : HttpCookie) (a : Bytes) :
    (c.read pf a).path = if (fieldName a == ascii "path") = true then fieldValue a else c.path := by
  by_cases h : fieldName a = ascii "path"
  · rw [if_pos (beq_iff_eq.mpr h), HttpCookie.read, h]
    rfl
  · rw [if_neg (mt beq_iff_eq.mp h), HttpCookie.read, HttpCookie.assign, if_neg h]
    split_ifs <;> rfl

/-- The last field that is no attribute gives the name and the value. -/
theorem foldl_pair (parts : List Bytes) (c : HttpCookie) :
    ((parts.foldl (HttpCookie.read pf) c).name, (parts.foldl (HttpCookie.read pf) c).value) =
      ((parts.filter fun a => ordinary (fieldName a)).getLast?.map fun a =>
        (fieldName a, fieldValue a)).getD (c.name, c.value) :=
  Loop.foldl_last (g := fun c => (c.name, c.value)) read_pair c parts

theorem foldl_domain (parts : List Bytes) :
    (parts.foldl (HttpCookie.read pf) .new).domain = lastValue (· == ascii "domain") parts :=
  Loop.foldl_last read_domain .new parts

theorem foldl_path (parts : List Bytes) :
    (parts.foldl (HttpCookie.read pf) .new).path = lastValue (· == ascii "path") parts :=
  Loop.foldl_last read_path .new parts

/-! ## The first pair -/

/-- The last attribute that the constructor does not know, if there is one, says the pair again. -/
def Repeats (name value : Bytes) (attrs : List Bytes) : Prop :=
  ∀ a ∈ (attrs.filter fun a => ordinary (fieldName a)).getLast?, (fieldName a, fieldValue a) = (name, value)

theorem getLast?_filter_cons {α : Type} (p : α → Bool) (a : α) (l : List α) :
    ((a :: l).filter p).getLast? = if p a = true then some ((l.filter p).getLast?.getD a)
      else (l.filter p).getLast? := by
  rw [List.filter_cons]
  split
  · exact List.getLast?_cons
  · rfl

theorem pair_iff (pf : Platform) (first : Bytes) (attrs : List Bytes) :
    (((first :: attrs).foldl (HttpCookie.read pf) .new).name,
      ((first :: attrs).foldl (HttpCookie.read pf) .new).value) = (fieldName first, fieldValue first) ↔
      ordinary (fieldName first) = true ∧ Repeats (fieldName first) (fieldValue first) attrs := by
  rw [foldl_pair, getLast?_filter_cons]
  cases hord : ordinary (fieldName first) with
  | true =>
    rw [if_pos rfl, Option.map_some, Option.getD_some, Repeats]
    cases (attrs.filter fun a => ordinary (fieldName a)).getLast? <;> simp
  | false =>
    rw [if_neg Bool.false_ne_true]
    refine iff_of_false (fun h => ?_) (fun h => absurd h.1 Bool.false_ne_true)
    cases hlast : (attrs.filter fun a => ordinary (fieldName a)).getLast? with
    | none =>
      -- no field gives a name, and the empty one is no attribute
      rw [hlast] at h
      have hname : [] = fieldName first := (Prod.mk.inj h).1
      rw [← hname] at hord
      exact absurd hord (by decide)
    | some a =>
      rw [hlast] at h
      have hname : fieldName a = fieldName first := (Prod.mk.inj h).1
      have ha := (List.mem_filter.mp (List.mem_of_getLast? hlast)).2
      rw [hname, hord] at ha
      cases ha

theorem lastValue_cons_of_ordinary {first key : Bytes} {attrs : List Bytes}
    (hord : ordinary (fieldName first) = true) (hkey : key ∈ attributeNames) :
    lastValue (· == key) (first :: attrs) = lastValue (· == key) attrs := by
  have hne : ¬(fieldName first == key) = true := by
    intro he
    rw [beq_iff_eq.mp he] at hord
    exact ordinary_iff.mp hord hkey
  rw [lastValue, lastValue, List.filter_cons_of_neg (p := fun a => fieldName a == key) hne]

/-- A cookie has the name and the value of its first pair, and the domain and the path of its attributes in
whatever letter case they are written, if and only if the name of the pair is none of the constructor's
attributes, the last attribute it does not know says the pair again, and the last `domain` and `path` in any
letter case have the value of the last that is written in lower case. -/
theorem cookie_identity_iff (pf : Platform) {name value : Bytes} {attrs : List Bytes}
    (hname : 61 ∉ name) (hparts : ∀ a ∈ (name ++ 61 :: value) :: attrs, 59 ∉ a) :
    let c := HttpCookie.parse pf ([59].intercalate ((name ++ 61 :: value) :: attrs))
    (c.name = trim name ∧ c.value = trim value ∧
      c.domain = lastValue (compare · (ascii "domain")) attrs ∧
      c.path = lastValue (compare · (ascii "path")) attrs) ↔
    (trim name ∉ attributeNames ∧ Repeats (trim name) (trim value) attrs ∧
      lastValue (· == ascii "domain") attrs = lastValue (compare · (ascii "domain")) attrs ∧
      lastValue (· == ascii "path") attrs = lastValue (compare · (ascii "path")) attrs) := by
  intro c
  have hne : [59].intercalate ((name ++ 61 :: value) :: attrs) ≠ [] := by
    cases attrs <;> simp
  have hc : c = ((name ++ 61 :: value) :: attrs).foldl (HttpCookie.read pf) .new := parse_fields hparts hne
  have hpair := pair_iff pf (name ++ 61 :: value) attrs
  rw [← hc, fieldName_pair hname, fieldValue_pair hname, Prod.mk.injEq, ordinary_iff] at hpair
  rw [← and_assoc, hpair, and_assoc]
  refine and_congr_right fun hord => and_congr_right fun _ => ?_
  have hfirst : ordinary (fieldName (name ++ 61 :: value)) = true := by
    rw [fieldName_pair hname]
    exact ordinary_iff.mpr hord
  rw [hc, foldl_domain, foldl_path, lastValue_cons_of_ordinary hfirst (by decide),
    lastValue_cons_of_ordinary hfirst (by decide)]

end Parsing

namespace Sample

/-- `a=1` with the attributes `attrs`. -/
def setCookie (attrs : List Bytes) : Bytes := [59].intercalate ((ascii "a" ++ 61 :: ascii "1") :: attrs)

end Sample

theorem cookie_identity_lower_case :
    let c := HttpCookie.parse Sample.plainPlatform
      (Sample.setCookie [ascii " Domain=y", ascii " domain=x.org", ascii "b", ascii " a = 1", ascii " secure"])
    c.name = ascii "a" ∧ c.value = ascii "1" ∧ c.domain = ascii "x.org" ∧ c.path = [] :=
  (cookie_identity_iff Sample.plainPlatform (by decide) (by decide +kernel)).mpr
    ⟨by decide +kernel, by unfold Repeats; decide +kernel, by decide +kernel, by decide +kernel⟩

/-- `a=1; Path=/` is read as a cookie `Path` with the value `/` and no path. -/
theorem cookie_identity_lost :
    let c := HttpCookie.parse Sample.plainPlatform (Sample.setCookie [ascii " Path=/"])
    c.name = ascii "Path" ∧ c.value = ascii "/" ∧ c.path = [] ∧
      ¬(c.name = trim (ascii "a") ∧ c.value = trim (ascii "1") ∧
        c.domain = lastValue (compare · (ascii "domain")) [ascii " Path=/"] ∧
        c.path = lastValue (compare · (ascii "path")) [ascii " Path=/"]) := by
  decide +kernel

end Dcl.Http
