import Dcl.Http.Header
import Dcl.Strutils.Tokens

/-! # Cookies that are written and read back

`http_cookie::str` and the parsing constructor are two lists of attribute names. They agree on
`domain`, `path`, `secure` and `HttpOnly`; the constructor knows `samesite` where `str` writes
`SameSite`, does not know `Partitioned`, and takes what it does not know for the name of the cookie.
The `Cookie` header is read with the same constructor. -/
namespace Dcl.Http
set_option autoImplicit false

/-- The names that the constructor takes for attributes. -/
def attributeNames : List Bytes :=
  [ascii "expires", ascii "domain", ascii "path", ascii "samesite", ascii "secure", ascii "HttpOnly"]

/-! ## One field -/

/-- What a field with the name `p` and the value `v` changes. -/
def HttpCookie.assign (pf : Platform) (c : HttpCookie) (p v : Bytes) : HttpCookie :=
  if p = ascii "expires" then { c with expires := pf.datetime v }
  else if p = ascii "domain" then { c with domain := v }
  else if p = ascii "path" then { c with path := v }
  else if p = ascii "samesite" then { c with sameSite := v }
  else if p = ascii "secure" then { c with secure := true }
  else if p = ascii "HttpOnly" then { c with httpOnly := true }
  else { c with name := p, value := v }

section Fields
variable {pf : Platform} {c : HttpCookie} {p v : Bytes}

theorem field_pair (hp : 61 ∉ p) (htp : Trimmed p) (htv : Trimmed v) :
    HttpCookie.field pf c (p ++ 61 :: v) = HttpCookie.assign pf c p v := by
  have hpair : tokenizePair (p ++ 61 :: v) [] [] false (ascii "=") = (p, v) :=
    tokenizePair_split hp [] []
  simp only [HttpCookie.field, hpair, trim_eq_self htp, trim_eq_self htv]
  rfl

theorem field_word (hp : 61 ∉ p) (htp : Trimmed p) :
    HttpCookie.field pf c p = HttpCookie.assign pf c p [] := by
  have hpair : tokenizePair p [] [] false (ascii "=") = (p, []) := tokenizePair_whole hp []
  simp only [HttpCookie.field, hpair, trim_eq_self htp]
  rfl

theorem assign_ordinary (h : p ∉ attributeNames) :
    HttpCookie.assign pf c p v = { c with name := p, value := v } := by
  simp only [attributeNames, List.mem_cons, List.not_mem_nil, or_false, not_or] at h
  simp [HttpCookie.assign, h]

/-- An attribute does not touch the name, the value, or what is never assigned. -/
theorem assign_attribute (h : p ∈ attributeNames) :
    (HttpCookie.assign pf c p v).name = c.name ∧ (HttpCookie.assign pf c p v).value = c.value := by
  unfold HttpCookie.assign
  split_ifs with h1 h2 h3 h4 h5 h6
  all_goals try exact ⟨rfl, rfl⟩
  simp [attributeNames, h1, h2, h3, h4, h5, h6] at h

end Fields

/-! ## The fields that `str` writes -/

def optional (on : Bool) (text : Bytes) : List Bytes := if on then [text] else []

/-- What `str` writes behind the name and the value of a cookie without an expiry date. -/
def HttpCookie.attributes (pf : Platform) (c : HttpCookie) : List Bytes :=
  optional (!c.domain.isEmpty) (ascii "domain" ++ 61 :: c.domain) ++
  optional (!c.path.isEmpty) (ascii "path" ++ 61 :: c.path) ++
  optional (!c.sameSite.isEmpty) (ascii "SameSite" ++ 61 :: c.sameSite) ++
  optional c.secure (ascii "secure") ++ optional c.httpOnly (ascii "HttpOnly") ++
  optional (c.partitioned.getD pf.unassigned) (ascii "Partitioned")

/-- A cookie whose texts can be told apart in a header: a non-empty name without `=`, and neither `;`
nor white space at the ends of the texts. -/
structure HttpCookie.WellFormed (c : HttpCookie) : Prop where
  name_ne : c.name ≠ []
  name_eq : 61 ∉ c.name
  texts : ∀ s ∈ [c.name, c.value, c.domain, c.path, c.sameSite], 59 ∉ s ∧ Trimmed s

theorem flatMap_optional (on : Bool) (text : Bytes) :
    ((optional on text).flatMap fun a => 59 :: 32 :: a) = if on then 59 :: 32 :: text else [] := by
  cases on <;> simp [optional]

theorem str_eq (pf : Platform) {c : HttpCookie} (hne : c.name ≠ []) (hexp : c.expires = 0) :
    c.str pf = c.name ++ 61 :: c.value ++ (c.attributes pf).flatMap fun a => 59 :: 32 :: a := by
  have hname : c.name.isEmpty = false := by simpa using hne
  simp only [HttpCookie.str, hname, Bool.false_eq_true, if_false, hexp, if_true, List.append_nil,
    HttpCookie.attributes, List.flatMap_append, flatMap_optional]
  have hdomain : ascii "; domain=" ++ c.domain = 59 :: 32 :: (ascii "domain" ++ 61 :: c.domain) := rfl
  have hpath : ascii "; path=" ++ c.path = 59 :: 32 :: (ascii "path" ++ 61 :: c.path) := rfl
  have hsite : ascii "; SameSite=" ++ c.sameSite =
    59 :: 32 :: (ascii "SameSite" ++ 61 :: c.sameSite) := rfl
  have hsecure : ascii "; secure" = 59 :: 32 :: ascii "secure" := rfl
  have hhttp : ascii "; HttpOnly" = 59 :: 32 :: ascii "HttpOnly" := rfl
  have hpart : ascii "; Partitioned" = 59 :: 32 :: ascii "Partitioned" := rfl
  have hequal : c.name ++ ascii "=" ++ c.value = c.name ++ 61 :: c.value := by
    rw [List.append_assoc]
    rfl
  have hflip : ∀ (b : Bool) (x : Bytes), (if b = true then [] else x) = if (!b) = true then x else [] := by
    intro b x
    cases b <;> rfl
  simp only [hdomain, hpath, hsite, hsecure, hhttp, hpart, hequal, hflip, List.append_assoc]

theorem intercalate_padded (first : Bytes) (rest : List Bytes) :
    [59].intercalate (first :: rest.map (32 :: ·)) = first ++ rest.flatMap fun a => 59 :: 32 :: a := by
  induction rest generalizing first with
  | nil => simp
  | cons a rest ih =>
    rw [List.map_cons, List.intercalate_cons_cons, ih]
    simp

def IsField (a : Bytes) : Prop := 59 ∉ a ∧ Trimmed a ∧ a ≠ []

instance (a : Bytes) : Decidable (IsField a) := inferInstanceAs (Decidable (_ ∧ _ ∧ _))

theorem isField_pair {p v : Bytes} (hp : 59 ∉ p) (htp : Trimmed p) (hne : p ≠ []) (hv : 59 ∉ v)
    (htv : Trimmed v) : IsField (p ++ 61 :: v) := by
  refine ⟨?_, htp.pair hne htv, by simp⟩
  simp [hp, hv]

theorem forall_mem_optional {P : Bytes → Prop} {on : Bool} {text : Bytes} (h : P text) :
    ∀ a ∈ optional on text, P a := by
  intro a ha
  unfold optional at ha
  split at ha
  · rw [List.mem_singleton.mp ha]
    exact h
  · cases ha

theorem attributes_fields (pf : Platform) {c : HttpCookie} (hc : c.WellFormed) :
    ∀ a ∈ c.attributes pf, IsField a := by
  have hdomain := hc.texts c.domain (by simp)
  have hpath := hc.texts c.path (by simp)
  have hsite := hc.texts c.sameSite (by simp)
  intro a ha
  simp only [HttpCookie.attributes, List.mem_append, or_assoc] at ha
  obtain ha | ha | ha | ha | ha | ha := ha
  · exact forall_mem_optional (isField_pair (by decide) (by decide +kernel) (by decide) hdomain.1 hdomain.2) a ha
  · exact forall_mem_optional (isField_pair (by decide) (by decide +kernel) (by decide) hpath.1 hpath.2) a ha
  · exact forall_mem_optional (isField_pair (by decide) (by decide +kernel) (by decide) hsite.1 hsite.2) a ha
  · exact forall_mem_optional (by decide +kernel) a ha
  · exact forall_mem_optional (by decide +kernel) a ha
  · exact forall_mem_optional (by decide +kernel) a ha

/-- Fields that are joined as `str` and `operator<<` join them are found again. -/
theorem tokenize_fields {first : Bytes} {rest : List Bytes} (hfirst : IsField first)
    (hrest : ∀ a ∈ rest, IsField a) :
    tokenize (first ++ rest.flatMap fun a => 59 :: 32 :: a) (ascii ";") = first :: rest := by
  have hparts : ∀ p ∈ first :: rest.map (32 :: ·), (59 : UInt8) ∉ p := by
    intro p hp
    obtain rfl | hp := List.mem_cons.mp hp
    · exact hfirst.1
    · obtain ⟨a, ha, rfl⟩ := List.mem_map.mp hp
      simp [(hrest a ha).1]
  have hne : [59].intercalate (first :: rest.map (32 :: ·)) ≠ [] := by
    rw [intercalate_padded]
    simp [hfirst.2.2]
  have htrim : (rest.map (32 :: ·)).map trim = rest := by
    rw [List.map_map]
    refine (List.map_congr_left fun a ha => ?_).trans (List.map_id rest)
    exact trim_cons_space (hrest a ha).2.1 (hrest a ha).2.2
  have htok := tokenize_intercalate hparts hne
  rw [intercalate_padded, List.map_cons, trim_eq_self hfirst.2.1, htrim] at htok
  exact htok

theorem parse_str (pf : Platform) {c : HttpCookie} (hc : c.WellFormed) (hexp : c.expires = 0) :
    HttpCookie.parse pf (c.str pf) =
      (c.attributes pf).foldl (HttpCookie.field pf) (HttpCookie.assign pf .new c.name c.value) := by
  have hname := hc.texts c.name (by simp)
  have hvalue := hc.texts c.value (by simp)
  have hfirst := isField_pair hname.1 hname.2 hc.name_ne hvalue.1 hvalue.2
  rw [HttpCookie.parse, str_eq pf hc.name_ne hexp, tokenize_fields hfirst (attributes_fields pf hc),
    List.foldl_cons, field_pair hc.name_eq hname.2 hvalue.2]

/-- A field that is written or not, as a change that is made or not. -/
theorem foldl_optional (f : HttpCookie → Bytes → HttpCookie) (on : Bool) (text : Bytes)
    (change : Bool → HttpCookie → HttpCookie) (hon : ∀ d, f d text = change true d)
    (hoff : ∀ d, d = change false d) (d : HttpCookie) :
    (optional on text).foldl f d = change on d := by
  cases on
  · exact hoff d
  · exact hon d

/-- What the attributes do to a cookie: `SameSite` and `Partitioned` are taken for its name. -/
def HttpCookie.reread (c : HttpCookie) (partitioned : Bool) (d : HttpCookie) : HttpCookie :=
  { d with
    domain := if !c.domain.isEmpty then c.domain else d.domain
    path := if !c.path.isEmpty then c.path else d.path
    secure := if c.secure then true else d.secure
    httpOnly := if c.httpOnly then true else d.httpOnly
    name := if partitioned then ascii "Partitioned"
      else if !c.sameSite.isEmpty then ascii "SameSite" else d.name
    value := if partitioned then [] else if !c.sameSite.isEmpty then c.sameSite else d.value }

theorem foldl_attributes (pf : Platform) {c : HttpCookie} (hc : c.WellFormed) (d : HttpCookie) :
    (c.attributes pf).foldl (HttpCookie.field pf) d =
      c.reread (c.partitioned.getD pf.unassigned) d := by
  have hdomain := foldl_optional (HttpCookie.field pf) (!c.domain.isEmpty)
    (ascii "domain" ++ 61 :: c.domain) (fun on d => { d with domain := if on then c.domain else d.domain })
    (fun d => (field_pair (by decide) (by decide +kernel)
      (hc.texts c.domain (by simp)).2).trans rfl) fun d => rfl
  have hpath := foldl_optional (HttpCookie.field pf) (!c.path.isEmpty)
    (ascii "path" ++ 61 :: c.path) (fun on d => { d with path := if on then c.path else d.path })
    (fun d => (field_pair (by decide) (by decide +kernel)
      (hc.texts c.path (by simp)).2).trans rfl) fun d => rfl
  have hsite := foldl_optional (HttpCookie.field pf) (!c.sameSite.isEmpty)
    (ascii "SameSite" ++ 61 :: c.sameSite) (fun on d => { d with
      name := if on then ascii "SameSite" else d.name, value := if on then c.sameSite else d.value })
    (fun d => (field_pair (by decide) (by decide +kernel)
      (hc.texts c.sameSite (by simp)).2).trans (assign_ordinary (by decide))) fun d => rfl
  have hsecure := foldl_optional (HttpCookie.field pf) c.secure (ascii "secure")
    (fun on d => { d with secure := if on then true else d.secure })
    (fun d => (field_word (by decide) (by decide +kernel)).trans rfl) fun d => rfl
  have hhttp := foldl_optional (HttpCookie.field pf) c.httpOnly (ascii "HttpOnly")
    (fun on d => { d with httpOnly := if on then true else d.httpOnly })
    (fun d => (field_word (by decide) (by decide +kernel)).trans rfl) fun d => rfl
  have hpart := foldl_optional (HttpCookie.field pf) (c.partitioned.getD pf.unassigned)
    (ascii "Partitioned") (fun on d => { d with
      name := if on then ascii "Partitioned" else d.name, value := if on then [] else d.value })
    (fun d => (field_word (by decide) (by decide +kernel)).trans
      (assign_ordinary (by decide))) fun d => rfl
  rw [HttpCookie.attributes, List.foldl_append, List.foldl_append, List.foldl_append,
    List.foldl_append, List.foldl_append, hdomain, hpath, hsite, hsecure, hhttp, hpart]
  rfl

/-! ## `Set-Cookie` -/

/-- The fields of a cookie that a reader can see; a flag that was never assigned reads as the
platform has it. -/
def HttpCookie.SameAs (pf : Platform) (c d : HttpCookie) : Prop :=
  c.name = d.name ∧ c.value = d.value ∧ c.domain = d.domain ∧ c.path = d.path ∧
    c.sameSite = d.sameSite ∧ c.secure = d.secure ∧ c.httpOnly = d.httpOnly ∧
    c.partitioned.getD pf.unassigned = d.partitioned.getD pf.unassigned

theorem parse_new (pf : Platform) {c : HttpCookie} (hc : c.WellFormed) (hexp : c.expires = 0) :
    HttpCookie.parse pf (c.str pf) = c.reread (c.partitioned.getD pf.unassigned)
      (HttpCookie.assign pf .new c.name c.value) := by
  rw [parse_str pf hc hexp, foldl_attributes pf hc]

/-- The name of an attribute is lost, and what may be taken for the name instead is no attribute. -/
theorem reread_name_ne (pf : Platform) {c : HttpCookie} (hc : c.WellFormed)
    (hname : c.name ∈ attributeNames) (partitioned : Bool) :
    (c.reread partitioned (HttpCookie.assign pf .new c.name c.value)).name ≠ c.name := by
  intro h
  have hreread : (if partitioned then ascii "Partitioned"
      else if !c.sameSite.isEmpty then ascii "SameSite" else []) = c.name := by
    rw [← h, HttpCookie.reread, (assign_attribute hname).1]
    rfl
  have hne := hc.name_ne
  rw [← hreread] at hname hne
  split_ifs at hname hne
  · exact absurd hname (by decide)
  · exact absurd hname (by decide)
  · exact absurd rfl hne

/-- `str` and the parsing constructor are inverse exactly for cookies with an ordinary name and
without `SameSite`, whose `partitioned` flag is what the unassigned flag of the new object reads as;
a set flag is written, and then taken for the name. -/
theorem set_cookie_reread_iff (pf : Platform) (c : HttpCookie) (partitioned : Bool)
    (hpart : c.partitioned = some partitioned) (hexp : c.expires = 0) (hc : c.WellFormed) :
    (HttpCookie.parse pf (c.str pf)).SameAs pf c ↔
      c.name ∉ attributeNames ∧ c.sameSite = [] ∧ pf.unassigned = partitioned ∧
        (partitioned = true → c.name = ascii "Partitioned" ∧ c.value = []) := by
  rw [parse_new pf hc hexp, hpart, Option.getD_some]
  by_cases hname : c.name ∈ attributeNames
  · exact ⟨fun h => absurd h.1 (reread_name_ne pf hc hname partitioned), fun h => absurd hname h.1⟩
  · rw [assign_ordinary hname]
    have hself : ∀ s : Bytes, (if (!s.isEmpty) = true then s else []) = s := by
      intro s
      cases s <;> rfl
    have hor : ∀ b : Bool, (if b = true then true else false) = b := by
      intro b
      cases b <;> rfl
    simp only [HttpCookie.SameAs, HttpCookie.reread, HttpCookie.new, hself, hor, hpart,
      Option.getD_some, Option.getD_none, true_and]
    constructor
    · rintro ⟨hn, hv, hsite, hflag⟩
      refine ⟨hname, hsite.symm, hflag, fun hp => ?_⟩
      rw [if_pos hp] at hn hv
      exact ⟨hn.symm, hv.symm⟩
    · rintro ⟨_, hsite, hflag, hp⟩
      refine ⟨?_, ?_, hsite.symm, hflag⟩
      · cases partitioned with
        | false => simp [hsite]
        | true => exact (hp rfl).1.symm
      · cases partitioned with
        | false => simp [hsite]
        | true => exact (hp rfl).2.symm

namespace Sample

def plainPlatform : Platform := ⟨fun _ => 0, fun _ => [], false⟩

def cookieWith (sameSite : Bytes) : HttpCookie :=
  { HttpCookie.new with
    name := ascii "a", value := ascii "b", domain := ascii "x.org", path := ascii "/"
    sameSite := sameSite, secure := true, httpOnly := true, partitioned := some false }

theorem cookieWith_wellFormed {sameSite : Bytes} (h : 59 ∉ sameSite) (ht : Trimmed sameSite) :
    (cookieWith sameSite).WellFormed := by
  have hname : (cookieWith sameSite).name = ascii "a" := rfl
  refine ⟨by rw [hname]; decide, by rw [hname]; decide, fun s hs => ?_⟩
  simp only [cookieWith, List.mem_cons, List.not_mem_nil, or_false] at hs
  obtain rfl | rfl | rfl | rfl | rfl := hs
  · decide +kernel
  · decide +kernel
  · decide +kernel
  · decide +kernel
  · exact ⟨h, ht⟩

end Sample

theorem set_cookie_same_site_lost : (Sample.cookieWith (ascii "Lax")).WellFormed ∧
    (HttpCookie.parse Sample.plainPlatform
      ((Sample.cookieWith (ascii "Lax")).str Sample.plainPlatform)).name = ascii "SameSite" ∧
    ¬ (HttpCookie.parse Sample.plainPlatform
      ((Sample.cookieWith (ascii "Lax")).str Sample.plainPlatform)).SameAs Sample.plainPlatform
        (Sample.cookieWith (ascii "Lax")) := by
  have hname : (HttpCookie.parse Sample.plainPlatform
      ((Sample.cookieWith (ascii "Lax")).str Sample.plainPlatform)).name = ascii "SameSite" := by
    decide +kernel
  refine ⟨Sample.cookieWith_wellFormed (by decide) (by decide +kernel), hname, fun h => ?_⟩
  have hsame := h.1
  rw [hname] at hsame
  exact absurd hsame (by decide)

theorem set_cookie_reread_plain : (HttpCookie.parse Sample.plainPlatform
    ((Sample.cookieWith []).str Sample.plainPlatform)).SameAs Sample.plainPlatform
      (Sample.cookieWith []) := by
  refine (set_cookie_reread_iff Sample.plainPlatform (Sample.cookieWith []) false rfl rfl
    (Sample.cookieWith_wellFormed (by decide) (by decide +kernel))).mpr ⟨by decide, rfl, rfl, ?_⟩
  exact fun h => absurd h Bool.false_ne_true

/-! ## `Cookie` -/

def HttpCookie.pairText (c : HttpCookie) : Bytes := c.name ++ 61 :: c.value

/-- A cookie whose name and value can be told apart in a `Cookie` header. -/
structure HttpCookie.Sendable (c : HttpCookie) : Prop where
  name_ne : c.name ≠ []
  name_eq : 61 ∉ c.name
  texts : ∀ s ∈ [c.name, c.value], 59 ∉ s ∧ Trimmed s

theorem HttpCookie.Sendable.isField {c : HttpCookie} (hc : c.Sendable) : IsField c.pairText := by
  have hname := hc.texts c.name (by simp)
  have hvalue := hc.texts c.value (by simp)
  exact isField_pair hname.1 hname.2 hc.name_ne hvalue.1 hvalue.2

theorem cookieText_cons (c : HttpCookie) (cs : List HttpCookie) :
    cookieText (c :: cs) =
      c.pairText ++ (cs.map HttpCookie.pairText).flatMap fun a => 59 :: 32 :: a := by
  have hpair : c.name ++ ascii "=" ++ c.value = c.pairText := by
    rw [List.append_assoc]
    rfl
  induction cs generalizing c with
  | nil => simp [cookieText, hpair]
  | cons d cs ih =>
    have hd : d.name ++ ascii "=" ++ d.value = d.pairText := by
      rw [List.append_assoc]
      rfl
    rw [cookieText, hpair, ih d hd]
    · simp [ascii]
    · simp

theorem parse_pairText (pf : Platform) {c : HttpCookie} (hc : c.Sendable) :
    HttpCookie.parse pf c.pairText = HttpCookie.assign pf .new c.name c.value := by
  have hnil : ∀ a ∈ ([] : List Bytes), IsField a := by simp
  have htok := tokenize_fields hc.isField hnil
  rw [List.flatMap_nil, List.append_nil] at htok
  rw [HttpCookie.parse, htok, List.foldl_cons, List.foldl_nil, HttpCookie.pairText,
    field_pair hc.name_eq (hc.texts c.name (by simp)).2 (hc.texts c.value (by simp)).2]

theorem getLast?_cookieText (c : HttpCookie) (cs : List HttpCookie) :
    ∃ d ∈ c :: cs, (cookieText (c :: cs)).getLast? = d.pairText.getLast? := by
  induction cs generalizing c with
  | nil => exact ⟨c, by simp, by simp [cookieText_cons]⟩
  | cons d cs ih =>
    obtain ⟨e, he, hlast⟩ := ih d
    have hsplit : cookieText (c :: d :: cs) = c.pairText ++ [59, 32] ++ cookieText (d :: cs) := by
      simp [cookieText_cons]
    have hne : cookieText (d :: cs) ≠ [] := by simp [cookieText_cons, HttpCookie.pairText]
    refine ⟨e, List.mem_cons_of_mem c he, ?_⟩
    rw [← hlast, hsplit, List.getLast?_append_of_ne_nil _ hne]

theorem cookieText_trimmed {c : HttpCookie} {cs : List HttpCookie}
    (h : ∀ d ∈ c :: cs, d.Sendable) : Trimmed (cookieText (c :: cs)) ∧ cookieText (c :: cs) ≠ [] := by
  have hfirst := (h c (by simp)).isField
  have hne : cookieText (c :: cs) ≠ [] := by
    rw [cookieText_cons]
    simp [hfirst.2.2]
  refine ⟨⟨fun x hx => hfirst.2.1.1 x ?_, fun x hx => ?_⟩, hne⟩
  · rwa [cookieText_cons, List.head?_append_of_ne_nil _ hfirst.2.2] at hx
  · obtain ⟨d, hd, hlast⟩ := getLast?_cookieText c cs
    rw [hlast] at hx
    exact (h d hd).isField.2.1.2 x hx

theorem map_parse_cookieText (pf : Platform) {c : HttpCookie} {cs : List HttpCookie}
    (h : ∀ d ∈ c :: cs, d.Sendable) :
    (tokenize (cookieText (c :: cs)) (ascii ";")).map (HttpCookie.parse pf) =
      (c :: cs).map fun d => HttpCookie.assign pf .new d.name d.value := by
  have hrest : ∀ a ∈ cs.map HttpCookie.pairText, IsField a := by
    intro a ha
    obtain ⟨d, hd, rfl⟩ := List.mem_map.mp ha
    exact (h d (by simp [hd])).isField
  have htok : tokenize (cookieText (c :: cs)) (ascii ";") = (c :: cs).map HttpCookie.pairText := by
    rw [cookieText_cons, tokenize_fields (h c (by simp)).isField hrest]
    rfl
  rw [htok, List.map_map]
  exact List.map_congr_left fun d hd => parse_pairText pf (h d hd)

theorem setHeader_cookieLine (pf : Platform) {r : HttpRequest} (h : ∀ c ∈ r.cookies, c.Sendable) :
    (HttpHeader.new.setHeader pf r.cookieLine).cookies =
      r.cookies.map fun c => HttpCookie.assign pf .new c.name c.value := by
  cases hr : r.cookies with
  | nil =>
    have hline : r.cookieLine = [] := by rw [HttpRequest.cookieLine, hr]; rfl
    rw [hline, HttpHeader.setHeader_nil]
    rfl
  | cons c cs =>
    rw [hr] at h
    obtain ⟨htrim, hne⟩ := cookieText_trimmed h
    have hline : r.cookieLine = ascii "Cookie" ++ 58 :: ([32] ++ cookieText (c :: cs) ++ crlf) := by
      have hempty : (cookieText (c :: cs)).isEmpty = false := by simpa using hne
      simp only [HttpRequest.cookieLine, hr, hempty, Bool.false_eq_true, if_false]
      rfl
    have hfind : findFirstOf r.cookieLine (ascii ":") 0 = some (ascii "Cookie").length := by
      rw [hline]
      exact findFirstOf_append (by decide)
    have hkey : trim (r.cookieLine.take (ascii "Cookie").length) = ascii "Cookie" := by
      rw [hline, List.take_left]
      decide
    have hvalue : trim (r.cookieLine.drop ((ascii "Cookie").length + 1)) = cookieText (c :: cs) := by
      rw [hline, ← List.drop_drop, List.drop_left]
      exact trim_padded (by decide +kernel) htrim hne (by decide +kernel)
    have hcompare : compare (ascii "Cookie") (ascii "Cookie") = true := by decide
    simp only [HttpHeader.setHeader, hfind, hkey, hvalue, HttpHeader.setField, hcompare, if_true,
      map_parse_cookieText pf h, HttpHeader.new, List.nil_append]

/-- The names and the values that `set_header` reads from the `Cookie` line of a request are those
that were written, in the same order, exactly when no name is that of an attribute. -/
theorem cookie_header_reread_iff (pf : Platform) (r : HttpRequest)
    (h : ∀ c ∈ r.cookies, c.Sendable) :
    ((HttpHeader.new.setHeader pf r.cookieLine).cookies.map fun c => (c.name, c.value)) =
        (r.cookies.map fun c => (c.name, c.value)) ↔
      ∀ c ∈ r.cookies, c.name ∉ attributeNames := by
  rw [setHeader_cookieLine pf h, List.map_map, List.map_inj_left]
  refine forall₂_congr fun c hc => ?_
  constructor
  · intro hpair hname
    have hlost : (HttpCookie.assign pf .new c.name c.value).name = [] := (assign_attribute hname).1
    rw [Function.comp_apply, Prod.mk.injEq, hlost] at hpair
    exact (h c hc).name_ne hpair.1.symm
  · intro hname
    rw [Function.comp_apply, assign_ordinary hname]

namespace Sample

def requestWith (name : Bytes) : HttpRequest :=
  { HttpRequest.new with
    cookies := [{ HttpCookie.new with name := ascii "a", value := ascii "1" },
      { HttpCookie.new with name := name, value := ascii "2" }] }

theorem requestWith_sendable {name : Bytes} (hne : name ≠ []) (heq : 61 ∉ name) (h : 59 ∉ name)
    (ht : Trimmed name) : ∀ c ∈ (requestWith name).cookies, c.Sendable := by
  intro c hc
  simp only [requestWith, List.mem_cons, List.not_mem_nil, or_false] at hc
  obtain rfl | rfl := hc
  · refine ⟨by decide, by decide, fun s hs => ?_⟩
    simp only [List.mem_cons, List.not_mem_nil, or_false] at hs
    obtain rfl | rfl := hs
    · decide +kernel
    · decide +kernel
  · refine ⟨hne, heq, fun s hs => ?_⟩
    simp only [List.mem_cons, List.not_mem_nil, or_false] at hs
    obtain rfl | rfl := hs
    · exact ⟨h, ht⟩
    · decide +kernel

end Sample

theorem cookie_called_path_lost : (∀ c ∈ (Sample.requestWith (ascii "path")).cookies, c.Sendable) ∧
    ((HttpHeader.new.setHeader Sample.plainPlatform
        (Sample.requestWith (ascii "path")).cookieLine).cookies.map fun c => (c.name, c.value)) ≠
      (Sample.requestWith (ascii "path")).cookies.map fun c => (c.name, c.value) := by
  refine ⟨Sample.requestWith_sendable (by decide) (by decide) (by decide) (by decide +kernel), ?_⟩
  decide +kernel

theorem cookie_header_reread_two : ((HttpHeader.new.setHeader Sample.plainPlatform
        (Sample.requestWith (ascii "b")).cookieLine).cookies.map fun c => (c.name, c.value)) =
      (Sample.requestWith (ascii "b")).cookies.map fun c => (c.name, c.value) := by
  refine (cookie_header_reread_iff Sample.plainPlatform (Sample.requestWith (ascii "b"))
    (Sample.requestWith_sendable (by decide) (by decide) (by decide) (by decide +kernel))).mpr ?_
  decide +kernel

end Dcl.Http
