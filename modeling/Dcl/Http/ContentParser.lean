import Dcl.Http.Content
import Dcl.Url.Escape

/-! # Parsing the content of a message

`src/dcl/http_content_parser.cpp`: the parser is chosen by the content type; the one for forms splits
the content at `&` and `=` and decodes the parts. The one for `multipart/form-data` is empty in the
source. -/
namespace Dcl.Http
set_option autoImplicit false

structure ContentElement where
  name : Bytes
  value : Bytes
  deriving DecidableEq

/-- The classes of `http_parser`. -/
inductive ContentParser where
  | generic | urlencoded | formData
  deriving DecidableEq

def formDataType : Bytes := ascii "multipart/form-data"

def urlencodedType : Bytes := ascii "application/x-www-form-urlencoded"

/-- `f.create(ct)`; a type that is not registered gets the generic parser. -/
def ContentParser.create (ct : Bytes) : ContentParser :=
  if ct = formDataType then .formData else if ct = urlencodedType then .urlencoded else .generic

def ContentParser.ofHeader (h : HttpHeader) : ContentParser :=
  .create (trim (tokenizePair h.getContentType [] [] false (ascii ";")).1)

def formElement (i : Bytes) : ContentElement :=
  let pv := tokenizePair i [] [] false (ascii "=")
  ⟨Url.decode pv.1, Url.decode pv.2⟩

/-- `parse`, on the buffer, if there is one, and its size. -/
def ContentParser.parse (p : ContentParser) (buf : Option Bytes) (size : ℕ) : List ContentElement :=
  match p, buf with
  | .generic, some buf => if 0 < size then [⟨ascii "content", buf.take size⟩] else []
  | .urlencoded, some buf => (tokenize (cString buf) (ascii "&")).map formElement
  | _, _ => []

/-- `http_content_parser(header).parse()`. -/
def parseContent (h : HttpHeader) : List ContentElement :=
  (ContentParser.ofHeader h).parse (if h.content.isEmpty then none else some h.content)
    (toSize h.getContentSize)

/-! ## Forms -/

def formPair (e : ContentElement) : Bytes := Url.encode e.name ++ 61 :: Url.encode e.value

def formText (es : List ContentElement) : Bytes := [38].intercalate (es.map formPair)

/-- The strings of an element fit an `int`, also when they are encoded. -/
structure ContentElement.Fits (e : ContentElement) : Prop where
  name : e.name.length < 2 ^ 31 ∧ (Url.encode e.name).length < 2 ^ 31
  value : e.value.length < 2 ^ 31 ∧ (Url.encode e.value).length < 2 ^ 31

theorem ofHeader_urlencoded {h : HttpHeader}
    (hct : h.getContentType = urlencodedType ∨ ∃ ps, h.getContentType = urlencodedType ++ 59 :: ps) :
    ContentParser.ofHeader h = .urlencoded := by
  have hpair : (tokenizePair h.getContentType [] [] false (ascii ";")).1 = urlencodedType := by
    obtain hct | ⟨ps, hct⟩ := hct
    · rw [hct]
      exact congrArg Prod.fst (tokenizePair_whole (by decide) [])
    · rw [hct]
      exact congrArg Prod.fst (tokenizePair_split (by decide) [] [])
  rw [ContentParser.ofHeader, hpair]
  decide

theorem formPair_clean (e : ContentElement) : ∀ x ∈ formPair e, x ≠ 0 ∧ x ≠ 38 ∧
    blanks.contains x = false := by
  intro x hx
  obtain hx | hx := List.mem_append.mp hx
  · obtain ⟨h0, h38, _, hb⟩ := Url.encode_clean e.name x hx
    exact ⟨h0, h38, hb⟩
  · obtain rfl | hx := List.mem_cons.mp hx
    · decide
    · obtain ⟨h0, h38, _, hb⟩ := Url.encode_clean e.value x hx
      exact ⟨h0, h38, hb⟩

theorem formElement_formPair {e : ContentElement} (he : e.Fits) : formElement (formPair e) = e := by
  have hpair : tokenizePair (formPair e) [] [] false (ascii "=") =
      (Url.encode e.name, Url.encode e.value) :=
    tokenizePair_split (fun h => (Url.encode_clean e.name 61 h).2.2.1 rfl) [] []
  rw [formElement, hpair]
  simp only [Url.decode_encode he.name.1 he.name.2, Url.decode_encode he.value.1 he.value.2]

theorem trimmed_of_not_blank {s : Bytes} (h : ∀ x ∈ s, blanks.contains x = false) : Trimmed s :=
  ⟨fun c hc => h c (List.mem_of_mem_head? hc), fun c hc => h c (List.mem_of_mem_getLast? hc)⟩

theorem not_mem_formPair {es : List ContentElement} : ∀ p ∈ es.map formPair, (38 : UInt8) ∉ p := by
  intro p hp hmem
  obtain ⟨e, _, rfl⟩ := List.mem_map.mp hp
  exact (formPair_clean e 38 hmem).2.1 rfl

theorem formText_cons_cons (e e' : ContentElement) (es : List ContentElement) :
    formText (e :: e' :: es) = formPair e ++ 38 :: formText (e' :: es) := by
  rw [formText, List.map_cons, List.map_cons, List.intercalate_cons_cons]
  simp [formText]

theorem formText_ne_nil {es : List ContentElement} (h : es ≠ []) : formText es ≠ [] := by
  match es with
  | [e] => simp [formText, formPair]
  | e :: e' :: es =>
    rw [formText_cons_cons]
    simp

theorem formText_concat {es : List ContentElement} (h : es ≠ []) (e : ContentElement) :
    formText (es ++ [e]) = formText es ++ 38 :: formPair e := by
  induction es with
  | nil => exact absurd rfl h
  | cons d es ih =>
    cases es with
    | nil => simp [formText, List.intercalate_cons_cons]
    | cons d' es =>
      rw [List.cons_append, List.cons_append, formText_cons_cons, formText_cons_cons,
        ← List.cons_append, ih (by simp), List.append_assoc, List.cons_append]

theorem formText_ne_zero (es : List ContentElement) : ∀ x ∈ formText es, x ≠ 0 := by
  induction es with
  | nil => simp [formText]
  | cons e es ih =>
    intro x hx
    cases es with
    | nil =>
      rw [formText, List.map_singleton, List.intercalate_singleton] at hx
      exact (formPair_clean e x hx).1
    | cons e' es =>
      rw [formText_cons_cons, List.mem_append, List.mem_cons] at hx
      obtain hx | rfl | hx := hx
      · exact (formPair_clean e x hx).1
      · decide
      · exact ih x hx

theorem formText_elements {es : List ContentElement} (h : ∀ e ∈ es, e.Fits) :
    (tokenize (formText es) (ascii "&")).map formElement = es := by
  by_cases hne : es = []
  · subst hne
    rfl
  have htokens : tokenize (formText es) (ascii "&") = (es.map formPair).map trim :=
    tokenize_intercalate not_mem_formPair (formText_ne_nil hne)
  rw [htokens, List.map_map, List.map_map]
  conv_rhs => rw [← List.map_id es]
  refine List.map_congr_left fun e he => ?_
  have hself : trim (formPair e) = formPair e :=
    trim_eq_self (trimmed_of_not_blank fun x hx => (formPair_clean e x hx).2.2)
  simp only [Function.comp_apply, hself, id_eq, formElement_formPair (h e he)]

/-! ## What is left of a form that is stored as content -/

theorem getContentType_storeContent (h : HttpHeader) (size : ℤ) (s : Bytes) :
    (h.storeContent size s).getContentType = h.getContentType := by
  have hkey : ciOrder.same contentLength (ascii "Content-Type") = false := by decide
  rw [HttpHeader.getContentType, HttpHeader.storeContent, OrderedMap.find_set_of_not_same _ _ hkey]
  rfl

/-- A fresh header keeps as many bytes as the size says. -/
theorem content_storeContent {h : HttpHeader} (hnew : h.content = []) (size : ℤ) (s : Bytes) :
    (h.storeContent size s).content = s.take size.toNat ++ [0] := by
  rw [HttpHeader.storeContent]
  split
  next => simp [hnew]
  next hpos =>
    have hzero : size.toNat = 0 := by omega
    simp [hnew, hzero]

/-- What the form parser makes of a string that was stored as the content of a fresh header. -/
theorem parseContent_urlencoded {h : HttpHeader} (hnew : h.content = [])
    (hct : h.getContentType = urlencodedType ∨ ∃ ps, h.getContentType = urlencodedType ++ 59 :: ps)
    (b : Bytes) :
    (h.setContentString b).map parseContent =
      if toInt32 b.length + 1 = 2 ^ 31 then none
      else some ((tokenize (cString (b.take (toInt32 b.length).toNat ++ [0])) (ascii "&")).map formElement) := by
  have hparser : ContentParser.ofHeader (h.storeContent (toInt32 b.length) b) = .urlencoded := by
    apply ofHeader_urlencoded
    rwa [getContentType_storeContent]
  have hcontent := content_storeContent hnew (toInt32 b.length) b
  have hempty : (h.storeContent (toInt32 b.length) b).content.isEmpty = false := by
    rw [hcontent]
    simp
  rw [HttpHeader.setContentString_eq]
  split_ifs
  · rfl
  · rw [Option.map_some, parseContent, hparser, hempty]
    simp only [Bool.false_eq_true, if_false, ContentParser.parse, hcontent]

theorem parseContent_form {h : HttpHeader} (hnew : h.content = [])
    (hct : h.getContentType = urlencodedType ∨ ∃ ps, h.getContentType = urlencodedType ++ 59 :: ps)
    (es : List ContentElement) :
    (h.setContentString (formText es)).map parseContent =
      if toInt32 (formText es).length + 1 = 2 ^ 31 then none
      else some ((tokenize ((formText es).take (toInt32 (formText es).length).toNat) (ascii "&")).map formElement) := by
  rw [parseContent_urlencoded hnew hct,
    cString_nul fun h0 => formText_ne_zero es 0 (List.mem_of_mem_take h0) rfl]

theorem length_splitOn (s : Bytes) (d : UInt8) : (s.splitOn d).length = s.count d + 1 := by
  induction s with
  | nil => rfl
  | cons c s ih =>
    rw [List.splitOn_cons_eq_if_modifyHead, List.count_cons]
    split
    next => rw [List.length_cons, ih]
    next => rw [List.length_modifyHead, ih, Nat.add_zero]

theorem length_tokenize {s : Bytes} (h : s ≠ []) (d : UInt8) :
    (tokenize s [d]).length = s.count d + 1 := by
  rw [tokenize_eq h, List.length_map, length_splitOn]

/-- A length of 2^31 bytes or more does not survive the conversion to `int`: 2^32 bytes or more are
missing, or everything is. -/
theorem toInt32_loses {n : ℕ} (h : 2 ^ 31 ≤ n) :
    (toInt32 n).toNat = 0 ∨ (toInt32 n).toNat + 2 ^ 32 ≤ n := by
  unfold toInt32
  rw [Int.bmod_def]
  omega

theorem ContentElement.Fits.length_formPair {e : ContentElement} (h : e.Fits) :
    (formPair e).length < 2 ^ 32 := by
  have hname := h.name.2
  have hvalue := h.value.2
  rw [formPair, List.length_append, List.length_cons]
  omega

/-- When that many bytes are missing, the last pair is missing with its separator. -/
theorem length_cut_form {es : List ContentElement} (h : ∀ e ∈ es, e.Fits) {m : ℕ}
    (hm : m + 2 ^ 32 ≤ (formText es).length) :
    (tokenize ((formText es).take m) (ascii "&")).length < es.length := by
  obtain rfl | ⟨init, e, rfl⟩ := List.eq_nil_or_concat' es
  · simp [formText] at hm
  have hlast := (h e (by simp)).length_formPair
  by_cases hinit : init = []
  · -- one pair alone is shorter than 2^32 bytes
    subst hinit
    simp [formText] at hm
    omega
  rw [formText_concat hinit, List.length_append, List.length_cons] at hm
  have htake : (formText (init ++ [e])).take m = (formText init).take m := by
    rw [formText_concat hinit, List.take_append_of_le_length (by omega)]
  rw [htake, List.length_append, List.length_singleton]
  by_cases hcut : (formText init).take m = []
  · rw [hcut]
    simp [tokenize]
  have hall : (tokenize (formText init) (ascii "&")).length = init.length := by
    have hmap := congrArg List.length (formText_elements fun d hd => h d (List.mem_append_left _ hd))
    rwa [List.length_map] at hmap
  have hcount : ((formText init).take m).count 38 ≤ (formText init).count 38 :=
    (List.take_sublist m _).count_le 38
  have hcutLength : (tokenize ((formText init).take m) (ascii "&")).length =
      ((formText init).take m).count 38 + 1 := length_tokenize hcut 38
  have hwhole : (tokenize (formText init) (ascii "&")).length = (formText init).count 38 + 1 :=
    length_tokenize (formText_ne_nil hinit) 38
  omega

/-- A list of pairs stored as the content of a fresh header is parsed back exactly when its text is shorter than
2^31 - 1 bytes (at that length `set_content` throws, and from the next one on the length is no `int`); the two
directions of the encoding are inverse for every string. -/
theorem form_reread_iff {h : HttpHeader} (hnew : h.content = [])
    (hct : h.getContentType = urlencodedType ∨ ∃ ps, h.getContentType = urlencodedType ++ 59 :: ps)
    {es : List ContentElement} (hfits : ∀ e ∈ es, e.Fits) :
    (∀ s : Bytes, s.length < 2 ^ 31 → (Url.encode s).length < 2 ^ 31 → Url.decode (Url.encode s) = s) ∧
      ((h.setContentString (formText es)).map parseContent = some es ↔ (formText es).length + 1 < 2 ^ 31) := by
  refine ⟨fun s => Url.decode_encode, ?_⟩
  rw [parseContent_form hnew hct]
  constructor
  · intro hparse
    split_ifs at hparse with hthrows
    by_contra hlong
    have hne : (formText es).length + 1 ≠ 2 ^ 31 := by
      intro hlen
      rw [toInt32_of_lt (by omega)] at hthrows
      exact hthrows (by omega)
    have hlen := congrArg List.length (Option.some.inj hparse)
    rw [List.length_map] at hlen
    obtain hm | hm := toInt32_loses (n := (formText es).length) (by omega)
    · rw [hm, List.take_zero] at hlen
      have hnil : es = [] := List.length_eq_zero_iff.mp hlen.symm
      subst hnil
      exact hlong (by decide)
    · exact absurd hlen (Nat.ne_of_lt (length_cut_form hfits hm))
  · intro hshort
    rw [toInt32_of_lt (by omega), if_neg (by omega), Int.toNat_natCast, List.take_length]
    exact congrArg some (formText_elements hfits)

namespace Sample

def formHeader : HttpHeader :=
  HttpHeader.new.setContentType (ascii "application/x-www-form-urlencoded; charset=utf-8")

def formPairs : List ContentElement := [⟨ascii "a b", ascii "1=2&3"⟩, ⟨[], [0, 255]⟩]

def longPair (n : ℕ) : ContentElement := ⟨List.replicate n 97, List.replicate n 97⟩

theorem encode_letters {n : ℕ} (h : n < 2 ^ 31) :
    Url.encode (List.replicate n 97) = List.replicate n 97 := by
  have hplain : Url.escape 97 = [97] := by decide
  rw [Url.encode_eq (by rwa [List.length_replicate]), List.flatMap_replicate, hplain,
    List.flatten_replicate_singleton]

theorem longPair_fits {n : ℕ} (h : n < 2 ^ 31) : (longPair n).Fits := by
  constructor
  · rw [longPair, encode_letters h, List.length_replicate]
    exact ⟨h, h⟩
  · rw [longPair, encode_letters h, List.length_replicate]
    exact ⟨h, h⟩

theorem length_longPair {n : ℕ} (h : n < 2 ^ 31) : (formText [longPair n]).length = 2 * n + 1 := by
  rw [formText, List.map_singleton, List.intercalate_singleton, formPair, longPair, encode_letters h,
    List.length_append, List.length_cons, List.length_replicate]
  omega

theorem formHeader_type : ∃ ps, formHeader.getContentType = urlencodedType ++ 59 :: ps :=
  ⟨ascii " charset=utf-8", by decide +kernel⟩

end Sample

theorem form_reread_two :
    (Sample.formHeader.setContentString (formText Sample.formPairs)).map parseContent = some Sample.formPairs := by
  refine ((form_reread_iff (h := Sample.formHeader) rfl (Or.inr Sample.formHeader_type) ?_).2).mpr ?_
  · intro e he
    simp only [Sample.formPairs, List.mem_cons, List.not_mem_nil, or_false] at he
    obtain rfl | rfl := he
    · exact ⟨by decide +kernel, by decide +kernel⟩
    · exact ⟨by decide +kernel, by decide +kernel⟩
  · decide +kernel

/-- Two strings of 2^30 bytes: the size of the content becomes negative and nothing is stored. -/
theorem long_form_lost : Sample.formHeader.content = [] ∧ (Sample.longPair (2 ^ 30)).Fits ∧
    (Sample.formHeader.setContentString (formText [Sample.longPair (2 ^ 30)])).map parseContent = some [] ∧
    (Sample.formHeader.setContentString (formText [Sample.longPair (2 ^ 30)])).map parseContent ≠
      some [Sample.longPair (2 ^ 30)] := by
  have hn : 2 ^ 30 < 2 ^ 31 := by norm_num
  have hsize : (toInt32 (2 * 2 ^ 30 + 1 : ℕ)).toNat = 0 := by decide
  have hstored : ¬toInt32 (2 * 2 ^ 30 + 1 : ℕ) + 1 = 2 ^ 31 := by decide
  have hnothing :
      (Sample.formHeader.setContentString (formText [Sample.longPair (2 ^ 30)])).map parseContent = some [] := by
    rw [parseContent_form rfl (Or.inr Sample.formHeader_type), Sample.length_longPair hn, if_neg hstored, hsize,
      List.take_zero]
    rfl
  refine ⟨rfl, Sample.longPair_fits hn, hnothing, ?_⟩
  rw [hnothing]
  exact fun h => List.cons_ne_nil _ _ (Option.some.inj h).symm

end Dcl.Http
