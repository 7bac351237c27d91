import Dcl.Web.Applications

/-! # The header fields the front ends send

CGI and ISAPI write a line for every header and every cookie of a response. Apache's front end sets
them in the table `headers_out`, which keeps one entry for a name: of several cookies only the last is
left. Names and values pass through C strings on the way. -/
namespace Dcl.Web
open Http
set_option autoImplicit false

/-! ## Names without regard to case -/

theorem map_tolower_of_same {a b : Bytes} (h : ciOrder.same a b = true) :
    a.map tolower = b.map tolower := by
  have h' : ciLess a b = false ∧ ciLess b a = false := by
    simpa [KeyOrder.same, ciOrder] using h
  clear h
  induction a generalizing b with
  | nil =>
    cases b with
    | nil => rfl
    | cons d b => exact absurd h'.1 (by simp [ciLess])
  | cons c a ih =>
    cases b with
    | nil => exact absurd h'.2 (by simp [ciLess])
    | cons d b =>
      simp only [ciLess] at h'
      have hcd : ¬tolower c < tolower d := fun h => by simp [h] at h'
      have hdc : ¬tolower d < tolower c := fun h => by simp [h] at h'
      simp only [hcd, hdc, if_false] at h'
      rw [List.map_cons, List.map_cons, ih h', UInt8.le_antisymm (UInt8.not_lt.mp hdc)
        (UInt8.not_lt.mp hcd)]

theorem eq_zero_of_tolower {c : UInt8} (h : tolower c = 0) : c = 0 := by
  unfold tolower at h
  split at h
  next hc =>
    -- an upper case letter does not become a NUL
    have hsum := congrArg UInt8.toNat h
    simp only [UInt8.le_iff_toNat_le, UInt8.toNat_add, UInt8.reduceToNat] at hc hsum
    omega
  next => exact h

theorem nul_notMem_of_same (a b : Bytes) (h : ciOrder.same a b = true) (hb : 0 ∉ b) : 0 ∉ a := by
  intro ha
  have hmem : (0 : UInt8) ∈ a.map tolower := List.mem_map.mpr ⟨0, ha, rfl⟩
  rw [map_tolower_of_same h] at hmem
  obtain ⟨c, hc, hc0⟩ := List.mem_map.mp hmem
  rw [eq_zero_of_tolower hc0] at hc
  exact hb hc

/-! ## The fields that are compared -/

def setCookie : Bytes := ascii "Set-Cookie"

/-- A field other than `Content-Length` and `Content-Type`. -/
def isCompared (e : Bytes × Bytes) : Bool :=
  !ciOrder.same e.1 contentLength && !ciOrder.same e.1 (ascii "Content-Type")

def compared (fs : List (Bytes × Bytes)) : List (Bytes × Bytes) := fs.filter isCompared

/-- What `apache_application` puts into the table, in order and before the strings are cut. -/
def apacheFields (pf : Platform) (r : HttpResponse) : List (Bytes × Bytes) :=
  (r.headers.entries.filter fun e =>
    decide (e.1 ≠ ascii "Content-Length" ∧ e.1 ≠ ascii "Content-Type")) ++
  r.cookies.map fun c => (setCookie, c.str pf)

def cStrings (e : Bytes × Bytes) : Bytes × Bytes := (cString e.1, cString e.2)

theorem apache_headersOut (apr : AprTable) (pf : Platform) (r : HttpResponse) (t : apr.Table) :
    (apacheSendResponse apr pf r t).headersOut = apr.setAll t ((apacheFields pf r).map cStrings) := by
  have hcookie : cString (ascii "Set-Cookie") = ascii "Set-Cookie" := by decide
  rw [apacheFields, List.map_append, KeyedTable.setAll, List.foldl_append, List.foldl_map,
    List.foldl_map, List.foldl_map, List.foldl_filter]
  simp only [apacheSendResponse, cStrings, setCookie, hcookie, decide_eq_true_iff]

theorem apacheFields_compared (pf : Platform) (r : HttpResponse) :
    compared (apacheFields pf r) = compared (r.fields pf) := by
  rw [compared, compared, apacheFields, HttpResponse.fields, List.filter_append, List.filter_append,
    List.filter_filter]
  refine congrArg (· ++ _) (List.filter_congr fun e _ => ?_)
  cases h : isCompared e with
  | false => rfl
  | true =>
    simp only [isCompared, Bool.and_eq_true, Bool.not_eq_true', ← Bool.not_eq_true] at h
    rw [Bool.true_and, decide_eq_true_iff]
    refine ⟨fun hl => h.1 ?_, fun ht => h.2 ?_⟩
    · rw [hl]
      exact ciOrder.same_refl _
    · rw [ht]
      exact ciOrder.same_refl _

/-! ## One field for each name -/

theorem fields_apart_iff (pf : Platform) (r : HttpResponse) :
    (r.fields pf).countP (fun e => ciOrder.same e.1 setCookie) ≤ 1 ↔ ciOrder.Apart (r.fields pf) := by
  refine ⟨fun h => ?_, fun h => h.countP_le_one setCookie⟩
  have hcookies : (r.cookies.map fun c => (ascii "Set-Cookie", c.str pf)).countP
      (fun e => ciOrder.same e.1 setCookie) = r.cookies.length := by
    rw [List.countP_map]
    exact List.countP_eq_length.mpr fun c _ => ciOrder.same_refl _
  rw [HttpResponse.fields, List.countP_append, hcookies] at h
  refine List.pairwise_append.mpr ⟨r.headers.apart, ?_, ?_⟩
  · rcases hc : r.cookies with - | ⟨c, - | ⟨d, cs⟩⟩
    · exact List.Pairwise.nil
    · exact List.pairwise_singleton _ _
    · rw [hc, List.length_cons, List.length_cons] at h
      omega
  · intro e he f hf
    obtain ⟨c, hc, rfl⟩ := List.mem_map.mp hf
    have hpos := List.length_pos_of_mem hc
    have hzero : r.headers.entries.countP (fun e => ciOrder.same e.1 setCookie) = 0 := by omega
    exact Bool.eq_false_iff.mpr (List.countP_eq_zero.mp hzero e he)

theorem isCompared_setCookie {e : Bytes × Bytes} (h : ciOrder.same e.1 setCookie = true) :
    isCompared e = true := by
  have hother : ∀ k, ciOrder.same setCookie k = false → ciOrder.same e.1 k = false := by
    intro k hk
    rw [ciOrder.same_comm] at hk ⊢
    exact KeyOrder.not_same_trans hk (ciOrder.same_comm e.1 setCookie ▸ h)
  rw [isCompared, hother contentLength (by decide), hother (ascii "Content-Type") (by decide)]
  rfl

theorem countP_compared (fs : List (Bytes × Bytes)) :
    (compared fs).countP (fun e => ciOrder.same e.1 setCookie) =
      fs.countP fun e => ciOrder.same e.1 setCookie := by
  rw [compared, List.countP_filter]
  refine List.countP_congr fun e _ => ?_
  rw [Bool.and_eq_true, and_iff_left_iff_imp]
  exact isCompared_setCookie

/-- Cutting the strings changes no name and no compared field when these have no NUL. -/
theorem compared_cStrings {fs : List (Bytes × Bytes)}
    (h : ∀ e ∈ compared fs, 0 ∉ e.1 ∧ 0 ∉ e.2) :
    (∀ e ∈ fs, (cStrings e).1 = e.1) ∧ compared (fs.map cStrings) = compared fs := by
  have hname : ∀ e ∈ fs, (cStrings e).1 = e.1 := by
    intro e he
    refine cString_eq_self ?_
    cases hc : isCompared e with
    | true => exact (h e (List.mem_filter.mpr ⟨he, hc⟩)).1
    | false =>
      -- the other names are spellings of two constants
      rw [isCompared, Bool.and_eq_false_iff, Bool.not_eq_false', Bool.not_eq_false'] at hc
      obtain hc | hc := hc
      · exact nul_notMem_of_same e.1 contentLength hc (by decide)
      · exact nul_notMem_of_same e.1 (ascii "Content-Type") hc (by decide)
  refine ⟨hname, ?_⟩
  have hsame : ∀ e ∈ fs, isCompared (cStrings e) = isCompared e := fun e he => by
    rw [isCompared, isCompared, hname e he]
  have hid : ∀ e ∈ compared fs, cStrings e = e := fun e he =>
    Prod.ext (hname e (List.mem_filter.mp he).1) (cString_eq_self (h e he).2)
  have hfilter : fs.filter (isCompared ∘ cStrings) = compared fs := List.filter_congr hsame
  rw [compared, List.filter_map, hfilter, List.map_congr_left hid, List.map_id']

theorem apacheFields_apart {pf : Platform} {r : HttpResponse} (h : ciOrder.Apart (r.fields pf)) :
    ciOrder.Apart (apacheFields pf r) :=
  h.sublist (List.filter_sublist.append (List.Sublist.refl _))

theorem apart_cStrings {fs : List (Bytes × Bytes)} (hname : ∀ e ∈ fs, (cStrings e).1 = e.1)
    (h : ciOrder.Apart fs) : ciOrder.Apart (fs.map cStrings) := by
  refine List.pairwise_map.mpr (List.Pairwise.imp_of_mem ?_ h)
  intro a b ha hb hab
  rw [hname a ha, hname b hb]
  exact hab

/-! ## What is left in the table -/

theorem headersOut_clean (apr : AprTable) (pf : Platform) (r : HttpResponse) :
    ∀ e ∈ apr.entries (apacheSendResponse apr pf r apr.make).headersOut, 0 ∉ e.1 ∧ 0 ∉ e.2 := by
  rw [apache_headersOut]
  refine apr.setAll_forall (Q := fun v => 0 ∉ v) nul_notMem_of_same ?_ ?_
  · intro e he
    obtain ⟨f, -, rfl⟩ := List.mem_map.mp he
    exact ⟨nul_notMem_cString f.1, nul_notMem_cString f.2⟩
  · simp [apr.entries_make]

theorem headersOut_apart (apr : AprTable) (pf : Platform) (r : HttpResponse) :
    ciOrder.Apart (apr.entries (apacheSendResponse apr pf r apr.make).headersOut) := by
  rw [apache_headersOut]
  refine apr.setAll_apart _ ?_
  rw [apr.entries_make]
  exact List.Pairwise.nil

/-- With one field for each name and no NUL, the table holds the fields. -/
theorem headersOut_perm (apr : AprTable) {pf : Platform} {r : HttpResponse}
    (hone : ciOrder.Apart (r.fields pf)) (hnul : ∀ e ∈ compared (r.fields pf), 0 ∉ e.1 ∧ 0 ∉ e.2) :
    (compared (apr.entries (apacheSendResponse apr pf r apr.make).headersOut)).Perm
      (compared (r.fields pf)) := by
  rw [← apacheFields_compared] at hnul ⊢
  obtain ⟨hname, hcompared⟩ := compared_cStrings hnul
  have hapart := apart_cStrings hname (apacheFields_apart hone)
  have hperm := apr.setAll_fresh ((apacheFields pf r).map cStrings) (t := apr.make)
    (by rwa [apr.entries_make, List.nil_append])
  rw [apr.entries_make, List.nil_append] at hperm
  rw [apache_headersOut, ← hcompared]
  exact hperm.filter _

def fieldText (fs : List (Bytes × Bytes)) : Bytes := fs.flatMap fun e => fieldLine e ++ crlf

/-- CGI and ISAPI write the fields of the response as they are. Apache sends the same ones, apart from
the content's length and type, exactly when no two are named `Set-Cookie` and none has a NUL. -/
theorem front_ends_agree_iff (apr : AprTable) (writeClient : Bytes → Bool) (pf : Platform)
    (r : HttpResponse) :
    cgiSendResponse pf r = ascii "Status: " ++ r.getStatus ++ crlf ++
        (fieldText (r.fields pf) ++ (crlf ++ r.content.take r.getContentSize.toNat)) ∧
      (isapiSendResponse writeClient pf r).header = fieldText (r.fields pf) ++ crlf ∧
      ((compared (apr.entries (apacheSendResponse apr pf r apr.make).headersOut)).Perm
          (compared (r.fields pf)) ↔
        (r.fields pf).countP (fun e => ciOrder.same e.1 setCookie) ≤ 1 ∧
          ∀ e ∈ compared (r.fields pf), 0 ∉ e.1 ∧ 0 ∉ e.2) := by
  refine ⟨?_, ?_, fun h => ⟨?_, ?_⟩, fun h => ?_⟩
  · rw [cgiSendResponse, response_output_eq, List.flatMap_map]
    rfl
  · rw [fieldText, HttpResponse.fields, List.flatMap_append, List.flatMap_map]
    rfl
  · have hapart : ciOrder.Apart (compared (r.fields pf)) :=
      KeyOrder.Apart.perm ((headersOut_apart apr pf r).filter _) h
    rw [← countP_compared]
    exact hapart.countP_le_one setCookie
  · intro e he
    have hmem := (List.mem_filter.mp (h.mem_iff.mpr he)).1
    exact headersOut_clean apr pf r e hmem
  · exact headersOut_perm apr ((fields_apart_iff pf r).mp h.1) h.2

/-- Two cookies: the first is lost. -/
theorem apache_loses_cookie :
    let a : HttpCookie := { HttpCookie.new with name := ascii "a", value := ascii "1" }
    let b : HttpCookie := { HttpCookie.new with name := ascii "b", value := ascii "2" }
    let r : HttpResponse := { HttpResponse.new with cookies := [a, b] }
    let apr : AprTable := .list ciOrder Bytes
    compared (r.fields Sample.platform) =
        [(setCookie, ascii "a=1"), (setCookie, ascii "b=2")] ∧
      compared (apr.entries (apacheSendResponse apr Sample.platform r apr.make).headersOut) =
        [(setCookie, ascii "b=2")] ∧
      ¬(compared (apr.entries (apacheSendResponse apr Sample.platform r apr.make).headersOut)).Perm
        (compared (r.fields Sample.platform)) := by
  decide +kernel

end Dcl.Web
