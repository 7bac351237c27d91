import Dcl.Foundations.Loop
import Dcl.Http.Header
import Mathlib.Data.List.Forall2

/-! # Looking up a header

`http_header` tells `Cookie` and `Set-Cookie` from other keys with `dbp::compare`, which compares through
`toupper`, and keeps the other keys in a map over `ci_less`, which compares through `tolower`. Both agree on
which keys are the same: those that differ in the case of ASCII letters only. -/
namespace Dcl.Http
set_option autoImplicit false

/-! ## Letter case -/

/-- `c` is a capital letter and `d` is the small one. -/
def CapitalOf (c d : UInt8) : Prop := 65 ≤ c.toNat ∧ c.toNat ≤ 90 ∧ d.toNat = c.toNat + 32

def SameLetter (c d : UInt8) : Prop := c = d ∨ CapitalOf c d ∨ CapitalOf d c

/-- The same text up to the case of ASCII letters. -/
def SameText (x y : Bytes) : Prop := List.Forall₂ SameLetter x y

instance (c d : UInt8) : Decidable (SameLetter c d) :=
  inferInstanceAs (Decidable (_ ∨ (_ ∧ _ ∧ _) ∨ _ ∧ _ ∧ _))

instance : DecidableRel SameText := inferInstanceAs (DecidableRel (List.Forall₂ SameLetter))

theorem toupper_toNat (c : UInt8) :
    (toupper c).toNat = if 97 ≤ c.toNat ∧ c.toNat ≤ 122 then c.toNat - 32 else c.toNat := by
  revert c
  refine forall_byte ?_
  decide +kernel

theorem tolower_toNat (c : UInt8) :
    (tolower c).toNat = if 65 ≤ c.toNat ∧ c.toNat ≤ 90 then c.toNat + 32 else c.toNat := by
  revert c
  refine forall_byte ?_
  decide +kernel

theorem toupper_eq_iff (c d : UInt8) : toupper c = toupper d ↔ SameLetter c d := by
  rw [← UInt8.toNat_inj, toupper_toNat, toupper_toNat, SameLetter, CapitalOf, CapitalOf, ← UInt8.toNat_inj]
  split_ifs <;> omega

theorem tolower_eq_iff (c d : UInt8) : tolower c = tolower d ↔ SameLetter c d := by
  rw [← UInt8.toNat_inj, tolower_toNat, tolower_toNat, SameLetter, CapitalOf, CapitalOf, ← UInt8.toNat_inj]
  split_ifs <;> omega

theorem compare_iff (x y : Bytes) : compare x y = true ↔ SameText x y := by
  rw [compare, SameText, List.forall₂_iff_zip, Bool.and_eq_true, beq_iff_eq, List.all_eq_true]
  simp only [Prod.forall, beq_iff_eq, toupper_eq_iff]

theorem sameText_iff (x y : Bytes) : SameText x y ↔ x.map toupper = y.map toupper := by
  rw [← List.forall₂_eq_eq_eq, List.forall₂_map_left_iff, List.forall₂_map_right_iff, SameText]
  simp only [toupper_eq_iff]

theorem ciLess_same_iff (x y : Bytes) :
    (ciLess x y = false ∧ ciLess y x = false) ↔ SameText x y := by
  induction x generalizing y with
  | nil =>
    cases y with
    | nil => simp [ciLess, SameText]
    | cons d y => simp [ciLess, SameText]
  | cons c x ih =>
    cases y with
    | nil => simp [ciLess, SameText]
    | cons d y =>
      rw [SameText, List.forall₂_cons, ← tolower_eq_iff, ← SameText, ← ih]
      simp only [ciLess, UInt8.lt_iff_toNat_lt, ← UInt8.toNat_inj]
      rcases lt_trichotomy (tolower c).toNat (tolower d).toNat with hlt | heq | hgt
      · simp [hlt, hlt.ne]
      · simp [heq]
      · simp [hgt, hgt.ne', hgt.not_gt]

theorem same_iff (x y : Bytes) : ciOrder.same x y = true ↔ SameText x y := by
  rw [← ciLess_same_iff, KeyOrder.same, Bool.and_eq_true, Bool.not_eq_true', Bool.not_eq_true']
  rfl

theorem same_eq (x y : Bytes) : ciOrder.same x y = decide (SameText x y) := by
  rw [Bool.eq_iff_iff, same_iff, decide_eq_true_iff]

/-! ## The last call decides -/

section Lookup
variable {pf : Platform}

/-- The key of a call that goes into the map. -/
def plainKey (key : Bytes) : Bool := !compare key (ascii "Cookie") && !compare key (ascii "Set-Cookie")

theorem setField_plain {key : Bytes} (h : plainKey key = true) (hd : HttpHeader) (value : Bytes) :
    hd.setField pf key value = { hd with headers := hd.headers.set key value } := by
  rw [plainKey, Bool.and_eq_true, Bool.not_eq_true', Bool.not_eq_true'] at h
  rw [HttpHeader.setField, if_neg (by simp [h.1]), if_neg (by simp [h.2])]

theorem setField_headers {key : Bytes} (h : plainKey key = false) (hd : HttpHeader) (value : Bytes) :
    (hd.setField pf key value).headers = hd.headers := by
  rw [HttpHeader.setField]
  split
  · rfl
  · split
    · rfl
    next h1 h2 => simp [plainKey, h1, h2] at h

/-- One call: the value is found again under every spelling of its key, and other keys keep theirs. -/
theorem getHeader_setField (k : Bytes) (hd : HttpHeader) (call : Bytes × Bytes) :
    (hd.setField pf call.1 call.2).getHeader k =
      if (plainKey call.1 && decide (SameText call.1 k)) = true then call.2 else hd.getHeader k := by
  cases hplain : plainKey call.1 with
  | false => simp [HttpHeader.getHeader, setField_headers hplain]
  | true =>
    rw [setField_plain hplain, Bool.true_and, HttpHeader.getHeader, HttpHeader.getHeader]
    by_cases hsame : SameText call.1 k
    · have hfind : (hd.headers.set call.1 call.2).find k = some call.2 := by
        rw [← OrderedMap.find_set hd.headers call.1 call.2]
        exact OrderedMap.find_congr ((same_iff _ _).mpr hsame)
      simp [hfind, hsame]
    · have hfind : (hd.headers.set call.1 call.2).find k = hd.headers.find k :=
        OrderedMap.find_set_of_not_same _ _ (by simp [same_eq, hsame])
      simp [hfind, hsame]

end Lookup

/-- A header that was set by calls with keys other than `Cookie` and `Set-Cookie` answers with the value of the
last call for the key it is asked for, and has one entry at most for the spellings of a key; `ci_less` is a
strict weak ordering, and two keys of which neither is less are the same for `dbp::compare`. -/
theorem get_header_last (pf : Platform) (calls : List (Bytes × Bytes))
    (h : ∀ c ∈ calls, ¬ SameText c.1 (ascii "Cookie") ∧ ¬ SameText c.1 (ascii "Set-Cookie")) :
    (∀ k, (calls.foldl (fun hd c => hd.setField pf c.1 c.2) HttpHeader.new).getHeader k =
      ((calls.filter fun c => SameText c.1 k).getLast?.map Prod.snd).getD []) ∧
    ((calls.foldl (fun hd c => hd.setField pf c.1 c.2) HttpHeader.new).headers.entries.Pairwise
      fun a b => ¬ SameText a.1 b.1) ∧
    (∀ x, ciLess x x = false) ∧
    (∀ x y z, ciLess x y = true → ciLess y z = true → ciLess x z = true) ∧
    (∀ x y z, ciLess x y = false ∧ ciLess y x = false → ciLess y z = false ∧ ciLess z y = false →
      ciLess x z = false ∧ ciLess z x = false) ∧
    ∀ x y, ciLess x y = false ∧ ciLess y x = false ↔ compare x y = true := by
  refine ⟨fun k => ?_, ?_, ciLess_irrefl, ciLess_trans, fun x y z hxy hyz => ?_, fun x y => ?_⟩
  · rw [Loop.foldl_last (g := fun hd => HttpHeader.getHeader hd k) (getHeader_setField k)]
    have hkey : ∀ c ∈ calls, plainKey c.1 = true := by
      intro c hc
      obtain ⟨h1, h2⟩ := h c hc
      rw [← compare_iff, Bool.not_eq_true] at h1 h2
      rw [plainKey, h1, h2]
      rfl
    rw [List.filter_congr fun c hc => by rw [hkey c hc, Bool.true_and]]
    rfl
  · refine List.Pairwise.imp (fun {a b} hlt hsame => ?_) (HttpHeader.headers _).sorted
    rw [← same_iff, KeyOrder.same_of_lt _ hlt] at hsame
    exact Bool.false_ne_true hsame
  · rw [ciLess_same_iff] at hxy hyz ⊢
    rw [← same_iff] at hxy hyz ⊢
    exact ciOrder.same_trans hxy hyz
  · rw [ciLess_same_iff, compare_iff]

/-- Two spellings of one key, with another one in between. -/
theorem get_header_last_spelling :
    (([(ascii "content-type", ascii "text/html"), (ascii "Host", ascii "x"),
      (ascii "Content-Type", ascii "text/plain")].foldl
        (fun hd c => hd.setField ⟨fun _ => 0, fun _ => [], false⟩ c.1 c.2) HttpHeader.new).getHeader
      (ascii "CONTENT-TYPE")) = ascii "text/plain" := by
  have h := (get_header_last ⟨fun _ => 0, fun _ => [], false⟩
    [(ascii "content-type", ascii "text/html"), (ascii "Host", ascii "x"),
      (ascii "Content-Type", ascii "text/plain")] (by decide +kernel)).1 (ascii "CONTENT-TYPE")
  rw [h]
  decide +kernel

end Dcl.Http
