import Dcl.Http.ContentParser

/-! # The whole body of a form

The parser for forms is handed the content as a C string, so that it sees no more of it than what stands
before the first NUL. `formSegments` is what is in the body: an element for every segment between the `&`. -/
namespace Dcl.Http
set_option autoImplicit false

/-! ## Segments -/

/-- The element a trimmed segment stands for: what is before its first `=`, and what is behind it. -/
def segmentElement (t : Bytes) : ContentElement :=
  ⟨Url.decodeFrom (t.takeWhile (· != 61)), Url.decodeFrom ((t.dropWhile (· != 61)).drop 1)⟩

def formSegments (b : Bytes) : List ContentElement :=
  (b.splitOn 38).map fun segment => segmentElement (trim segment)

section Elements
variable {t n v : Bytes}

theorem segmentElement_pair (hn : 61 ∉ n) (v : Bytes) :
    segmentElement (n ++ 61 :: v) = ⟨Url.decodeFrom n, Url.decodeFrom v⟩ := by
  rw [segmentElement, takeWhile_bne_append hn, dropWhile_bne_append hn]
  rfl

theorem segmentElement_word (ht : 61 ∉ t) : segmentElement t = ⟨Url.decodeFrom t, []⟩ := by
  rw [segmentElement, takeWhile_bne_self ht, List.dropWhile_eq_nil_iff.mpr (forall_mem_bne ht)]
  rfl

/-- The parser reads a segment as the text has it, as long as its length is an `int`. -/
theorem formElement_eq (h : t.length < 2 ^ 31) : formElement t = segmentElement t := by
  by_cases heq : 61 ∈ t
  · obtain ⟨n, v, rfl, hn⟩ := List.eq_append_cons_of_mem heq
    have hpair : tokenizePair (n ++ 61 :: v) [] [] false (ascii "=") = (n, v) := tokenizePair_split hn [] []
    rw [List.length_append, List.length_cons] at h
    rw [formElement, hpair, segmentElement_pair hn]
    dsimp only
    rw [Url.decode_eq (by omega), Url.decode_eq (by omega)]
  · have hpair : tokenizePair t [] [] false (ascii "=") = (t, []) := tokenizePair_whole heq []
    rw [formElement, hpair, segmentElement_word heq]
    dsimp only
    rw [Url.decode_eq h]
    rfl

theorem length_trim_le (s : Bytes) : (trim s).length ≤ s.length := by
  obtain ⟨x, y, hs, -, -⟩ := exists_trim s
  have hlen := congrArg List.length hs
  simp only [List.length_append] at hlen
  omega

theorem length_segment_le {b segment : Bytes} (h : segment ∈ b.splitOn 38) : segment.length ≤ b.length := by
  obtain ⟨-, x, y, rfl⟩ := exists_of_mem_splitOn h
  simp only [List.length_append]
  omega

theorem elements_of_short {b : Bytes} (hb : b ≠ []) (h : b.length < 2 ^ 31) :
    (tokenize b (ascii "&")).map formElement = formSegments b := by
  have htok : tokenize b (ascii "&") = (b.splitOn 38).map trim := tokenize_eq hb 38
  rw [htok, List.map_map, formSegments]
  refine List.map_congr_left fun segment hs => formElement_eq ?_
  have := length_trim_le segment
  have := length_segment_le hs
  omega

end Elements

/-! ## A NUL in the body -/

section Nul
variable {c : UInt8}

/-- What begins with no hexadecimal digit is decoded for itself: no escape reaches into it. -/
theorem decodeFrom_append (hc : isxdigit c = false) (a r : Bytes) :
    Url.decodeFrom (a ++ c :: r) = Url.decodeFrom a ++ Url.decodeFrom (c :: r) := by
  induction a using Url.decodeFrom.induct with
  | case1 => rfl
  | case2 d x y rest hescape ih =>
    simp only [List.cons_append, Url.decodeFrom, if_pos hescape, ih]
  | case3 d x y rest hplain ih =>
    simp only [List.cons_append] at ih
    simp only [List.cons_append, Url.decodeFrom, if_neg hplain, ih]
  | case4 d rest hshort ih =>
    -- too short for an escape, and `c` does not complete one
    rcases rest with _ | ⟨x, _ | ⟨y, rest⟩⟩
    · cases r with
      | nil => rfl
      | cons e r => simp [Url.decodeFrom, hc]
    · simp only [List.cons_append, List.nil_append] at ih
      simp [Url.decodeFrom, hc, ih]
    · exact absurd rfl (hshort x y rest)

theorem decodeFrom_longer (hc : isxdigit c = false) (a r : Bytes) :
    Url.decodeFrom (a ++ c :: r) ≠ Url.decodeFrom a := by
  intro h
  rw [decodeFrom_append hc] at h
  have hnil : Url.decodeFrom (c :: r) = [] := List.append_right_eq_self.mp h
  unfold Url.decodeFrom at hnil
  split at hnil
  · rename_i heq
    cases heq
  · split at hnil <;> cases hnil
  · cases hnil

/-- A segment that goes on with something that is no digit and no `=` stands for another element. -/
theorem segmentElement_longer (hc : isxdigit c = false) (heq : c ≠ 61) (t w : Bytes) :
    segmentElement (t ++ c :: w) ≠ segmentElement t := by
  intro h
  by_cases ht : 61 ∈ t
  · obtain ⟨n, v, rfl, hn⟩ := List.eq_append_cons_of_mem ht
    rw [List.append_assoc, List.cons_append, segmentElement_pair hn, segmentElement_pair hn,
      ContentElement.mk.injEq] at h
    exact decodeFrom_longer hc v w h.2
  · have hname : (t ++ c :: w).takeWhile (· != 61) = t ++ c :: w.takeWhile (· != 61) := by
      rw [List.takeWhile_append_of_pos (forall_mem_bne ht), 
        List.takeWhile_cons_of_pos (p := (· != 61)) (bne_iff_ne.mpr heq)]
    rw [segmentElement_word ht, segmentElement, hname, ContentElement.mk.injEq] at h
    exact decodeFrom_longer hc t _ h.1

theorem trim_cons_nul (r : Bytes) :
    ∃ w z, r = w ++ z ∧ (∀ d ∈ z, blanks.contains d = true) ∧ trim (0 :: r) = 0 :: w := by
  obtain ⟨x, z, hr, hx, hz⟩ := exists_trim (0 :: r)
  have hnul : blanks.contains 0 ≠ true := by decide
  cases x with
  | cons d x =>
    have hd : 0 = d := (List.cons.inj hr).1
    exact absurd (hx d List.mem_cons_self) (hd ▸ hnul)
  | nil =>
    cases ht : trim (0 :: r) with
    | nil =>
      rw [ht, List.nil_append, List.nil_append] at hr
      exact absurd (hz 0 (hr ▸ List.mem_cons_self)) hnul
    | cons d w =>
      rw [ht, List.nil_append, List.cons_append, List.cons.injEq] at hr
      exact ⟨w, z, hr.2, hz, by rw [hr.1]⟩

/-- `trim` does not get past a NUL: what it leaves of a segment goes on with white space or with the NUL. -/
theorem trim_nul (a r : Bytes) : ∃ c w, trim (a ++ 0 :: r) = trim a ++ c :: w ∧
    (blanks.contains c = true ∨ c = 0) := by
  obtain ⟨x, y, ha, hx, hy⟩ := exists_trim a
  obtain ⟨w, z, rfl, hz, hw⟩ := trim_cons_nul r
  have hself : Trimmed (0 :: w) := hw ▸ trimmed_trim _
  by_cases hne : trim a = []
  · -- nothing but white space stands before the NUL
    have hblank : ∀ d ∈ x ++ y, blanks.contains d = true := List.forall_mem_append.mpr ⟨hx, hy⟩
    have htrim := trim_around (x := x ++ y) (y := []) (0 :: (w ++ z)) hblank (by simp)
    rw [List.append_nil, hw] at htrim
    refine ⟨0, w, ?_, .inr rfl⟩
    rw [hne, List.nil_append, ← htrim]
    conv_lhs => rw [ha, hne]
    simp
  · have hwhole : Trimmed (trim a ++ (y ++ 0 :: w)) := by
      refine ⟨fun d hd => (trimmed_trim a).1 d ?_, fun d hd => hself.2 d ?_⟩
      · rwa [List.head?_append_of_ne_nil _ hne] at hd
      · rwa [← List.append_assoc, List.getLast?_append_of_ne_nil _ (List.cons_ne_nil 0 w)] at hd
    have htrim := trim_padded hx hwhole (List.append_ne_nil_of_left_ne_nil hne _) hz
    have hall : a ++ 0 :: (w ++ z) = x ++ (trim a ++ (y ++ 0 :: w)) ++ z := by
      conv_lhs => rw [ha]
      simp
    rw [hall, htrim]
    cases y with
    | nil => exact ⟨0, w, rfl, .inr rfl⟩
    | cons d y => exact ⟨d, y ++ 0 :: w, rfl, .inl (hy d List.mem_cons_self)⟩

theorem segmentElement_nul (a r : Bytes) :
    segmentElement (trim (a ++ 0 :: r)) ≠ segmentElement (trim a) := by
  obtain ⟨c, w, htrim, hc⟩ := trim_nul a r
  have hplain : ∀ d ∈ 0 :: blanks, isxdigit d = false ∧ d ≠ 61 := by decide +kernel
  have hmem : c ∈ 0 :: blanks := by
    rcases hc with hc | rfl
    · exact List.mem_cons_of_mem _ (List.contains_iff_mem.mp hc)
    · exact List.mem_cons_self
  rw [htrim]
  exact segmentElement_longer (hplain c hmem).1 (hplain c hmem).2 (trim a) w

/-- Text without a separator belongs to the last segment. -/
theorem splitOn_append (a : Bytes) : ∃ init last, a.splitOn 38 = init ++ [last] ∧
    ∀ w : Bytes, 38 ∉ w → (a ++ w).splitOn 38 = init ++ [last ++ w] := by
  induction a with
  | nil =>
    refine ⟨[], [], rfl, fun w hw => ?_⟩
    exact List.splitOnP_eq_singleton fun c hc => beq_eq_false_iff_ne.mpr fun he => hw (he ▸ hc)
  | cons c a ih =>
    obtain ⟨init, last, ha, hw⟩ := ih
    by_cases hc : (c == 38) = true
    · refine ⟨[] :: init, last, ?_, fun w hnot => ?_⟩
      · rw [List.splitOn_cons_eq_if_modifyHead, if_pos hc, ha]
        rfl
      · rw [List.cons_append, List.splitOn_cons_eq_if_modifyHead, if_pos hc, hw w hnot]
        rfl
    · cases init with
      | nil =>
        refine ⟨[], c :: last, ?_, fun w hnot => ?_⟩
        · rw [List.splitOn_cons_eq_if_modifyHead, if_neg hc, ha]
          rfl
        · rw [List.cons_append, List.splitOn_cons_eq_if_modifyHead, if_neg hc, hw w hnot]
          rfl
      | cons first init =>
        refine ⟨(c :: first) :: init, last, ?_, fun w hnot => ?_⟩
        · rw [List.splitOn_cons_eq_if_modifyHead, if_neg hc, ha]
          rfl
        · rw [List.cons_append, List.splitOn_cons_eq_if_modifyHead, if_neg hc, hw w hnot]
          rfl

/-- What stands before a NUL never has the elements of the whole. -/
theorem formSegments_nul (a r : Bytes) : formSegments (a ++ 0 :: r) ≠ formSegments a := by
  intro h
  have hcount := congrArg List.length h
  simp only [formSegments, List.length_map, length_splitOn, List.count_append, List.count_cons] at hcount
  have hnone : 38 ∉ (0 :: r : Bytes) := by
    rw [List.mem_cons, not_or]
    exact ⟨by decide, List.count_eq_zero.mp (by omega)⟩
  obtain ⟨init, last, ha, hw⟩ := splitOn_append a
  rw [formSegments, formSegments, hw _ hnone, ha, List.map_append, List.map_append,
    List.append_cancel_left_eq] at h
  exact segmentElement_nul last r (List.cons.inj h).1

end Nul

/-! ## The parser -/

/-- The content is set, and the parser returns one element for every segment of it, in order. -/
def SeesWhole (h : HttpHeader) (b : Bytes) : Prop :=
  ∃ es, (h.setContentString b).map parseContent = some es ∧ es = formSegments b ∧ es.length = b.count 38 + 1

/-- The form parser sees the whole body if the body has no NUL and is shorter than 2^31 - 1 bytes; and below
2^32 bytes only then. -/
theorem form_body_iff {h : HttpHeader} (hnew : h.content = [])
    (hct : h.getContentType = urlencodedType ∨ ∃ ps, h.getContentType = urlencodedType ++ 59 :: ps)
    {b : Bytes} (hb : b ≠ []) :
    (0 ∉ b ∧ b.length + 1 < 2 ^ 31 → SeesWhole h b) ∧
      (b.length < 2 ^ 32 → SeesWhole h b → 0 ∉ b ∧ b.length + 1 < 2 ^ 31) := by
  have hparse := parseContent_urlencoded hnew hct b
  constructor
  · rintro ⟨hnul, hlt⟩
    rw [toInt32_of_lt (by omega), if_neg (by omega), Int.toNat_natCast, List.take_length, cString_nul hnul,
      elements_of_short hb (by omega)] at hparse
    refine ⟨_, hparse, rfl, ?_⟩
    rw [formSegments, List.length_map, length_splitOn]
  · rintro hint ⟨es, hes, hsame, hlength⟩
    rw [hparse] at hes
    split_ifs at hes with hthrows
    obtain rfl := Option.some.inj hes
    have hlt : b.length + 1 < 2 ^ 31 := by
      by_contra hlong
      have hne : b.length + 1 ≠ 2 ^ 31 := fun heq => by
        rw [toInt32_of_lt (by omega)] at hthrows
        exact hthrows (by omega)
      have hzero : (toInt32 b.length).toNat = 0 := by
        rcases toInt32_loses (n := b.length) (by omega) with hm | hm
        · exact hm
        · omega
      rw [hzero] at hlength
      cases hlength
    refine ⟨fun hnul => ?_, hlt⟩
    obtain ⟨a, r, rfl, ha⟩ := List.eq_append_cons_of_mem hnul
    rw [toInt32_of_lt (by omega), Int.toNat_natCast, List.take_length, List.append_assoc, List.cons_append,
      cString_nul ha] at hsame hlength
    by_cases hne : a = []
    · rw [hne] at hlength
      cases hlength
    · rw [List.length_append, List.length_cons] at hlt
      rw [elements_of_short hne (by omega)] at hsame
      exact formSegments_nul a r hsame.symm

theorem form_body_blank_names :
    (Sample.formHeader.setContentString (ascii " a = 1 &&b")).map parseContent =
      some [⟨ascii "a ", ascii " 1"⟩, ⟨[], []⟩, ⟨ascii "b", []⟩] := by
  obtain ⟨es, hes, hsame, -⟩ := (form_body_iff (h := Sample.formHeader) rfl (Or.inr Sample.formHeader_type)
    (b := ascii " a = 1 &&b") (by decide)).1 ⟨by decide, by decide⟩
  have hsegments : formSegments (ascii " a = 1 &&b") = [⟨ascii "a ", ascii " 1"⟩, ⟨[], []⟩, ⟨ascii "b", []⟩] := by
    decide +kernel
  rw [hes, hsame, hsegments]

/-- The second segment of `a`, NUL, `b&c` is not seen, and the first is cut. -/
theorem form_body_cut :
    Sample.formHeader.content = [] ∧
      (Sample.formHeader.setContentString [97, 0, 98, 38, 99]).map parseContent = some [⟨[97], []⟩] ∧
      formSegments [97, 0, 98, 38, 99] = [⟨[97, 0, 98], []⟩, ⟨[99], []⟩] ∧
      ¬SeesWhole Sample.formHeader [97, 0, 98, 38, 99] := by
  have hparse : (Sample.formHeader.setContentString [97, 0, 98, 38, 99]).map parseContent = some [⟨[97], []⟩] := by
    decide +kernel
  have hsegments : formSegments [97, 0, 98, 38, 99] = [⟨[97, 0, 98], []⟩, ⟨[99], []⟩] := by decide +kernel
  refine ⟨rfl, hparse, hsegments, ?_⟩
  rintro ⟨es, hes, hsame, -⟩
  rw [hparse, hsame, hsegments] at hes
  cases hes

end Dcl.Http
