import Dcl.Strutils.Text
import Mathlib.Data.List.DropRight

/-! # What `trim` and `tokenize` give back

`tokenize` splits at every delimiter and trims the parts, so a string that was joined with a delimiter
falls into its parts again; the pair form splits at the first one. -/
namespace Dcl
set_option autoImplicit false

/-! ## Searching for one character -/

theorem contains_singleton_eq_false {s : Bytes} {d : UInt8} (h : d ∉ s) :
    ∀ c ∈ s, [d].contains c = false := by
  intro c hc
  simp only [List.contains_cons, List.contains_nil, Bool.or_false, beq_eq_false_iff_ne]
  exact fun hcd => h (hcd ▸ hc)

theorem findIdx?_contains_eq_none {s : Bytes} {d : UInt8} (h : d ∉ s) :
    s.findIdx? (fun c => [d].contains c) = none :=
  List.findIdx?_eq_none_iff.mpr (contains_singleton_eq_false h)

theorem findFirstOf_append {a b : Bytes} {d : UInt8} (h : d ∉ a) :
    findFirstOf (a ++ d :: b) [d] 0 = some a.length := by
  rw [findFirstOf, List.drop_zero, List.findIdx?_append, findIdx?_contains_eq_none h,
    List.findIdx?_cons]
  simp

theorem findLastOf_append {a b : Bytes} {d : UInt8} (h : d ∉ b) :
    findLastOf (a ++ d :: b) [d] = some a.length := by
  have hrev : (a ++ d :: b).reverse = b.reverse ++ d :: a.reverse := by simp
  rw [findLastOf, hrev, List.findIdx?_append, findIdx?_contains_eq_none (by simpa using h),
    List.findIdx?_cons]
  simp

theorem findFirstOf_eq_none {s : Bytes} {d : UInt8} (h : d ∉ s) : findFirstOf s [d] 0 = none := by
  rw [findFirstOf, List.drop_zero, findIdx?_contains_eq_none h]
  rfl

theorem findLastOf_eq_none {s : Bytes} {d : UInt8} (h : d ∉ s) : findLastOf s [d] = none := by
  rw [findLastOf, findIdx?_contains_eq_none (by simpa using h)]
  rfl

theorem findFirstOf_some {s delims : Bytes} {start pos : ℕ}
    (h : findFirstOf s delims start = some pos) : ∃ a c b, s.drop start = a ++ c :: b ∧
      (∀ x ∈ a, delims.contains x = false) ∧ delims.contains c = true ∧ pos = start + a.length := by
  rw [findFirstOf] at h
  obtain ⟨i, hi, rfl⟩ := Option.map_eq_some_iff.mp h
  obtain ⟨hlt, hc, hbefore⟩ := List.findIdx?_eq_some_iff_getElem.mp hi
  refine ⟨(s.drop start).take i, (s.drop start)[i], (s.drop start).drop (i + 1), ?_, ?_, hc, ?_⟩
  · rw [List.getElem_cons_drop, List.take_append_drop]
  · intro x hx
    obtain ⟨j, hj, rfl⟩ := List.getElem_of_mem hx
    rw [List.length_take] at hj
    rw [List.getElem_take]
    simpa using hbefore j (by omega)
  · rw [List.length_take, Nat.min_eq_left (Nat.le_of_lt hlt)]

/-! ## `trim` -/

/-- No white space at the beginning or the end. -/
def Trimmed (s : Bytes) : Prop :=
  (∀ c ∈ s.head?, blanks.contains c = false) ∧ ∀ c ∈ s.getLast?, blanks.contains c = false

instance (s : Bytes) : Decidable (Trimmed s) := inferInstanceAs (Decidable (_ ∧ _))

theorem drop_findFirstNotOf (delims s : Bytes) :
    (match findFirstNotOf s delims with
      | some index => s.drop index
      | none => []) = s.dropWhile (delims.contains ·) := by
  unfold findFirstNotOf
  split
  next index h =>
    rw [List.findIdx?_eq_some_iff_findIdx_eq] at h
    rw [List.dropWhile_eq_drop_findIdx_not, h.2]
  next h =>
    rw [List.findIdx?_eq_none_iff] at h
    exact (List.dropWhile_eq_nil_iff.mpr fun c hc => by simpa using h c hc).symm

theorem trimOf_eq (delims s : Bytes) :
    trimOf delims s = (s.rdropWhile (delims.contains ·)).dropWhile (delims.contains ·) := by
  refine (drop_findFirstNotOf delims _).trans ?_
  split
  next index h =>
    obtain ⟨i, hi, rfl⟩ := Option.map_eq_some_iff.mp h
    rw [List.findIdx?_eq_some_iff_findIdx_eq, List.length_reverse] at hi
    have hlen : s.length - 1 - i + 1 = s.length - i := by omega
    have hright : s.rdropWhile (delims.contains ·) = s.take (s.length - i) := by
      rw [List.rdropWhile, List.dropWhile_eq_drop_findIdx_not, hi.2, List.drop_reverse,
        List.reverse_reverse]
    rw [hlen, hright]
  next h =>
    -- nothing but delimiters
    rw [findLastNotOf, Option.map_eq_none_iff, List.findIdx?_eq_none_iff] at h
    have hall : ∀ c ∈ s, delims.contains c = true := fun c hc => by
      simpa using h c (List.mem_reverse.mpr hc)
    rw [List.rdropWhile_eq_nil_iff.mpr hall, List.dropWhile_eq_nil_iff.mpr hall]
    rfl

theorem mem_of_mem_trim {s : Bytes} {c : UInt8} (h : c ∈ trim s) : c ∈ s := by
  rw [trim, trimOf_eq] at h
  exact (List.rdropWhile_prefix _ _).subset ((List.dropWhile_suffix _).subset h)

theorem head?_trimOf {delims s : Bytes} {c : UInt8} (h : c ∈ (trimOf delims s).head?) :
    delims.contains c = false := by
  rw [trimOf_eq] at h
  have hhead := List.head?_dropWhile_not (delims.contains ·) (s.rdropWhile (delims.contains ·))
  rw [Option.mem_def.mp h] at hhead
  simpa using hhead

theorem getLast?_trimOf {delims s : Bytes} {c : UInt8} (h : c ∈ (trimOf delims s).getLast?) :
    delims.contains c = false := by
  rw [trimOf_eq] at h
  -- the last byte of a suffix that is not empty is the last byte of the whole
  obtain ⟨t, ht⟩ := List.dropWhile_suffix (delims.contains ·) (l := s.rdropWhile (delims.contains ·))
  have hne : (s.rdropWhile (delims.contains ·)).dropWhile (delims.contains ·) ≠ [] := by
    intro hnil
    rw [hnil] at h
    cases h
  have hl : s.rdropWhile (delims.contains ·) ≠ [] := by
    rw [← ht]
    exact List.append_ne_nil_of_right_ne_nil t hne
  rw [← List.getLast?_append_of_ne_nil t hne, ht, List.getLast?_eq_some_getLast hl] at h
  rw [← Option.some.inj h]
  simpa using List.rdropWhile_last_not (delims.contains ·) s hl

theorem trimmed_trim (s : Bytes) : Trimmed (trim s) :=
  ⟨fun _ => head?_trimOf, fun _ => getLast?_trimOf⟩

/-- White space around a trimmed string that is not empty is removed. -/
theorem trim_padded {x s y : Bytes} (hx : ∀ c ∈ x, blanks.contains c = true) (hs : Trimmed s)
    (hne : s ≠ []) (hy : ∀ c ∈ y, blanks.contains c = true) : trim (x ++ s ++ y) = s := by
  obtain ⟨c, t, rfl⟩ := List.exists_cons_of_ne_nil hne
  have hhead : blanks.contains c = false := hs.1 c rfl
  have hlast := hs.2 _ (List.getLast?_eq_getLast_of_ne_nil hne)
  have hright : (x ++ (c :: t) ++ y).rdropWhile (blanks.contains ·) = x ++ (c :: t) := by
    rw [List.rdropWhile, List.reverse_append,
      List.dropWhile_append_of_pos (fun a ha => hy a (List.mem_reverse.mp ha))]
    have hself : (x ++ c :: t).rdropWhile (blanks.contains ·) = x ++ c :: t := by
      rw [List.rdropWhile_eq_self_iff]
      intro hl
      rw [List.getLast_append_of_ne_nil _ hne, hlast]
      exact Bool.false_ne_true
    exact hself
  rw [trim, trimOf_eq, hright, List.dropWhile_append_of_pos hx, List.dropWhile_cons_of_neg]
  rw [hhead]
  exact Bool.false_ne_true

theorem trim_cons_space {s : Bytes} (h : Trimmed s) (hne : s ≠ []) : trim (32 :: s) = s := by
  have hpad := trim_padded (x := [32]) (y := []) (by decide +kernel) h hne (by simp)
  simpa using hpad

theorem Trimmed.pair {p v : Bytes} (hp : Trimmed p) (hne : p ≠ []) (hv : Trimmed v) :
    Trimmed (p ++ 61 :: v) := by
  refine ⟨fun c hc => hp.1 c ?_, fun c hc => ?_⟩
  · rwa [List.head?_append_of_ne_nil _ hne] at hc
  · rw [List.getLast?_append_of_ne_nil _ (by simp)] at hc
    by_cases hvn : v = []
    · subst hvn
      simp only [List.getLast?_singleton, Option.mem_def, Option.some.injEq] at hc
      subst hc
      decide
    · rw [List.getLast?_cons_of_ne_nil hvn] at hc
      exact hv.2 c hc

theorem trim_eq_self {s : Bytes} (h : Trimmed s) : trim s = s := by
  by_cases hne : s = []
  · rw [hne]
    rfl
  · have := trim_padded (x := []) (y := []) (by simp) h hne (by simp)
    simpa using this

theorem trim_blank {s : Bytes} (h : ∀ c ∈ s, blanks.contains c = true) : trim s = [] := by
  rw [trim, trimOf_eq, List.rdropWhile_eq_nil_iff.mpr h]
  rfl

theorem trim_followed {s y : Bytes} (hs : Trimmed s) (hy : ∀ c ∈ y, blanks.contains c = true) :
    trim (s ++ y) = s := by
  by_cases hne : s = []
  · rw [hne, List.nil_append]
    exact trim_blank hy
  · exact trim_padded (x := []) (by simp) hs hne hy

/-- What `trim` removes is white space. -/
theorem exists_trim (s : Bytes) : ∃ x y, s = x ++ trim s ++ y ∧ (∀ c ∈ x, blanks.contains c = true) ∧
    ∀ c ∈ y, blanks.contains c = true := by
  refine ⟨(s.rdropWhile (blanks.contains ·)).takeWhile (blanks.contains ·), s.rtakeWhile (blanks.contains ·),
    ?_, fun c hc => List.mem_takeWhile_imp hc, fun c hc => List.mem_rtakeWhile_imp hc⟩
  rw [trim, trimOf_eq, List.takeWhile_append_dropWhile, List.rdropWhile_append_rtakeWhile]

/-- White space around a string does not change what `trim` leaves. -/
theorem trim_around {x y : Bytes} (s : Bytes) (hx : ∀ c ∈ x, blanks.contains c = true)
    (hy : ∀ c ∈ y, blanks.contains c = true) : trim (x ++ s ++ y) = trim s := by
  obtain ⟨u, v, hs, hu, hv⟩ := exists_trim s
  have hxu : ∀ c ∈ x ++ u, blanks.contains c = true := List.forall_mem_append.mpr ⟨hx, hu⟩
  have hvy : ∀ c ∈ v ++ y, blanks.contains c = true := List.forall_mem_append.mpr ⟨hv, hy⟩
  have hall : x ++ s ++ y = x ++ u ++ trim s ++ (v ++ y) := by
    conv_lhs => rw [hs]
    simp only [List.append_assoc]
  by_cases hne : trim s = []
  · rw [hall, hne, List.append_nil]
    exact trim_blank (List.forall_mem_append.mpr ⟨hxu, hvy⟩)
  · rw [hall]
    exact trim_padded hxu (trimmed_trim s) hne hvy

/-! ## `tokenize` -/

theorem tokenizeFrom_eq (source delims : Bytes) {fuel oldPos : ℕ}
    (hle : oldPos ≤ source.length) (h : source.length < oldPos + fuel) :
    tokenizeFrom source delims fuel oldPos =
      ((source.drop oldPos).splitOnP (delims.contains ·)).map trim := by
  induction fuel generalizing oldPos with
  | zero => omega
  | succ fuel ih =>
    rw [tokenizeFrom]
    cases hf : findFirstOf source delims oldPos with
    | none =>
      rw [findFirstOf, Option.map_eq_none_iff, List.findIdx?_eq_none_iff] at hf
      rw [List.splitOnP_eq_singleton hf, List.map_singleton, substr, List.take_of_length_le]
      simp
    | some pos =>
      obtain ⟨a, c, b, hs, ha, hc, rfl⟩ := findFirstOf_some hf
      have hlen := congrArg List.length hs
      simp only [List.length_drop, List.length_append, List.length_cons] at hlen
      have hb : source.drop (oldPos + a.length + 1) = b := by
        rw [Nat.add_assoc, ← List.drop_drop, hs]
        simp
      have htake : substr source oldPos (oldPos + a.length - oldPos) = a := by
        rw [substr, hs, Nat.add_sub_cancel_left, List.take_left]
      simp only
      rw [ih (by omega) (by omega), hb, htake, hs, List.splitOnP_append_cons_of_forall_mem ha c hc,
        List.map_cons]

/-- A segment stands in the text, between two delimiters or ends of the text. -/
theorem exists_of_mem_splitOn {d : UInt8} {s segment : Bytes} (h : segment ∈ s.splitOn d) :
    d ∉ segment ∧ ∃ x y, s = x ++ segment ++ y := by
  induction s generalizing segment with
  | nil =>
    rw [List.mem_singleton.mp h]
    exact ⟨List.not_mem_nil, [], [], rfl⟩
  | cons c s ih =>
    obtain ⟨first, rest, hparts⟩ := List.exists_cons_of_ne_nil (List.splitOn_ne_nil d s)
    rw [List.splitOn_cons_eq_if_modifyHead] at h
    split at h
    case isTrue =>
      rcases List.mem_cons.mp h with rfl | h
      · exact ⟨List.not_mem_nil, [], c :: s, rfl⟩
      · obtain ⟨hd, x, y, rfl⟩ := ih h
        exact ⟨hd, c :: x, y, rfl⟩
    case isFalse hc =>
      rw [hparts, List.modifyHead_cons] at h
      rcases List.mem_cons.mp h with rfl | h
      · -- the first segment begins the text
        obtain ⟨hd, -⟩ := ih (hparts ▸ List.mem_cons_self)
        have hs : [d].intercalate (first :: rest) = s := by
          rw [← hparts]
          exact List.intercalate_splitOn d
        have hpre : ∃ y, s = first ++ y := by
          rw [← hs]
          cases rest with
          | nil => exact ⟨[], by simp⟩
          | cons b rest => exact ⟨d :: [d].intercalate (b :: rest), by simp [List.intercalate_cons_cons]⟩
        obtain ⟨y, rfl⟩ := hpre
        refine ⟨?_, [], y, rfl⟩
        rw [List.mem_cons, not_or]
        exact ⟨fun he => hc (beq_iff_eq.mpr he.symm), hd⟩
      · obtain ⟨hd, x, y, rfl⟩ := ih (hparts ▸ List.mem_cons_of_mem _ h)
        exact ⟨hd, c :: x, y, rfl⟩

theorem tokenize_eq {source : Bytes} (h : source ≠ []) (d : UInt8) :
    tokenize source [d] = (source.splitOn d).map trim := by
  rw [tokenize, if_neg (by simpa using h), tokenizeFrom_eq _ _ (by omega) (by omega), List.drop_zero,
    List.splitOn_eq_splitOnP]
  congr 2
  funext c
  rw [List.contains_cons, List.contains_nil, Bool.or_false]

/-- A string that was joined with the delimiter `d` falls into its trimmed parts again. -/
theorem tokenize_intercalate {parts : List Bytes} {d : UInt8} (hd : ∀ p ∈ parts, d ∉ p)
    (hne : [d].intercalate parts ≠ []) :
    tokenize ([d].intercalate parts) [d] = parts.map trim := by
  have hparts : parts ≠ [] := by
    rintro rfl
    exact hne rfl
  rw [tokenize_eq hne, List.splitOn_intercalate d hd hparts]

theorem take_substr (a b : Bytes) (c : UInt8) :
    ((a ++ c :: b).take a.length,
      substr (a ++ c :: b) (a.length + 1) ((a ++ c :: b).length - a.length - 1)) = (a, b) := by
  have hdrop : (a ++ c :: b).drop (a.length + 1) = b := by simp
  rw [List.take_left, substr, hdrop, List.take_of_length_le (by simp)]

theorem tokenizePair_split {a b : Bytes} {d : UInt8} (h : d ∉ a) (left right : Bytes) :
    tokenizePair (a ++ d :: b) left right false [d] = (a, b) := by
  have hne : (a ++ d :: b).isEmpty = false := by simp
  rw [tokenizePair, findFirstOf_append h]
  simp only [hne, Bool.false_eq_true, if_false]
  exact take_substr a b d

theorem tokenizePair_last {a b : Bytes} {d : UInt8} (h : d ∉ b) (left right : Bytes) :
    tokenizePair (a ++ d :: b) left right true [d] = (a, b) := by
  have hne : (a ++ d :: b).isEmpty = false := by simp
  rw [tokenizePair, findLastOf_append h]
  simp only [hne, Bool.false_eq_true, if_false, if_true]
  exact take_substr a b d

theorem tokenizePair_last_whole {s : Bytes} {d : UInt8} (h : d ∉ s) (left : Bytes) :
    (tokenizePair s left [] true [d]).2 = s := by
  rw [tokenizePair, findLastOf_eq_none h]
  by_cases hne : s = []
  · subst hne
    rfl
  · have hempty : s.isEmpty = false := by simpa using hne
    simp only [hempty, Bool.false_eq_true, if_false, if_true]

theorem tokenizePair_whole {s : Bytes} {d : UInt8} (h : d ∉ s) (right : Bytes) :
    tokenizePair s [] right false [d] = (s, right) := by
  rw [tokenizePair, findFirstOf_eq_none h]
  by_cases hne : s = []
  · subst hne
    rfl
  · have hempty : s.isEmpty = false := by simpa using hne
    simp only [hempty, Bool.false_eq_true, if_false]

end Dcl
