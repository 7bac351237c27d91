import Dcl.Url.Normalize

/-! # Doubled and trailing slashes

A doubled slash and a slash at the end of a path are empty segments. `url::normalize` ends its scan at an
empty segment as it does at the root, so whatever stands before the last one is lost unless a `..` behind it
takes it back. -/
namespace Dcl.Url
set_option autoImplicit false

/-- `path'` is `path` with some of its slashes doubled. -/
inductive Doubled : Bytes → Bytes → Prop
  | nil : Doubled [] []
  | keep (c : UInt8) {path path' : Bytes} (h : Doubled path path') : Doubled (c :: path) (c :: path')
  | twice {path path' : Bytes} (h : Doubled path path') : Doubled (47 :: path) (47 :: 47 :: path')

/-- Some slashes doubled, perhaps one more at the end. -/
def SlashVariant (path path' : Bytes) : Prop :=
  ∃ doubled, Doubled path doubled ∧ (path' = doubled ∨ path' = doubled ++ [47])

/-! ## Empty segments put in -/

/-- The second list is the first one with empty segments put in. -/
inductive Spaced : List Bytes → List Bytes → Prop
  | nil : Spaced [] []
  | cons (i : Bytes) {l l' : List Bytes} (h : Spaced l l') : Spaced (i :: l) (i :: l')
  | empty {l l' : List Bytes} (h : Spaced l l') : Spaced l ([] :: l')

namespace Spaced
variable {l l' : List Bytes}

theorem refl (l : List Bytes) : Spaced l l := by
  induction l with
  | nil => exact nil
  | cons i l ih => exact ih.cons i

theorem append_left (segments : List Bytes) (h : Spaced l l') : Spaced (segments ++ l) (segments ++ l') := by
  induction segments with
  | nil => exact h
  | cons i segments ih => exact ih.cons i

theorem append_empty (h : Spaced l l') : Spaced l (l' ++ [[]]) := by
  induction h with
  | nil => exact nil.empty
  | cons i _ ih => exact ih.cons i
  | empty _ ih => exact ih.empty

theorem map_trim (h : Spaced l l') : Spaced (l.map trim) (l'.map trim) := by
  induction h with
  | nil => exact nil
  | cons i _ ih => exact ih.cons (trim i)
  | empty _ ih => exact ih.empty

theorem eq_of_not_mem (h : Spaced l l') (hempty : [] ∉ l') : l = l' := by
  induction h with
  | nil => rfl
  | cons i _ ih => rw [ih fun hmem => hempty (List.mem_cons_of_mem i hmem)]
  | empty _ _ => exact absurd List.mem_cons_self hempty

/-- An end of the second list without an empty segment is an end of the first. -/
theorem suffix_of_not_mem {r : List Bytes} (h : Spaced l l') (hr : r <:+ l') (hempty : [] ∉ r) : r <:+ l := by
  induction h with
  | nil => exact hr
  | cons i hs ih =>
    rcases List.suffix_cons_iff.mp hr with rfl | hr
    · rw [hs.eq_of_not_mem fun hmem => hempty (List.mem_cons_of_mem i hmem)]
    · exact (ih hr).trans (List.suffix_cons i _)
  | empty _ ih =>
    rcases List.suffix_cons_iff.mp hr with rfl | hr
    · exact absurd List.mem_cons_self hempty
    · exact ih hr

end Spaced

/-- An end of a list all of whose elements pass the test is an end of the longest one. -/
theorem suffix_rtakeWhile {α : Type*} {p : α → Bool} {l r : List α} (hr : r <:+ l) (h : ∀ i ∈ r, p i = true) :
    r <:+ l.rtakeWhile p := by
  obtain ⟨l, rfl⟩ := hr
  rw [List.rtakeWhile, List.reverse_append, List.takeWhile_append_of_pos]
  · exact ⟨(l.reverse.takeWhile p).reverse, by rw [List.reverse_append, List.reverse_reverse]⟩
  · exact fun i hi => h i (List.mem_reverse.mp hi)

theorem words_suffix {t t' : Bytes} (h : Spaced (t.splitOn 47) (t'.splitOn 47)) : words t' <:+ words t := by
  refine suffix_rtakeWhile (h.map_trim.suffix_of_not_mem (List.rtakeWhile_suffix _ _) fun hmem => ?_) fun i hi => ?_
  · exact (mem_words hmem).2.2 rfl
  · simpa using (mem_words hi).2.2

/-! ## Segments of a variant -/

section Segments
variable {path path' : Bytes}

theorem splitOn_slash_cons (path : Bytes) : (47 :: path : Bytes).splitOn 47 = [] :: path.splitOn 47 :=
  List.splitOn_append_cons_self [] path

/-- Doubled slashes put empty segments in behind the first segment. -/
theorem Doubled.splitOn (h : Doubled path path') : ∃ first rest rest', path.splitOn 47 = first :: rest ∧
    path'.splitOn 47 = first :: rest' ∧ Spaced rest rest' := by
  induction h with
  | nil => exact ⟨[], [], [], rfl, rfl, Spaced.nil⟩
  | @keep c path path' _ ih =>
    obtain ⟨first, rest, rest', hpath, hpath', hspaced⟩ := ih
    by_cases hc : c = 47
    · subst hc
      refine ⟨[], first :: rest, first :: rest', ?_, ?_, hspaced.cons first⟩
      · rw [splitOn_slash_cons, hpath]
      · rw [splitOn_slash_cons, hpath']
    · have hbeq : (c == 47) = false := beq_eq_false_iff_ne.mpr hc
      refine ⟨c :: first, rest, rest', ?_, ?_, hspaced⟩
      · rw [List.splitOn_cons_eq_if_modifyHead, hbeq, hpath]
        rfl
      · rw [List.splitOn_cons_eq_if_modifyHead, hbeq, hpath']
        rfl
  | @twice path path' _ ih =>
    obtain ⟨first, rest, rest', hpath, hpath', hspaced⟩ := ih
    refine ⟨[], first :: rest, [] :: first :: rest', ?_, ?_, (hspaced.cons first).empty⟩
    · rw [splitOn_slash_cons, hpath]
    · rw [splitOn_slash_cons, splitOn_slash_cons, hpath']

theorem Doubled.spaced (h : Doubled path path') : Spaced (path.splitOn 47) (path'.splitOn 47) := by
  obtain ⟨first, rest, rest', hpath, hpath', hspaced⟩ := h.splitOn
  rw [hpath, hpath']
  exact hspaced.cons first

theorem spaced_append_slash {t t' : Bytes} (h : Spaced (t.splitOn 47) (t'.splitOn 47)) :
    Spaced (t.splitOn 47) ((t' ++ [47]).splitOn 47) := by
  rw [List.splitOn_append_cons_self]
  exact h.append_empty

/-- A path without one leading slash or backslash. -/
def stripped (path : Bytes) : Bytes := if path.head? = some 47 ∨ path.head? = some 92 then path.tail else path

theorem joined_eq (u : Url) (basePath : Bytes) : u.joined basePath = basePath ++ stripped u.path := rfl

theorem Doubled.spaced_stripped (h : Doubled path path') :
    Spaced ((stripped path).splitOn 47) ((stripped path').splitOn 47) := by
  cases h with
  | nil => exact Spaced.refl _
  | keep c h =>
    by_cases hc : c = 47 ∨ c = 92
    · rw [stripped, stripped, if_pos (by simpa using hc), if_pos (by simpa using hc)]
      exact h.spaced
    · rw [stripped, stripped, if_neg (by simpa using hc), if_neg (by simpa using hc)]
      exact (h.keep c).spaced
  | @twice path path' h =>
    have hstripped : stripped (47 :: 47 :: path') = 47 :: path' := rfl
    have hstripped' : stripped (47 :: path) = path := rfl
    rw [hstripped, hstripped', splitOn_slash_cons]
    exact h.spaced.empty

theorem stripped_append (hne : path ≠ []) : stripped (path ++ [47]) = stripped path ++ [47] := by
  obtain ⟨c, path, rfl⟩ := List.exists_cons_of_ne_nil hne
  unfold stripped
  rw [List.cons_append, List.head?_cons, List.head?_cons]
  split
  · rfl
  · rfl

theorem SlashVariant.spaced_stripped (h : SlashVariant path path') :
    Spaced ((stripped path).splitOn 47) ((stripped path').splitOn 47) := by
  obtain ⟨doubled, hdoubled, rfl | rfl⟩ := h
  · exact hdoubled.spaced_stripped
  · by_cases hne : doubled = []
    · -- the one slash of the path is taken for a leading one
      subst hne
      exact hdoubled.spaced_stripped
    · rw [stripped_append hne]
      exact spaced_append_slash hdoubled.spaced_stripped

end Segments

/-! ## `normalize` -/

/-- The words of the joined path that stand before those of the variant. -/
def cutOff (u : Url) (basePath path' : Bytes) : List Bytes :=
  (words (u.joined basePath)).rdrop (words ({ u with path := path' }.joined basePath)).length

theorem cutOff_append (u : Url) {basePath path' : Bytes} (hbase : basePath.getLast? = some 47)
    (h : SlashVariant u.path path') :
    u.cutOff basePath path' ++ words ({ u with path := path' }.joined basePath) = words (u.joined basePath) := by
  obtain ⟨base, rfl⟩ := List.getLast?_eq_some_iff.mp hbase
  have hsuffix : words ({ u with path := path' }.joined (base ++ [47])) <:+ words (u.joined (base ++ [47])) := by
    refine words_suffix ?_
    rw [joined_eq, joined_eq, List.append_assoc, List.append_assoc, List.singleton_append, List.singleton_append,
      List.splitOn_append_cons_self, List.splitOn_append_cons_self]
    exact h.spaced_stripped.append_left _
  obtain ⟨before, hbefore⟩ := hsuffix
  rw [cutOff, ← hbefore, List.rdrop, List.length_append, Nat.add_sub_cancel, List.take_left]

/-- A path with slashes doubled or added at the end is normalized as the path itself if and only if every name
that stands before the last of the added slashes is taken back by a `..` behind it. -/
theorem normalize_slashes_iff (u : Url) {basePath path' : Bytes} (hbase : basePath.getLast? = some 47)
    (h : SlashVariant u.path path') :
    ({ u with path := path' } : Url).normalize basePath = u.normalize basePath ↔
      StackScan.Skipped partMark counterSkips (u.cutOff basePath path').reverse
        (StackScan.pending partMark counterSkips
          (words ({ u with path := path' }.joined basePath)).reverse 0) := by
  have hkept : u.kept basePath = StackScan.scan partMark counterSkips (u.cutOff basePath path').reverse
      (StackScan.pending partMark counterSkips (words ({ u with path := path' }.joined basePath)).reverse 0)
      (({ u with path := path' } : Url).kept basePath) := by
    rw [kept, kept, ← StackScan.scan_append, ← List.reverse_append, cutOff_append u hbase h]
  rw [← StackScan.scan_eq_kept_iff _ _ (({ u with path := path' } : Url).kept basePath), ← hkept, normalize_eq,
    normalize_eq]
  rw [Url.mk.injEq]
  simp only [true_and, and_true]
  rw [normalPath_inj (fun i hi => (isName_kept _ basePath i hi).slash) fun i hi =>
    (isName_kept _ basePath i hi).slash]
  exact eq_comm

namespace Sample

def page (path : String) : Url := { Url.new with path := ascii path }

theorem doubled_taken_back : SlashVariant (page "a/../b").path (ascii "a/..//b") :=
  ⟨ascii "a/..//b", .keep _ (.keep _ (.keep _ (.keep _ (.twice (.keep _ .nil))))), .inl rfl⟩

theorem doubled_between : SlashVariant (page "a/b").path (ascii "a//b") :=
  ⟨ascii "a//b", .keep _ (.twice (.keep _ .nil)), .inl rfl⟩

theorem appended : SlashVariant (page "a").path (ascii "a/") := ⟨ascii "a", .keep _ .nil, .inr rfl⟩

end Sample

theorem normalize_slashes_taken_back : SlashVariant (Sample.page "a/../b").path (ascii "a/..//b") ∧
    ({ Sample.page "a/../b" with path := ascii "a/..//b" } : Url).normalize (ascii "/") =
      (Sample.page "a/../b").normalize (ascii "/") := by
  refine ⟨Sample.doubled_taken_back, (normalize_slashes_iff _ (by decide) Sample.doubled_taken_back).mpr ?_⟩
  have hcut : (Sample.page "a/../b").cutOff (ascii "/") (ascii "a/..//b") = [ascii "a", ascii ".."] := by
    decide +kernel
  rw [hcut]
  exact ⟨by decide +kernel, trivial⟩

/-- `a//b` leaves `/b` where `a/b` leaves `/a/b`; `a/` leaves nothing where `a` leaves `/a`. -/
theorem normalize_loses_segments : (ascii "/").getLast? = some 47 ∧
    (SlashVariant (Sample.page "a/b").path (ascii "a//b") ∧
      ((Sample.page "a/b").normalize (ascii "/")).path = ascii "/a/b" ∧
      (({ Sample.page "a/b" with path := ascii "a//b" } : Url).normalize (ascii "/")).path = ascii "/b" ∧
      ({ Sample.page "a/b" with path := ascii "a//b" } : Url).normalize (ascii "/") ≠
        (Sample.page "a/b").normalize (ascii "/")) ∧
    SlashVariant (Sample.page "a").path (ascii "a/") ∧
      ((Sample.page "a").normalize (ascii "/")).path = ascii "/a" ∧
      (({ Sample.page "a" with path := ascii "a/" } : Url).normalize (ascii "/")).path = [] ∧
      ({ Sample.page "a" with path := ascii "a/" } : Url).normalize (ascii "/") ≠
        (Sample.page "a").normalize (ascii "/") := by
  refine ⟨by decide, ⟨Sample.doubled_between, by decide +kernel, by decide +kernel, fun h => ?_⟩,
    Sample.appended, by decide +kernel, by decide +kernel, fun h => ?_⟩
  · exact absurd (congrArg Url.path h) (by decide +kernel)
  · exact absurd (congrArg Url.path h) (by decide +kernel)

end Dcl.Url
