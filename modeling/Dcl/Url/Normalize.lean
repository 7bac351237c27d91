import Dcl.Foundations.StackScan
import Dcl.Strutils.Tokens
import Dcl.Url.Parse

/-! # Dot segments

`url::normalize` reads the segments of a path from the last to the first and counts the `..` that have not
been matched with a name; it stops at an empty segment. Read from left to right, the same segments push names
on a stack and pop them. The counter is an `int`: from `2 ^ 31` pending `..` on it is not positive, and names
that should be skipped are kept. -/
namespace Dcl.Url
set_option autoImplicit false

/-! ## The path as a stack -/

def partMark (i : Bytes) : StackScan.Mark :=
  if i = ascii ".." then .back else if i = ascii "." then .stay else .name

/-- What `normalize` splits: the base path and the path without one leading slash or backslash. -/
def joined (u : Url) (basePath : Bytes) : Bytes :=
  basePath ++ if u.path.head? = some 47 ∨ u.path.head? = some 92 then u.path.tail else u.path

/-- The trimmed segments of a text that follow the last empty one. -/
def words (t : Bytes) : List Bytes := ((t.splitOn 47).map trim).rtakeWhile fun i => !i.isEmpty

/-- A slash and the names joined with slashes; nothing when there is no name. -/
def normalPath (names : List Bytes) : Bytes := if names = [] then [] else 47 :: [47].intercalate names

/-! ## Paths and their segments -/

section Paths
variable {names : List Bytes}

theorem normalPath_eq (names : List Bytes) : normalPath names = [47].intercalate ([] :: names) := by
  cases names with
  | nil => rfl
  | cons i names =>
    rw [normalPath, if_neg (List.cons_ne_nil i names), List.intercalate_cons_cons]
    rfl

theorem normalPath_cons (i : Bytes) (names : List Bytes) :
    normalPath (i :: names) = 47 :: i ++ normalPath names := by
  rw [normalPath, if_neg (List.cons_ne_nil i names)]
  cases names with
  | nil => simp [normalPath]
  | cons j names =>
    rw [List.intercalate_cons_cons, normalPath, if_neg (List.cons_ne_nil j names)]
    simp

theorem splitOn_normalPath (h : ∀ i ∈ names, 47 ∉ i) : (normalPath names).splitOn 47 = [] :: names := by
  rw [normalPath_eq]
  exact List.splitOn_intercalate 47 (List.forall_mem_cons.mpr ⟨List.not_mem_nil, h⟩) (List.cons_ne_nil _ _)

theorem normalPath_inj {names' : List Bytes} (h : ∀ i ∈ names, 47 ∉ i) (h' : ∀ i ∈ names', 47 ∉ i) :
    normalPath names = normalPath names' ↔ names = names' := by
  refine ⟨fun he => ?_, congrArg normalPath⟩
  have hsplit := congrArg (List.splitOn 47) he
  rw [splitOn_normalPath h, splitOn_normalPath h'] at hsplit
  exact (List.cons.inj hsplit).2

/-- A segment of a normal path: a trimmed name without a slash. -/
structure IsName (i : Bytes) : Prop where
  slash : 47 ∉ i
  trimmed : Trimmed i
  ne_nil : i ≠ []
  mark : partMark i = .name

theorem IsName.not_dots {i : Bytes} (h : IsName i) : i ≠ [] ∧ i ≠ ascii "." ∧ i ≠ ascii ".." := by
  have hmark := h.mark
  refine ⟨h.ne_nil, ?_, ?_⟩
  · rintro rfl
    exact absurd hmark (by decide)
  · rintro rfl
    exact absurd hmark (by decide)

theorem mem_words {t i : Bytes} (h : i ∈ words t) : 47 ∉ i ∧ Trimmed i ∧ i ≠ [] := by
  have hne := List.mem_rtakeWhile_imp h
  obtain ⟨segment, hs, rfl⟩ := List.mem_map.mp ((List.rtakeWhile_suffix _ _).subset h)
  refine ⟨fun hslash => (exists_of_mem_splitOn hs).1 (mem_of_mem_trim hslash), trimmed_trim segment, ?_⟩
  simpa using hne

/-- The names of a normal path are its words again. -/
theorem words_intercalate (hne : names ≠ []) (h : ∀ i ∈ names, IsName i) :
    words ([47].intercalate names) = names := by
  have htrim : names.map trim = names :=
    (List.map_congr_left fun i hi => trim_eq_self (h i hi).trimmed).trans (List.map_id names)
  rw [words, List.splitOn_intercalate 47 (fun i hi => (h i hi).slash) hne, htrim, List.rtakeWhile_eq_self_iff]
  intro i hi
  simpa using (h i hi).ne_nil

theorem joined_normalPath (h : ∀ i ∈ names, IsName i) (u : Url) :
    words ({ u with path := normalPath names }.joined []) = names := by
  cases names with
  | nil => rfl
  | cons i names =>
    have hpath : ({ u with path := normalPath (i :: names) } : Url).joined [] = [47].intercalate (i :: names) := by
      simp [joined, normalPath]
    rw [hpath, words_intercalate (List.cons_ne_nil i names) h]

end Paths

/-! ## The counter -/

/-- The test `s > 0` of the source, after `q` increments that were not taken back. -/
def counterSkips (q : ℕ) : Bool := decide (0 < toInt32 q)

theorem counterSkips_fails : StackScan.Fails counterSkips (2 ^ 31) where
  zero := by decide
  below q hq hlt := by
    rw [counterSkips, toInt32_of_lt hlt]
    exact decide_eq_true (by omega)
  above q hle hs := by
    have hpos := of_decide_eq_true hs
    unfold toInt32 at hpos
    rw [Int.bmod_def] at hpos
    omega

theorem toInt32_succ (q : ℕ) : toInt32 (toInt32 q + 1) = toInt32 ((q + 1 : ℕ) : ℤ) := by
  simp only [toInt32, Int.bmod_add_bmod]
  norm_cast

theorem toInt32_pred {q : ℕ} (h : 0 < toInt32 q) : toInt32 q - 1 = toInt32 ((q - 1 : ℕ) : ℤ) := by
  simp only [toInt32, Int.bmod_def] at *
  omega

/-- The loop of `normalize` is the scan, up to the last empty segment. -/
theorem joinParts_eq (v : List Bytes) (q : ℕ) (kept : List Bytes) :
    joinParts v (toInt32 q) (normalPath kept) =
      normalPath (StackScan.scan partMark counterSkips (v.takeWhile fun i => !i.isEmpty) q kept) := by
  induction v generalizing q kept with
  | nil => rfl
  | cons i v ih =>
    rw [joinParts]
    by_cases hback : i = ascii ".."
    · subst hback
      rw [if_pos rfl, toInt32_succ, ih]
      rfl
    rw [if_neg hback]
    by_cases hstay : i = ascii "."
    · subst hstay
      rw [if_pos rfl, ih]
      rfl
    rw [if_neg hstay]
    by_cases hempty : i.isEmpty = true
    · rw [if_pos hempty, List.takeWhile_cons_of_neg (by simp [hempty])]
      rfl
    · have hname : partMark i = .name := by rw [partMark, if_neg hback, if_neg hstay]
      rw [if_neg hempty, List.takeWhile_cons_of_pos (by simpa using hempty), StackScan.scan, hname]
      dsimp only
      by_cases hpos : 0 < toInt32 q
      · have hskips : counterSkips q = true := decide_eq_true hpos
        rw [if_pos hpos, if_pos hskips, toInt32_pred hpos, ih]
      · have hskips : ¬counterSkips q = true := fun hs => hpos (of_decide_eq_true hs)
        rw [if_neg hpos, if_neg hskips, ← normalPath_cons, ih]

/-! ## `normalize` -/

/-- The names that `normalize` keeps. -/
def kept (u : Url) (basePath : Bytes) : List Bytes :=
  StackScan.scan partMark counterSkips (words (u.joined basePath)).reverse 0 []

theorem normalize_eq (u : Url) (basePath : Bytes) :
    u.normalize basePath = { u with path := normalPath (u.kept basePath) } := by
  have hwords : (tokenize (u.joined basePath) (ascii "/")).reverse.takeWhile (fun i => !i.isEmpty) =
      (words (u.joined basePath)).reverse := by
    by_cases hne : u.joined basePath = []
    · rw [hne]
      rfl
    · have htok : tokenize (u.joined basePath) (ascii "/") = ((u.joined basePath).splitOn 47).map trim :=
        tokenize_eq hne 47
      rw [htok, words, List.rtakeWhile, List.reverse_reverse]
  have hpath := joinParts_eq (tokenize (u.joined basePath) (ascii "/")).reverse 0 []
  rw [hwords] at hpath
  rw [normalize]
  exact congrArg (fun path => { u with path := path }) hpath

theorem isName_kept (u : Url) (basePath : Bytes) : ∀ i ∈ u.kept basePath, IsName i := by
  intro i hi
  rcases StackScan.mem_scan hi with hnil | ⟨hmem, hmark⟩
  · cases hnil
  · obtain ⟨hslash, htrim, hne⟩ := mem_words (List.mem_reverse.mp hmem)
    exact ⟨hslash, htrim, hne, hmark⟩

theorem not_mem_stack (u : Url) (basePath : Bytes) :
    ∀ i ∈ StackScan.stack partMark (words (u.joined basePath)), 47 ∉ i :=
  fun _ hi => (mem_words (StackScan.mem_stack hi)).1

/-- The path is the one the stack leaves exactly when the counter is right wherever a name meets it. -/
theorem normalize_path_iff (u : Url) (basePath : Bytes) :
    (u.normalize basePath).path = normalPath (StackScan.stack partMark (words (u.joined basePath))) ↔
      StackScan.Tested partMark counterSkips (words (u.joined basePath)).reverse 0 := by
  rw [← StackScan.scan_eq_stack_iff counterSkips_fails (by norm_num), normalize_eq]
  exact normalPath_inj (fun i hi => (u.isName_kept basePath i hi).slash) (u.not_mem_stack basePath)

theorem normalize_segments (u : Url) (basePath : Bytes) :
    ∀ i ∈ ((u.normalize basePath).path.splitOn 47).tail, i ≠ [] ∧ i ≠ ascii "." ∧ i ≠ ascii ".." := by
  have hnames := u.isName_kept basePath
  rw [normalize_eq]
  change ∀ i ∈ ((normalPath (u.kept basePath)).splitOn 47).tail, _
  rw [splitOn_normalPath fun i hi => (hnames i hi).slash, List.tail_cons]
  exact fun i hi => (hnames i hi).not_dots

theorem normalize_normalize (u : Url) (basePath : Bytes) :
    (u.normalize basePath).normalize [] = u.normalize basePath := by
  have hnames := u.isName_kept basePath
  rw [normalize_eq u basePath, normalize_eq]
  have hkept : ({ u with path := normalPath (u.kept basePath) } : Url).kept [] = u.kept basePath := by
    rw [kept, joined_normalPath hnames, StackScan.scan_names counterSkips_fails.zero, List.reverse_reverse,
      List.append_nil]
    exact fun i hi => (hnames i (List.mem_reverse.mp hi)).mark
  rw [hkept]

/-- `normalize` leaves what the stack leaves, without empty, `.` and `..` segments and in a form that it does
not change again, if and only if no name of the path meets a number of pending `..` that an `int` does not
show as positive. -/
theorem normalize_iff (u : Url) (basePath : Bytes) :
    ((u.normalize basePath).path = normalPath (StackScan.stack partMark (words (u.joined basePath))) ∧
      (∀ i ∈ ((u.normalize basePath).path.splitOn 47).tail, i ≠ [] ∧ i ≠ ascii "." ∧ i ≠ ascii "..") ∧
      (u.normalize basePath).normalize [] = u.normalize basePath) ↔
    StackScan.Tested partMark counterSkips (words (u.joined basePath)).reverse 0 := by
  rw [← normalize_path_iff]
  exact and_iff_left ⟨u.normalize_segments basePath, u.normalize_normalize basePath⟩

/-- A path with fewer than `2 ^ 31` segments `..` is normalized as the stack has it. -/
theorem normalize_of_few (u : Url) (basePath : Bytes)
    (h : (words (u.joined basePath)).countP (fun i => partMark i == .back) < 2 ^ 31) :
    (u.normalize basePath).path = normalPath (StackScan.stack partMark (words (u.joined basePath))) := by
  refine (u.normalize_path_iff basePath).mpr (StackScan.tested_of_few counterSkips_fails ?_)
  rw [List.countP_reverse, Nat.zero_add]
  exact h

example : (({ Url.new with path := ascii "/../../.././file.txt" } : Url).normalize
    (ascii "/some/path/to/set/")).path = ascii "/some/file.txt" := by decide +kernel

namespace Sample

/-- `a`, and behind it `n` times `/..`. -/
def climbing (n : ℕ) : Url :=
  { Url.new with path := [47].intercalate (ascii "a" :: List.replicate n (ascii "..")) }

theorem words_climbing (n : ℕ) :
    words ((climbing n).joined []) = ascii "a" :: List.replicate n (ascii "..") := by
  have hall : ∀ i ∈ ascii "a" :: List.replicate n (ascii ".."), 47 ∉ i ∧ trim i = i ∧ i.isEmpty = false := by
    refine List.forall_mem_cons.mpr ⟨by decide +kernel, fun i hi => ?_⟩
    rw [List.eq_of_mem_replicate hi]
    decide +kernel
  have hhead : (climbing n).path.head? = some 97 := by
    cases n with
    | zero => rfl
    | succ n => rfl
  have hjoined : (climbing n).joined [] = [47].intercalate (ascii "a" :: List.replicate n (ascii "..")) := by
    rw [joined, hhead]
    rfl
  have htrim : (ascii "a" :: List.replicate n (ascii "..")).map trim =
      ascii "a" :: List.replicate n (ascii "..") :=
    (List.map_congr_left fun i hi => (hall i hi).2.1).trans (List.map_id _)
  rw [hjoined, words, List.splitOn_intercalate 47 (fun i hi => (hall i hi).1) (List.cons_ne_nil _ _), htrim,
    List.rtakeWhile_eq_self_iff]
  intro i hi
  rw [(hall i hi).2.2]
  rfl

theorem reverse_climbing (n : ℕ) : (words ((climbing n).joined [])).reverse =
    List.replicate n (ascii "..") ++ [ascii "a"] := by
  rw [words_climbing, List.reverse_cons, List.reverse_replicate]

theorem stack_climbing {n : ℕ} (hn : 0 < n) :
    StackScan.stack partMark (words ((climbing n).joined [])) = [] := by
  have hname : partMark (ascii "a") = .name := by decide
  rw [StackScan.stack_eq_scan, reverse_climbing, StackScan.scan_backs (by decide), Nat.zero_add]
  simp [StackScan.scan, hname, hn]

theorem path_climbing {n : ℕ} (hn : counterSkips n = false) :
    ((climbing n).normalize []).path = ascii "/a" := by
  have hname : partMark (ascii "a") = .name := by decide
  have hkept : (climbing n).kept [] = [ascii "a"] := by
    rw [kept, reverse_climbing, StackScan.scan_backs (by decide), Nat.zero_add]
    simp [StackScan.scan, hname, hn]
  rw [normalize_eq, hkept]
  rfl

end Sample

/-- `2 ^ 31` times `..` take back the one name before them; `normalize` keeps it. -/
theorem normalize_keeps_name :
    StackScan.stack partMark (words ((Sample.climbing (2 ^ 31)).joined [])) = [] ∧
      ((Sample.climbing (2 ^ 31)).normalize []).path = ascii "/a" ∧
      ((Sample.climbing (2 ^ 31)).normalize []).path ≠
        normalPath (StackScan.stack partMark (words ((Sample.climbing (2 ^ 31)).joined []))) := by
  have hstack := Sample.stack_climbing (n := 2 ^ 31) (by norm_num)
  have hpath := Sample.path_climbing (n := 2 ^ 31) (by decide)
  refine ⟨hstack, hpath, ?_⟩
  rw [hpath, hstack]
  decide

end Dcl.Url
