import Dcl.Http.Header
import Dcl.Url.Normalize

/-! # The web server of the examples

`on_request` of `examples/web_server/src/www_server.cpp`: a `GET` request is answered with a file whose name
`url::normalize` makes from the root directory and the path of the request. The name, as it is passed to
`ifstream`, is all that is modelled here: what the file system and the answer make of it is left out. -/
namespace Dcl.Web
open Dcl.Http
set_option autoImplicit false

structure WwwServer where
  rootDir : Bytes

namespace WwwServer

def new : WwwServer := ⟨ascii "/var/www"⟩

/-- The path of the normalized URL. -/
def fileName (services : Services) (w : WwwServer) (req : HttpRequest) : Bytes :=
  ((Url.new.parse services req.pathInfo).normalize w.rootDir).path

/-- The name that `on_request` passes to `ifstream`, if it does. `unset` is what a method that was never assigned
reads as. -/
def opens (services : Services) (unset : HttpMethod) (w : WwwServer) (req : HttpRequest) : Option Bytes :=
  if req.method.getD unset ≠ .get then none else some (cString (w.fileName services req))

end WwwServer

/-! ## Where a file lies -/

def resolveMark (i : Bytes) : StackScan.Mark :=
  if i = ascii ".." then .back else if i = ascii "." ∨ i = [] then .stay else .name

/-- The directories and the name that an absolute file name leads through. -/
def resolve (name : Bytes) : List Bytes := StackScan.stack resolveMark (name.splitOn 47)

/-- The trimmed segments of the path of a request. -/
def segments (services : Services) (req : HttpRequest) : List Bytes :=
  ((Url.new.parse services req.pathInfo).path.tail.splitOn 47).map trim

/-- No segment is empty, no `..` takes back more than the names of the path, and the first name that remains
is not `..` with a NUL behind it. -/
structure Stays (segs : List Bytes) : Prop where
  full : [] ∉ segs
  within : StackScan.Within Url.partMark segs 0
  plain : ∀ i ∈ (StackScan.stack Url.partMark segs).head?, ¬(ascii ".." ++ [0]) <+: i

section Names
open Url
variable {names : List Bytes} {services : Services} {req : HttpRequest}

theorem parsePath_head? (u : Url) (t : Bytes) : (u.parsePath t).path.head? = some 47 := by
  rw [parsePath]
  split
  case isTrue => rfl
  case isFalse h =>
    simp only [Bool.or_eq_true, bne_iff_ne, ne_eq, not_or, not_not] at h
    exact h.2

theorem parse_head? (u : Url) (value : Bytes) : (u.parse services value).path.head? = some 47 := by
  rw [parse]
  dsimp only
  split
  · exact parsePath_head? _ _
  · split <;> exact parsePath_head? _ _

theorem rtakeWhile_append_of_mem {segs : List Bytes} (h : [] ∈ segs) (l : List Bytes) :
    (l ++ segs).rtakeWhile (fun i => !i.isEmpty) = segs.rtakeWhile fun i => !i.isEmpty := by
  rw [List.rtakeWhile, List.rtakeWhile, List.reverse_append, List.takeWhile_append, if_neg]
  intro hlen
  have hall := List.takeWhile_eq_self_iff.mp ((List.takeWhile_prefix _).eq_of_length hlen)
  exact absurd (hall [] (List.mem_reverse.mpr h)) (by decide)

theorem rtakeWhile_append_full {segs : List Bytes} (h : [] ∉ segs) (l : List Bytes) :
    (l ++ segs).rtakeWhile (fun i => !i.isEmpty) = l.rtakeWhile (fun i => !i.isEmpty) ++ segs := by
  have hall : ∀ i ∈ segs.reverse, (!i.isEmpty) = true := fun i hi => by
    rw [Bool.not_eq_true', List.isEmpty_eq_false_iff]
    exact fun hnil => h (hnil ▸ List.mem_reverse.mp hi)
  rw [List.rtakeWhile, List.rtakeWhile, List.reverse_append, List.takeWhile_append_of_pos hall,
    List.reverse_append, List.reverse_reverse]

/-- The words of a path under a root directory: an empty segment drops the root. -/
theorem words_joined (hnames : ∀ i ∈ names, IsName i) :
    words ((Url.new.parse services req.pathInfo).joined (normalPath names ++ [47])) =
      if [] ∈ segments services req then (segments services req).rtakeWhile fun i => !i.isEmpty
      else names ++ segments services req := by
  have hjoined : (Url.new.parse services req.pathInfo).joined (normalPath names ++ [47]) =
      normalPath names ++ 47 :: (Url.new.parse services req.pathInfo).path.tail := by
    rw [joined, if_pos (.inl (parse_head? _ _)), List.append_assoc]
    rfl
  have htrim : names.map trim = names :=
    (List.map_congr_left fun i hi => trim_eq_self (hnames i hi).trimmed).trans (List.map_id names)
  have hsplit : ((normalPath names ++ 47 :: (Url.new.parse services req.pathInfo).path.tail).splitOn
      47).map trim = [] :: names ++ segments services req := by
    rw [List.splitOn_append_cons_self, splitOn_normalPath fun i hi => (hnames i hi).slash, List.map_append,
      List.map_cons, htrim]
    rfl
  rw [words, hjoined, hsplit]
  split
  case isTrue h => rw [rtakeWhile_append_of_mem h]
  case isFalse h =>
    have hfull : [] ∉ names := fun hmem => (hnames [] hmem).ne_nil rfl
    have hroot : ([] :: names).rtakeWhile (fun i => !i.isEmpty) = names := by
      rw [← List.singleton_append, rtakeWhile_append_full hfull]
      rfl
    rw [rtakeWhile_append_full h, hroot]

theorem isName_stack {segs : List Bytes} (h : ∀ i ∈ segs, 47 ∉ i ∧ Trimmed i ∧ i ≠ []) :
    ∀ i ∈ StackScan.stack partMark segs, IsName i := by
  intro i hi
  rw [StackScan.stack_eq_scan] at hi
  rcases StackScan.mem_scan hi with hnil | ⟨hmem, hmark⟩
  · cases hnil
  · obtain ⟨hslash, htrim, hne⟩ := h i (List.mem_reverse.mp hmem)
    exact ⟨hslash, htrim, hne, hmark⟩

theorem mem_segments {i : Bytes} (h : i ∈ segments services req) : 47 ∉ i ∧ Trimmed i := by
  obtain ⟨segment, hs, rfl⟩ := List.mem_map.mp h
  exact ⟨fun hslash => (exists_of_mem_splitOn hs).1 (mem_of_mem_trim hslash), trimmed_trim segment⟩

/-! ## The name that is opened -/

theorem resolveMark_name {i : Bytes} (h : IsName i) : resolveMark i = .name := by
  obtain ⟨hne, hdot, hdots⟩ := h.not_dots
  rw [resolveMark, if_neg hdots, if_neg (not_or.mpr ⟨hdot, hne⟩)]

theorem stack_root (h : ∀ i ∈ names, IsName i) : StackScan.stack resolveMark ([] :: names) = names := by
  have hroot : StackScan.push resolveMark [] [] = [] := rfl
  rw [StackScan.stack, List.foldl_cons, hroot,
    StackScan.foldl_push_names (fun i hi => resolveMark_name (h i hi)), List.nil_append]

theorem resolve_normalPath (h : ∀ i ∈ names, IsName i) : resolve (normalPath names) = names := by
  rw [resolve, splitOn_normalPath fun i hi => (h i hi).slash, stack_root h]

/-- One more segment, whatever it is, behind a normal path. -/
theorem resolve_followed (h : ∀ i ∈ names, IsName i) {k : Bytes} (hk : 47 ∉ k) :
    resolve (normalPath names ++ 47 :: k) = StackScan.push resolveMark names k := by
  have hsingle : k.splitOn 47 = [k] := by
    have hsplit := List.splitOn_intercalate 47 (List.forall_mem_singleton.mpr hk) (List.cons_ne_nil k [])
    simpa using hsplit
  rw [resolve, List.splitOn_append_cons_self, splitOn_normalPath (fun i hi => (h i hi).slash), hsingle,
    StackScan.stack, List.foldl_append]
  change List.foldl _ (StackScan.stack resolveMark ([] :: names)) [k] = _
  rw [stack_root h]
  rfl

theorem normalPath_append (l l' : List Bytes) : normalPath (l ++ l') = normalPath l ++ normalPath l' := by
  induction l with
  | nil => rfl
  | cons i l ih => rw [List.cons_append, normalPath_cons, normalPath_cons, ih, List.append_assoc]

theorem mem_normalPath {l : List Bytes} {c : UInt8} (h : c ∈ normalPath l) : c = 47 ∨ ∃ i ∈ l, c ∈ i := by
  induction l with
  | nil => cases h
  | cons i l ih =>
    rw [normalPath_cons] at h
    rcases List.mem_append.mp h with h | h
    · exact (List.mem_cons.mp h).imp_right fun hi => ⟨i, List.mem_cons_self, hi⟩
    · exact (ih h).imp_right fun ⟨j, hj, hc⟩ => ⟨j, List.mem_cons_of_mem i hj, hc⟩

theorem nul_notMem_normalPath {l : List Bytes} (h : ∀ i ∈ l, 0 ∉ i) : 0 ∉ normalPath l := fun hmem => by
  rcases mem_normalPath hmem with h0 | ⟨i, hi, hc⟩
  · exact absurd h0 (by decide)
  · exact h i hi hc

/-- A list of names up to the first one with a NUL. -/
theorem nul_cases (l : List Bytes) :
    (∀ i ∈ l, 0 ∉ i) ∨ ∃ l₁ k l₂, l = l₁ ++ k :: l₂ ∧ (∀ i ∈ l₁, 0 ∉ i) ∧ 0 ∈ k := by
  induction l with
  | nil => exact .inl nofun
  | cons i l ih =>
    by_cases hi : 0 ∈ i
    · exact .inr ⟨[], i, l, rfl, nofun, hi⟩
    · rcases ih with hall | ⟨l₁, k, l₂, rfl, h₁, hk⟩
      · exact .inl (List.forall_mem_cons.mpr ⟨hi, hall⟩)
      · exact .inr ⟨i :: l₁, k, l₂, rfl, List.forall_mem_cons.mpr ⟨hi, h₁⟩, hk⟩

theorem cString_append_nul {k : Bytes} (h : 0 ∈ k) : ∃ r, k = cString k ++ 0 :: r := by
  obtain ⟨a, r, rfl, ha⟩ := List.eq_append_cons_of_mem h
  exact ⟨r, by rw [cString_nul ha]⟩

/-- What `ifstream` is given of a normal path in which a NUL stands. -/
theorem cString_normalPath {l₁ l₂ : List Bytes} {k : Bytes} (h₁ : ∀ i ∈ l₁, 0 ∉ i) (hk : 0 ∈ k) :
    cString (normalPath (l₁ ++ k :: l₂)) = normalPath l₁ ++ 47 :: cString k := by
  obtain ⟨r, hr⟩ := cString_append_nul hk
  have hcut : normalPath (l₁ ++ k :: l₂) = (normalPath l₁ ++ 47 :: cString k) ++ 0 :: (r ++ normalPath l₂) := by
    rw [normalPath_append, normalPath_cons]
    nth_rewrite 1 [hr]
    simp
  rw [hcut, cString_nul]
  intro hmem
  rcases List.mem_append.mp hmem with hmem | hmem
  · exact nul_notMem_normalPath h₁ hmem
  · rcases List.mem_cons.mp hmem with h0 | hmem
    · exact absurd h0 (by decide)
    · exact nul_notMem_cString k hmem

/-- The segments of the opened file are no longer than the names of the path. -/
theorem length_of_mem_resolve (h : ∀ i ∈ names, IsName i) {i : Bytes}
    (hi : i ∈ resolve (cString (normalPath names))) : ∃ j ∈ names, i.length ≤ j.length := by
  rcases nul_cases names with hall | ⟨l₁, k, l₂, rfl, h₁, hk⟩
  · rw [cString_eq_self (nul_notMem_normalPath hall), resolve_normalPath h] at hi
    exact ⟨i, hi, Nat.le_refl _⟩
  · have hk47 : 47 ∉ cString k := fun hmem =>
      (h k (by simp)).slash ((List.takeWhile_prefix _).subset hmem)
    rw [cString_normalPath h₁ hk, resolve_followed (fun j hj => h j (List.mem_append_left _ hj)) hk47] at hi
    have hfold : StackScan.push resolveMark l₁ (cString k) =
        [cString k].foldl (StackScan.push resolveMark) l₁ := rfl
    rw [hfold] at hi
    rcases StackScan.mem_foldl_push hi with hi | hi
    · exact ⟨i, List.mem_append_left _ hi, Nat.le_refl _⟩
    · rw [List.mem_singleton.mp hi]
      exact ⟨k, by simp, (List.takeWhile_prefix _).length_le⟩

end Names

/-! ## Confinement -/

section Confinement
open Url
variable {services : Services} {req : HttpRequest} {names : List Bytes}

/-- The names that are left of the root directory and the path. -/
def left (services : Services) (names : List Bytes) (req : HttpRequest) : List Bytes :=
  StackScan.stack partMark
    (if [] ∈ segments services req then (segments services req).rtakeWhile fun i => !i.isEmpty
      else names ++ segments services req)

theorem fileName_eq (hnames : ∀ i ∈ names, IsName i)
    (hfew : (segments services req).countP (fun i => partMark i == .back) < 2 ^ 31) :
    WwwServer.fileName services ⟨normalPath names ++ [47]⟩ req = normalPath (left services names req) := by
  have hwords := @words_joined names services req hnames
  rw [WwwServer.fileName, normalize_of_few, hwords]
  · rfl
  · rw [hwords]
    refine Nat.lt_of_le_of_lt ?_ hfew
    split
    case isTrue => exact (List.rtakeWhile_suffix _ _).sublist.countP_le
    case isFalse =>
      have hroot : names.countP (fun i => partMark i == .back) = 0 :=
        List.countP_eq_zero.mpr fun i hi => by rw [(hnames i hi).mark]; decide
      rw [List.countP_append, hroot, Nat.zero_add]

theorem isName_left (hnames : ∀ i ∈ names, IsName i) : ∀ i ∈ left services names req, IsName i := by
  refine isName_stack fun i hi => ?_
  split at hi
  case isTrue =>
    have hsegs := mem_segments ((List.rtakeWhile_suffix _ _).subset hi)
    refine ⟨hsegs.1, hsegs.2, ?_⟩
    simpa using List.mem_rtakeWhile_imp hi
  case isFalse hfull =>
    rcases List.mem_append.mp hi with hi | hi
    · exact ⟨(hnames i hi).slash, (hnames i hi).trimmed, (hnames i hi).ne_nil⟩
    · exact ⟨(mem_segments hi).1, (mem_segments hi).2, fun hnil => hfull (hnil ▸ hi)⟩

theorem left_of_full (hnames : ∀ i ∈ names, IsName i) (hfull : [] ∉ segments services req) :
    left services names req = (segments services req).foldl (StackScan.push partMark) names := by
  rw [left, if_neg hfull, StackScan.stack, List.foldl_append,
    StackScan.foldl_push_names (fun i hi => (hnames i hi).mark), List.nil_append]

theorem left_of_within (hnames : ∀ i ∈ names, IsName i) (hfull : [] ∉ segments services req)
    (hwithin : StackScan.Within partMark (segments services req) 0) :
    left services names req = names ++ StackScan.stack partMark (segments services req) := by
  have hpush := StackScan.foldl_push_within (s := []) names hwithin
  rw [List.append_nil] at hpush
  rw [left_of_full hnames hfull, hpush]
  rfl

theorem resolveMark_back {k : Bytes} (h : resolveMark k = .back) : k = ascii ".." := by
  rw [resolveMark] at h
  by_contra hne
  rw [if_neg hne] at h
  split at h <;> cases h

/-- A path that stays opens a file below the root directory. -/
theorem below_of_stays (hnames : ∀ i ∈ names, IsName i ∧ 0 ∉ i)
    (hstays : Stays (segments services req)) :
    names <+: resolve (cString (normalPath (left services names req))) := by
  have hroot := fun i hi => (hnames i hi).1
  have hall := @isName_left services req _ hroot
  rw [left_of_within hroot hstays.full hstays.within] at hall ⊢
  rcases nul_cases (StackScan.stack partMark (segments services req)) with hplain | ⟨l₁, k, l₂, hcut, h₁, hk⟩
  · have hnul : 0 ∉ normalPath (names ++ StackScan.stack partMark (segments services req)) :=
      nul_notMem_normalPath (List.forall_mem_append.mpr ⟨fun i hi => (hnames i hi).2, hplain⟩)
    rw [cString_eq_self hnul, resolve_normalPath hall]
    exact List.prefix_append _ _
  · rw [hcut] at hall ⊢
    have h₁' : ∀ i ∈ names ++ l₁, IsName i := fun i hi =>
      hall i (by rw [← List.append_assoc]; exact List.mem_append_left _ hi)
    have hk47 : 47 ∉ cString k := fun hmem =>
      (hall k (by simp)).slash ((List.takeWhile_prefix _).subset hmem)
    have hnul : ∀ i ∈ names ++ l₁, 0 ∉ i :=
      List.forall_mem_append.mpr ⟨fun i hi => (hnames i hi).2, h₁⟩
    rw [← List.append_assoc, cString_normalPath hnul hk, resolve_followed h₁' hk47, StackScan.push]
    cases hmark : resolveMark (cString k) with
    | name =>
      dsimp only
      rw [List.append_assoc]
      exact List.prefix_append _ _
    | stay => exact List.prefix_append _ _
    | back =>
      -- the only `..` takes back a name of the path
      have hne : l₁ ≠ [] := by
        rintro rfl
        obtain ⟨r, hr⟩ := cString_append_nul hk
        refine hstays.plain k (by rw [hcut]; rfl) ⟨r, ?_⟩
        rw [resolveMark_back hmark] at hr
        rw [List.append_assoc]
        exact hr.symm
      dsimp only
      rw [List.dropLast_append_of_ne_nil hne]
      exact List.prefix_append _ _

/-- A directory name that is longer than every segment of the path. -/
def stranger (segs : List Bytes) : Bytes := List.replicate (segs.flatten.length + 1) 97

theorem isName_stranger (segs : List Bytes) : IsName (stranger segs) ∧ 0 ∉ stranger segs := by
  have hall : ∀ c ∈ stranger segs, c = 97 := fun c hc => List.eq_of_mem_replicate hc
  have hblank : ∀ c ∈ stranger segs, blanks.contains c = false := fun c hc => by
    rw [hall c hc]
    decide
  have hne : stranger segs ≠ [] := List.cons_ne_nil _ _
  have hdots : stranger segs ≠ ascii ".." := fun he => by
    have hmem : (46 : UInt8) ∈ stranger segs := by rw [he]; decide
    exact absurd (hall 46 hmem) (by decide)
  have hdot : stranger segs ≠ ascii "." := fun he => by
    have hmem : (46 : UInt8) ∈ stranger segs := by rw [he]; decide
    exact absurd (hall 46 hmem) (by decide)
  refine ⟨⟨fun h => absurd (hall _ h) (by decide), ⟨fun c hc => ?_, fun c hc => ?_⟩, hne, ?_⟩,
    fun h => absurd (hall _ h) (by decide)⟩
  · exact hblank c (List.mem_of_mem_head? hc)
  · exact hblank c (List.mem_of_mem_getLast? hc)
  · rw [partMark, if_neg hdots, if_neg hdot]

theorem stranger_notMem {segs : List Bytes} {i : Bytes} (hi : ∃ j ∈ segs, i.length ≤ j.length) :
    i ≠ stranger segs := by
  rintro rfl
  obtain ⟨j, hj, hle⟩ := hi
  have hflat := (List.sublist_flatten_of_mem hj).length_le
  rw [stranger, List.length_replicate] at hle
  omega

/-- Another path opens a file that does not lie below some root directory. -/
theorem not_below_of_not_stays (h : ¬Stays (segments services req)) :
    ¬[stranger (segments services req)] <+:
      resolve (cString (normalPath (left services [stranger (segments services req)] req))) := by
  set segs := segments services req with hsegs
  have hz := isName_stranger segs
  have hroot : ∀ i ∈ [stranger segs], IsName i := List.forall_mem_singleton.mpr hz.1
  have hname := @isName_left services req _ hroot
  have hzsegs : stranger segs ∉ segs := fun hmem =>
    stranger_notMem ⟨_, hmem, Nat.le_refl _⟩ rfl
  -- it is enough that only segments of the path are left
  have hgone : (∀ i ∈ left services [stranger segs] req, i ∈ segs) →
      ¬[stranger segs] <+: resolve (cString (normalPath (left services [stranger segs] req))) := by
    intro honly hpre
    obtain ⟨j, hj, hle⟩ := length_of_mem_resolve hname (hpre.subset List.mem_cons_self)
    exact stranger_notMem ⟨j, honly j hj, hle⟩ rfl
  by_cases hfull : [] ∈ segs
  · refine hgone fun i hi => ?_
    rw [left, if_pos hfull] at hi
    exact (List.rtakeWhile_suffix _ _).subset (StackScan.mem_stack hi)
  by_cases hwithin : StackScan.Within partMark segs 0
  · have hplain : ∃ i ∈ (StackScan.stack partMark segs).head?, (ascii ".." ++ [0]) <+: i := by
      by_contra hno
      exact h ⟨hfull, hwithin, fun i hi hpre => hno ⟨i, hi, hpre⟩⟩
    obtain ⟨k, hk, r, hr⟩ := hplain
    obtain ⟨rest, hrest⟩ := List.head?_eq_some_iff.mp hk
    have hdots : cString k = ascii ".." := by
      rw [← hr, List.append_assoc]
      exact cString_nul (by decide) r
    have hk0 : (0 : UInt8) ∈ k := by
      rw [← hr]
      simp
    rw [left_of_within hroot hfull hwithin, ← hsegs, hrest,
      cString_normalPath (List.forall_mem_singleton.mpr hz.2) hk0, hdots,
      resolve_followed hroot (by decide)]
    have hback : StackScan.push resolveMark [stranger segs] (ascii "..") = [] := rfl
    rw [hback]
    exact fun hpre => absurd hpre.length_le (by simp)
  · refine hgone fun i hi => ?_
    have hleft := @left_of_full services req _ hroot hfull
    have hzleft := StackScan.notMem_of_not_within (s := []) List.not_mem_nil hzsegs hwithin
    rw [← hleft] at hzleft
    have hi' := hi
    rw [hleft] at hi'
    rcases StackScan.mem_foldl_push hi' with hone | hmem
    · rw [List.mem_singleton.mp hone] at hi
      exact absurd hi hzleft
    · exact hmem

/-- The name that is opened lies below the root directory, whatever the root directory is, if and only if the
request is no `GET` or its path stays. -/
theorem www_confined_iff (services : Services) (unset : HttpMethod) (req : HttpRequest)
    (hfew : (segments services req).countP (fun i => partMark i == .back) < 2 ^ 31) :
    (∀ names : List Bytes, (∀ i ∈ names, IsName i ∧ 0 ∉ i) →
      ∀ name ∈ WwwServer.opens services unset ⟨normalPath names ++ [47]⟩ req, names <+: resolve name) ↔
    req.method.getD unset ≠ .get ∨ Stays (segments services req) := by
  constructor
  · intro hbelow
    by_contra hnot
    obtain ⟨hget, hstays⟩ := not_or.mp hnot
    have hz := isName_stranger (segments services req)
    have hfile := fileName_eq (List.forall_mem_singleton.mpr hz.1) hfew
    refine not_below_of_not_stays hstays ?_
    rw [← hfile]
    exact hbelow _ (List.forall_mem_singleton.mpr hz) _ (if_neg hget)
  · intro hcond names hnames name hname
    rw [WwwServer.opens] at hname
    split at hname
    case isTrue => cases hname
    case isFalse hget =>
      obtain rfl := Option.some.inj hname
      rw [fileName_eq (fun i hi => (hnames i hi).1) hfew]
      exact below_of_stays hnames (hcond.resolve_left hget)

end Confinement

namespace Sample
open Url

def getRequest (path : Bytes) : HttpRequest := { HttpRequest.new with method := some .get, pathInfo := path }

def noServices : Services := fun _ => none

theorem stays_index : Stays (segments noServices (getRequest (ascii "/pub/../index.html"))) where
  full := by decide +kernel
  within := by
    have hsegs : segments noServices (getRequest (ascii "/pub/../index.html")) =
        [ascii "pub", ascii "..", ascii "index.html"] := by decide +kernel
    rw [hsegs]
    exact ⟨Nat.one_pos, trivial⟩
  plain := by decide +kernel

end Sample

/-- `/pub/../index.html` lies below any root directory, and `//etc/passwd` does not. The root directory of a new
server has no slash at its end: the first name of the path is appended to its last one. -/
theorem www_confined_iff_examples :
    (∀ names : List Bytes, (∀ i ∈ names, Url.IsName i ∧ 0 ∉ i) →
      ∀ name ∈ WwwServer.opens Sample.noServices .get ⟨Url.normalPath names ++ [47]⟩
        (Sample.getRequest (ascii "/pub/../index.html")), names <+: resolve name) ∧
    (¬∀ names : List Bytes, (∀ i ∈ names, Url.IsName i ∧ 0 ∉ i) →
      ∀ name ∈ WwwServer.opens Sample.noServices .get ⟨Url.normalPath names ++ [47]⟩
        (Sample.getRequest (ascii "//etc/passwd")), names <+: resolve name) ∧
    WwwServer.new.opens Sample.noServices .get (Sample.getRequest (ascii "/index.html")) =
      some (ascii "/var/wwwindex.html") := by
  refine ⟨(www_confined_iff Sample.noServices .get _ (by decide +kernel)).mpr (.inr Sample.stays_index), fun h => ?_,
    by decide +kernel⟩
  have hcond := (www_confined_iff Sample.noServices .get _ (by decide +kernel)).mp h
  rcases hcond with hmethod | hstays
  · exact hmethod rfl
  · exact hstays.full (by decide +kernel)

end Dcl.Web
