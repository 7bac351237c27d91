import Dcl.Config.Load
import Dcl.Foundations.Script
import Dcl.Strutils.Tokens

/-! # The expansion of a configuration file

What a configuration file means: its lines in order, each in the section that the lines of the same file
above it have chosen, and the files of an `@include` in the place of its line. A file is a script in the
sense of `Dcl.Foundations.Script`: its items are assignments and the files it includes.

`doLoad_eq` says that `do_load` carries this script out when no descriptor is missing: whatever the options were
before, the assignments of the expansion are made on them in order, and an exception leaves the process in the
directory of the file that could not be opened. `value_after_load` is the meaning of the options for
files that can all be read and do not include themselves. -/
namespace Dcl.Config
set_option autoImplicit false

/-! ## The grammar of a line -/

/-- A line without the white space around it. -/
def classify : Bytes → Line
  | [] => .skip
  | c :: t =>
      if c = 35 ∨ c = 59 then .skip
      else if c = 91 then .header (trim (t.takeWhile (· != 93)))
      else if 61 ∈ t then
        let name := trim (c :: t.takeWhile (· != 61))
        let value := trim (t.dropWhile (· != 61)).tail
        if name = ascii "@include" then .includes value else .assign name value
      else .skip

theorem findFirstOf_one (c : UInt8) (t : Bytes) (d : UInt8) :
    findFirstOf (c :: t) [d] 1 = (findFirstOf t [d] 0).map (1 + ·) := by
  rw [findFirstOf, findFirstOf, List.drop_succ_cons, Option.map_map]
  congr 1
  funext i
  simp

theorem readPair_eq {c : UInt8} (hc : ¬(c = 35 ∨ c = 59)) (hc' : c ≠ 91) (t : Bytes) :
    readPair (c :: t) = classify (c :: t) := by
  rw [readPair, classify, if_neg hc, if_neg hc']
  have hone : findFirstOf (c :: t) (ascii "=") 1 = (findFirstOf t [61] 0).map (1 + ·) :=
    findFirstOf_one c t 61
  rw [hone]
  by_cases ht : 61 ∈ t
  · obtain ⟨a, b, rfl, ha⟩ := List.eq_append_cons_of_mem ht
    have hname : (c :: (a ++ 61 :: b)).take (1 + a.length) = c :: a := by
      rw [Nat.add_comm, List.take_succ_cons, List.take_left]
    have hvalue : (c :: (a ++ 61 :: b)).drop (1 + a.length + 1) = b := by
      have hlen : 1 + a.length + 1 = (a.length + 1) + 1 := by omega
      rw [hlen, List.drop_succ_cons]
      simp
    rw [findFirstOf_append ha, if_pos ht]
    simp only [Option.map_some, hname, hvalue, takeWhile_bne_append ha, dropWhile_bne_append ha,
      List.tail_cons]
  · rw [findFirstOf_eq_none ht, if_neg ht]
    rfl

theorem section_text (t : Bytes) :
    (match findFirstOf (91 :: t) (ascii "]") 0 with
      | some pos => substr (91 :: t) 1 (pos - 1)
      | none => (91 :: t).drop 1) = t.takeWhile (· != 93) := by
  by_cases ht : 93 ∈ t
  · obtain ⟨a, b, rfl, ha⟩ := List.eq_append_cons_of_mem ht
    have hcut : findFirstOf (91 :: (a ++ 93 :: b)) (ascii "]") 0 = some (91 :: a).length :=
      findFirstOf_append (a := 91 :: a) (by simp [ha])
    rw [hcut, takeWhile_bne_append ha]
    simp [substr]
  · have hnone : findFirstOf (91 :: t) (ascii "]") 0 = none :=
      findFirstOf_eq_none (d := 93) (by simp [ht])
    rw [hnone, takeWhile_bne_self ht]
    rfl

theorem readLine_eq (raw : Bytes) : readLine raw = classify (trim raw) := by
  rw [readLine]
  cases trim raw with
  | nil => rfl
  | cons c t =>
    simp only
    by_cases hc : c = 35 ∨ c = 59
    · rw [if_pos hc, classify, if_pos hc]
    · rw [if_neg hc]
      by_cases hc' : c = 91
      · subst hc'
        rw [if_pos rfl, classify, if_neg hc, if_pos rfl]
        exact congrArg (fun x => Line.header (trim x)) (section_text t)
      · rw [if_neg hc', readPair_eq hc hc']

/-! ## A file as a script -/

structure Entry where
  sect : Bytes
  name : Bytes
  value : Bytes
  deriving DecidableEq, Repr

/-- A file as the loader names it: relative to a directory. -/
structure File (os : Os) where
  dir : os.Dir
  name : Bytes

section Expansion
variable {os : Os}

/-- The files an `@include` of the file `f` stands for. -/
def File.included (f : File os) (pattern : Bytes) : List (File os) :=
  (os.find true (includeDir os f.dir f.name) (cString pattern)).map fun n =>
    ⟨includeDir os f.dir f.name, n⟩

/-- The assignments and inclusions of the lines of `f`, from the section `sect` on. -/
def File.items (f : File os) : Bytes → List Bytes → List (Item (File os) Entry)
  | _, [] => []
  | sect, line :: lines =>
      match classify (trim line) with
      | .skip => f.items sect lines
      | .header s => f.items s lines
      | .assign name value => .emit ⟨sect, name, value⟩ :: f.items sect lines
      | .includes pattern => (f.included pattern).map .call ++ f.items sect lines

/-- Every file begins in the section without a name. A file that cannot be opened is a failure in its
directory. -/
def File.body (f : File os) : Except os.Dir (List (Item (File os) Entry)) :=
  match os.contents f.dir (cString f.name) with
  | none => .error f.dir
  | some text => .ok (f.items [] (text.splitOn LF))

def Expansion (f : File os) (es : List Entry) : Prop := Script.Expands File.body [.call f] es

theorem items_append_nil (f : File os) (sect : Bytes) (lines : List Bytes) :
    f.items sect (lines ++ [[]]) = f.items sect lines := by
  induction lines generalizing sect with
  | nil => rfl
  | cons line lines ih =>
    rw [List.cons_append, File.items, File.items]
    cases classify (trim line) with
    | skip => exact ih sect
    | header s => exact ih s
    | assign name value => rw [ih sect]
    | includes pattern => rw [ih sect]

theorem items_fileLines (f : File os) (sect text : Bytes) :
    f.items sect (fileLines text) = f.items sect (text.splitOn LF) := by
  rw [fileLines]
  split
  next h =>
    obtain ⟨lines, hlines⟩ := List.getLast?_eq_some_iff.mp h
    rw [hlines, List.dropLast_concat, items_append_nil]
  next => rfl

/-! ## `do_load` carries the script out -/

def assignAll (options : Sections) (es : List Entry) : Sections :=
  es.foldl (fun o e => o.assign e.sect e.name e.value) options

/-- The state after the items of a file were carried out from `st` on. -/
def outcome (st : State os) (r : List Entry × Option os.Dir) : State os × Option Bytes :=
  (⟨r.2.getD st.cwd, assignAll st.options r.1⟩, r.2.map fun _ => notFound)

/-- What is carried out behind the assignments `es`. -/
theorem outcome_append (st : State os) (es : List Entry) (r : List Entry × Option os.Dir) :
    outcome ⟨st.cwd, assignAll st.options es⟩ r = outcome st (es ++ r.1, r.2) := by
  simp only [outcome, assignAll, List.foldl_append]

/-- The loader carries out what the calls of the script give, as far as they give anything. -/
def Follows (load : State os → Bytes → Outcome os) (calls : File os → Script.Outcome Entry os.Dir) : Prop :=
  ∀ st name r, calls ⟨st.cwd, name⟩ = some r → load st name = some (outcome st r)

variable {load : State os → Bytes → Outcome os} {calls : File os → Script.Outcome Entry os.Dir}
  {r : List Entry × Option os.Dir}

theorem loadFiles_eq (hload : Follows load calls) {files : List Bytes} {st : State os}
    (h : Script.exec calls (files.map fun n => .call ⟨st.cwd, n⟩) = some r) :
    loadFiles load files st = some (outcome st r) := by
  induction files generalizing st r with
  | nil =>
    obtain rfl := Option.some.inj h
    rfl
  | cons i files ih =>
    rw [List.map_cons] at h
    rw [loadFiles]
    rcases Script.exec_call_cases h with ⟨es, s, hcall, hrest, rfl⟩ | ⟨es, e, hcall, rfl⟩
    · -- the file was loaded: the process is where it was
      have hfiles := @ih s ⟨st.cwd, assignAll st.options es⟩ hrest
      rw [hload st i _ hcall, ← outcome_append, ← hfiles]
      rfl
    · rw [hload st i _ hcall]
      rfl

theorem loadInclude_eq (hload : Follows load calls) {name pattern : Bytes} {st : State os}
    (h : Script.exec calls ((File.included ⟨st.cwd, name⟩ pattern).map .call) = some r) :
    loadInclude true load name pattern st = some (outcome st r) := by
  rw [File.included, List.map_map] at h
  have hfiles := @loadFiles_eq _ _ _ r hload _ { st with cwd := includeDir os st.cwd name } h
  simp only [loadInclude, hfiles]
  obtain ⟨es, _ | e⟩ := r
  · simp only [outcome, Option.getD_none, Option.map_none, os.chdir_getcwd]
  · rfl

theorem loadLines_eq (hload : Follows load calls) (name : Bytes) {lines : List Bytes} {sect : Bytes}
    {st : State os} (h : Script.exec calls (File.items ⟨st.cwd, name⟩ sect lines) = some r) :
    loadLines true load name lines sect st = some (outcome st r) := by
  induction lines generalizing sect st r with
  | nil =>
    obtain rfl := Option.some.inj h
    rfl
  | cons line lines ih =>
    rw [File.items] at h
    rw [loadLines, readLine_eq]
    cases hline : classify (trim line) with
    | skip =>
      rw [hline] at h
      exact ih h
    | header s =>
      rw [hline] at h
      exact ih h
    | assign key value =>
      rw [hline] at h
      obtain ⟨s, hs, rfl⟩ := Option.map_eq_some_iff.mp h
      exact @ih s sect { st with options := st.options.assign sect key value } hs
    | includes pattern =>
      simp only [hline, Script.exec_append] at h
      dsimp only
      cases hfiles : Script.exec calls ((File.included ⟨st.cwd, name⟩ pattern).map .call) with
      | none =>
        rw [hfiles] at h
        cases h
      | some s =>
        rw [hfiles] at h
        rw [loadInclude_eq hload hfiles]
        obtain ⟨es, _ | e⟩ := s
        · obtain ⟨s, hs, rfl⟩ := Option.map_eq_some_iff.mp h
          have hlines := @ih s sect ⟨st.cwd, assignAll st.options es⟩ hs
          rw [← outcome_append, ← hlines]
          rfl
        · obtain rfl := Option.some.inj h
          rfl

/-- `do_load` carries the script out when there are more descriptors than levels. -/
theorem doLoad_eq {n depth descriptors : ℕ} (hdepth : n ≤ depth) (hfree : n < descriptors) (st : State os)
    (name : Bytes) (h : Script.run File.body n ⟨st.cwd, name⟩ = some r) :
    doLoad os depth descriptors st name = some (outcome st r) := by
  induction n generalizing depth descriptors st name r with
  | zero => cases h
  | succ n ih =>
    obtain ⟨depth, rfl⟩ : ∃ k, depth = k + 1 := ⟨depth - 1, by omega⟩
    obtain ⟨descriptors, rfl⟩ : ∃ k, descriptors = k + 1 := ⟨descriptors - 1, by omega⟩
    have hload : Follows (doLoad os depth descriptors) (Script.run File.body n) := fun st name r hr =>
      ih (by omega) (by omega) st name hr
    rw [Script.run, File.body] at h
    rw [doLoad]
    dsimp only at h
    cases hopen : os.contents st.cwd (cString name) with
    | none =>
      rw [hopen] at h
      obtain rfl := Option.some.inj h
      rfl
    | some text =>
      rw [hopen] at h
      have hleft : decide (0 < descriptors) = true := decide_eq_true (by omega)
      dsimp only
      rw [hleft]
      refine loadLines_eq hload name ?_
      rw [items_fileLines]
      exact h

end Expansion

end Dcl.Config
