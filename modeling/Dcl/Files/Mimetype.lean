import Dcl.Config.Meaning
import Dcl.Foundations.Loop
import Dcl.Strutils.Splitting

/-! # `mimetype`: the type of a file by its extension

`src/dcl/mimetype.cpp`. The two files that the constructor looks for are parameters: their contents, if they can
be opened. `classify_read` says what the table answers after it was filled from files of any layout. -/
namespace Dcl
set_option autoImplicit false

structure Mimetype where
  mime : Config.StrIndex
  defaultType : Bytes

namespace Mimetype

def registerType (m : Mimetype) (ext mimeType : Bytes) : Mimetype := { m with mime := m.mime.set ext mimeType }

/-- One pass of the loop of `load_from_file`: blank lines, comments and types without extensions are skipped. -/
def loadLine (m : Mimetype) (text : Bytes) : Mimetype :=
  let line := trim text
  if line.isEmpty ∨ line.head? = some 35 ∨ line.head? = some 59 then m
  else
    match findFirstOf line (ascii " \t") 1 with
    | some pos =>
        let exts := tokenize (trim (line.drop (pos + 1))) (ascii " \t")
        exts.foldl (fun m i => if i.isEmpty then m else m.registerType i (line.take pos)) m
    | none => m

def loadFromFile (m : Mimetype) (text : Option Bytes) : Mimetype :=
  ((text.map Config.fileLines).getD []).foldl loadLine m

/-- The constructor: the system's `mime.types`, and the one of the user. -/
def new (system home : Option Bytes) : Mimetype :=
  ((⟨.empty, ascii "text/plain"⟩ : Mimetype).loadFromFile system).loadFromFile home

/-- `operator()`. -/
def classify (m : Mimetype) (filename : Bytes) : Bytes :=
  let ext := (tokenizePair filename [] [] true (ascii ".")).2
  (m.mime.find ext).getD m.defaultType

/-! ## The lines of a file -/

/-- Gaps of blanks and tabs, each with an extension behind it. -/
def Layout (exts : List (Bytes × Bytes)) : Prop :=
  ∀ e ∈ exts, (e.1 ≠ [] ∧ ∀ c ∈ e.1, c ∈ ascii " \t") ∧ e.2 ≠ [] ∧ ∀ c ∈ e.2, blanks.contains c = false

/-- A type and its extensions, each behind a gap; white space may stand around them. -/
structure Row where
  lead : Bytes
  mimeType : Bytes
  exts : List (Bytes × Bytes)
  trail : Bytes
  margins : ∀ c ∈ lead ++ trail, blanks.contains c = true ∧ c ≠ LF
  type_word : mimeType ≠ [] ∧ ∀ c ∈ mimeType, blanks.contains c = false
  type_plain : mimeType.head? ≠ some 35 ∧ mimeType.head? ≠ some 59
  layout : Layout exts

/-- The extensions with their gaps. -/
def spaced (exts : List (Bytes × Bytes)) : Bytes := exts.flatMap fun e => e.1 ++ e.2

def Row.text (r : Row) : Bytes := r.lead ++ (r.mimeType ++ spaced r.exts) ++ r.trail

inductive Line where
  | row (r : Row)
  | remark (text : Bytes) (lf : LF ∉ text)
      (skipped : trim text = [] ∨ (trim text).head? = some 35 ∨ (trim text).head? = some 59)

def Line.text : Line → Bytes
  | .row r => r.text
  | .remark text _ _ => text

/-- The extensions a line names, each with its type. -/
def Line.pairs : Line → List (Bytes × Bytes)
  | .row r => r.exts.map fun e => (e.2, r.mimeType)
  | .remark _ _ _ => []

/-- A file: its lines, and whether there is a line feed behind the last one. -/
structure Table where
  lines : List Line
  ended : Bool

def Table.text (t : Table) : Bytes := [LF].intercalate (t.lines.map Line.text ++ if t.ended then [[]] else [])

/-- What a file names; nothing when it cannot be opened. -/
def pairs (file : Option Table) : List (Bytes × Bytes) := (file.map fun t => t.lines.flatMap Line.pairs).getD []

/-- The part of a file's name behind its last dot; without a dot the whole name. -/
def extension (filename : Bytes) : Bytes := filename.rtakeWhile (· != 46)

/-- The value of the last pair with a key. -/
def lastOf (k : Bytes) (ps : List (Bytes × Bytes)) : Option Bytes :=
  (ps.filter fun p => p.1 == k).getLast?.map Prod.snd

def registerAll (m : Mimetype) (ps : List (Bytes × Bytes)) : Mimetype :=
  ps.foldl (fun m p => m.registerType p.1 p.2) m

/-! ## Cutting a line -/

section Words
variable {w : Bytes} {exts : List (Bytes × Bytes)}

/-- What the loop over the tokens looks at. -/
def tokens (s : Bytes) : List Bytes :=
  ((s.splitOnP ((ascii " \t").contains ·)).map trim).filter fun i => !i.isEmpty

theorem tokens_gap {g : Bytes} (hg : ∀ c ∈ g, c ∈ ascii " \t") (s : Bytes) : tokens (g ++ s) = tokens s := by
  induction g with
  | nil => rfl
  | cons c g ih =>
    obtain ⟨hc, hg⟩ := List.forall_mem_cons.mp hg
    have hcut : (c :: (g ++ s)).splitOnP ((ascii " \t").contains ·) =
        [] :: (g ++ s).splitOnP ((ascii " \t").contains ·) :=
      @List.splitOnP_append_cons_of_forall_mem _ _ [] (by simp) c (by simpa using hc) _
    rw [← ih hg, tokens, List.cons_append, hcut]
    rfl

theorem gap_blank {c : UInt8} (h : c ∈ ascii " \t") : blanks.contains c = true := by
  have hall : ∀ d ∈ ascii " \t", blanks.contains d = true := by decide +kernel
  exact hall c h

theorem word_free (hw : ∀ c ∈ w, blanks.contains c = false) :
    (∀ c ∈ w, (ascii " \t").contains c = false) ∧ Trimmed w := by
  refine ⟨fun c hc => ?_, fun c hc => hw c (List.mem_of_mem_head? hc),
    fun c hc => hw c (List.mem_of_mem_getLast? hc)⟩
  rw [Bool.eq_false_iff]
  intro hd
  have hblank := gap_blank (c := c) (by simpa using hd)
  rw [hw c hc] at hblank
  cases hblank

theorem tokens_word (hw : ∀ c ∈ w, blanks.contains c = false) (hne : w ≠ []) : tokens w = [w] := by
  obtain ⟨hfree, htrim⟩ := word_free hw
  rw [tokens, List.splitOnP_eq_singleton hfree, List.map_singleton, trim_eq_self htrim]
  exact List.filter_cons_of_pos (by simpa using hne)

theorem tokens_word_cut (hw : ∀ c ∈ w, blanks.contains c = false) (hne : w ≠ []) {c : UInt8}
    (hc : c ∈ ascii " \t") (s : Bytes) : tokens (w ++ c :: s) = w :: tokens s := by
  obtain ⟨hfree, htrim⟩ := word_free hw
  rw [tokens, List.splitOnP_append_cons_of_forall_mem hfree c (by simpa using hc), List.map_cons, trim_eq_self htrim]
  exact List.filter_cons_of_pos (by simpa using hne)

theorem tokens_spaced (hw : ∀ c ∈ w, blanks.contains c = false) (hne : w ≠ []) (hexts : Layout exts) :
    tokens (w ++ spaced exts) = w :: exts.map Prod.snd := by
  induction exts generalizing w with
  | nil =>
    rw [spaced, List.flatMap_nil, List.append_nil, tokens_word hw hne]
    rfl
  | cons e exts ih =>
    obtain ⟨⟨⟨hgap, hblank⟩, hword, hplain⟩, hexts⟩ := List.forall_mem_cons.mp hexts
    obtain ⟨c, g, hg⟩ := List.exists_cons_of_ne_nil hgap
    rw [hg] at hblank
    obtain ⟨hc, hblank⟩ := List.forall_mem_cons.mp hblank
    have hsplit : w ++ spaced (e :: exts) = w ++ c :: (g ++ (e.2 ++ spaced exts)) := by simp [spaced, hg]
    rw [hsplit, tokens_word_cut hw hne hc, tokens_gap hblank, ih hplain hword hexts, List.map_cons]

theorem trimmed_spaced (hw : ∀ c ∈ w, blanks.contains c = false) (hne : w ≠ []) (hexts : Layout exts) :
    Trimmed (w ++ spaced exts) := by
  refine ⟨fun c hc => ?_, fun c hc => ?_⟩
  · rw [List.head?_append_of_ne_nil _ hne] at hc
    exact hw c (List.mem_of_mem_head? hc)
  · induction exts using List.reverseRecOn with
    | nil =>
      rw [spaced, List.flatMap_nil, List.append_nil] at hc
      exact hw c (List.mem_of_mem_getLast? hc)
    | append_singleton exts e ih =>
      obtain ⟨-, hword, hplain⟩ := hexts e (by simp)
      have hlast : w ++ spaced (exts ++ [e]) = (w ++ spaced exts ++ e.1) ++ e.2 := by simp [spaced]
      rw [hlast, List.getLast?_append_of_ne_nil _ hword] at hc
      exact hplain c (List.mem_of_mem_getLast? hc)

/-- The search for the end of the first word begins behind its first byte. -/
theorem findFirstOf_word (hw : ∀ c ∈ w, blanks.contains c = false) (hne : w ≠ []) :
    findFirstOf w (ascii " \t") 1 = none ∧
    ∀ c ∈ ascii " \t", ∀ s, findFirstOf (w ++ c :: s) (ascii " \t") 1 = some w.length := by
  obtain ⟨a, w, rfl⟩ := List.exists_cons_of_ne_nil hne
  have hnone : w.findIdx? (fun c => (ascii " \t").contains c) = none :=
    List.findIdx?_eq_none_iff.mpr fun c hc => (word_free hw).1 c (List.mem_cons_of_mem a hc)
  refine ⟨?_, fun c hc s => ?_⟩
  · rw [findFirstOf, List.drop_one, List.tail_cons, hnone]
    rfl
  · have hpos : (ascii " \t").contains c = true := by simpa using hc
    rw [findFirstOf, List.cons_append, List.drop_one, List.tail_cons, List.findIdx?_append, hnone,
      List.findIdx?_cons, if_pos hpos]
    simp [Nat.add_comm]

end Words

theorem foldl_tokens (m : Mimetype) (mimeType s : Bytes) (hne : s ≠ []) :
    (tokenize s (ascii " \t")).foldl (fun m i => if i.isEmpty then m else m.registerType i mimeType) m =
      m.registerAll ((tokens s).map fun i => (i, mimeType)) := by
  have htok : tokenize s (ascii " \t") = (s.splitOnP ((ascii " \t").contains ·)).map trim := by
    rw [tokenize, if_neg (by simpa using hne), tokenizeFrom_eq _ _ (by omega) (by omega), List.drop_zero]
  rw [htok, tokens]
  generalize (s.splitOnP ((ascii " \t").contains ·)).map trim = ts
  rw [registerAll, List.foldl_map, List.foldl_filter]
  congr 1
  funext m i
  cases i with
  | nil => rfl
  | cons c i => rfl

/-- A line of the file registers its pairs. -/
theorem loadLine_text (m : Mimetype) (l : Line) : m.loadLine l.text = m.registerAll l.pairs := by
  cases l with
  | remark text lf skipped =>
    rw [loadLine, Line.text, if_pos (by simpa using skipped)]
    rfl
  | row r =>
    obtain ⟨hne, hword⟩ := r.type_word
    have hexts : Layout r.exts := r.layout
    obtain ⟨hlead, htrail⟩ := List.forall_mem_append.mp r.margins
    have hline : trim r.text = r.mimeType ++ spaced r.exts :=
      trim_padded (fun c hc => (hlead c hc).1) (trimmed_spaced hword hne hexts) (by simp [hne])
        fun c hc => (htrail c hc).1
    have hhead : (r.mimeType ++ spaced r.exts).head? = r.mimeType.head? := List.head?_append_of_ne_nil _ hne
    have hplain : ¬((r.mimeType ++ spaced r.exts).isEmpty = true ∨
        (r.mimeType ++ spaced r.exts).head? = some 35 ∨ (r.mimeType ++ spaced r.exts).head? = some 59) := by
      rw [hhead]
      simp [hne, r.type_plain]
    rw [loadLine, Line.text, hline]
    simp only [if_neg hplain, Line.pairs]
    cases hcases : r.exts with
    | nil =>
      rw [spaced, List.flatMap_nil, List.append_nil, (findFirstOf_word hword hne).1]
      rfl
    | cons e exts =>
      rw [hcases] at hexts
      obtain ⟨⟨⟨hgap, hblank⟩, hext, hextword⟩, hexts⟩ := List.forall_mem_cons.mp hexts
      obtain ⟨c, g, hg⟩ := List.exists_cons_of_ne_nil hgap
      rw [hg] at hblank
      obtain ⟨hc, hblank⟩ := List.forall_mem_cons.mp hblank
      have hsplit : r.mimeType ++ spaced (e :: exts) = r.mimeType ++ c :: (g ++ (e.2 ++ spaced exts)) := by
        simp [spaced, hg]
      have hrest : trim (g ++ (e.2 ++ spaced exts)) = e.2 ++ spaced exts := by
        have hpad := trim_padded (y := []) (fun c hc => gap_blank (hblank c hc)) (trimmed_spaced hextword hext hexts)
          (by simp [hext]) (by simp)
        rwa [List.append_nil] at hpad
      have hdrop : (r.mimeType ++ c :: (g ++ (e.2 ++ spaced exts))).drop (r.mimeType.length + 1) =
          g ++ (e.2 ++ spaced exts) := by
        rw [List.append_cons]
        exact List.drop_left' (by simp)
      rw [hsplit, (findFirstOf_word hword hne).2 c hc]
      simp only [hdrop, hrest, List.take_left]
      rw [foldl_tokens m _ _ (by simp [hext]), tokens_spaced hextword hext hexts, List.map_cons, List.map_map]
      rfl

/-! ## Files -/

theorem Line.text_lf (l : Line) : LF ∉ l.text := by
  cases l with
  | remark text lf skipped => exact lf
  | row r =>
    have hfree : ∀ {s : Bytes}, (∀ c ∈ s, blanks.contains c = false) → LF ∉ s := fun h hlf =>
      absurd (h LF hlf) (by decide)
    have hspaced : LF ∉ spaced r.exts := by
      intro hlf
      obtain ⟨e, he, hmem⟩ := List.mem_flatMap.mp hlf
      obtain ⟨⟨-, hgap⟩, -, hword⟩ := r.layout e he
      rcases List.mem_append.mp hmem with h | h
      · exact absurd (hgap LF h) (by decide)
      · exact hfree hword h
    simp only [Line.text, Row.text, List.mem_append, not_or]
    exact ⟨⟨fun h => (r.margins LF (List.mem_append_left _ h)).2 rfl, hfree r.type_word.2, hspaced⟩,
      fun h => (r.margins LF (List.mem_append_right _ h)).2 rfl⟩

/-- Whether or not there is a line feed at its end, the loop sees the lines of a file, and blank ones at most. -/
theorem foldl_fileLines (m : Mimetype) (t : Table) :
    (Config.fileLines t.text).foldl loadLine m = (t.lines.map Line.text).foldl loadLine m := by
  have hblank : ∀ (ls : List Bytes) (m : Mimetype), (ls ++ [[]]).foldl loadLine m = ls.foldl loadLine m := by
    intro ls m
    rw [List.foldl_append]
    rfl
  have hlines : (Config.fileLines t.text).foldl loadLine m = (t.text.splitOn LF).foldl loadLine m := by
    rw [Config.fileLines]
    split
    next h =>
      obtain ⟨ls, hls⟩ := List.getLast?_eq_some_iff.mp h
      rw [hls, List.dropLast_concat, hblank]
    next => rfl
  rw [hlines]
  by_cases hnil : t.lines.map Line.text ++ (if t.ended then [[]] else []) = []
  · have htext : t.text = [] := by
      rw [Table.text, hnil]
      rfl
    rw [htext, (List.append_eq_nil_iff.mp hnil).1]
    rfl
  · have hfree : ∀ x ∈ t.lines.map Line.text ++ (if t.ended then [[]] else []), LF ∉ x := by
      intro x hx
      rcases List.mem_append.mp hx with hx | hx
      · obtain ⟨l, -, rfl⟩ := List.mem_map.mp hx
        exact l.text_lf
      · cases hended : t.ended with
        | true =>
          rw [hended] at hx
          rw [List.mem_singleton.mp hx]
          exact List.not_mem_nil
        | false =>
          rw [hended] at hx
          cases hx
    rw [Table.text, List.splitOn_intercalate LF hfree hnil]
    cases t.ended with
    | true => exact hblank _ m
    | false => rw [if_neg Bool.false_ne_true, List.append_nil]

theorem loadFromFile_text (m : Mimetype) (file : Option Table) :
    m.loadFromFile (file.map Table.text) = m.registerAll (pairs file) := by
  cases file with
  | none => rfl
  | some t =>
    rw [loadFromFile, Option.map_some, Option.map_some, Option.getD_some, foldl_fileLines, pairs, Option.map_some,
      Option.getD_some]
    induction t.lines generalizing m with
    | nil => rfl
    | cons l ls ih =>
      rw [List.map_cons, List.foldl_cons, loadLine_text, ih, List.flatMap_cons, registerAll, registerAll,
        registerAll, List.foldl_append]

/-! ## Looking up a name -/

theorem extension_eq (filename : Bytes) :
    (tokenizePair filename [] [] true (ascii ".")).2 = extension filename := by
  by_cases hdot : 46 ∈ filename
  · obtain ⟨b, a, hrev, hb⟩ := List.eq_append_cons_of_mem (List.mem_reverse.mpr hdot)
    have hsplit : filename = a.reverse ++ 46 :: b.reverse := by
      rw [← List.reverse_reverse filename, hrev]
      simp
    have hcut : tokenizePair (a.reverse ++ 46 :: b.reverse) [] [] true (ascii ".") = (a.reverse, b.reverse) :=
      tokenizePair_last (by simpa using hb) [] []
    rw [extension, List.rtakeWhile, hrev, takeWhile_bne_append hb, hsplit, hcut]
  · have hall : extension filename = filename := List.rtakeWhile_eq_self_iff.mpr (forall_mem_bne hdot)
    rw [hall]
    exact tokenizePair_last_whole hdot []

theorem find_registerAll (k : Bytes) (ps : List (Bytes × Bytes)) (m : Mimetype) :
    (m.registerAll ps).mime.find k = (lastOf k ps).or (m.mime.find k) := by
  have hstep : ∀ (m : Mimetype) (p : Bytes × Bytes), (m.registerType p.1 p.2).mime.find k =
      if (p.1 == k) = true then some p.2 else m.mime.find k := by
    intro m p
    rw [registerType, Config.find_set_bytes]
    simp
  rw [registerAll, Loop.foldl_last (g := fun m : Mimetype => m.mime.find k) hstep, lastOf]
  cases (ps.filter fun p => p.1 == k).getLast? with
  | none => rfl
  | some p => rfl

theorem defaultType_registerAll (ps : List (Bytes × Bytes)) (m : Mimetype) :
    (m.registerAll ps).defaultType = m.defaultType := by
  induction ps generalizing m with
  | nil => rfl
  | cons p ps ih => exact ih (m.registerType p.1 p.2)

namespace Sample

def html : Row where
  lead := ascii " "
  mimeType := ascii "text/html"
  exts := [(ascii "\t", ascii "htm"), (ascii "  ", ascii "html")]
  trail := ascii "\r"
  margins := by decide +kernel
  type_word := by decide +kernel
  type_plain := by decide
  layout := by
    intro e he
    rcases List.mem_cons.mp he with rfl | he
    · decide +kernel
    · obtain rfl := List.mem_singleton.mp he
      decide +kernel

/-- A comment, a blank line, and a last line without a line feed. -/
def table : Table :=
  ⟨[.remark (ascii "# types") (by decide) (by decide), .remark [] List.not_mem_nil (by decide), .row html], false⟩

end Sample

end Mimetype

end Dcl
