import Dcl.Foundations.StringStream

/-! # `str2argv`: the arguments of a child process

`src/dcl/posix/process_impl.cpp`, lines 38 to 80. One variable says whether the next character is escaped
(`SKIP`) or stands inside quotes (`SKIP_UNTIL`). A backslash and a quote are never characters of an argument,
and the last argument is one only when it is not empty. -/
namespace Dcl.Process
set_option autoImplicit false

inductive ScanState where
  | symbol
  | skip
  | skipUntil
  deriving DecidableEq, Repr

/-- The variables of `str2argv`. -/
structure ArgvScan where
  s : ScanState
  arg : Bytes
  argv : List Bytes
  deriving DecidableEq, Repr

/-- The body of the loop, for the character at the iterator. -/
def ArgvScan.character (r : ArgvScan) (i : UInt8) : ArgvScan :=
  if i = 92 then { r with s := .skip }
  else if i = 34 then { r with s := if r.s = .skipUntil then .symbol else .skipUntil }
  else if i = 32 then
    match r.s with
    | .skip => { r with s := .symbol, arg := r.arg ++ [i] }
    | .skipUntil => { r with arg := r.arg ++ [i] }
    | .symbol => { r with argv := r.argv ++ [r.arg], arg := [] }
  else { r with s := if r.s = .skip then .symbol else r.s, arg := r.arg ++ [i] }

def str2argv (src : Bytes) (argv : List Bytes) : List Bytes :=
  let r := src.foldl ArgvScan.character ⟨.symbol, [], argv⟩
  if r.arg.isEmpty then r.argv else r.argv ++ [r.arg]

/-! ## How a command line is written -/

/-- A backslash before every space, double quote and backslash. -/
def escapeArg (a : Bytes) : Bytes := a.flatMap fun c => if c = 32 ∨ c = 34 ∨ c = 92 then [92, c] else [c]

def quoteArg (a : Bytes) : Bytes := 34 :: a ++ [34]

/-- The arguments, each written by `f`, with single spaces between them. -/
def commandLine (f : Bytes → Bytes) (args : List Bytes) : Bytes := [32].intercalate (args.map f)

/-! ## What is read back -/

section Scan
variable {f : Bytes → Bytes} {v : List Bytes}

/-- The scan reads `f a` as the argument `a`. -/
def Reads (f : Bytes → Bytes) (a : Bytes) : Prop :=
  ∀ v : List Bytes, (f a).foldl ArgvScan.character ⟨.symbol, [], v⟩ = ⟨.symbol, a, v⟩

/-- Between two arguments the scan is where it started, with one argument more. -/
theorem scan_commandLine {a : Bytes} {args : List Bytes} (h : ∀ b ∈ a :: args, Reads f b) (v : List Bytes) :
    (commandLine f (a :: args)).foldl ArgvScan.character ⟨.symbol, [], v⟩ =
      ⟨.symbol, (a :: args).getLast (List.cons_ne_nil a args), v ++ (a :: args).dropLast⟩ := by
  induction args generalizing a v with
  | nil =>
    have ha := h a List.mem_cons_self v
    simpa [commandLine] using ha
  | cons b args ih =>
    have ha := h a List.mem_cons_self v
    have hline : commandLine f (a :: b :: args) = f a ++ 32 :: commandLine f (b :: args) := by
      simp only [commandLine, List.map_cons, List.intercalate_cons_cons, List.append_assoc,
        List.singleton_append]
    have hspace : (⟨.symbol, a, v⟩ : ArgvScan).character 32 = ⟨.symbol, [], v ++ [a]⟩ := rfl
    rw [hline, List.foldl_append, ha, List.foldl_cons, hspace,
      ih (fun c hc => h c (List.mem_cons_of_mem a hc)) (v ++ [a])]
    simp

/-- All arguments are found again, less the last one when it is empty. -/
theorem str2argv_commandLine {args : List Bytes} (h : ∀ a ∈ args, Reads f a) :
    str2argv (commandLine f args) [] = if args.getLast? = some [] then args.dropLast else args := by
  cases args with
  | nil => rfl
  | cons a args =>
    rw [str2argv, scan_commandLine h, List.getLast?_eq_some_getLast (List.cons_ne_nil a args)]
    dsimp only
    by_cases hlast : (a :: args).getLast (List.cons_ne_nil a args) = []
    · rw [if_pos (by rw [hlast]; rfl), if_pos (by rw [hlast]), List.nil_append]
    · rw [if_neg (by simpa using hlast), if_neg (by simpa using hlast), List.nil_append,
        List.dropLast_concat_getLast]

theorem str2argv_commandLine_iff {args : List Bytes} (h : ∀ a ∈ args, Reads f a) :
    str2argv (commandLine f args) [] = args ↔ args.getLast? ≠ some [] := by
  rw [str2argv_commandLine h]
  split
  next hlast =>
    refine iff_of_false (fun heq => ?_) (fun hne => hne hlast)
    have hlen := congrArg List.length heq
    have hpos : args ≠ [] := by
      rintro rfl
      cases hlast
    rw [List.length_dropLast] at hlen
    have := List.length_pos_iff.mpr hpos
    omega
  next hlast => exact iff_of_true rfl hlast

end Scan

/-! ## Backslashes -/

/-- The characters that an argument can have. -/
def Ordinary (a : Bytes) : Prop := 34 ∉ a ∧ 92 ∉ a

theorem ordinary_cons {c : UInt8} {a : Bytes} : Ordinary (c :: a) ↔ (c ≠ 34 ∧ c ≠ 92) ∧ Ordinary a := by
  simp only [Ordinary, List.mem_cons, not_or]
  tauto

theorem ordinary_concat {a : Bytes} {c : UInt8} (ha : Ordinary a) (h34 : c ≠ 34) (h92 : c ≠ 92) :
    Ordinary (a ++ [c]) := by
  simp only [Ordinary, List.mem_append, List.mem_singleton, not_or]
  exact ⟨⟨ha.1, h34.symm⟩, ha.2, h92.symm⟩

theorem ordinary_character {r : ArgvScan} (harg : Ordinary r.arg) (hargv : ∀ a ∈ r.argv, Ordinary a)
    (i : UInt8) : Ordinary (r.character i).arg ∧ ∀ a ∈ (r.character i).argv, Ordinary a := by
  unfold ArgvScan.character
  by_cases h92 : i = 92
  · rw [if_pos h92]
    exact ⟨harg, hargv⟩
  rw [if_neg h92]
  by_cases h34 : i = 34
  · rw [if_pos h34]
    exact ⟨harg, hargv⟩
  rw [if_neg h34]
  have hadd : Ordinary (r.arg ++ [i]) := ordinary_concat harg h34 h92
  by_cases h32 : i = 32
  · rw [if_pos h32]
    cases r.s with
    | skip => exact ⟨hadd, hargv⟩
    | skipUntil => exact ⟨hadd, hargv⟩
    | symbol =>
      refine ⟨⟨List.not_mem_nil, List.not_mem_nil⟩, fun a ha => ?_⟩
      rcases List.mem_append.mp ha with ha | ha
      · exact hargv a ha
      · exact List.mem_singleton.mp ha ▸ harg
  · rw [if_neg h32]
    exact ⟨hadd, hargv⟩

/-- Whatever the text is, no argument gets a backslash or a quote. -/
theorem ordinary_scan (src : Bytes) (r : ArgvScan) (harg : Ordinary r.arg) (hargv : ∀ a ∈ r.argv, Ordinary a) :
    Ordinary (src.foldl ArgvScan.character r).arg ∧
      ∀ a ∈ (src.foldl ArgvScan.character r).argv, Ordinary a := by
  induction src generalizing r with
  | nil => exact ⟨harg, hargv⟩
  | cons i src ih =>
    obtain ⟨harg', hargv'⟩ := ordinary_character harg hargv i
    rw [List.foldl_cons]
    exact ih (r.character i) harg' hargv'

theorem ordinary_str2argv (src : Bytes) : ∀ a ∈ str2argv src [], Ordinary a := by
  obtain ⟨harg, hargv⟩ := ordinary_scan src ⟨.symbol, [], []⟩ ⟨List.not_mem_nil, List.not_mem_nil⟩ nofun
  intro a ha
  unfold str2argv at ha
  dsimp only at ha
  split at ha
  · exact hargv a ha
  · rcases List.mem_append.mp ha with ha | ha
    · exact hargv a ha
    · exact List.mem_singleton.mp ha ▸ harg

theorem scan_escapeArg {b : Bytes} (hb : Ordinary b) (a : Bytes) (v : List Bytes) :
    (escapeArg b).foldl ArgvScan.character ⟨.symbol, a, v⟩ = ⟨.symbol, a ++ b, v⟩ := by
  induction b generalizing a with
  | nil => simp [escapeArg]
  | cons c b ih =>
    obtain ⟨⟨h34, h92⟩, hb⟩ := ordinary_cons.mp hb
    have hfirst : (if c = 32 ∨ c = 34 ∨ c = 92 then [92, c] else [c]).foldl ArgvScan.character ⟨.symbol, a, v⟩ =
        ⟨.symbol, a ++ [c], v⟩ := by
      by_cases h32 : c = 32
      · subst h32
        rfl
      · rw [if_neg (by tauto)]
        simp [ArgvScan.character, h92, h34, h32]
    have hsplit : escapeArg (c :: b) = (if c = 32 ∨ c = 34 ∨ c = 92 then [92, c] else [c]) ++ escapeArg b := rfl
    rw [hsplit, List.foldl_append, hfirst, ih hb, List.append_assoc, List.singleton_append]

/-- Arguments that are not empty, written with backslashes, are read back if and only if none of them contains
a double quote or a backslash. -/
theorem backslash_round_trip_iff {args : List Bytes} (hne : ∀ a ∈ args, a ≠ []) :
    str2argv (commandLine escapeArg args) [] = args ↔ ∀ a ∈ args, 34 ∉ a ∧ 92 ∉ a := by
  constructor
  · intro h a ha
    rw [← h] at ha
    exact ordinary_str2argv _ a ha
  · intro h
    refine (str2argv_commandLine_iff fun a ha v => ?_).mpr fun hlast => ?_
    · exact scan_escapeArg (h a ha) [] v
    · exact hne [] (List.mem_of_getLast? hlast) rfl

theorem backslash_round_trip_spaces :
    str2argv (commandLine escapeArg [ascii " -c", ascii "a  b "]) [] = [ascii " -c", ascii "a  b "] :=
  (backslash_round_trip_iff (by decide)).mpr (by decide)

/-- The one argument `a"b`, written `a\"b`, comes back as `ab`. -/
theorem backslash_quote_lost :
    ascii "a\"b" ≠ [] ∧ commandLine escapeArg [ascii "a\"b"] = ascii "a\\\"b" ∧
      str2argv (commandLine escapeArg [ascii "a\"b"]) [] = [ascii "ab"] ∧ ascii "ab" ≠ ascii "a\"b" := by
  decide

/-! ## Quotes -/

theorem scan_quoted {b : Bytes} (hb : Ordinary b) (a : Bytes) (v : List Bytes) :
    b.foldl ArgvScan.character ⟨.skipUntil, a, v⟩ = ⟨.skipUntil, a ++ b, v⟩ := by
  induction b generalizing a with
  | nil => simp
  | cons c b ih =>
    obtain ⟨⟨h34, h92⟩, hb⟩ := ordinary_cons.mp hb
    have hfirst : (⟨.skipUntil, a, v⟩ : ArgvScan).character c = ⟨.skipUntil, a ++ [c], v⟩ := by
      by_cases h32 : c = 32
      · subst h32
        rfl
      · simp [ArgvScan.character, h92, h34, h32]
    rw [List.foldl_cons, hfirst, ih hb, List.append_assoc, List.singleton_append]

theorem scan_quoteArg {a : Bytes} (ha : Ordinary a) : Reads quoteArg a := by
  intro v
  have hopen : (⟨.symbol, [], v⟩ : ArgvScan).character 34 = ⟨.skipUntil, [], v⟩ := rfl
  have hclose : (⟨.skipUntil, a, v⟩ : ArgvScan).character 34 = ⟨.symbol, a, v⟩ := rfl
  rw [quoteArg, List.cons_append, List.foldl_cons, hopen, List.foldl_append, scan_quoted ha, List.nil_append,
    List.foldl_cons, hclose, List.foldl_nil]

/-- Arguments without double quotes and backslashes, each in double quotes, are read back if and only if the
last one is not empty. -/
theorem quotes_round_trip_iff {args : List Bytes} (h : ∀ a ∈ args, 34 ∉ a ∧ 92 ∉ a) :
    str2argv (commandLine quoteArg args) [] = args ↔ args.getLast? ≠ some [] :=
  str2argv_commandLine_iff fun a ha => scan_quoteArg (h a ha)

theorem quotes_round_trip_empty_first :
    str2argv (commandLine quoteArg [[], ascii "-c", [], ascii "echo  test"]) [] =
      [[], ascii "-c", [], ascii "echo  test"] :=
  (quotes_round_trip_iff (by decide)).mpr (by decide)

/-- `"a" ""` is one argument. -/
theorem quotes_last_lost :
    (∀ a ∈ [ascii "a", []], 34 ∉ a ∧ 92 ∉ a) ∧ commandLine quoteArg [ascii "a", []] = ascii "\"a\" \"\"" ∧
      str2argv (commandLine quoteArg [ascii "a", []]) [] = [ascii "a"] ∧ [ascii "a"] ≠ [ascii "a", []] := by
  decide

end Dcl.Process
