import Dcl.Odbc.Query

/-! # Markers and parameters

`parse` cuts a statement into tokens: characters that are copied, and markers, each of which becomes a
`?` of the text and a parameter. The module says where the markers are, by the toggling of the quotes
alone, and that the text, scanned in the same way, has its question marks at the same tokens. -/
namespace Dcl.Odbc
set_option autoImplicit false

/-! ## Scanning for characters outside quotes -/

/-- The characters of a text, each with whether it stands outside quotes. -/
def marks : Bool → Bool → Bytes → List (UInt8 × Bool)
  | _, _, [] => []
  | ssq, dsq, c :: s =>
      (c, !ssq && !dsq) :: marks (if c = 39 then !ssq else ssq) (if c = 34 then !dsq else dsq) s

/-- The positions, counted from `n`, of the characters `cs` that are outside quotes. -/
def outside (cs : Bytes) : ℕ → List (UInt8 × Bool) → List ℕ
  | _, [] => []
  | n, m :: ms => (if m.2 && cs.contains m.1 then [n] else []) ++ outside cs (n + 1) ms

/-- The positions of the characters `?` and `:` of a statement outside quotes. -/
def markers (s : Bytes) : List ℕ := outside [63, 58] 0 (marks false false s)

def questions (q : Bytes) : List ℕ := outside [63] 0 (marks false false q)

/-- The name of a marker: the characters of a name behind a colon. -/
def nameAt (s : Bytes) (i : ℕ) : Bytes :=
  if s[i]? = some 58 then (s.drop (i + 1)).takeWhile isName else []

/-! ## Tokens -/

inductive Token where
  | copy (c : UInt8)
  | question
  | named (name : Bytes)
  deriving DecidableEq, Repr

namespace Token

/-- The part of the statement a token stands for. -/
def source : Token → Bytes
  | copy c => [c]
  | question => [63]
  | named name => 58 :: name

def output : Token → Bytes
  | copy c => [c]
  | question => [63]
  | named _ => [63]

def parameter? : Token → Option Parameter
  | copy _ => none
  | question => some ⟨[], []⟩
  | named name => some ⟨name, []⟩

def places (text : Token → Bytes) : ℕ → List Token → List ℕ
  | _, [] => []
  | n, t :: ts => (if t.parameter?.isSome then [n] else []) ++ places text (n + (text t).length) ts

end Token

/-- The tokens of a text whose markers are those that are marked as outside quotes. -/
def tokens : List (UInt8 × Bool) → List Token
  | [] => []
  | (c, on) :: ms =>
      if on = true ∧ c = 63 then .question :: tokens ms
      else if on = true ∧ c = 58 then
        .named ((ms.map Prod.fst).takeWhile isName) :: tokens (ms.dropWhile fun m => isName m.1)
      else .copy c :: tokens ms
termination_by ms => ms.length
decreasing_by
  all_goals simp only [List.length_cons]
  · omega
  · exact Nat.lt_succ_of_le (List.dropWhile_sublist _).length_le
  · omega

theorem isName_ne {c : UInt8} (h : isName c = true) : c ≠ 39 ∧ c ≠ 34 ∧ c ≠ 63 ∧ c ≠ 58 := by
  refine ⟨?_, ?_, ?_, ?_⟩
  all_goals
    rintro rfl
    exact absurd h (by decide)

theorem marks_map (ssq dsq : Bool) (s : Bytes) : (marks ssq dsq s).map Prod.fst = s := by
  induction s generalizing ssq dsq with
  | nil => rfl
  | cons c s ih => rw [marks, List.map_cons, ih]

/-- The characters of a name do not change the flags. -/
theorem marks_dropWhile (ssq dsq : Bool) (s : Bytes) :
    (marks ssq dsq s).dropWhile (fun m => isName m.1) = marks ssq dsq (s.dropWhile isName) := by
  induction s with
  | nil => rfl
  | cons c s ih =>
    by_cases hc : isName c = true
    · obtain ⟨h39, h34, -, -⟩ := isName_ne hc
      rw [marks, if_neg h39, if_neg h34, List.dropWhile_cons, if_pos hc, List.dropWhile_cons, if_pos hc, ih]
    · rw [List.dropWhile_cons_of_neg hc, marks, List.dropWhile_cons, if_neg hc]

theorem map_dropWhile_name (ms : List (UInt8 × Bool)) :
    (ms.dropWhile fun m => isName m.1).map Prod.fst = (ms.map Prod.fst).dropWhile isName := by
  rw [List.dropWhile_map]
  rfl

theorem tokens_source (ms : List (UInt8 × Bool)) :
    (tokens ms).flatMap Token.source = ms.map Prod.fst := by
  fun_induction tokens ms with
  | case1 => rfl
  | case2 c on ms h ih => rw [List.flatMap_cons, ih, List.map_cons, h.2, Token.source, List.singleton_append]
  | case3 c on ms h1 h ih =>
    rw [List.flatMap_cons, ih, List.map_cons, h.2, Token.source, List.cons_append]
    rw [map_dropWhile_name, List.takeWhile_append_dropWhile]
  | case4 c on ms h1 h2 ih => rw [List.flatMap_cons, ih, List.map_cons, Token.source, List.singleton_append]

/-! ## The run of the loop -/

theorem drop_succ_of_drop {s r : Bytes} {i : ℕ} {c : UInt8} (h : s.drop i = c :: r) :
    s[i]? = some c ∧ s.drop (i + 1) = r := by
  constructor
  · rw [← List.head?_drop, h]
    rfl
  · rw [← List.drop_drop, h]
    rfl

/-- A character that is no marker is copied, and a quote toggles its flag. -/
theorem character_copy {statement : Bytes} {s : Scan} {c : UInt8}
    (h63 : ¬((!s.ssq && !s.dsq) = true ∧ c = 63)) (h58 : ¬((!s.ssq && !s.dsq) = true ∧ c = 58)) :
    s.character statement c = ⟨s.i, if c = 39 then !s.ssq else s.ssq, if c = 34 then !s.dsq else s.dsq,
      s.q ++ [c], s.parameters⟩ := by
  unfold Scan.character
  by_cases h39 : c = 39
  · subst h39
    rfl
  by_cases h34 : c = 34
  · subst h34
    rfl
  rw [if_neg h39, if_neg h39, if_neg h34, if_neg h34]
  split
  next h => rw [if_neg fun hon => h63 ⟨hon, h⟩]
  next =>
    split
    next h => rw [if_neg fun hon => h58 ⟨hon, h⟩]
    next => rfl

theorem character_question {statement : Bytes} {s : Scan} (hon : (!s.ssq && !s.dsq) = true) :
    s.character statement 63 = { s with q := s.q ++ [63], parameters := s.parameters ++ [⟨[], []⟩] } := by
  simp [Scan.character, hon]

theorem character_named {statement : Bytes} {s : Scan} (hon : (!s.ssq && !s.dsq) = true) :
    s.character statement 58 =
      { s with
        i := s.i + ((statement.drop (s.i + 1)).takeWhile isName).length
        q := s.q ++ [63]
        parameters := s.parameters ++ [⟨(statement.drop (s.i + 1)).takeWhile isName, []⟩] } := by
  have hi : ∀ n, s.i + 1 + n - 1 = s.i + n := by omega
  simp [Scan.character, hon, hi]

theorem pass_token {statement : Bytes} {s : Scan} {t : Token} {ts : List Token}
    (h : tokens (marks s.ssq s.dsq (statement.drop s.i)) = t :: ts) : ∃ ssq dsq,
      s.pass statement = .inl ⟨s.i + t.source.length, ssq, dsq, s.q ++ t.output,
        s.parameters ++ t.parameter?.toList⟩ ∧
      tokens (marks ssq dsq (statement.drop (s.i + t.source.length))) = ts := by
  cases hr : statement.drop s.i with
  | nil =>
    rw [hr, marks, tokens] at h
    exact absurd h (by simp)
  | cons c r =>
    obtain ⟨hget, hdrop⟩ := drop_succ_of_drop hr
    rw [hr, marks, tokens] at h
    simp only [Scan.pass, hget]
    split at h
    next hq =>
      obtain ⟨rfl, rfl⟩ := List.cons.inj h
      obtain ⟨hon, rfl⟩ := hq
      refine ⟨s.ssq, s.dsq, ?_, ?_⟩
      · rw [character_question hon]
        rfl
      · rw [Token.source, List.length_singleton, hdrop]
        rfl
    next =>
      split at h
      next hn =>
        obtain ⟨rfl, rfl⟩ := List.cons.inj h
        obtain ⟨hon, rfl⟩ := hn
        have hflags : marks (if (58 : UInt8) = 39 then !s.ssq else s.ssq)
            (if (58 : UInt8) = 34 then !s.dsq else s.dsq) r = marks s.ssq s.dsq r := rfl
        rw [hflags, marks_map, marks_dropWhile]
        refine ⟨s.ssq, s.dsq, ?_, ?_⟩
        · rw [character_named hon, hdrop]
          rfl
        · have hrest : statement.drop (s.i + (r.takeWhile isName).length + 1) = r.dropWhile isName := by
            have hi : s.i + (r.takeWhile isName).length + 1 = s.i + 1 + (r.takeWhile isName).length := by
              omega
            have hname : (r.takeWhile isName ++ r.dropWhile isName).drop (r.takeWhile isName).length =
                r.dropWhile isName := List.drop_left
            rw [List.takeWhile_append_dropWhile] at hname
            rw [hi, ← List.drop_drop, hdrop, hname]
          rw [Token.source, List.length_cons, ← Nat.add_assoc, hrest]
      next hn =>
        obtain ⟨rfl, rfl⟩ := List.cons.inj h
        rw [character_copy ‹_› hn]
        refine ⟨if c = 39 then !s.ssq else s.ssq, if c = 34 then !s.dsq else s.dsq, ?_, ?_⟩
        · rw [Token.parameter?, Option.toList_none, List.append_nil]
          rfl
        · rw [Token.source, List.length_singleton, hdrop]

theorem passes_tokens {statement : Bytes} {s : Scan} {ts ts' : List Token}
    (h : tokens (marks s.ssq s.dsq (statement.drop s.i)) = ts ++ ts') : ∃ ssq dsq,
      Loop.Passes (Scan.pass statement) ts.length s ⟨s.i + (ts.flatMap Token.source).length, ssq, dsq,
        s.q ++ ts.flatMap Token.output, s.parameters ++ ts.filterMap Token.parameter?⟩ ∧
      tokens (marks ssq dsq (statement.drop (s.i + (ts.flatMap Token.source).length))) = ts' := by
  induction ts generalizing s with
  | nil =>
    refine ⟨s.ssq, s.dsq, ?_, by simpa using h⟩
    show s = _
    simp
  | cons t ts ih =>
    obtain ⟨ssq, dsq, hpass, htokens⟩ := pass_token h
    obtain ⟨ssq', dsq', hpasses, hrest⟩ := ih (s := ⟨s.i + t.source.length, ssq, dsq, s.q ++ t.output,
      s.parameters ++ t.parameter?.toList⟩) htokens
    have hsource : s.i + t.source.length + (ts.flatMap Token.source).length =
        s.i + ((t :: ts).flatMap Token.source).length := by
      rw [List.flatMap_cons, List.length_append, Nat.add_assoc]
    have hparams : t.parameter?.toList ++ ts.filterMap Token.parameter? =
        (t :: ts).filterMap Token.parameter? := by
      rw [List.filterMap_cons]
      cases t.parameter? <;> rfl
    refine ⟨ssq', dsq', ?_, by rw [← hsource, ← hrest]⟩
    refine ⟨_, hpass, ?_⟩
    rw [← hsource, List.flatMap_cons, ← List.append_assoc, ← hparams, ← List.append_assoc]
    exact hpasses

def statementTokens (s : Bytes) : List Token := tokens (marks false false s)

theorem statementTokens_source (s : Bytes) : (statementTokens s).flatMap Token.source = s := by
  rw [statementTokens, tokens_source, marks_map]

theorem length_tokens_le (ts : List Token) : ts.length ≤ (ts.flatMap Token.source).length := by
  induction ts with
  | nil => rfl
  | cons t ts ih =>
    have ht : 1 ≤ t.source.length := by cases t <;> simp [Token.source]
    rw [List.flatMap_cons, List.length_append, List.length_cons]
    omega

/-- `parse` returns, and what it returns is written by the tokens. -/
theorem parse_eq (s : Bytes) : parse s = some ((statementTokens s).flatMap Token.output,
    (statementTokens s).filterMap Token.parameter?) := by
  have htokens : tokens (marks Scan.start.ssq Scan.start.dsq (s.drop Scan.start.i)) =
      statementTokens s ++ [] := by
    rw [List.append_nil]
    rfl
  obtain ⟨ssq, dsq, hpasses, -⟩ := passes_tokens htokens
  have hle := length_tokens_le (statementTokens s)
  rw [statementTokens_source] at hpasses hle
  refine hpasses.loop ?_ (Nat.lt_succ_of_le hle)
  have hend : s[Scan.start.i + s.length]? = none := by simp [Scan.start]
  simp only [Scan.pass, hend]
  rfl

/-! ## Places -/

theorem outside_append_skip (cs : Bytes) {name : List (UInt8 × Bool)} (h : ∀ m ∈ name, m.1 ∉ cs) (n : ℕ)
    (ms : List (UInt8 × Bool)) : outside cs n (name ++ ms) = outside cs (n + name.length) ms := by
  induction name generalizing n with
  | nil => rfl
  | cons m name ih =>
    have hm : cs.contains m.1 = false := by simpa using h m (by simp)
    rw [List.cons_append, outside, hm, Bool.and_false, ih fun x hx => h x (by simp [hx])]
    rw [List.length_cons, Nat.add_assoc, Nat.add_comm 1]
    rfl

/-- The markers of a statement are at the tokens that are parameters. -/
theorem outside_markers (n : ℕ) (ms : List (UInt8 × Bool)) :
    outside [63, 58] n ms = Token.places Token.source n (tokens ms) := by
  fun_induction tokens ms generalizing n with
  | case1 => rfl
  | case2 c on ms h ih =>
    rw [outside, Token.places, ih, h.1, h.2]
    rfl
  | case3 c on ms h1 h ih =>
    have hname : ∀ m ∈ ms.takeWhile (fun m => isName m.1), m.1 ∉ ([63, 58] : Bytes) := by
      intro m hm
      have hm' : isName m.1 = true := List.mem_takeWhile_imp (p := fun m : UInt8 × Bool => isName m.1) hm
      obtain ⟨-, -, h63, h58⟩ := isName_ne hm'
      simp [h63, h58]
    have hskip := outside_append_skip [63, 58] hname (n + 1) (ms.dropWhile fun m => isName m.1)
    rw [List.takeWhile_append_dropWhile] at hskip
    have hlen : ((ms.map Prod.fst).takeWhile isName).length =
        (ms.takeWhile fun m => isName m.1).length := by
      rw [List.takeWhile_map, List.length_map]
      rfl
    rw [outside, hskip, ih, Token.places, h.1, h.2, Token.source, List.length_cons, hlen, Nat.add_assoc n 1,
      Nat.add_comm 1]
    rfl
  | case4 c on ms h1 h2 ih =>
    have hoff : (on && [63, 58].contains c) = false := by
      rw [Bool.and_eq_false_imp]
      intro hon
      have h63 : c ≠ 63 := fun hc => h1 ⟨hon, hc⟩
      have h58 : c ≠ 58 := fun hc => h2 ⟨hon, hc⟩
      simp [h63, h58]
    rw [outside, ih, Token.places, hoff]
    rfl

/-- The parameters have the names of the markers. -/
theorem places_names {s p : Bytes} (ms : List (UInt8 × Bool)) (h : s = p ++ ms.map Prod.fst) :
    (Token.places Token.source p.length (tokens ms)).map (nameAt s) =
      ((tokens ms).filterMap Token.parameter?).map Parameter.name := by
  fun_induction tokens ms generalizing p with
  | case1 => rfl
  | case2 c on ms hq ih =>
    have hget : s[p.length]? = some 63 := by simp [h, hq.2]
    have hrest := ih (p := p ++ [63]) (by simp [h, hq.2])
    rw [List.length_append, List.length_singleton] at hrest
    simp [Token.places, Token.parameter?, Token.source, hrest, nameAt, hget]
  | case3 c on ms h1 hn ih =>
    have hget : s[p.length]? = some 58 := by simp [h, hn.2]
    have hdrop : s.drop (p.length + 1) = ms.map Prod.fst := by simp [h]
    have hsplit : s = (p ++ 58 :: (ms.map Prod.fst).takeWhile isName) ++
        (ms.dropWhile fun m => isName m.1).map Prod.fst := by
      rw [map_dropWhile_name]
      simp [h, hn.2]
    have hrest := ih hsplit
    rw [List.length_append, List.length_cons] at hrest
    simp [Token.places, Token.parameter?, Token.source, hrest, nameAt, hget, hdrop]
  | case4 c on ms h1 h2 ih =>
    have hrest := ih (p := p ++ [c]) (by simp [h])
    rw [List.length_append, List.length_singleton] at hrest
    rw [Token.places, List.map_append, Token.source, List.length_singleton, hrest, List.filterMap_cons]
    rfl

/-! ## Parsing the text again -/

/-- The token of the text that was written for a token. -/
def Token.asked : Token → Token
  | named _ => question
  | t => t

theorem tokens_marks_question {ssq dsq : Bool} (hon : (!ssq && !dsq) = true) (s : Bytes) :
    tokens (marks ssq dsq (63 :: s)) = .question :: tokens (marks ssq dsq s) := by
  rw [marks, tokens, if_pos ⟨hon, rfl⟩]
  rfl

theorem tokens_output (ssq dsq : Bool) (s : Bytes) :
    tokens (marks ssq dsq ((tokens (marks ssq dsq s)).flatMap Token.output)) =
      (tokens (marks ssq dsq s)).map Token.asked := by
  match s with
  | [] => simp [marks, tokens]
  | c :: r =>
    rw [marks, tokens]
    split
    next hq =>
      have hih := tokens_output ssq dsq r
      obtain ⟨hon, rfl⟩ := hq
      have hflags : marks (if (63 : UInt8) = 39 then !ssq else ssq)
          (if (63 : UInt8) = 34 then !dsq else dsq) r = marks ssq dsq r := rfl
      rw [hflags, List.flatMap_cons, Token.output, List.singleton_append, tokens_marks_question hon, hih]
      rfl
    next hq =>
      split
      next hn =>
        have hih := tokens_output ssq dsq (r.dropWhile isName)
        obtain ⟨hon, rfl⟩ := hn
        have hflags : marks (if (58 : UInt8) = 39 then !ssq else ssq)
            (if (58 : UInt8) = 34 then !dsq else dsq) r = marks ssq dsq r := rfl
        rw [hflags, marks_dropWhile, List.flatMap_cons, Token.output, List.singleton_append,
          tokens_marks_question hon, hih]
        rfl
      next hn =>
        have hih := tokens_output (if c = 39 then !ssq else ssq) (if c = 34 then !dsq else dsq) r
        rw [List.flatMap_cons, Token.output, List.singleton_append, marks, tokens, if_neg hq, if_neg hn, hih]
        rfl
termination_by s.length
decreasing_by
  all_goals simp only [List.length_cons]
  · omega
  · exact Nat.lt_succ_of_le (List.dropWhile_sublist _).length_le
  · omega

theorem places_asked (n : ℕ) (ts : List Token) :
    Token.places Token.source n (ts.map Token.asked) = Token.places Token.output n ts := by
  induction ts generalizing n with
  | nil => rfl
  | cons t ts ih =>
    rw [List.map_cons, Token.places, Token.places, ih]
    cases t <;> rfl

/-- In a text without names the question marks are the markers. -/
theorem outside_questions (n : ℕ) (ms : List (UInt8 × Bool)) (h : ∀ name, Token.named name ∉ tokens ms) :
    outside [63] n ms = Token.places Token.source n (tokens ms) := by
  fun_induction tokens ms generalizing n with
  | case1 => rfl
  | case2 c on ms hq ih =>
    rw [outside, Token.places, ih _ fun name hn => h name (List.mem_cons_of_mem _ hn), hq.1, hq.2]
    rfl
  | case3 c on ms h1 hn ih => exact absurd (List.mem_cons_self) (h _)
  | case4 c on ms h1 h2 ih =>
    have hoff : (on && [63].contains c) = false := by
      rw [Bool.and_eq_false_imp]
      intro hon
      have h63 : c ≠ 63 := fun hc => h1 ⟨hon, hc⟩
      simp [h63]
    rw [outside, Token.places, ih _ fun name hn => h name (List.mem_cons_of_mem _ hn), hoff]
    rfl

/-! ## Alignment -/

/-- A text and a list of parameters belong to a statement, token by token: what is copied stays as it is
and in order, the markers of the statement and the question marks of the text are the tokens that are
parameters, and the parameters have the names of the markers. -/
structure Aligned (s q : Bytes) (ps : List Parameter) (ts : List Token) : Prop where
  source : ts.flatMap Token.source = s
  output : ts.flatMap Token.output = q
  parameters : ts.filterMap Token.parameter? = ps
  markers : markers s = Token.places Token.source 0 ts
  questions : questions q = Token.places Token.output 0 ts
  names : ps.map Parameter.name = (Odbc.markers s).map (nameAt s)

theorem length_places (text : Token → Bytes) (n : ℕ) (ts : List Token) :
    (Token.places text n ts).length = (ts.filterMap Token.parameter?).length := by
  induction ts generalizing n with
  | nil => rfl
  | cons t ts ih =>
    rw [Token.places, List.length_append, ih, List.filterMap_cons]
    cases t with
    | copy c => simp [Token.parameter?]
    | question => simp [Token.parameter?, Nat.add_comm]
    | named name => simp [Token.parameter?, Nat.add_comm]

theorem output_asked (ts : List Token) :
    (ts.map Token.asked).flatMap Token.output = ts.flatMap Token.output := by
  induction ts with
  | nil => rfl
  | cons t ts ih =>
    rw [List.map_cons, List.flatMap_cons, List.flatMap_cons, ih]
    cases t <;> rfl

/-- `parse` keeps markers and parameters aligned, and parsing its text again gives that text and as many
parameters. -/
theorem parse_aligned (s : Bytes) : ∃ q ps ts, parse s = some (q, ps) ∧ Aligned s q ps ts ∧
    (questions q).length = ps.length ∧ ∃ ps', parse q = some (q, ps') ∧ ps'.length = ps.length := by
  have hagain : statementTokens ((statementTokens s).flatMap Token.output) =
      (statementTokens s).map Token.asked := tokens_output false false s
  have hquestions : questions ((statementTokens s).flatMap Token.output) =
      Token.places Token.output 0 (statementTokens s) := by
    have hnamed : ∀ name, Token.named name ∉
        tokens (marks false false ((statementTokens s).flatMap Token.output)) := by
      intro name hmem
      change Token.named name ∈ statementTokens _ at hmem
      rw [hagain] at hmem
      obtain ⟨t, -, ht⟩ := List.mem_map.mp hmem
      cases t <;> simp [Token.asked] at ht
    rw [questions, outside_questions 0 _ hnamed, ← places_asked]
    exact congrArg _ hagain
  have hmarkers : markers s = Token.places Token.source 0 (statementTokens s) := outside_markers 0 _
  have hnames : ((statementTokens s).filterMap Token.parameter?).map Parameter.name =
      (markers s).map (nameAt s) := by
    rw [hmarkers]
    exact (places_names (p := []) (marks false false s) (by rw [marks_map, List.nil_append])).symm
  refine ⟨_, _, statementTokens s, parse_eq s,
    ⟨statementTokens_source s, rfl, rfl, hmarkers, hquestions, hnames⟩, ?_,
    ((statementTokens s).map Token.asked).filterMap Token.parameter?, ?_, ?_⟩
  · rw [hquestions, length_places]
  · rw [parse_eq, hagain, output_asked]
  · rw [← length_places Token.source 0, places_asked, length_places]

example : parse (ascii "x=:id and y=':a' or z=?") =
    some (ascii "x=? and y=':a' or z=?", [⟨ascii "id", []⟩, ⟨[], []⟩]) := by decide +kernel

end Dcl.Odbc
