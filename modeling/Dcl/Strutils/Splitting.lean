import Dcl.Strutils.Tokens

/-! # `tokenize` and `trim` as splitting by delimiters

What the loops of `strutils.cpp` compute, said without positions: the maximal parts of a string that have
no delimiter, and the longest runs of white space at its two ends. -/
namespace Dcl
set_option autoImplicit false

/-! ## The pieces of a string -/

/-- The maximal parts of a string without a delimiter, in order. -/
inductive Pieces (delims : Bytes) : Bytes → List Bytes → Prop
  | last {p : Bytes} (hp : ∀ x ∈ p, x ∉ delims) : Pieces delims p [p]
  | cut {p s : Bytes} {c : UInt8} {ps : List Bytes} (hp : ∀ x ∈ p, x ∉ delims) (hc : c ∈ delims)
      (hs : Pieces delims s ps) : Pieces delims (p ++ c :: s) (p :: ps)

section Pieces
variable {delims s : Bytes} {ps : List Bytes}

theorem exists_pieces (delims s : Bytes) : ∃ ps, Pieces delims s ps := by
  induction s with
  | nil => exact ⟨[[]], .last fun x hx => absurd hx List.not_mem_nil⟩
  | cons c s ih =>
    obtain ⟨ps, hps⟩ := ih
    by_cases hc : c ∈ delims
    · exact ⟨[] :: ps, .cut (p := []) (fun x hx => absurd hx List.not_mem_nil) hc hps⟩
    · -- the first byte joins the first piece
      have hcons : ∀ {p : Bytes}, (∀ x ∈ p, x ∉ delims) → ∀ x ∈ c :: p, x ∉ delims := by
        intro p hp
        exact List.forall_mem_cons.mpr ⟨hc, hp⟩
      cases hps with
      | last hp => exact ⟨_, .last (hcons hp)⟩
      | cut hp hd hs => exact ⟨_, .cut (hcons hp) hd hs⟩

theorem Pieces.eq_splitOnP (h : Pieces delims s ps) : ps = s.splitOnP (delims.contains ·) := by
  have hfree : ∀ {p : Bytes}, (∀ x ∈ p, x ∉ delims) → ∀ x ∈ p, delims.contains x = false := by
    intro p hp x hx
    simpa using hp x hx
  induction h with
  | last hp => rw [List.splitOnP_eq_singleton (hfree hp)]
  | cut hp hc hs ih =>
    rw [List.splitOnP_append_cons_of_forall_mem (hfree hp) _ (by simpa using hc), ← ih]

theorem Pieces.length_eq (h : Pieces delims s ps) : ps.length = s.countP (· ∈ delims) + 1 := by
  have hfree : ∀ {p : Bytes}, (∀ x ∈ p, x ∉ delims) → p.countP (· ∈ delims) = 0 := by
    intro p hp
    rw [List.countP_eq_zero]
    simpa using hp
  induction h with
  | last hp => rw [hfree hp, List.length_singleton]
  | cut hp hc hs ih =>
    rw [List.length_cons, ih, List.countP_append, hfree hp,
      List.countP_cons_of_pos (by simpa using hc), Nat.zero_add]

theorem tokenize_pieces (h : Pieces delims s ps) (hne : s ≠ []) : tokenize s delims = ps.map trim := by
  rw [tokenize, if_neg (by simpa using hne), tokenizeFrom_eq _ _ (by omega) (by omega), List.drop_zero,
    h.eq_splitOnP]

end Pieces

/-! ## The white space around a string -/

/-- `x` is the longest run of bytes from `ws` at the beginning of `s`. -/
structure Leading (ws x s : Bytes) : Prop where
  begins : x <+: s
  blank : ∀ c ∈ x, c ∈ ws
  longest : ∀ y, y <+: s → (∀ c ∈ y, c ∈ ws) → y.length ≤ x.length

/-- `x` is the longest run of bytes from `ws` at the end of `s`. -/
structure Trailing (ws x s : Bytes) : Prop where
  ends : x <:+ s
  blank : ∀ c ∈ x, c ∈ ws
  longest : ∀ y, y <:+ s → (∀ c ∈ y, c ∈ ws) → y.length ≤ x.length

section Trim
variable (ws s : Bytes)

theorem leading_takeWhile : Leading ws (s.takeWhile (ws.contains ·)) s where
  begins := List.takeWhile_prefix _
  blank := fun c hc => by simpa using List.mem_takeWhile_imp hc
  longest := by
    rintro y ⟨t, rfl⟩ hy
    rw [List.takeWhile_append_of_pos (by simpa using hy), List.length_append]
    omega

theorem trailing_rtakeWhile : Trailing ws (s.rtakeWhile (ws.contains ·)) s where
  ends := List.rtakeWhile_suffix _ _
  blank := fun c hc => by simpa using List.mem_rtakeWhile_imp hc
  longest := by
    rintro y ⟨t, rfl⟩ hy
    have hrev : ∀ c ∈ y.reverse, ws.contains c = true := by simpa using hy
    rw [List.rtakeWhile, List.reverse_append, List.takeWhile_append_of_pos hrev, List.length_reverse,
      List.length_append, List.length_reverse]
    omega

/-- Where some byte stays, the two runs do not meet. -/
theorem eq_append_trimOf (h : ¬ ∀ c ∈ s, c ∈ ws) :
    s = s.takeWhile (ws.contains ·) ++ trimOf ws s ++ s.rtakeWhile (ws.contains ·) := by
  have hright := List.rdropWhile_append_rtakeWhile (p := (ws.contains ·)) (l := s)
  have hleft := List.takeWhile_append_dropWhile (p := (ws.contains ·)) (l := s.rdropWhile (ws.contains ·))
  have hne : s.rdropWhile (ws.contains ·) ≠ [] := by
    intro hnil
    exact h (by simpa using List.rdropWhile_eq_nil_iff.mp hnil)
  have hsame : s.takeWhile (ws.contains ·) = (s.rdropWhile (ws.contains ·)).takeWhile (ws.contains ·) := by
    conv_lhs => rw [← hright]
    rw [List.takeWhile_append, if_neg]
    intro hlen
    have hall := List.takeWhile_eq_self_iff.mp ((List.takeWhile_prefix _).eq_of_length hlen)
    exact List.rdropWhile_last_not _ s hne (hall _ (List.getLast_mem hne))
  rw [hsame, trimOf_eq, hleft, hright]

theorem trimOf_all (h : ∀ c ∈ s, c ∈ ws) : trimOf ws s = [] := by
  rw [trimOf_eq, List.rdropWhile_eq_nil_iff.mpr (by simpa using h)]
  rfl

theorem trimOf_trimOf : trimOf ws (trimOf ws s) = trimOf ws s := by
  have hright : (trimOf ws s).rdropWhile (ws.contains ·) = trimOf ws s := by
    rw [List.rdropWhile_eq_self_iff]
    intro hl
    rw [getLast?_trimOf (List.getLast?_eq_some_getLast hl)]
    exact Bool.false_ne_true
  rw [trimOf_eq ws (trimOf ws s), hright, List.dropWhile_eq_self_iff]
  intro hl
  have hne : trimOf ws s ≠ [] := List.ne_nil_of_length_pos hl
  have hhead : ws.contains ((trimOf ws s).head hne) = false := head?_trimOf (List.head?_eq_some_head hne)
  rw [← List.head_eq_getElem_zero hne, hhead]
  exact Bool.false_ne_true

/-- The two runs of a string, and what `trim` keeps between them. -/
theorem trimOf_between : ∃ x y, Leading ws x s ∧ Trailing ws y s ∧
    ((∀ c ∈ s, c ∈ ws) ∧ trimOf ws s = [] ∨ s = x ++ trimOf ws s ++ y) := by
  refine ⟨_, _, leading_takeWhile ws s, trailing_rtakeWhile ws s, ?_⟩
  by_cases hall : ∀ c ∈ s, c ∈ ws
  · exact .inl ⟨hall, trimOf_all ws s hall⟩
  · exact .inr (eq_append_trimOf ws s hall)

end Trim

/-! ## The pair form -/

theorem findLastOf_some {s delims : Bytes} {pos : ℕ} (h : findLastOf s delims = some pos) :
    ∃ a c b, s = a ++ c :: b ∧ (∀ x ∈ b, delims.contains x = false) ∧ delims.contains c = true ∧
      pos = a.length := by
  obtain ⟨i, hi, rfl⟩ := Option.map_eq_some_iff.mp h
  have hfirst : findFirstOf s.reverse delims 0 = some i := by
    rw [findFirstOf, List.drop_zero, hi, Option.map_some, Nat.zero_add]
  obtain ⟨b, c, a, hs, hb, hc, rfl⟩ := findFirstOf_some hfirst
  rw [List.drop_zero] at hs
  have hrev : s = a.reverse ++ c :: b.reverse := by
    rw [← List.reverse_reverse s, hs]
    simp
  refine ⟨a.reverse, c, b.reverse, hrev, fun x hx => hb x (List.mem_reverse.mp hx), hc, ?_⟩
  rw [hrev]
  simp only [List.length_append, List.length_cons, List.length_reverse]
  omega

theorem findFirstOf_ne_none {s delims : Bytes} (h : ∃ c ∈ s, c ∈ delims) :
    findFirstOf s delims 0 ≠ none := by
  obtain ⟨c, hc, hd⟩ := h
  rw [findFirstOf, List.drop_zero, ne_eq, Option.map_eq_none_iff, List.findIdx?_eq_none_iff]
  intro hall
  have := hall c hc
  simp [hd] at this

theorem findLastOf_ne_none {s delims : Bytes} (h : ∃ c ∈ s, c ∈ delims) : findLastOf s delims ≠ none := by
  obtain ⟨c, hc, hd⟩ := h
  rw [findLastOf, ne_eq, Option.map_eq_none_iff, List.findIdx?_eq_none_iff]
  intro hall
  have := hall c (List.mem_reverse.mpr hc)
  simp [hd] at this

/-- The delimiter it is cut at is the last one when the search is greedy, and the first one otherwise. -/
theorem tokenizePair_cut {source delims : Bytes} (h : ∃ c ∈ source, c ∈ delims) (left right : Bytes)
    (greedy : Bool) :
    ∃ a c b, tokenizePair source left right greedy delims = (a, b) ∧ source = a ++ c :: b ∧ c ∈ delims ∧
      ∀ x ∈ if greedy then b else a, x ∉ delims := by
  have hne : source.isEmpty = false := by
    obtain ⟨c, hc, -⟩ := h
    simpa using List.ne_nil_of_mem hc
  cases greedy with
  | true =>
    obtain ⟨pos, hpos⟩ := Option.ne_none_iff_exists'.mp (findLastOf_ne_none h)
    obtain ⟨a, c, b, rfl, hb, hc, rfl⟩ := findLastOf_some hpos
    refine ⟨a, c, b, ?_, rfl, by simpa using hc, by simpa using hb⟩
    simp only [tokenizePair, hne, Bool.false_eq_true, if_false, if_true, hpos]
    exact take_substr a b c
  | false =>
    obtain ⟨pos, hpos⟩ := Option.ne_none_iff_exists'.mp (findFirstOf_ne_none h)
    obtain ⟨a, c, b, hs, ha, hc, rfl⟩ := findFirstOf_some hpos
    rw [List.drop_zero] at hs
    subst hs
    rw [Nat.zero_add] at hpos
    refine ⟨a, c, b, ?_, rfl, by simpa using hc, by simpa using ha⟩
    simp only [tokenizePair, hne, Bool.false_eq_true, if_false, hpos]
    exact take_substr a b c

/-- `tokenize` gives the trimmed pieces and none for the empty string; `trim` removes the longest runs of
blanks, tabs and line ends at the two ends, or of any other delimiters it is given, and a second `trim`
changes nothing; the pair form cuts at one delimiter. -/
theorem splits_by_delimiters (source delims ws left right : Bytes) (greedy : Bool) :
    tokenize [] delims = [] ∧
    (source ≠ [] → ∃ ps, (∀ qs, Pieces delims source qs ↔ qs = ps) ∧
      tokenize source delims = ps.map trim ∧
      (tokenize source delims).length = source.countP (· ∈ delims) + 1) ∧
    (∃ x y, Leading (ascii " \t\r\n") x source ∧ Trailing (ascii " \t\r\n") y source ∧
      ((∀ c ∈ source, c ∈ ascii " \t\r\n") ∧ trim source = [] ∨ source = x ++ trim source ++ y)) ∧
    trim (trim source) = trim source ∧
    (∃ x y, Leading ws x source ∧ Trailing ws y source ∧
      ((∀ c ∈ source, c ∈ ws) ∧ trimOf ws source = [] ∨ source = x ++ trimOf ws source ++ y)) ∧
    trimOf ws (trimOf ws source) = trimOf ws source ∧
    ((∃ c ∈ source, c ∈ delims) →
      ∃ a c b, tokenizePair source left right greedy delims = (a, b) ∧ source = a ++ c :: b ∧
        c ∈ delims ∧ ∀ x ∈ if greedy then b else a, x ∉ delims) := by
  have hblanks : ascii " \t\r\n" = blanks := by decide
  rw [hblanks]
  refine ⟨rfl, fun hne => ?_, trimOf_between blanks source, trimOf_trimOf blanks source,
    trimOf_between ws source, trimOf_trimOf ws source, fun h => tokenizePair_cut h left right greedy⟩
  obtain ⟨ps, hps⟩ := exists_pieces delims source
  refine ⟨ps, fun qs => ⟨fun hqs => ?_, fun hqs => hqs ▸ hps⟩, tokenize_pieces hps hne, ?_⟩
  · rw [hqs.eq_splitOnP, hps.eq_splitOnP]
  · rw [tokenize_pieces hps hne, List.length_map, hps.length_eq]

end Dcl
