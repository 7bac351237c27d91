import Dcl.Odbc.Markers
import Mathlib.Algebra.Group.Nat.Even

/-! # SQL quoting

A statement is plain text with string literals and quoted identifiers in it. Inside one kind of quotes
the other kind is an ordinary character, but `parse` toggles a flag at it all the same; the module says
exactly which statements are read correctly. -/
namespace Dcl.Odbc
set_option autoImplicit false

/-! ## Statements -/

inductive Kind where
  | literal | identifier
  deriving DecidableEq, Repr

def Kind.quote : Kind → UInt8
  | .literal => 39
  | .identifier => 34

/-- A string literal or a quoted identifier: its content between quotes, with the quotes in it doubled. -/
def Kind.text (k : Kind) (content : Bytes) : Bytes :=
  k.quote :: content.flatMap (fun c => if c = k.quote then [c, c] else [c]) ++ [k.quote]

structure Plain where
  text : Bytes
  unquoted : ∀ c ∈ text, c ≠ 39 ∧ c ≠ 34

/-- A quoted part with the plain text behind it. -/
structure Part where
  kind : Kind
  content : Bytes
  plain : Plain

structure Statement where
  plain : Plain
  parts : List Part

namespace Statement

/-- The characters of a statement, each with the kind of quotes it stands in. -/
def chars (st : Statement) : List (UInt8 × Option Kind) :=
  st.plain.text.map (·, none) ++ st.parts.flatMap fun p =>
    (p.kind.text p.content).map (·, some p.kind) ++ p.plain.text.map (·, none)

def text (st : Statement) : Bytes := st.chars.map Prod.fst

end Statement

def Plain.tokens (p : Plain) : List Token := Odbc.tokens (p.text.map (·, true))

/-- The tokens of a statement when its quoted parts are copied. -/
def Statement.tokens (st : Statement) : List Token :=
  st.plain.tokens ++ st.parts.flatMap fun p => (p.kind.text p.content).map .copy ++ p.plain.tokens

/-- The pass at position `i` of a statement adds a parameter. -/
def Turned (s : Bytes) (i : ℕ) : Prop :=
  ∃ n a b, Loop.Passes (Scan.pass s) n .start a ∧ a.i = i ∧ a.pass s = .inl b ∧
    a.parameters.length < b.parameters.length

/-- A `:` or `?` becomes a parameter if and only if it lies in the plain text, and the rest is copied. -/
structure Statement.Recognised (st : Statement) : Prop where
  turned : ∀ (i : ℕ) (c : UInt8) (z : Option Kind), st.chars[i]? = some (c, z) → c = 63 ∨ c = 58 → (Turned st.text i ↔ z = none)
  result : parse st.text =
    some (st.tokens.flatMap Token.output, st.tokens.filterMap Token.parameter?)

/-- How many double quotes there are in the string literals before position `i`. -/
def Statement.doubles (st : Statement) (i : ℕ) : ℕ := (st.chars.take i).count (34, some .literal)

/-- How many single quotes there are in the quoted identifiers before position `i`. -/
def Statement.singles (st : Statement) (i : ℕ) : ℕ := (st.chars.take i).count (39, some .identifier)

/-- The flags that those quotes toggled do no harm at a `:` or `?`. -/
def Statement.Harmless (st : Statement) : Prop :=
  ∀ (i : ℕ) (c : UInt8) (z : Option Kind), st.chars[i]? = some (c, z) → c = 63 ∨ c = 58 →
    match z with
    | none => Even (st.doubles i) ∧ Even (st.singles i)
    | some .literal => Even (st.singles i) ∨ Odd (st.doubles i)
    | some .identifier => Even (st.doubles i) ∨ Odd (st.singles i)

/-! ## What the code turns into parameters -/

theorem mem_outside {cs : Bytes} {n i : ℕ} {ms : List (UInt8 × Bool)} : i ∈ outside cs n ms ↔
    ∃ j c, i = n + j ∧ ms[j]? = some (c, true) ∧ c ∈ cs := by
  induction ms generalizing n with
  | nil => simp [outside]
  | cons m ms ih =>
    rw [outside, List.mem_append, ih]
    constructor
    · rintro (h | ⟨j, c, rfl, hget, hc⟩)
      · split at h
        next hm =>
          rw [Bool.and_eq_true, List.contains_iff_mem] at hm
          refine ⟨0, m.1, by simpa using h, ?_, hm.2⟩
          rw [List.getElem?_cons_zero, ← hm.1]
        next => exact absurd h (List.not_mem_nil)
      · exact ⟨j + 1, c, by omega, by rwa [List.getElem?_cons_succ], hc⟩
    · rintro ⟨j, c, rfl, hget, hc⟩
      cases j with
      | zero =>
        rw [List.getElem?_cons_zero, Option.some.injEq] at hget
        subst hget
        left
        simp [hc]
      | succ j =>
        rw [List.getElem?_cons_succ] at hget
        exact Or.inr ⟨j, c, by omega, hget, hc⟩

theorem odd_toggle (f : Bool) (x k : UInt8) (n : ℕ) :
    (Odd n ↔ (if x = k then !f else f) = true) ↔ (Odd (n + if x == k then 1 else 0) ↔ f = true) := by
  by_cases h : x = k
  · simp only [h, if_true, beq_self_eq_true, Nat.odd_add_one]
    cases f <;> simp
  · simp [h]

/-- Whether a character stands outside quotes is decided by the parity of the quotes before it. -/
theorem getElem?_marks {ssq dsq : Bool} {s : Bytes} {i : ℕ} {c : UInt8} {on : Bool} :
    (marks ssq dsq s)[i]? = some (c, on) ↔ s[i]? = some c ∧
      (on = true ↔ (Odd ((s.take i).count 39) ↔ ssq = true) ∧ (Odd ((s.take i).count 34) ↔ dsq = true)) := by
  induction s generalizing ssq dsq i with
  | nil => simp [marks]
  | cons x s ih =>
    cases i with
    | zero =>
      rw [marks, List.getElem?_cons_zero, List.getElem?_cons_zero, List.take_zero]
      cases ssq <;> cases dsq <;> cases on <;> simp
    | succ i =>
      rw [marks, List.getElem?_cons_succ, List.getElem?_cons_succ, ih, List.take_succ_cons,
        List.count_cons, List.count_cons, odd_toggle, odd_toggle]

theorem mem_markers {s : Bytes} {i : ℕ} : i ∈ markers s ↔ ∃ c, s[i]? = some c ∧ (c = 63 ∨ c = 58) ∧
    Even ((s.take i).count 39) ∧ Even ((s.take i).count 34) := by
  rw [markers, mem_outside]
  simp only [getElem?_marks, Nat.zero_add, Nat.not_odd_iff_even.symm, Bool.false_eq_true, iff_false,
    true_iff, List.mem_cons, List.not_mem_nil, or_false]
  constructor
  · rintro ⟨j, c, rfl, ⟨hget, hodd⟩, hc⟩
    exact ⟨c, hget, hc, hodd⟩
  · rintro ⟨c, hget, hc, hodd⟩
    exact ⟨i, c, rfl, ⟨hget, hodd⟩, hc⟩

theorem mem_places {text : Token → Bytes} {n i : ℕ} {ts : List Token} : i ∈ Token.places text n ts ↔
    ∃ xs t ys, ts = xs ++ t :: ys ∧ t.parameter?.isSome = true ∧ i = n + (xs.flatMap text).length := by
  induction ts generalizing n with
  | nil => simp [Token.places]
  | cons t ts ih =>
    rw [Token.places, List.mem_append, ih]
    constructor
    · rintro (h | ⟨xs, t', ys, rfl, ht, rfl⟩)
      · split at h
        next ht => exact ⟨[], t, ts, rfl, ht, by simpa using h⟩
        next => exact absurd h List.not_mem_nil
      · refine ⟨t :: xs, t', ys, rfl, ht, ?_⟩
        rw [List.flatMap_cons, List.length_append, Nat.add_assoc]
    · rintro ⟨xs, t', ys, hsplit, ht, rfl⟩
      cases xs with
      | nil =>
        obtain ⟨rfl, rfl⟩ := List.cons.inj hsplit
        left
        simp [ht]
      | cons x xs =>
        obtain ⟨rfl, rfl⟩ := List.cons.inj hsplit
        refine Or.inr ⟨xs, t', ys, rfl, ht, ?_⟩
        rw [List.flatMap_cons, List.length_append, Nat.add_assoc]

/-- The states of the loop are those between two tokens. -/
def AtToken (s : Bytes) (a : Scan) : Prop :=
  ∃ xs ys, statementTokens s = xs ++ ys ∧ a.i = (xs.flatMap Token.source).length ∧
    tokens (marks a.ssq a.dsq (s.drop a.i)) = ys

theorem AtToken.pass {s : Bytes} {a b : Scan} (h : AtToken s a) (hpass : a.pass s = .inl b) :
    ∃ xs t ys, statementTokens s = xs ++ t :: ys ∧ a.i = (xs.flatMap Token.source).length ∧
      b.parameters = a.parameters ++ t.parameter?.toList ∧ AtToken s b := by
  obtain ⟨xs, ys, hsplit, hi, htokens⟩ := h
  cases ys with
  | nil =>
    -- nothing is left, and the loop ends
    have hend : a.i = s.length := by
      rw [hi, ← congrArg List.length (statementTokens_source s), hsplit, List.append_nil]
    rw [Scan.pass, hend, List.getElem?_length] at hpass
    cases hpass
  | cons t ys =>
    obtain ⟨ssq, dsq, hstep, hrest⟩ := pass_token htokens
    rw [hpass, Sum.inl.injEq] at hstep
    subst hstep
    refine ⟨xs, t, ys, hsplit, hi, rfl, xs ++ [t], ys, by simpa using hsplit, ?_, hrest⟩
    simp [hi]

theorem AtToken.next {s : Bytes} {a b : Scan} (h : AtToken s a) (hpass : a.pass s = .inl b) :
    AtToken s b := by
  obtain ⟨_, _, _, _, _, _, hb⟩ := h.pass hpass
  exact hb

/-- The positions that are turned into parameters are the markers. -/
theorem turned_iff {s : Bytes} {i : ℕ} : Turned s i ↔ i ∈ markers s := by
  have hmarkers : markers s = Token.places Token.source 0 (statementTokens s) := outside_markers 0 _
  rw [hmarkers, mem_places]
  constructor
  · rintro ⟨n, a, b, hpasses, rfl, hpass, hlt⟩
    have hstart : AtToken s .start := ⟨[], statementTokens s, rfl, rfl, rfl⟩
    have hat := hpasses.preserves (fun a b ha hab => ha.next hab) hstart
    obtain ⟨xs, t, ys, hsplit, hi, hparams, -⟩ := hat.pass hpass
    refine ⟨xs, t, ys, hsplit, ?_, by omega⟩
    rw [hparams, List.length_append] at hlt
    cases ht : t.parameter? with
    | none => simp [ht] at hlt
    | some p => rfl
  · rintro ⟨xs, t, ys, hsplit, ht, rfl⟩
    have htokens : tokens (marks Scan.start.ssq Scan.start.dsq (s.drop Scan.start.i)) = xs ++ t :: ys :=
      hsplit
    obtain ⟨ssq, dsq, hpasses, hrest⟩ := passes_tokens htokens
    obtain ⟨ssq', dsq', hpass, -⟩ := pass_token (s := ⟨Scan.start.i + (xs.flatMap Token.source).length,
      ssq, dsq, Scan.start.q ++ xs.flatMap Token.output,
      Scan.start.parameters ++ xs.filterMap Token.parameter?⟩) hrest
    refine ⟨xs.length, _, _, hpasses, rfl, hpass, ?_⟩
    obtain ⟨p, hp⟩ := Option.isSome_iff_exists.mp ht
    simp [hp]

/-! ## The quotes of a statement -/

theorem count_fst (k : UInt8) (l : List (UInt8 × Option Kind)) : (l.map Prod.fst).count k =
    l.count (k, none) + l.count (k, some .literal) + l.count (k, some .identifier) := by
  induction l with
  | nil => rfl
  | cons m l ih =>
    obtain ⟨c, z⟩ := m
    rw [List.map_cons, List.count_cons, ih]
    simp only [List.count_cons, beq_iff_eq, Prod.mk.injEq]
    obtain _ | _ | _ := z
    all_goals
      simp
      omega

/-- The quotes that open and close are even in number, and a `:` or `?` stands behind an odd number of
them exactly where it is inside. -/
structure Balanced (l : List (UInt8 × Option Kind)) : Prop where
  marker : ∀ xs c z ys, l = xs ++ (c, z) :: ys → c = 63 ∨ c = 58 →
    ∀ k : Kind, Odd (xs.count (k.quote, some k)) ↔ z = some k
  even : ∀ k : Kind, Even (l.count (k.quote, some k))
  plain : ∀ k : Kind, (k.quote, none) ∉ l

theorem Balanced.append {l l' : List (UInt8 × Option Kind)} (h : Balanced l) (h' : Balanced l') :
    Balanced (l ++ l') := by
  refine ⟨fun xs c z ys hsplit hc k => ?_, fun k => ?_, fun k hk => ?_⟩
  · obtain ⟨as, rfl, has⟩ | ⟨bs, rfl, hbs⟩ := List.append_eq_append_iff.mp hsplit
    · have hm := h'.marker as c z ys has hc k
      have he := h.even k
      rw [List.count_append, Nat.odd_add', ← hm]
      simp [he]
    · cases bs with
      | nil =>
        have hm := h'.marker [] c z ys (by simpa using hbs.symm) hc k
        have he := h.even k
        rw [← hm]
        simpa using he
      | cons b bs =>
        obtain ⟨rfl, rfl⟩ := List.cons.inj hbs
        exact h.marker xs c z bs rfl hc k
  · rw [List.count_append]
    exact (h.even k).add (h'.even k)
  · obtain hk | hk := List.mem_append.mp hk
    · exact h.plain k hk
    · exact h'.plain k hk

theorem Plain.balanced (p : Plain) : Balanced (p.text.map (·, none)) := by
  have hcount : ∀ (xs : List (UInt8 × Option Kind)) (k : Kind), (∀ m ∈ xs, m.2 = none) →
      xs.count (k.quote, some k) = 0 := by
    intro xs k hxs
    rw [List.count_eq_zero]
    intro hmem
    exact absurd (hxs _ hmem) (by simp)
  have hnone : ∀ m ∈ p.text.map (·, (none : Option Kind)), m.2 = none := by
    intro m hm
    obtain ⟨c, -, rfl⟩ := List.mem_map.mp hm
    rfl
  refine ⟨fun xs c z ys hsplit _ k => ?_, fun k => ?_, fun k hk => ?_⟩
  · rw [hsplit] at hnone
    have hz : z = none := hnone (c, z) (by simp)
    rw [hcount xs k fun m hm => hnone m (by simp [hm]), hz]
    simp
  · rw [hcount _ k hnone]
    exact ⟨0, rfl⟩
  · obtain ⟨c, hc, heq⟩ := List.mem_map.mp hk
    obtain ⟨h39, h34⟩ := p.unquoted c hc
    cases k with
    | literal => exact h39 (congrArg Prod.fst heq)
    | identifier => exact h34 (congrArg Prod.fst heq)

/-- Inside quotes the number of quotes before any other character is even. -/
theorem even_count_doubled {q c : UInt8} (hc : c ≠ q) {content xs ys : Bytes}
    (h : content.flatMap (fun c => if c = q then [c, c] else [c]) = xs ++ c :: ys) :
    Even (xs.count q) := by
  induction content generalizing xs with
  | nil => simp at h
  | cons x content ih =>
    rw [List.flatMap_cons] at h
    by_cases hx : x = q
    · rw [if_pos hx] at h
      match xs with
      | [] => exact absurd (List.cons.inj h).1.symm (by rw [hx]; exact hc)
      | [_] =>
        have hsecond := (List.cons.inj (List.cons.inj h).2).1
        exact absurd hsecond.symm (by rw [hx]; exact hc)
      | a :: b :: xs =>
        obtain ⟨rfl, rfl, hrest⟩ : x = a ∧ x = b ∧
            (content.flatMap fun c => if c = q then [c, c] else [c]) = xs ++ c :: ys := by simpa using h
        have heven := ih hrest
        rw [List.count_cons, List.count_cons, hx]
        simpa [Nat.even_add_one] using heven
    · rw [if_neg hx] at h
      match xs with
      | [] => exact ⟨0, rfl⟩
      | a :: xs =>
        obtain ⟨rfl, hrest⟩ := List.cons.inj h
        have heven := ih hrest
        rwa [List.count_cons_of_ne hx]

theorem even_count_content (q : UInt8) (content : Bytes) :
    Even ((content.flatMap fun c => if c = q then [c, c] else [c]).count q) := by
  induction content with
  | nil => exact ⟨0, rfl⟩
  | cons x content ih =>
    rw [List.flatMap_cons, List.count_append]
    refine Even.add ?_ ih
    split
    next hx => exact ⟨1, by simp [hx]⟩
    next hx => exact ⟨0, by simp [hx]⟩

theorem Kind.odd_count_text (k : Kind) {content xs ys : Bytes} {c : UInt8} (hc : c ≠ k.quote)
    (h : k.text content = xs ++ c :: ys) : Odd (xs.count k.quote) := by
  rw [Kind.text] at h
  match xs with
  | [] => exact absurd (List.cons.inj h).1.symm hc
  | a :: xs =>
    obtain ⟨rfl, hrest⟩ : k.quote = a ∧ (content.flatMap fun c => if c = k.quote then [c, c] else [c]) ++
        [k.quote] = xs ++ c :: ys := by simpa using h
    rw [List.count_cons_self, Nat.odd_add_one, Nat.not_odd_iff_even]
    obtain ⟨as, rfl, has⟩ | ⟨bs, hxs, hbs⟩ := List.append_eq_append_iff.mp hrest
    · -- `c` would be the closing quote
      cases as with
      | nil => exact absurd (List.cons.inj has).1.symm hc
      | cons a as => simp at has
    · cases bs with
      | nil => exact absurd (List.cons.inj hbs).1 hc
      | cons b bs =>
        obtain ⟨rfl, -⟩ := List.cons.inj hbs
        exact even_count_doubled hc hxs

theorem Kind.balanced (k : Kind) (content : Bytes) : Balanced ((k.text content).map (·, some k)) := by
  have hquote : ∀ c : UInt8, c = 63 ∨ c = 58 → c ≠ k.quote := by
    rintro c (rfl | rfl) <;> cases k <;> decide
  have hcount : ∀ (xs : Bytes) (k' : Kind), (xs.map (·, some k)).count (k'.quote, some k') =
      if k' = k then xs.count k.quote else 0 := by
    intro xs k'
    split
    next heq =>
      subst heq
      exact List.count_map_of_injective xs (·, some k') (fun a b hab => congrArg Prod.fst hab) k'.quote
    next hne =>
      rw [List.count_eq_zero]
      intro hmem
      obtain ⟨c, -, heq⟩ := List.mem_map.mp hmem
      exact hne (Option.some.inj (congrArg Prod.snd heq)).symm
  refine ⟨fun xs c z ys hsplit hc k' => ?_, fun k' => ?_, fun k' hk => ?_⟩
  · obtain ⟨xs', rest, htext, rfl, hrest⟩ := List.map_eq_append_iff.mp hsplit
    obtain ⟨c', ys', rfl, heq, -⟩ := List.map_eq_cons_iff.mp hrest
    obtain ⟨rfl, rfl⟩ := Prod.mk.inj heq
    rw [hcount]
    by_cases hkk : k' = k
    · rw [if_pos hkk, hkk]
      simp [k.odd_count_text (hquote c' hc) htext]
    · rw [if_neg hkk]
      simp [Ne.symm hkk]
  · rw [hcount]
    split
    next =>
      rw [Kind.text, List.cons_append, List.count_cons_self, List.count_append, List.count_singleton_self]
      have heven := even_count_content k.quote content
      simpa [Nat.even_add_one] using heven
    next => exact ⟨0, rfl⟩
  · obtain ⟨c, -, heq⟩ := List.mem_map.mp hk
    exact absurd (congrArg Prod.snd heq) (by simp)

theorem Statement.balanced (st : Statement) : Balanced st.chars := by
  have hparts : ∀ parts : List Part, Balanced (parts.flatMap fun p =>
      (p.kind.text p.content).map (·, some p.kind) ++ p.plain.text.map (·, none)) := by
    intro parts
    induction parts with
    | nil => exact ⟨fun xs c z ys h => by simp at h, fun k => ⟨0, rfl⟩, fun k => List.not_mem_nil⟩
    | cons p parts ih =>
      rw [List.flatMap_cons]
      exact ((p.kind.balanced p.content).append p.plain.balanced).append ih
  exact st.plain.balanced.append (hparts st.parts)

/-! ## The two readings -/

/-- When the code takes a `:` or `?` of a statement for a parameter. -/
theorem Statement.turned_iff_parity (st : Statement) {i : ℕ} {c : UInt8} {z : Option Kind}
    (hget : st.chars[i]? = some (c, z)) (hc : c = 63 ∨ c = 58) : Turned st.text i ↔
      (Even (st.singles i) ↔ z ≠ some .literal) ∧ (Even (st.doubles i) ↔ z ≠ some .identifier) := by
  have hsplit : st.chars = st.chars.take i ++ (c, z) :: st.chars.drop (i + 1) := by
    obtain ⟨hi, heq⟩ := List.getElem?_eq_some_iff.mp hget
    rw [← heq, List.getElem_cons_drop, List.take_append_drop]
  have htext : st.text[i]? = some c := by
    rw [Statement.text, List.getElem?_map, hget]
    rfl
  have hmarker := st.balanced.marker _ c z _ hsplit hc
  have hplain : ∀ k : Kind, (st.chars.take i).count (k.quote, none) = 0 := by
    intro k
    rw [List.count_eq_zero]
    exact fun hmem => st.balanced.plain k (List.mem_of_mem_take hmem)
  have hsingle : Even ((st.text.take i).count 39) ↔ (Even (st.singles i) ↔ z ≠ some .literal) := by
    have hodd := hmarker .literal
    have hzero := hplain .literal
    simp only [Kind.quote] at hodd hzero
    rw [Statement.text, ← List.map_take, count_fst, hzero, Nat.zero_add, Nat.even_add, ne_eq, ← hodd,
      Nat.not_odd_iff_even, Statement.singles]
    exact Iff.comm
  have hdouble : Even ((st.text.take i).count 34) ↔ (Even (st.doubles i) ↔ z ≠ some .identifier) := by
    have hodd := hmarker .identifier
    have hzero := hplain .identifier
    simp only [Kind.quote] at hodd hzero
    rw [Statement.text, ← List.map_take, count_fst, hzero, Nat.zero_add, Nat.even_add, ne_eq, ← hodd,
      Nat.not_odd_iff_even, Statement.doubles]
  rw [turned_iff, mem_markers]
  constructor
  · rintro ⟨c', -, -, h39, h34⟩
    exact ⟨hsingle.mp h39, hdouble.mp h34⟩
  · rintro ⟨h39, h34⟩
    exact ⟨c, htext, hc, hsingle.mpr h39, hdouble.mpr h34⟩

/-- The code reads a `:` or `?` correctly exactly where the toggled flags do no harm. -/
theorem Statement.turned_iff_harmless (st : Statement) :
    (∀ (i : ℕ) (c : UInt8) (z : Option Kind), st.chars[i]? = some (c, z) → c = 63 ∨ c = 58 →
      (Turned st.text i ↔ z = none)) ↔ st.Harmless := by
  refine forall_congr' fun i => forall_congr' fun c => forall_congr' fun z => ?_
  refine imp_congr_right fun hget => imp_congr_right fun hc => ?_
  rw [st.turned_iff_parity hget hc]
  match z with
  | none => simp [and_comm]
  | some .literal =>
    have hodd : Odd (st.doubles i) ↔ ¬Even (st.doubles i) := Nat.not_even_iff_odd.symm
    simp only [hodd, ne_eq, not_true_eq_false, iff_false, reduceCtorEq, not_false_eq_true, iff_true,
      Option.some.injEq]
    tauto
  | some .identifier =>
    have hodd : Odd (st.singles i) ↔ ¬Even (st.singles i) := Nat.not_even_iff_odd.symm
    simp only [hodd, ne_eq, not_true_eq_false, iff_false, reduceCtorEq, not_false_eq_true, iff_true,
      Option.some.injEq]
    tauto

/-! ## The tokens -/

def Agree (m m' : UInt8 × Bool) : Prop := m.1 = m'.1 ∧ (m.1 = 63 ∨ m.1 = 58 → m.2 = m'.2)

theorem forall₂_dropWhile_name {ms ms' : List (UInt8 × Bool)} (h : List.Forall₂ Agree ms ms') :
    List.Forall₂ Agree (ms.dropWhile fun m => isName m.1) (ms'.dropWhile fun m => isName m.1) := by
  induction h with
  | nil => exact .nil
  | @cons m m' ms ms' hm hms ih =>
    rw [List.dropWhile_cons, List.dropWhile_cons, hm.1]
    split
    next => exact ih
    next => exact .cons hm hms

theorem map_fst_of_agree {ms ms' : List (UInt8 × Bool)} (h : List.Forall₂ Agree ms ms') :
    ms.map Prod.fst = ms'.map Prod.fst := by
  induction h with
  | nil => rfl
  | cons hm _ ih => rw [List.map_cons, List.map_cons, hm.1, ih]

/-- The tokens depend on the marks of `:` and `?` only. -/
theorem tokens_congr {ms ms' : List (UInt8 × Bool)} (h : List.Forall₂ Agree ms ms') :
    tokens ms = tokens ms' := by
  fun_induction tokens ms generalizing ms' with
  | case1 =>
    cases h
    rw [tokens]
  | case2 c on ms hq ih =>
    obtain ⟨⟨c', on'⟩, ms', ⟨hfst, hon⟩, hms, rfl⟩ := List.forall₂_cons_left_iff.mp h
    obtain rfl : c = c' := hfst
    have hsame : on = on' := hon (Or.inl hq.2)
    rw [tokens, if_pos (hsame ▸ hq), ih hms]
  | case3 c on ms h1 hn ih =>
    obtain ⟨⟨c', on'⟩, ms', ⟨hfst, hon⟩, hms, rfl⟩ := List.forall₂_cons_left_iff.mp h
    obtain rfl : c = c' := hfst
    have hsame : on = on' := hon (Or.inr hn.2)
    rw [tokens, if_neg (hsame ▸ h1), if_pos (hsame ▸ hn), map_fst_of_agree hms,
      ih (forall₂_dropWhile_name hms)]
  | case4 c on ms h1 h2 ih =>
    obtain ⟨⟨c', on'⟩, ms', ⟨hfst, hon⟩, hms, rfl⟩ := List.forall₂_cons_left_iff.mp h
    obtain rfl : c = c' := hfst
    have h63 : ¬(on' = true ∧ c = 63) := fun h => h1 ⟨(hon (Or.inl h.2)).trans h.1, h.2⟩
    have h58 : ¬(on' = true ∧ c = 58) := fun h => h2 ⟨(hon (Or.inr h.2)).trans h.1, h.2⟩
    rw [tokens, if_neg h63, if_neg h58, ih hms]

/-- A name ends at a character that is not one of its own. -/
theorem while_append_stop {α : Type*} {p : α → Bool} {x : α} (hx : p x = false) (l l' : List α) :
    (l ++ x :: l').takeWhile p = l.takeWhile p ∧ (l ++ x :: l').dropWhile p = l.dropWhile p ++ x :: l' := by
  induction l with
  | nil => simp [hx]
  | cons y l ih =>
    by_cases hy : p y = true
    · simp [hy, ih]
    · simp [hy]

theorem tokens_append_stop {m : UInt8 × Bool} (hm : isName m.1 = false) (l l' : List (UInt8 × Bool)) :
    tokens (l ++ m :: l') = tokens l ++ tokens (m :: l') := by
  fun_induction tokens l with
  | case1 => rfl
  | case2 c on ms hq ih => rw [List.cons_append, tokens, if_pos hq, ih, List.cons_append]
  | case3 c on ms h1 hn ih =>
    obtain ⟨hname, -⟩ := while_append_stop (p := isName) hm (ms.map Prod.fst) (l'.map Prod.fst)
    obtain ⟨-, hrest⟩ := while_append_stop (p := fun m : UInt8 × Bool => isName m.1) hm ms l'
    rw [List.cons_append, tokens, if_neg h1, if_pos hn, List.map_append, List.map_cons, hname, hrest, ih,
      List.cons_append]
  | case4 c on ms h1 h2 ih =>
    rw [List.cons_append, tokens, if_neg h1, if_neg h2, ih, List.cons_append]

theorem tokens_off (l : Bytes) (ms : List (UInt8 × Bool)) :
    tokens (l.map (·, false) ++ ms) = l.map .copy ++ tokens ms := by
  induction l with
  | nil => rfl
  | cons c l ih =>
    rw [List.map_cons, List.cons_append, tokens, if_neg (by simp), if_neg (by simp), ih]
    rfl

theorem Statement.tokens_eq (st : Statement) :
    Odbc.tokens (st.chars.map fun m => (m.1, m.2.isNone)) = st.tokens := by
  obtain ⟨plain, parts⟩ := st
  induction parts generalizing plain with
  | nil =>
    simp [Statement.chars, Statement.tokens, Plain.tokens]
    rfl
  | cons p parts ih =>
    have hstop : isName p.kind.quote = false := by cases p.kind <;> decide
    have hmap : (Statement.chars ⟨plain, p :: parts⟩).map (fun m => (m.1, m.2.isNone)) =
        plain.text.map (·, true) ++ ((p.kind.text p.content).map (·, false) ++
          (Statement.chars ⟨p.plain, parts⟩).map fun m => (m.1, m.2.isNone)) := by
      simp [Statement.chars, Function.comp_def]
    have hquoted := tokens_off (p.kind.text p.content)
      ((Statement.chars ⟨p.plain, parts⟩).map fun m => (m.1, m.2.isNone))
    rw [ih p.plain] at hquoted
    -- the name of a marker ends at the opening quote
    have hfirst := tokens_append_stop (m := (p.kind.quote, false)) hstop (plain.text.map (·, true))
      (((p.kind.text p.content).drop 1).map (·, false) ++
        (Statement.chars ⟨p.plain, parts⟩).map fun m => (m.1, m.2.isNone))
    rw [hmap]
    refine hfirst.trans ?_
    rw [Statement.tokens, List.flatMap_cons, List.append_assoc]
    exact congrArg _ hquoted

/-- The tokens that the code reads are those of the statement when it reads each `:` and `?`
correctly. -/
theorem Statement.statementTokens_eq {st : Statement}
    (h : ∀ (i : ℕ) (c : UInt8) (z : Option Kind), st.chars[i]? = some (c, z) → c = 63 ∨ c = 58 →
      (Turned st.text i ↔ z = none)) : statementTokens st.text = st.tokens := by
  rw [← st.tokens_eq, statementTokens]
  apply tokens_congr
  have hlen : (marks false false st.text).length =
      (st.chars.map fun m => (m.1, m.2.isNone)).length := by
    have hfst := congrArg List.length (marks_map false false st.text)
    rw [List.length_map, Statement.text, List.length_map] at hfst
    rw [List.length_map]
    exact hfst
  refine List.forall₂_of_length_eq_of_get hlen fun i h1 h2 => ?_
  have hmark : (marks false false st.text)[i]? = some ((marks false false st.text).get ⟨i, h1⟩) :=
    List.getElem?_eq_getElem h1
  generalize (marks false false st.text).get ⟨i, h1⟩ = m at hmark
  rw [List.get_eq_getElem, List.getElem_map]
  rw [List.length_map] at h2
  have hget : st.chars[i]? = some st.chars[i] := List.getElem?_eq_getElem h2
  generalize st.chars[i] = n at hget
  obtain ⟨c, on⟩ := m
  obtain ⟨c', z⟩ := n
  obtain ⟨htext, -⟩ := getElem?_marks.mp hmark
  rw [Statement.text, List.getElem?_map, hget, Option.map_some, Option.some.injEq] at htext
  obtain rfl : c' = c := htext
  refine ⟨rfl, fun hc => ?_⟩
  have hon : on = true ↔ i ∈ markers st.text := by
    rw [markers, mem_outside]
    simp only [Nat.zero_add]
    constructor
    · rintro rfl
      exact ⟨i, c', rfl, hmark, by simpa using hc⟩
    · rintro ⟨j, x, rfl, hj, -⟩
      rw [hmark, Option.some.injEq, Prod.mk.injEq] at hj
      exact hj.2
  have hz := h i c' z hget hc
  rw [turned_iff, ← hon] at hz
  rw [Bool.eq_iff_iff, hz, Option.isNone_iff_eq_none]

/-- `parse` recognises the quoting of a statement exactly when the quotes of the other kind do no harm. -/
theorem quoting_recognised_iff (st : Statement) : st.Recognised ↔ st.Harmless := by
  constructor
  · intro h
    exact st.turned_iff_harmless.mp h.turned
  · intro h
    have hturned := st.turned_iff_harmless.mpr h
    refine ⟨hturned, ?_⟩
    rw [parse_eq, Statement.statementTokens_eq hturned]

namespace Sample

/-- `'it"s' ?`: a double quote in a string literal, and a parameter behind it. -/
def oddQuote : Statement :=
  ⟨⟨[], by simp⟩, [⟨.literal, ascii "it\"s", ⟨ascii " ?", by decide +kernel⟩⟩]⟩

end Sample

/-- The double quote hides the parameter. -/
theorem quoted_quote_hides : Sample.oddQuote.text = ascii "'it\"s' ?" ∧
    parse Sample.oddQuote.text = some (Sample.oddQuote.text, []) ∧ ¬Sample.oddQuote.Recognised := by
  refine ⟨by decide +kernel, by decide +kernel, fun h => ?_⟩
  have hturned : Turned Sample.oddQuote.text 7 :=
    (h.turned 7 63 none (by decide +kernel) (Or.inl rfl)).mpr rfl
  have hmarkers : markers Sample.oddQuote.text = [] := by decide +kernel
  rw [turned_iff, hmarkers] at hturned
  exact List.not_mem_nil hturned

end Dcl.Odbc
