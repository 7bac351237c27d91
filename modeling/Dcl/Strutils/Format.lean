import Dcl.Strutils.Numerals
import Dcl.Strutils.Tokens

/-! # `format`

The class `format` of `strutils.h` and its `str()`. The scanner keeps no state: at an opening brace it copies what
stands before it, at a closing one it takes that for the number of a parameter. A template is a list of texts and
markers; `str_template` says what the scanner makes of one, and `format_iff` when that is what it should be. -/
namespace Dcl.Format
set_option autoImplicit false

/-! ## The scanner -/

/-- `params_[i]`; `none` is an access outside the vector. A negative `i` becomes a `size_t` that no vector
reaches. -/
def param (params : List Bytes) (i : ℤ) : Option Bytes := if i < 0 then none else params[i.toNat]?

/-- The loop of `str`; every pass moves `oldPos` behind a brace. -/
def strFrom (str : Bytes) (params : List Bytes) : ℕ → ℕ → Bytes → Option Bytes
  | 0, _, _ => none
  | fuel + 1, oldPos, rslt =>
      match findFirstOf str [123, 125] oldPos with
      | some pos =>
          -- an opening brace ends a text, a closing one the number of a parameter
          if str[pos]? = some 123 then strFrom str params fuel (pos + 1) (rslt ++ substr str oldPos (pos - oldPos))
          else (param params (fromStringInt (substr str oldPos (pos - oldPos)))).bind fun p =>
            strFrom str params fuel (pos + 1) (rslt ++ p)
      | none => some (rslt ++ substr str oldPos str.length)

/-- `format::str`; `none` when it reads outside `params_`. -/
def str (template : Bytes) (params : List Bytes) : Option Bytes :=
  strFrom template params (template.length + 1) 0 []

/-! ## One pass -/

section Pass
variable {str : Bytes} {params : List Bytes} {oldPos : ℕ} {t s : Bytes} {c : UInt8}

theorem findFirstOf_brace (h : str.drop oldPos = t ++ c :: s) (ht : ∀ x ∈ t, x ≠ 123 ∧ x ≠ 125)
    (hc : c = 123 ∨ c = 125) : findFirstOf str [123, 125] oldPos = some (oldPos + t.length) ∧
      str[oldPos + t.length]? = some c ∧ substr str oldPos (oldPos + t.length - oldPos) = t ∧
      str.drop (oldPos + t.length + 1) = s := by
  have hnone : t.findIdx? (fun x => ([123, 125] : Bytes).contains x) = none := by
    rw [List.findIdx?_eq_none_iff]
    intro x hx
    simpa using ht x hx
  have hfound : ([123, 125] : Bytes).contains c = true := by
    rcases hc with rfl | rfl <;> rfl
  refine ⟨?_, ?_, ?_, ?_⟩
  · rw [findFirstOf, h, List.findIdx?_append, hnone, List.findIdx?_cons, hfound]
    simp
  · rw [← List.getElem?_drop, h]
    simp
  · rw [substr, h, Nat.add_sub_cancel_left, List.take_left]
  · rw [Nat.add_assoc, ← List.drop_drop, h]
    simp

theorem strFrom_open (h : str.drop oldPos = t ++ 123 :: s) (ht : ∀ x ∈ t, x ≠ 123 ∧ x ≠ 125) (fuel : ℕ)
    (rslt : Bytes) : strFrom str params (fuel + 1) oldPos rslt =
      strFrom str params fuel (oldPos + t.length + 1) (rslt ++ t) := by
  obtain ⟨hfind, hget, hsub, -⟩ := findFirstOf_brace h ht (.inl rfl)
  rw [strFrom, hfind]
  simp only [hget, hsub, if_true]

theorem strFrom_close (h : str.drop oldPos = t ++ 125 :: s) (ht : ∀ x ∈ t, x ≠ 123 ∧ x ≠ 125) (fuel : ℕ)
    (rslt : Bytes) : strFrom str params (fuel + 1) oldPos rslt =
      (param params (fromStringInt t)).bind fun p =>
        strFrom str params fuel (oldPos + t.length + 1) (rslt ++ p) := by
  obtain ⟨hfind, hget, hsub, -⟩ := findFirstOf_brace h ht (.inr rfl)
  rw [strFrom, hfind]
  simp only [hget, hsub]
  rw [if_neg (by decide)]

theorem strFrom_end (h : str.drop oldPos = t) (ht : ∀ x ∈ t, x ≠ 123 ∧ x ≠ 125) (fuel : ℕ) (rslt : Bytes) :
    strFrom str params (fuel + 1) oldPos rslt = some (rslt ++ t) := by
  have hfind : findFirstOf str [123, 125] oldPos = none := by
    rw [findFirstOf, h, Option.map_eq_none_iff, List.findIdx?_eq_none_iff]
    intro x hx
    simpa using ht x hx
  have hsub : substr str oldPos str.length = t := by
    rw [substr, List.take_of_length_le (by simp), h]
  rw [strFrom, hfind]
  simp only [hsub]

end Pass

/-! ## Templates -/

/-- A part of a template: a text, or the marker of a parameter. -/
inductive Item where
  | text (t : Bytes)
  | marker (k : ℕ)
  deriving DecidableEq

/-- A marker is its number in braces, in decimal without leading zeros. -/
def Item.render : Item → Bytes
  | .text t => t
  | .marker k => 123 :: (toStringInt k ++ [125])

/-- What a part stands for. -/
def Item.value (params : List Bytes) : Item → Bytes
  | .text t => t
  | .marker k => params.getD k []

/-- There is no brace in a text. -/
def Item.BraceFree : Item → Prop
  | .text t => ∀ x ∈ t, x ≠ 123 ∧ x ≠ 125
  | .marker _ => True

instance (i : Item) : Decidable i.BraceFree :=
  match i with
  | .text t => inferInstanceAs (Decidable (∀ x ∈ t, x ≠ 123 ∧ x ≠ 125))
  | .marker _ => inferInstanceAs (Decidable True)

/-- The parts with the parameters that `f` gives for the markers; `none` when one is missing. -/
def substitute (f : ℕ → Option Bytes) : List Item → Option Bytes
  | [] => some []
  | .text t :: items => (substitute f items).map (t ++ ·)
  | .marker k :: items => (f k).bind fun p => (substitute f items).map (p ++ ·)

theorem toStringInt_braceFree (k : ℕ) : ∀ x ∈ toStringInt k, x ≠ 123 ∧ x ≠ 125 := by
  obtain ⟨c, t, htext, hdigits, -⟩ := toStringInt_signed k
  rw [if_neg (by omega), List.nil_append] at htext
  rw [htext]
  intro x hx
  have hrange := isdigit_range (hdigits x hx)
  refine ⟨fun h => ?_, fun h => ?_⟩
  · rw [h] at hrange
    exact absurd hrange (by decide)
  · rw [h] at hrange
    exact absurd hrange (by decide)

/-- The scanner on the rest of a template, with the text `t` already behind it since the last brace. -/
theorem strFrom_items {str : Bytes} (params : List Bytes) (items : List Item)
    (hitems : ∀ i ∈ items, i.BraceFree) {fuel oldPos : ℕ} {t : Bytes} (rslt : Bytes)
    (h : str.drop oldPos = t ++ items.flatMap Item.render) (ht : ∀ x ∈ t, x ≠ 123 ∧ x ≠ 125)
    (hfuel : (str.drop oldPos).length < fuel) :
    strFrom str params fuel oldPos rslt =
      (substitute (fun k => param params (fromStringInt (toStringInt k))) items).map (rslt ++ t ++ ·) := by
  induction items generalizing fuel oldPos t rslt with
  | nil =>
    obtain ⟨fuel, rfl⟩ : ∃ f, fuel = f + 1 := ⟨fuel - 1, by omega⟩
    rw [List.flatMap_nil, List.append_nil] at h
    rw [strFrom_end h ht]
    simp [substitute]
  | cons i items ih =>
    obtain ⟨hi, htail⟩ := List.forall_mem_cons.mp hitems
    rw [List.flatMap_cons] at h
    cases i with
    | text u =>
      have htu : ∀ x ∈ t ++ u, x ≠ 123 ∧ x ≠ 125 := List.forall_mem_append.mpr ⟨ht, hi⟩
      rw [ih htail rslt (t := t ++ u) (by rw [h, Item.render, List.append_assoc]) htu hfuel]
      simp [substitute, Function.comp_def]
    | marker k =>
      -- two passes: the text before the opening brace, then the number before the closing one
      have hopen : str.drop oldPos =
          t ++ 123 :: (toStringInt k ++ 125 :: items.flatMap Item.render) := by
        rw [h, Item.render]
        simp
      obtain ⟨-, -, -, hclose⟩ := findFirstOf_brace hopen ht (.inl rfl)
      obtain ⟨-, -, -, hrest⟩ := findFirstOf_brace hclose (toStringInt_braceFree k) (.inr rfl)
      have hlen : (str.drop oldPos).length =
          t.length + (toStringInt k).length + (items.flatMap Item.render).length + 2 := by
        rw [hopen]
        simp only [List.length_append, List.length_cons]
        omega
      obtain ⟨fuel, rfl⟩ : ∃ f, fuel = f + 2 := ⟨fuel - 2, by omega⟩
      rw [strFrom_open hopen ht, strFrom_close hclose (toStringInt_braceFree k), substitute]
      cases hp : param params (fromStringInt (toStringInt k)) with
      | none => rfl
      | some p =>
        have hfuel' : (str.drop (oldPos + t.length + 1 + (toStringInt k).length + 1)).length < fuel := by
          rw [hrest]
          omega
        have hnext := ih htail (rslt ++ t ++ p) (t := []) hrest (by simp) hfuel'
        simp only [Option.bind_some]
        rw [hnext]
        simp [Function.comp_def]

theorem str_template (items : List Item) (hitems : ∀ i ∈ items, i.BraceFree) (params : List Bytes) :
    str (items.flatMap Item.render) params =
      substitute (fun k => param params (fromStringInt (toStringInt k))) items := by
  rw [str, strFrom_items params items hitems (t := []) [] rfl (by simp) (by simp)]
  simp

/-! ## Markers that are read as themselves -/

theorem param_marker {k : ℕ} (h : k < 2 ^ 31) (params : List Bytes) :
    param params (fromStringInt (toStringInt k)) = params[k]? := by
  rw [fromStringInt_toStringInt h, param, if_neg (by omega), Int.toNat_natCast]

theorem substitute_eq {f : ℕ → Option Bytes} {params : List Bytes} {items : List Item}
    (h : ∀ k, .marker k ∈ items → f k = some (params.getD k [])) :
    substitute f items = some (items.flatMap (Item.value params)) := by
  induction items with
  | nil => rfl
  | cons i items ih =>
    have hitems := ih fun k hk => h k (List.mem_cons_of_mem _ hk)
    cases i with
    | text t =>
      rw [substitute, hitems]
      rfl
    | marker k =>
      rw [substitute, h k List.mem_cons_self, hitems]
      rfl

/-! ## Markers that are not -/

/-- A number of `2 ^ 31` or more becomes negative or smaller. -/
theorem param_wrapped (k : ℕ) (h : 2 ^ 31 ≤ k) (m : ℕ) (n : ℕ) :
    param ((List.replicate n []).set k [0]) (fromStringInt (toStringInt m)) = none ∨
      param ((List.replicate n []).set k [0]) (fromStringInt (toStringInt m)) = some [] := by
  have hlt : fromStringInt (toStringInt m) < 2 ^ 31 := toInt32_lt _
  rw [param]
  split
  · exact .inl rfl
  · rw [List.getElem?_set_ne (by omega), List.getElem?_replicate]
    split
    · exact .inr rfl
    · exact .inl rfl

/-- The part of a template's length that its texts make. -/
def textLength : List Item → ℕ
  | [] => 0
  | .text t :: items => t.length + textLength items
  | .marker _ :: items => textLength items

theorem length_substitute {f : ℕ → Option Bytes} (hf : ∀ k, f k = none ∨ f k = some []) {items : List Item}
    {x : Bytes} (h : substitute f items = some x) : x.length = textLength items := by
  induction items generalizing x with
  | nil => rw [← Option.some.inj h]; rfl
  | cons i items ih =>
    cases i with
    | text t =>
      obtain ⟨y, hy, rfl⟩ := Option.map_eq_some_iff.mp h
      rw [List.length_append, ih hy, textLength]
    | marker k =>
      obtain ⟨p, hp, hmap⟩ := Option.bind_eq_some_iff.mp h
      obtain ⟨y, hy, rfl⟩ := Option.map_eq_some_iff.mp hmap
      have hnil : p = [] := by
        rcases hf k with hk | hk
        · rw [hk] at hp
          cases hp
        · exact Option.some.inj (hp.symm.trans hk)
      rw [hnil, List.nil_append, ih hy, textLength]

theorem textLength_le (params : List Bytes) (items : List Item) :
    textLength items ≤ (items.flatMap (Item.value params)).length := by
  induction items with
  | nil => exact Nat.zero_le _
  | cons i items ih =>
    rw [List.flatMap_cons, List.length_append]
    cases i with
    | text t => exact Nat.add_le_add_left ih _
    | marker k => exact Nat.le_add_left_of_le ih

/-- A parameter that is not empty shows. -/
theorem textLength_lt {params : List Bytes} {k : ℕ} (hk : params.getD k [] ≠ []) {items : List Item}
    (h : .marker k ∈ items) : textLength items < (items.flatMap (Item.value params)).length := by
  induction items with
  | nil => cases h
  | cons i items ih =>
    rw [List.flatMap_cons, List.length_append]
    rcases List.mem_cons.mp h with rfl | h
    · have hpos := List.length_pos_iff.mpr hk
      have hle := textLength_le params items
      simp only [textLength, Item.value]
      omega
    · have hlt := ih h
      cases i with
      | text t => exact Nat.add_lt_add_left hlt _
      | marker m => exact Nat.lt_add_left _ hlt

/-- With `n` parameters, a template whose markers are numbers below `n` is replaced by its texts and the parameters
its markers name, whatever the parameters are, if and only if all numbers are less than `2 ^ 31`. -/
theorem format_iff (items : List Item) (n : ℕ) (hitems : ∀ i ∈ items, i.BraceFree)
    (hn : ∀ k, .marker k ∈ items → k < n) :
    (∀ params : List Bytes, params.length = n →
      str (items.flatMap Item.render) params = some (items.flatMap (Item.value params))) ↔
    ∀ k, .marker k ∈ items → k < 2 ^ 31 := by
  constructor
  · intro h k hk
    by_contra hlarge
    have hlen : ((List.replicate n ([] : Bytes)).set k [0]).length = n := by simp
    have hstr := h _ hlen
    rw [str_template items hitems] at hstr
    have hlength := length_substitute (fun m => param_wrapped k (by omega) m n) hstr
    have hvalue : ((List.replicate n ([] : Bytes)).set k [0]).getD k [] ≠ [] := by
      rw [List.getD_eq_getElem?_getD, List.getElem?_set_self (by simpa using hn k hk)]
      exact List.cons_ne_nil _ _
    have hlt := textLength_lt hvalue hk
    omega
  · intro h params hlen
    rw [str_template items hitems]
    refine substitute_eq fun k hk => ?_
    have hkn := hn k hk
    rw [param_marker (h k hk), List.getD_eq_getElem?_getD, List.getElem?_eq_getElem (by omega), Option.getD_some]

/-- Markers side by side, and a parameter that looks like a marker. -/
theorem format_brace_parameter :
    str (ascii "a\x7b0\x7d\x7b1\x7d") [ascii "\x7b1\x7d", ascii "x"] = some (ascii "a\x7b1\x7dx") := by
  have h := (format_iff [.text (ascii "a"), .marker 0, .marker 1] 2 (by decide +kernel) (by
    intro k hk
    simp only [List.mem_cons, reduceCtorEq, Item.marker.injEq, List.not_mem_nil, or_false, false_or] at hk
    omega)).mpr (by
    intro k hk
    simp only [List.mem_cons, reduceCtorEq, Item.marker.injEq, List.not_mem_nil, or_false, false_or] at hk
    omega) [ascii "\x7b1\x7d", ascii "x"] rfl
  exact h

/-- The last of `2 ^ 31 + 1` parameters: its number becomes negative. -/
theorem format_index_negative :
    str (ascii "\x7b2147483648\x7d") (List.replicate (2 ^ 31 + 1) (ascii "a")) = none := by
  have htemplate : ascii "\x7b2147483648\x7d" = [Item.marker (2 ^ 31)].flatMap Item.render := by
    decide +kernel
  have hindex : fromStringInt (toStringInt ((2 ^ 31 : ℕ) : ℤ)) = -2 ^ 31 := by
    rw [fromStringInt_text]
    decide
  rw [htemplate, str_template _ (by decide)]
  simp only [substitute, hindex, param]
  rfl

end Dcl.Format
