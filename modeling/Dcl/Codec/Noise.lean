import Dcl.Codec.Base64
import Mathlib.Data.Fin.VecNotation
import Mathlib.Tactic.FinCases
import Mathlib.Tactic.IntervalCases

/-! # Reading base64 through noise

`decode` looks only at the characters of the alphabet, takes them four by four, and writes one byte
less than it found characters for the last block; so it gives back what `encode` was given whatever
else stands between the characters. -/
namespace Dcl.Codec
set_option autoImplicit false

/-- `A` to `Z`, `a` to `z`, `0` to `9`, `+` and `/`. -/
def inAlphabet (c : UInt8) : Bool := isalnum c || c == 43 || c == 47

/-- `Noisy e s`: `s` is `e` with bytes outside the alphabet inserted and with some of its `=` deleted. -/
inductive Noisy : Bytes → Bytes → Prop
  | nil : Noisy [] []
  | keep {e s : Bytes} (c : UInt8) (h : Noisy e s) : Noisy (c :: e) (c :: s)
  | insert {e s : Bytes} {c : UInt8} (hc : inAlphabet c = false) (h : Noisy e s) : Noisy e (c :: s)
  | delete {e s : Bytes} (h : Noisy e s) : Noisy (61 :: e) s

theorem Noisy.filter {e s : Bytes} (h : Noisy e s) : s.filter inAlphabet = e.filter inAlphabet := by
  induction h with
  | nil => rfl
  | keep c _ ih => rw [List.filter_cons, List.filter_cons, ih]
  | insert hc _ ih => rw [List.filter_cons_of_neg (by simp [hc]), ih]
  | delete _ ih => rw [ih, List.filter_cons_of_neg (by decide)]

/-! ## The tables -/

def sextet (c : UInt8) : UInt8 := decodeChar c - 1

theorem decodeChar_eq_zero : ∀ c : UInt8, decodeChar c = 0 ↔ inAlphabet c = false :=
  forall_byte (by decide +kernel)

theorem char64_spec : ∀ i : UInt8, i < 64 → inAlphabet (char64 i) = true ∧ sextet (char64 i) = i :=
  forall_byte (by decide +kernel)

/-! ## The bits of a block -/

theorem lt_of_and_eq {x : UInt8} (h : x &&& (0x3f : UInt8) = x) : x < 64 := by
  rw [UInt8.lt_iff_toNat_lt, ← h, UInt8.toNat_and]
  exact Nat.lt_of_le_of_lt Nat.and_le_right (by decide)

theorem eq_of_bits {x y : UInt8} (h : ∀ i (_ : i < 8), x.toBitVec[i] = y.toBitVec[i]) : x = y :=
  UInt8.toBitVec_inj.mp (BitVec.eq_of_getElem_eq h)

theorem sextets_lt (a b c : UInt8) : a >>> 2 < 64 ∧ (a &&& 0x03) <<< 4 ||| (b &&& 0xf0) >>> 4 < 64 ∧
    (b &&& 0x0f) <<< 2 ||| (c &&& 0xc0) >>> 6 < 64 ∧ c &&& 0x3f < 64 := by
  refine ⟨?_, ?_, ?_, ?_⟩
  all_goals
    apply lt_of_and_eq
    apply eq_of_bits
    intro i hi
    interval_cases i <;> simp

/-- `decodeblock` puts the bits of those numbers together again. -/
theorem bytes_of_sextets (a b c : UInt8) :
    a >>> 2 <<< 2 ||| ((a &&& 0x03) <<< 4 ||| (b &&& 0xf0) >>> 4) >>> 4 = a ∧
    ((a &&& 0x03) <<< 4 ||| (b &&& 0xf0) >>> 4) <<< 4 |||
      ((b &&& 0x0f) <<< 2 ||| (c &&& 0xc0) >>> 6) >>> 2 = b ∧
    ((b &&& 0x0f) <<< 2 ||| (c &&& 0xc0) >>> 6) <<< 6 &&& 0xc0 ||| c &&& 0x3f = c := by
  refine ⟨?_, ?_, ?_⟩
  all_goals
    apply eq_of_bits
    intro i hi
    interval_cases i <;> simp

/-! ## What `encode` writes -/

/-- The text of a string: a block for each three bytes, and one for what is left. -/
def encodeText : Bytes → Bytes
  | [] => []
  | [a] => encodeblock ![a, 0, 0] 1
  | [a, b] => encodeblock ![a, b, 0] 2
  | a :: b :: c :: s => encodeblock ![a, b, c] 3 ++ encodeText s

theorem update_three (block : Fin 3 → UInt8) (a b c : UInt8) :
    Function.update (Function.update (Function.update block 0 a) 1 b) 2 c = ![a, b, c] := by
  funext i
  fin_cases i <;> rfl

theorem Encoder.readByte_cons (c : UInt8) (s : Bytes) (block : Fin 3 → UInt8) (len : ℕ) (out : Bytes)
    (i : Fin 3) : Encoder.readByte ⟨.of (c :: s), block, len, out⟩ i =
      ⟨.of s, Function.update block i c, len + 1, out⟩ := rfl

theorem Encoder.readByte_nil (block : Fin 3 → UInt8) (len : ℕ) (out : Bytes) (i : Fin 3) :
    Encoder.readByte ⟨.of [], block, len, out⟩ i = ⟨.ended, Function.update block i 0, len, out⟩ := rfl

theorem Encoder.readByte_ended (block : Fin 3 → UInt8) (len : ℕ) (out : Bytes) (i : Fin 3) :
    Encoder.readByte ⟨.ended, block, len, out⟩ i = ⟨.ended, Function.update block i 0, len, out⟩ := rfl

/-- One pass over a good stream: a block for the next three bytes, or for what is left of them. -/
theorem Encoder.pass_of (s : Bytes) (block : Fin 3 → UInt8) (len : ℕ) (out : Bytes) :
    ∃ block' len', Encoder.pass ⟨.of s, block, len, out⟩ =
      .inl ⟨if s.length < 3 then .ended else .of (s.drop 3), block', len', out ++ encodeText (s.take 3)⟩ := by
  match s with
  | [] =>
    refine ⟨![0, 0, 0], 0, ?_⟩
    simp [Encoder.pass, readByte_nil, readByte_ended, update_three, encodeText]
  | [a] =>
    refine ⟨![a, 0, 0], 1, ?_⟩
    simp [Encoder.pass, readByte_cons, readByte_nil, readByte_ended, update_three, encodeText]
  | [a, b] =>
    refine ⟨![a, b, 0], 2, ?_⟩
    simp [Encoder.pass, readByte_cons, readByte_nil, update_three, encodeText]
  | a :: b :: c :: s =>
    refine ⟨![a, b, c], 3, ?_⟩
    simp [Encoder.pass, readByte_cons, update_three, encodeText]

theorem Encoder.passes (s : Bytes) (block : Fin 3 → UInt8) (len : ℕ) (out : Bytes) :
    ∃ n block' len', n ≤ s.length + 1 ∧
      Loop.Passes Encoder.pass n ⟨.of s, block, len, out⟩ ⟨.ended, block', len', out ++ encodeText s⟩ := by
  induction s using encodeText.induct generalizing block len out with
  | case1 =>
    obtain ⟨block', len', hpass⟩ := Encoder.pass_of [] block len out
    exact ⟨1, block', len', by simp, Loop.Passes.single hpass⟩
  | case2 a =>
    obtain ⟨block', len', hpass⟩ := Encoder.pass_of [a] block len out
    exact ⟨1, block', len', by simp, Loop.Passes.single hpass⟩
  | case3 a b =>
    obtain ⟨block', len', hpass⟩ := Encoder.pass_of [a, b] block len out
    exact ⟨1, block', len', by simp, Loop.Passes.single hpass⟩
  | case4 a b c s ih =>
    obtain ⟨block1, len1, hpass⟩ := Encoder.pass_of (a :: b :: c :: s) block len out
    obtain ⟨n, block', len', hn, hpasses⟩ := ih block1 len1 (out ++ encodeText [a, b, c])
    rw [if_neg (by simp)] at hpass
    refine ⟨1 + n, block', len', by simp only [List.length_cons]; omega, ?_⟩
    have htext : out ++ encodeText (a :: b :: c :: s) = out ++ encodeText [a, b, c] ++ encodeText s := by
      simp [encodeText]
    rw [htext]
    exact (Loop.Passes.single hpass).trans hpasses

theorem encode_of (block : Fin 3 → UInt8) (s : Bytes) : encode block (.of s) = some (encodeText s) := by
  obtain ⟨n, block', len', hn, hpasses⟩ := Encoder.passes s block 0 []
  exact hpasses.loop rfl (Nat.lt_succ_of_le hn)

/-! ## What `decode` reads -/

/-- The string that characters of the alphabet stand for. -/
def decodeText : Bytes → Bytes
  | a :: b :: c :: d :: s =>
      decodeblock ![sextet a, sextet b, sextet c, sextet d] ++ decodeText s
  | [a, b, c] => (decodeblock ![sextet a, sextet b, sextet c, 0]).take 2
  | [a, b] => (decodeblock ![sextet a, sextet b, 0, 0]).take 1
  | _ => []

theorem skipPass_cons {c : UInt8} (s : Bytes) : skipPass (0, .of (c :: s)) = .inl (decodeChar c, .of s) := rfl

/-- The inner loop passes over what is not in the alphabet. -/
theorem skip_passes {noise : Bytes} (h : ∀ x ∈ noise, inAlphabet x = false) (s : Bytes) :
    Loop.Passes skipPass noise.length (0, .of (noise ++ s)) (0, .of s) := by
  induction noise with
  | nil => rfl
  | cons x noise ih =>
    have hx : decodeChar x = 0 := (decodeChar_eq_zero x).mpr (h x (by simp))
    refine ⟨(0, .of (noise ++ s)), ?_, ih fun y hy => h y (by simp [hy])⟩
    rw [List.cons_append, skipPass_cons, hx]

/-- When a character of the alphabet is left, the inner loop finds the first one. -/
theorem skip_found {s f : Bytes} {c : UInt8} (h : s.filter inAlphabet = c :: f) :
    ∃ t, t.filter inAlphabet = f ∧ t.length < s.length ∧ decodeChar c ≠ 0 ∧
      skip (.of s) = some (decodeChar c, .of t) := by
  obtain ⟨noise, t, rfl, hnoise, hc, hf⟩ := List.filter_eq_cons_iff.mp h
  have hne : decodeChar c ≠ 0 := fun h0 => by
    rw [(decodeChar_eq_zero c).mp h0] at hc
    exact Bool.false_ne_true hc
  have hpasses := (skip_passes (fun x hx => by simpa using hnoise x hx) (c :: t)).trans
    (Loop.Passes.single (skipPass_cons t))
  have hlt : t.length < (noise ++ c :: t).length := by
    rw [List.length_append, List.length_cons]
    omega
  refine ⟨t, hf, hlt, hne, hpasses.loop ?_ ?_⟩
  · rw [skipPass, if_neg fun h => hne h.2]
  · simp

theorem skip_end {s : Bytes} (h : s.filter inAlphabet = []) : skip (.of s) = some (0, .ended) := by
  have hpasses := skip_passes (fun x hx => by simpa using List.filter_eq_nil_iff.mp h x hx) []
  rw [List.append_nil] at hpasses
  exact (hpasses.trans (Loop.Passes.single rfl)).loop rfl (by simp)

theorem Decoder.readChar_found {s f : Bytes} {c : UInt8} (h : s.filter inAlphabet = c :: f) :
    ∃ t, t.filter inAlphabet = f ∧ t.length < s.length ∧ ∀ block len out i,
      Decoder.readChar ⟨.of s, block, len, out⟩ i =
        some ⟨.of t, Function.update block i (sextet c), len + 1, out⟩ := by
  obtain ⟨t, hf, hlt, hne, hskip⟩ := skip_found h
  refine ⟨t, hf, hlt, fun block len out i => ?_⟩
  simp [Decoder.readChar, hskip, hne, sextet]

theorem Decoder.readChar_end {s : Bytes} (h : s.filter inAlphabet = []) (block : Fin 4 → UInt8) (len : ℕ)
    (out : Bytes) (i : Fin 4) : Decoder.readChar ⟨.of s, block, len, out⟩ i =
      some ⟨.ended, Function.update block i 0, len, out⟩ := by
  simp [Decoder.readChar, skip_end h]

theorem Decoder.pass_block {s f : Bytes} {a b c d : UInt8}
    (h : s.filter inAlphabet = a :: b :: c :: d :: f) : ∃ t, t.filter inAlphabet = f ∧
      t.length < s.length ∧ ∀ block len out, Decoder.pass ⟨.of s, block, len, out⟩ =
        .inl ⟨.of t, ![sextet a, sextet b, sextet c, sextet d], 4,
          out ++ decodeblock ![sextet a, sextet b, sextet c, sextet d]⟩ := by
  obtain ⟨t1, h1, hlt1, hread1⟩ := readChar_found h
  obtain ⟨t2, h2, hlt2, hread2⟩ := readChar_found h1
  obtain ⟨t3, h3, hlt3, hread3⟩ := readChar_found h2
  obtain ⟨t4, h4, hlt4, hread4⟩ := readChar_found h3
  refine ⟨t4, h4, by omega, fun block len out => ?_⟩
  have hblock : Function.update (Function.update (Function.update (Function.update block 0 (sextet a)) 1
      (sextet b)) 2 (sextet c)) 3 (sextet d) = ![sextet a, sextet b, sextet c, sextet d] := by
    funext i
    fin_cases i <;> rfl
  simp [Decoder.pass, Decoder.readBlock, hread1, hread2, hread3, hread4, hblock, decodeblock]

theorem Decoder.pass_end {s f : Bytes} (h : s.filter inAlphabet = f) (hf : f.length < 4)
    (block : Fin 4 → UInt8) (len : ℕ) (out : Bytes) : ∃ block' len',
      Decoder.pass ⟨.of s, block, len, out⟩ = .inl ⟨.ended, block', len', out ++ decodeText f⟩ := by
  match f, hf with
  | [], _ =>
    simp [Decoder.pass, Decoder.readBlock, readChar_end h, decodeText]
  | [a], _ =>
    obtain ⟨t1, h1, _, hread1⟩ := readChar_found h
    simp [Decoder.pass, Decoder.readBlock, hread1, readChar_end h1, decodeText]
  | [a, b], _ =>
    obtain ⟨t1, h1, _, hread1⟩ := readChar_found h
    obtain ⟨t2, h2, _, hread2⟩ := readChar_found h1
    simp [Decoder.pass, Decoder.readBlock, hread1, hread2, readChar_end h2, decodeText, decodeblock]
  | [a, b, c], _ =>
    obtain ⟨t1, h1, _, hread1⟩ := readChar_found h
    obtain ⟨t2, h2, _, hread2⟩ := readChar_found h1
    obtain ⟨t3, h3, _, hread3⟩ := readChar_found h2
    simp [Decoder.pass, Decoder.readBlock, hread1, hread2, hread3, readChar_end h3, decodeText,
      decodeblock]

theorem Decoder.passes {s f : Bytes} (h : s.filter inAlphabet = f) (block : Fin 4 → UInt8) (len : ℕ)
    (out : Bytes) : ∃ n block' len', n ≤ s.length + 1 ∧
      Loop.Passes Decoder.pass n ⟨.of s, block, len, out⟩ ⟨.ended, block', len', out ++ decodeText f⟩ := by
  by_cases hf : f.length < 4
  · obtain ⟨block', len', hpass⟩ := pass_end h hf block len out
    exact ⟨1, block', len', by omega, Loop.Passes.single hpass⟩
  · match f, hf with
    | a :: b :: c :: d :: f, _ =>
      obtain ⟨t, ht, hlt, hpass⟩ := pass_block h
      obtain ⟨n, block', len', hn, hpasses⟩ := passes ht ![sextet a, sextet b, sextet c, sextet d] 4
        (out ++ decodeblock ![sextet a, sextet b, sextet c, sextet d])
      refine ⟨1 + n, block', len', by omega, ?_⟩
      rw [decodeText, ← List.append_assoc]
      exact (Loop.Passes.single (hpass block len out)).trans hpasses
    | [], h | [_], h | [_, _], h | [_, _, _], h => exact absurd (by simp) h
termination_by s.length

/-- `decode` on a stream over a string sees its characters of the alphabet. -/
theorem decode_of (block : Fin 4 → UInt8) (s : Bytes) :
    decode block (.of s) = some (decodeText (s.filter inAlphabet)) := by
  obtain ⟨n, block', len', hn, hpasses⟩ := Decoder.passes (s := s) rfl block 0 []
  have hloop := hpasses.loop (r := some (decodeText (s.filter inAlphabet))) rfl (Nat.lt_succ_of_le hn)
  rw [decode]
  exact congrArg Option.join hloop

/-! ## The round trip -/

/-- The four characters of a block, of which the last ones may be replaced by `=`. -/
theorem encodeblock_spec (a b c : UInt8) : ∃ w x y z : UInt8,
    (inAlphabet w = true ∧ inAlphabet x = true ∧ inAlphabet y = true ∧ inAlphabet z = true) ∧
    (∀ len, encodeblock ![a, b, c] len = [w, x, if 1 < len then y else 61, if 2 < len then z else 61]) ∧
    sextet w <<< 2 ||| sextet x >>> 4 = a ∧ sextet x <<< 4 ||| sextet y >>> 2 = b ∧
    sextet y <<< 6 &&& 0xc0 ||| sextet z = c := by
  obtain ⟨h1, h2, h3, h4⟩ := sextets_lt a b c
  obtain ⟨hw, hw'⟩ := char64_spec _ h1
  obtain ⟨hx, hx'⟩ := char64_spec _ h2
  obtain ⟨hy, hy'⟩ := char64_spec _ h3
  obtain ⟨hz, hz'⟩ := char64_spec _ h4
  refine ⟨_, _, _, _, ⟨hw, hx, hy, hz⟩, fun len => rfl, ?_⟩
  rw [hw', hx', hy', hz']
  exact bytes_of_sextets a b c

theorem decodeText_encodeText (s : Bytes) : decodeText ((encodeText s).filter inAlphabet) = s := by
  have hpad : inAlphabet 61 = false := by decide
  induction s using encodeText.induct with
  | case1 => rfl
  | case2 a =>
    obtain ⟨w, x, y, z, ⟨hw, hx, _, _⟩, henc, ha, _, _⟩ := encodeblock_spec a 0 0
    simp [encodeText, henc, hw, hx, hpad, decodeText, decodeblock, ha]
  | case3 a b =>
    obtain ⟨w, x, y, z, ⟨hw, hx, hy, _⟩, henc, ha, hb, _⟩ := encodeblock_spec a b 0
    simp [encodeText, henc, hw, hx, hy, hpad, decodeText, decodeblock, ha, hb]
  | case4 a b c s ih =>
    obtain ⟨w, x, y, z, ⟨hw, hx, hy, hz⟩, henc, ha, hb, hc⟩ := encodeblock_spec a b c
    simp [encodeText, henc, hw, hx, hy, hz, decodeText, decodeblock, ha, hb, hc, ih]

/-- `decode` undoes `encode` whatever is inserted between the characters and whichever `=` are lost. -/
theorem decode_noisy (block : Fin 3 → UInt8) (block' : Fin 4 → UInt8) (x : Bytes) :
    ∃ e, encode block (.of x) = some e ∧ ∀ s, Noisy e s → decode block' (.of s) = some x := by
  refine ⟨encodeText x, encode_of block x, fun s hs => ?_⟩
  rw [decode_of, hs.filter, decodeText_encodeText]

theorem decode_noisy_wrapped : decode (fun _ => 7) (.of (ascii "Y\nW I")) = some (ascii "ab") := by
  obtain ⟨e, he, h⟩ := decode_noisy (fun _ => 0) (fun _ => 7) (ascii "ab")
  have htext : encode (fun _ => 0) (.of (ascii "ab")) = some (ascii "YWI=") := by decide +kernel
  rw [htext, Option.some.injEq] at he
  subst he
  exact h _ (.keep _ (.insert (by decide) (.keep _ (.insert (by decide) (.keep _ (.delete .nil))))))

end Dcl.Codec
