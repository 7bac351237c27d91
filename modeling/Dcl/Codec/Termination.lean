import Dcl.Codec.Digest
import Dcl.Codec.Noise

/-! # When the codecs come to an end

The loops of `codec_base64` and `encoder_md5` ask their input for `eof()` only. Eofbit is set where a good stream
is at its end; a stream that has failed or that breaks never sets it, and the loops go on for ever. -/
namespace Dcl
set_option autoImplicit false

/-! ## Streams that never come to an end -/

namespace InStream

/-- The stream has failed, or it will break before its end. -/
def Doomed (s : InStream) : Prop := s.eofbit = false ∧ (s.good = false ∨ s.breaks = true)

theorem doomed_iff (s : InStream) : s.Doomed ↔ ¬(s.eofbit = true ∨ s.good = true ∧ s.breaks = false) := by
  rw [Doomed, not_or, not_and_or, Bool.not_eq_true, Bool.not_eq_true, Bool.not_eq_false]

theorem Doomed.exhausted {s : InStream} (h : s.Doomed) (hg : s.good = true) : s.exhausted.Doomed := by
  have hb : s.breaks = true := by simpa [hg] using h.2
  rw [InStream.exhausted, if_pos hb]
  exact ⟨h.1, .inr hb⟩

theorem Doomed.failed {s : InStream} (h : s.Doomed) : ({ s with failbit := true } : InStream).Doomed := by
  refine ⟨h.1, .inl ?_⟩
  simp [good]

theorem Doomed.get {s : InStream} (h : s.Doomed) (c : UInt8) : (s.get c).2.Doomed := by
  unfold InStream.get
  split
  next hg =>
    split
    · exact h.exhausted hg
    · exact ⟨h.1, h.2⟩
  · exact h.failed

theorem Doomed.read {s : InStream} (h : s.Doomed) (n : ℕ) : (s.read n).2.Doomed := by
  unfold InStream.read
  split
  next hg =>
    split
    · exact ⟨h.1, h.2⟩
    · exact h.exhausted hg
  · exact h.failed

theorem eq_of {s : InStream} (hg : s.good = true) (hb : s.breaks = false) : s = .of s.rest := by
  cases s
  simp_all [good, of]

end InStream

/-! ## `codec_base64::encode` -/

namespace Codec

theorem Encoder.doomed_pass (e : Encoder) (h : e.inp.Doomed) :
    ∃ e', e.pass = .inl e' ∧ e'.inp.Doomed := by
  have hread : ∀ (i : Fin 3) (e : Encoder), e.inp.Doomed → (e.readByte i).inp.Doomed := by
    intro i e he
    unfold Encoder.readByte
    simp only
    split
    · exact he.get _
    · exact he.get _
  rw [Encoder.pass, h.1, if_neg Bool.false_ne_true]
  refine ⟨_, rfl, ?_⟩
  split
  · exact hread 2 _ (hread 1 _ (hread 0 _ h))
  · exact hread 2 _ (hread 1 _ (hread 0 _ h))

theorem encoder_diverges {inp : InStream} (h : inp.Doomed) (block : Fin 3 → UInt8) (n : ℕ) :
    Loop.loop Encoder.pass n ⟨inp, block, 0, []⟩ = none :=
  Loop.loop_diverges (P := fun e : Encoder => e.inp.Doomed) Encoder.doomed_pass h n

theorem encoder_ends {inp : InStream} (h : inp.eofbit = true ∨ inp.good = true ∧ inp.breaks = false)
    (block : Fin 3 → UInt8) : ∃ n out, Loop.loop Encoder.pass n ⟨inp, block, 0, []⟩ = some out := by
  obtain he | ⟨hg, hb⟩ := h
  · exact ⟨1, [], by simp [Loop.loop, Encoder.pass, he]⟩
  · rw [InStream.eq_of hg hb]
    exact ⟨_, _, encode_of block inp.rest⟩

/-! ## `codec_base64::decode` -/

theorem skip_doomed {inp inp' : InStream} {v : UInt8} (h : inp.Doomed) (hs : skip inp = some (v, inp')) :
    inp'.Doomed := by
  have hstep : ∀ a b : UInt8 × InStream, a.2.Doomed → skipPass a = .inl b → b.2.Doomed := by
    intro a b ha hab
    unfold skipPass at hab
    split at hab
    · cases hab
      exact ha.get _
    · cases hab
  obtain ⟨a, ha, hexit⟩ := Loop.loop_invariant (P := fun a => a.2.Doomed) hstep hs h
  unfold skipPass at hexit
  split at hexit
  · cases hexit
  · rw [Sum.inr.inj hexit] at ha
    exact ha

/-- The budget of the inner loop is enough: a search that does not end within it never ends. -/
theorem skip_none {inp : InStream} (h : skip inp = none) (n : ℕ) : Loop.loop skipPass n (0, inp) = none := by
  -- what is repeated for ever is a read from a stream that has failed
  refine Loop.loop_adequate (μ := fun a => if a.2.good then a.2.rest.length + 1 else 0)
    (P := fun a => a.1 = 0 ∧ a.2.eofbit = false ∧ a.2.good = false) ?_ ?_ ?_ h n
  · rintro ⟨v, s⟩ ⟨rfl, he, hg⟩
    have hget : s.get 0 = (0, { s with failbit := true }) := by rw [InStream.get, if_neg (by simp [hg])]
    refine ⟨(0, { s with failbit := true }), ?_, rfl, he, by simp [InStream.good]⟩
    rw [skipPass, if_pos ⟨he, rfl⟩, hget]
    rfl
  · rintro ⟨v, s⟩ b hb
    unfold skipPass at hb
    simp only at hb
    split at hb
    next hcond =>
      obtain ⟨he, rfl⟩ := hcond
      cases hg : s.good with
      | false => exact .inl ⟨rfl, he, rfl⟩
      | true =>
        right
        cases hb
        have hlt : (if (s.get 0).2.good then (s.get 0).2.rest.length + 1 else 0) < s.rest.length + 1 := by
          rw [InStream.get, if_pos hg]
          cases hr : s.rest with
          | nil =>
            simp only [InStream.exhausted]
            split <;> simp [InStream.good]
          | cons c r =>
            simp only [List.length_cons]
            split <;> omega
        simpa [hg] using hlt
    · cases hb
  · have hle : (if inp.good then inp.rest.length + 1 else 0) ≤ inp.rest.length + 1 := by
      split <;> omega
    exact Nat.lt_succ_of_le hle

theorem Decoder.readChar_doomed {d d' : Decoder} {i : Fin 4} (h : d.inp.Doomed)
    (hd : d.readChar i = some d') : d'.inp.Doomed := by
  obtain ⟨r, hr, rfl⟩ := Option.map_eq_some_iff.mp hd
  have hdoomed := skip_doomed h hr
  split
  · exact hdoomed
  · exact hdoomed

theorem Decoder.readBlock_doomed {is : List (Fin 4)} {d d' : Decoder} (h : d.inp.Doomed)
    (hd : d.readBlock is = some d') : d'.inp.Doomed := by
  induction is generalizing d with
  | nil =>
    rw [← Option.some.inj hd]
    exact h
  | cons i is ih =>
    rw [Decoder.readBlock, h.1, if_neg Bool.false_ne_true] at hd
    obtain ⟨d1, h1, h2⟩ := Option.bind_eq_some_iff.mp hd
    exact ih (Decoder.readChar_doomed h h1) h2

theorem Decoder.doomed_pass (d d' : Decoder) (h : d.inp.Doomed) (hd : d.pass = .inl d') : d'.inp.Doomed := by
  rw [Decoder.pass, h.1, if_neg Bool.false_ne_true] at hd
  split at hd
  · cases hd
  next d1 h1 =>
    have hdoomed := Decoder.readBlock_doomed (d := { d with len := 0 }) h h1
    rw [← Sum.inl.inj hd]
    split
    · exact hdoomed
    · exact hdoomed

/-- The only way to leave the outer loop is an inner loop that does not end. -/
theorem decoder_diverges {inp : InStream} (h : inp.Doomed) (block : Fin 4 → UInt8) (n : ℕ) (out : Bytes) :
    Loop.loop Decoder.pass n ⟨inp, block, 0, []⟩ ≠ some (some out) := by
  intro hout
  obtain ⟨d, hd, hexit⟩ := Loop.loop_invariant (P := fun d => d.inp.Doomed) Decoder.doomed_pass hout h
  rw [Decoder.pass, hd.1, if_neg Bool.false_ne_true] at hexit
  split at hexit
  · cases hexit
  · cases hexit

theorem decoder_ends {inp : InStream} (h : inp.eofbit = true ∨ inp.good = true ∧ inp.breaks = false)
    (block : Fin 4 → UInt8) :
    ∃ n out, Loop.loop Decoder.pass n ⟨inp, block, 0, []⟩ = some (some out) := by
  obtain he | ⟨hg, hb⟩ := h
  · exact ⟨1, [], by simp [Loop.loop, Decoder.pass, he]⟩
  · have hdecode := decode_of block inp.rest
    rw [← InStream.eq_of hg hb, decode, Option.join_eq_some_iff] at hdecode
    exact ⟨_, _, hdecode⟩

/-! ## What the encoder writes on the way -/

theorem encodeText_append (x y : Bytes) (h : 3 ∣ x.length) :
    encodeText (x ++ y) = encodeText x ++ encodeText y := by
  induction x using encodeText.induct with
  | case1 => rfl
  | case2 a => simp at h
  | case3 a b => simp at h
  | case4 a b c s ih =>
    have hs : 3 ∣ s.length := by
      simp only [List.length_cons] at h
      omega
    rw [List.cons_append, List.cons_append, List.cons_append, encodeText, encodeText, ih hs,
      List.append_assoc]

/-- The bytes that were read are `taken`, and the text so far is theirs; only the last block is short. -/
structure Encoder.Wrote (s : Bytes) (e : Encoder) (taken : Bytes) : Prop where
  source : s = taken ++ e.inp.rest
  text : e.out = encodeText taken
  whole : e.inp = .ended ∨ e.inp = .of e.inp.rest ∧ 3 ∣ taken.length

theorem Encoder.Wrote.pass {s taken : Bytes} {e e' : Encoder} (h : e.Wrote s taken) (hp : e.pass = .inl e') :
    ∃ taken', e'.Wrote s taken' := by
  obtain hended | ⟨hof, hthree⟩ := h.whole
  · rw [Encoder.pass, hended] at hp
    cases hp
  · obtain ⟨block', len', hpass⟩ := Encoder.pass_of e.inp.rest e.block e.len e.out
    rw [← hof] at hpass
    rw [show e = ⟨e.inp, e.block, e.len, e.out⟩ from rfl, hpass] at hp
    have he := (Sum.inl.inj hp).symm
    refine ⟨taken ++ e.inp.rest.take 3, ?_, ?_, ?_⟩
    · rw [he]
      by_cases hlt : e.inp.rest.length < 3
      · rw [if_pos hlt, List.take_of_length_le (by omega), ← h.source]
        exact (List.append_nil s).symm
      · rw [if_neg hlt, InStream.rest_of, List.append_assoc, List.take_append_drop]
        exact h.source
    · rw [he, encodeText_append _ _ hthree, ← h.text]
    · rw [he]
      by_cases hlt : e.inp.rest.length < 3
      · exact .inl (if_pos hlt)
      · right
        rw [if_neg hlt, List.length_append, List.length_take]
        exact ⟨rfl, by omega⟩

theorem encoder_wrote {inp : InStream} (h : inp.eofbit = true ∨ inp.good = true ∧ inp.breaks = false)
    {block : Fin 3 → UInt8} {n : ℕ} {e : Encoder} (hn : Loop.Passes Encoder.pass n ⟨inp, block, 0, []⟩ e) :
    ∃ taken, inp.rest = taken ++ e.inp.rest ∧ e.out = encodeText taken := by
  obtain he | ⟨hg, hb⟩ := h
  · cases n with
    | zero =>
      rw [← show (⟨inp, block, 0, []⟩ : Encoder) = e from hn]
      exact ⟨[], rfl, rfl⟩
    | succ n =>
      obtain ⟨e1, h1, -⟩ := hn
      simp [Encoder.pass, he] at h1
  · have hstart : (⟨inp, block, 0, []⟩ : Encoder).Wrote inp.rest [] :=
      ⟨rfl, rfl, .inr ⟨InStream.eq_of hg hb, Nat.dvd_zero 3⟩⟩
    have hstep : ∀ a b : Encoder, (∃ taken, a.Wrote inp.rest taken) → a.pass = .inl b →
        ∃ taken, b.Wrote inp.rest taken := by
      rintro a b ⟨_, ha⟩ hab
      exact ha.pass hab
    obtain ⟨taken, hw⟩ := hn.preserves hstep ⟨[], hstart⟩
    exact ⟨taken, hw.source, hw.text⟩

end Codec

/-! ## `encoder_md5::encode` -/

namespace Md5

theorem md5_diverges {inp : InStream} (h : inp.Doomed) (ctx : MD5Context) (n : ℕ) :
    Loop.loop pass n (inp, ctx) = none := by
  refine Loop.loop_diverges (P := fun s => s.1.Doomed) (fun s hs => ?_) h n
  rw [pass, hs.1, if_neg Bool.false_ne_true]
  exact ⟨_, rfl, hs.read 4096⟩

theorem md5_ends {inp : InStream} (h : inp.eofbit = true ∨ inp.good = true ∧ inp.breaks = false)
    (buffer : Vector UInt8 64) : ∃ n out, Loop.loop pass n (inp, md5Init buffer) = some out := by
  obtain he | ⟨hg, hb⟩ := h
  · exact ⟨1, hexText (md5Final (md5Init buffer)).toList, by simp [Loop.loop, pass, he]⟩
  · obtain ⟨n, ctx, -, -, hpasses⟩ := passes inp.rest (md5Init_represents buffer)
    rw [← InStream.eq_of hg hb] at hpasses
    exact ⟨n + 1, _, hpasses.loop rfl (Nat.lt_succ_self n)⟩

end Md5

/-! ## All three -/

namespace Codec

/-- The three loops are left by a `return`, and at every pass the encoder has written the text of the bytes
it has read so far, and nothing else. -/
structure Returns (block : Fin 3 → UInt8) (block' : Fin 4 → UInt8) (buffer : Vector UInt8 64)
    (inp : InStream) : Prop where
  encode : ∃ n out, Loop.loop Encoder.pass n ⟨inp, block, 0, []⟩ = some out
  decode : ∃ n out, Loop.loop Decoder.pass n ⟨inp, block', 0, []⟩ = some (some out)
  digest : ∃ n out, Loop.loop Md5.pass n (inp, Md5.md5Init buffer) = some out
  written : ∀ n e, Loop.Passes Encoder.pass n ⟨inp, block, 0, []⟩ e →
    ∃ taken, inp.rest = taken ++ e.inp.rest ∧ e.out = encodeText taken

/-- The codecs return exactly on a stream at its end and on a good one that reaches it. -/
theorem codecs_return_iff (block : Fin 3 → UInt8) (block' : Fin 4 → UInt8) (buffer : Vector UInt8 64)
    (inp : InStream) :
    Returns block block' buffer inp ↔ inp.eofbit = true ∨ inp.good = true ∧ inp.breaks = false := by
  constructor
  · intro h
    by_contra hcond
    rw [← InStream.doomed_iff] at hcond
    obtain ⟨n, out, hloop⟩ := h.encode
    rw [encoder_diverges hcond] at hloop
    cases hloop
  · intro h
    exact ⟨encoder_ends h block, decoder_ends h block', Md5.md5_ends h buffer,
      fun n e hn => encoder_wrote h hn⟩

/-- A file that could not be opened, and one that breaks after a byte: no loop returns, and the encoder writes
a block for bytes it never got. -/
theorem codecs_go_on :
    (∀ n, Loop.loop Encoder.pass n ⟨⟨[], false, false, true, false⟩, fun _ => 7, 0, []⟩ = none) ∧
    (∀ n out, Loop.loop Decoder.pass n ⟨⟨[], false, false, true, false⟩, fun _ => 7, 0, []⟩ ≠ some (some out)) ∧
    (∀ n, Loop.loop Md5.pass n (⟨[97], true, false, false, false⟩, Md5.md5Init (Vector.replicate 64 0)) = none) ∧
    (∀ n, Loop.loop skipPass n (0, ⟨[], false, false, true, false⟩) = none) ∧
    ∃ e, Loop.Passes Encoder.pass 1 ⟨⟨[], false, false, true, false⟩, fun _ => 7, 0, []⟩ e ∧
      e.out = ascii "BwcH" := by
  have hfailed : (⟨[], false, false, true, false⟩ : InStream).Doomed := ⟨rfl, .inl rfl⟩
  have hstuck : skip ⟨[], false, false, true, false⟩ = none := by decide
  refine ⟨encoder_diverges hfailed _, decoder_diverges hfailed _, Md5.md5_diverges ⟨rfl, .inr rfl⟩ _,
    skip_none hstuck, ?_⟩
  exact ⟨_, Loop.Passes.single rfl, by decide +kernel⟩

end Codec

end Dcl
