import Dcl.Codec.Transform
import Mathlib.Tactic.IntervalCases

/-! # `encoder_md5` computes the RFC 1321 digest

A context represents the bytes it was updated with: its words are the state after their whole blocks,
the beginning of its buffer is what is left behind them, and the two counters are the number of bits.
`MD5Update` keeps that however the bytes are cut into pieces, and `MD5Final` pads as the RFC does. -/
namespace Dcl.Md5
set_option autoImplicit false

/-! ## Memory -/

theorem getElem_memcpy {n : ℕ} (v : Vector UInt8 n) (pos : ℕ) (src : Bytes) {i : ℕ} (hi : i < n) :
    (memcpy v pos src)[i] = if pos ≤ i ∧ i < pos + src.length then src.getD (i - pos) 0 else v[i] := by
  rw [memcpy, Vector.getElem_ofFn]
  rfl

theorem toList_memcpy {n : ℕ} (v : Vector UInt8 n) {pos : ℕ} {src : Bytes} (h : pos + src.length ≤ n) :
    (memcpy v pos src).toList = v.toList.take pos ++ src ++ v.toList.drop (pos + src.length) := by
  have hpos : (v.toList.take pos).length = pos := by
    rw [List.length_take, Vector.length_toList]
    omega
  have hfront : (v.toList.take pos ++ src).length = pos + src.length := by
    rw [List.length_append, hpos]
  apply List.ext_getElem
  · rw [List.length_append, hfront, List.length_drop, Vector.length_toList, Vector.length_toList]
    omega
  · intro i hi _
    rw [Vector.length_toList] at hi
    rw [Vector.getElem_toList, getElem_memcpy v pos src hi]
    split
    next hin =>
      rw [List.getElem_append_left (by omega), List.getElem_append_right (by omega), List.getElem_eq_getD,
        hpos]
    next hout =>
      by_cases hlt : i < pos
      · rw [List.getElem_append_left (by omega), List.getElem_append_left (by omega), List.getElem_take,
          Vector.getElem_toList]
      · have hback : pos + src.length + (i - (v.toList.take pos ++ src).length) = i := by omega
        rw [List.getElem_append_right (by omega), List.getElem_drop, Vector.getElem_toList]
        simp only [hback]

theorem take_memcpy {n : ℕ} (v : Vector UInt8 n) (pos : ℕ) (src : Bytes) (h : pos + src.length ≤ n) :
    (memcpy v pos src).toList.take (pos + src.length) = v.toList.take pos ++ src := by
  have hfront : (v.toList.take pos ++ src).length = pos + src.length := by
    rw [List.length_append, List.length_take, Vector.length_toList]
    omega
  rw [toList_memcpy v h, ← hfront, List.take_left]

theorem toList_memcpy_full {n : ℕ} (v : Vector UInt8 n) {pos : ℕ} {src : Bytes}
    (h : pos + src.length = n) : (memcpy v pos src).toList = v.toList.take pos ++ src := by
  rw [toList_memcpy v h.le, h, List.drop_of_length_le (by simp), List.append_nil]

/-- The word that `byteReverse` puts together is the one its four bytes are. -/
theorem toNat_word (b0 b1 b2 b3 : UInt8) :
    ((b3.toUInt32 <<< 8 ||| b2.toUInt32) <<< 16 ||| (b1.toUInt32 <<< 8 ||| b0.toUInt32)).toNat =
      leValue [b0, b1, b2, b3] := by
  have h0 := b0.toNat_lt
  have h1 := b1.toNat_lt
  have h2 := b2.toNat_lt
  have h3 := b3.toNat_lt
  have e8 : UInt32.toNat 8 % 32 = 8 := rfl
  have e16 : UInt32.toNat 16 % 32 = 16 := rfl
  have hshift : ∀ b : UInt8, b.toNat <<< 8 % 2 ^ 32 = b.toNat <<< 8 := by
    intro b
    have hb := b.toNat_lt
    rw [Nat.shiftLeft_eq]
    omega
  simp only [UInt32.toNat_or, UInt32.toNat_shiftLeft, UInt8.toNat_toUInt32, e8, e16, hshift]
  -- none of the parts reaches into the bits of another, so `|` is a sum
  rw [← Nat.shiftLeft_add_eq_or_of_lt (by omega), ← Nat.shiftLeft_add_eq_or_of_lt (by omega),
    Nat.mod_eq_of_lt, ← Nat.shiftLeft_add_eq_or_of_lt]
  · simp only [leValue, Nat.shiftLeft_eq]
    omega
  · simp only [Nat.shiftLeft_eq]
    omega
  · simp only [Nat.shiftLeft_eq]
    omega

/-- On a little-endian machine `byteReverse` changes nothing. -/
theorem byteReverse_eq {n : ℕ} (v : Vector UInt8 n) (longs : ℕ) : byteReverse v longs = v := by
  rw [byteReverse]
  apply List.foldl_fixed'
  intro k
  have hbytes : ∀ b0 b1 b2 b3 : UInt8, leBytes 4 (leValue [b0, b1, b2, b3]) = [b0, b1, b2, b3] :=
    fun b0 b1 b2 b3 => leBytes_leValue [b0, b1, b2, b3]
  simp only [toNat_word, hbytes]
  apply Vector.ext
  intro i hi
  rw [getElem_memcpy v _ _ hi]
  split
  next hin =>
    have hget : v.toList.getD i 0 = v[i] := by
      rw [← Vector.getElem_toList (by simpa using hi), List.getElem_eq_getD 0]
    have hlen : i < 4 * k + 4 := hin.2
    obtain ⟨j, rfl⟩ := Nat.exists_eq_add_of_le hin.1
    rw [Nat.add_sub_cancel_left, ← hget]
    have hj : j < 4 := by omega
    interval_cases j <;> rfl
  next => rfl

/-! ## Updates -/

theorem transform_words (ctx : MD5Context) : ctx.transform.buf.words =
    Rfc1321.processBlock ctx.buf.words ctx.inp.toList := by
  rw [← md5Transform_eq]
  simp only [MD5Context.transform, byteReverse_eq]
  rfl

@[simp] theorem transform_inp (ctx : MD5Context) : ctx.transform.inp = ctx.inp := byteReverse_eq _ _

@[simp] theorem transform_bits0 (ctx : MD5Context) : ctx.transform.bits0 = ctx.bits0 := by
  rw [MD5Context.transform]

@[simp] theorem transform_bits1 (ctx : MD5Context) : ctx.transform.bits1 = ctx.bits1 := by
  rw [MD5Context.transform]

/-- A context holds a state and the bytes that are left behind the last whole block. -/
def MD5Context.Holds (ctx : MD5Context) (s : Rfc1321.Words × Bytes) : Prop :=
  ctx.buf.words = s.1 ∧ ctx.inp.toList.take s.2.length = s.2

/-- The chunks of `MD5Update` are absorbed, and what is left stands at the beginning of the buffer. -/
theorem md5Chunks_holds (ctx : MD5Context) (buf : Bytes) :
    (md5Chunks ctx buf buf.length).Holds (absorb Rfc1321.processBlock 64 ctx.buf.words buf) := by
  rw [md5Chunks]
  split
  next h =>
    have htake : (buf.take 64).length = 64 := by
      rw [List.length_take]
      omega
    have hinp : (memcpy ctx.inp 0 (buf.take 64)).toList = buf.take 64 := by
      rw [toList_memcpy_full _ (by omega), List.take_zero, List.nil_append]
    have hih := md5Chunks_holds { ctx with inp := memcpy ctx.inp 0 (buf.take 64) }.transform (buf.drop 64)
    have hblock := absorb_block Rfc1321.processBlock (by decide) htake ctx.buf.words (buf.drop 64)
    rw [List.take_append_drop] at hblock
    rw [transform_words, hinp, List.length_drop] at hih
    rw [hblock]
    exact hih
  next h =>
    rw [absorb_short _ (by omega), List.take_length]
    have hcopy := take_memcpy ctx.inp 0 buf (by omega)
    rw [Nat.zero_add, List.take_zero, List.nil_append] at hcopy
    exact ⟨rfl, hcopy⟩
termination_by buf.length
decreasing_by
  rw [List.length_drop]
  omega

theorem md5Chunks_bits (ctx : MD5Context) (buf : Bytes) (len : ℕ) :
    (md5Chunks ctx buf len).bits0 = ctx.bits0 ∧ (md5Chunks ctx buf len).bits1 = ctx.bits1 := by
  fun_induction md5Chunks ctx buf len with
  | case1 ctx buf len h ih =>
    rw [transform_bits0, transform_bits1] at ih
    exact ih
  | case2 ctx buf len h => exact ⟨rfl, rfl⟩

/-- A context that was updated with the bytes of `m`. -/
structure MD5Context.Represents (ctx : MD5Context) (m : Bytes) : Prop where
  holds : ctx.Holds (absorb Rfc1321.processBlock 64 Rfc1321.initial m)
  bits0 : ctx.bits0.toNat = 8 * m.length % 2 ^ 32
  bits1 : ctx.bits1.toNat = 8 * m.length / 2 ^ 32 % 2 ^ 32

theorem md5Init_represents (inp : Vector UInt8 64) : (md5Init inp).Represents [] :=
  ⟨⟨rfl, rfl⟩, rfl, rfl⟩

theorem MD5Context.Represents.count {ctx : MD5Context} {m : Bytes} (h : ctx.Represents m) :
    (ctx.bits0 >>> 3 &&& 0x3f).toNat = m.length % 64 := by
  rw [UInt32.toNat_and, UInt32.toNat_shiftRight, h.bits0]
  show (8 * m.length % 2 ^ 32) >>> 3 &&& (2 ^ 6 - 1) = m.length % 64
  rw [Nat.and_two_pow_sub_one_eq_mod, Nat.shiftRight_eq_div_pow]
  omega

theorem MD5Context.Represents.length_residue {ctx : MD5Context} {m : Bytes} (h : ctx.Represents m) :
    (residue 64 m).length = (ctx.bits0 >>> 3 &&& 0x3f).toNat := by
  rw [h.count, Dcl.length_residue]

/-- The counters wrap at 2^64 together. -/
theorem addBits_counts {ctx : MD5Context} {m : Bytes} (h : ctx.Represents m) {buf : Bytes}
    (hlen : buf.length < 2 ^ 32) :
    (ctx.addBits (UInt32.ofNat buf.length)).bits0.toNat = 8 * (m ++ buf).length % 2 ^ 32 ∧
    (ctx.addBits (UInt32.ofNat buf.length)).bits1.toNat = 8 * (m ++ buf).length / 2 ^ 32 % 2 ^ 32 := by
  have hl : (UInt32.ofNat buf.length).toNat = buf.length := UInt32.toNat_ofNat_of_lt' hlen
  have hshl : (UInt32.ofNat buf.length <<< 3).toNat = 8 * buf.length % 2 ^ 32 := by
    rw [UInt32.toNat_shiftLeft, hl, Nat.shiftLeft_eq]
    show buf.length * 2 ^ 3 % 2 ^ 32 = _
    omega
  have hshr : (UInt32.ofNat buf.length >>> 29).toNat = buf.length / 2 ^ 29 := by
    rw [UInt32.toNat_shiftRight, hl, Nat.shiftRight_eq_div_pow]
    rfl
  have hsum : (ctx.bits0 + UInt32.ofNat buf.length <<< 3).toNat = 8 * (m ++ buf).length % 2 ^ 32 := by
    rw [UInt32.toNat_add, hshl, h.bits0, List.length_append]
    omega
  refine ⟨hsum, ?_⟩
  have hb1 := h.bits1
  have hb0 := h.bits0
  simp only [MD5Context.addBits]
  rw [UInt32.toNat_add, hshr, List.length_append]
  rw [List.length_append] at hsum
  split
  next hcarry =>
    rw [UInt32.lt_iff_toNat_lt, hsum, hb0] at hcarry
    rw [UInt32.toNat_add, hb1]
    show ((8 * m.length / 2 ^ 32 % 2 ^ 32 + 1) % 2 ^ 32 + buf.length / 2 ^ 29) % 2 ^ 32 = _
    omega
  next hcarry =>
    rw [UInt32.lt_iff_toNat_lt, hsum, hb0] at hcarry
    rw [hb1]
    omega

theorem md5Update_bits (ctx : MD5Context) (buf : Bytes) (len : UInt32) :
    (md5Update ctx buf len).bits0 = (ctx.addBits len).bits0 ∧
    (md5Update ctx buf len).bits1 = (ctx.addBits len).bits1 := by
  unfold md5Update
  simp only
  split
  next =>
    split
    next => exact ⟨rfl, rfl⟩
    next =>
      obtain ⟨h0, h1⟩ := md5Chunks_bits _ _ _
      rw [h0, h1, transform_bits0, transform_bits1]
      exact ⟨rfl, rfl⟩
  next => exact md5Chunks_bits _ _ _

/-- A buffer with the bytes `r` is filled, and the chunks follow. -/
theorem md5Chunks_filled {ctx : MD5Context} {w : Rfc1321.Words} {r : Bytes} (h : ctx.Holds (w, r))
    {buf : Bytes} (hr : r.length < 64) (hlong : 64 - r.length ≤ buf.length) :
    (md5Chunks { ctx with inp := memcpy ctx.inp r.length (buf.take (64 - r.length)) }.transform
      (buf.drop (64 - r.length)) (buf.drop (64 - r.length)).length).Holds
      (absorb Rfc1321.processBlock 64 w (r ++ buf)) := by
  obtain ⟨hw, hinp⟩ := h
  simp only at hw hinp
  have htake : (buf.take (64 - r.length)).length = 64 - r.length := by
    rw [List.length_take]
    omega
  have hfull : (memcpy ctx.inp r.length (buf.take (64 - r.length))).toList =
      r ++ buf.take (64 - r.length) := by
    rw [toList_memcpy_full _ (by omega), hinp]
  have hfirst : (r ++ buf.take (64 - r.length)).length = 64 := by
    rw [List.length_append, htake]
    omega
  have hblock := absorb_block Rfc1321.processBlock (by decide) hfirst w (buf.drop (64 - r.length))
  rw [List.append_assoc, List.take_append_drop] at hblock
  have hchunks := md5Chunks_holds { ctx with
    inp := memcpy ctx.inp r.length (buf.take (64 - r.length)) }.transform (buf.drop (64 - r.length))
  rw [transform_words, hfull, hw] at hchunks
  rw [hblock]
  exact hchunks

/-- What `MD5Update` does to a context with the bytes `r` in its buffer. -/
theorem md5Update_holds {ctx : MD5Context} {w : Rfc1321.Words} {r : Bytes} (h : ctx.Holds (w, r))
    (hcount : (ctx.bits0 >>> 3 &&& 0x3f).toNat = r.length) (hr : r.length < 64) {buf : Bytes}
    (hlen : buf.length < 2 ^ 32) : (md5Update ctx buf (UInt32.ofNat buf.length)).Holds
      (absorb Rfc1321.processBlock 64 w (r ++ buf)) := by
  have hl : (UInt32.ofNat buf.length).toNat = buf.length := UInt32.toNat_ofNat_of_lt' hlen
  obtain ⟨hw, hinp⟩ := h
  simp only at hw hinp
  unfold md5Update
  generalize ctx.bits0 >>> 3 &&& 0x3f = t at hcount ⊢
  simp only [hcount]
  split
  next hne =>
    -- the buffer is not empty: it is filled first
    have hfree : (64 - t).toNat = 64 - r.length := by
      have hle : t ≤ 64 := by
        rw [UInt32.le_iff_toNat_le, hcount]
        exact hr.le
      rw [UInt32.toNat_sub_of_le _ _ hle, hcount]
      rfl
    simp only [UInt32.lt_iff_toNat_lt, hfree, hl]
    split
    next hshort =>
      have hfits : r.length + buf.length ≤ 64 := by omega
      have hcopy := take_memcpy ctx.inp r.length buf hfits
      rw [hinp, ← List.length_append] at hcopy
      rw [List.take_length, absorb_short _ (by rw [List.length_append]; omega)]
      exact ⟨hw, hcopy⟩
    next hlong =>
      have hrest : (UInt32.ofNat buf.length - (64 - t)).toNat = (buf.drop (64 - r.length)).length := by
        rw [UInt32.toNat_sub_of_le, hl, hfree, List.length_drop]
        rw [UInt32.le_iff_toNat_le, hl, hfree]
        omega
      have hadd : (ctx.addBits (UInt32.ofNat buf.length)).Holds (w, r) := ⟨hw, hinp⟩
      rw [hrest]
      exact md5Chunks_filled hadd hr (Nat.le_of_not_lt hlong)
  next heq =>
    have hnil : r = [] := by
      have hzero : t = 0 := by simpa using heq
      rw [hzero] at hcount
      exact List.length_eq_zero_iff.mp hcount.symm
    have hchunks := md5Chunks_holds (ctx.addBits (UInt32.ofNat buf.length)) buf
    have hbuf : (ctx.addBits (UInt32.ofNat buf.length)).buf.words = w := hw
    rw [hbuf] at hchunks
    rw [hnil, List.nil_append, hl]
    exact hchunks

theorem md5Update_represents {ctx : MD5Context} {m : Bytes} (h : ctx.Represents m) {buf : Bytes}
    (hlen : buf.length < 2 ^ 32) :
    (md5Update ctx buf (UInt32.ofNat buf.length)).Represents (m ++ buf) := by
  obtain ⟨h0, h1⟩ := md5Update_bits ctx buf (UInt32.ofNat buf.length)
  obtain ⟨hc0, hc1⟩ := addBits_counts h hlen
  have hres : (residue 64 m).length < 64 := by
    rw [Dcl.length_residue]
    omega
  refine ⟨?_, by rw [h0, hc0], by rw [h1, hc1]⟩
  rw [absorb_append _ (by decide)]
  exact md5Update_holds h.holds h.length_residue.symm hres hlen

theorem foldl_md5Update_represents {ctx : MD5Context} {m : Bytes} (h : ctx.Represents m)
    {pieces : List Bytes} (hlen : ∀ p ∈ pieces, p.length < 2 ^ 32) :
    (pieces.foldl (fun ctx p => md5Update ctx p (UInt32.ofNat p.length)) ctx).Represents
      (m ++ pieces.flatten) := by
  induction pieces generalizing ctx m with
  | nil =>
    rw [List.flatten_nil, List.append_nil]
    exact h
  | cons p pieces ih =>
    rw [List.foldl_cons, List.flatten_cons, ← List.append_assoc]
    exact ih (md5Update_represents h (hlen p (by simp))) fun q hq => hlen q (by simp [hq])

/-! ## The end -/

theorem toList_bytes (w : Buf) : w.bytes.toList = w.words.bytes := rfl

theorem finish_eq (ctx : MD5Context) : ctx.finish.toList = (Rfc1321.processBlock ctx.buf.words
    (ctx.inp.toList.take 56 ++ leBytes 4 ctx.bits0.toNat ++ leBytes 4 ctx.bits1.toNat)).bytes := by
  have hlow : 56 + (leBytes 4 ctx.bits0.toNat).length = 60 := by rw [length_leBytes]
  have hfirst := take_memcpy ctx.inp 56 (leBytes 4 ctx.bits0.toNat) (by omega)
  rw [hlow] at hfirst
  have hblock : (memcpy (memcpy ctx.inp 56 (leBytes 4 ctx.bits0.toNat)) 60
      (leBytes 4 ctx.bits1.toNat)).toList =
      ctx.inp.toList.take 56 ++ leBytes 4 ctx.bits0.toNat ++ leBytes 4 ctx.bits1.toNat := by
    rw [toList_memcpy_full _ (by rw [length_leBytes]), hfirst]
  rw [← hblock, ← md5Transform_eq, ← toList_bytes]
  simp only [MD5Context.finish, byteReverse_eq]
  rfl

theorem MD5Context.Represents.leBytes_bits {ctx : MD5Context} {m : Bytes} (h : ctx.Represents m) :
    leBytes 4 ctx.bits0.toNat ++ leBytes 4 ctx.bits1.toNat = leBytes 8 (8 * m.length) := by
  have hpow : 256 ^ 4 = 2 ^ 32 := by norm_num
  have hlow := leBytes_mod 4 (8 * m.length)
  have hhigh := leBytes_mod 4 (8 * m.length / 256 ^ 4)
  have hsplit := leBytes_add 4 4 (8 * m.length)
  rw [hpow] at hlow hhigh hsplit
  rw [h.bits0, h.bits1, hlow, hhigh]
  exact hsplit.symm

/-- The buffer after the byte 0x80 and `k` zeros were stored behind the bytes `r`. -/
theorem toList_padded {v : Vector UInt8 64} {r : Bytes} {k : ℕ} (hr : v.toList.take r.length = r)
    (hk : r.length + 1 + k ≤ 64) :
    (memcpy (memcpy v r.length [0x80]) (r.length + 1) (List.replicate k 0)).toList.take
      (r.length + 1 + k) = r ++ 0x80 :: List.replicate k 0 := by
  have hone := take_memcpy v r.length [0x80] (by simp; omega)
  have hzeros := take_memcpy (memcpy v r.length [0x80]) (r.length + 1) (List.replicate k 0)
    (by simp; omega)
  rw [List.length_singleton, hr] at hone
  rw [List.length_replicate, hone, List.append_assoc, List.singleton_append] at hzeros
  exact hzeros

/-- `MD5Final` pads as the RFC does. -/
theorem md5Final_represents {ctx : MD5Context} {m : Bytes} (h : ctx.Represents m) :
    (md5Final ctx).toList = Rfc1321.digest m := by
  obtain ⟨hw, hinp⟩ := h.holds
  have hlen : (residue 64 m).length = m.length % 64 := Dcl.length_residue 64 m
  have hle : m.length % 64 < 64 := Nat.mod_lt _ (by decide)
  have hbits := h.leBytes_bits
  change ctx.inp.toList.take (residue 64 m).length = residue 64 m at hinp
  rw [Rfc1321.digest, Rfc1321.pad, absorb_append _ (by decide), ← hw]
  change _ = (absorb Rfc1321.processBlock 64 ctx.buf.words (residue 64 m ++ _)).1.bytes
  unfold md5Final
  simp only [h.count, ← hlen]
  generalize residue 64 m = r at hlen hinp ⊢
  rw [Rfc1321.padding, ← hlen]
  split
  next htwo =>
    -- 0x80 and the zeros fill the block, and the length stands in one of its own
    have hzeros : (119 - r.length) % 64 = (64 - 1 - r.length) + 56 := by omega
    have hsum : r.length + 1 + (64 - 1 - r.length) = 64 := by omega
    have hfirst : (r ++ 0x80 :: List.replicate (64 - 1 - r.length) (0 : UInt8)).length = 64 := by
      rw [List.length_append, List.length_cons, List.length_replicate]
      omega
    have hpadded := toList_padded (k := 64 - 1 - r.length) hinp (by omega)
    rw [hsum, List.take_of_length_le (by simp)] at hpadded
    have hlast := take_memcpy (memcpy (memcpy ctx.inp r.length [0x80]) (r.length + 1)
      (List.replicate (64 - 1 - r.length) 0)) 0 (List.replicate 56 0) (by simp)
    rw [List.length_replicate, List.take_zero, List.nil_append, Nat.zero_add] at hlast
    rw [finish_eq]
    simp only [transform_words, transform_inp, transform_bits0, transform_bits1, hpadded, hlast]
    rw [List.append_assoc, hbits, hzeros, List.replicate_add]
    have hsplit : r ++ (0x80 :: (List.replicate (64 - 1 - r.length) 0 ++ List.replicate 56 0) ++
        leBytes 8 (8 * m.length)) = (r ++ 0x80 :: List.replicate (64 - 1 - r.length) 0) ++
          (List.replicate 56 0 ++ leBytes 8 (8 * m.length)) := by simp
    rw [hsplit, absorb_block _ (by decide) hfirst,
      absorb_exact _ (by decide) (by rw [List.length_append, List.length_replicate, length_leBytes])]
  next hone =>
    have hzeros : (119 - r.length) % 64 = 64 - 1 - r.length - 8 := by omega
    have hsum : r.length + 1 + (64 - 1 - r.length - 8) = 56 := by omega
    have hpadded := toList_padded (k := 64 - 1 - r.length - 8) hinp (by omega)
    rw [hsum] at hpadded
    rw [finish_eq]
    simp only [hpadded]
    rw [List.append_assoc, hbits, hzeros, List.append_assoc, absorb_exact _ (by decide)]
    simp only [List.length_append, List.length_cons, List.length_replicate, length_leBytes]
    omega

/-! ## `encode` -/

theorem passes (s : Bytes) {ctx : MD5Context} {m : Bytes} (h : ctx.Represents m) :
    ∃ n ctx', n ≤ s.length + 1 ∧ ctx'.Represents (m ++ s) ∧
      Loop.Passes pass n (.of s, ctx) (.ended, ctx') := by
  by_cases hshort : s.length < 4096
  · have hpass : pass (.of s, ctx) = .inl (.ended, md5Update ctx s (UInt32.ofNat s.length)) := by
      rw [pass, InStream.read_of_short hshort]
      rfl
    exact ⟨1, _, by omega, md5Update_represents h (by omega), Loop.Passes.single hpass⟩
  · have htake : (s.take 4096).length = 4096 := by
      rw [List.length_take]
      omega
    have hpass : pass (.of s, ctx) =
        .inl (.of (s.drop 4096), md5Update ctx (s.take 4096) (UInt32.ofNat (s.take 4096).length)) := by
      rw [pass, InStream.read_of (by omega)]
      rfl
    have hlen : (s.take 4096).length < 2 ^ 32 := by omega
    obtain ⟨n, ctx', hn, hrep, hpasses⟩ := passes (s.drop 4096) (md5Update_represents h hlen)
    rw [List.append_assoc, List.take_append_drop] at hrep
    rw [List.length_drop] at hn
    exact ⟨1 + n, ctx', by omega, hrep, (Loop.Passes.single hpass).trans hpasses⟩
termination_by s.length
decreasing_by
  rw [List.length_drop]
  omega

/-- `encode` writes the digest of every input, and the digest does not depend on how the input is cut
into updates. -/
theorem encode_digest (buffer buffer' : Vector UInt8 64) (m : Bytes) :
    encode buffer (.of m) = some (hexText (Rfc1321.digest m)) ∧
    ∀ pieces pieces' : List Bytes, (∀ p ∈ pieces, p.length < 2 ^ 32) → (∀ p ∈ pieces', p.length < 2 ^ 32) →
      pieces.flatten = m → pieces'.flatten = m →
      md5Final (pieces.foldl (fun ctx p => md5Update ctx p (UInt32.ofNat p.length)) (md5Init buffer)) =
        md5Final (pieces'.foldl (fun ctx p => md5Update ctx p (UInt32.ofNat p.length))
          (md5Init buffer')) := by
  constructor
  · obtain ⟨n, ctx, hn, hrep, hpasses⟩ := passes m (md5Init_represents buffer)
    rw [List.nil_append] at hrep
    rw [← md5Final_represents hrep]
    exact hpasses.loop rfl (Nat.lt_succ_of_le hn)
  · intro pieces pieces' hlen hlen' hm hm'
    have hleft := md5Final_represents (foldl_md5Update_represents (md5Init_represents buffer) hlen)
    have hright := md5Final_represents (foldl_md5Update_represents (md5Init_represents buffer') hlen')
    rw [List.nil_append, hm] at hleft
    rw [List.nil_append, hm'] at hright
    exact Vector.toList_inj.mp (hleft.trans hright.symm)

theorem encode_digest_abc :
    encode (Vector.replicate 64 0) (.of (ascii "abc")) = some (ascii "900150983cd24fb0d6963f7d28e17f72") ∧
    md5Final ([ascii "ab", ascii "c"].foldl (fun ctx p => md5Update ctx p (UInt32.ofNat p.length))
      (md5Init (Vector.replicate 64 0))) =
    md5Final ([ascii "a", [], ascii "bc"].foldl (fun ctx p => md5Update ctx p (UInt32.ofNat p.length))
      (md5Init (Vector.replicate 64 1))) := by
  obtain ⟨htext, hsplit⟩ := encode_digest (Vector.replicate 64 0) (Vector.replicate 64 1) (ascii "abc")
  have hhex : hexText (Rfc1321.digest (ascii "abc")) = ascii "900150983cd24fb0d6963f7d28e17f72" := by
    decide +kernel
  rw [hhex] at htext
  exact ⟨htext, hsplit _ _ (by decide) (by decide) rfl rfl⟩

end Dcl.Md5
