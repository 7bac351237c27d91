import Dcl.Foundations.TracedVector
import Dcl.Http.ContentCalls
import Mathlib.Algebra.Order.BigOperators.Group.List
import Mathlib.Algebra.Order.Group.Nat

/-! # The buffer behind `add_content`

`add_content(value_size, value)` grows the vector first, lets the stream write over the old terminator, and
then assigns to the element behind the last one. What a stream that ends early does not deliver stays in the
content as zeros. -/
namespace Dcl.Http
set_option autoImplicit false

namespace HttpHeader

/-! ## Accesses -/

/-- The vector `content` through `add_content`, with every access to it. -/
def addContentTraced (h : HttpHeader) (size : ℤ) (value : StringStream) : TracedVector UInt8 :=
  let content := if h.content.isEmpty then (TracedVector.of h.content).pushBack 0 else .of h.content
  let oldsize := content.data.length
  if 0 < size then
    let resized := content.grow size.toNat 0
    let read := (resized.touch (oldsize - 1)).writeAll (oldsize - 1) (value.read size.toNat).1
    read.write (oldsize + size.toNat) 0
  else content

/-- The vector that `add_content` resizes: a terminator is there. -/
def terminated (h : HttpHeader) : TracedVector UInt8 :=
  if h.content.isEmpty then (TracedVector.of h.content).pushBack 0 else .of h.content

section Accesses
variable (h : HttpHeader) (s : StringStream)

theorem terminated_data : h.terminated.data = if h.content.isEmpty then [0] else h.content := by
  unfold terminated
  split
  case isTrue he =>
    rw [List.isEmpty_iff.mp he]
    rfl
  case isFalse => rfl

theorem terminated_ne_nil : h.terminated.data ≠ [] := by
  rw [terminated_data]
  split
  case isTrue => simp
  case isFalse he => simpa using he

theorem terminated_inBounds : h.terminated.InBounds := by
  unfold terminated
  split
  · exact (TracedVector.inBounds_of _).pushBack 0
  · exact TracedVector.inBounds_of _

theorem terminated_dropLast : h.terminated.data.dropLast = h.bytes := by
  rw [terminated_data, bytes]
  split
  case isTrue he => rw [List.isEmpty_iff.mp he]; rfl
  case isFalse => rfl

theorem length_read_le (n : ℕ) : (s.read n).1.length ≤ n := by
  unfold StringStream.read
  split
  · split
    · exact List.length_take_le n s.rest
    · dsimp only
      omega
  · exact Nat.zero_le n

/-- The vector before the last assignment. -/
def filled (n : ℕ) : TracedVector UInt8 :=
  ((h.terminated.grow n 0).touch (h.terminated.data.length - 1)).writeAll (h.terminated.data.length - 1)
    (s.read n).1

theorem room (n : ℕ) : h.terminated.data.length - 1 + (s.read n).1.length ≤
    ((h.terminated.grow n 0).touch (h.terminated.data.length - 1)).data.length := by
  have := length_read_le s n
  change _ ≤ (h.terminated.data ++ List.replicate n 0).length
  rw [List.length_append, List.length_replicate]
  omega

theorem filled_overwrite (n : ℕ) : (h.filled s n).data =
    overwrite (h.terminated.data ++ List.replicate n 0) (h.terminated.data.length - 1) (s.read n).1 :=
  TracedVector.data_writeAll (h.room s n)

theorem filled_inBounds {n : ℕ} (hn : 0 < n) : (h.filled s n).InBounds := by
  have hgrow : (h.terminated.grow n 0).data.length = h.terminated.data.length + n := by
    simp [TracedVector.grow]
  have htouch := (h.terminated_inBounds.grow n 0).touch (i := h.terminated.data.length - 1) (by omega)
  exact htouch.writeAll (h.room s n)

theorem length_bytes : h.bytes.length + 1 = h.terminated.data.length := by
  have hlen := List.length_pos_iff.mpr h.terminated_ne_nil
  rw [← terminated_dropLast, List.length_dropLast]
  omega

/-- The stream writes over the old terminator. -/
theorem filled_data (n : ℕ) : (h.filled s n).data =
    h.bytes ++ (s.read n).1 ++
      (h.terminated.data ++ List.replicate n 0).drop (h.bytes.length + (s.read n).1.length) := by
  have hlen := h.length_bytes
  have hpos : h.terminated.data.length - 1 = h.bytes.length := by omega
  have htake : (h.terminated.data ++ List.replicate n 0).take h.bytes.length = h.bytes := by
    rw [List.take_append_of_le_length (by omega), ← hpos, ← List.dropLast_eq_take, terminated_dropLast]
  rw [filled_overwrite, overwrite, hpos, htake]

theorem length_filled (n : ℕ) : (h.filled s n).data.length = h.terminated.data.length + n := by
  have hlen := h.length_bytes
  have := length_read_le s n
  simp only [filled_data, List.length_append, List.length_drop, List.length_replicate]
  omega

theorem addContentTraced_eq {n : ℕ} (hn : 0 < n) :
    h.addContentTraced n s = (h.filled s n).write (h.terminated.data.length + n) 0 := by
  have hz : (0 : ℤ) < n := by omega
  simp only [addContentTraced, if_pos hz, Int.toNat_natCast]
  rfl

/-- The traced vector is the content that `add_content` leaves. -/
theorem addContent_content (n : ℤ) : (h.addContent n s).1.content = (h.addContentTraced n s).data := by
  by_cases hn : 0 < n
  · obtain ⟨m, rfl⟩ := Int.eq_ofNat_of_zero_le hn.le
    simp only [addContent, if_pos hn, Int.toNat_natCast, ← terminated_data, ← filled_overwrite]
    rw [addContentTraced_eq h s (by omega)]
    rfl
  · simp only [addContent, addContentTraced, if_neg hn]
    exact h.terminated_data.symm

/-- The assignment behind the end changes nothing. -/
theorem addContent_filled {n : ℕ} (hn : 0 < n) : (h.addContent n s).1.content = (h.filled s n).data := by
  rw [addContent_content, addContentTraced_eq h s hn]
  exact List.set_eq_of_length_le (by rw [length_filled])

theorem getLast?_filled {n : ℕ} (hn : 0 < n) : (h.filled s n).data.getLast? = some 0 := by
  have hlen := h.length_bytes
  have := length_read_le s n
  have hlast : (h.terminated.data ++ List.replicate n (0 : UInt8)).getLast? = some 0 := by
    rw [List.getLast?_append, List.getLast?_replicate, if_neg (by omega)]
    rfl
  have hshort : ¬(h.terminated.data ++ List.replicate n (0 : UInt8)).length ≤
      h.bytes.length + (s.read n).1.length := by
    rw [List.length_append, List.length_replicate]
    omega
  rw [filled_data, List.getLast?_append, List.getLast?_drop, if_neg hshort, hlast]
  rfl

/-- The last element is the terminator, and every access but the last is in the vector; the last one is to
the element behind it. -/
theorem add_content_leaves_buffer {n : ℤ} (hn : 0 < n) :
    ¬((h.addContentTraced n s).InBounds ∧ (h.addContent n s).1.content.getLast? = some 0) ∧
    (h.addContent n s).1.content.getLast? = some 0 ∧
    ∃ inside, (∀ a ∈ inside, a.1 < a.2) ∧ (h.addContentTraced n s).accesses =
      inside ++ [((h.addContent n s).1.content.length, (h.addContent n s).1.content.length)] := by
  obtain ⟨m, rfl⟩ := Int.eq_ofNat_of_zero_le hn.le
  have hm : 0 < m := by omega
  have haccesses : (h.addContentTraced m s).accesses =
      (h.filled s m).accesses ++ [(h.terminated.data.length + m, h.terminated.data.length + m)] := by
    rw [addContentTraced_eq h s hm, ← length_filled h s m]
    rfl
  refine ⟨fun hall => ?_, ?_, (h.filled s m).accesses, h.filled_inBounds s hm, ?_⟩
  · have := hall.1 _ (haccesses ▸ List.mem_append_right _ List.mem_cons_self)
    dsimp only at this
    omega
  · rw [addContent_filled h s hm]
    exact h.getLast?_filled s hm
  · rw [addContent_filled h s hm, length_filled]
    exact haccesses

end Accesses

theorem add_content_leaves_buffer_x :
    ¬((HttpHeader.new.addContentTraced 1 (streamOf (ascii "x"))).InBounds ∧
      (HttpHeader.new.addContent 1 (streamOf (ascii "x"))).1.content.getLast? = some 0) :=
  (add_content_leaves_buffer .new (streamOf (ascii "x")) (by decide)).1

/-- One byte added to a fresh header: element 2 of a vector of two is written. -/
theorem add_content_writes_behind :
    (HttpHeader.new.addContentTraced 1 (streamOf (ascii "x"))).data = [120, 0] ∧
      (2, 2) ∈ (HttpHeader.new.addContentTraced 1 (streamOf (ascii "x"))).accesses ∧
      ¬(HttpHeader.new.addContentTraced 1 (streamOf (ascii "x"))).InBounds := by
  refine ⟨rfl, by decide, fun h => ?_⟩
  exact absurd (h (2, 2) (by decide)) (by decide)

end HttpHeader

/-! ## What the streams deliver -/

/-- The bytes a stream has for a reader. -/
def available (s : StringStream) : ℕ := if s.good then s.rest.length else 0

/-- What the stream of one call delivers of the `n` bytes it is asked for. -/
def delivered (c : ℕ × StringStream) : Bytes := (c.2.read c.1).1

/-- What one call appends: the bytes delivered, and a zero for every byte that is missing. -/
def padded (c : ℕ × StringStream) : Bytes := delivered c ++ List.replicate (c.1 - (delivered c).length) 0

/-- `add_content` for each call in turn. -/
def addAll (h : HttpHeader) (cs : List (ℕ × StringStream)) : HttpHeader :=
  cs.foldl (fun h c => (h.addContent c.1 c.2).1) h

section Streams
variable (c : ℕ × StringStream) (h : HttpHeader)

theorem length_delivered : (delivered c).length = min c.1 (available c.2) := by
  unfold delivered available StringStream.read
  split
  · split
    · rw [List.length_take]
    · dsimp only
      omega
  · exact (Nat.min_zero c.1).symm

theorem length_padded : (padded c).length = c.1 := by
  have := HttpHeader.length_read_le c.2 c.1
  rw [padded, List.length_append, List.length_replicate, delivered]
  omega

/-- A terminator ends the content, or there is no content yet. -/
def Terminated (h : HttpHeader) : Prop := h.terminated.data = h.bytes ++ [0]

theorem terminated_new : Terminated .new := rfl

theorem addContent_padded {h : HttpHeader} (hterm : Terminated h) (c : ℕ × StringStream) :
    (h.addContent c.1 c.2).1.content = h.bytes ++ padded c ++ [0] := by
  rcases Nat.eq_zero_or_pos c.1 with hn | hn
  · have hnone : padded c = [] := List.eq_nil_of_length_eq_zero ((length_padded c).trans hn)
    have hneg : ¬(0 : ℤ) < (c.1 : ℤ) := by omega
    simp only [HttpHeader.addContent, if_neg hneg, ← HttpHeader.terminated_data]
    rw [hterm, hnone, List.append_nil]
  · have hle := HttpHeader.length_read_le c.2 c.1
    have hzeros : h.bytes ++ [0] ++ List.replicate c.1 0 = h.bytes ++ List.replicate (c.1 + 1) 0 := by
      rw [List.append_assoc, List.replicate_succ]
      rfl
    have hsplit : c.1 + 1 - (delivered c).length = c.1 - (delivered c).length + 1 := by
      have : (delivered c).length ≤ c.1 := hle
      omega
    rw [HttpHeader.addContent_filled h c.2 hn, HttpHeader.filled_data, hterm, hzeros,
      List.drop_length_add_append, List.drop_replicate]
    change h.bytes ++ delivered c ++ List.replicate (c.1 + 1 - (delivered c).length) 0 = _
    rw [hsplit, List.replicate_succ', padded]
    simp only [List.append_assoc]

theorem addAll_bytes {h : HttpHeader} (hterm : Terminated h) (cs : List (ℕ × StringStream)) :
    (addAll h cs).bytes = h.bytes ++ cs.flatMap padded := by
  induction cs generalizing h with
  | nil => simp [addAll]
  | cons c cs ih =>
    have hcontent := addContent_padded hterm c
    have hbytes : (h.addContent c.1 c.2).1.bytes = h.bytes ++ padded c := by
      rw [HttpHeader.bytes, hcontent, List.dropLast_concat]
    have hterm' : Terminated (h.addContent c.1 c.2).1 := by
      rw [Terminated, HttpHeader.terminated_data, hbytes, hcontent]
      simp
    change (addAll (h.addContent c.1 c.2).1 cs).bytes = _
    rw [ih hterm', hbytes, List.flatMap_cons, List.append_assoc]

end Streams

/-- The content is what the streams delivered and its size is their sum if and only if every stream has the
bytes it is asked for and all of them together are fewer than `2 ^ 31`. -/
theorem content_received_iff (cs : List (ℕ × StringStream)) :
    ((addAll .new cs).bytes = cs.flatMap delivered ∧
      (addAll .new cs).getContentSize = ((cs.map fun c => min c.1 (available c.2)).sum : ℕ)) ↔
    (∀ c ∈ cs, c.1 ≤ available c.2) ∧ (cs.map Prod.fst).sum < 2 ^ 31 := by
  have hbytes : (addAll .new cs).bytes = cs.flatMap padded := addAll_bytes terminated_new cs
  have hlength : (cs.flatMap padded).length = (cs.map Prod.fst).sum := by
    simp only [List.length_flatMap, length_padded]
  have hdelivered : (cs.flatMap delivered).length = (cs.map fun c => min c.1 (available c.2)).sum := by
    simp only [List.length_flatMap, length_delivered]
  rw [getContentSize_eq, hbytes, hlength]
  constructor
  · rintro ⟨hsame, hsize⟩
    have hsum := congrArg List.length hsame
    rw [hlength, hdelivered] at hsum
    refine ⟨fun c hc => ?_, ?_⟩
    · by_contra hshort
      have hlt := List.sum_lt_sum (l := cs) (fun c => min c.1 (available c.2)) Prod.fst
        (fun c _ => Nat.min_le_left _ _) ⟨c, hc, by omega⟩
      omega
    · have := toInt32_lt (cs.map Prod.fst).sum
      rw [hsize, ← hsum] at this
      omega
  · rintro ⟨henough, hlt⟩
    have hnone : ∀ c ∈ cs, padded c = delivered c := by
      intro c hc
      have hall : (delivered c).length = c.1 := by
        rw [length_delivered]
        exact Nat.min_eq_left (henough c hc)
      rw [padded, hall, Nat.sub_self, List.replicate_zero, List.append_nil]
    have hsums : (cs.map fun c => min c.1 (available c.2)) = cs.map Prod.fst :=
      List.map_congr_left fun c hc => Nat.min_eq_left (henough c hc)
    refine ⟨List.flatMap_congr hnone, ?_⟩
    rw [hsums, toInt32_of_lt hlt]

/-- A stream that ends after one of the four bytes leaves three zeros in the content. -/
theorem content_padded_with_zeros :
    (addAll .new [(4, streamOf (ascii "x"))]).bytes = [120, 0, 0, 0] ∧
      ¬((addAll .new [(4, streamOf (ascii "x"))]).bytes = [(4, streamOf (ascii "x"))].flatMap delivered ∧
        (addAll .new [(4, streamOf (ascii "x"))]).getContentSize =
          (([(4, streamOf (ascii "x"))].map fun c => min c.1 (available c.2)).sum : ℕ)) := by
  decide +kernel

end Dcl.Http
