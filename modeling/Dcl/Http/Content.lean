import Dcl.Http.Header
import Mathlib.Data.List.Induction

/-! # The content of an HTTP message

`http_header::set_content` and `add_content` (`src/dcl/http_header.cpp`, lines 326 to 365). The
content is a vector of bytes that ends in a NUL once something was stored; `bytes` is what the
documentation calls the content. Every operation also writes the `Content-Length` header, and the
second half of the module says after which sequences of calls that header and the content are what
the documentation promises. -/
namespace Dcl.Http
set_option autoImplicit false

def contentLength : Bytes := ascii "Content-Length"

namespace HttpHeader

def bytes (h : HttpHeader) : Bytes := h.content.dropLast

/-- What `set_content(value_size, value)` stores: the bytes are inserted in front of what is there. -/
def storeContent (h : HttpHeader) (size : ℤ) (value : Bytes) : HttpHeader :=
  { h with
    content := (if 0 < size then value.take size.toNat ++ h.content else h.content) ++ [0]
    headers := h.headers.set contentLength (toStringInt size) }

/-- `set_content(value_size, value)`. `reserve` gets the `int` sum `value_size + 1`: where it wraps around to a
negative number, no vector is that long and `length_error` is thrown before anything is stored (`none`). -/
def setContent (h : HttpHeader) (size : ℤ) (value : Bytes) : Option HttpHeader :=
  if 0 < size ∧ toInt32 (size + 1) < 0 then none else some (h.storeContent size value)

def setContentString (h : HttpHeader) (value : Bytes) : Option HttpHeader :=
  h.setContent (toInt32 value.length) value

/-- The vector after `bs` was copied over its elements from `pos` on. -/
def overwrite (v : Bytes) (pos : ℕ) (bs : Bytes) : Bytes :=
  v.take pos ++ bs ++ v.drop (pos + bs.length)

/-- `add_content(value_size, value)`. The last assignment of the source, to the element behind the
resized vector, changes no element of it. -/
def addContent (h : HttpHeader) (size : ℤ) (value : StringStream) : HttpHeader × StringStream :=
  let content := if h.content.isEmpty then [0] else h.content
  let oldsize := content.length
  if 0 < size then
    let r := value.read size.toNat
    let resized := content ++ List.replicate size.toNat 0
    ({ h with
        content := (overwrite resized (oldsize - 1) r.1).set (oldsize + size.toNat) 0
        headers := h.headers.set contentLength (toStringInt (toInt32 (oldsize + size - 1))) }, r.2)
  else
    ({ h with content := content, headers := h.headers.set contentLength (ascii "0") }, value)

/-- `add_content(value)`: the size is found by seeking to the end of the stream. -/
def addStream (h : HttpHeader) (value : StringStream) : HttpHeader × StringStream :=
  let pos := value.tellg
  let last := pos.2.seekgEnd.tellg
  let size := toSize (last.1 - pos.1)
  let value := last.2.seekg pos.1
  if size = 0 then (h, value.setEof) else h.addContent (toInt32 size) value

/-! ## What one call does -/

theorem getHeader_set (m : HttpHeaders) (cookies : List HttpCookie) (content version k v : Bytes) :
    (⟨m.set k v, cookies, content, version⟩ : HttpHeader).getHeader k = v := by
  simp [getHeader, OrderedMap.find_set]

/-- The one size that `reserve` refuses. -/
theorem setContent_eq (h : HttpHeader) {size : ℤ} (hsize : size < 2 ^ 31) (value : Bytes) :
    h.setContent size value = if size + 1 = 2 ^ 31 then none else some (h.storeContent size value) := by
  have hwrap : (0 < size ∧ toInt32 (size + 1) < 0) ↔ size + 1 = 2 ^ 31 := by
    unfold toInt32
    rw [Int.bmod_def]
    omega
  rw [setContent]
  exact if_congr hwrap rfl rfl

theorem setContentString_eq (h : HttpHeader) (value : Bytes) :
    h.setContentString value =
      if toInt32 value.length + 1 = 2 ^ 31 then none else some (h.storeContent (toInt32 value.length) value) :=
  h.setContent_eq (toInt32_lt _) value

theorem setContentString_of_lt (h : HttpHeader) {value : Bytes} (hlen : value.length + 1 < 2 ^ 31) :
    h.setContentString value = some (h.storeContent value.length value) := by
  rw [setContentString_eq, toInt32_of_lt (by omega), if_neg (by omega)]

theorem overwrite_resized (c bs : Bytes) (hc : c ≠ []) (hb : bs ≠ []) :
    overwrite (c ++ List.replicate bs.length 0) (c.length - 1) bs = c.dropLast ++ bs ++ [0] := by
  have hlen : 0 < c.length := List.length_pos_iff.mpr hc
  have hpos : 0 < bs.length := List.length_pos_iff.mpr hb
  have htake : (c ++ List.replicate bs.length 0).take (c.length - 1) = c.dropLast := by
    rw [List.take_append_of_le_length (by omega), List.dropLast_eq_take]
  have hdrop : (c ++ List.replicate bs.length (0 : UInt8)).drop (c.length - 1 + bs.length) = [0] := by
    have he : c.length - 1 + bs.length = c.length + (bs.length - 1) := by omega
    have h1 : bs.length - (bs.length - 1) = 1 := by omega
    rw [he, List.drop_length_add_append, List.drop_replicate, h1]
    rfl
  rw [overwrite, htake, hdrop]

/-- `add_content` with a positive size appends the bytes it reads and keeps the terminator last. -/
theorem addContent_pos (h : HttpHeader) (n : ℕ) (hn : 0 < n) (s : StringStream)
    (hg : s.good = true) (hs : n ≤ s.rest.length) :
    h.addContent n s =
      ({ h with
          content := h.bytes ++ s.rest.take n ++ [0]
          headers := h.headers.set contentLength (toStringInt (toInt32 (h.bytes.length + n))) },
        { s with taken := s.taken ++ s.rest.take n, rest := s.rest.drop n }) := by
  set c : Bytes := if h.content.isEmpty then [0] else h.content with hcdef
  have hc : c ≠ [] := by
    rw [hcdef]
    split
    · simp
    · rename_i he
      simpa using he
  have hdrop : c.dropLast = h.bytes := by
    rw [hcdef, bytes]
    split
    · rename_i he
      have : h.content = [] := by simpa using he
      simp [this]
    · rfl
  have hlen : (s.rest.take n).length = n := by simp [hs]
  have hne : s.rest.take n ≠ [] := List.ne_nil_of_length_pos (by omega)
  have hsize : h.bytes.length + 1 = c.length := by
    have := List.length_pos_iff.mpr hc
    rw [← hdrop, List.length_dropLast]
    omega
  have how := overwrite_resized c (s.rest.take n) hc hne
  rw [hlen] at how
  have hz : (0 : ℤ) < (n : ℤ) := by omega
  simp only [addContent, ← hcdef, if_pos hz, Int.toNat_natCast, StringStream.read_good hg hs, how]
  have hset : (c.dropLast ++ s.rest.take n ++ [0]).set (c.length + n) 0 =
      c.dropLast ++ s.rest.take n ++ [0] := by
    apply List.set_eq_of_length_le
    simp only [List.length_append, List.length_dropLast, hlen, List.length_singleton]
    omega
  have hint : (c.length : ℤ) + n - 1 = h.bytes.length + n := by omega
  rw [hset, hdrop, hint]

/-- On a good stream `add_content(value)` finds what is left and leaves the position alone. -/
theorem addStream_good (h : HttpHeader) (s : StringStream) (hg : s.good = true) :
    h.addStream s =
      if toSize s.rest.length = 0 then (h, s.setEof)
      else h.addContent (toInt32 (toSize s.rest.length)) s := by
  obtain ⟨l, r, rfl⟩ : ∃ l r, s = .cut l r := ⟨_, _, StringStream.eq_cut hg⟩
  have hback : (StringStream.cut (l ++ r) []).seekg l.length = .cut l r :=
    StringStream.seekg_cut (by simp)
  have hdiff : (((l ++ r).length : ℤ) - l.length) = r.length := by
    simp
  simp only [addStream, StringStream.tellg_cut, StringStream.seekgEnd_cut, hdiff, hback]
  rfl

end HttpHeader

end Dcl.Http
