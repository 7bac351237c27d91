import Dcl.Http.Content
import Dcl.Strutils.Numerals

/-! # Sequences of content calls against their documentation

The documentation (`include/dcl/http_header.h`) says that `set_content` initialises the content and
`add_content` appends to it, and every call stores a `Content-Length`. `documented` is that reading.
The code inserts in front of an existing content instead of replacing it, throws when it is given
2^31 - 1 bytes to set, leaves the header alone when it appends an empty stream and stores `0` when it
appends zero bytes to whatever is there. `agrees_when` says after which call sequences header and content
are as documented: for strings and streams whose size is an `int` the condition is exact. -/
namespace Dcl.Http
set_option autoImplicit false

inductive Call where
  | setString (value : Bytes)
  | setBuffer (size : ℤ) (value : Bytes)
  | addSized (size : ℤ) (value : StringStream)
  | addStream (value : StringStream)

namespace Call

/-- The sizes given are non-negative `int`s, and buffers and streams hold the bytes asked for. -/
def Valid : Call → Prop
  | .setString _ => True
  | .setBuffer n v => 0 ≤ n ∧ n < 2 ^ 31 ∧ n ≤ v.length
  | .addSized n s => 0 ≤ n ∧ n < 2 ^ 31 ∧ s.good = true ∧ n ≤ s.rest.length
  | .addStream s => s.good = true

/-- `none` when the call throws. -/
def apply (h : HttpHeader) : Call → Option HttpHeader
  | .setString v => h.setContentString v
  | .setBuffer n v => h.setContent n v
  | .addSized n s => some (h.addContent n s).1
  | .addStream s => some (h.addStream s).1

/-- What a call that does not throw leaves. -/
def store (h : HttpHeader) : Call → HttpHeader
  | .setString v => h.storeContent (toInt32 v.length) v
  | .setBuffer n v => h.storeContent n v
  | .addSized n s => (h.addContent n s).1
  | .addStream s => (h.addStream s).1

def payload : Call → Bytes
  | .setString v => v
  | .setBuffer n v => v.take n.toNat
  | .addSized n s => s.rest.take n.toNat
  | .addStream s => s.rest

/-- A valid call whose size is found by the callee fits the `int` in which it is passed on. -/
def Sized (c : Call) : Prop := c.Valid ∧ c.payload.length < 2 ^ 31

def isSet : Call → Bool
  | .setString _ => true
  | .setBuffer _ _ => true
  | _ => false

/-- `add_content(value)` on a stream with nothing left. -/
def idle : Call → Bool
  | .addStream s => s.rest.isEmpty
  | _ => false

def isZero : Call → Bool
  | .addSized n _ => n == 0
  | _ => false

end Call

def applyAll (h : HttpHeader) (cs : List Call) : Option HttpHeader := cs.foldlM Call.apply h

def storeAll (h : HttpHeader) (cs : List Call) : HttpHeader := cs.foldl Call.store h

/-- The content after the calls, read off the documentation. -/
def documented (content : Bytes) (cs : List Call) : Bytes :=
  cs.foldl (fun b c => if c.isSet then c.payload else b ++ c.payload) content

/-- No call throws, and header and content are as documented after the last one. -/
def Agrees (h : HttpHeader) (cs : List Call) : Prop :=
  ∃ r ∈ applyAll h cs, r.getHeader contentLength = toStringInt r.getContentSize ∧ r.bytes = documented h.bytes cs

def effective (cs : List Call) : List Call := cs.filter fun c => !c.idle

/-- No string and no stream has more bytes than an `int` can say. -/
def Fits (cs : List Call) : Prop := ∀ c ∈ cs, c.payload.length < 2 ^ 31

/-- No call sets the one size for which `reserve` throws. -/
def Reserves (cs : List Call) : Prop := ∀ c ∈ cs, c.isSet = true → c.payload.length + 1 ≠ 2 ^ 31

/-- `set_content` is only ever the first call that touches an object without content. -/
structure SetsFirst (h : HttpHeader) (cs : List Call) : Prop where
  first : ∀ c ∈ (effective cs).tail, c.isSet = false
  clean : ∀ c ∈ effective cs, c.isSet = true → h.content = []

/-- The last call that touches the object leaves the right header: it does not append zero bytes to
a content, and if there is no such call the header was right before. -/
structure HeaderKept (h : HttpHeader) (cs : List Call) : Prop where
  zero : ∀ c, (effective cs).getLast? = some c → c.isZero = true →
    (documented h.bytes cs).length % 2 ^ 32 = 0
  none : effective cs = [] → h.getHeader contentLength = toStringInt h.getContentSize

/-! ## One call -/

theorem getContentSize_eq (h : HttpHeader) : h.getContentSize = toInt32 h.bytes.length := by
  unfold HttpHeader.getContentSize HttpHeader.bytes
  rw [List.length_dropLast]
  split
  · rename_i he
    have : h.content = [] := by simpa using he
    rw [this]
    rfl
  · rfl

theorem store_set (h : HttpHeader) {c : Call} (hv : c.Sized) (hs : c.isSet = true) :
    c.store h = { h with content := c.payload ++ h.content ++ [0],
                         headers := h.headers.set contentLength (toStringInt c.payload.length) } := by
  have key : ∀ (n : ℕ) (v : Bytes), n ≤ v.length → h.storeContent n v =
      { h with content := v.take n ++ h.content ++ [0],
               headers := h.headers.set contentLength (toStringInt (v.take n).length) } := by
    intro n v hn
    have hlen : (v.take n).length = n := by simp [hn]
    rw [HttpHeader.storeContent, hlen]
    by_cases hz : 0 < (n : ℤ)
    · simp only [if_pos hz, Int.toNat_natCast]
    · have h0 : n = 0 := by omega
      subst h0
      simp
  cases c with
  | setString v =>
    have hlen : toInt32 v.length = v.length := toInt32_of_lt hv.2
    have := key v.length v (le_refl _)
    simpa [Call.store, hlen, Call.payload] using this
  | setBuffer n v =>
    obtain ⟨h0, _, hn⟩ := hv.1
    have := key n.toNat v (by omega)
    rw [Int.toNat_of_nonneg h0] at this
    simpa [Call.store, Call.payload] using this
  | addSized n s => simp [Call.isSet] at hs
  | addStream s => simp [Call.isSet] at hs

theorem store_idle (h : HttpHeader) {c : Call} (hv : c.Valid) (hi : c.idle = true) :
    c.store h = h ∧ c.payload = [] ∧ c.isSet = false := by
  cases c with
  | addStream s =>
    have hr : s.rest = [] := by simpa [Call.idle] using hi
    refine ⟨?_, hr, rfl⟩
    simp [Call.store, HttpHeader.addStream_good h s hv, hr, toSize]
  | setString v => simp [Call.idle] at hi
  | setBuffer n v => simp [Call.idle] at hi
  | addSized n s => simp [Call.idle] at hi

theorem store_zero (h : HttpHeader) {c : Call} (hz : c.isZero = true) :
    c.store h = { h with content := if h.content.isEmpty then [0] else h.content,
                         headers := h.headers.set contentLength (ascii "0") } ∧
      c.payload = [] ∧ c.isSet = false ∧ c.idle = false := by
  cases c with
  | addSized n s =>
    have h0 : n = 0 := by simpa [Call.isZero] using hz
    subst h0
    exact ⟨by simp [Call.store, HttpHeader.addContent], by simp [Call.payload], rfl, rfl⟩
  | setString v => simp [Call.isZero] at hz
  | setBuffer n v => simp [Call.isZero] at hz
  | addStream s => simp [Call.isZero] at hz

theorem store_append (h : HttpHeader) {c : Call} (hv : c.Sized) (hs : c.isSet = false)
    (hi : c.idle = false) (hz : c.isZero = false) :
    c.store h = { h with content := h.bytes ++ c.payload ++ [0],
                         headers := h.headers.set contentLength
                           (toStringInt (toInt32 (h.bytes ++ c.payload).length)) } := by
  have key : ∀ (n : ℕ) (s : StringStream), 0 < n → s.good = true → n ≤ s.rest.length →
      (h.addContent n s).1 = { h with content := h.bytes ++ s.rest.take n ++ [0],
                                      headers := h.headers.set contentLength
                                        (toStringInt (toInt32 (h.bytes ++ s.rest.take n).length)) } := by
    intro n s hn hg hr
    rw [HttpHeader.addContent_pos h n hn s hg hr, List.length_append, List.length_take,
      Nat.min_eq_left hr, Nat.cast_add]
  cases c with
  | addSized n s =>
    obtain ⟨h0, _, hg, hn⟩ := hv.1
    have hne : n ≠ 0 := by simpa [Call.isZero] using hz
    have := key n.toNat s (by omega) hg (by omega)
    rw [Int.toNat_of_nonneg h0] at this
    simpa [Call.store, Call.payload] using this
  | addStream s =>
    have hg : s.good = true := hv.1
    have hlt : s.rest.length < 2 ^ 31 := hv.2
    have hne : s.rest ≠ [] := by simpa [Call.idle] using hi
    have hpos : 0 < s.rest.length := List.length_pos_iff.mpr hne
    have hsize : toSize s.rest.length = s.rest.length := toSize_of_lt (by omega)
    have := key s.rest.length s hpos hg (le_refl _)
    rw [List.take_length] at this
    rw [Call.store, HttpHeader.addStream_good h s hg, hsize, if_neg (by omega), toInt32_of_lt hlt]
    exact this
  | setString v => simp [Call.isSet] at hs
  | setBuffer n v => simp [Call.isSet] at hs

/-! ## Sequences of calls, one call at a time from the right -/

theorem storeAll_snoc (h : HttpHeader) (cs : List Call) (c : Call) :
    storeAll h (cs ++ [c]) = c.store (storeAll h cs) := by
  simp [storeAll, List.foldl_append]

theorem documented_snoc (b : Bytes) (cs : List Call) (c : Call) :
    documented b (cs ++ [c]) =
      if c.isSet then c.payload else documented b cs ++ c.payload := by
  simp [documented, List.foldl_append]

theorem effective_snoc (cs : List Call) (c : Call) :
    effective (cs ++ [c]) = if c.idle then effective cs else effective cs ++ [c] := by
  cases h : c.idle <;> simp [effective, List.filter_append, h]

theorem setsFirst_snoc_set {h : HttpHeader} {cs : List Call} {c : Call} (hs : c.isSet = true)
    (hi : c.idle = false) : SetsFirst h (cs ++ [c]) ↔ h.content = [] ∧ effective cs = [] := by
  have he : effective (cs ++ [c]) = effective cs ++ [c] := by simp [effective_snoc, hi]
  constructor
  · rintro ⟨first, clean⟩
    refine ⟨clean c (by simp [he]) hs, ?_⟩
    by_contra hne
    have hmem : c ∈ (effective (cs ++ [c])).tail := by
      rw [he, List.tail_append_of_ne_nil hne]
      simp
    rw [first c hmem] at hs
    exact Bool.false_ne_true hs
  · rintro ⟨hc, hnil⟩
    refine ⟨?_, fun _ _ _ => hc⟩
    intro d hd
    simp [he, hnil] at hd

theorem setsFirst_snoc_add {h : HttpHeader} {cs : List Call} {c : Call} (hs : c.isSet = false) :
    SetsFirst h (cs ++ [c]) ↔ SetsFirst h cs := by
  cases hi : c.idle
  · have he : effective (cs ++ [c]) = effective cs ++ [c] := by simp [effective_snoc, hi]
    constructor
    · rintro ⟨first, clean⟩
      refine ⟨fun d hd => first d ?_, fun d hd => clean d (by simp [he, hd])⟩
      have hne : effective cs ≠ [] := fun h0 => by simp [h0] at hd
      rw [he, List.tail_append_of_ne_nil hne]
      exact List.mem_append_left _ hd
    · rintro ⟨first, clean⟩
      refine ⟨fun d hd => ?_, fun d hd hset => ?_⟩
      · rw [he] at hd
        obtain hm | hm := List.mem_append.mp (List.mem_of_mem_tail hd)
        · by_cases hne : effective cs = []
          · simp [hne] at hm
          · rw [List.tail_append_of_ne_nil hne] at hd
            obtain hd | hd := List.mem_append.mp hd
            · exact first d hd
            · rw [List.mem_singleton.mp hd, hs]
        · rw [List.mem_singleton.mp hm, hs]
      · rw [he] at hd
        obtain hd | hd := List.mem_append.mp hd
        · exact clean d hd hset
        · rw [List.mem_singleton.mp hd, hs] at hset
          exact absurd hset Bool.false_ne_true
  · have he : effective (cs ++ [c]) = effective cs := by simp [effective_snoc, hi]
    constructor
    · rintro ⟨first, clean⟩
      rw [he] at first clean
      exact ⟨first, clean⟩
    · rintro ⟨first, clean⟩
      rw [← he] at first clean
      exact ⟨first, clean⟩

theorem isSet_not_idle {c : Call} (h : c.isSet = true) : c.idle = false := by
  cases c <;> first | rfl | simp [Call.isSet] at h

/-- The vector is empty as long as nothing touched an empty one. -/
theorem content_eq_nil (h : HttpHeader) (cs : List Call) (hv : ∀ c ∈ cs, c.Sized) :
    (storeAll h cs).content = [] ↔ h.content = [] ∧ effective cs = [] := by
  induction cs using List.reverseRecOn with
  | nil => simp [storeAll, effective]
  | append_singleton cs c ih =>
    have hc : c.Sized := hv c (by simp)
    rw [storeAll_snoc, effective_snoc]
    cases hi : c.idle
    · cases hs : c.isSet
      · cases hz : c.isZero
        · rw [store_append _ hc hs hi hz]
          simp
        · rw [(store_zero _ hz).1]
          by_cases he : (storeAll h cs).content = [] <;> simp [he]
      · rw [store_set _ hc hs]
        simp
    · rw [(store_idle _ hc.1 hi).1]
      simpa using ih fun d hd => hv d (by simp [hd])

/-- The content is as documented when `set_content` only comes first; otherwise it is longer. -/
theorem content_documented (h : HttpHeader) (cs : List Call) (hv : ∀ c ∈ cs, c.Sized) :
    (SetsFirst h cs → (storeAll h cs).bytes = documented h.bytes cs) ∧
      (¬ SetsFirst h cs → (documented h.bytes cs).length < (storeAll h cs).bytes.length) := by
  induction cs using List.reverseRecOn with
  | nil =>
    have hfirst : SetsFirst h [] := ⟨by simp [effective], by simp [effective]⟩
    exact ⟨fun _ => rfl, fun hn => absurd hfirst hn⟩
  | append_singleton cs c ih =>
    have hc : c.Sized := hv c (by simp)
    have hcs : ∀ d ∈ cs, d.Sized := fun d hd => hv d (by simp [hd])
    rw [storeAll_snoc, documented_snoc]
    cases hs : c.isSet
    · -- appending adds the same bytes to the vector and to the documented content
      have hbytes : (c.store (storeAll h cs)).bytes = (storeAll h cs).bytes ++ c.payload := by
        cases hi : c.idle
        · cases hz : c.isZero
          · rw [store_append _ hc hs hi hz]
            simp [HttpHeader.bytes]
          · rw [(store_zero _ hz).1, (store_zero h hz).2.1]
            by_cases he : (storeAll h cs).content = [] <;> simp [HttpHeader.bytes, he]
        · rw [(store_idle _ hc.1 hi).1, (store_idle h hc.1 hi).2.1, List.append_nil]
      rw [setsFirst_snoc_add hs, hbytes, if_neg Bool.false_ne_true]
      refine ⟨fun hf => by rw [(ih hcs).1 hf], fun hf => ?_⟩
      have := (ih hcs).2 hf
      simp only [List.length_append]
      omega
    · have hbytes : (c.store (storeAll h cs)).bytes = c.payload ++ (storeAll h cs).content := by
        rw [store_set _ hc hs]
        simp [HttpHeader.bytes]
      rw [setsFirst_snoc_set hs (isSet_not_idle hs), hbytes, if_pos rfl, ← content_eq_nil h cs hcs]
      refine ⟨fun he => by rw [he, List.append_nil], fun hne => ?_⟩
      have := List.length_pos_iff.mpr hne
      simp only [List.length_append]
      omega

theorem headerKept_snoc {h : HttpHeader} {cs : List Call} {c : Call} (hi : c.idle = false) :
    HeaderKept h (cs ++ [c]) ↔ (c.isZero = true → (documented h.bytes (cs ++ [c])).length % 2 ^ 32 = 0) := by
  have he : effective (cs ++ [c]) = effective cs ++ [c] := by simp [effective_snoc, hi]
  have hlast : (effective (cs ++ [c])).getLast? = some c := by simp [he]
  refine ⟨fun hk => hk.zero c hlast, fun hz => ⟨fun d hd => ?_, fun hnil => ?_⟩⟩
  · rw [hlast, Option.some.injEq] at hd
    rw [← hd]
    exact hz
  · simp [he] at hnil

theorem headerKept_snoc_idle {h : HttpHeader} {cs : List Call} {c : Call} (hv : c.Valid) (hi : c.idle = true) :
    HeaderKept h (cs ++ [c]) ↔ HeaderKept h cs := by
  obtain ⟨-, hpay, hs⟩ := store_idle h hv hi
  have he : effective (cs ++ [c]) = effective cs := by simp [effective_snoc, hi]
  have hd : documented h.bytes (cs ++ [c]) = documented h.bytes cs := by simp [documented_snoc, hs, hpay]
  constructor
  · rintro ⟨zero, none⟩
    rw [he, hd] at zero
    rw [he] at none
    exact ⟨zero, none⟩
  · rintro ⟨zero, none⟩
    rw [← he, ← hd] at zero
    rw [← he] at none
    exact ⟨zero, none⟩

/-- When the content is as documented, the header is right exactly when `HeaderKept` says so. -/
theorem header_agrees (h : HttpHeader) (cs : List Call) (hv : ∀ c ∈ cs, c.Sized)
    (hf : SetsFirst h cs) :
    (storeAll h cs).getHeader contentLength = toStringInt (storeAll h cs).getContentSize ↔
      HeaderKept h cs := by
  induction cs using List.reverseRecOn with
  | nil => exact ⟨fun hh => ⟨by simp [effective], fun _ => hh⟩, fun hk => hk.none rfl⟩
  | append_singleton cs c ih =>
    have hc : c.Sized := hv c (by simp)
    have hcs : ∀ d ∈ cs, d.Sized := fun d hd => hv d (by simp [hd])
    rw [storeAll_snoc]
    cases hi : c.idle
    · rw [headerKept_snoc hi, getContentSize_eq]
      cases hz : c.isZero
      · -- the call stores the size of the content it leaves
        refine iff_of_true ?_ fun h0 => absurd h0 Bool.false_ne_true
        cases hs : c.isSet
        · rw [store_append _ hc hs hi hz, HttpHeader.getHeader_set]
          simp [HttpHeader.bytes]
        · have hnil : (storeAll h cs).content = [] := by
            rw [content_eq_nil h cs hcs]
            exact (setsFirst_snoc_set hs hi).mp hf
          rw [store_set _ hc hs, HttpHeader.getHeader_set]
          simp [HttpHeader.bytes, hnil, toInt32_of_lt hc.2]
      · have happ := (store_zero (storeAll h cs) hz).1
        have hsame : (c.store (storeAll h cs)).bytes = documented h.bytes (cs ++ [c]) := by
          rw [← storeAll_snoc]
          exact (content_documented h _ hv).1 hf
        rw [hsame, happ, HttpHeader.getHeader_set, ← toInt32_eq_zero_iff]
        refine ⟨fun hh _ => toStringInt_eq_zero hh.symm, fun hk => ?_⟩
        rw [hk rfl]
        rfl
    · obtain ⟨hid, -, hs⟩ := store_idle (storeAll h cs) hc.1 hi
      rw [headerKept_snoc_idle hc.1 hi, hid]
      exact ih hcs ((setsFirst_snoc_add hs).mp hf)

/-! ## Calls that do not throw -/

theorem apply_eq (h : HttpHeader) {c : Call} (hv : c.Valid) (hfits : c.payload.length < 2 ^ 31) :
    c.apply h = if c.isSet = true ∧ c.payload.length + 1 = 2 ^ 31 then none else some (c.store h) := by
  have key : ∀ {size : ℤ} (v : Bytes), size = c.payload.length → c.isSet = true → h.setContent size v =
      if c.isSet = true ∧ c.payload.length + 1 = 2 ^ 31 then none else some (h.storeContent size v) := by
    intro size v hsize hset
    rw [HttpHeader.setContent_eq h (by omega) v]
    refine if_congr ?_ rfl rfl
    simp only [hset, hsize, true_and]
    omega
  cases c with
  | setString v =>
    rw [Call.apply, HttpHeader.setContentString]
    exact key v (toInt32_of_lt hfits) rfl
  | setBuffer n v =>
    obtain ⟨h0, _, hn⟩ := hv
    refine key v ?_ rfl
    rw [Call.payload, List.length_take]
    omega
  | addSized n s => rfl
  | addStream s => rfl

theorem applyAll_eq (h : HttpHeader) {cs : List Call} (hv : ∀ c ∈ cs, c.Sized) :
    (Reserves cs → applyAll h cs = some (storeAll h cs)) ∧ (¬Reserves cs → applyAll h cs = none) := by
  induction cs generalizing h with
  | nil => exact ⟨fun _ => rfl, fun hn => absurd (List.forall_mem_nil _) hn⟩
  | cons c cs ih =>
    obtain ⟨hc, hcs⟩ := List.forall_mem_cons.mp hv
    rw [applyAll, List.foldlM_cons, apply_eq h hc.1 hc.2, Reserves, List.forall_mem_cons]
    by_cases hthrows : c.isSet = true ∧ c.payload.length + 1 = 2 ^ 31
    · rw [if_pos hthrows]
      exact ⟨fun hr => absurd hthrows.2 (hr.1 hthrows.1), fun _ => rfl⟩
    · rw [if_neg hthrows]
      refine ⟨fun hr => (ih (c.store h) hcs).1 hr.2, fun hn => (ih (c.store h) hcs).2 fun hr => ?_⟩
      exact hn ⟨fun hset hlen => hthrows ⟨hset, hlen⟩, hr⟩

/-! ## Which sequences meet the documentation -/

/-- After a sequence of valid calls on any object the stored `Content-Length` is the text of the
content size and the content is as documented when every size fits an `int`, no call sets 2^31 - 1 bytes,
`set_content` is used only as the first call that touches an object without content, and the last call that
touches the object does not append zero bytes to a content. As long as the sizes fit, this is the only way. -/
theorem agrees_when (h : HttpHeader) (cs : List Call) (hv : ∀ c ∈ cs, c.Valid) :
    (Fits cs ∧ Reserves cs ∧ SetsFirst h cs ∧ HeaderKept h cs → Agrees h cs) ∧
      (Fits cs → Agrees h cs → Reserves cs ∧ SetsFirst h cs ∧ HeaderKept h cs) := by
  constructor
  · rintro ⟨hfit, hr, hf, hk⟩
    have hsized : ∀ c ∈ cs, c.Sized := fun c hc => ⟨hv c hc, hfit c hc⟩
    exact ⟨storeAll h cs, (applyAll_eq h hsized).1 hr, (header_agrees h cs hsized hf).mpr hk,
      (content_documented h cs hsized).1 hf⟩
  · rintro hfit ⟨r, hall, hheader, hbytes⟩
    have hsized : ∀ c ∈ cs, c.Sized := fun c hc => ⟨hv c hc, hfit c hc⟩
    have hr : Reserves cs := by
      by_contra hn
      rw [(applyAll_eq h hsized).2 hn] at hall
      cases hall
    rw [(applyAll_eq h hsized).1 hr] at hall
    obtain rfl := Option.some.inj hall
    have hf : SetsFirst h cs := by
      by_contra hn
      have := (content_documented h cs hsized).2 hn
      rw [hbytes] at this
      omega
    exact ⟨hr, hf, (header_agrees h cs hsized hf).mp hheader⟩

instance : (c : Call) → Decidable c.Valid
  | .setString _ => inferInstanceAs (Decidable True)
  | .setBuffer _ _ => inferInstanceAs (Decidable (_ ∧ _))
  | .addSized _ _ => inferInstanceAs (Decidable (_ ∧ _))
  | .addStream _ => inferInstanceAs (Decidable (_ = _))

instance (cs : List Call) : Decidable (Fits cs) :=
  inferInstanceAs (Decidable (∀ c ∈ cs, c.payload.length < 2 ^ 31))

instance (cs : List Call) : Decidable (Reserves cs) :=
  inferInstanceAs (Decidable (∀ c ∈ cs, c.isSet = true → c.payload.length + 1 ≠ 2 ^ 31))

instance (h : HttpHeader) (cs : List Call) : Decidable (Agrees h cs) :=
  inferInstanceAs (Decidable (∃ r ∈ applyAll h cs, _ ∧ _))

def streamOf (b : Bytes) : StringStream := StringStream.empty.insert b

theorem agrees_after_set_and_add :
    Agrees .new [.setString (ascii "ab"), .addSized 1 (streamOf (ascii "cd"))] := by
  refine (agrees_when .new [.setString (ascii "ab"), .addSized 1 (streamOf (ascii "cd"))]
    (by decide)).1 ⟨by decide, by decide, ⟨by decide, by decide⟩, ⟨?_, fun h => absurd h (by decide)⟩⟩
  intro c hc hz
  cases hc
  exact absurd hz (by decide)

/-- Setting the content a second time leaves the first one behind it. -/
theorem set_content_twice_disagrees :
    (∀ c ∈ [Call.setString (ascii "a"), Call.setString (ascii "b")], c.Valid) ∧
      ¬ Agrees .new [.setString (ascii "a"), .setString (ascii "b")] := by
  decide

end Dcl.Http
