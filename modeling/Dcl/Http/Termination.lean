import Dcl.Http.ProcessData

/-! # When `http_server::process_data` comes to an end

The one way to stay in the loop for ever is a body whose size is not positive as an `int`: `Frame.Stuck`.
No pass adds to what is unread in the buffer, so a buffer of less than `2 ^ 31` bytes never gets there. -/
namespace Dcl.Http
set_option autoImplicit false

/-! ## What is unread never grows -/

theorem HttpHeader.addContent_rest_le (h : HttpHeader) (size : ℤ) (s : StringStream) :
    (h.addContent size s).2.rest.length ≤ s.rest.length := by
  unfold HttpHeader.addContent
  simp only
  split
  · exact StringStream.read_rest_le s size.toNat
  · rfl

/-- The position that `add_content` comes back to is the one it started from. -/
theorem HttpHeader.addStream_rest_le (h : HttpHeader) (s : StringStream) :
    (h.addStream s).2.rest.length ≤ s.rest.length := by
  cases hg : s.good with
  | true =>
    rw [HttpHeader.addStream_good h s hg]
    split
    · rfl
    · exact HttpHeader.addContent_rest_le _ _ _
  | false =>
    -- `tellg` has set failbit, so neither seek moves
    have hz : toSize (-1 - -1) = 0 := rfl
    have hend : s.setFail.seekgEnd = { s.setFail with eofbit := false } :=
      StringStream.seekg_failed rfl _
    have hfail : ({ s.setFail with eofbit := false } : StringStream).good = false := by
      simp [StringStream.good, StringStream.setFail]
    simp only [HttpHeader.addStream, StringStream.tellg_not_good hg, hend,
      StringStream.tellg_not_good hfail, hz, if_true, StringStream.setEof]
    rw [StringStream.seekg_failed rfl]
    rfl

section Pass
variable {pf : Platform} {on : OnRequest}

theorem getline_after_tellg_rest_le {s : StringStream} (he : s.tellg.2.getline.2.eofbit = false) :
    s.tellg.2.getline.2.rest.length ≤ s.rest.length := by
  have hle := StringStream.getline_rest_le _ he
  rwa [StringStream.tellg_rest] at hle

theorem endOfHeaders_inp {f g : Frame} (h : endOfHeaders f = .inl g) : g.inp = f.inp := by
  unfold endOfHeaders at h
  simp only at h
  split at h
  · cases h
    rfl
  · split at h
    · cases h
      rfl
    · cases h

theorem pass_rest_le (f g : Frame) (h : pass pf on f = .inl g) :
    g.inp.rest.length ≤ f.inp.rest.length := by
  unfold pass at h
  split at h
  · -- the command line
    unfold waitCommand at h
    simp only at h
    split at h
    · cases h
    next he =>
      cases h
      exact getline_after_tellg_rest_le (by simpa using he)
  · -- a header line
    unfold waitHeader at h
    simp only at h
    split at h
    · cases h
    next he =>
      split at h
      · rw [endOfHeaders_inp h]
        exact getline_after_tellg_rest_le (by simpa using he)
      · cases h
        exact getline_after_tellg_rest_le (by simpa using he)
  · -- the body
    unfold receivingData at h
    simp only at h
    split at h
    · split at h
      · cases h
      · cases h
        have hle := HttpHeader.addStream_rest_le f.rq.req.toHttpHeader f.inp.tellg.2
        simp only [StringStream.tellg_rest] at hle ⊢
        exact hle
    · cases h
      rfl
  · -- the handler
    unfold processRequest at h
    split at h
    · cases h
    · cases h
      rfl
  · cases h

/-! ## The call returns -/

theorem Frame.Stuck.large {f : Frame} (h : f.Stuck) : 2 ^ 31 ≤ f.inp.rest.length := by
  have hsome := h.some
  have hsize := h.size
  by_contra hlt
  rw [toSize_of_lt (by omega)] at hsome hsize
  rw [toInt32_of_lt (by omega)] at hsize
  omega

/-- Every call on a buffer of less than `2 ^ 31` bytes returns or throws, whatever request object is
stored for the connection, whatever the state bits are and whatever the handler does. -/
theorem process_returns (pf : Platform) (on : OnRequest) (entry : Option Request) (inp : StringStream)
    (h : inp.data.length < 2 ^ 31) : ∃ served, process pf on entry inp = some served := by
  have hstep : ∀ f g : Frame, f.inp.rest.length < 2 ^ 31 → pass pf on f = .inl g →
      g.inp.rest.length < 2 ^ 31 ∧ g.left < f.left := by
    intro f g hf hpass
    refine ⟨(pass_rest_le f g hpass).trans_lt hf, ?_⟩
    refine (pass_left pf on f g hpass).resolve_left fun hstuck => ?_
    have := hstuck.large
    omega
  have hrest : inp.rest.length < 2 ^ 31 := by
    rw [StringStream.data, List.length_append] at h
    omega
  obtain ⟨r, hr⟩ := Loop.loop_ends hstep (a := ⟨entry.getD .new, inp, [], []⟩) hrest
    (left_lt_enough entry inp)
  exact ⟨.of entry.isSome r, by rw [process, hr]; rfl⟩

end Pass

/-- The body was announced, and none of it is in the buffer: the object is stored again. -/
theorem process_returns_waiting : ∃ served, process ⟨fun _ => 0, fun _ => [], false⟩ (fun _ => none)
    (some ⟨.receivingData, 4, 0, .new⟩) .empty = some served :=
  process_returns _ _ _ _ (by decide)

end Dcl.Http
