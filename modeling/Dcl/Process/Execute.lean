import Dcl.Foundations.InStream
import Dcl.Foundations.Loop
import Dcl.Process.Argv
import Dcl.Strutils.Text

/-! # `process::execute`: what goes through the pipes

`process_impl::execute` of `src/dcl/posix/process_impl.cpp`. The parent writes all input, waits for the child,
and then reads its output and its error output. Input goes out with `fputs` and output comes in with `fgets`,
in pieces of at most 4095 bytes; both handle a piece as a C string.

The child is a parameter: how much of its standard input it takes before it hangs up, and what it writes. A
child that hangs up early ends the parent by `SIGPIPE`, unless the process ignores that signal. The parent does
not read before the child has ended, so a child that writes more than a pipe holds is waited for for ever. A
failing `execv` and read errors of the pipes are left out. -/
namespace Dcl.Process
set_option autoImplicit false

def bufSize : ℕ := 4096

/-! ## The child -/

/-- How many bytes went into the pipe of its standard input before it was closed there, and what a program
leaves behind. -/
structure Child where
  taken : ℕ
  out : Bytes
  err : Bytes
  status : ℕ
  deriving DecidableEq

/-- What becomes of the child: the program it runs gets its arguments and what is written for it. -/
inductive Launch where
  | pipeFailed
  | vforkFailed
  | runs (program : List Bytes → Bytes → Child)

/-! ## The pump -/

/-- The loop that writes the input: the stream, and what was written. -/
def inputPass (s : InStream × Bytes) : InStream × Bytes ⊕ InStream × Bytes :=
  if s.1.good then
    let r := s.1.read (bufSize - 1)
    .inl (r.2, s.2 ++ cString r.1)
  else .inr s

def writeInput (i : InStream) : Option (InStream × Bytes) :=
  Loop.loop inputPass (i.rest.length + 2) (i, [])

/-- A stream of the C library that is read from, at its position. -/
structure CFile where
  rest : Bytes
  feof : Bool
  deriving DecidableEq

/-- The bytes one `fgets` takes: up to a line feed, and at most `n - 1`. -/
def line (n : ℕ) (rest : Bytes) : Bytes :=
  let t := rest.take (n - 1)
  if LF ∈ t then t.takeWhile (· != LF) ++ [LF] else t

def fgets (n : ℕ) (f : CFile) : Option Bytes × CFile :=
  let t := line n f.rest
  let f' : CFile := ⟨f.rest.drop t.length, f.feof || (decide (LF ∉ t) && decide (t.length < n - 1))⟩
  (if t.isEmpty then none else some t, f')

/-- The loops that read the output and the error output. -/
def outputPass (s : CFile × StringStream) : CFile × StringStream ⊕ StringStream :=
  if s.1.feof then .inr s.2
  else
    match fgets bufSize s.1 with
    | (none, _) => .inr s.2
    | (some buffer, f) =>
        let out := s.2.insert (cString buffer)
        if out.good then .inl (f, out) else .inr out

def readOutput (text : Bytes) (out : StringStream) : Option StringStream :=
  Loop.loop outputPass (text.length + 2) (⟨text, false⟩, out)

/-! ## `execute` -/

/-- The streams of a process object; those of `process()` are null. -/
structure ProcessImpl where
  inp : Option InStream
  out : Option StringStream
  err : Option StringStream

/-- The streams afterwards, what the child was given on its standard input, and the result. -/
structure Executed where
  impl : ProcessImpl
  given : Bytes
  result : Except String ℕ

def mainArgs (path args : Bytes) : List Bytes := cString path :: (str2argv args []).map cString

/-- `none` when it never returns: it waits for ever, or `SIGPIPE` ends the process. `capacity` is that of a pipe,
and `ignored` says whether the signal is ignored. -/
def ProcessImpl.execute (capacity : ℕ) (ignored : Bool) (launch : Launch) (p : ProcessImpl) (path args : Bytes) :
    Option Executed :=
  match launch with
  | .pipeFailed => some ⟨p, [], .error "pipe failed"⟩
  | .vforkFailed => some ⟨p, [], .error "vfork failed"⟩
  | .runs program => do
      let (inp, written) ← match p.inp with
        | none => some (none, [])
        | some i => (writeInput i).map fun r => (some r.1, r.2)
      let c := program (mainArgs path args) written
      if (written.length ≤ c.taken ∨ ignored = true) ∧ c.out.length ≤ capacity ∧ c.err.length ≤ capacity then
        let out ← match p.out with
          | none => some none
          | some o => (readOutput c.out o).map some
        let err ← match p.err with
          | none => some none
          | some o => (readOutput c.err o).map some
        some ⟨⟨inp, out, err⟩, written.take c.taken, .ok c.status⟩
      else none

/-! ## What is written and read -/

theorem not_good_exhausted (i : InStream) : ¬i.exhausted.good = true := by
  unfold InStream.exhausted
  split <;> simp [InStream.good]

theorem loop_inputPass {fuel : ℕ} {i : InStream} (hgood : i.good = true) (hf : i.rest.length + 2 ≤ fuel)
    (w : Bytes) : ∃ (i' : InStream) (ps : List Bytes),
      Loop.loop inputPass fuel (i, w) = some (i', w ++ ps.flatMap cString) ∧ ps.flatten = i.rest := by
  induction fuel generalizing i w with
  | zero => omega
  | succ fuel ih =>
    rw [Loop.loop, inputPass, if_pos hgood]
    dsimp only
    by_cases hlen : bufSize - 1 ≤ i.rest.length
    · have hread : i.read (bufSize - 1) =
          (i.rest.take (bufSize - 1), { i with rest := i.rest.drop (bufSize - 1) }) := by
        rw [InStream.read, if_pos hgood, if_pos hlen]
      have hfuel : (i.rest.drop (bufSize - 1)).length + 2 ≤ fuel := by
        rw [List.length_drop]
        simp only [bufSize] at hlen ⊢
        omega
      have hgood' : ({ i with rest := i.rest.drop (bufSize - 1) } : InStream).good = true := hgood
      obtain ⟨i', ps, hps, hflat⟩ := ih hgood' hfuel (w ++ cString (i.rest.take (bufSize - 1)))
      refine ⟨i', i.rest.take (bufSize - 1) :: ps, ?_, ?_⟩
      · rw [hread, hps, List.flatMap_cons, List.append_assoc]
      · rw [List.flatten_cons, hflat, List.take_append_drop]
    · -- the last piece: the stream is not good any more
      have hread : i.read (bufSize - 1) = (i.rest, i.exhausted) := by
        rw [InStream.read, if_pos hgood, if_neg hlen]
      obtain ⟨fuel, rfl⟩ : ∃ k, fuel = k + 1 := ⟨fuel - 1, by omega⟩
      refine ⟨i.exhausted, [i.rest], ?_, List.append_nil i.rest⟩
      rw [hread, Loop.loop, inputPass, if_neg (not_good_exhausted i), List.flatMap_singleton]

/-- The input is written in pieces, each up to its first NUL. -/
theorem writeInput_eq {i : InStream} (hgood : i.good = true) : ∃ (i' : InStream) (ps : List Bytes),
    writeInput i = some (i', ps.flatMap cString) ∧ ps.flatten = i.rest :=
  loop_inputPass hgood le_rfl []

theorem line_begins (n : ℕ) (rest : Bytes) : line n rest <+: rest := by
  have htake : rest.take (n - 1) <+: rest := List.take_prefix _ _
  unfold line
  dsimp only
  split
  next hmem =>
    obtain ⟨a, b, hab, ha⟩ := List.eq_append_cons_of_mem hmem
    rw [hab, takeWhile_bne_append ha]
    refine (List.prefix_append (a ++ [LF]) b).trans ?_
    rw [List.append_assoc, List.singleton_append, ← hab]
    exact htake
  next => exact htake

theorem line_eq_nil_iff {n : ℕ} (hn : 1 < n) {rest : Bytes} : line n rest = [] ↔ rest = [] := by
  constructor
  · intro h
    unfold line at h
    dsimp only at h
    split at h
    · exact absurd h (by simp)
    · rcases List.take_eq_nil_iff.mp h with h | h
      · omega
      · exact h
  · rintro rfl
    simp [line]

/-- When `fgets` runs into the end, it has taken everything. -/
theorem fgets_feof {n : ℕ} {rest : Bytes} (hlf : LF ∉ line n rest) (hlen : (line n rest).length < n - 1) :
    rest = line n rest := by
  unfold line at *
  dsimp only at *
  split at hlf
  next => exact absurd hlf (by simp)
  next hmem =>
    rw [if_neg hmem, List.length_take] at hlen
    rw [if_neg hmem, List.take_of_length_le (by omega)]

theorem insert_insert {s : StringStream} (hs : s.good = true) (w w' : Bytes) :
    (s.insert w).good = true ∧ (s.insert w).insert w' = s.insert (w ++ w') := by
  rw [StringStream.eq_cut hs, StringStream.insert_cut, StringStream.insert_cut, StringStream.insert_cut,
    List.append_assoc]
  exact ⟨rfl, rfl⟩

/-- One pass on a stream that is not at its end: a line goes out, and it was the last one when the end was
reached with it. -/
theorem outputPass_line {rest : Bytes} (hne : rest ≠ []) {s : StringStream} (hs : s.good = true) :
    ∃ t r feof, t ≠ [] ∧ rest = t ++ r ∧ (feof = true → r = []) ∧
      outputPass (⟨rest, false⟩, s) = .inl (⟨r, feof⟩, s.insert (cString t)) := by
  have hline : line bufSize rest ≠ [] := fun h => hne ((line_eq_nil_iff (by decide)).mp h)
  have hr := List.prefix_iff_eq_append.mp (line_begins bufSize rest)
  refine ⟨line bufSize rest, rest.drop (line bufSize rest).length,
    decide (LF ∉ line bufSize rest) && decide ((line bufSize rest).length < bufSize - 1), hline, hr.symm,
    fun hfeof => ?_, ?_⟩
  · obtain ⟨hlf, hlen⟩ := Bool.and_eq_true_iff.mp hfeof
    have hall := fgets_feof (of_decide_eq_true hlf) (of_decide_eq_true hlen)
    rw [← hall, List.drop_length]
  · rw [outputPass, if_neg Bool.false_ne_true, fgets]
    dsimp only
    rw [if_neg (by simpa using hline), Bool.false_or]
    dsimp only
    rw [if_pos (insert_insert hs (cString (line bufSize rest)) []).1]

theorem loop_outputPass {fuel : ℕ} {rest : Bytes} {s : StringStream} (hs : s.good = true)
    (hf : rest.length + 2 ≤ fuel) : ∃ ps : List Bytes,
      Loop.loop outputPass fuel (⟨rest, false⟩, s) = some (s.insert (ps.flatMap cString)) ∧
        ps.flatten = rest := by
  induction fuel generalizing rest s with
  | zero => omega
  | succ fuel ih =>
    by_cases hnil : rest = []
    · subst hnil
      have hpass : outputPass (⟨[], false⟩, s) = .inr s := rfl
      refine ⟨[], ?_, rfl⟩
      rw [Loop.loop, hpass, List.flatMap_nil, StringStream.insert_good hs, List.append_nil]
    · obtain ⟨t, r, feof, ht, rfl, hlast, hpass⟩ := outputPass_line hnil hs
      have hpos := List.length_pos_iff.mpr ht
      rw [List.length_append] at hf
      rw [Loop.loop, hpass]
      dsimp only
      cases feof with
      | true =>
        obtain ⟨fuel, rfl⟩ : ∃ k, fuel = k + 1 := ⟨fuel - 1, by omega⟩
        refine ⟨[t], ?_, ?_⟩
        · rw [Loop.loop, outputPass, if_pos rfl, List.flatMap_singleton]
        · rw [List.flatten_singleton, hlast rfl, List.append_nil]
      | false =>
        obtain ⟨ps, hps, hflat⟩ := @ih r (s.insert (cString t)) (insert_insert hs (cString t) []).1 (by omega)
        refine ⟨t :: ps, ?_, ?_⟩
        · rw [hps, (insert_insert hs _ _).2, List.flatMap_cons]
        · rw [List.flatten_cons, hflat]

/-- The output comes in pieces, each up to its first NUL. -/
theorem readOutput_eq (text : Bytes) {out : StringStream} (hgood : out.good = true) : ∃ ps : List Bytes,
    readOutput text out = some (out.insert (ps.flatMap cString)) ∧ ps.flatten = text :=
  loop_outputPass hgood le_rfl

theorem insert_inj {s : StringStream} (hs : s.good = true) {w w' : Bytes} :
    s.insert w = s.insert w' ↔ w = w' := by
  refine ⟨fun h => ?_, fun h => by rw [h]⟩
  rw [StringStream.insert_good hs, StringStream.insert_good hs] at h
  exact List.append_cancel_left (StringStream.mk.inj h).2.1

/-- The child was given the input, and what the two output streams got is what it wrote. -/
def Passes (r : Executed) (c : Child) (i : InStream) (o e : StringStream) : Prop :=
  r.given = i.rest ∧ r.impl.out = some (o.insert c.out) ∧ r.impl.err = some (e.insert c.err)

theorem length_flatMap_cString (ps : List Bytes) : (ps.flatMap cString).length ≤ ps.flatten.length := by
  induction ps with
  | nil => exact Nat.le_refl _
  | cons p ps ih =>
    rw [List.flatMap_cons, List.flatten_cons, List.length_append, List.length_append]
    exact Nat.add_le_add (List.takeWhile_prefix _).length_le ih

namespace Sample

/-- A program that reads its input to the end and writes what it read. -/
def cat : List Bytes → Bytes → Child := fun _ b => ⟨b.length, b, [], 0⟩

end Sample

end Dcl.Process
