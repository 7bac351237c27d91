import Dcl.Net.Sockets
import Dcl.Strutils.Splitting

/-! # Which addresses `socket_address::parse` can read

`parse` splits its text at the colons and reads the first two tokens. A text without a colon has one token and
the empty text has none, so that it reads behind the end of the vector unless an exception comes first:
`gethostbyname` is asked in between. -/
namespace Dcl.Net
set_option autoImplicit false

namespace SocketAddress

/-- `parse` with `gethostbyname` as a function of the name it gets. -/
def parseWith (gethostbyname : Bytes → HostEntry) (addr : Bytes) : Except Fault SocketAddress :=
  parse addr (gethostbyname (cString ((tokenize addr (ascii ":")).headD [])))

/-- The port part: what stands behind the first colon and before the next one. -/
def portPart (addr : Bytes) : Bytes := trim (((addr.dropWhile (· != 58)).drop 1).takeWhile (· != 58))

/-- Both elements that are read are there, and the port is 0 when its part is absent or empty. -/
structure InRange (gethostbyname : Bytes → HostEntry) (addr : Bytes) : Prop where
  defined : parseWith gethostbyname addr ≠ .error .undefined
  port : portPart addr = [] → ∀ a, parseWith gethostbyname addr = .ok a → a.port = 0

/-- The text is the name of a host that is not found. -/
def Unresolved (gethostbyname : Bytes → HostEntry) (addr : Bytes) : Prop :=
  trim addr ≠ [] ∧ trim addr ≠ ascii "*" ∧ ∀ l, gethostbyname (cString (trim addr)) ≠ .found l

section Parse
variable {g : Bytes → HostEntry} {addr : Bytes}

theorem resolve_ne_undefined (host : Bytes) (h : HostEntry) : resolve host h ≠ .error .undefined := by
  cases h with
  | found l => exact nofun
  | hostNotFound => exact nofun
  | noData => exact nofun
  | otherError => exact nofun

theorem portPart_split {a b : Bytes} (ha : 58 ∉ a) :
    portPart (a ++ 58 :: b) = trim (b.takeWhile (· != 58)) := by
  rw [portPart, dropWhile_bne_append ha]
  rfl

/-- The first segment ends at the first delimiter. -/
theorem splitOn_eq_takeWhile_cons (d : UInt8) (s : Bytes) :
    ∃ rest, s.splitOn d = s.takeWhile (· != d) :: rest := by
  by_cases hd : d ∈ s
  · obtain ⟨a, b, rfl, ha⟩ := List.eq_append_cons_of_mem hd
    exact ⟨_, by rw [takeWhile_bne_append ha, List.splitOn_append_cons_self_of_not_mem ha]⟩
  · exact ⟨[], by rw [takeWhile_bne_self hd, List.splitOn_eq_singleton hd]⟩

/-- A colon gives two tokens at least. -/
theorem tokenize_colon {a b : Bytes} (ha : 58 ∉ a) : ∃ rest, tokenize (a ++ 58 :: b) (ascii ":") =
    trim a :: portPart (a ++ 58 :: b) :: rest := by
  obtain ⟨rest, hrest⟩ := splitOn_eq_takeWhile_cons 58 b
  refine ⟨rest.map trim, ?_⟩
  have hne : (a ++ 58 :: b : Bytes) ≠ [] := by simp
  have htok := tokenize_eq hne 58
  rw [List.splitOn_append_cons_self_of_not_mem ha, hrest] at htok
  rw [portPart_split ha]
  exact htok

theorem tokenize_no_colon (h : 58 ∉ addr) (hne : addr ≠ []) : tokenize addr (ascii ":") = [trim addr] := by
  have htok := tokenize_eq hne 58
  rw [List.splitOn_eq_singleton h] at htok
  exact htok

theorem inRange_of_colon (h : 58 ∈ addr) : InRange g addr := by
  obtain ⟨a, b, rfl, ha⟩ := List.eq_append_cons_of_mem h
  obtain ⟨rest, htok⟩ := tokenize_colon (b := b) ha
  have hparse : ∀ e : HostEntry, parse (a ++ 58 :: b) e ≠ .error .undefined ∧
      (portPart (a ++ 58 :: b) = [] → ∀ r, parse (a ++ 58 :: b) e = .ok r → r.port = 0) := by
    intro e
    rw [parse, htok]
    simp only
    split
    next x hx =>
      refine ⟨fun hu => ?_, fun _ r hr => by cases hr⟩
      rw [Except.error.inj hu] at hx
      split at hx
      · cases hx
      · exact resolve_ne_undefined _ _ hx
    next addresses hx =>
      refine ⟨nofun, fun hport r hr => ?_⟩
      rw [← Except.ok.inj hr, hport]
      rfl
  exact ⟨(hparse _).1, (hparse _).2⟩

theorem parseWith_no_colon (h : 58 ∉ addr) (hne : addr ≠ []) :
    parseWith g addr = match if (trim addr).isEmpty || trim addr == ascii "*" then .ok []
      else resolve (trim addr) (g (cString (trim addr))) with
      | .error e => .error e
      | .ok _ => .error .undefined := by
  rw [parseWith, parse, tokenize_no_colon h hne]
  rfl

theorem inRange_of_unresolved (h : 58 ∉ addr) (hu : Unresolved g addr) : InRange g addr := by
  obtain ⟨hempty, hstar, hfound⟩ := hu
  have hne : addr ≠ [] := by
    rintro rfl
    exact hempty rfl
  have hcond : ((trim addr).isEmpty || trim addr == ascii "*") = false := by
    rw [Bool.or_eq_false_iff, beq_eq_false_iff_ne]
    exact ⟨by simpa using hempty, hstar⟩
  have hthrown : ∃ message, parseWith g addr = .error (.thrown message) := by
    rw [parseWith_no_colon h hne, hcond]
    cases hh : g (cString (trim addr)) with
    | found l => exact absurd hh (hfound l)
    | hostNotFound => exact ⟨_, rfl⟩
    | noData => exact ⟨_, rfl⟩
    | otherError => exact ⟨_, rfl⟩
  obtain ⟨message, hm⟩ := hthrown
  refine ⟨fun he => ?_, fun _ r hr => ?_⟩
  · rw [hm] at he
    cases he
  · rw [hm] at hr
    cases hr

theorem unresolved_of_defined (h : 58 ∉ addr) (hd : parseWith g addr ≠ .error .undefined) :
    Unresolved g addr := by
  have hne : addr ≠ [] := by
    rintro rfl
    exact hd rfl
  rw [parseWith_no_colon h hne] at hd
  have hcond : ((trim addr).isEmpty || trim addr == ascii "*") = false := by
    rw [← Bool.not_eq_true]
    intro hc
    rw [hc] at hd
    exact hd rfl
  rw [hcond] at hd
  rw [Bool.or_eq_false_iff, beq_eq_false_iff_ne] at hcond
  refine ⟨by simpa using hcond.1, hcond.2, fun l hl => ?_⟩
  rw [hl] at hd
  exact hd rfl

theorem inRange_iff (g : Bytes → HostEntry) (addr : Bytes) :
    InRange g addr ↔ 58 ∈ addr ∨ Unresolved g addr := by
  by_cases h : 58 ∈ addr
  · exact ⟨fun _ => .inl h, fun _ => inRange_of_colon h⟩
  · exact ⟨fun hr => .inr (unresolved_of_defined h hr.defined),
      fun hu => inRange_of_unresolved h (hu.resolve_left h)⟩

/-- The white space around a text makes no difference. -/
theorem inRange_trim : InRange g (trim addr) ↔ InRange g addr := by
  have hmem : 58 ∈ trim addr ↔ 58 ∈ addr := by
    refine ⟨mem_of_mem_trim, fun h => ?_⟩
    obtain ⟨x, y, hs, hx, hy⟩ := exists_trim addr
    rw [hs] at h
    rcases List.mem_append.mp h with h | h
    · rcases List.mem_append.mp h with h | h
      · exact absurd (hx 58 h) (by decide)
      · exact h
    · exact absurd (hy 58 h) (by decide)
  rw [inRange_iff, inRange_iff, hmem, Unresolved, Unresolved, trim_eq_self (trimmed_trim addr)]

end Parse

/-- `parse` finds the elements it reads exactly when its text has a colon or names a host that is not found;
and so it is with every element of a bind string, which is one of the pieces between its separators. -/
theorem parse_in_range_iff (g : Bytes → HostEntry) :
    (∀ addr, InRange g addr ↔ 58 ∈ addr ∨ Unresolved g addr) ∧
    ∀ bind pieces, bind ≠ [] → Pieces (ascii ",;") bind pieces →
      ((∀ addr ∈ tokenize bind (ascii ",;"), InRange g addr) ↔
        ∀ piece ∈ pieces, 58 ∈ piece ∨ Unresolved g piece) := by
  refine ⟨inRange_iff g, fun bind pieces hne hpieces => ?_⟩
  rw [tokenize_pieces hpieces hne, List.forall_mem_map]
  refine forall₂_congr fun piece _ => ?_
  rw [inRange_trim, inRange_iff]

/-- A host without a port, and the empty piece behind the last separator. -/
theorem parse_out_of_range :
    (ascii "localhost" ∈ tokenize (ascii "localhost") (ascii ",;") ∧
      ¬ InRange (fun _ => .found [ascii "127.0.0.1"]) (ascii "localhost")) ∧
    ([] ∈ tokenize (ascii "*:80;") (ascii ",;") ∧
      ¬ InRange (fun _ => .found [ascii "127.0.0.1"]) []) := by
  refine ⟨⟨by decide +kernel, fun h => ?_⟩, by decide +kernel, fun h => ?_⟩
  · exact h.defined (by decide +kernel)
  · exact h.defined rfl

end SocketAddress

end Dcl.Net
