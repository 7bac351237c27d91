import Dcl.Url.Authority

/-! # Which fields `parse` assigns

`url::parse` assigns a field only where it finds the field's delimiter. Otherwise the field keeps what an
earlier URL left there: `parse_eq` gives all nine fields of the result from the text and the object before
the call. A URL object forgets its past exactly when every field that the text does not assign is still
as the constructor left it. -/
namespace Dcl.Url
set_option autoImplicit false

/-! ## Texts around a delimiter -/

def before (c : UInt8) (t : Bytes) : Bytes := t.takeWhile (· != c)

def after (c : UInt8) (t : Bytes) : Bytes := (t.dropWhile (· != c)).tail

theorem before_append {c : UInt8} {a : Bytes} (h : c ∉ a) (b : Bytes) : before c (a ++ c :: b) = a :=
  takeWhile_bne_append h b

theorem after_append {c : UInt8} {a : Bytes} (h : c ∉ a) (b : Bytes) : after c (a ++ c :: b) = b := by
  rw [after, dropWhile_bne_append h, List.tail_cons]

theorem before_of_notMem {c : UInt8} {t : Bytes} (h : c ∉ t) : before c t = t :=
  takeWhile_bne_self h

/-- `find` cuts a text into what is before the delimiter and what is after it. -/
theorem find_of_mem {c : UInt8} {t : Bytes} (h : c ∈ t) :
    ∃ pos, find t c = some pos ∧ t.take pos = before c t ∧ t.drop (pos + 1) = after c t := by
  obtain ⟨a, b, rfl, ha⟩ := List.eq_append_cons_of_mem h
  refine ⟨a.length, find_append ha, ?_, ?_⟩
  · rw [before_append ha, List.take_left]
  · rw [after_append ha, drop_length_succ]

theorem cutAt_eq (t : Bytes) (c : UInt8) :
    cutAt t c = (if c ∈ t then some (after c t) else none, before c t) := by
  by_cases h : c ∈ t
  · obtain ⟨pos, hpos, htake, hdrop⟩ := find_of_mem h
    rw [cutAt, hpos, if_pos h]
    simp only [htake, hdrop]
  · rw [cutAt, find_eq_none h, if_neg h, before_of_notMem h]

/-! ## The parts of a URL -/

/-- The text of the authority, with the login and the port. -/
def hostText (v : Bytes) : Bytes := (splitHost (splitScheme v).2).1

def pathText (v : Bytes) : Bytes := (splitHost (splitScheme v).2).2

/-- A URL with a scheme other than `file`. -/
def Network (v : Bytes) : Prop := (splitScheme v).1 ≠ [] ∧ (splitScheme v).1 ≠ ascii "file"

instance (v : Bytes) : Decidable (Network v) := inferInstanceAs (Decidable (_ ∧ _))

/-- The host and the port, behind the login. -/
def machine (h : Bytes) : Bytes := if 64 ∈ h then after 64 h else h

theorem parseUser_eq (u : Url) : u.parseUser = { u with
    host := machine u.host
    user := if 64 ∈ u.host then before 58 (before 64 u.host) else u.user
    password := if 64 ∈ u.host ∧ 58 ∈ before 64 u.host then after 58 (before 64 u.host)
      else u.password } := by
  by_cases h : 64 ∈ u.host
  · obtain ⟨pos, hpos, htake, hdrop⟩ := find_of_mem h
    rw [parseUser, hpos]
    simp only [htake, hdrop, machine, h, true_and, if_true]
    by_cases hc : 58 ∈ before 64 u.host
    · obtain ⟨pos', hpos', htake', hdrop'⟩ := find_of_mem hc
      simp only [hpos', htake', hdrop', if_pos hc]
    · simp only [find_eq_none hc, if_neg hc, before_of_notMem hc]
  · simp only [parseUser_none h, machine, h, false_and, if_false]

theorem parsePort_eq (u : Url) : u.parsePort = { u with
    host := before 58 u.host
    port := if 58 ∈ u.host ∧ after 58 u.host ≠ [] then fromStringInt (after 58 u.host)
      else u.port } := by
  by_cases h : 58 ∈ u.host
  · obtain ⟨pos, hpos, htake, hdrop⟩ := find_of_mem h
    rw [parsePort, hpos]
    simp only [htake, hdrop, h, true_and, List.length_pos_iff]
  · simp only [parsePort_none h, before_of_notMem h, h, false_and, if_false]

theorem parseService_eq (services : Services) (u : Url) : u.parseService services = { u with
    port := ((services (cString u.scheme)).map fun p => (p.toNat : ℤ)).getD u.port } := by
  rw [parseService]
  split
  next p h => simp only [h, Option.map_some, Option.getD_some]
  next h => simp only [h, Option.map_none, Option.getD_none]

theorem parseSuffixes_eq (u : Url) (t : Bytes) : u.parseSuffixes t = ({ u with
    parameters := if 59 ∈ t then after 59 t else u.parameters
    fragment := if 35 ∈ before 59 t then after 35 (before 59 t) else u.fragment
    query := if 63 ∈ before 35 (before 59 t) then after 63 (before 35 (before 59 t)) else u.query },
    before 63 (before 35 (before 59 t))) := by
  have hgetD : ∀ (p : Prop) [Decidable p] (x y : Bytes), (if p then some x else none).getD y =
      if p then x else y := by
    intro p _ x y
    split
    · rfl
    · rfl
  simp only [parseSuffixes, cutAt_eq, hgetD]

/-! ## The fields a text assigns -/

def AssignsHost (v : Bytes) : Prop := (splitScheme v).1 ≠ []

def AssignsUser (v : Bytes) : Prop := Network v ∧ 64 ∈ hostText v

def AssignsPassword (v : Bytes) : Prop :=
  Network v ∧ 64 ∈ hostText v ∧ 58 ∈ before 64 (hostText v)

/-- A port number is written. -/
def Numbered (v : Bytes) : Prop :=
  58 ∈ machine (hostText v) ∧ after 58 (machine (hostText v)) ≠ []

/-- The scheme is a known service, or a port number is written. -/
def AssignsPort (services : Services) (v : Bytes) : Prop :=
  Network v ∧ (services (cString (splitScheme v).1) ≠ none ∨ Numbered v)

def AssignsParameters (v : Bytes) : Prop := Network v ∧ 59 ∈ pathText v

def AssignsFragment (v : Bytes) : Prop := Network v ∧ 35 ∈ before 59 (pathText v)

def AssignsQuery (v : Bytes) : Prop := Network v ∧ 63 ∈ before 35 (before 59 (pathText v))

instance (v : Bytes) : Decidable (AssignsHost v) := inferInstanceAs (Decidable (_ ≠ _))

instance (v : Bytes) : Decidable (AssignsUser v) := inferInstanceAs (Decidable (_ ∧ _))

instance (v : Bytes) : Decidable (AssignsPassword v) := inferInstanceAs (Decidable (_ ∧ _ ∧ _))

instance (v : Bytes) : Decidable (Numbered v) := inferInstanceAs (Decidable (_ ∧ _))

instance (services : Services) (v : Bytes) : Decidable (AssignsPort services v) :=
  inferInstanceAs (Decidable (_ ∧ (_ ∨ _)))

instance (v : Bytes) : Decidable (AssignsParameters v) := inferInstanceAs (Decidable (_ ∧ _))

instance (v : Bytes) : Decidable (AssignsFragment v) := inferInstanceAs (Decidable (_ ∧ _))

instance (v : Bytes) : Decidable (AssignsQuery v) := inferInstanceAs (Decidable (_ ∧ _))

/-! ## The result of `parse` -/

def hostOf (v : Bytes) : Bytes := if Network v then before 58 (machine (hostText v)) else hostText v

def portOf (services : Services) (v : Bytes) : ℤ :=
  if Numbered v then fromStringInt (after 58 (machine (hostText v)))
  else ((services (cString (splitScheme v).1)).map fun p => (p.toNat : ℤ)).getD 0

def pathOf (v : Bytes) : Bytes :=
  if Network v then before 63 (before 35 (before 59 (pathText v)))
  else if AssignsHost v then pathText v
  else (splitScheme v).2

theorem port_eq {services : Services} {v : Bytes} (hnet : Network v) (p : ℤ) :
    (if Numbered v then fromStringInt (after 58 (machine (hostText v)))
      else ((services (cString (splitScheme v).1)).map fun p => (p.toNat : ℤ)).getD p) =
      if AssignsPort services v then portOf services v else p := by
  unfold portOf
  by_cases hnum : Numbered v
  · have hassign : AssignsPort services v := ⟨hnet, .inr hnum⟩
    rw [if_pos hnum, if_pos hassign, if_pos hnum]
  · rw [if_neg hnum, if_neg hnum]
    cases hs : services (cString (splitScheme v).1) with
    | none =>
      have hkeep : ¬AssignsPort services v := fun h => h.2.elim (fun h0 => h0 hs) hnum
      rw [if_neg hkeep]
      rfl
    | some port =>
      have hassign : AssignsPort services v := ⟨hnet, .inl (by simp [hs])⟩
      rw [if_pos hassign]
      rfl

/-- All nine fields after a call. -/
theorem parse_eq (services : Services) (u : Url) (v : Bytes) : parse services u v =
    { scheme := (splitScheme v).1
      user := if AssignsUser v then before 58 (before 64 (hostText v)) else u.user
      password := if AssignsPassword v then after 58 (before 64 (hostText v)) else u.password
      host := if AssignsHost v then hostOf v else u.host
      port := if AssignsPort services v then portOf services v else u.port
      path := if (pathOf v).isEmpty || (pathOf v).head? != some 47 then 47 :: pathOf v else pathOf v
      query := if AssignsQuery v then after 63 (before 35 (before 59 (pathText v))) else u.query
      fragment := if AssignsFragment v then after 35 (before 59 (pathText v)) else u.fragment
      parameters := if AssignsParameters v then after 59 (pathText v) else u.parameters } := by
  by_cases hnet : Network v
  · have hs : (splitScheme v).1.isEmpty = false := by simpa using hnet.1
    simp only [parse, hs, Bool.false_eq_true, if_false, hnet.2, parseService_eq, parseUser_eq,
      parsePort_eq, parseSuffixes_eq, parsePath, AssignsHost, AssignsUser, AssignsPassword,
      AssignsParameters, AssignsFragment, AssignsQuery, hostOf, pathOf, hnet, true_and, if_true, ne_eq,
      hnet.1, not_false_eq_true, ← port_eq hnet]
    rfl
  · -- without the delimiters of a network address only the path is left to assign, and for `file` the host
    by_cases hs : (splitScheme v).1 = []
    · simp only [parse, hs, List.isEmpty_nil, if_true, parsePath, AssignsHost, AssignsUser,
        AssignsPassword, AssignsPort, AssignsParameters, AssignsFragment, AssignsQuery, pathOf, hnet,
        false_and, if_false, ne_eq, not_true_eq_false]
    · have hfile : (splitScheme v).1 = ascii "file" := by
        by_contra h
        exact hnet ⟨hs, h⟩
      have hempty : (ascii "file").isEmpty = false := rfl
      have hname : ascii "file" ≠ [] := by decide
      simp only [parse, hempty, hfile, Bool.false_eq_true, if_false, if_true, parsePath, AssignsHost,
        AssignsUser, AssignsPassword, AssignsPort, AssignsParameters, AssignsFragment, AssignsQuery,
        hostOf, pathOf, hnet, false_and, hname, ne_eq, not_false_eq_true, hostText, pathText]

/-! ## Parsing on a used object -/

/-- The fields that `v` does not assign are as the constructor leaves them. -/
structure Unused (services : Services) (u : Url) (v : Bytes) : Prop where
  user : ¬AssignsUser v → u.user = []
  password : ¬AssignsPassword v → u.password = []
  host : ¬AssignsHost v → u.host = []
  port : ¬AssignsPort services v → u.port = 0
  query : ¬AssignsQuery v → u.query = []
  fragment : ¬AssignsFragment v → u.fragment = []
  parameters : ¬AssignsParameters v → u.parameters = []

theorem ite_eq_ite_iff {α : Type*} {p : Prop} [Decidable p] {x y z : α} :
    (if p then x else y) = (if p then x else z) ↔ (¬p → y = z) := by
  by_cases h : p
  · simp [h]
  · simp [h]

/-- `parse` gives what a new object would give if and only if the object's other fields are unused. -/
theorem parse_forgets_iff (services : Services) (u : Url) (v : Bytes) :
    parse services u v = parse services .new v ↔ Unused services u v := by
  rw [parse_eq services u, parse_eq services .new]
  simp only [Url.mk.injEq, ite_eq_ite_iff, true_and]
  exact ⟨fun ⟨user, password, host, port, query, fragment, parameters⟩ =>
      ⟨user, password, host, port, query, fragment, parameters⟩,
    fun h => ⟨h.user, h.password, h.host, h.port, h.query, h.fragment, h.parameters⟩⟩

/-- The states of a URL object. -/
inductive Reachable (services : Services) : Url → Prop
  | new : Reachable services .new
  | parse (u : Url) (v : Bytes) : Reachable services u → Reachable services (u.parse services v)
  | copyFrom (u w : Url) : Reachable services u → Reachable services w →
      Reachable services (u.copyFrom w)
  | normalize (u : Url) (basePath : Bytes) : Reachable services u →
      Reachable services (u.normalize basePath)

/-- The login of one URL is still there after the next one was parsed. -/
theorem login_kept :
    ∃ u, Reachable Sample.services u ∧
      (u.parse Sample.services (ascii "http://h/x")).user = ascii "me" ∧
      (u.parse Sample.services (ascii "http://h/x")).password = ascii "pw" ∧
      u.parse Sample.services (ascii "http://h/x") ≠ parse Sample.services .new (ascii "http://h/x") := by
  refine ⟨parse Sample.services .new (ascii "http://me:pw@g/"), .parse .new _ .new, ?_⟩
  decide +kernel

end Dcl.Url
