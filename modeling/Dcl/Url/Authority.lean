import Dcl.Strutils.Numerals
import Dcl.Strutils.Tokens
import Dcl.Url.Parse

/-! # The authority of a URL that is written and read back

`Address` is a URL of the documented form `scheme://[user[:password]@]host[:port]/path`. Parsing gives
its parts; what `str` writes is an address again, but not always the same one: a user without a
password is written without `@`, a password without a user is not written, and the port of a service
that is not in the database is not written either. -/
namespace Dcl
set_option autoImplicit false

/-! ## Addresses -/

structure Address where
  scheme : Bytes
  /-- The user, and the password if there is one. -/
  login : Option (Bytes × Option Bytes)
  host : Bytes
  port : Option ℕ
  path : Bytes

namespace Address

def loginText (a : Address) : Bytes :=
  match a.login with
  | none => []
  | some (user, none) => user ++ [64]
  | some (user, some password) => user ++ 58 :: password ++ [64]

def portText (a : Address) : Bytes :=
  match a.port with
  | none => []
  | some n => 58 :: toStringInt n

def text (a : Address) : Bytes :=
  a.scheme ++ ascii "://" ++ (a.loginText ++ (a.host ++ a.portText) ++ 47 :: a.path)

/-- The restrictions of the grammar: no separator inside a part. -/
structure WellFormed (a : Address) : Prop where
  scheme_length : 3 ≤ a.scheme.length
  scheme_colon : 58 ∉ a.scheme
  scheme_file : a.scheme ≠ ascii "file"
  user : ∀ user password, a.login = some (user, password) → 58 ∉ user ∧ 64 ∉ user ∧ 47 ∉ user
  password : ∀ user password, a.login = some (user, some password) → 64 ∉ password ∧ 47 ∉ password
  host_ne : a.host ≠ []
  host : 64 ∉ a.host ∧ 58 ∉ a.host ∧ 47 ∉ a.host
  port : ∀ n, a.port = some n → 1 ≤ n ∧ n ≤ 65535

def user (a : Address) : Bytes := (a.login.map Prod.fst).getD []

def password (a : Address) : Bytes := (a.login.bind Prod.snd).getD []

def number (services : Services) (a : Address) : ℤ :=
  match a.port with
  | some n => n
  | none => ((services (cString a.scheme)).map fun p => (p.toNat : ℤ)).getD 0

end Address

/-! ## Parsing an address -/

namespace Url

theorem find_append {a b : Bytes} {c : UInt8} (h : c ∉ a) : find (a ++ c :: b) c = some a.length :=
  findFirstOf_append h

theorem find_eq_none {s : Bytes} {c : UInt8} (h : c ∉ s) : find s c = none := findFirstOf_eq_none h

theorem splitScheme_append {s r : Bytes} (hlen : 3 ≤ s.length) (h : 58 ∉ s) :
    splitScheme (s ++ ascii "://" ++ r) = (s, r) := by
  have htext : s ++ ascii "://" ++ r = s ++ 58 :: 47 :: 47 :: r := by
    rw [List.append_assoc]
    rfl
  have hdrop : (s ++ 58 :: 47 :: 47 :: r).drop (s.length + 3) = r := by
    rw [← List.drop_drop, List.drop_left]
    rfl
  rw [htext, splitScheme, find_append h]
  simp only
  rw [if_pos, List.take_left, hdrop]
  refine ⟨by omega, by simp, ?_, ?_⟩
  · rw [List.getElem?_append_right (by omega), Nat.add_sub_cancel_left]
    rfl
  · rw [List.getElem?_append_right (by omega), Nat.add_sub_cancel_left]
    rfl

theorem splitHost_append {x y : Bytes} (h : 47 ∉ x) : splitHost (x ++ 47 :: y) = (x, 47 :: y) := by
  rw [splitHost, find_append h]
  simp only [List.take_left, List.drop_left]

theorem parseUser_none {u : Url} (h : 64 ∉ u.host) : u.parseUser = u := by
  rw [parseUser, find_eq_none h]

theorem drop_length_succ (x : Bytes) (c : UInt8) (y : Bytes) :
    (x ++ c :: y).drop (x.length + 1) = y := by
  rw [← List.drop_drop, List.drop_left]
  rfl

theorem parseUser_user {u : Url} {user rest : Bytes} (h : u.host = user ++ [64] ++ rest)
    (hat : 64 ∉ user) (hcolon : 58 ∉ user) : u.parseUser = { u with user := user, host := rest } := by
  have htext : user ++ [64] ++ rest = user ++ 64 :: rest := by simp
  rw [parseUser, h, htext, find_append hat]
  simp only [List.take_left, drop_length_succ, find_eq_none hcolon]

theorem parseUser_password {u : Url} {user password rest : Bytes}
    (h : u.host = user ++ 58 :: password ++ [64] ++ rest) (hat : 64 ∉ user) (hcolon : 58 ∉ user)
    (hpat : 64 ∉ password) :
    u.parseUser = { u with user := user, password := password, host := rest } := by
  have htext : user ++ 58 :: password ++ [64] ++ rest = (user ++ 58 :: password) ++ 64 :: rest := by
    simp
  have hboth : 64 ∉ user ++ 58 :: password := by simp [hat, hpat]
  rw [parseUser, h, htext, find_append hboth]
  simp only [List.take_left, drop_length_succ, find_append hcolon]

theorem parsePort_none {u : Url} (h : 58 ∉ u.host) : u.parsePort = u := by
  rw [parsePort, find_eq_none h]

theorem parsePort_number {u : Url} {host : Bytes} {n : ℕ} (h : u.host = host ++ 58 :: toStringInt n)
    (hcolon : 58 ∉ host) (hpos : 0 < n) (hlt : n < 2 ^ 31) :
    u.parsePort = { u with host := host, port := n } := by
  obtain ⟨c, t, htext, _, _⟩ := toStringInt_head hpos
  have hlen : 0 < (toStringInt n).length := by simp [htext]
  rw [parsePort, h, find_append hcolon]
  simp only [List.take_left, drop_length_succ, if_pos hlen, fromStringInt_toStringInt hlt]

theorem cutAt_slash {c : UInt8} (hc : c ≠ 47) (y : Bytes) : ∃ z, (cutAt (47 :: y) c).2 = 47 :: z := by
  rw [cutAt]
  split
  next pos h =>
    obtain ⟨a, d, b, hs, ha, hd, rfl⟩ := findFirstOf_some h
    cases a with
    | nil =>
      simp only [List.drop_zero, List.nil_append, List.cons.injEq] at hs
      rw [← hs.1] at hd
      simp [Ne.symm hc] at hd
    | cons x a => exact ⟨y.take a.length, by simp⟩
  next => exact ⟨y, rfl⟩

/-- The authority is not touched, and the rest still begins with a slash. -/
theorem parseSuffixes_slash (u : Url) (y : Bytes) :
    ∃ q f p z, u.parseSuffixes (47 :: y) =
      ({ u with query := q, fragment := f, parameters := p }, 47 :: z) := by
  obtain ⟨z₁, h₁⟩ := cutAt_slash (c := 59) (by decide) y
  obtain ⟨z₂, h₂⟩ := cutAt_slash (c := 35) (by decide) z₁
  obtain ⟨z₃, h₃⟩ := cutAt_slash (c := 63) (by decide) z₂
  refine ⟨(cutAt (47 :: z₂) 63).1.getD u.query, (cutAt (47 :: z₁) 35).1.getD u.fragment,
    (cutAt (47 :: y) 59).1.getD u.parameters, z₃, ?_⟩
  rw [parseSuffixes]
  simp only [h₁, h₂, h₃]

section Address
variable {services : Services} {a : Address}

theorem digits_separators {n : ℕ} (h : 0 < n) :
    47 ∉ toStringInt n ∧ 64 ∉ toStringInt n ∧ 58 ∉ toStringInt n := by
  obtain ⟨c, t, htext, _, hdigits⟩ := toStringInt_head h
  rw [htext]
  refine ⟨fun hx => ?_, fun hx => ?_, fun hx => ?_⟩
  · exact absurd (hdigits _ hx) (by decide)
  · exact absurd (hdigits _ hx) (by decide)
  · exact absurd (hdigits _ hx) (by decide)

theorem portText_clean (ha : a.WellFormed) : 47 ∉ a.portText ∧ 64 ∉ a.portText := by
  rw [Address.portText]
  split
  · exact ⟨by simp, by simp⟩
  next n hn =>
    have hdigits := digits_separators (ha.port n hn).1
    exact ⟨by simp [hdigits.1], by simp [hdigits.2.1]⟩

theorem loginText_clean (ha : a.WellFormed) : 47 ∉ a.loginText := by
  rw [Address.loginText]
  split
  · simp
  next user hl => simp [(ha.user user none hl).2.2]
  next user password hl =>
    simp [(ha.user user _ hl).2.2, (ha.password user password hl).2]

theorem parseUser_login (ha : a.WellFormed) {u : Url}
    (h : u.host = a.loginText ++ (a.host ++ a.portText)) (huser : u.user = [])
    (hpassword : u.password = []) :
    u.parseUser = { u with user := a.user, password := a.password, host := a.host ++ a.portText } := by
  have hat : 64 ∉ a.host ++ a.portText := by simp [ha.host.1, (portText_clean ha).2]
  rw [Address.user, Address.password]
  rw [Address.loginText] at h
  split at h
  next hl =>
    rw [hl, parseUser_none (by rw [h]; exact hat)]
    cases u
    simp only at huser hpassword h
    simp [huser, hpassword, h]
  next user hl =>
    have hclean := ha.user user none hl
    rw [hl, parseUser_user h hclean.2.1 hclean.1]
    simp [hpassword]
  next user password hl =>
    have hclean := ha.user user _ hl
    rw [hl, parseUser_password h hclean.2.1 hclean.1 (ha.password user password hl).1]
    simp

theorem parsePort_address (ha : a.WellFormed) {u : Url} (h : u.host = a.host ++ a.portText)
    (hport : u.port = ((services (cString a.scheme)).map fun p => (p.toNat : ℤ)).getD 0) :
    u.parsePort = { u with host := a.host, port := a.number services } := by
  rw [Address.number]
  rw [Address.portText] at h
  split at h
  next hp =>
    rw [List.append_nil] at h
    rw [hp, parsePort_none (by rw [h]; exact ha.host.2.1)]
    cases u
    simp only at h hport
    simp [h, hport]
  next n hp =>
    have hn := ha.port n hp
    rw [hp, parsePort_number h ha.host.2.1 (by omega) (by omega)]

theorem parse_address (services : Services) (ha : a.WellFormed) :
    ∃ q f p z, Url.parse services .new a.text =
      ⟨a.scheme, a.user, a.password, a.host, a.number services, 47 :: z, q, f, p⟩ := by
  have hscheme : a.scheme.isEmpty = false := by
    have := ha.scheme_length
    cases hs : a.scheme with
    | nil => simp [hs] at this
    | cons c t => rfl
  have hslash : 47 ∉ a.loginText ++ (a.host ++ a.portText) := by
    simp [loginText_clean ha, ha.host.2.2, (portText_clean ha).1]
  have hservice : ∀ u : Url, u.scheme = a.scheme → u.port = 0 → u.parseService services =
      { u with port := ((services (cString a.scheme)).map fun p => (p.toNat : ℤ)).getD 0 } := by
    intro u hu hp
    rw [Url.parseService, hu]
    cases services (cString a.scheme) with
    | some p => rfl
    | none =>
      cases u
      simp only at hu hp
      simp [hu, hp]
  rw [Url.parse, Address.text, splitScheme_append ha.scheme_length ha.scheme_colon]
  simp only [hscheme, Bool.false_eq_true, if_false, splitHost_append hslash, if_neg ha.scheme_file]
  rw [hservice _ rfl rfl, parseUser_login ha rfl rfl rfl, parsePort_address ha rfl rfl]
  obtain ⟨q, f, p, z, hsuffix⟩ := parseSuffixes_slash
    ⟨a.scheme, a.user, a.password, a.host, a.number services, [], [], [], []⟩ a.path
  refine ⟨q, f, p, z, ?_⟩
  simp only [Url.new, hsuffix, Url.parsePath]
  rfl

/-! ## Writing an address -/

/-- The address that `str` writes for the parts of `a` and a path. -/
def written (services : Services) (a : Address) (path : Bytes) : Address where
  scheme := a.scheme
  login := if a.user = [] ∨ a.password = [] then none else some (a.user, some a.password)
  host := if a.password = [] then a.user ++ a.host else a.host
  port := if 0 < a.number services ∧
      ∃ p, services (cString a.scheme) = some p ∧ (p.toNat : ℤ) ≠ a.number services
    then some (a.number services).toNat else none
  path := path

theorem number_range (services : Services) (ha : a.WellFormed) :
    0 ≤ a.number services ∧ a.number services ≤ 65535 := by
  rw [Address.number]
  split
  next n hn =>
    have := ha.port n hn
    omega
  next =>
    cases services (cString a.scheme) with
    | none => simp
    | some p =>
      have := p.toNat_lt
      simp only [Option.map_some, Option.getD_some]
      omega

theorem user_clean (ha : a.WellFormed) : 58 ∉ a.user ∧ 64 ∉ a.user ∧ 47 ∉ a.user := by
  rw [Address.user]
  cases hl : a.login with
  | none => simp
  | some l => exact ha.user l.1 l.2 hl

theorem password_clean (ha : a.WellFormed) : 64 ∉ a.password ∧ 47 ∉ a.password := by
  rw [Address.password]
  cases hl : a.login with
  | none => simp
  | some l =>
    cases hp : l.2 with
    | none => simp [hp]
    | some w =>
      have hlogin : a.login = some (l.1, some w) := by rw [hl, ← hp]
      simpa [hp] using ha.password l.1 w hlogin

theorem written_wellFormed (services : Services) (ha : a.WellFormed) (path : Bytes) :
    (written services a path).WellFormed := by
  have huser := user_clean ha
  have hpassword := password_clean ha
  refine ⟨ha.scheme_length, ha.scheme_colon, ha.scheme_file, fun u p h => ?_, fun u p h => ?_, ?_, ?_,
    fun n h => ?_⟩
  · simp only [written] at h
    split at h
    · cases h
    · cases h
      exact huser
  · simp only [written] at h
    split at h
    · cases h
    · cases h
      exact hpassword
  · simp only [written]
    split
    · simp [ha.host_ne]
    · exact ha.host_ne
  · simp only [written]
    split
    · simp [huser, ha.host]
    · exact ha.host
  · have hrange := number_range services ha
    simp only [written] at h
    split at h
    next hn =>
      rw [← Option.some.inj h]
      omega
    · cases h

/-- The user, the password and the host as `str` writes them. -/
theorem userText_host (services : Services) (path : Bytes) {u : Url} (huser : u.user = a.user)
    (hpassword : u.password = a.password) :
    u.userText ++ a.host =
      (written services a path).loginText ++ (written services a path).host := by
  rw [Url.userText, huser, hpassword, Address.loginText, written]
  by_cases hu : a.user = []
  · simp [hu]
  · have hue : a.user.isEmpty = false := by simpa using hu
    by_cases hp : a.password = []
    · simp [hp, hue]
    · have hpe : a.password.isEmpty = false := by simpa using hp
      simp [hu, hp, hue, hpe]

theorem portText_number (services : Services) (path : Bytes) {u : Url} (hscheme : u.scheme = a.scheme)
    (hport : u.port = a.number services) :
    u.portText services = (written services a path).portText := by
  rw [Url.portText, hscheme, hport, Address.portText, written]
  by_cases hn : 0 < a.number services
  · rw [if_pos hn]
    cases hs : services (cString a.scheme) with
    | none => simp
    | some p =>
      by_cases hne : (p.toNat : ℤ) = a.number services
      · simp [hne]
      · have hnat : ((a.number services).toNat : ℤ) = a.number services := Int.toNat_of_nonneg hn.le
        simp [hn, hne, hnat]
  · simp [hn]

theorem str_eq (services : Services) {u : Url} (hscheme : u.scheme ≠ []) (hhost : u.host ≠ []) :
    u.str services = u.scheme ++ ascii "://" ++
      (u.userText ++ u.host ++ u.portText services ++ u.getFullPath) := by
  have hs : u.scheme.isEmpty = false := by simpa using hscheme
  have hh : u.host.isEmpty = false := by simpa using hhost
  simp only [Url.str, hs, hh, Bool.false_eq_true, if_false]
  rw [if_neg (by simp [hscheme])]
  simp only [List.append_assoc]

theorem str_address (services : Services) (ha : a.WellFormed) :
    ∃ path, (Url.parse services .new a.text).str services = (written services a path).text := by
  obtain ⟨q, f, p, z, hparse⟩ := parse_address services ha
  have hscheme : a.scheme ≠ [] := by
    intro hs
    have := ha.scheme_length
    simp [hs] at this
  let path := z ++ suffix 63 q ++ suffix 35 f ++ suffix 59 p
  refine ⟨path, ?_⟩
  generalize hu : Url.parse services .new a.text = u at hparse
  subst hparse
  rw [str_eq services hscheme ha.host_ne, userText_host services path rfl rfl,
    portText_number services path rfl rfl, Address.text]
  simp [written, path, Url.getFullPath]

end Address

/-! ## Round trips -/

def authority (u : Url) : Bytes × Bytes × Bytes × Bytes × ℤ :=
  (u.scheme, u.user, u.password, u.host, u.port)

theorem authority_address (services : Services) {a : Address} (ha : a.WellFormed) :
    (Url.parse services .new a.text).authority =
      (a.scheme, a.user, a.password, a.host, a.number services) := by
  obtain ⟨q, f, p, z, hparse⟩ := parse_address services ha
  rw [hparse]
  rfl

theorem written_login (services : Services) (a : Address) (path : Bytes) :
    (written services a path).user = a.user ∧ (written services a path).password = a.password ∧
        (written services a path).host = a.host ↔ (a.user = [] ↔ a.password = []) := by
  rw [Address.user, Address.password, written]
  by_cases hu : a.user = []
  · by_cases hp : a.password = []
    · simp [hu, hp]
    · simp [hu, hp, Ne.symm hp]
  · by_cases hp : a.password = []
    · simp [hu, hp, Ne.symm hu]
    · simp [hu, hp]

theorem written_number (services : Services) {a : Address} (ha : a.WellFormed) (path : Bytes) :
    (written services a path).number services = a.number services ↔
      (a.port.isSome → (services (cString a.scheme)).isSome) := by
  have hrange := number_range services ha
  cases hs : services (cString a.scheme) with
  | none =>
    -- no port is written, and none is found for the scheme
    have hzero : (written services a path).number services = 0 := by
      simp [Address.number, written, hs]
    rw [hzero]
    cases hport : a.port with
    | none => simp [Address.number, hport, hs]
    | some n =>
      have hn := ha.port n hport
      simp only [Address.number, hport, Option.isSome_some, Option.isSome_none, Bool.false_eq_true,
        imp_false, not_true_eq_false, iff_false]
      omega
  | some p =>
    simp only [Option.isSome_some, implies_true, iff_true]
    by_cases hwritten : 0 < a.number services ∧ (p.toNat : ℤ) ≠ a.number services
    · have hport : (written services a path).port = some (a.number services).toNat := by
        simp [written, hs, hwritten]
      rw [Address.number, hport]
      exact Int.toNat_of_nonneg hrange.1
    · have hport : (written services a path).port = none := by
        simp only [written, hs, Option.some.injEq, exists_eq_left', if_neg hwritten]
      have hscheme : (written services a path).scheme = a.scheme := rfl
      have hnumber : (written services a path).number services = p.toNat := by
        simp [Address.number, hport, hscheme, hs]
      rw [hnumber]
      by_contra hne
      have hzero : a.number services = 0 := by
        by_contra hnz
        exact hwritten ⟨by omega, hne⟩
      -- an address without a port has that of its scheme
      rw [Address.number] at hzero hne
      split at hzero
      next n hn =>
        have := ha.port n hn
        omega
      next hn => simp [hs, hn] at hne

/-- The authority of an address is read back from what `str` writes exactly when the user and the
password are both there or both missing, and the scheme of an address with a port is a known
service. -/
theorem authority_reread_iff (services : Services) (a : Address) (ha : a.WellFormed) :
    (Url.parse services .new ((Url.parse services .new a.text).str services)).authority =
        (Url.parse services .new a.text).authority ↔
      (a.user = [] ↔ a.password = []) ∧
        (a.port.isSome → (services (cString a.scheme)).isSome) := by
  obtain ⟨path, hstr⟩ := str_address services ha
  rw [hstr, authority_address services (written_wellFormed services ha path),
    authority_address services ha, ← written_login services a path, ← written_number services ha path]
  have hscheme : (written services a path).scheme = a.scheme := rfl
  simp only [Prod.mk.injEq, hscheme, true_and, and_assoc]

namespace Sample

def services : Services := fun name => if name = ascii "http" then some 80 else none

def address (password : Option Bytes) (port : ℕ) : Address :=
  ⟨ascii "http", some (ascii "u", password), ascii "h", some port, ascii "x"⟩

theorem address_wellFormed {password : Option Bytes} (hp : ∀ w ∈ password, 64 ∉ w ∧ 47 ∉ w) {port : ℕ}
    (h : 1 ≤ port ∧ port ≤ 65535) : (address password port).WellFormed := by
  refine ⟨(by decide : 3 ≤ (ascii "http").length), (by decide : 58 ∉ ascii "http"),
    (by decide : ascii "http" ≠ ascii "file"), fun user pass hl => ?_, fun user pass hl => ?_,
    (by decide : ascii "h" ≠ []), (by decide : 64 ∉ ascii "h" ∧ 58 ∉ ascii "h" ∧ 47 ∉ ascii "h"),
    fun n hn => ?_⟩
  · cases hl
    decide
  · simp only [address, Option.some.injEq, Prod.mk.injEq] at hl
    exact hp pass hl.2
  · cases hn
    exact h

end Sample

/-- `http://u@h:80/x` is written as `http://uh/x`. -/
theorem user_without_password_lost : (Sample.address none 80).WellFormed ∧
    (Url.parse Sample.services .new
      ((Url.parse Sample.services .new (Sample.address none 80).text).str Sample.services)).authority ≠
      (Url.parse Sample.services .new (Sample.address none 80).text).authority := by
  refine ⟨Sample.address_wellFormed (by simp) (by decide), ?_⟩
  decide +kernel

theorem authority_reread_login :
    (Url.parse Sample.services .new ((Url.parse Sample.services .new
      (Sample.address (some (ascii "p")) 8080).text).str Sample.services)).authority =
      (Url.parse Sample.services .new (Sample.address (some (ascii "p")) 8080).text).authority := by
  have hwf : (Sample.address (some (ascii "p")) 8080).WellFormed := by
    refine Sample.address_wellFormed (fun w hw => ?_) (by decide)
    rw [← Option.some.inj hw]
    decide
  exact (authority_reread_iff Sample.services _ hwf).mpr ⟨by decide, by decide⟩

end Url

end Dcl
