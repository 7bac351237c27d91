import Dcl.Url.Assigned

/-! # The full path, written and read again

`get_full_path` appends the query, the fragment and the parameters in this order, each behind its own
separator; `parse` takes them off from the last to the first, at the first occurrence of each separator.
A component may contain the separators of the components before it. -/
namespace Dcl.Url
set_option autoImplicit false

theorem notMem_suffix {c d : UInt8} {s : Bytes} (hcd : c ≠ d) (h : c ∉ s) : c ∉ suffix d s := by
  unfold suffix
  split
  · simp
  · simp [hcd, h]

/-- Cutting a suffix off gives its text back, an absent one as the empty text. -/
theorem cut_suffix {c : UInt8} {a : Bytes} (h : c ∉ a) (s : Bytes) :
    before c (a ++ suffix c s) = a ∧
      (if c ∈ a ++ suffix c s then after c (a ++ suffix c s) else []) = s := by
  cases s with
  | nil =>
    have hnil : a ++ suffix c [] = a := List.append_nil a
    rw [hnil, before_of_notMem h, if_neg h]
    exact ⟨rfl, rfl⟩
  | cons d s =>
    have hcons : suffix c (d :: s) = c :: d :: s := rfl
    rw [hcons, before_append h, after_append h, if_pos (by simp)]
    exact ⟨rfl, rfl⟩

/-- A full path behind a scheme and a host is read back. -/
theorem full_path_read_back (services : Services) (scheme host : Bytes) (u : Url)
    (hlen : 3 ≤ scheme.length) (hcolon : 58 ∉ scheme) (hfile : scheme ≠ ascii "file")
    (hhost : host ≠ [] ∧ 47 ∉ host ∧ 64 ∉ host ∧ 58 ∉ host)
    (hroot : u.path.head? = some 47) (hpath : 59 ∉ u.path ∧ 35 ∉ u.path ∧ 63 ∉ u.path)
    (hquery : 59 ∉ u.query ∧ 35 ∉ u.query) (hfragment : 59 ∉ u.fragment) :
    (parse services .new (scheme ++ ascii "://" ++ (host ++ u.getFullPath))).path = u.path ∧
      (parse services .new (scheme ++ ascii "://" ++ (host ++ u.getFullPath))).query = u.query ∧
      (parse services .new (scheme ++ ascii "://" ++ (host ++ u.getFullPath))).fragment = u.fragment ∧
      (parse services .new (scheme ++ ascii "://" ++ (host ++ u.getFullPath))).parameters =
        u.parameters := by
  set v := scheme ++ ascii "://" ++ (host ++ u.getFullPath) with hv
  have hscheme : splitScheme v = (scheme, host ++ u.getFullPath) := splitScheme_append hlen hcolon
  have hnet : Network v := by
    rw [Network, hscheme]
    refine ⟨fun hnil => ?_, hfile⟩
    have hnil : scheme = [] := hnil
    rw [hnil] at hlen
    exact absurd hlen (by decide)
  have hfull : pathText v = u.getFullPath := by
    obtain ⟨t, ht⟩ : ∃ t, u.getFullPath = 47 :: t := by
      obtain ⟨t, ht⟩ := List.head?_eq_some_iff.mp hroot
      rw [getFullPath, ht]
      exact ⟨_, rfl⟩
    rw [pathText, hscheme, ht, splitHost_append hhost.2.1]
  -- the three cuts, from the right
  obtain ⟨hbefore₁, hparameters⟩ := cut_suffix (c := 59)
    (a := u.path ++ suffix 63 u.query ++ suffix 35 u.fragment) (by
      simp [hpath.1, notMem_suffix (c := 59) (d := 63) (by decide) hquery.1,
        notMem_suffix (c := 59) (d := 35) (by decide) hfragment]) u.parameters
  obtain ⟨hbefore₂, hfrag⟩ := cut_suffix (c := 35) (a := u.path ++ suffix 63 u.query) (by
      simp [hpath.2.1, notMem_suffix (c := 35) (d := 63) (by decide) hquery.2]) u.fragment
  obtain ⟨hbefore₃, hq⟩ := cut_suffix (c := 63) (a := u.path) hpath.2.2 u.query
  have hpathOf : pathOf v = u.path := by
    rw [pathOf, if_pos hnet, hfull, getFullPath, hbefore₁, hbefore₂, hbefore₃]
  have hnonempty : u.path.isEmpty = false := by
    cases hp : u.path with
    | nil =>
      rw [hp] at hroot
      cases hroot
    | cons c t => rfl
  rw [parse_eq]
  simp only [AssignsQuery, AssignsFragment, AssignsParameters, hnet, true_and, hpathOf, hfull, getFullPath,
    hbefore₁, hbefore₂, hparameters, hfrag, hq, new, hroot, hnonempty, bne_self_eq_false, Bool.or_self,
    Bool.false_eq_true, if_false, and_self]

/-- Every suffix is there, and each contains a separator that stands before it. -/
theorem full_path_read_back_nested :
    let u : Url := { new with
      path := ascii "/p", query := ascii "a?b", fragment := ascii "c#d?", parameters := ascii "e;f#g" }
    (parse Sample.services .new (ascii "http" ++ ascii "://" ++ (ascii "h" ++ u.getFullPath))).fragment =
      ascii "c#d?" :=
  (full_path_read_back Sample.services (ascii "http") (ascii "h") { new with
      path := ascii "/p", query := ascii "a?b", fragment := ascii "c#d?", parameters := ascii "e;f#g" }
    (by decide) (by decide) (by decide) (by decide) (by decide) (by decide) (by decide)
    (by decide)).2.2.1

end Dcl.Url
