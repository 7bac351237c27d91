import Dcl.Config.Meaning

/-! # The current directory after a configuration was loaded

An `@include` changes into the directory of its file, loads what it stands for and changes back. The change
back is behind a loop that an exception leaves: a file that cannot be opened leaves the process in the
directory where that file was looked for. -/
namespace Dcl.Config
set_option autoImplicit false

section Directory
variable {os : Os}

/-- The first file that cannot be opened, of `f` and the files loaded from it, is looked for in `dir`. -/
def MissesIn (f : File os) (dir : os.Dir) : Prop := Script.Fails File.body [.call f] dir

theorem outcome_cwd_eq_iff (st : State os) (r : List Entry × Option os.Dir) :
    (outcome st r).1.cwd = st.cwd ↔ ∀ dir, r.2 = some dir → dir = st.cwd := by
  obtain ⟨es, _ | dir⟩ := r
  · exact iff_of_true rfl nofun
  · simp [outcome]

theorem missesIn_iff {f : File os} {n : ℕ} {r : List Entry × Option os.Dir}
    (h : Script.run File.body n f = some r) (dir : os.Dir) : MissesIn f dir ↔ r.2 = some dir := by
  rw [MissesIn, Script.fails_call_iff]
  constructor
  · rintro ⟨m, es, hm⟩
    rw [Script.run_unique h hm]
  · intro hr
    obtain ⟨es, _⟩ := r
    subst hr
    exact ⟨n, es, h⟩

/-- With more descriptors than files, of finitely many files that do not include themselves: `load_from_file` returns
or throws, and the process is in the directory it was in before if and only if every file that is loaded can be
opened, or the first one that cannot is looked for in that directory. -/
theorem load_keeps_directory_iff (st : State os) (name : Bytes)
    (hfin : {g | Relation.ReflTransGen Includes (⟨st.cwd, name⟩ : File os) g}.Finite)
    (hacyclic : Acyclic Includes (⟨st.cwd, name⟩ : File os)) :
    ∃ r, (∀ depth descriptors,
        {g | Relation.ReflTransGen Includes (⟨st.cwd, name⟩ : File os) g}.ncard ≤ depth →
        {g | Relation.ReflTransGen Includes (⟨st.cwd, name⟩ : File os) g}.ncard < descriptors →
        loadFromFile os depth descriptors st name = some r) ∧
      (r.1.cwd = st.cwd ↔ ∀ dir, MissesIn ⟨st.cwd, name⟩ dir → dir = st.cwd) := by
  obtain ⟨r, hr⟩ := Script.run_of_acyclic hfin hacyclic le_rfl
  refine ⟨outcome { st with options := .empty } r, fun depth descriptors hdepth hfree => ?_, ?_⟩
  · exact doLoad_eq hdepth hfree { st with options := .empty } name hr
  · rw [outcome_cwd_eq_iff]
    exact forall_congr' fun dir => imp_congr_left (missesIn_iff hr dir).symm

end Directory

/-! ## Two directories -/

namespace Sample

/-- The directories `/` (false) and `/d` (true), with the file `/d/a` that includes `b`. The file `/d/b`
can be opened or not. -/
def twoDirs (readable : Bool) : Os where
  Dir := Bool
  contents dir name :=
    if dir = false ∧ name = ascii "d/a" then some (ascii "@include = b")
    else if readable = true ∧ dir = true ∧ name = ascii "b" then some (ascii "k = 1")
    else none
  find _ _ pattern := [pattern]
  chdir dir path :=
    if path = ascii "/" then false else if path = ascii "/d" ∨ path = ascii "d" then true else dir
  getcwd dir := if dir then ascii "/d" else ascii "/"
  chdir_getcwd := by decide

def outer (readable : Bool) : File (twoDirs readable) := ⟨false, ascii "d/a"⟩

def inner (readable : Bool) : File (twoDirs readable) := ⟨true, ascii "b"⟩

variable {readable : Bool}

theorem body_outer : (outer readable).body = .ok [.call (inner readable)] := rfl

theorem includes_outer {g : File (twoDirs readable)} (h : Includes (outer readable) g) : g = inner readable := by
  obtain ⟨is, his, hmem⟩ := h
  rw [body_outer] at his
  rw [← Except.ok.inj his] at hmem
  simpa using hmem

theorem not_includes_inner {g : File (twoDirs readable)} : ¬Includes (inner readable) g := by
  rintro ⟨is, his, hmem⟩
  cases readable with
  | false =>
    have hbody : (inner false).body = .error true := rfl
    rw [hbody] at his
    cases his
  | true =>
    have hbody : (inner true).body = .ok [.emit ⟨[], ascii "k", ascii "1"⟩] := rfl
    rw [hbody] at his
    rw [← Except.ok.inj his] at hmem
    simp at hmem

theorem reached_outer {g : File (twoDirs readable)} (h : Relation.ReflTransGen Includes (outer readable) g) :
    g = outer readable ∨ g = inner readable := by
  induction h with
  | refl => exact .inl rfl
  | tail _ hg ih =>
    rcases ih with rfl | rfl
    · exact .inr (includes_outer hg)
    · exact absurd hg not_includes_inner

theorem finite_outer : {g | Relation.ReflTransGen Includes (outer readable) g}.Finite :=
  (Set.toFinite {outer readable, inner readable}).subset fun _ hg => reached_outer hg

theorem two_reached : {g | Relation.ReflTransGen Includes (outer readable) g}.ncard ≤ 2 := by
  have hle := Set.ncard_le_ncard (t := {outer readable, inner readable}) fun _ hg => reached_outer hg
  exact hle.trans ((Set.ncard_insert_le _ _).trans (by rw [Set.ncard_singleton]))

theorem acyclic_outer : Acyclic Includes (outer readable) := by
  intro g hg hcycle
  obtain ⟨x, hx, hback⟩ := Relation.TransGen.head'_iff.mp hcycle
  rcases reached_outer hg with rfl | rfl
  · rw [includes_outer hx] at hback
    cases Relation.ReflTransGen.cases_head hback with
    | inl heq => exact Bool.noConfusion (congrArg File.dir heq)
    | inr hstep =>
      obtain ⟨y, hy, -⟩ := hstep
      exact not_includes_inner hy
  · exact not_includes_inner hx

/-- When both files can be opened, nothing is missed. -/
theorem not_missesIn_outer (dir : Bool) : ¬MissesIn (outer true) dir := by
  have hrun : Script.run File.body 2 (outer true) = some ([⟨[], ascii "k", ascii "1"⟩], none) := rfl
  intro h
  cases (missesIn_iff hrun dir).mp h

end Sample

theorem load_keeps_directory_readable : ∃ r,
    (∀ depth descriptors, 2 ≤ depth → 2 < descriptors →
      loadFromFile (Sample.twoDirs true) depth descriptors ⟨false, .empty⟩ (ascii "d/a") = some r) ∧
      r.1.cwd = false := by
  obtain ⟨r, hload, hiff⟩ := @load_keeps_directory_iff (Sample.twoDirs true) ⟨false, .empty⟩ (ascii "d/a")
    Sample.finite_outer Sample.acyclic_outer
  refine ⟨r, fun depth descriptors hdepth hfree => hload depth descriptors ?_ ?_, hiff.mpr fun dir hdir => ?_⟩
  · exact Sample.two_reached.trans hdepth
  · exact Sample.two_reached.trans_lt hfree
  · exact absurd hdir (Sample.not_missesIn_outer dir)

/-- `/d/a` is loaded from `/` and includes a file `b` that cannot be opened: the process stays in `/d`. -/
theorem load_stays_in_directory :
    {g | Relation.ReflTransGen Includes (Sample.outer false) g}.Finite ∧
      Acyclic Includes (Sample.outer false) ∧
      ∀ depth descriptors, 2 ≤ depth → 2 < descriptors →
        ∃ options, loadFromFile (Sample.twoDirs false) depth descriptors ⟨false, .empty⟩ (ascii "d/a") =
          some (⟨true, options⟩, some notFound) := by
  refine ⟨Sample.finite_outer, Sample.acyclic_outer, fun depth descriptors hdepth hfree => ⟨.empty, ?_⟩⟩
  have hrun : Script.run File.body 2 (Sample.outer false) = some ([], some true) := rfl
  exact doLoad_eq hdepth hfree (⟨false, .empty⟩ : State (Sample.twoDirs false)) (ascii "d/a") hrun

end Dcl.Config
