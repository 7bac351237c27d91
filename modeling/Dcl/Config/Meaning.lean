import Dcl.Config.Expansion

/-! # The meaning of a configuration file

After a file was loaded, the value of a name in a section is that of the last assignment to it in the
expansion of the file. -/
namespace Dcl.Config
set_option autoImplicit false

/-! ## Sections and names -/

theorem byteOrder_same {a b : Bytes} : byteOrder.same a b = true ↔ a = b :=
  KeyOrder.along_same (List.map_injective_iff.mpr fun _ _ h => UInt8.toNat_inj.mp h)

theorem byteOrder_not_same {a b : Bytes} (h : a ≠ b) : byteOrder.same a b = false := by
  rw [← Bool.not_eq_true, byteOrder_same]
  exact h

theorem find_set_bytes {V : Type} (m : OrderedMap byteOrder V) (key : Bytes) (v : V) (k : Bytes) :
    (m.set key v).find k = if key = k then some v else m.find k := by
  by_cases h : key = k
  · rw [if_pos h, ← h]
    exact OrderedMap.find_set _ _ _
  · rw [if_neg h]
    exact OrderedMap.find_set_of_not_same _ _ (byteOrder_not_same h)

theorem find_assign (options : Sections) (sect name value s : Bytes) :
    (options.assign sect name value).find s =
      if sect = s then some (((options.find sect).getD .empty).set name value) else options.find s :=
  find_set_bytes options sect _ s

theorem value_assign (options : Sections) (e : Entry) (s k d : Bytes) :
    (options.assign e.sect e.name e.value).value s k d =
      if e.sect = s ∧ e.name = k then e.value else options.value s k d := by
  rw [Sections.value, find_assign, Sections.value]
  by_cases hs : e.sect = s
  · rw [if_pos hs, hs]
    simp only [find_set_bytes, true_and]
    by_cases hk : e.name = k
    · rw [if_pos hk, if_pos hk]
      rfl
    · rw [if_neg hk, if_neg hk]
      cases options.find s with
      | none => rfl
      | some i => rfl
  · rw [if_neg hs, if_neg fun h => hs h.1]

/-- The value of the last assignment to the name `k` in the section `s`, or `d`. -/
def lastValue (es : List Entry) (s k d : Bytes) : Bytes :=
  ((es.filter fun e => e.sect = s ∧ e.name = k).getLast?.map Entry.value).getD d

theorem value_assignAll (options : Sections) (es : List Entry) (s k d : Bytes) :
    (assignAll options es).value s k d = lastValue es s k (options.value s k d) := by
  induction es using List.reverseRecOn with
  | nil => rfl
  | append_singleton es e ih =>
    rw [assignAll, List.foldl_append, List.foldl_cons, List.foldl_nil, value_assign, lastValue,
      List.filter_append]
    by_cases he : e.sect = s ∧ e.name = k
    · rw [if_pos he, List.filter_cons_of_pos (by simpa using he), List.filter_nil,
        List.getLast?_concat]
      rfl
    · rw [if_neg he, List.filter_cons_of_neg (by simpa using he), List.filter_nil, List.append_nil]
      exact ih

/-! ## Files that can be read and do not include themselves -/

section Meaning
variable {os : Os}

/-- The file `f` has an `@include` that stands for `g`, perhaps among others. -/
def Includes (f g : File os) : Prop := Script.Mentions File.body f g

theorem body_of_readable {f : File os} (h : (os.contents f.dir (cString f.name)).isSome) :
    ∃ is, f.body = .ok is := by
  obtain ⟨text, htext⟩ := Option.isSome_iff_exists.mp h
  exact ⟨_, by rw [File.body, htext]⟩

/-- Of finitely many files that can be read and do not include themselves, `load_from_file` returns when there are
more descriptors than files, and the value of a name in a section is that of the last assignment in the one
expansion of the file, or the default value. -/
theorem value_after_load (st : State os) (name : Bytes)
    (hfin : {g | Relation.ReflTransGen Includes (⟨st.cwd, name⟩ : File os) g}.Finite)
    (hacyclic : Acyclic Includes (⟨st.cwd, name⟩ : File os))
    (hread : ∀ g, Relation.ReflTransGen Includes (⟨st.cwd, name⟩ : File os) g →
      (os.contents g.dir (cString g.name)).isSome) :
    ∃ es : List Entry, (∀ es', Expansion ⟨st.cwd, name⟩ es' ↔ es' = es) ∧
      ∃ options, (∀ depth descriptors,
          {g | Relation.ReflTransGen Includes (⟨st.cwd, name⟩ : File os) g}.ncard ≤ depth →
          {g | Relation.ReflTransGen Includes (⟨st.cwd, name⟩ : File os) g}.ncard < descriptors →
          loadFromFile os depth descriptors st name = some (⟨st.cwd, options⟩, none)) ∧
        ∀ s k d, options.value s k d = lastValue es s k d := by
  obtain ⟨es, hrun⟩ := Script.succeeds_of_acyclic hfin hacyclic fun g hg => body_of_readable (hread g hg)
  have hes : Expansion ⟨st.cwd, name⟩ es := Script.expands_call_iff.mpr ⟨_, hrun⟩
  refine ⟨es, fun es' => ⟨fun h => h.unique hes, fun h => ?_⟩, assignAll .empty es,
    fun depth descriptors hdepth hfree => ?_, fun s k d => ?_⟩
  · rw [h]
    exact hes
  · exact doLoad_eq hdepth hfree { st with options := .empty } name hrun
  · exact value_assignAll .empty es s k d

end Meaning

/-! ## Two files -/

namespace Sample

/-- A file system with one directory, where a pattern stands for the file of that name. -/
def os (files : Bytes → Option Bytes) : Os where
  Dir := Unit
  contents _ := files
  find _ _ pattern := [pattern]
  chdir _ _ := ()
  getcwd _ := []
  chdir_getcwd _ _ := rfl

def files (name : Bytes) : Option Bytes :=
  if name = ascii "a" then some (ascii "k = 1\n[s]\nk = 2\n@include = b\nk = 3")
  else if name = ascii "b" then some (ascii "; none\nk = 4\n[t\n x = 5 = 6")
  else none

def start : File (os files) := ⟨(), ascii "a"⟩

def first : List (Item (File (os files)) Entry) :=
  [.emit ⟨[], ascii "k", ascii "1"⟩, .emit ⟨ascii "s", ascii "k", ascii "2"⟩,
   .call ⟨(), ascii "b"⟩, .emit ⟨ascii "s", ascii "k", ascii "3"⟩]

theorem body_first {f : File (os files)} (h : cString f.name = ascii "a") : f.body = .ok first := by
  rw [File.body]
  simp only [os, h]
  rfl

/-- Only `a` includes anything. -/
theorem includes_b {f g : File (os files)} (h : Includes f g) :
    cString f.name = ascii "a" ∧ g = ⟨(), ascii "b"⟩ := by
  obtain ⟨is, his, hmem⟩ := h
  by_cases ha : cString f.name = ascii "a"
  · rw [body_first ha] at his
    rw [← Except.ok.inj his] at hmem
    exact ⟨ha, by simpa [first] using hmem⟩
  · by_cases hb : cString f.name = ascii "b"
    · have hbody : f.body = .ok [.emit ⟨[], ascii "k", ascii "4"⟩,
          .emit ⟨ascii "t", ascii "x", ascii "5 = 6"⟩] := by
        rw [File.body]
        simp only [os, hb]
        rfl
      rw [hbody] at his
      rw [← Except.ok.inj his] at hmem
      simp at hmem
    · have hbody : f.body = .error f.dir := by
        rw [File.body]
        simp only [os, files, if_neg ha, if_neg hb]
      rw [hbody] at his
      cases his

theorem reached {g : File (os files)} (h : Relation.ReflTransGen Includes start g) :
    g = start ∨ g = ⟨(), ascii "b"⟩ := by
  cases h with
  | refl => exact .inl rfl
  | tail _ hg => exact .inr (includes_b hg).2

theorem finite : {g | Relation.ReflTransGen Includes start g}.Finite :=
  (Set.toFinite {start, ⟨(), ascii "b"⟩}).subset fun _ hg => reached hg

theorem two_files : {g | Relation.ReflTransGen Includes start g}.ncard ≤ 2 := by
  have hle := Set.ncard_le_ncard (t := {start, ⟨(), ascii "b"⟩}) fun _ hg => reached hg
  exact hle.trans ((Set.ncard_insert_le _ _).trans (by rw [Set.ncard_singleton]))

theorem acyclic : Acyclic Includes start := by
  intro g _ hcycle
  obtain ⟨x, hx, -⟩ := Relation.TransGen.head'_iff.mp hcycle
  obtain ⟨y, -, hy⟩ := Relation.TransGen.tail'_iff.mp hcycle
  have hname := (includes_b hx).1
  rw [(includes_b hy).2] at hname
  exact absurd hname (by decide)

theorem readable {g : File (os files)} (h : Relation.ReflTransGen Includes start g) :
    ((os files).contents g.dir (cString g.name)).isSome := by
  obtain rfl | rfl := reached h
  · decide
  · decide

end Sample

theorem value_after_load_included :
    ∃ es, (∀ es', Expansion Sample.start es' ↔ es' = es) ∧
      ∃ options, (∀ depth descriptors, 2 ≤ depth → 2 < descriptors →
          loadFromFile (Sample.os Sample.files) depth descriptors ⟨(), .empty⟩ (ascii "a") =
            some (⟨(), options⟩, none)) ∧
        ∀ s k d, options.value s k d = lastValue es s k d := by
  obtain ⟨es, hes, options, hload, hvalue⟩ := @value_after_load (Sample.os Sample.files) ⟨(), .empty⟩ (ascii "a")
    Sample.finite Sample.acyclic fun _ => Sample.readable
  refine ⟨es, hes, options, fun depth descriptors hdepth hfree => hload depth descriptors ?_ ?_, hvalue⟩
  · exact Sample.two_files.trans hdepth
  · exact Sample.two_files.trans_lt hfree

end Dcl.Config
