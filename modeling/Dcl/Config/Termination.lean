import Dcl.Config.Meaning

/-! # Loading a configuration comes to an end

`do_load` keeps no record of the files it is loading: a file that is loaded from within itself is loaded
again and again. But each of these levels keeps its stream open, and when no descriptor is left the next
file is not opened, which ends everything with an exception. The measure is the number of descriptors
that are left. -/
namespace Dcl.Config
set_option autoImplicit false

section Termination
variable {os : Os}

/-- It was returned, or the `app_config_exception` of `do_load` was thrown. -/
def Ends (r : Outcome os) : Prop := ∃ s : State os × Option Bytes, r = some s ∧ (s.2 = none ∨ s.2 = some notFound)

theorem Ends.returned (st : State os) : Ends (some (st, none)) := ⟨_, rfl, .inl rfl⟩

theorem Ends.thrown (st : State os) : Ends (some (st, some notFound)) := ⟨_, rfl, .inr rfl⟩

section Levels
variable {load : State os → Bytes → Outcome os} (hload : ∀ st name, Ends (load st name))
include hload

theorem loadFiles_ends (files : List Bytes) (st : State os) : Ends (loadFiles load files st) := by
  induction files generalizing st with
  | nil => exact .returned st
  | cons i files ih =>
    obtain ⟨⟨st', e⟩, hr, rfl | rfl⟩ := hload st i
    · rw [loadFiles, hr]
      exact ih st'
    · rw [loadFiles, hr]
      exact .thrown st'

theorem loadInclude_ends (free : Bool) (name pattern : Bytes) (st : State os) :
    Ends (loadInclude free load name pattern st) := by
  rw [loadInclude]
  obtain ⟨⟨st', e⟩, hr, rfl | rfl⟩ := loadFiles_ends hload
    (os.find free (includeDir os st.cwd name) (cString pattern)) { st with cwd := includeDir os st.cwd name }
  · rw [hr]
    exact .returned _
  · rw [hr]
    exact .thrown st'

theorem loadLines_ends (free : Bool) (name : Bytes) (lines : List Bytes) (sect : Bytes) (st : State os) :
    Ends (loadLines free load name lines sect st) := by
  induction lines generalizing sect st with
  | nil => exact .returned st
  | cons line lines ih =>
    rw [loadLines]
    cases readLine line with
    | skip => exact ih sect st
    | header s => exact ih s st
    | assign key value => exact ih sect _
    | includes pattern =>
      obtain ⟨⟨st', e⟩, hr, rfl | rfl⟩ := loadInclude_ends hload free name pattern st
      · dsimp only
        rw [hr]
        exact ih sect st'
      · dsimp only
        rw [hr]
        exact .thrown st'

end Levels

/-- One level more than there are descriptors is deep enough. -/
theorem doLoad_ends (descriptors : ℕ) (st : State os) (name : Bytes) :
    Ends (doLoad os (descriptors + 1) descriptors st name) := by
  induction descriptors generalizing st name with
  | zero => exact .thrown st
  | succ descriptors ih =>
    rw [doLoad]
    cases os.contents st.cwd (cString name) with
    | none => exact .thrown st
    | some text => exact loadLines_ends ih _ name (fileLines text) [] st

/-- The levels below are never reached. -/
theorem doLoad_of_lt {depth descriptors : ℕ} (h : descriptors < depth) :
    doLoad os depth descriptors = doLoad os (descriptors + 1) descriptors := by
  induction descriptors generalizing depth with
  | zero =>
    obtain ⟨depth, rfl⟩ : ∃ k, depth = k + 1 := ⟨depth - 1, by omega⟩
    rfl
  | succ descriptors ih =>
    obtain ⟨depth, rfl⟩ : ∃ k, depth = k + 1 := ⟨depth - 1, by omega⟩
    have hbelow := @ih depth (by omega)
    funext st name
    rw [doLoad, doLoad, hbelow]

end Termination

namespace Sample

/-- A file that includes itself. -/
def itself (name : Bytes) : Option Bytes :=
  if name = ascii "a" then some (ascii "k = 1\n@include = a") else none

end Sample

example : (loadFromFile (Sample.os Sample.itself) 5 4 ⟨(), .empty⟩ (ascii "a")).map Prod.snd =
    some (some notFound) := by decide +kernel

end Dcl.Config
