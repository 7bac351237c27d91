import Dcl.Foundations.OrderedMap
import Dcl.Strutils.Text
import Mathlib.Data.List.Lex

/-! # `app_config`: loading a configuration file

`src/dcl/app_config.cpp`. The operating system (`ifstream`, `glob`, `chdir` and `getcwd`) is a parameter.
`doLoad` is `app_config::do_load` with a bound on the depth of its recursion; the current directory of the
process is part of the state, and an exception leaves the state as it is at that moment. Every level of the
recursion keeps its stream open, so the number of descriptors that are left is one less in each. -/
namespace Dcl.Config
set_option autoImplicit false

/-- `contents` are the bytes of a file that can be opened when a descriptor is left, `find` the files that the
iteration from `fs.find(pattern)` to `fs.end()` visits. A pattern is matched against the names in a directory,
which takes a descriptor: `find` is told whether there is one. A `chdir` that fails stays where it is. -/
structure Os where
  Dir : Type
  contents : Dir → Bytes → Option Bytes
  find : Bool → Dir → Bytes → List Bytes
  chdir : Dir → Bytes → Dir
  getcwd : Dir → Bytes
  /-- `getcwd` is the absolute path of the directory. -/
  chdir_getcwd : ∀ d d', chdir d' (cString (getcwd d)) = d

/-- `std::less<std::string>`. -/
def byteOrder : KeyOrder Bytes := .along (List.map UInt8.toNat)

abbrev StrIndex := OrderedMap byteOrder Bytes

abbrev Sections := OrderedMap byteOrder StrIndex

structure State (os : Os) where
  cwd : os.Dir
  options : Sections

/-- `options[section][name] = value`. -/
def Sections.assign (options : Sections) (sect name value : Bytes) : Sections :=
  options.set sect (((options.find sect).getD .empty).set name value)

/-- `value<std::string>`. -/
def Sections.value (options : Sections) (sect name defValue : Bytes) : Bytes :=
  match options.find sect with
  | none => defValue
  | some i => (i.find name).getD defValue

/-! ## Lines -/

/-- The lines `getline` delivers: an empty text behind the last line feed is not one. -/
def fileLines (text : Bytes) : List Bytes :=
  let parts := text.splitOn LF
  if parts.getLast? = some [] then parts.dropLast else parts

inductive Line where
  | skip
  | header (name : Bytes)
  | assign (name value : Bytes)
  | includes (pattern : Bytes)
  deriving DecidableEq, Repr

/-- A line that is not a section: a pair, or an `@include`. -/
def readPair (line : Bytes) : Line :=
  match findFirstOf line (ascii "=") 1 with
  | none => .skip
  | some pos =>
      if trim (line.take pos) = ascii "@include" then .includes (trim (line.drop (pos + 1)))
      else .assign (trim (line.take pos)) (trim (line.drop (pos + 1)))

/-- What the loop makes of a line of the file. -/
def readLine (raw : Bytes) : Line :=
  let line := trim raw
  match line with
  | [] => .skip
  | c :: _ =>
      if c = 35 ∨ c = 59 then .skip
      else if c = 91 then
        .header (trim (match findFirstOf line (ascii "]") 0 with
          | some pos => substr line 1 (pos - 1)
          | none => line.drop 1))
      else readPair line

/-! ## `do_load` -/

/-- The state, and the text of the `app_config_exception` if one was thrown; `none` when the bound on the
recursion was reached. -/
abbrev Outcome (os : Os) := Option (State os × Option Bytes)

section Load
variable {os : Os}

def loadFiles (load : State os → Bytes → Outcome os) : List Bytes → State os → Outcome os
  | [], st => some (st, none)
  | i :: files, st =>
      match load st i with
      | some (st, none) => loadFiles load files st
      | r => r

/-- The directory in which the files of an `@include` are searched and opened. -/
def includeDir (os : Os) (cwd : os.Dir) (name : Bytes) : os.Dir :=
  let path := (tokenizePair name [] [] true (ascii "/\\")).1
  if path.isEmpty then cwd else os.chdir cwd (cString path)

def loadInclude (free : Bool) (load : State os → Bytes → Outcome os) (name pattern : Bytes) (st : State os) :
    Outcome os :=
  let tmp := os.getcwd st.cwd
  let dir := includeDir os st.cwd name
  match loadFiles load (os.find free dir (cString pattern)) { st with cwd := dir } with
  | some (st, none) => some ({ st with cwd := os.chdir st.cwd (cString tmp) }, none)
  | r => r

def loadLines (free : Bool) (load : State os → Bytes → Outcome os) (name : Bytes) :
    List Bytes → Bytes → State os → Outcome os
  | [], _, st => some (st, none)
  | line :: lines, sect, st =>
      match readLine line with
      | .skip => loadLines free load name lines sect st
      | .header s => loadLines free load name lines s st
      | .assign key value =>
          loadLines free load name lines sect { st with options := st.options.assign sect key value }
      | .includes pattern =>
          match loadInclude free load name pattern st with
          | some (st, none) => loadLines free load name lines sect st
          | r => r

def notFound : Bytes := ascii "configuration file not found; default values will be used"

/-- The second number is that of the descriptors that are left. The stream takes one until its level is left;
without one it is not opened. -/
def doLoad (os : Os) : ℕ → ℕ → State os → Bytes → Outcome os
  | 0, _, _, _ => none
  | _ + 1, 0, st, _ => some (st, some notFound)
  | depth + 1, descriptors + 1, st, name =>
      match os.contents st.cwd (cString name) with
      | none => some (st, some notFound)
      | some text => loadLines (0 < descriptors) (doLoad os depth descriptors) name (fileLines text) [] st

/-- `load_from_file` clears the options first. -/
def loadFromFile (os : Os) (depth descriptors : ℕ) (st : State os) (name : Bytes) : Outcome os :=
  doLoad os depth descriptors { st with options := .empty } name

end Load

end Dcl.Config
