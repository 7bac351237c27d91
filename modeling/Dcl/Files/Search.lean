import Dcl.Foundations.Loop
import Dcl.Strutils.Text

/-! # Searching files by a pattern

`filesystem::const_iterator` of `include/dcl/filesystem.h` over `find_first_file` and `find_next_file`,
with the two implementations of `filefs_impl`. What the operating system finds for a pattern is a
parameter: the list of `glob` on POSIX; on Windows the names that `FindFirstFile` and the calls of
`FindNextFile` after it deliver. `_rownum` is an `int` that wraps around. -/
namespace Dcl.Files
set_option autoImplicit false

/-! ## The iterator -/

/-- The two virtual functions: whether a file was found, the new value of `filename`, and the state of
the search. -/
structure Filesystem where
  State : Type
  findFirstFile : State → Bytes → Bytes → Bool × Bytes × State
  findNextFile : State → Bytes → Bool × Bytes × State

structure ConstIterator (fs : Filesystem) where
  rownum : ℤ
  filename : Bytes
  search : fs.State

section Iterator
variable (fs : Filesystem)

/-- `filesystem::find`. -/
def find (st : fs.State) (pattern : Bytes) : ConstIterator fs :=
  let r := fs.findFirstFile st pattern []
  ⟨if r.1 then 1 else 0, r.2.1, r.2.2⟩

variable {fs}

/-- `operator++`. -/
def ConstIterator.next (i : ConstIterator fs) : ConstIterator fs :=
  let r := fs.findNextFile i.search i.filename
  ⟨if r.1 then toInt32 (i.rownum + 1) else 0, r.2.1, r.2.2⟩

/-- One pass of `for (i = fs.find(pattern); i != fs.end(); ++i)`, with the names visited so far. -/
def visit (p : ConstIterator fs × List Bytes) : ConstIterator fs × List Bytes ⊕ List Bytes :=
  if p.1.rownum = 0 then .inr p.2 else .inl (p.1.next, p.2 ++ [p.1.filename])

variable (fs) in
/-- The loop comes to an end and has visited the names `l`. -/
def Visits (st : fs.State) (pattern : Bytes) (l : List Bytes) : Prop :=
  ∃ n, Loop.loop visit n (find fs st pattern, []) = some l

theorem Visits.unique {st : fs.State} {pattern : Bytes} {l l' : List Bytes}
    (h : Visits fs st pattern l) (h' : Visits fs st pattern l') : l = l' := by
  obtain ⟨n, hn⟩ := h
  obtain ⟨m, hm⟩ := h'
  exact Loop.loop_unique hn hm

variable (fs) in
/-- The calls of `find_next_file` from a state on give these names, then none. -/
def Delivers : fs.State → List Bytes → Prop
  | st, [] => ∀ filename, (fs.findNextFile st filename).1 = false
  | st, x :: xs => ∃ st', (∀ filename, fs.findNextFile st filename = (true, x, st')) ∧ Delivers st' xs

theorem visit_stop {i : ConstIterator fs} (h : i.rownum = 0) (l : List Bytes) :
    visit (i, l) = .inr l := if_pos h

theorem visit_go {row : ℤ} (h : row ≠ 0) (x : Bytes) (st : fs.State) (l : List Bytes) :
    visit (⟨row, x, st⟩, l) = .inl (ConstIterator.next ⟨row, x, st⟩, l ++ [x]) := if_neg h

/-- The loop ends with the names, or when the counter, whose values are `row 0`, `row 1` and so on, comes
to 0 behind the name with the number `m`. -/
theorem loop_delivers (xs : List Bytes) {row : ℕ → ℤ} (hrow : ∀ j, toInt32 (row j + 1) = row (j + 1))
    {m : ℕ} (hgo : ∀ j ≤ m, row j ≠ 0) (hwrap : row (m + 1) = 0) {st : fs.State} (h : Delivers fs st xs)
    (x : Bytes) (l : List Bytes) :
    ∃ n, Loop.loop visit n (⟨row 0, x, st⟩, l) = some (l ++ (x :: xs).take (m + 1)) := by
  induction xs generalizing row m st x l with
  | nil =>
    have hstop : ((⟨row 0, x, st⟩ : ConstIterator fs).next).rownum = 0 := by
      simp only [ConstIterator.next, h x]
      rfl
    refine ⟨2, ?_⟩
    rw [Loop.loop, visit_go (hgo 0 (Nat.zero_le m))]
    simp only [Loop.loop, visit_stop hstop]
    simp
  | cons y ys ih =>
    obtain ⟨st', hnext, hrest⟩ := h
    have hiter : (⟨row 0, x, st⟩ : ConstIterator fs).next = ⟨row 1, y, st'⟩ := by
      simp only [ConstIterator.next, hnext, if_true, hrow]
    cases m with
    | zero =>
      refine ⟨2, ?_⟩
      rw [Loop.loop, visit_go (hgo 0 le_rfl)]
      simp only [Loop.loop, hiter, visit_stop (i := ⟨row 1, y, st'⟩) hwrap]
      simp
    | succ m =>
      have hrow' : ∀ j, toInt32 (row (j + 1) + 1) = row (j + 1 + 1) := fun j => hrow (j + 1)
      obtain ⟨n, hn⟩ := @ih (fun j => row (j + 1)) hrow' m
        (fun j hj => hgo (j + 1) (by omega)) hwrap st' hrest y (l ++ [x])
      refine ⟨n + 1, ?_⟩
      rw [Loop.loop, visit_go (hgo 0 (by omega))]
      simp only [hiter]
      rw [hn]
      simp

/-- The counter of the `j`-th name after the first. -/
def rowOf (j : ℕ) : ℤ := toInt32 (j + 1)

theorem rowOf_succ (j : ℕ) : toInt32 (rowOf j + 1) = rowOf (j + 1) := by
  simp only [rowOf, toInt32, Int.bmod_add_bmod]
  norm_cast

theorem rowOf_ne_zero {j : ℕ} (h : j ≤ 2 ^ 32 - 2) : rowOf j ≠ 0 := by
  unfold rowOf toInt32
  rw [Int.bmod_def]
  omega

theorem rowOf_wrap {j : ℕ} (h : j = 2 ^ 32 - 1) : rowOf j = 0 := by
  unfold rowOf toInt32
  rw [Int.bmod_def]
  omega

theorem visits_none {st : fs.State} {pattern : Bytes}
    (h : (fs.findFirstFile st pattern []).1 = false) : Visits fs st pattern [] := by
  refine ⟨1, ?_⟩
  have hzero : (find fs st pattern).rownum = 0 := by
    simp only [find, h]
    rfl
  rw [Loop.loop, visit_stop hzero]

theorem visits_some {st st' : fs.State} {pattern x : Bytes} {xs : List Bytes}
    (h : fs.findFirstFile st pattern [] = (true, x, st')) (hxs : Delivers fs st' xs) :
    Visits fs st pattern ((x :: xs).take (2 ^ 32 - 1)) := by
  have hfind : find fs st pattern = ⟨rowOf 0, x, st'⟩ := by
    have hone : rowOf 0 = 1 := by decide
    simp only [find, h, if_true, hone]
  obtain ⟨n, hn⟩ := loop_delivers xs rowOf_succ (m := 2 ^ 32 - 2) (fun j hj => rowOf_ne_zero hj)
    (rowOf_wrap (by norm_num)) hxs x []
  have hm : 2 ^ 32 - 2 + 1 = 2 ^ 32 - 1 := by norm_num
  rw [hm, List.nil_append] at hn
  exact ⟨n, by rw [hfind, hn]⟩

end Iterator

/-! ## POSIX -/

structure PosixState where
  pathv : List Bytes
  cur : ℕ

def posixFindNextFile (st : PosixState) (_filename : Bytes) : Bool × Bytes × PosixState :=
  match st.pathv[st.cur]? with
  | some name => (true, name, { st with cur := st.cur + 1 })
  | none => (false, [], st)

/-- `glob` gives the list of names, or `none` when it does not return 0. -/
def posix (glob : Bytes → Option (List Bytes)) : Filesystem where
  State := PosixState
  findFirstFile st pattern filename :=
    match glob (cString pattern) with
    | some pathv => posixFindNextFile ⟨pathv, 0⟩ filename
    | none => (false, filename, { st with cur := 0 })
  findNextFile := posixFindNextFile

theorem posix_delivers {glob : Bytes → Option (List Bytes)} (before xs : List Bytes) :
    Delivers (posix glob) (⟨before ++ xs, before.length⟩ : PosixState) xs := by
  induction xs generalizing before with
  | nil =>
    intro filename
    simp [posix, posixFindNextFile]
  | cons x xs ih =>
    refine ⟨⟨before ++ x :: xs, before.length + 1⟩, fun filename => ?_, ?_⟩
    · simp [posix, posixFindNextFile]
    · have h := ih (before ++ [x])
      rw [List.append_assoc, List.singleton_append, List.length_append, List.length_singleton] at h
      exact h

/-- The names in the order of `glob`, as long as the counter does not wrap around. -/
theorem posix_visits (glob : Bytes → Option (List Bytes)) (st : PosixState) (pattern : Bytes) :
    Visits (posix glob) st pattern (((glob (cString pattern)).getD []).take (2 ^ 32 - 1)) := by
  cases hg : glob (cString pattern) with
  | none =>
    have h : ((posix glob).findFirstFile st pattern []).1 = false := by simp only [posix, hg]
    exact visits_none h
  | some pathv =>
    cases pathv with
    | nil =>
      have h : ((posix glob).findFirstFile st pattern []).1 = false := by
        simp only [posix, hg]
        rfl
      exact visits_none h
    | cons x xs =>
      have h : (posix glob).findFirstFile st pattern [] = (true, x, (⟨x :: xs, 1⟩ : PosixState)) := by
        simp only [posix, hg]
        rfl
      exact visits_some h (posix_delivers [x] xs)

/-! ## Windows -/

/-- `data` is the name in `find_data`, `pending` what the next calls of `FindNextFile` deliver. -/
structure WindowsState where
  path : Bytes
  data : Bytes
  pending : List Bytes

/-- The name is taken from `find_data` before the search goes on. -/
def windowsFindNextFile (st : WindowsState) (_filename : Bytes) : Bool × Bytes × WindowsState :=
  let filename := st.path ++ st.data
  match st.pending with
  | data :: pending => (true, filename, { st with data := data, pending := pending })
  | [] => (false, filename, st)

/-- The path of the pattern, which is put in front of every name. -/
def patternPath (old pattern : Bytes) : Bytes :=
  let path := (tokenizePair pattern old [] true (ascii "/\\")).1
  if path.isEmpty then path else path ++ ascii "\\"

def windows (names : Bytes → List Bytes) : Filesystem where
  State := WindowsState
  findFirstFile st pattern filename :=
    let path := patternPath st.path pattern
    match names (cString pattern) with
    | data :: pending => (true, path ++ data, ⟨path, data, pending⟩)
    | [] => (false, filename, { st with path := path })
  findNextFile := windowsFindNextFile

/-- Each call of `find_next_file` gives the name before the one it moves to. -/
theorem windows_delivers {names : Bytes → List Bytes} (path data : Bytes) (pending : List Bytes) :
    Delivers (windows names) (⟨path, data, pending⟩ : WindowsState)
      ((data :: pending).dropLast.map (path ++ ·)) := by
  induction pending generalizing data with
  | nil =>
    intro filename
    rfl
  | cons y ys ih => exact ⟨⟨path, y, ys⟩, fun filename => rfl, ih y⟩

/-- The first name twice, and the last one not at all. -/
def shifted : List Bytes → List Bytes
  | [] => []
  | x :: xs => x :: (x :: xs).dropLast

theorem windows_visits (names : Bytes → List Bytes) (st : WindowsState) (pattern : Bytes) :
    Visits (windows names) st pattern
      ((shifted ((names (cString pattern)).map (patternPath st.path pattern ++ ·))).take
        (2 ^ 32 - 1)) := by
  cases hn : names (cString pattern) with
  | nil =>
    have h : ((windows names).findFirstFile st pattern []).1 = false := by simp only [windows, hn]
    exact visits_none h
  | cons x xs =>
    have h : (windows names).findFirstFile st pattern [] = (true, patternPath st.path pattern ++ x,
        (⟨patternPath st.path pattern, x, xs⟩ : WindowsState)) := by simp only [windows, hn]
    have hvisits := visits_some h (windows_delivers _ x xs)
    rw [List.map_dropLast] at hvisits
    exact hvisits

/-! ## Both -/

theorem length_shifted (l : List Bytes) : (shifted l).length = l.length := by
  cases l with
  | nil => rfl
  | cons x xs => simp [shifted]

theorem shifted_eq_iff (l : List Bytes) : shifted l = l ↔ ∀ x ∈ l, ∀ y ∈ l, x = y := by
  cases l with
  | nil => simp [shifted]
  | cons x xs =>
    have hall : (x :: xs).dropLast = xs ↔ ∀ y ∈ xs, y = x := by
      induction xs generalizing x with
      | nil => simp
      | cons y ys ih =>
        rw [List.dropLast_cons_cons, List.cons.injEq, ih y, List.forall_mem_cons]
        constructor
        · rintro ⟨rfl, h⟩
          exact ⟨rfl, h⟩
        · rintro ⟨rfl, h⟩
          exact ⟨rfl, h⟩
    rw [shifted, List.cons.injEq, hall]
    constructor
    · rintro ⟨-, h⟩ a ha b hb
      have hx : ∀ z ∈ x :: xs, z = x := List.forall_mem_cons.mpr ⟨rfl, h⟩
      rw [hx a ha, hx b hb]
    · intro h
      exact ⟨rfl, fun y hy => h y (by simp [hy]) x (by simp)⟩

/-- Both implementations visit exactly the names that the system's search yields if and only if there
are fewer than `2 ^ 32` of them and they are all the same name. -/
theorem search_visits_iff (glob : Bytes → Option (List Bytes)) (names : Bytes → List Bytes)
    (posixSt : PosixState) (windowsSt : WindowsState) (pattern : Bytes) (l : List Bytes)
    (hglob : (glob (cString pattern)).getD [] = l)
    (hnames : (names (cString pattern)).map (patternPath windowsSt.path pattern ++ ·) = l) :
    Visits (posix glob) posixSt pattern l ∧ Visits (windows names) windowsSt pattern l ↔
      l.length < 2 ^ 32 ∧ ∀ x ∈ l, ∀ y ∈ l, x = y := by
  have hposix := posix_visits glob posixSt pattern
  have hwindows := windows_visits names windowsSt pattern
  rw [hglob] at hposix
  rw [hnames] at hwindows
  rw [← shifted_eq_iff]
  constructor
  · rintro ⟨hp, hw⟩
    have hlen : l.length ≤ 2 ^ 32 - 1 := by
      rw [← hposix.unique hp, List.length_take]
      exact Nat.min_le_left _ _
    have hs := hwindows.unique hw
    rw [List.take_of_length_le (by rw [length_shifted]; exact hlen)] at hs
    exact ⟨by omega, hs⟩
  · rintro ⟨hlen, hs⟩
    rw [List.take_of_length_le (by omega)] at hposix
    rw [hs, List.take_of_length_le (by omega)] at hwindows
    exact ⟨hposix, hwindows⟩

theorem search_visits_one :
    Visits (posix fun _ => some [ascii "a.conf"]) ⟨[], 0⟩ (ascii "*.conf") [ascii "a.conf"] ∧
      Visits (windows fun _ => [ascii "a.conf"]) ⟨[], [], []⟩ (ascii "*.conf")
        [ascii "a.conf"] :=
  (search_visits_iff (fun _ => some [ascii "a.conf"]) (fun _ => [ascii "a.conf"]) ⟨[], 0⟩ ⟨[], [], []⟩
    (ascii "*.conf") [ascii "a.conf"] rfl (by decide)).mpr ⟨by decide, by simp⟩

/-- With two files the Windows implementation visits the first one twice. -/
theorem search_repeats_first :
    Visits (posix fun _ => some [ascii "a", ascii "b"]) ⟨[], 0⟩ (ascii "*") [ascii "a", ascii "b"] ∧
      Visits (windows fun _ => [ascii "a", ascii "b"]) ⟨[], [], []⟩ (ascii "*")
        [ascii "a", ascii "a"] ∧
      ¬Visits (windows fun _ => [ascii "a", ascii "b"]) ⟨[], [], []⟩ (ascii "*")
        [ascii "a", ascii "b"] := by
  have hw : Visits (windows fun _ => [ascii "a", ascii "b"]) ⟨[], [], []⟩ (ascii "*")
      [ascii "a", ascii "a"] := ⟨3, by rfl⟩
  exact ⟨⟨3, by rfl⟩, hw, fun h => absurd (hw.unique h) (by decide)⟩

end Dcl.Files
