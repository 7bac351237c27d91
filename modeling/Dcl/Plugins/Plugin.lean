import Dcl.Foundations.Ledger
import Dcl.Foundations.Transition
import Dcl.Strutils.Format

/-! # `plugin`: calls into a library that is loaded and unloaded

`src/dcl/plugin.cpp` and `src/dcl/posix/plugin_impl.cpp`. A plugin object holds the handle of one library and
four pointers to its functions; nothing sets the pointers before the first `load`, and nothing takes them back
when a `load` fails. The destructor calls `finalize` through one of them.

Every `dlopen` that succeeds is a library of its own, with the number of the opening; a pointer is the library
that it points into, or `none` when it was never set or is null. -/
namespace Dcl.Plugins
open Ledger (Entry)
set_option autoImplicit false

abbrev Lib := ℕ

/-- What `dlopen` and the four calls of `dlsym` find, and the text that `dlerror` has for the first failure. -/
structure LoadResult where
  opens : Bool
  init : Bool
  createObject : Bool
  destroyObject : Bool
  finalize : Bool
  error : Bytes

structure PluginImpl where
  handle : Option Lib
  filename : Bytes
  init : Option Lib
  createObject : Option Lib
  destroyObject : Option Lib
  finalize : Option Lib
  deriving DecidableEq

namespace PluginImpl

def new : PluginImpl := ⟨none, [], none, none, none, none⟩

/-- The object with the pointers that a search for the four names leaves, and whether it found them all. -/
def search (p : PluginImpl) (lib : Lib) (r : LoadResult) : PluginImpl × Bool :=
  let p := { p with init := if r.init then some lib else none }
  if !r.init then (p, false)
  else
    let p := { p with createObject := if r.createObject then some lib else none }
    if !r.createObject then (p, false)
    else
      let p := { p with destroyObject := if r.destroyObject then some lib else none }
      if !r.destroyObject then (p, false)
      else ({ p with finalize := if r.finalize then some lib else none }, r.finalize)

/-- `load`, for a library that becomes number `lib`; with what happens to the libraries. -/
def load (p : PluginImpl) (lib : Lib) (filename : Bytes) (r : LoadResult) :
    PluginImpl × Except Bytes Unit × List (Entry (Option Lib)) :=
  let closing := (p.handle.map fun h => Entry.closed (some h)).toList
  let p := { p with filename := filename, handle := if r.opens then some lib else none }
  if !r.opens then (p, .error r.error, closing)
  else
    let s := p.search lib r
    if s.2 then (s.1, .ok (), closing ++ [.opened (some lib)])
    else ({ s.1 with handle := none }, .error r.error,
      closing ++ [.opened (some lib), .closed (some lib)])

/-- The exception of `create_object`. -/
def notCreated (p : PluginImpl) (name : Bytes) : Bytes :=
  (Format.str (ascii "Plugin '\x7b0\x7d' can't create object '\x7b1\x7d'") [p.filename, name]).getD []

end PluginImpl

/-! ## One plugin object -/

/-- `impl` is `none` once the plugin is destroyed. `objects` are the libraries whose `create_object` made the
objects that are still there; `loads` counts the openings. -/
structure Plugin where
  impl : Option PluginImpl
  objects : List (Option (Option Lib))
  loads : ℕ
  ledger : Ledger (Option Lib)

def Plugin.new : Plugin := ⟨some .new, [], 0, .empty⟩

/-- `createObject name made`: the function of the library answers with an object if `made`. `destroyObject k`:
on the object that the `k`th successful `create_object` returned. -/
inductive Op where
  | load (filename : Bytes) (r : LoadResult)
  | init
  | createObject (name : Bytes) (made : Bool)
  | destroyObject (k : ℕ)
  | destroy

namespace Plugin

def object (s : Plugin) (k : ℕ) : Option (Option Lib) := s.objects[k]?.join

def note (s : Plugin) (es : List (Entry (Option Lib))) : Plugin := { s with ledger := s.ledger.enterAll es }

/-- What an operation does, and the exception it ends with. -/
def op (s : Plugin) (p : PluginImpl) : Op → Option (Plugin × Except Bytes Unit)
  | .load filename r =>
      let l := p.load s.loads filename r
      some ({ s with impl := some l.1, loads := s.loads + 1 }.note l.2.2, l.2.1)
  | .init => some (s.note [.used p.init], .ok ())
  | .createObject name made =>
      if made then some ({ s with objects := s.objects ++ [some p.createObject] }.note [.used p.createObject], .ok ())
      else some (s.note [.used p.createObject], .error (p.notCreated name))
  | .destroyObject k => (s.object k).map fun lib =>
      -- the object's own code runs as well as the function that destroys it
      ({ s with objects := s.objects.set k none }.note [.used p.destroyObject, .used lib], .ok ())
  | .destroy =>
      some ({ s with impl := none }.note
        (.used p.finalize :: (p.handle.map fun h => Entry.closed (some h)).toList), .ok ())

def step (s : Plugin) (o : Op) : Option Plugin := s.impl.bind fun p => (s.op p o).map Prod.fst

/-- The last `load` succeeded, and an object that is to be destroyed comes from the library that it loaded. -/
def inOrder (s : Plugin) : Op → Bool
  | .load _ _ => true
  | .init => s.impl.any fun p => p.handle.isSome
  | .createObject _ _ => s.impl.any fun p => p.handle.isSome
  | .destroyObject k => s.impl.any fun p => p.handle.isSome && decide (s.object k = some p.handle)
  | .destroy => s.impl.any fun p => p.handle.isSome

/-! ## The library that is open -/

/-- The pointers of an object with a library point into it. -/
def Loaded (p : PluginImpl) : Prop :=
  ∀ h ∈ p.handle, p.init = some h ∧ p.createObject = some h ∧ p.destroyObject = some h ∧ p.finalize = some h

/-- The only library that is open is that of the object, and every opening has a number of its own. -/
structure Tidy (s : Plugin) : Prop where
  live : s.ledger.live = ((s.impl.bind PluginImpl.handle).map some).toList
  numbered : ∀ h ∈ s.impl.bind PluginImpl.handle, h < s.loads
  loaded : ∀ p ∈ s.impl, Loaded p

end Plugin

section Runs
variable {s s' : Plugin} {p : PluginImpl} {o : Op}

theorem search_found {lib : Lib} {r : LoadResult} (h : (p.search lib r).2 = true) :
    (p.search lib r).1 = { p with
      init := some lib, createObject := some lib, destroyObject := some lib, finalize := some lib } := by
  rw [PluginImpl.search] at h ⊢
  cases hi : r.init <;> cases hc : r.createObject <;> cases hd : r.destroyObject <;> cases hf : r.finalize <;>
    simp_all

theorem search_handle {lib : Lib} {r : LoadResult} : (p.search lib r).1.handle = p.handle := by
  simp only [PluginImpl.search]
  split
  · rfl
  · split
    · rfl
    · split <;> rfl

/-- What a `load` can do: it leaves no library, or the new one with all its functions. -/
theorem load_cases (p : PluginImpl) (lib : Lib) (filename : Bytes) (r : LoadResult) :
    ((p.load lib filename r).1.handle = none ∧
      ((p.load lib filename r).2.2 = (p.handle.map fun h => Entry.closed (some h)).toList ∨
        (p.load lib filename r).2.2 =
          (p.handle.map fun h => Entry.closed (some h)).toList ++ [.opened (some lib), .closed (some lib)])) ∨
    ((p.load lib filename r).1.handle = some lib ∧ Plugin.Loaded (p.load lib filename r).1 ∧
      (p.load lib filename r).2.2 =
        (p.handle.map fun h => Entry.closed (some h)).toList ++ [.opened (some lib)]) := by
  rw [PluginImpl.load]
  cases ho : r.opens with
  | false => exact .inl ⟨rfl, .inl rfl⟩
  | true =>
    simp only [Bool.not_true, Bool.false_eq_true, if_false, if_true]
    split
    case isTrue hfound =>
      have hsearch := search_found hfound
      refine .inr ⟨search_handle, ?_, rfl⟩
      rw [hsearch]
      intro h hh
      obtain rfl : lib = h := Option.some.inj hh
      exact ⟨rfl, rfl, rfl, rfl⟩
    case isFalse => exact .inl ⟨rfl, .inr rfl⟩

/-- Closing the library of the object is always allowed. -/
theorem close_handle {b : Ledger (Option Lib)} {h : Option Lib} (hlive : b.live = (h.map some).toList) :
    b.enterAll (h.map fun h => Entry.closed (some h)).toList = { b with live := [] } := by
  cases h with
  | none =>
    cases b
    simp_all [Ledger.enterAll]
  | some lib =>
    have hallowed : b.allows (.closed (some lib)) = true := by simp [Ledger.allows, hlive]
    rw [Option.map_some, Option.toList_some, Ledger.enterAll_cons, Ledger.enterAll_nil,
      Ledger.enter_allowed hallowed]
    simp [Ledger.after, hlive]

theorem open_lib {b : Ledger (Option Lib)} (hlive : b.live = []) (lib : Lib) :
    b.enter (.opened (some lib)) = { b with live := [some lib] } := by
  have hallowed : b.allows (.opened (some lib)) = true := by simp [Ledger.allows, hlive]
  rw [Ledger.enter_allowed hallowed, Ledger.after, hlive]

/-- What a `load` does to the ledger: the new library, if it stays, is the only one that is open, and there is no
new fault. -/
theorem load_ledger {b : Ledger (Option Lib)} (hlive : b.live = (p.handle.map some).toList) (lib : Lib)
    (filename : Bytes) (r : LoadResult) : b.enterAll (p.load lib filename r).2.2 =
      { b with live := ((p.load lib filename r).1.handle.map some).toList } := by
  rcases load_cases p lib filename r with ⟨hnone, hes | hes⟩ | ⟨hsome, -, hes⟩
  · rw [hes, hnone, close_handle hlive]
    rfl
  · rw [hes, hnone, Ledger.enterAll_append, close_handle hlive, Ledger.enterAll_cons, open_lib rfl]
    have hallowed : (⟨[some lib], b.faults⟩ : Ledger (Option Lib)).allows (.closed (some lib)) = true := by
      simp [Ledger.allows]
    rw [Ledger.enterAll_cons, Ledger.enter_allowed hallowed, Ledger.enterAll_nil]
    simp [Ledger.after]
  · rw [hes, hsome, Ledger.enterAll_append, close_handle hlive, Ledger.enterAll_cons, open_lib rfl,
      Ledger.enterAll_nil]
    rfl

/-- A pointer can be called exactly when the object has a library. -/
theorem pointer_live_iff {b : Ledger (Option Lib)} (hlive : b.live = (p.handle.map some).toList)
    {q : Option Lib} (hq : ∀ h ∈ p.handle, q = some h) : q ∈ b.live ↔ p.handle.isSome = true := by
  rw [hlive]
  cases hh : p.handle with
  | none => simp
  | some h => simp [hq h (by rw [hh]; rfl)]

theorem object_live_iff {b : Ledger (Option Lib)} (hlive : b.live = (p.handle.map some).toList)
    (lib : Option Lib) : lib ∈ b.live ↔ p.handle.isSome = true ∧ lib = p.handle := by
  rw [hlive]
  cases p.handle <;> simp

theorem note_used_live (s : Plugin) (rs : List (Option Lib)) :
    (s.note (rs.map .used)).ledger.live = s.ledger.live := Ledger.enterAll_used_live s.ledger rs

/-- Uses of libraries leave the object tidy. -/
theorem Plugin.Tidy.used (hs : s.Tidy) (rs : List (Option Lib)) (objects : List (Option (Option Lib))) :
    ({ s with objects := objects }.note (rs.map .used)).Tidy :=
  ⟨(note_used_live _ rs).trans hs.live, hs.numbered, hs.loaded⟩

theorem tidy_step (hs : s.Tidy) (h : s.step o = some s') : s'.Tidy := by
  obtain ⟨p, hp, hstep⟩ := Option.bind_eq_some_iff.mp h
  obtain ⟨⟨t, r⟩, hop, rfl⟩ := Option.map_eq_some_iff.mp hstep
  have hlive := hs.live
  rw [hp, Option.bind_some] at hlive
  cases o with
  | load filename r =>
    cases hop
    refine ⟨?_, fun h hh => ?_, fun q hq => ?_⟩
    · exact congrArg Ledger.live (load_ledger hlive s.loads filename r)
    · have hhandle : (p.load s.loads filename r).1.handle = some h := hh
      rcases load_cases p s.loads filename r with ⟨hnone, -⟩ | ⟨hsome, -⟩
      · rw [hnone] at hhandle
        cases hhandle
      · rw [hsome] at hhandle
        rw [← Option.some.inj hhandle]
        exact Nat.lt_succ_self _
    · obtain rfl : (p.load s.loads filename r).1 = q := Option.some.inj hq
      rcases load_cases p s.loads filename r with ⟨hnone, -⟩ | ⟨-, hloaded, -⟩
      · rw [Plugin.Loaded, hnone]
        nofun
      · exact hloaded
  | init =>
    cases hop
    exact hs.used [p.init] s.objects
  | createObject name made =>
    simp only [Plugin.op] at hop
    split at hop
    · cases hop
      exact hs.used [p.createObject] _
    · cases hop
      exact hs.used [p.createObject] s.objects
  | destroyObject k =>
    obtain ⟨lib, -, hop⟩ := Option.map_eq_some_iff.mp hop
    cases hop
    exact hs.used [p.destroyObject, lib] _
  | destroy =>
    cases hop
    have hused : (s.ledger.enter (.used p.finalize)).live = (p.handle.map some).toList := by
      rw [Ledger.enter_used_live, hlive]
    refine ⟨?_, nofun, nofun⟩
    exact congrArg Ledger.live (close_handle hused)

theorem faults_step (hs : s.Tidy) (h : s.step o = some s') :
    s'.ledger.faults = [] ↔ s.ledger.faults = [] ∧ s.inOrder o = true := by
  obtain ⟨p, hp, hstep⟩ := Option.bind_eq_some_iff.mp h
  obtain ⟨⟨t, r⟩, hop, rfl⟩ := Option.map_eq_some_iff.mp hstep
  have hlive := hs.live
  rw [hp, Option.bind_some] at hlive
  have hloaded := hs.loaded p hp
  cases o with
  | load filename r =>
    cases hop
    have hledger := congrArg Ledger.faults (load_ledger hlive s.loads filename r)
    change (s.ledger.enterAll _).faults = [] ↔ _
    rw [hledger]
    exact (and_iff_left rfl).symm
  | init =>
    cases hop
    have hptr := pointer_live_iff hlive fun h hh => (hloaded h hh).1
    refine (Ledger.enterAll_used_faults_iff s.ledger [p.init]).trans (and_congr_right fun _ => ?_)
    rw [List.forall_mem_singleton, hptr, Plugin.inOrder, hp]
    rfl
  | createObject name made =>
    have hptr := pointer_live_iff hlive fun h hh => (hloaded h hh).2.1
    have hiff : (s.ledger.enterAll [.used p.createObject]).faults = [] ↔
        s.ledger.faults = [] ∧ s.inOrder (.createObject name made) = true := by
      refine (Ledger.enterAll_used_faults_iff s.ledger [p.createObject]).trans (and_congr_right fun _ => ?_)
      rw [List.forall_mem_singleton, hptr, Plugin.inOrder, hp]
      rfl
    simp only [Plugin.op] at hop
    split at hop
    · cases hop
      exact hiff
    · cases hop
      exact hiff
  | destroyObject k =>
    obtain ⟨lib, hk, hop⟩ := Option.map_eq_some_iff.mp hop
    cases hop
    have hptr := pointer_live_iff hlive fun h hh => (hloaded h hh).2.2.1
    refine (Ledger.enterAll_used_faults_iff s.ledger [p.destroyObject, lib]).trans (and_congr_right fun _ => ?_)
    rw [List.forall_mem_cons, List.forall_mem_singleton, hptr, object_live_iff hlive lib, Plugin.inOrder, hp]
    simp only [Option.any_some, Bool.and_eq_true, decide_eq_true_eq, hk, Option.some.injEq]
    tauto
  | destroy =>
    cases hop
    have hptr := pointer_live_iff hlive fun h hh => (hloaded h hh).2.2.2
    have hused : (s.ledger.enter (.used p.finalize)).live = (p.handle.map some).toList := by
      rw [Ledger.enter_used_live, hlive]
    have hclose := congrArg Ledger.faults (close_handle hused)
    change ((s.ledger.enter (.used p.finalize)).enterAll _).faults = [] ↔ _
    rw [hclose]
    refine Ledger.enter_faults_nil_iff.trans (and_congr_right fun _ => ?_)
    rw [Ledger.allows_used_iff, hptr, Plugin.inOrder, hp]
    rfl

theorem onlyUses_step (hs : s.Tidy) (huses : s.ledger.OnlyUses) (h : s.step o = some s') :
    s'.ledger.OnlyUses := by
  obtain ⟨p, hp, hstep⟩ := Option.bind_eq_some_iff.mp h
  obtain ⟨⟨t, r⟩, hop, rfl⟩ := Option.map_eq_some_iff.mp hstep
  have hlive := hs.live
  rw [hp, Option.bind_some] at hlive
  cases o with
  | load filename r =>
    cases hop
    change (s.ledger.enterAll _).OnlyUses
    rw [load_ledger hlive]
    exact huses
  | init =>
    cases hop
    exact huses.enterAll_used [p.init]
  | createObject name made =>
    simp only [Plugin.op] at hop
    split at hop
    · cases hop
      exact huses.enterAll_used [p.createObject]
    · cases hop
      exact huses.enterAll_used [p.createObject]
  | destroyObject k =>
    obtain ⟨lib, -, hop⟩ := Option.map_eq_some_iff.mp hop
    cases hop
    exact huses.enterAll_used [p.destroyObject, lib]
  | destroy =>
    cases hop
    have hused : (s.ledger.enter (.used p.finalize)).live = (p.handle.map some).toList := by
      rw [Ledger.enter_used_live, hlive]
    change ((s.ledger.enter (.used p.finalize)).enterAll _).OnlyUses
    rw [close_handle hused]
    exact huses.enterAll_used [p.finalize]

theorem tidy_new : Plugin.new.Tidy := by
  refine ⟨rfl, nofun, ?_⟩
  rintro p hp
  obtain rfl : PluginImpl.new = p := Option.some.inj hp
  exact nofun

end Runs

namespace Sample

def found : LoadResult := ⟨true, true, true, true, true, []⟩

def missing : LoadResult := { found with opens := false, error := ascii "cannot open shared object file" }

/-- One library replaces another, and its object is destroyed before the plugin. -/
def replaced : List Op :=
  [.load (ascii "a.so") found, .load (ascii "b.so") found, .init, .createObject (ascii "x") true, .destroyObject 0,
    .destroy]

end Sample

/-- The destructor calls `finalize` through a pointer that was never set. -/
example : ∃ s,
    Transition.run Plugin.step .new [.load (ascii "a.so") Sample.missing, .destroy] = some s ∧
      s.ledger.faults = [.used none] := ⟨_, rfl, by decide +kernel⟩

end Dcl.Plugins
