import Mathlib.Data.List.GetD
import Dcl.Foundations.Ledger
import Dcl.Foundations.Slots
import Dcl.Foundations.Transition
import Dcl.Values.Any

/-! # `any`: the objects and their values on the heap

`include/dcl/any.h` with the allocations. An object holds the pointer `pimpl`, and what it points to is a box of
its own, made by `new` and given back by `delete`: copying clones the box, and a `cast` to another type replaces it.
The copying itself is what the class is for, so that an object is a value: `Plain` has no boxes.

A box keeps what it holds once it is deleted; the ledger has a fault for every use of it. The uses of one box by one
call of a member function are one entry. -/
namespace Dcl.Values
open Ledger (Entry)
set_option autoImplicit false

/-! ## Casts -/

inductive Kind where
  | int
  | bool
  | string
  deriving DecidableEq

/-- `cast` on an object without a value answers with an uninitialized variable, which for a string is empty. -/
inductive Answer where
  | value (v : Any)
  | text (s : Bytes)
  | truth (r : Option Bool)
  | thrown
  | indeterminate
  deriving DecidableEq

def Kind.unset : Kind → Answer
  | .int => .indeterminate
  | .bool => .indeterminate
  | .string => .value (.string [])

namespace Any

def kind : Any → Option Kind
  | .empty => none
  | .int _ => some .int
  | .bool _ => some .bool
  | .string _ => some .string

/-- `impl<T>(const impl_int &)`: the value that is read from the text of another. -/
def convert (v : Any) : Kind → Option Any
  | .int => (Convertible.read v.str).map .int
  | .bool => (Convertible.read v.str).map .bool
  | .string => (Convertible.read v.str).map .string

theorem convert_nonempty {v w : Any} {k : Kind} (h : v.convert k = some w) : w ≠ .empty := by
  rintro rfl
  cases k <;> simp [convert] at h

end Any

/-! ## Objects as values -/

/-- Objects are numbered as they are constructed; an `any()` is constructed from `.empty`. -/
inductive Op where
  | construct (v : Any)
  | copy (i : ℕ)
  | assign (d i : ℕ)
  | clear (d : ℕ)
  | cast (d : ℕ) (k : Kind)
  | str (d : ℕ)
  | equal (d i : ℕ)
  | destroy (d : ℕ)

/-- `none` for an object that is destroyed. -/
structure Plain where
  values : List (Option Any)
  answers : List Answer
  deriving DecidableEq

namespace Plain

def new : Plain := ⟨[], []⟩

def value (s : Plain) (d : ℕ) : Option Any := s.values[d]?.join

def store (s : Plain) (d : ℕ) (v : Any) : Plain := { s with values := s.values.set d (some v) }

def answer (s : Plain) (a : Answer) : Plain := { s with answers := s.answers ++ [a] }

/-- The value that a `cast` leaves, and its answer. -/
def castTo (v : Any) (k : Kind) : Any × Answer :=
  if v = .empty then (v, k.unset)
  else if v.kind = some k then (v, .value v)
  else ((v.convert k).getD v, ((v.convert k).map Answer.value).getD .thrown)

def step (s : Plain) : Op → Option Plain
  | .construct v => some { s with values := s.values ++ [some v] }
  | .copy i => (s.value i).map fun v => { s with values := s.values ++ [some v] }
  | .assign d i => (s.value d).bind fun _ => (s.value i).map fun v => s.store d v
  | .clear d => (s.value d).map fun _ => s.store d .empty
  | .cast d k => (s.value d).map fun v => (s.store d (castTo v k).1).answer (castTo v k).2
  | .str d => (s.value d).map fun v => s.answer (.text v.str)
  | .equal d i => (s.value d).bind fun v => (s.value i).map fun w => s.answer (.truth (v.eq w))
  | .destroy d => (s.value d).map fun _ => { s with values := s.values.set d none }

end Plain

/-! ## Objects with their boxes -/

structure Objects where
  objects : List (Option (Option ℕ))
  boxes : List Any
  ledger : Ledger ℕ
  answers : List Answer

namespace Objects

def new : Objects := ⟨[], [], .empty, []⟩

def pimpl (s : Objects) (d : ℕ) : Option (Option ℕ) := s.objects[d]?.join

def content (s : Objects) : Option ℕ → Any
  | none => .empty
  | some b => s.boxes.getD b .empty

def use (s : Objects) (b : ℕ) : Objects := { s with ledger := s.ledger.enter (.used b) }

def release (s : Objects) (p : Option ℕ) : Objects :=
  { s with ledger := s.ledger.enterAll (p.map Entry.closed).toList }

/-- `new impl<T>(value)`. -/
def newBox (s : Objects) (v : Any) : Objects × Option ℕ :=
  ({ s with boxes := s.boxes ++ [v], ledger := s.ledger.enter (.opened s.boxes.length) }, some s.boxes.length)

def clone (s : Objects) : Option ℕ → Objects × Option ℕ
  | none => (s, none)
  | some b => (s.use b).newBox (s.content (some b))

def push (s : Objects) (p : Option ℕ) : Objects := { s with objects := s.objects ++ [some p] }

def store (s : Objects) (d : ℕ) (p : Option ℕ) : Objects := { s with objects := s.objects.set d (some p) }

def answer (s : Objects) (a : Answer) : Objects := { s with answers := s.answers ++ [a] }

def construct (s : Objects) (v : Any) : Objects :=
  let n := if v = .empty then (s, none) else s.newBox v
  n.1.push n.2

/-- `operator=`: the old box is deleted before the other object's is cloned. -/
def assign (s : Objects) (d : ℕ) (p q : Option ℕ) : Objects :=
  let n := (s.release p).clone q
  n.1.store d n.2

def cast (s : Objects) (d : ℕ) (k : Kind) : Option ℕ → Objects
  | none => s.answer k.unset
  | some b =>
      let v := s.content (some b)
      let s := s.use b
      if v.kind = some k then s.answer (.value v)
      else
        match v.convert k with
        | none => s.answer .thrown
        | some w =>
            let n := s.newBox w
            ((n.1.release (some b)).store d n.2).answer (.value w)

def str (s : Objects) : Option ℕ → Objects
  | none => s.answer (.text [])
  | some b => (s.use b).answer (.text (s.content (some b)).str)

def equal (s : Objects) : Option ℕ → Option ℕ → Objects
  | none, none => s.answer (.truth (some true))
  | some b, some c => ((s.use b).use c).answer (.truth ((s.content (some b)).eq (s.content (some c))))
  | _, _ => s.answer (.truth (some false))

def step (s : Objects) : Op → Option Objects
  | .construct v => some (s.construct v)
  | .copy i => (s.pimpl i).map fun q => (s.clone q).1.push (s.clone q).2
  | .assign d i => (s.pimpl d).bind fun p => (s.pimpl i).map fun q => s.assign d p q
  | .clear d => (s.pimpl d).map fun p => (s.release p).store d none
  | .cast d k => (s.pimpl d).map fun p => s.cast d k p
  | .str d => (s.pimpl d).map fun p => s.str p
  | .equal d i => (s.pimpl d).bind fun p => (s.pimpl i).map fun q => s.equal p q
  | .destroy d => (s.pimpl d).map fun p => { s.release p with objects := s.objects.set d none }

/-- No object with a value is assigned to itself. -/
def inOrder (s : Objects) : Op → Bool
  | .assign d i => decide (d ≠ i) || decide (s.pimpl d = some none)
  | _ => true

def view (s : Objects) : Plain := ⟨s.objects.map (Option.map s.content), s.answers⟩

end Objects

/-! ## Who owns the boxes -/

/-- The boxes of some objects. -/
def held (objects : List (Option (Option ℕ))) : List ℕ := objects.filterMap Option.join

/-- The boxes that are allocated are those of `l`, each of them once. -/
structure Owns (s : Objects) (l : List ℕ) : Prop where
  live : s.ledger.live.Perm l
  nodup : l.Nodup
  made : ∀ b ∈ l, b < s.boxes.length
  nonempty : ∀ v ∈ s.boxes, v ≠ .empty

section Runs
variable {s t : Objects} {l l' : List ℕ} {p q : Option ℕ} {d i b : ℕ} {v w : Any} {o : Op}

theorem Owns.perm (h : Owns s l) (hp : l.Perm l') : Owns s l' :=
  ⟨h.live.trans hp, hp.nodup_iff.mp h.nodup, fun b hb => h.made b (hp.mem_iff.mpr hb), h.nonempty⟩

theorem Owns.mem_live (h : Owns s l) : b ∈ s.ledger.live ↔ b ∈ l := h.live.mem_iff

theorem held_set {objects : List (Option (Option ℕ))} (h : objects[d]? = some (some p)) :
    (held objects).Perm (p.toList ++ held (objects.set d none)) := by
  refine List.perm_iff_count.mpr fun b => ?_
  have hcount := Slots.count_filterMap_set Option.join objects d (some p) none h b
  simp only [Option.join_some, Option.join_none, Option.toList_none, List.count_nil, add_zero] at hcount
  rw [List.count_append, add_comm, held, held, ← hcount]

theorem held_store {objects : List (Option (Option ℕ))} (h : objects[d]? = some (some p)) (q : Option ℕ) :
    (held (objects.set d (some q))).Perm (q.toList ++ held (objects.set d none)) := by
  have hlt : d < objects.length := (List.getElem?_eq_some_iff.mp h).1
  have hat : (objects.set d (some q))[d]? = some (some q) := List.getElem?_set_self hlt
  have hset := held_set hat
  rwa [List.set_set] at hset

theorem held_push (objects : List (Option (Option ℕ))) (q : Option ℕ) :
    (held (objects ++ [some q])).Perm (q.toList ++ held objects) := by
  rw [held, List.filterMap_append, show [some q].filterMap Option.join = q.toList by cases q <;> rfl]
  exact List.perm_append_comm

theorem mem_held (h : s.pimpl i = some (some b)) : b ∈ held s.objects :=
  List.mem_filterMap.mpr ⟨some (some b), List.mem_of_getElem? (Option.join_eq_some_iff.mp h), rfl⟩

theorem use_owned (h : Owns s l) (hb : b ∈ l) : s.use b = s :=
  congrArg (fun ledger => { s with ledger := ledger }) (Ledger.enter_used (h.mem_live.mpr hb))

theorem release_owned (h : Owns s (p.toList ++ l)) :
    Owns (s.release p) l ∧ (s.release p).ledger.faults = s.ledger.faults := by
  cases p with
  | none => exact ⟨h, rfl⟩
  | some b =>
    obtain ⟨hlive, hfaults⟩ := Ledger.enter_closed h.live
    exact ⟨⟨hlive, (List.nodup_cons.mp h.nodup).2, fun c hc => h.made c (List.mem_cons_of_mem b hc), h.nonempty⟩,
      hfaults⟩

theorem newBox_owned (h : Owns s l) (hv : v ≠ .empty) :
    Owns (s.newBox v).1 ((s.newBox v).2.toList ++ l) ∧ (s.newBox v).1.ledger.faults = s.ledger.faults := by
  have hfresh : s.boxes.length ∉ l := fun hb => absurd (h.made _ hb) (Nat.lt_irrefl _)
  obtain ⟨hlive, hfaults⟩ := Ledger.enter_opened h.live hfresh
  have hlength : (s.newBox v).1.boxes.length = s.boxes.length + 1 := List.length_append
  refine ⟨⟨hlive, List.nodup_cons.mpr ⟨hfresh, h.nodup⟩, fun b hb => ?_, fun w hw => ?_⟩, hfaults⟩
  · rw [hlength]
    rcases List.mem_cons.mp hb with rfl | hb
    · exact Nat.lt_succ_self _
    · exact Nat.lt_succ_of_lt (h.made b hb)
  · rcases List.mem_append.mp hw with hw | hw
    · exact h.nonempty w hw
    · rwa [List.mem_singleton.mp hw]

/-- What a pointer of the objects points to is a value. -/
theorem content_nonempty (h : Owns s l) (hb : b ∈ l) : s.content (some b) ≠ .empty := by
  have hlt : b < s.boxes.length := h.made b hb
  rw [Objects.content, List.getD_eq_getElem?_getD, List.getElem?_eq_getElem hlt, Option.getD_some]
  exact h.nonempty _ (List.getElem_mem hlt)

theorem clone_owned (h : Owns s l) (hq : ∀ b ∈ q, b ∈ l) :
    Owns (s.clone q).1 ((s.clone q).2.toList ++ l) ∧ (s.clone q).1.ledger.faults = s.ledger.faults := by
  cases q with
  | none => exact ⟨h, rfl⟩
  | some b =>
    have hb : b ∈ l := hq b rfl
    rw [Objects.clone, use_owned h hb]
    exact newBox_owned h (content_nonempty h hb)

/-! ## The values of the objects -/

theorem content_kept (hboxes : s.boxes <+: t.boxes) (hp : ∀ b ∈ p, b < s.boxes.length) :
    t.content p = s.content p := by
  cases p with
  | none => rfl
  | some b =>
    obtain ⟨more, hmore⟩ := hboxes
    rw [Objects.content, Objects.content, ← hmore, List.getD_append _ _ _ _ (hp b rfl)]

/-- Boxes that are added do not change the values. -/
theorem values_kept (h : Owns s (held s.objects)) (hboxes : s.boxes <+: t.boxes) :
    s.objects.map (Option.map t.content) = s.objects.map (Option.map s.content) := by
  refine List.map_congr_left fun o ho => ?_
  cases o with
  | none => rfl
  | some p =>
    refine congrArg some (content_kept hboxes fun b hb => ?_)
    exact h.made b (List.mem_filterMap.mpr ⟨some p, ho, hb⟩)

theorem newBox_content (s : Objects) (v : Any) : (s.newBox v).1.content (s.newBox v).2 = v := by
  simp [Objects.newBox, Objects.content]

theorem clone_content (s : Objects) (q : Option ℕ) : (s.clone q).1.content (s.clone q).2 = s.content q := by
  cases q with
  | none => rfl
  | some b => exact newBox_content _ _

theorem clone_boxes (s : Objects) (q : Option ℕ) : s.boxes <+: (s.clone q).1.boxes := by
  cases q with
  | none => exact List.prefix_rfl
  | some b => exact List.prefix_append _ _

theorem clone_rest (s : Objects) (q : Option ℕ) :
    (s.clone q).1.objects = s.objects ∧ (s.clone q).1.answers = s.answers := by
  cases q <;> exact ⟨rfl, rfl⟩

theorem value_view (s : Objects) (d : ℕ) : s.view.value d = (s.pimpl d).map s.content := by
  rw [Plain.value, Objects.view, Objects.pimpl, List.getElem?_map]
  cases s.objects[d]? with
  | none => rfl
  | some o => cases o <;> rfl

/-- An object is set to a pointer, and the boxes may be more than before. -/
theorem view_store (h : Owns s (held s.objects)) (hboxes : s.boxes <+: t.boxes)
    (hrest : t.objects = s.objects ∧ t.answers = s.answers) (d : ℕ) (q : Option ℕ) :
    (t.store d q).view = s.view.store d (t.content q) := by
  have hvalues := values_kept h hboxes
  simp only [Objects.view, Objects.store, Plain.store, hrest.1, hrest.2, List.map_set, Option.map_some]
  change Plain.mk ((s.objects.map (Option.map t.content)).set d (some (t.content q))) s.answers = _
  rw [hvalues]

theorem view_push (h : Owns s (held s.objects)) (hboxes : s.boxes <+: t.boxes)
    (hrest : t.objects = s.objects ∧ t.answers = s.answers) (q : Option ℕ) :
    (t.push q).view = { s.view with values := s.view.values ++ [some (t.content q)] } := by
  have hvalues := values_kept h hboxes
  simp only [Objects.view, Objects.push, hrest.1, hrest.2, List.map_append, List.map_singleton, Option.map_some]
  change Plain.mk (s.objects.map (Option.map t.content) ++ [some (t.content q)]) s.answers = _
  rw [hvalues]

/-! ## One operation -/

/-- The boxes belong to the objects, and none was used when it was not there. -/
structure Clean (s : Objects) : Prop where
  owns : Owns s (held s.objects)
  faults : s.ledger.faults = []

theorem Clean.split (h : Clean s) (hd : s.pimpl d = some p) :
    Owns s (p.toList ++ held (s.objects.set d none)) :=
  h.owns.perm (held_set (Option.join_eq_some_iff.mp hd))

/-- The step of an object that gets a new box, or none, for what it had. -/
theorem clean_store (hd : s.pimpl d = some p) (hobjects : t.objects = s.objects)
    (h : Owns t (q.toList ++ held (s.objects.set d none))) (hfaults : t.ledger.faults = []) :
    Clean (t.store d q) := by
  refine ⟨?_, hfaults⟩
  have hperm := held_store (Option.join_eq_some_iff.mp hd) q
  rw [Objects.store, hobjects]
  exact ⟨(h.perm hperm.symm).live, (h.perm hperm.symm).nodup, (h.perm hperm.symm).made, h.nonempty⟩

theorem clean_push (hobjects : t.objects = s.objects) (h : Owns t (q.toList ++ held s.objects))
    (hfaults : t.ledger.faults = []) : Clean (t.push q) := by
  refine ⟨?_, hfaults⟩
  have hperm := held_push s.objects q
  rw [Objects.push, hobjects]
  exact ⟨(h.perm hperm.symm).live, (h.perm hperm.symm).nodup, (h.perm hperm.symm).made, h.nonempty⟩

theorem clean_answer (h : Clean s) (a : Answer) : Clean (s.answer a) :=
  ⟨⟨h.owns.live, h.owns.nodup, h.owns.made, h.owns.nonempty⟩, h.faults⟩

theorem clean_construct (h : Clean s) (v : Any) : Clean (s.construct v) ∧
    (s.construct v).view = { s.view with values := s.view.values ++ [some v] } := by
  rw [Objects.construct]
  by_cases hv : v = .empty
  · rw [if_pos hv, hv]
    exact ⟨clean_push rfl h.owns h.faults, view_push h.owns List.prefix_rfl ⟨rfl, rfl⟩ none⟩
  · rw [if_neg hv]
    obtain ⟨howns, hfaults⟩ := newBox_owned h.owns hv
    refine ⟨clean_push rfl howns (hfaults.trans h.faults), ?_⟩
    refine (view_push h.owns (t := (s.newBox v).1) (List.prefix_append _ _) ⟨rfl, rfl⟩ _).trans ?_
    rw [newBox_content]

theorem clean_copy (h : Clean s) (hi : s.pimpl i = some q) : Clean ((s.clone q).1.push (s.clone q).2) ∧
    ((s.clone q).1.push (s.clone q).2).view =
      { s.view with values := s.view.values ++ [some (s.content q)] } := by
  obtain ⟨howns, hfaults⟩ := clone_owned h.owns (q := q) fun b hb => mem_held (by rw [hi, hb])
  refine ⟨clean_push (clone_rest s q).1 howns (hfaults.trans h.faults), ?_⟩
  rw [view_push h.owns (clone_boxes s q) (clone_rest s q), clone_content]

/-- The box of the other object is still there behind the `delete` in `operator=`. -/
theorem assigned_held (hi : s.pimpl i = some q) (hok : s.inOrder (.assign d i) = true) :
    ∀ b ∈ q, b ∈ held (s.objects.set d none) := by
  intro b hb
  rw [Option.mem_def] at hb
  rw [hb] at hi
  have hat : s.objects[i]? = some (some (some b)) := Option.join_eq_some_iff.mp hi
  have hne : d ≠ i := by
    rintro rfl
    simp [Objects.inOrder, hi] at hok
  refine List.mem_filterMap.mpr ⟨some (some b), List.mem_of_getElem? (i := i) ?_, rfl⟩
  rw [List.getElem?_set_ne hne, hat]

theorem clean_assign (h : Clean s) (hd : s.pimpl d = some p) (hi : s.pimpl i = some q)
    (hok : s.inOrder (.assign d i) = true) :
    Clean (s.assign d p q) ∧ (s.assign d p q).view = s.view.store d (s.content q) := by
  obtain ⟨hreleased, hfaults⟩ := release_owned (h.split hd)
  obtain ⟨howns, hfaults'⟩ := clone_owned hreleased (assigned_held hi hok)
  have hboxes : s.boxes <+: ((s.release p).clone q).1.boxes := clone_boxes (s.release p) q
  have hcontent : ((s.release p).clone q).1.content ((s.release p).clone q).2 = s.content q :=
    clone_content (s.release p) q
  refine ⟨clean_store hd (clone_rest (s.release p) q).1 howns (hfaults'.trans (hfaults.trans h.faults)), ?_⟩
  rw [Objects.assign, view_store h.owns hboxes (clone_rest (s.release p) q), hcontent]

/-- An object with a value that is assigned to itself clones the box that it just deleted. -/
theorem assign_faults (h : Clean s) (hd : s.pimpl d = some p)
    (hok : s.inOrder (.assign d d) ≠ true) : (s.assign d p p).ledger.faults ≠ [] := by
  cases p with
  | none => exact absurd (by simp [Objects.inOrder, hd]) hok
  | some b =>
    have hsplit := h.split hd
    obtain ⟨hreleased, -⟩ := release_owned hsplit
    have hgone : b ∉ (s.release (some b)).ledger.live := by
      rw [hreleased.mem_live]
      exact (List.nodup_cons.mp hsplit.nodup).1
    intro hfaults
    have hused := (Ledger.enter_faults_nil_iff.mp hfaults).1
    exact hgone (Ledger.allows_used_iff.mp (Ledger.enter_faults_nil_iff.mp hused).2)

theorem clean_clear (h : Clean s) (hd : s.pimpl d = some p) :
    Clean ((s.release p).store d none) ∧ ((s.release p).store d none).view = s.view.store d .empty := by
  obtain ⟨howns, hfaults⟩ := release_owned (h.split hd)
  exact ⟨clean_store hd rfl howns (hfaults.trans h.faults), view_store h.owns (t := s.release p) List.prefix_rfl
    ⟨rfl, rfl⟩ d none⟩

theorem clean_destroy (h : Clean s) (hd : s.pimpl d = some p) :
    Clean { s.release p with objects := s.objects.set d none } ∧
      Objects.view { s.release p with objects := s.objects.set d none } =
        { s.view with values := s.view.values.set d none } := by
  obtain ⟨howns, hfaults⟩ := release_owned (h.split hd)
  refine ⟨⟨⟨howns.live, howns.nodup, howns.made, howns.nonempty⟩, hfaults.trans h.faults⟩, ?_⟩
  exact congrArg (Plain.mk · s.answers) List.map_set

theorem store_value (hd : s.pimpl d = some p) : s.view.store d (s.content p) = s.view := by
  have hat : s.view.values[d]? = some (some (s.content p)) := by
    rw [Objects.view, List.getElem?_map, Option.join_eq_some_iff.mp hd]
    rfl
  obtain ⟨hlt, hget⟩ := List.getElem?_eq_some_iff.mp hat
  rw [Plain.store, ← hget, List.set_getElem_self hlt]

theorem clean_cast (h : Clean s) (hd : s.pimpl d = some p) (k : Kind) : Clean (s.cast d k p) ∧
    (s.cast d k p).view =
      (s.view.store d (Plain.castTo (s.content p) k).1).answer (Plain.castTo (s.content p) k).2 := by
  cases p with
  | none => exact ⟨clean_answer h _, (congrArg (Plain.answer · k.unset) (store_value hd)).symm⟩
  | some b =>
    have hvalue := content_nonempty h.owns (mem_held hd)
    rw [Objects.cast, use_owned h.owns (mem_held hd), Plain.castTo, if_neg hvalue]
    by_cases hkind : (s.content (some b)).kind = some k
    · rw [if_pos hkind, if_pos hkind, store_value hd]
      exact ⟨clean_answer h _, rfl⟩
    · rw [if_neg hkind, if_neg hkind]
      cases hw : (s.content (some b)).convert k with
      | none =>
        simp only [Option.map_none, Option.getD_none, store_value hd]
        exact ⟨clean_answer h _, rfl⟩
      | some w =>
        -- the new box is there before the old one is deleted
        obtain ⟨hnew, hfaults⟩ := newBox_owned (h.split hd) (Any.convert_nonempty hw)
        obtain ⟨howns, hfaults'⟩ := release_owned (p := some b) (hnew.perm (List.perm_append_comm_assoc _ _ _))
        have hclean := clean_store (t := (s.newBox w).1.release (some b)) hd rfl howns
          (hfaults'.trans (hfaults.trans h.faults))
        have hview := view_store h.owns (t := (s.newBox w).1.release (some b)) (List.prefix_append _ _)
          ⟨rfl, rfl⟩ d (s.newBox w).2
        refine ⟨clean_answer hclean _, ?_⟩
        refine (congrArg (Plain.answer · (.value w)) hview).trans ?_
        rw [show ((s.newBox w).1.release (some b)).content (s.newBox w).2 = w from newBox_content s w]
        rfl

theorem clean_str (h : Clean s) (hd : s.pimpl d = some p) :
    Clean (s.str p) ∧ (s.str p).view = s.view.answer (.text (s.content p).str) := by
  cases p with
  | none => exact ⟨clean_answer h _, rfl⟩
  | some b =>
    rw [Objects.str, use_owned h.owns (mem_held hd)]
    exact ⟨clean_answer h _, rfl⟩

theorem clean_equal (h : Clean s) (hd : s.pimpl d = some p) (hi : s.pimpl i = some q) :
    Clean (s.equal p q) ∧ (s.equal p q).view = s.view.answer (.truth ((s.content p).eq (s.content q))) := by
  cases p with
  | none =>
    cases q with
    | none => exact ⟨clean_answer h _, rfl⟩
    | some c =>
      have hvalue := content_nonempty h.owns (mem_held hi)
      refine ⟨clean_answer h _, ?_⟩
      rw [show (s.content none).eq (s.content (some c)) = some false by
        cases hc : s.content (some c) <;> simp_all [Objects.content, Any.eq]]
      rfl
  | some b =>
    have hvalue := content_nonempty h.owns (mem_held hd)
    cases q with
    | none =>
      refine ⟨clean_answer h _, ?_⟩
      rw [show (s.content (some b)).eq (s.content none) = some false by
        cases hb : s.content (some b) <;> simp_all [Objects.content, Any.eq]]
      rfl
    | some c =>
      rw [Objects.equal, use_owned h.owns (mem_held hd), use_owned h.owns (mem_held hi)]
      exact ⟨clean_answer h _, rfl⟩

/-! ## Runs -/

theorem clean_step (h : Clean s) (hok : s.inOrder o = true) (hstep : s.step o = some t) :
    Clean t ∧ s.view.step o = some t.view := by
  cases o with
  | construct v =>
    cases hstep
    have hconstruct := clean_construct h v
    exact ⟨hconstruct.1, congrArg some hconstruct.2.symm⟩
  | copy i =>
    obtain ⟨q, hi, rfl⟩ := Option.map_eq_some_iff.mp hstep
    have hcopy := clean_copy h hi
    refine ⟨hcopy.1, ?_⟩
    rw [hcopy.2, Plain.step, value_view, hi]
    rfl
  | assign d i =>
    obtain ⟨p, hd, hstep⟩ := Option.bind_eq_some_iff.mp hstep
    obtain ⟨q, hi, rfl⟩ := Option.map_eq_some_iff.mp hstep
    have hassign := clean_assign h hd hi hok
    refine ⟨hassign.1, ?_⟩
    rw [hassign.2, Plain.step, value_view, value_view, hd, hi]
    rfl
  | clear d =>
    obtain ⟨p, hd, rfl⟩ := Option.map_eq_some_iff.mp hstep
    have hclear := clean_clear h hd
    refine ⟨hclear.1, ?_⟩
    rw [hclear.2, Plain.step, value_view, hd]
    rfl
  | cast d k =>
    obtain ⟨p, hd, rfl⟩ := Option.map_eq_some_iff.mp hstep
    have hcast := clean_cast h hd k
    refine ⟨hcast.1, ?_⟩
    rw [hcast.2, Plain.step, value_view, hd]
    rfl
  | str d =>
    obtain ⟨p, hd, rfl⟩ := Option.map_eq_some_iff.mp hstep
    have hstr := clean_str h hd
    refine ⟨hstr.1, ?_⟩
    rw [hstr.2, Plain.step, value_view, hd]
    rfl
  | equal d i =>
    obtain ⟨p, hd, hstep⟩ := Option.bind_eq_some_iff.mp hstep
    obtain ⟨q, hi, rfl⟩ := Option.map_eq_some_iff.mp hstep
    have hequal := clean_equal h hd hi
    refine ⟨hequal.1, ?_⟩
    rw [hequal.2, Plain.step, value_view, value_view, hd, hi]
    rfl
  | destroy d =>
    obtain ⟨p, hd, rfl⟩ := Option.map_eq_some_iff.mp hstep
    have hdestroy := clean_destroy h hd
    refine ⟨hdestroy.1, ?_⟩
    rw [hdestroy.2, Plain.step, value_view, hd]
    rfl

theorem faults_step (h : Clean s) (hstep : s.step o = some t) :
    t.ledger.faults = [] ↔ s.inOrder o = true := by
  refine ⟨fun hfaults => ?_, fun hok => (clean_step h hok hstep).1.faults⟩
  by_contra hok
  cases o with
  | assign d i =>
    obtain ⟨p, hd, hstep⟩ := Option.bind_eq_some_iff.mp hstep
    obtain ⟨q, hi, rfl⟩ := Option.map_eq_some_iff.mp hstep
    obtain rfl : d = i := by
      by_contra hne
      exact hok (by simp [Objects.inOrder, hne])
    obtain rfl : p = q := Option.some.inj (hd.symm.trans hi)
    exact assign_faults h hd hok hfaults
  | construct v => exact hok rfl
  | copy i => exact hok rfl
  | clear d => exact hok rfl
  | cast d k => exact hok rfl
  | str d => exact hok rfl
  | equal d i => exact hok rfl
  | destroy d => exact hok rfl

theorem clean_new : Clean .new :=
  ⟨⟨List.Perm.nil, List.nodup_nil, fun _ hb => absurd hb List.not_mem_nil,
    fun _ hv => absurd hv List.not_mem_nil⟩, rfl⟩

/-- No box is used or deleted when it is not there if and only if no object with a value is assigned to itself; the
objects are then as good as plain values, and the boxes that are allocated are those of the objects, one for each. -/
theorem any_owns_iff {ops : List Op} (hrun : Transition.run Objects.step .new ops = some s) :
    ((∀ ops₁ s₁, ops₁ <+: ops → Transition.run Objects.step .new ops₁ = some s₁ → s₁.ledger.faults = []) ↔
      Transition.Along Objects.step (fun s o => s.inOrder o = true) .new ops) ∧
    (Transition.Along Objects.step (fun s o => s.inOrder o = true) .new ops →
      Transition.run Plain.step .new ops = some s.view ∧
        s.ledger.live.Perm (held s.objects) ∧ (held s.objects).Nodup) := by
  refine ⟨Transition.reached_iff_along_of Objects.step (J := fun s => s.ledger.faults = [] → Clean s)
    (fun t o t' hj hp hstep hfaults => ?_) (fun t o t' hj hp hstep => faults_step (hj hp) hstep)
    (fun _ => clean_new) rfl hrun, fun hok => ?_⟩
  · exact (clean_step (hj hp) ((faults_step (hj hp) hstep).mp hfaults) hstep).1
  · obtain ⟨hclean, hplain⟩ := Transition.run_follows Objects.step Plain.step Objects.view (J := Clean)
      (fun t o t' h hok hstep => clean_step h hok hstep) clean_new hok hrun
    exact ⟨hplain, hclean.owns.live, hclean.owns.nodup⟩

end Runs

namespace Sample

/-- A number becomes a string that a `bool` cannot be read from, and a copy of it is kept. -/
def casts : List Op :=
  [.construct (.int ⟨5, by decide, by decide⟩), .copy 0, .cast 0 .string, .cast 0 .bool, .equal 1 0, .assign 1 0,
    .clear 0, .assign 0 0, .str 1, .destroy 0, .destroy 1]

end Sample

theorem any_owns_casts : ∃ s, Transition.run Objects.step .new Sample.casts = some s ∧
    Transition.run Plain.step .new Sample.casts = some s.view ∧ s.ledger.faults = [] ∧ s.ledger.live = [] ∧
      s.answers = [.value (.string (ascii "5")), .thrown, .truth (some true), .text (ascii "5")] := by
  obtain ⟨s, hrun⟩ := Option.isSome_iff_exists.mp
    (show (Transition.run Objects.step .new Sample.casts).isSome = true by decide +kernel)
  have howns := any_owns_iff hrun
  have hok : Transition.Along Objects.step (fun s o => s.inOrder o = true) .new Sample.casts := by decide +kernel
  have hplain := (howns.2 hok).1
  have hview : Transition.run Plain.step .new Sample.casts = some ⟨[none, none],
      [.value (.string (ascii "5")), .thrown, .truth (some true), .text (ascii "5")]⟩ := by decide +kernel
  have hsame : s.view = ⟨[none, none], _⟩ := Option.some.inj (hplain.symm.trans hview)
  have hobjects : s.objects.map (Option.map s.content) = [none, none] := congrArg Plain.values hsame
  refine ⟨s, hrun, hplain, howns.1.mpr hok _ _ List.prefix_rfl hrun, ?_, congrArg Plain.answers hsame⟩
  have hheld : held s.objects = [] := by
    rw [held, List.filterMap_eq_nil_iff]
    intro o ho
    have hnone : o.map s.content ∈ [none, none] := hobjects ▸ List.mem_map_of_mem ho
    cases o with
    | none => rfl
    | some p => simp at hnone
  exact (hheld ▸ (howns.2 hok).2.1).eq_nil

end Dcl.Values
