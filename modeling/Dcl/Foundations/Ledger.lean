import Mathlib.Data.List.Basic
import Mathlib.Tactic.Common

/-! # A ledger of resources

What a program does with resources that are opened and closed, one entry after the other: the resources that
are open, and the entries that were not allowed. A resource may be opened when it is not open, and used and
closed while it is. -/
namespace Dcl
set_option autoImplicit false

inductive Ledger.Entry (ρ : Type*) where
  | opened (r : ρ)
  | used (r : ρ)
  | closed (r : ρ)
  deriving DecidableEq

structure Ledger (ρ : Type*) where
  live : List ρ
  faults : List (Ledger.Entry ρ)

namespace Ledger
variable {ρ : Type*} [DecidableEq ρ]

def empty : Ledger ρ := ⟨[], []⟩

def allows (b : Ledger ρ) : Entry ρ → Bool
  | .opened r => decide (r ∉ b.live)
  | .used r => decide (r ∈ b.live)
  | .closed r => decide (r ∈ b.live)

/-- The resources that are open after an entry that is allowed. -/
def after (b : Ledger ρ) : Entry ρ → List ρ
  | .opened r => r :: b.live
  | .used _ => b.live
  | .closed r => b.live.erase r

def enter (b : Ledger ρ) (e : Entry ρ) : Ledger ρ :=
  if b.allows e then { b with live := b.after e } else { b with faults := e :: b.faults }

def enterAll (b : Ledger ρ) (es : List (Entry ρ)) : Ledger ρ := es.foldl enter b

section Rules
variable {b : Ledger ρ} {e : Entry ρ} {es es' : List (Entry ρ)} {r : ρ}

theorem allows_used_iff : b.allows (.used r) = true ↔ r ∈ b.live := decide_eq_true_iff

theorem enter_allowed (h : b.allows e = true) : b.enter e = { b with live := b.after e } := by
  rw [enter, if_pos h]

theorem enter_faults_nil_iff : (b.enter e).faults = [] ↔ b.faults = [] ∧ b.allows e = true := by
  rw [enter]
  split
  case isTrue h => exact (and_iff_left h).symm
  case isFalse h => exact iff_of_false (List.cons_ne_nil _ _) fun hn => h hn.2

theorem enter_used (h : r ∈ b.live) : b.enter (.used r) = b := by
  rw [enter_allowed (allows_used_iff.mpr h), after]

/-- A resource that is closed is no longer one of those that are open. -/
theorem enter_closed {l : List ρ} (h : b.live.Perm (r :: l)) :
    (b.enter (.closed r)).live.Perm l ∧ (b.enter (.closed r)).faults = b.faults := by
  have hallowed : b.allows (.closed r) = true := decide_eq_true (h.mem_iff.mpr List.mem_cons_self)
  rw [enter_allowed hallowed]
  exact ⟨(h.erase r).trans (by rw [List.erase_cons_head]), rfl⟩

theorem enter_opened {l : List ρ} (h : b.live.Perm l) (hr : r ∉ l) :
    (b.enter (.opened r)).live.Perm (r :: l) ∧ (b.enter (.opened r)).faults = b.faults := by
  have hallowed : b.allows (.opened r) = true := decide_eq_true fun hlive => hr (h.mem_iff.mp hlive)
  rw [enter_allowed hallowed]
  exact ⟨h.cons r, rfl⟩

theorem enterAll_nil (b : Ledger ρ) : b.enterAll [] = b := rfl

theorem enterAll_cons (b : Ledger ρ) (e : Entry ρ) (es : List (Entry ρ)) :
    b.enterAll (e :: es) = (b.enter e).enterAll es := rfl

/-- Resources that are open may be closed one after the other. -/
theorem enterAll_closed {rs l : List ρ} (h : b.live.Perm (rs ++ l)) :
    (b.enterAll (rs.map .closed)).live.Perm l ∧ (b.enterAll (rs.map .closed)).faults = b.faults := by
  induction rs generalizing b with
  | nil => exact ⟨h, rfl⟩
  | cons r rs ih =>
    obtain ⟨hlive, hfaults⟩ := enter_closed h
    rw [List.map_cons, enterAll_cons, ← hfaults]
    exact ih hlive

/-- Only an opening makes a resource open. -/
theorem mem_enter_live {x : ρ} (he : e ≠ .opened x) (h : x ∈ (b.enter e).live) : x ∈ b.live := by
  rw [enter] at h
  split at h
  · cases e with
    | opened r => exact (List.mem_cons.mp h).elim (fun hx => absurd (hx ▸ rfl) he) id
    | used r => exact h
    | closed r => exact List.mem_of_mem_erase h
  · exact h

theorem enterAll_append (b : Ledger ρ) (es es' : List (Entry ρ)) :
    b.enterAll (es ++ es') = (b.enterAll es).enterAll es' := List.foldl_append

/-- Uses change nothing but the faults. -/
theorem enter_used_live (b : Ledger ρ) (r : ρ) : (b.enter (.used r)).live = b.live := by
  rw [enter]
  split <;> rfl

theorem enterAll_used_live (b : Ledger ρ) (rs : List ρ) :
    (b.enterAll (rs.map .used)).live = b.live := by
  induction rs generalizing b with
  | nil => rfl
  | cons r rs ih => rw [List.map_cons, enterAll_cons, ih, enter_used_live]

theorem enterAll_used_faults_iff (b : Ledger ρ) (rs : List ρ) :
    (b.enterAll (rs.map .used)).faults = [] ↔ b.faults = [] ∧ ∀ r ∈ rs, r ∈ b.live := by
  induction rs generalizing b with
  | nil => simp [enterAll_nil]
  | cons r rs ih =>
    rw [List.map_cons, enterAll_cons, ih, enter_faults_nil_iff, enter_used_live, List.forall_mem_cons, allows,
      decide_eq_true_eq, and_assoc]

/-- The faults are all uses of resources that were not open. -/
def OnlyUses (b : Ledger ρ) : Prop := ∀ f ∈ b.faults, ∃ r, f = .used r

theorem OnlyUses.enterAll_used (h : b.OnlyUses) (rs : List ρ) : (b.enterAll (rs.map .used)).OnlyUses := by
  induction rs generalizing b with
  | nil => exact h
  | cons r rs ih =>
    refine ih fun f hf => ?_
    rw [enter] at hf
    split at hf
    · exact h f hf
    · exact (List.mem_cons.mp hf).elim (fun he => ⟨r, he⟩) (h f)

end Rules

end Ledger

end Dcl
