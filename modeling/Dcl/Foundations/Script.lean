import Mathlib.Data.Set.Card
import Mathlib.Logic.Relation
import Mathlib.Tactic.Common

/-! # Scripts that call scripts

The body of a script is a list of items: output, or a call of another script; or the script cannot be
read and fails. A call is carried out in place, and the first failure ends everything. `run` carries a
script out with a bound on the depth of the calls; `Expands` is what a script stands for when nothing
fails, `Fails` how it fails otherwise, both without any bound. Of finitely many scripts that do not mention
themselves each comes to an end, by success or by failure, and their number bounds the depth
(`run_of_acyclic`). -/
namespace Dcl
set_option autoImplicit false

/-! ## Finitely many points without a cycle -/

section Acyclic
variable {α : Type*} {r : α → α → Prop}

/-- No cycle can be reached from `a`. -/
def Acyclic (r : α → α → Prop) (a : α) : Prop :=
  ∀ b, Relation.ReflTransGen r a b → ¬Relation.TransGen r b b

theorem Acyclic.step {a b : α} (h : Acyclic r a) (hab : r a b) : Acyclic r b := fun c hbc => h c (.head hab hbc)

/-- A step away from a point that is on no cycle leaves fewer points to reach. -/
theorem Acyclic.ncard_lt {a b : α} (h : Acyclic r a) (hab : r a b)
    (hfin : {c | Relation.ReflTransGen r a c}.Finite) :
    {c | Relation.ReflTransGen r b c}.ncard < {c | Relation.ReflTransGen r a c}.ncard := by
  refine Set.ncard_lt_ncard ⟨fun c hbc => .head hab hbc, fun hsub => ?_⟩ hfin
  have hba : Relation.ReflTransGen r b a := hsub (show Relation.ReflTransGen r a a from .refl)
  exact h a .refl (.head' hab hba)

end Acyclic

/-! ## Carrying a script out -/

inductive Item (α β : Type*) where
  | emit (b : β)
  | call (a : α)

namespace Script
variable {α β ε : Type*}

/-- The output so far, and the failure if there was one; `none` when the bound was reached. -/
abbrev Outcome (β ε : Type*) := Option (List β × Option ε)

def exec (calls : α → Outcome β ε) : List (Item α β) → Outcome β ε
  | [] => some ([], none)
  | .emit b :: is => (exec calls is).map fun r => (b :: r.1, r.2)
  | .call a :: is =>
      match calls a with
      | some (bs, none) => (exec calls is).map fun r => (bs ++ r.1, r.2)
      | some (bs, some e) => some (bs, some e)
      | none => none

variable (body : α → Except ε (List (Item α β)))

def run : ℕ → α → Outcome β ε
  | 0, _ => none
  | n + 1, a =>
      match body a with
      | .ok is => exec (run n) is
      | .error e => some ([], some e)

/-- What a list of items stands for. -/
inductive Expands : List (Item α β) → List β → Prop
  | nil : Expands [] []
  | emit {b is bs} : Expands is bs → Expands (.emit b :: is) (b :: bs)
  | call {a as bs is cs} : body a = .ok as → Expands as bs → Expands is cs →
      Expands (.call a :: is) (bs ++ cs)

/-- The first script that cannot be read, among the calls of a list of items, fails with `e`. -/
inductive Fails : List (Item α β) → ε → Prop
  | emit {b is e} : Fails is e → Fails (.emit b :: is) e
  | here {a is e} : body a = .error e → Fails (.call a :: is) e
  | inside {a as is e} : body a = .ok as → Fails as e → Fails (.call a :: is) e
  | after {a as bs is e} : body a = .ok as → Expands body as bs → Fails is e → Fails (.call a :: is) e

/-- `b` is called somewhere in `a`, whether or not the call is reached. -/
def Mentions (a b : α) : Prop := ∃ is, body a = .ok is ∧ .call b ∈ is

variable {body}

theorem exec_append (calls : α → Outcome β ε) (is js : List (Item α β)) :
    exec calls (is ++ js) =
      match exec calls is with
      | some (bs, none) => (exec calls js).map fun r => (bs ++ r.1, r.2)
      | r => r := by
  induction is with
  | nil => simp [exec]
  | cons i is ih =>
    cases i with
    | emit b =>
      rw [List.cons_append, exec, exec, ih]
      cases exec calls is with
      | none => rfl
      | some r =>
        obtain ⟨bs, _ | e⟩ := r
        · simp [Function.comp_def]
        · rfl
    | call a =>
      rw [List.cons_append, exec, exec, ih]
      cases calls a with
      | none => rfl
      | some s =>
        obtain ⟨cs, _ | e⟩ := s
        · cases exec calls is with
          | none => rfl
          | some r =>
            obtain ⟨bs, _ | e⟩ := r
            · simp [Function.comp_def]
            · rfl
        · rfl

/-- A call gives all its output before the items behind it, or fails and they are not reached. -/
theorem exec_call_cases {calls : α → Outcome β ε} {a : α} {is : List (Item α β)}
    {r : List β × Option ε} (h : exec calls (.call a :: is) = some r) :
    (∃ bs s, calls a = some (bs, none) ∧ exec calls is = some s ∧ r = (bs ++ s.1, s.2)) ∨
      ∃ bs e, calls a = some (bs, some e) ∧ r = (bs, some e) := by
  rw [exec] at h
  cases ha : calls a with
  | none =>
    rw [ha] at h
    cases h
  | some s =>
    rw [ha] at h
    obtain ⟨bs, _ | e⟩ := s
    · obtain ⟨s, hs, rfl⟩ := Option.map_eq_some_iff.mp h
      exact .inl ⟨bs, s, rfl, hs, rfl⟩
    · exact .inr ⟨bs, e, rfl, (Option.some.inj h).symm⟩

/-! ## The bound -/

theorem exec_mono {f g : α → Outcome β ε} (h : ∀ a r, f a = some r → g a = some r)
    {is : List (Item α β)} {r : List β × Option ε} (hr : exec f is = some r) : exec g is = some r := by
  induction is generalizing r with
  | nil => exact hr
  | cons i is ih =>
    cases i with
    | emit b =>
      simp only [exec] at hr ⊢
      obtain ⟨s, hs, rfl⟩ := Option.map_eq_some_iff.mp hr
      rw [ih hs]
      rfl
    | call a =>
      obtain ⟨bs, s, ha, hs, rfl⟩ | ⟨bs, e, ha, rfl⟩ := exec_call_cases hr
      · rw [exec, h a _ ha, ih hs]
        rfl
      · rw [exec, h a _ ha]

theorem run_mono {n m : ℕ} (h : n ≤ m) {a : α} {r : List β × Option ε} (hr : run body n a = some r) :
    run body m a = some r := by
  induction n generalizing m a r with
  | zero => cases hr
  | succ n ih =>
    obtain ⟨m, rfl⟩ : ∃ k, m = k + 1 := ⟨m - 1, by omega⟩
    simp only [run] at hr ⊢
    cases hb : body a with
    | error e =>
      rw [hb] at hr
      exact hr
    | ok is =>
      rw [hb] at hr
      exact exec_mono (fun b s hs => ih (by omega) hs) hr

theorem run_unique {n m : ℕ} {a : α} {r s : List β × Option ε} (hr : run body n a = some r)
    (hs : run body m a = some s) : r = s := by
  have hr' := run_mono (Nat.le_max_left n m) hr
  have hs' := run_mono (Nat.le_max_right n m) hs
  exact Option.some.inj (hr'.symm.trans hs')

/-- A call that comes to an end and the items behind it, within one bound. -/
theorem exec_call_of_run {a : α} {is : List (Item α β)} {bs : List β} {n m : ℕ}
    {r : List β × Option ε} (ha : run body n a = some (bs, none)) (hr : exec (run body m) is = some r) :
    ∃ k, exec (run body k) (.call a :: is) = some (bs ++ r.1, r.2) := by
  have hr' := exec_mono (fun b s hs => run_mono (Nat.le_max_right n m) hs) hr
  exact ⟨max n m, by rw [exec, run_mono (Nat.le_max_left n m) ha, hr']; rfl⟩

/-! ## What a script stands for -/

theorem Expands.unique {is : List (Item α β)} {bs cs : List β} (h : Expands body is bs)
    (h' : Expands body is cs) : bs = cs := by
  induction h generalizing cs with
  | nil =>
    cases h'
    rfl
  | emit _ ih =>
    cases h' with
    | emit h' => rw [ih h']
  | call ha _ _ ih₁ ih₂ =>
    cases h' with
    | call ha' has' his' =>
      obtain rfl := Except.ok.inj (ha.symm.trans ha')
      rw [ih₁ has', ih₂ his']

/-- A script that stands for something runs without failure. -/
theorem Expands.exec {is : List (Item α β)} {bs : List β} (h : Expands body is bs) :
    ∃ n, Script.exec (run body n) is = some (bs, none) := by
  induction h with
  | nil => exact ⟨0, rfl⟩
  | @emit b is bs _ ih =>
    obtain ⟨n, hn⟩ := ih
    exact ⟨n, by rw [Script.exec, hn]; rfl⟩
  | @call a as bs is cs ha _ _ ih₁ ih₂ =>
    obtain ⟨n, hn⟩ := ih₁
    obtain ⟨m, hm⟩ := ih₂
    have hrun : run body (n + 1) a = some (bs, none) := by rw [run, ha]; exact hn
    exact exec_call_of_run hrun hm

theorem expands_of_exec {calls : α → Outcome β ε}
    (hcalls : ∀ a bs, calls a = some (bs, none) → ∃ as, body a = .ok as ∧ Expands body as bs)
    {is : List (Item α β)} {bs : List β} (h : exec calls is = some (bs, none)) :
    Expands body is bs := by
  induction is generalizing bs with
  | nil =>
    obtain rfl : [] = bs := by simpa [exec] using h
    exact .nil
  | cons i is ih =>
    cases i with
    | emit b =>
      rw [exec] at h
      obtain ⟨⟨cs, e⟩, hs, heq⟩ := Option.map_eq_some_iff.mp h
      simp only [Prod.mk.injEq] at heq
      obtain ⟨rfl, rfl⟩ := heq
      exact .emit (ih hs)
    | call a =>
      obtain ⟨cs, ⟨ds, e⟩, ha, hs, heq⟩ | ⟨cs, e, ha, heq⟩ := exec_call_cases h
      · obtain ⟨as, has, hexp⟩ := hcalls a cs ha
        simp only [Prod.mk.injEq] at heq
        obtain ⟨rfl, rfl⟩ := heq
        exact .call has hexp (ih hs)
      · cases heq

theorem expands_of_run {n : ℕ} {a : α} {bs : List β} (h : run body n a = some (bs, none)) :
    ∃ as, body a = .ok as ∧ Expands body as bs := by
  induction n generalizing a bs with
  | zero => cases h
  | succ n ih =>
    rw [run] at h
    cases hb : body a with
    | error e =>
      rw [hb] at h
      simp at h
    | ok is =>
      rw [hb] at h
      exact ⟨is, rfl, expands_of_exec (fun b bs hs => ih hs) h⟩

theorem expands_call_iff {a : α} {bs : List β} :
    Expands body [.call a] bs ↔ ∃ n, run body n a = some (bs, none) := by
  constructor
  · intro h
    cases h with
    | call ha has hnil =>
      cases hnil
      obtain ⟨n, hn⟩ := has.exec
      rw [List.append_nil]
      exact ⟨n + 1, by rw [run, ha]; exact hn⟩
  · rintro ⟨n, hn⟩
    obtain ⟨as, ha, has⟩ := expands_of_run hn
    have h := Expands.call ha has .nil
    rwa [List.append_nil] at h

/-! ## How a script fails -/

theorem Fails.exec {is : List (Item α β)} {e : ε} (h : Fails body is e) :
    ∃ n bs, Script.exec (run body n) is = some (bs, some e) := by
  induction h with
  | @emit b is e _ ih =>
    obtain ⟨n, bs, hn⟩ := ih
    exact ⟨n, b :: bs, by rw [Script.exec, hn]; rfl⟩
  | @here a is e ha => exact ⟨1, [], by rw [Script.exec, run, ha]⟩
  | @inside a as is e ha _ ih =>
    obtain ⟨n, bs, hn⟩ := ih
    have hrun : run body (n + 1) a = some (bs, some e) := by rw [run, ha]; exact hn
    exact ⟨n + 1, bs, by rw [Script.exec, hrun]⟩
  | @after a as bs is e ha has _ ih =>
    obtain ⟨m, cs, hm⟩ := ih
    obtain ⟨n, hn⟩ := has.exec
    have hrun : run body (n + 1) a = some (bs, none) := by rw [run, ha]; exact hn
    obtain ⟨k, hk⟩ := exec_call_of_run hrun hm
    exact ⟨k, _, hk⟩

theorem fails_of_exec {n : ℕ} (hcalls : ∀ a bs e, run body n a = some (bs, some e) → Fails body [.call a] e)
    {is : List (Item α β)} {bs : List β} {e : ε} (h : exec (run body n) is = some (bs, some e)) :
    Fails body is e := by
  induction is generalizing bs with
  | nil => simp [exec] at h
  | cons i is ih =>
    cases i with
    | emit b =>
      rw [exec] at h
      obtain ⟨⟨cs, _⟩, hs, heq⟩ := Option.map_eq_some_iff.mp h
      simp only [Prod.mk.injEq] at heq
      obtain ⟨-, rfl⟩ := heq
      exact .emit (ih hs)
    | call a =>
      obtain ⟨cs, ⟨ds, _⟩, ha, hs, heq⟩ | ⟨cs, _, ha, heq⟩ := exec_call_cases h
      · simp only [Prod.mk.injEq] at heq
        obtain ⟨-, rfl⟩ := heq
        obtain ⟨as, hbody, hexp⟩ := expands_of_run ha
        exact .after hbody hexp (ih hs)
      · simp only [Prod.mk.injEq, Option.some.injEq] at heq
        obtain ⟨-, rfl⟩ := heq
        -- behind the call nothing is reached
        cases hcalls a cs e ha with
        | here hbody => exact .here hbody
        | inside hbody has => exact .inside hbody has
        | after _ _ hnil => cases hnil

theorem fails_of_run {n : ℕ} {a : α} {bs : List β} {e : ε} (h : run body n a = some (bs, some e)) :
    Fails body [.call a] e := by
  induction n generalizing a bs e with
  | zero => cases h
  | succ n ih =>
    rw [run] at h
    cases hb : body a with
    | error e' =>
      rw [hb] at h
      simp only [Option.some.injEq, Prod.mk.injEq] at h
      obtain ⟨-, rfl⟩ := h
      exact .here hb
    | ok is =>
      rw [hb] at h
      exact .inside hb (fails_of_exec (fun a bs e h => ih h) h)

/-- A script fails with `e` when the first script that cannot be read below it does. -/
theorem fails_call_iff {a : α} {e : ε} :
    Fails body [.call a] e ↔ ∃ n bs, run body n a = some (bs, some e) := by
  refine ⟨fun h => ?_, fun ⟨n, bs, h⟩ => fails_of_run h⟩
  obtain ⟨n, bs, hn⟩ := h.exec
  obtain ⟨cs, s, ha, hs, heq⟩ | ⟨cs, e', ha, heq⟩ := exec_call_cases hn
  · simp only [Script.exec, Option.some.injEq] at hs
    subst hs
    simp at heq
  · simp only [Prod.mk.injEq, Option.some.injEq] at heq
    obtain ⟨-, rfl⟩ := heq
    exact ⟨n, cs, ha⟩

/-- Below a script that fails there is one that cannot be read. -/
theorem Fails.unreadable {is : List (Item α β)} {e : ε} (h : Fails body is e) :
    ∃ a b, .call a ∈ is ∧ Relation.ReflTransGen (Mentions body) a b ∧ body b = .error e := by
  induction h with
  | emit _ ih =>
    obtain ⟨a, b, ha, hab, hb⟩ := ih
    exact ⟨a, b, List.mem_cons_of_mem _ ha, hab, hb⟩
  | here ha => exact ⟨_, _, List.mem_cons_self, .refl, ha⟩
  | @inside a as is e ha _ ih =>
    obtain ⟨c, b, hc, hcb, hb⟩ := ih
    exact ⟨a, b, List.mem_cons_self, .head ⟨as, ha, hc⟩ hcb, hb⟩
  | after _ _ _ ih =>
    obtain ⟨a, b, ha, hab, hb⟩ := ih
    exact ⟨a, b, List.mem_cons_of_mem _ ha, hab, hb⟩

/-! ## Finitely many scripts -/

/-- When every call comes to an end, so do the items. -/
theorem exec_of_calls {calls : α → Outcome β ε} {is : List (Item α β)}
    (h : ∀ a, .call a ∈ is → ∃ r, calls a = some r) : ∃ r, exec calls is = some r := by
  induction is with
  | nil => exact ⟨_, rfl⟩
  | cons i is ih =>
    obtain ⟨r, hr⟩ := ih fun a ha => h a (List.mem_cons_of_mem i ha)
    cases i with
    | emit b => exact ⟨_, by rw [exec, hr]; rfl⟩
    | call a =>
      obtain ⟨⟨bs, _ | e⟩, ha⟩ := h a List.mem_cons_self
      · exact ⟨_, by rw [exec, ha, hr]; rfl⟩
      · exact ⟨_, by rw [exec, ha]⟩

/-- Scripts that do not mention themselves come to an end, and no call is deeper than there are scripts. -/
theorem run_of_acyclic {n : ℕ} {a : α} (hfin : {b | Relation.ReflTransGen (Mentions body) a b}.Finite)
    (hacyclic : Acyclic (Mentions body) a) (hn : {b | Relation.ReflTransGen (Mentions body) a b}.ncard ≤ n) :
    ∃ r, run body n a = some r := by
  induction n generalizing a with
  | zero =>
    have hempty := (Set.ncard_eq_zero hfin).mp (Nat.le_zero.mp hn)
    exact absurd (show a ∈ {b | Relation.ReflTransGen (Mentions body) a b} from .refl) (by rw [hempty]; exact id)
  | succ n ih =>
    cases hbody : body a with
    | error e => exact ⟨_, by rw [run, hbody]⟩
    | ok is =>
      have hcalls : ∀ b, .call b ∈ is → ∃ r, run body n b = some r := by
        intro b hb
        have hab : Mentions body a b := ⟨is, hbody, hb⟩
        have hlt := hacyclic.ncard_lt hab hfin
        exact ih (hfin.subset fun c hbc => .head hab hbc) (hacyclic.step hab) (by omega)
      obtain ⟨r, hr⟩ := exec_of_calls hcalls
      exact ⟨r, by rw [run, hbody]; exact hr⟩

/-- When every script that is mentioned below can be read, and none mentions itself, no script fails. -/
theorem succeeds_of_acyclic {a : α} (hfin : {b | Relation.ReflTransGen (Mentions body) a b}.Finite)
    (hacyclic : Acyclic (Mentions body) a)
    (hread : ∀ b, Relation.ReflTransGen (Mentions body) a b → ∃ is, body b = .ok is) :
    ∃ bs, run body {b | Relation.ReflTransGen (Mentions body) a b}.ncard a = some (bs, none) := by
  obtain ⟨⟨bs, _ | e⟩, hr⟩ := run_of_acyclic hfin hacyclic le_rfl
  · exact ⟨bs, hr⟩
  · obtain ⟨c, b, hc, hcb, hb⟩ := (fails_of_run hr).unreadable
    obtain rfl : c = a := by simpa using hc
    obtain ⟨is, his⟩ := hread b hcb
    rw [hb] at his
    cases his

end Script

end Dcl
