import Dcl.Foundations.Threads

/-! # `rwlock` on Windows

`rwlock_impl` of `src/dcl/win32/rwlock_impl.cpp`: a semaphore with `MAX_READERS` permits and a mutex.
A reader has one permit. `enter_write` takes the mutex, then every permit, one at a time, and gives the
mutex back. `try_enter_write` takes the mutex and one permit; it never gives the mutex back, and
`leave_write` releases more permits than it took, which fails.

A wait that returns is one operation of a thread, and so is a release; a thread may have entered more
than once. Windows lets the owner of a mutex take it again, and counts. -/
namespace Dcl.Sync.Windows
open Threads
set_option autoImplicit false

def maxReaders : ℕ := 64

/-- `mutex` is the owner and how often it has the mutex. -/
structure Handles where
  sem : ℕ
  mutex : Option (ℕ × ℕ)

/-- In the loop of `enter_write` with this many permits, or in `try_enter_write` with the mutex. -/
inductive Pc where
  | idle
  | collecting (n : ℕ)
  | trying
  deriving DecidableEq

/-- `reads` and `writes` count what the thread has entered and not left. -/
structure Thread where
  pc : Pc
  reads : ℕ
  writes : ℕ
  deriving DecidableEq

/-! ## The handles -/

namespace Handles

/-- A wait for the semaphore that does not time out. -/
def takePermit (h : Handles) : Option Handles :=
  if 0 < h.sem then some { h with sem := h.sem - 1 } else none

/-- `ReleaseSemaphore`: fails when the count would exceed its maximum. -/
def releaseSemaphore (h : Handles) (n : ℕ) : Handles :=
  if h.sem + n ≤ maxReaders then { h with sem := h.sem + n } else h

/-- A wait of the thread `t` for the mutex that does not time out. -/
def takeMutex (h : Handles) (t : ℕ) : Option Handles :=
  match h.mutex with
  | none => some { h with mutex := some (t, 1) }
  | some (o, k) => if o = t then some { h with mutex := some (t, k + 1) } else none

/-- `ReleaseMutex`: fails unless the thread owns the mutex. -/
def releaseMutex (h : Handles) (t : ℕ) : Handles :=
  match h.mutex with
  | some (o, k) => if o = t then { h with mutex := if k ≤ 1 then none else some (t, k - 1) } else h
  | none => h

end Handles

/-! ## The operations -/

/-- `collect` is one pass of the loop of `enter_write`, and after the last its end; `tryCollect` is the
second wait of `try_enter_write`. -/
inductive Op where
  | enterRead
  | tryEnterRead
  | leaveRead
  | enterWrite
  | collect
  | tryEnterWrite
  | tryCollect
  | leaveWrite

def act (t : ℕ) (h : Handles) (th : Thread) (o : Op) : Option (Handles × Thread) :=
  match o, th.pc with
  | .enterRead, .idle => h.takePermit.map fun h' => (h', { th with reads := th.reads + 1 })
  | .tryEnterRead, .idle =>
      match h.takePermit with
      | some h' => some (h', { th with reads := th.reads + 1 })
      | none => some (h, th)
  | .leaveRead, .idle =>
      if 0 < th.reads then some (h.releaseSemaphore 1, { th with reads := th.reads - 1 }) else none
  | .enterWrite, .idle => (h.takeMutex t).map fun h' => (h', { th with pc := .collecting 0 })
  | .collect, .collecting n =>
      if n < maxReaders then h.takePermit.map fun h' => (h', { th with pc := .collecting (n + 1) })
      else some (h.releaseMutex t, { th with pc := .idle, writes := th.writes + 1 })
  | .tryEnterWrite, .idle =>
      match h.takeMutex t with
      | some h' => some (h', { th with pc := .trying })
      | none => some (h, th)
  | .tryCollect, .trying =>
      match h.takePermit with
      | some h' => some (h', { th with pc := .idle, writes := th.writes + 1 })
      | none => some (h, { th with pc := .idle })
  | .leaveWrite, .idle =>
      if 0 < th.writes then
        some (h.releaseSemaphore maxReaders, { th with writes := th.writes - 1 })
      else none
  | _, _ => none

abbrev State := System Handles Thread

def init (n : ℕ) : State := ⟨⟨maxReaders, none⟩, List.replicate n ⟨.idle, 0, 0⟩⟩

/-! ## What the lock is for -/

/-- No thread is inside as a writer while another one is inside. -/
def Excludes (s : State) : Prop :=
  ∀ (i j : ℕ) (a b : Thread), i ≠ j → s.threads[i]? = some a → s.threads[j]? = some b → 0 < a.writes →
    b.reads = 0 ∧ b.writes = 0

/-- When all threads have left, the semaphore has all its permits and the mutex is free. -/
def Restored (s : State) : Prop :=
  (∀ a ∈ s.threads, a = ⟨.idle, 0, 0⟩) → s.shared.sem = maxReaders ∧ s.shared.mutex = none

/-- `try_enter_write` is called while another thread owns the mutex. -/
def triesInVain (s : State) : ℕ × Op → Bool
  | (t, .tryEnterWrite) => (s.shared.mutex.map fun m => m.1 != t).getD false
  | _ => true

/-! ## Permits -/

def Pc.collected : Pc → ℕ
  | .collecting n => n
  | _ => 0

def Thread.permits (th : Thread) : ℕ := th.reads + maxReaders * th.writes + th.pc.collected

section Act
variable {t : ℕ} {h h' : Handles} {th : Thread} {o : Op} {r : Handles × Thread}

theorem takePermit_some (hp : h.takePermit = some h') : 0 < h.sem ∧ h' = { h with sem := h.sem - 1 } := by
  unfold Handles.takePermit at hp
  split at hp
  next hpos => exact ⟨hpos, (Option.some.inj hp).symm⟩
  next => cases hp

theorem takeMutex_some (hm : h.takeMutex t = some h') :
    h'.sem = h.sem ∧ ((h.mutex = none ∧ h'.mutex = some (t, 1)) ∨
      ∃ k, h.mutex = some (t, k) ∧ h'.mutex = some (t, k + 1)) := by
  unfold Handles.takeMutex at hm
  split at hm
  next hnone =>
    rw [← Option.some.inj hm]
    exact ⟨rfl, .inl ⟨hnone, rfl⟩⟩
  next o k hsome =>
    split at hm
    next ho =>
      rw [← Option.some.inj hm]
      exact ⟨rfl, .inr ⟨k, by rw [hsome, ho], rfl⟩⟩
    next => cases hm

theorem releaseSemaphore_sem {n : ℕ} (hn : h.sem + n ≤ maxReaders) :
    (h.releaseSemaphore n).sem = h.sem + n := by
  rw [Handles.releaseSemaphore, if_pos hn]

theorem releaseSemaphore_mutex (n : ℕ) : (h.releaseSemaphore n).mutex = h.mutex := by
  unfold Handles.releaseSemaphore
  split <;> rfl

theorem releaseMutex_sem : (h.releaseMutex t).sem = h.sem := by
  unfold Handles.releaseMutex
  split
  · split <;> rfl
  · rfl

/-- What an operation can do. -/
inductive Effect (t : ℕ) (h : Handles) (th : Thread) (o : Op) (h' : Handles) (th' : Thread) : Prop where
  | read (idle : th.pc = .idle) (op : o ≠ .tryEnterWrite) (take : h.takePermit = some h')
      (thread : th' = { th with reads := th.reads + 1 })
  | refused (idle : th.pc = .idle) (vain : o = .tryEnterWrite → h.takeMutex t = none) (handles : h' = h)
      (thread : th' = th)
  | leaveRead (idle : th.pc = .idle) (op : o ≠ .tryEnterWrite) (inside : 0 < th.reads)
      (handles : h' = h.releaseSemaphore 1) (thread : th' = { th with reads := th.reads - 1 })
  | lock (op : o = .enterWrite) (idle : th.pc = .idle) (take : h.takeMutex t = some h')
      (thread : th' = { th with pc := .collecting 0 })
  | collect (n : ℕ) (op : o = .collect) (busy : th.pc = .collecting n) (take : h.takePermit = some h')
      (thread : th' = { th with pc := .collecting (n + 1) })
  | unlock (n : ℕ) (op : o = .collect) (busy : th.pc = .collecting n) (handles : h' = h.releaseMutex t)
      (thread : th' = { th with pc := .idle, writes := th.writes + 1 }) (all : maxReaders ≤ n)
  | leak (op : o = .tryEnterWrite) (idle : th.pc = .idle) (take : h.takeMutex t = some h')
      (thread : th' = { th with pc := .trying })
  | tried (op : o = .tryCollect) (trying : th.pc = .trying) (mutex : h'.mutex = h.mutex) (pc : th'.pc = .idle)
  | leaveWrite (idle : th.pc = .idle) (op : o ≠ .tryEnterWrite) (inside : 0 < th.writes)
      (handles : h' = h.releaseSemaphore maxReaders) (thread : th' = { th with writes := th.writes - 1 })

theorem act_effect (hact : act t h th o = some r) : Effect t h th o r.1 r.2 := by
  unfold act at hact
  split at hact
  next hpc =>
    obtain ⟨h₁, hp, heq⟩ := Option.map_eq_some_iff.mp hact
    cases heq
    exact .read hpc nofun hp rfl
  next hpc =>
    split at hact
    next h₁ hp =>
      cases hact
      exact .read hpc nofun hp rfl
    next =>
      cases hact
      exact .refused hpc nofun rfl rfl
  next hpc =>
    split at hact
    next hreads =>
      cases hact
      exact .leaveRead hpc nofun hreads rfl rfl
    next => cases hact
  next hpc =>
    obtain ⟨h₁, hm, heq⟩ := Option.map_eq_some_iff.mp hact
    cases heq
    exact .lock rfl hpc hm rfl
  next n hpc =>
    split at hact
    next =>
      obtain ⟨h₁, hp, heq⟩ := Option.map_eq_some_iff.mp hact
      cases heq
      exact .collect n rfl hpc hp rfl
    next hn =>
      cases hact
      exact .unlock n rfl hpc rfl rfl (by omega)
  next hpc =>
    split at hact
    next h₁ hm =>
      cases hact
      exact .leak rfl hpc hm rfl
    next hm =>
      cases hact
      exact .refused hpc (fun _ => hm) rfl rfl
  next hpc =>
    split at hact
    next h₁ hp =>
      cases hact
      exact .tried rfl hpc (by rw [(takePermit_some hp).2]) rfl
    next =>
      cases hact
      exact .tried rfl hpc rfl rfl
  next hpc =>
    split at hact
    next hwrites =>
      cases hact
      exact .leaveWrite hpc nofun hwrites rfl rfl
    next => cases hact
  next => cases hact

/-- What an operation does to the mutex and to the place of the thread. -/
inductive MutexEffect (t : ℕ) (h : Handles) (th : Thread) (o : Op) (h' : Handles) (th' : Thread) : Prop where
  | keep (mutex : h'.mutex = h.mutex)
      (place : (∀ m, th.pc ≠ .collecting m) ∧ th'.pc = .idle ∨
        ∃ m n, th.pc = .collecting m ∧ th'.pc = .collecting n)
      (vain : o = .tryEnterWrite → h.takeMutex t = none)
  | lock (op : o = .enterWrite) (idle : th.pc = .idle) (take : h.takeMutex t = some h')
      (pc : th'.pc = .collecting 0)
  | unlock (op : o = .collect) (m : ℕ) (busy : th.pc = .collecting m) (release : h' = h.releaseMutex t)
      (pc : th'.pc = .idle)
  | leak (op : o = .tryEnterWrite) (idle : th.pc = .idle) (take : h.takeMutex t = some h')
      (pc : th'.pc = .trying)

theorem act_mutex (hact : act t h th o = some r) : MutexEffect t h th o r.1 r.2 := by
  -- a thread that was idle and stays so
  have hidle (hpc : th.pc = .idle) (hpc' : r.2.pc = th.pc) :
      (∀ m, th.pc ≠ .collecting m) ∧ r.2.pc = .idle ∨
        ∃ m n, th.pc = .collecting m ∧ r.2.pc = .collecting n :=
    .inl ⟨by simp [hpc], hpc'.trans hpc⟩
  cases act_effect hact with
  | read idle op take thread =>
    exact .keep (by rw [(takePermit_some take).2]) (hidle idle (by rw [thread])) (absurd · op)
  | refused idle vain handles thread =>
    exact .keep (by rw [handles]) (hidle idle (by rw [thread])) vain
  | leaveRead idle op inside handles thread =>
    exact .keep (by rw [handles, releaseSemaphore_mutex]) (hidle idle (by rw [thread])) (absurd · op)
  | lock op idle take thread => exact .lock op idle take (by rw [thread])
  | collect n op busy take thread =>
    refine .keep (by rw [(takePermit_some take).2]) (.inr ⟨n, n + 1, busy, by rw [thread]⟩) (fun ho => ?_)
    rw [op] at ho
    cases ho
  | unlock n op busy handles thread => exact .unlock op n busy handles (by rw [thread])
  | leak op idle take thread => exact .leak op idle take (by rw [thread])
  | tried op trying mutex pc =>
    refine .keep mutex (.inl ⟨by simp [trying], pc⟩) (fun ho => ?_)
    rw [op] at ho
    cases ho
  | leaveWrite idle op inside handles thread =>
    exact .keep (by rw [handles, releaseSemaphore_mutex]) (hidle idle (by rw [thread])) (absurd · op)

/-- Permits are moved, as long as no thread is in `try_enter_write` and none is missing. -/
theorem act_permits (hact : act t h th o = some r) (htry : th.pc ≠ .trying)
    (hle : h.sem + th.permits ≤ maxReaders) : r.1.sem + r.2.permits = h.sem + th.permits := by
  unfold Thread.permits at *
  cases act_effect hact with
  | read idle op take thread =>
    obtain ⟨hpos, hsem⟩ := takePermit_some take
    rw [hsem, thread]
    simp only
    omega
  | refused idle vain handles thread => rw [handles, thread]
  | leaveRead idle op inside handles thread =>
    rw [handles, thread, releaseSemaphore_sem (by omega)]
    simp only
    omega
  | lock op idle take thread =>
    rw [thread, (takeMutex_some take).1, idle]
    rfl
  | collect n op busy take thread =>
    obtain ⟨hpos, hsem⟩ := takePermit_some take
    rw [hsem, thread, busy]
    simp only [Pc.collected]
    omega
  | unlock n op busy handles thread all =>
    -- the permits that were collected one by one are the writer's
    rw [busy, Pc.collected] at hle
    rw [handles, thread, releaseMutex_sem, busy]
    simp only [Pc.collected, Nat.mul_add]
    omega
  | leak op idle take thread =>
    rw [thread, (takeMutex_some take).1, idle]
    rfl
  | tried op trying mutex pc => exact absurd trying htry
  | leaveWrite idle op inside handles thread =>
    obtain ⟨w, hw⟩ : ∃ w, th.writes = w + 1 := ⟨th.writes - 1, by omega⟩
    rw [hw, Nat.mul_add] at hle
    rw [handles, thread, releaseSemaphore_sem (by omega), hw, Nat.mul_add]
    simp only [Nat.add_sub_cancel]
    omega

end Act

/-! ## The mutex -/

/-- A thread that is in the middle of `enter_write` or `try_enter_write` owns the mutex. -/
def Owned (s : State) : Prop :=
  ∀ (i : ℕ) (a : Thread), s.threads[i]? = some a → a.pc ≠ .idle →
    ∃ k, 0 < k ∧ s.shared.mutex = some (i, k)

/-- The mutex is owned once more than the thread's place accounts for. -/
def Leaked (s : State) : Prop :=
  ∃ o k, 0 < k ∧ s.shared.mutex = some (o, k) ∧
    ∀ (a : Thread) (n : ℕ), s.threads[o]? = some a → a.pc = .collecting n → 2 ≤ k

section Steps
variable {s s' : State} {t : ℕ} {o : Op} {l : Thread} {r : Handles × Thread}

theorem Owned.others_idle (hs : Owned s)
    (hm : s.shared.mutex = none ∨ ∃ k, s.shared.mutex = some (t, k)) {i : ℕ} {a : Thread} (hi : i ≠ t)
    (ha : s.threads[i]? = some a) : a.pc = .idle := by
  by_contra hpc
  obtain ⟨k, -, hk⟩ := hs i a ha hpc
  obtain hm | ⟨k', hm⟩ := hm
  · rw [hm] at hk
    cases hk
  · rw [hm, Option.some.injEq, Prod.mk.injEq] at hk
    exact hi hk.1.symm

theorem takeMutex_owner {h h' : Handles} (hm : h.takeMutex t = some h') :
    (h.mutex = none ∨ ∃ k, h.mutex = some (t, k)) ∧ ∃ k, 0 < k ∧ h'.mutex = some (t, k) := by
  obtain ⟨-, ⟨hnone, hone⟩ | ⟨k, hk, hmore⟩⟩ := takeMutex_some hm
  · exact ⟨.inl hnone, 1, Nat.one_pos, hone⟩
  · exact ⟨.inr ⟨k, hk⟩, k + 1, Nat.succ_pos k, hmore⟩

theorem owned_acts (hs : Owned s) (hacts : Acts act s t o s' l r) : Owned s' := by
  -- only the acting thread is not idle, and it owns the mutex or is idle too
  have halone (hm : s.shared.mutex = none ∨ ∃ k, s.shared.mutex = some (t, k))
      (hself : r.2.pc ≠ .idle → ∃ k, 0 < k ∧ s'.shared.mutex = some (t, k)) : Owned s' := by
    intro i a ha hpc
    by_cases hi : i = t
    · rw [hi, hacts.self, Option.some.injEq] at ha
      rw [hi]
      exact hself (ha ▸ hpc)
    · rw [hacts.other hi] at ha
      exact absurd (hs.others_idle hm hi ha) hpc
  cases act_mutex hacts.act with
  | keep mutex place vain =>
    intro i a ha hpc
    rw [hacts.shared, mutex]
    by_cases hi : i = t
    · rw [hi, hacts.self, Option.some.injEq] at ha
      rw [hi]
      refine hs t l hacts.thread fun hl => ?_
      obtain ⟨-, hidle⟩ | ⟨m, n, hm, -⟩ := place
      · exact hpc (ha ▸ hidle)
      · rw [hl] at hm
        cases hm
    · rw [hacts.other hi] at ha
      exact hs i a ha hpc
  | lock op idle take pc =>
    obtain ⟨hm, hm'⟩ := takeMutex_owner take
    exact halone hm fun _ => hacts.shared ▸ hm'
  | unlock op m busy release pc =>
    obtain ⟨k, -, hk⟩ := hs t l hacts.thread (by simp [busy])
    exact halone (.inr ⟨k, hk⟩) fun hpc => absurd pc hpc
  | leak op idle take pc =>
    obtain ⟨hm, hm'⟩ := takeMutex_owner take
    exact halone hm fun _ => hacts.shared ▸ hm'

theorem triesInVain_iff :
    triesInVain s (t, .tryEnterWrite) = true ↔ s.shared.takeMutex t = none := by
  unfold Handles.takeMutex
  split
  next hm => simp [triesInVain, hm]
  next o k hm => simp [triesInVain, hm]

theorem leaked_of_taken (hacts : Acts act s t o s' l r) (htake : s.shared.takeMutex t = some r.1)
    (hpc : r.2.pc = .trying) : Leaked s' := by
  obtain ⟨-, k, hk, hm⟩ := takeMutex_owner htake
  refine ⟨t, k, hk, hacts.shared ▸ hm, fun a n ha hn => ?_⟩
  rw [hacts.self, Option.some.injEq] at ha
  rw [← ha, hpc] at hn
  cases hn

/-- A call of `try_enter_write` that gets the mutex leaves it owned once too often. -/
theorem leaked_of_try (hacts : Acts act s t o s' l r) (hnot : ¬triesInVain s (t, o) = true) :
    Leaked s' := by
  have htry : o = .tryEnterWrite := by
    cases o with
    | tryEnterWrite => rfl
    | _ => exact absurd rfl hnot
  cases act_mutex hacts.act with
  | keep mutex place vain => exact absurd (htry ▸ triesInVain_iff.mpr (vain htry)) hnot
  | lock op => simp [htry] at op
  | unlock op => simp [htry] at op
  | leak op idle take pc =>
    exact leaked_of_taken hacts take pc

theorem leaked_acts (ho : Owned s) (hs : Leaked s) (hacts : Acts act s t o s' l r) : Leaked s' := by
  obtain ⟨owner, k, hk, hmutex, htwo⟩ := hs
  -- a thread that takes the mutex or gives it back is the one that has it
  have howner (hm : s.shared.mutex = none ∨ ∃ k, s.shared.mutex = some (t, k)) : owner = t := by
    obtain hm | ⟨k', hm⟩ := hm
    · rw [hm] at hmutex
      cases hmutex
    · rw [hm, Option.some.injEq, Prod.mk.injEq] at hmutex
      exact hmutex.1.symm
  cases act_mutex hacts.act with
  | keep mutex place vain =>
    refine ⟨owner, k, hk, by rw [hacts.shared, mutex, hmutex], fun a n ha hpc => ?_⟩
    by_cases hi : owner = t
    · rw [hi, hacts.self, Option.some.injEq] at ha
      obtain ⟨-, hidle⟩ | ⟨m, n', hm, -⟩ := place
      · rw [← ha, hidle] at hpc
        cases hpc
      · exact htwo l m (hi ▸ hacts.thread) hm
    · rw [hacts.other hi] at ha
      exact htwo a n ha hpc
  | lock op idle take pc =>
    obtain ⟨-, ⟨hnone, -⟩ | ⟨k', hk', hmore⟩⟩ := takeMutex_some take
    · rw [hnone] at hmutex
      cases hmutex
    · rw [hmutex, Option.some.injEq, Prod.mk.injEq] at hk'
      refine ⟨t, k + 1, Nat.succ_pos k, by rw [hacts.shared, hmore, hk'.2], fun _ _ _ _ => ?_⟩
      omega
  | unlock op m busy release pc =>
    obtain ⟨k', -, hk'⟩ := ho t l hacts.thread (by simp [busy])
    obtain rfl := howner (.inr ⟨k', hk'⟩)
    have hk2 := htwo l m hacts.thread busy
    refine ⟨owner, k - 1, by omega, ?_, fun a n ha hpc => ?_⟩
    · rw [hacts.shared, release]
      simp only [Handles.releaseMutex, hmutex, if_true]
      rw [if_neg (by omega)]
    · rw [hacts.self, Option.some.injEq] at ha
      rw [← ha, pc] at hpc
      cases hpc
  | leak op idle take pc =>
    exact leaked_of_taken hacts take pc

/-! ## Runs -/

/-- Every permit is in the semaphore or with a thread, and the mutex is with a thread that collects. -/
structure Sound (s : State) : Prop where
  permits : s.shared.sem + total Thread.permits s = maxReaders
  owned : Owned s
  busy : ∀ o k, s.shared.mutex = some (o, k) →
    k = 1 ∧ ∃ (a : Thread) (n : ℕ), s.threads[o]? = some a ∧ a.pc = .collecting n

theorem Sound.not_trying (hs : Sound s) {i : ℕ} {a : Thread} (ha : s.threads[i]? = some a) :
    a.pc ≠ .trying := by
  intro htry
  obtain ⟨k, -, hk⟩ := hs.owned i a ha (by simp [htry])
  obtain ⟨-, b, n, hb, hn⟩ := hs.busy i k hk
  rw [ha, Option.some.injEq] at hb
  rw [← hb, htry] at hn
  cases hn

theorem sound_init (n : ℕ) : Sound (init n) := by
  have hidle : ∀ a ∈ (init n).threads, a = ⟨.idle, 0, 0⟩ := fun a ha => List.eq_of_mem_replicate ha
  refine ⟨?_, fun i a ha hpc => ?_, nofun⟩
  · rw [total_eq_zero Thread.permits fun a ha => by rw [hidle a ha]; rfl]
    rfl
  · exact absurd (by rw [hidle a (List.mem_of_getElem? ha)]) hpc

theorem sound_acts (hs : Sound s) (hacts : Acts act s t o s' l r)
    (hok : triesInVain s (t, o) = true) : Sound s' := by
  have hle := le_total Thread.permits hacts.thread
  have hsum := hacts.total Thread.permits
  have hmoved := act_permits hacts.act (hs.not_trying hacts.thread)
    (by have := hs.permits; omega)
  refine ⟨?_, owned_acts hs.owned hacts, fun o' k hm => ?_⟩
  · have := hs.permits
    rw [hacts.shared]
    omega
  rw [hacts.shared] at hm
  cases act_mutex hacts.act with
  | keep mutex place vain =>
    rw [mutex] at hm
    obtain ⟨hk, a, n, ha, hn⟩ := hs.busy o' k hm
    refine ⟨hk, ?_⟩
    by_cases hi : o' = t
    · rw [hi, hacts.thread, Option.some.injEq] at ha
      obtain ⟨hnot, -⟩ | ⟨-, n', -, hn'⟩ := place
      · exact absurd (ha ▸ hn) (hnot n)
      · exact ⟨r.2, n', by rw [hi, hacts.self], hn'⟩
    · exact ⟨a, n, by rw [hacts.other hi, ha], hn⟩
  | lock op idle take pc =>
    obtain ⟨-, ⟨-, hone⟩ | ⟨k', hk', -⟩⟩ := takeMutex_some take
    · rw [hone, Option.some.injEq, Prod.mk.injEq] at hm
      exact ⟨hm.2.symm, r.2, 0, by rw [← hm.1, hacts.self], pc⟩
    · obtain ⟨-, a, n, ha, hn⟩ := hs.busy t k' hk'
      rw [hacts.thread, Option.some.injEq] at ha
      rw [← ha, idle] at hn
      cases hn
  | unlock op m busy release pc =>
    obtain ⟨k', -, hk'⟩ := hs.owned t l hacts.thread (by simp [busy])
    obtain ⟨rfl, -⟩ := hs.busy t k' hk'
    simp [release, Handles.releaseMutex, hk'] at hm
  | leak op idle take pc =>
    rw [op, triesInVain_iff, take] at hok
    cases hok

theorem Sound.excludes (hs : Sound s) : Excludes s := by
  intro i j a b hij hi hj hw
  have hsum := add_le_total Thread.permits hi hj hij
  have hall := hs.permits
  have ha : maxReaders ≤ a.permits := by
    have := Nat.mul_le_mul_left maxReaders hw
    unfold Thread.permits
    omega
  have hb : b.permits = 0 := by omega
  unfold Thread.permits maxReaders at hb
  omega

theorem Sound.restored (hs : Sound s) : Restored s := by
  intro hidle
  have hzero : total Thread.permits s = 0 :=
    total_eq_zero Thread.permits fun a ha => by rw [hidle a ha]; rfl
  refine ⟨by have := hs.permits; omega, ?_⟩
  cases hm : s.shared.mutex with
  | none => rfl
  | some m =>
    obtain ⟨-, a, n, ha, hn⟩ := hs.busy m.1 m.2 hm
    rw [hidle a (List.mem_of_getElem? ha)] at hn
    cases hn

end Steps

theorem sound_run {n : ℕ} {es : List (ℕ × Op)} {s : State}
    (hrun : Transition.run (step act) (init n) es = some s)
    (hok : Transition.Along (step act) (fun s e => triesInVain s e = true) (init n) es) : Sound s := by
  refine Transition.run_invariant (step act) (fun s e s' hs hok h => ?_) hok hrun (sound_init n)
  obtain ⟨l, r, hacts⟩ := step_acts h
  exact sound_acts hs hacts hok

theorem owned_run {n : ℕ} {es : List (ℕ × Op)} {s : State}
    (hrun : Transition.run (step act) (init n) es = some s) : Owned s := by
  refine Transition.run_preserves (step act) (fun s e s' hs h => ?_) hrun (sound_init n).owned
  obtain ⟨l, r, hacts⟩ := step_acts h
  exact owned_acts hs hacts

theorem leaked_run {es : List (ℕ × Op)} {s s' : State} (hrun : Transition.run (step act) s es = some s')
    (hs : Owned s ∧ Leaked s) : Owned s' ∧ Leaked s' := by
  refine Transition.run_preserves (step act) (P := fun s => Owned s ∧ Leaked s) (fun s e s' hs h => ?_)
    hrun hs
  obtain ⟨l, r, hacts⟩ := step_acts h
  exact ⟨owned_acts hs.1 hacts, leaked_acts hs.1 hs.2 hacts⟩

/-- In every run in which each `try_enter_write` is called while another thread owns the mutex, writers
are alone and the handles are as at the start when all threads have left. In every other run the mutex
is not free any more. -/
theorem rwlock_excludes_when {n : ℕ} {es : List (ℕ × Op)} {s : State}
    (hrun : Transition.run (step act) (init n) es = some s) :
    (Transition.Along (step act) (fun s e => triesInVain s e = true) (init n) es →
      Excludes s ∧ Restored s) ∧
    (¬Transition.Along (step act) (fun s e => triesInVain s e = true) (init n) es →
      s.shared.mutex ≠ none) := by
  constructor
  · intro hok
    have hs := sound_run hrun hok
    exact ⟨hs.excludes, hs.restored⟩
  · intro hnot
    obtain ⟨es₁, e, es₂, s₁, s₂, hrun₁, hbad, hstep, hrun₂⟩ :=
      Transition.exists_not_along (step act) hrun hnot
    obtain ⟨l, r, hacts⟩ := step_acts hstep
    have hs₂ : Owned s₂ ∧ Leaked s₂ :=
      ⟨owned_acts (owned_run hrun₁) hacts, leaked_of_try hacts hbad⟩
    obtain ⟨-, o, k, -, hm, -⟩ := leaked_run hrun₂ hs₂
    rw [hm]
    exact Option.some_ne_none _

namespace Sample

/-- A writer comes in and leaves; another thread tries while the first one has the mutex. -/
def writer : List (ℕ × Op) :=
  (0, .enterWrite) :: (1, .tryEnterWrite) :: List.replicate (maxReaders + 1) (0, .collect)

end Sample

theorem rwlock_excludes_writer : ∃ s : State,
    Transition.run (step act) (init 2) Sample.writer = some s ∧
    s.threads = [⟨.idle, 0, 1⟩, ⟨.idle, 0, 0⟩] ∧ Excludes s :=
  ⟨_, rfl, rfl, ((@rwlock_excludes_when 2 Sample.writer _ rfl).1 (by decide +kernel)).1⟩

/-- `try_enter_write` returns true with a reader inside. When both have left, a permit is missing and
the mutex is not free. -/
theorem try_enter_write_beside_reader :
    (∃ s : State, Transition.run (step act) (init 2)
        [(0, .enterRead), (1, .tryEnterWrite), (1, .tryCollect)] = some s ∧
      s.threads = [⟨.idle, 1, 0⟩, ⟨.idle, 0, 1⟩] ∧ ¬Excludes s) ∧
    ∃ s : State, Transition.run (step act) (init 2)
        [(0, .enterRead), (1, .tryEnterWrite), (1, .tryCollect), (0, .leaveRead), (1, .leaveWrite)] =
          some s ∧
      s.shared = ⟨63, some (1, 1)⟩ ∧ ¬Restored s := by
  refine ⟨⟨_, rfl, rfl, fun h => ?_⟩, _, rfl, rfl, fun h => ?_⟩
  · have := (h 1 0 _ _ (by decide) rfl rfl (by decide)).1
    exact absurd this (by decide)
  · exact absurd (h (by decide)).1 (by decide)

end Dcl.Sync.Windows
