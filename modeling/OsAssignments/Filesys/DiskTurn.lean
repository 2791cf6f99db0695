import OsAssignments.Lib.PartialMachine
import Mathlib.Data.List.Nodup
import Mathlib.Logic.Function.Basic

/-!
# Taking turns on the disk

What the lock and the semaphore of `SynchDisk` are for, with no scheduler and no
ready list: a thread queues for the lock or takes it, makes its request, waits for the
completion and hands the lock to the first thread of the queue. A thread that sleeps
and one that has been woken and has not run yet are different roles.

`Phase` says for each role of the holder how the disk, the semaphore and the two
queues stand; `TurnInv` ties it to the threads.

- `TurnInv.next` — **every event keeps the invariant**.
-/

namespace OsAssignments.Filesys.SynchDisk

/-! ## §1  The events -/

/-- Where a thread stands in its call. -/
inductive Role where
  | waiting
  /-- The lock is its own, and it has not run since. -/
  | handed
  | acquired
  | requested (r : ℕ)
  | sleeping (r : ℕ)
  /-- The completion has woken it, and it has not run since. -/
  | woken (r : ℕ)
  | got (r : ℕ)
deriving DecidableEq, Repr

@[ext]
structure Turn where
  role : ℕ → Option Role
  holder : Option ℕ
  waiters : List ℕ
  value : ℕ
  sleepers : List ℕ
  active : Bool
  pending : List ℕ
  completed : List ℕ
  queued : List ℕ
  obtained : List ℕ

inductive Event where
  | enter (k : ℕ)
  | resume (k : ℕ)
  | request (k r : ℕ)
  | wait (k r : ℕ)
  | complete (r : ℕ)
  | release (k r : ℕ)
deriving DecidableEq, Repr

namespace Turn

def setRole (d : Turn) (k : ℕ) (ρ : Option Role) : Turn :=
  { d with role := Function.update d.role k ρ }

/-- Take the lock, or queue for it. -/
def enter (d : Turn) (k : ℕ) : Turn :=
  match d.holder with
  | none => { d.setRole k (some .acquired) with holder := some k }
  | some _ =>
      { d.setRole k (some .waiting) with
        waiters := d.waiters ++ [k], queued := d.queued ++ [k] }

def resume (d : Turn) (k : ℕ) : Turn :=
  { d.setRole k (some .acquired) with
    holder := some k, obtained := d.obtained ++ [k] }

def request (d : Turn) (k r : ℕ) : Turn :=
  { d.setRole k (some (.requested r)) with active := true, pending := d.pending ++ [r] }

/-- Consume the completion, or sleep until it comes. -/
def wait (d : Turn) (k r : ℕ) : Turn :=
  if d.value = 0 then
    { d.setRole k (some (.sleeping r)) with sleepers := d.sleepers ++ [k] }
  else { d.setRole k (some (.got r)) with value := d.value - 1 }

/-- A thread that slept is now only to be run. -/
def wakeRole : Option Role → Option Role
  | some (.sleeping r) => some (.woken r)
  | some .waiting => some .handed
  | ρ => ρ

def wakeOne (d : Turn) : Turn :=
  match d.sleepers with
  | [] => { d with value := d.value + 1 }
  | k :: sleepers =>
      { d.setRole k (wakeRole (d.role k)) with value := d.value + 1, sleepers }

def complete (d : Turn) (r : ℕ) : Turn :=
  { d with
    active := false, pending := d.pending.erase r,
    completed := d.completed ++ [r] }.wakeOne

/-- Hand the lock to the first in the queue, or leave it free. -/
def release (d : Turn) (k : ℕ) : Turn :=
  match d.waiters with
  | [] => { d.setRole k none with holder := none }
  | k' :: waiters =>
      { (d.setRole k' (wakeRole (d.role k'))).setRole k none with
        holder := some k', waiters }

/-- The event, where it can happen. -/
def next (d : Turn) : Event → Option Turn
  | .enter k => if d.role k = none then some (d.enter k) else none
  | .resume k => if d.role k = some .handed then some (d.resume k) else none
  | .request k r =>
      if d.role k = some .acquired ∧ d.active = false then some (d.request k r) else none
  | .wait k r =>
      if d.role k = some (.requested r) ∨ d.role k = some (.woken r) then some (d.wait k r)
      else none
  | .complete r => if r ∈ d.pending then some (d.complete r) else none
  | .release k r =>
      if d.role k = some (.got r) ∧ d.holder = some k then some (d.release k) else none

/-! ## §2  The invariant -/

/-- No request is outstanding, and no completion is left to consume. -/
structure Quiet (d : Turn) : Prop where
  value : d.value = 0
  sleepers : d.sleepers = []
  active : d.active = false
  pending : d.pending = []

/-- Request `r` is outstanding. -/
structure Busy (d : Turn) (r : ℕ) (sleepers : List ℕ) : Prop where
  value : d.value = 0
  sleepers : d.sleepers = sleepers
  active : d.active = true
  pending : d.pending = [r]

/-- Request `r` has been served, and its completion is still to be consumed. -/
structure Done (d : Turn) (r : ℕ) : Prop where
  value : d.value = 1
  sleepers : d.sleepers = []
  active : d.active = false
  pending : d.pending = []
  completed : r ∈ d.completed

/-- Those that have queued and not obtained the lock are those that wait for it. -/
def Ledger (d : Turn) : Prop := d.queued = d.obtained ++ d.waiters

/-- How things stand while `k` holds the lock, by what `k` is doing. -/
def Phase (d : Turn) (k : ℕ) : Role → Prop
  | .waiting => False
  | .handed => d.Quiet ∧ d.queued = d.obtained ++ k :: d.waiters
  | .acquired => d.Quiet ∧ d.Ledger
  | .requested r => (d.Busy r [] ∨ d.Done r) ∧ d.Ledger
  | .sleeping r => d.Busy r [k] ∧ d.Ledger
  | .woken r => d.Done r ∧ d.Ledger
  | .got r => (d.Quiet ∧ r ∈ d.completed) ∧ d.Ledger

/-- **The invariant.** Whoever is past the queue holds the lock, and the rest follows
from what the holder is doing. -/
structure TurnInv (d : Turn) : Prop where
  waiters : ∀ k, k ∈ d.waiters ↔ d.role k = some .waiting
  nodup : d.waiters.Nodup
  owner : ∀ k ρ, d.role k = some ρ → ρ ≠ .waiting → d.holder = some k
  held : ∀ k, d.holder = some k → ∃ ρ, d.role k = some ρ ∧ d.Phase k ρ
  free : d.holder = none → d.waiters = [] ∧ d.Quiet ∧ d.Ledger

variable {d d' : Turn} {k r : ℕ} {ρ : Role}

/-- What the role of a thread past the queue says. -/
theorem TurnInv.phase (h : TurnInv d) (hrole : d.role k = some ρ) (hρ : ρ ≠ .waiting) :
    d.holder = some k ∧ d.Phase k ρ := by
  have hk := h.owner k ρ hrole hρ
  obtain ⟨ρ', hrole', hphase⟩ := h.held k hk
  rw [hrole] at hrole'
  cases hrole'
  exact ⟨hk, hphase⟩

theorem Phase.length_pending (h : d.Phase k ρ) : d.pending.length ≤ 1 := by
  cases ρ with
  | waiting => exact h.elim
  | handed => simp [h.1.pending]
  | acquired => simp [h.1.pending]
  | requested r =>
      rcases h.1 with hbusy | hdone
      · simp [hbusy.pending]
      · simp [hdone.pending]
  | sleeping r => simp [h.1.pending]
  | woken r => simp [h.1.pending]
  | got r => simp [h.1.1.pending]

theorem TurnInv.length_pending (h : TurnInv d) : d.pending.length ≤ 1 := by
  cases hk : d.holder with
  | none => simp [(h.free hk).2.1.pending]
  | some k =>
      obtain ⟨ρ, -, hphase⟩ := h.held k hk
      exact hphase.length_pending

/-- Only the holder sleeps on the semaphore. -/
theorem TurnInv.sleeping {sleepers : List ℕ} (h : TurnInv d) (hk : d.sleepers = k :: sleepers) :
    ∃ r, d.role k = some (.sleeping r) := by
  cases hholder : d.holder with
  | none =>
      rw [(h.free hholder).2.1.sleepers] at hk
      cases hk
  | some j =>
      obtain ⟨ρ, hrole, hphase⟩ := h.held j hholder
      cases ρ with
      | waiting => exact hphase.elim
      | handed => rw [hphase.1.sleepers] at hk; cases hk
      | acquired => rw [hphase.1.sleepers] at hk; cases hk
      | requested r =>
          rcases hphase.1 with hbusy | hdone
          · rw [hbusy.sleepers] at hk
            cases hk
          · rw [hdone.sleepers] at hk
            cases hk
      | sleeping r =>
          rw [hphase.1.sleepers] at hk
          cases hk
          exact ⟨r, hrole⟩
      | woken r => rw [hphase.1.sleepers] at hk; cases hk
      | got r => rw [hphase.1.1.sleepers] at hk; cases hk

/-- The threads that have obtained the lock are the first that queued for it. -/
theorem TurnInv.prefix_queued (h : TurnInv d) : d.obtained <+: d.queued := by
  cases hk : d.holder with
  | none => exact ⟨_, (h.free hk).2.2.symm⟩
  | some k =>
      obtain ⟨ρ, -, hphase⟩ := h.held k hk
      cases ρ with
      | waiting => exact hphase.elim
      | handed => exact ⟨_, hphase.2.symm⟩
      | acquired => exact ⟨_, hphase.2.symm⟩
      | requested r => exact ⟨_, hphase.2.symm⟩
      | sleeping r => exact ⟨_, hphase.2.symm⟩
      | woken r => exact ⟨_, hphase.2.symm⟩
      | got r => exact ⟨_, hphase.2.symm⟩

/-! ## §3  The events keep it -/

theorem enter_of_free (hholder : d.holder = none) :
    d.enter k = { d.setRole k (some .acquired) with holder := some k } := by
  rw [enter, hholder]

theorem enter_of_held {j : ℕ} (hholder : d.holder = some j) :
    d.enter k = { d.setRole k (some .waiting) with
      waiters := d.waiters ++ [k], queued := d.queued ++ [k] } := by
  rw [enter, hholder]

theorem complete_of_nil (hsleepers : d.sleepers = []) :
    d.complete r = { d with
      active := false, pending := d.pending.erase r,
      completed := d.completed ++ [r], value := d.value + 1 } := by
  rw [complete, wakeOne, hsleepers]

theorem complete_of_cons {j : ℕ} {sleepers : List ℕ} (hsleepers : d.sleepers = j :: sleepers) :
    d.complete r = { d.setRole j (wakeRole (d.role j)) with
      active := false, pending := d.pending.erase r,
      completed := d.completed ++ [r], value := d.value + 1, sleepers } := by
  rw [complete, wakeOne, hsleepers]
  rfl

theorem release_of_nil (hwaiters : d.waiters = []) :
    d.release k = { d.setRole k none with holder := none } := by
  rw [release, hwaiters]

theorem release_of_cons {j : ℕ} {waiters : List ℕ} (hwaiters : d.waiters = j :: waiters) :
    d.release k = { (d.setRole j (wakeRole (d.role j))).setRole k none with
      holder := some j, waiters } := by
  rw [release, hwaiters]

/-- The holder moves on within its turn. -/
theorem TurnInv.advance (h : TurnInv d) (hk : d.holder = some k) (hholder : d'.holder = d.holder)
    (hwaiters : d'.waiters = d.waiters) (hrole : d'.role = Function.update d.role k (some ρ))
    (hphase : d'.Phase k ρ) : TurnInv d' := by
  have hρ : ρ ≠ .waiting := by
    rintro rfl
    exact hphase
  obtain ⟨ρ₀, hρ₀, hphase₀⟩ := h.held k hk
  refine ⟨?_, hwaiters ▸ h.nodup, ?_, ?_, ?_⟩
  · intro j
    rw [hwaiters, hrole, h.waiters j]
    by_cases hj : j = k
    · subst hj
      have hwait : ρ₀ ≠ .waiting := by
        rintro rfl
        exact hphase₀
      simp [hρ₀, hρ, hwait]
    · rw [Function.update_of_ne hj]
  · intro j ρ' hj hne
    rw [hholder]
    by_cases hjk : j = k
    · exact hjk ▸ hk
    · rw [hrole, Function.update_of_ne hjk] at hj
      exact h.owner j ρ' hj hne
  · intro j hj
    rw [hholder, hk] at hj
    cases hj
    exact ⟨ρ, by rw [hrole, Function.update_self], hphase⟩
  · intro hnone
    rw [hholder, hk] at hnone
    cases hnone

/-- A thread that queues leaves the holder's turn as it is. -/
theorem Phase.enqueue (h : d.Phase k ρ) (j : ℕ) :
    ({ d.setRole j (some .waiting) with
      waiters := d.waiters ++ [j], queued := d.queued ++ [j] } : Turn).Phase k ρ := by
  have hledger : d.Ledger → d.queued ++ [j] = d.obtained ++ (d.waiters ++ [j]) := by
    intro hl
    rw [hl, List.append_assoc]
  cases ρ with
  | waiting => exact h
  | handed =>
      obtain ⟨hquiet, hl⟩ := h
      refine ⟨⟨hquiet.value, hquiet.sleepers, hquiet.active, hquiet.pending⟩, ?_⟩
      rw [hl, List.append_assoc, List.cons_append]
      rfl
  | acquired =>
      obtain ⟨hquiet, hl⟩ := h
      exact ⟨⟨hquiet.value, hquiet.sleepers, hquiet.active, hquiet.pending⟩, hledger hl⟩
  | requested r =>
      obtain ⟨hstate, hl⟩ := h
      refine ⟨?_, hledger hl⟩
      rcases hstate with hb | hd
      · exact .inl ⟨hb.value, hb.sleepers, hb.active, hb.pending⟩
      · exact .inr ⟨hd.value, hd.sleepers, hd.active, hd.pending, hd.completed⟩
  | sleeping r =>
      obtain ⟨hb, hl⟩ := h
      exact ⟨⟨hb.value, hb.sleepers, hb.active, hb.pending⟩, hledger hl⟩
  | woken r =>
      obtain ⟨hd, hl⟩ := h
      exact ⟨⟨hd.value, hd.sleepers, hd.active, hd.pending, hd.completed⟩, hledger hl⟩
  | got r =>
      obtain ⟨⟨hquiet, hr⟩, hl⟩ := h
      exact ⟨⟨⟨hquiet.value, hquiet.sleepers, hquiet.active, hquiet.pending⟩, hr⟩,
        hledger hl⟩

theorem TurnInv.enter (h : TurnInv d) (hrole : d.role k = none) : TurnInv (d.enter k) := by
  have hk : k ∉ d.waiters := by
    rw [h.waiters k, hrole]
    exact (fun hc => by cases hc)
  cases hholder : d.holder with
  | none =>
      rw [enter_of_free hholder]
      obtain ⟨hnil, hquiet, hl⟩ := h.free hholder
      refine ⟨?_, h.nodup, ?_, ?_, (fun hc => by cases hc)⟩
      · intro j
        by_cases hj : j = k
        · subst hj
          simp [setRole, hk]
        · simpa [setRole, Function.update_of_ne hj] using h.waiters j
      · intro j ρ hj hρ
        by_cases hjk : j = k
        · rw [hjk]
        · have hj' : d.role j = some ρ := by
            simpa [setRole, Function.update_of_ne hjk] using hj
          rw [h.owner j ρ hj' hρ] at hholder
          cases hholder
      · intro j hj
        cases hj
        exact ⟨.acquired, by simp [setRole],
          ⟨hquiet.value, hquiet.sleepers, hquiet.active, hquiet.pending⟩, hl⟩
  | some i =>
      rw [enter_of_held hholder]
      obtain ⟨ρ, hρ, hphase⟩ := h.held i hholder
      have hik : i ≠ k := by
        rintro rfl
        rw [hrole] at hρ
        cases hρ
      refine ⟨?_, ?_, ?_, ?_, (fun hc => absurd (hholder.symm.trans hc) (by simp))⟩
      · intro j
        by_cases hj : j = k
        · subst hj
          simp [setRole]
        · simpa [setRole, Function.update_of_ne hj, hj] using h.waiters j
      · exact List.nodup_append.mpr ⟨h.nodup, List.nodup_singleton k, by
          rintro a ha b hb rfl
          exact hk (List.mem_singleton.mp hb ▸ ha)⟩
      · intro j ρ' hj hne
        by_cases hjk : j = k
        · subst hjk
          have hwait : Role.waiting = ρ' := by simpa [setRole] using hj
          exact absurd hwait.symm hne
        · exact h.owner j ρ' (by simpa [setRole, Function.update_of_ne hjk] using hj) hne
      · intro j hj
        have hij : i = j := by
          exact Option.some.inj (hholder.symm.trans hj)
        subst hij
        exact ⟨ρ, by simpa [setRole, Function.update_of_ne hik] using hρ, hphase.enqueue k⟩

theorem TurnInv.resume (h : TurnInv d) (hrole : d.role k = some .handed) :
    TurnInv (d.resume k) := by
  obtain ⟨hk, hquiet, hl⟩ := h.phase hrole (fun hc => by cases hc)
  refine h.advance (ρ := .acquired) hk hk.symm rfl rfl ⟨?_, ?_⟩
  · exact ⟨hquiet.value, hquiet.sleepers, hquiet.active, hquiet.pending⟩
  · have hl' : d.queued = d.obtained ++ [k] ++ d.waiters := by
      rw [hl, List.append_assoc, List.singleton_append]
    exact hl'

theorem TurnInv.request (h : TurnInv d) (hrole : d.role k = some .acquired) (r : ℕ) :
    TurnInv (d.request k r) := by
  obtain ⟨hk, hquiet, hl⟩ := h.phase hrole (fun hc => by cases hc)
  refine h.advance (ρ := .requested r) hk rfl rfl rfl ⟨.inl ?_, hl⟩
  refine ⟨hquiet.value, hquiet.sleepers, rfl, ?_⟩
  rw [Turn.request, hquiet.pending, List.nil_append]

theorem TurnInv.consume (h : TurnInv d) (hk : d.holder = some k) (hdone : d.Done r)
    (hl : d.Ledger) : TurnInv (d.wait k r) := by
  have hwait : d.wait k r = { d.setRole k (some (.got r)) with value := 0 } := by
    rw [Turn.wait, if_neg (by rw [hdone.value]; exact Nat.one_ne_zero), hdone.value]
  rw [hwait]
  exact h.advance (ρ := .got r) hk rfl rfl rfl
    ⟨⟨⟨rfl, hdone.sleepers, hdone.active, hdone.pending⟩, hdone.completed⟩, hl⟩

theorem TurnInv.wait (h : TurnInv d)
    (hrole : d.role k = some (.requested r) ∨ d.role k = some (.woken r)) :
    TurnInv (d.wait k r) := by
  rcases hrole with hrole | hrole
  · obtain ⟨hk, hbusy | hdone, hl⟩ := h.phase hrole (fun hc => by cases hc)
    · rw [Turn.wait, if_pos hbusy.value]
      refine h.advance (ρ := .sleeping r) hk rfl rfl rfl ⟨?_, hl⟩
      refine ⟨hbusy.value, ?_, hbusy.active, hbusy.pending⟩
      rw [hbusy.sleepers, List.nil_append]
    · exact h.consume hk hdone hl
  · obtain ⟨hk, hdone, hl⟩ := h.phase hrole (fun hc => by cases hc)
    exact h.consume hk hdone hl

/-- The completion finds the holder either before its `P` or asleep in it. -/
theorem TurnInv.complete (h : TurnInv d) (hr : r ∈ d.pending) : TurnInv (d.complete r) := by
  cases hk : d.holder with
  | none =>
      rw [(h.free hk).2.1.pending] at hr
      cases hr
  | some k =>
      obtain ⟨ρ, hrole, hphase⟩ := h.held k hk
      have hcompleted : ∀ {x}, d.pending = [x] → x = r ∧ d.pending.erase r = [] := by
        intro x hx
        rw [hx] at hr ⊢
        rw [List.mem_singleton] at hr
        subst hr
        exact ⟨rfl, by simp⟩
      have hlog : r ∈ d.completed ++ [r] := by simp
      cases ρ with
      | waiting => exact hphase.elim
      | handed => rw [hphase.1.pending] at hr; cases hr
      | acquired => rw [hphase.1.pending] at hr; cases hr
      | requested x =>
          obtain ⟨hbusy | hdone, hl⟩ := hphase
          · obtain ⟨rfl, herase⟩ := hcompleted hbusy.pending
            rw [complete_of_nil hbusy.sleepers]
            refine h.advance (ρ := .requested x) hk rfl rfl ?_ ⟨.inr ?_, hl⟩
            · rw [← hrole, Function.update_eq_self]
            · exact ⟨by rw [hbusy.value], hbusy.sleepers, rfl, herase, hlog⟩
          · rw [hdone.pending] at hr
            cases hr
      | sleeping x =>
          obtain ⟨hbusy, hl⟩ := hphase
          obtain ⟨rfl, herase⟩ := hcompleted hbusy.pending
          rw [complete_of_cons hbusy.sleepers]
          refine h.advance (ρ := .woken x) hk rfl rfl ?_ ⟨?_, hl⟩
          · rw [setRole, hrole]
            rfl
          · exact ⟨by rw [hbusy.value], rfl, rfl, herase, hlog⟩
      | woken x => rw [hphase.1.pending] at hr; cases hr
      | got x => rw [hphase.1.1.pending] at hr; cases hr

theorem TurnInv.release (h : TurnInv d) (hrole : d.role k = some (.got r)) :
    TurnInv (d.release k) := by
  obtain ⟨hk, ⟨hquiet, -⟩, hl⟩ := h.phase hrole (fun hc => by cases hc)
  have hmem : k ∉ d.waiters := by
    rw [h.waiters k, hrole]
    exact (fun hc => by cases hc)
  have hothers : ∀ j ρ, j ≠ k → d.role j = some ρ → ρ = .waiting := by
    intro j ρ hj hρ
    by_contra hne
    rw [h.owner j ρ hρ hne] at hk
    exact hj (Option.some.inj hk)
  have hquiet' : ∀ {d' : Turn}, d'.value = d.value → d'.sleepers = d.sleepers →
      d'.active = d.active → d'.pending = d.pending → d'.Quiet := by
    intro d' hv hs ha hp
    exact ⟨hv.trans hquiet.value, hs.trans hquiet.sleepers, ha.trans hquiet.active,
      hp.trans hquiet.pending⟩
  cases hwaiters : d.waiters with
  | nil =>
      rw [release_of_nil hwaiters]
      refine ⟨?_, h.nodup, ?_, (fun j hj => by cases hj), ?_⟩
      · intro j
        by_cases hj : j = k
        · subst hj
          simp [setRole, hmem]
        · simpa [setRole, Function.update_of_ne hj] using h.waiters j
      · intro j ρ hj hρ
        by_cases hjk : j = k
        · simp [setRole, hjk] at hj
        · exact absurd (hothers j ρ hjk (by simpa [setRole, Function.update_of_ne hjk] using hj)) hρ
      · intro _
        exact ⟨hwaiters, hquiet' rfl rfl rfl rfl, hl⟩
  | cons k' waiters =>
      rw [release_of_cons hwaiters]
      have hk' : d.role k' = some .waiting := (h.waiters k').mp (by simp [hwaiters])
      have hne : k' ≠ k := by
        rintro rfl
        rw [hrole] at hk'
        cases hk'
      have hnodup : k' ∉ waiters ∧ waiters.Nodup := by
        simpa [hwaiters] using h.nodup
      refine ⟨?_, hnodup.2, ?_, ?_, (fun hc => by cases hc)⟩
      · intro j
        by_cases hj : j = k
        · subst hj
          have : j ∉ waiters := fun hc => hmem (by simp [hwaiters, hc])
          simp [setRole, this]
        · by_cases hj' : j = k'
          · subst hj'
            simp [setRole, Function.update_of_ne hne, hk', wakeRole, hnodup.1]
          · simpa [setRole, Function.update_of_ne hj, Function.update_of_ne hj', hwaiters, hj']
              using h.waiters j
      · intro j ρ hj hρ
        by_cases hjk : j = k
        · simp [setRole, hjk] at hj
        · by_cases hj' : j = k'
          · rw [hj']
          · refine absurd (hothers j ρ hjk ?_) hρ
            simpa [setRole, Function.update_of_ne hjk, Function.update_of_ne hj'] using hj
      · intro j hj
        cases hj
        refine ⟨.handed, ?_, hquiet' rfl rfl rfl rfl, ?_⟩
        · simp [setRole, Function.update_of_ne hne, hk', wakeRole]
        · exact hl.trans (by rw [hwaiters]; rfl)

/-- **Every event keeps the invariant.** -/
theorem TurnInv.next {e : Event} (h : TurnInv d) (hnext : d.next e = some d') : TurnInv d' := by
  cases e with
  | enter k =>
      rw [Turn.next, Option.ite_none_right_eq_some] at hnext
      obtain ⟨hrole, heq⟩ := hnext
      cases heq
      exact h.enter hrole
  | resume k =>
      rw [Turn.next, Option.ite_none_right_eq_some] at hnext
      obtain ⟨hrole, heq⟩ := hnext
      cases heq
      exact h.resume hrole
  | request k r =>
      rw [Turn.next, Option.ite_none_right_eq_some] at hnext
      obtain ⟨⟨hrole, -⟩, heq⟩ := hnext
      cases heq
      exact h.request hrole r
  | wait k r =>
      rw [Turn.next, Option.ite_none_right_eq_some] at hnext
      obtain ⟨hrole, heq⟩ := hnext
      cases heq
      exact h.wait hrole
  | complete r =>
      rw [Turn.next, Option.ite_none_right_eq_some] at hnext
      obtain ⟨hr, heq⟩ := hnext
      cases heq
      exact h.complete hr
  | release k r =>
      rw [Turn.next, Option.ite_none_right_eq_some] at hnext
      obtain ⟨⟨hrole, -⟩, heq⟩ := hnext
      cases heq
      exact h.release hrole

end Turn

end OsAssignments.Filesys.SynchDisk
