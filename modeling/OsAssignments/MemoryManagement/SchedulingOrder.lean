import Mathlib
import OsAssignments.Lib.LinkedList
import OsAssignments.MemoryManagement.Threads

/-!
# The order of the ready list

`ReadyToRun`, `FindNextToRun` and `Yield` over the linked list of `threads/list.cc`,
cell by cell. The specification knows only `pending`, the threads made ready and not
yet dispatched, in the order in which they were made ready.

- `scheduling_order` — the list holds those threads, and `FindNextToRun` returns the
  first of those with the least key.
- `readyToRun_refines`, `findNextToRun_refines` — the lists without pointers of
  `Threads.lean` are what the pointers stand for.
-/

namespace OsAssignments.MemoryManagement

open PartialMachine

/-! ## §1  The code -/

structure Scheduler where
  readyList : LinkedList SpaceId
  algorithm : Algorithm
  thread : SpaceId → Thread
  currentThread : SpaceId
  quantum : BitVec 32

/-- `priority + cpu/1000`, of numbers without bounds. -/
def Thread.sum (t : Thread) : ℤ := t.priority.toInt + t.cpu.toInt.tdiv 1000

namespace Scheduler

def init (algorithm : Algorithm) (thread : SpaceId → Thread) (main : SpaceId) : Scheduler :=
  ⟨LinkedList.empty, algorithm, thread, main, 0⟩

def set (s : Scheduler) (a : SpaceId) (t : Thread) : Scheduler :=
  { s with thread := Function.update s.thread a t }

/-- `new ListElement` has returned the address `element`. -/
def readyToRun (s : Scheduler) (thread : SpaceId) (element : ℕ) : Option Scheduler :=
  let t := s.thread thread
  let s := s.set thread { t with status := .READY }
  (match s.algorithm with
    | .a1 => s.readyList.append element thread 0
    | .a2 => s.readyList.sortedInsert element thread t.priority.toInt
    | .a3 =>
        s.readyList.sortedInsert element thread (t.priority + t.cpu.sdiv 1000).toInt).map
  fun readyList => { s with readyList }

/-- `Remove`, which ignores the key. -/
def findNextToRun (s : Scheduler) : Option (Option SpaceId × Scheduler) :=
  s.readyList.sortedRemove.map fun (removed, readyList) =>
    (removed.map Prod.snd, { s with readyList })

/-- `Run`, up to `SWITCH`. -/
def run (s : Scheduler) (nextThread : SpaceId) : Scheduler :=
  { s with quantum := 0, currentThread := nextThread }.set nextThread
    { s.thread nextThread with status := .RUNNING }

/-- What every caller of `FindNextToRun` does: `Run`, if there is a thread. -/
def dispatch (s : Scheduler) : Option Scheduler :=
  s.findNextToRun.map fun (nextThread, s) =>
    match nextThread with
    | some t => s.run t
    | none => s

/-- `cpu += quantum`. -/
def charge (s : Scheduler) : Scheduler :=
  s.set s.currentThread
    { s.thread s.currentThread with cpu := (s.thread s.currentThread).cpu + s.quantum }

def yield (s : Scheduler) (element : ℕ) : Option Scheduler := do
  let s ← s.charge.readyToRun s.currentThread element
  s.dispatch

inductive Act where
  /-- The timer ticks. -/
  | tick
  /-- `Sleep` and `Wait`, up to the loop around `FindNextToRun`. -/
  | block
  | readyToRun (thread : SpaceId) (element : ℕ)
  | findNextToRun
  | yield (element : ℕ)

/-- The allocator hands out an address where nothing is. -/
def Free (s : Scheduler) (element : ℕ) : Prop := (s.readyList.cells element).isNone

instance (s : Scheduler) (element : ℕ) : Decidable (s.Free element) :=
  inferInstanceAs (Decidable (_ = true))

def step (s : Scheduler) : Act → Option Scheduler
  | .tick => some { s with quantum := s.quantum + 1 }
  | .block =>
      some (s.set s.currentThread { s.thread s.currentThread with status := .BLOCKED })
  | .readyToRun thread element =>
      if s.Free element then s.readyToRun thread element else none
  | .findNextToRun => s.dispatch
  | .yield element => if s.Free element then s.yield element else none

/-! ## §2  What it is to do -/

inductive ReadyEvent where
  | readied (thread : SpaceId)
  | dispatched (thread : SpaceId)

def dispatchEvents (s : Scheduler) : List ReadyEvent :=
  match s.findNextToRun with
  | some (some t, _) => [.dispatched t]
  | _ => []

def event (s : Scheduler) : Act → List ReadyEvent
  | .readyToRun thread _ => [.readied thread]
  | .findNextToRun => s.dispatchEvents
  | .yield element =>
      .readied s.currentThread ::
        match s.charge.readyToRun s.currentThread element with
        | some s => s.dispatchEvents
        | none => []
  | .tick => []
  | .block => []

def wait : List SpaceId → ReadyEvent → List SpaceId
  | l, .readied t => l ++ [t]
  | l, .dispatched t => l.erase t

/-- The threads made ready and not yet dispatched, in the order they were made ready. -/
def pending (log : List ReadyEvent) : List SpaceId := log.foldl wait []

/-- The key of a thread as it is now; the sum is one of `int`s. -/
def key (s : Scheduler) (a : SpaceId) : ℤ :=
  match s.algorithm with
  | .a1 => 0
  | .a2 => (s.thread a).priority.toInt
  | .a3 => ((s.thread a).priority + (s.thread a).cpu.sdiv 1000).toInt

/-- What `Yield` adds to `cpu` does not change the key of a thread that waits: the running
thread may be one that was made ready all the same. -/
def KeepsKey (s : Scheduler) (log : List ReadyEvent) : Act → Prop
  | .yield _ => s.currentThread ∈ pending log →
      s.charge.key s.currentThread = s.key s.currentThread
  | _ => True

/-- What the callers keep to: only the running thread goes to sleep or yields, and
`ReadyToRun` gets a thread that is new (`Fork`) or asleep (`V`, and `WakeUp`, which
looks). -/
def Promised (s : Scheduler) : Act → Prop
  | .block => (s.thread s.currentThread).status = .RUNNING
  | .readyToRun t _ => (s.thread t).status = .JUST_CREATED ∨ (s.thread t).status = .BLOCKED
  | .yield _ => (s.thread s.currentThread).status = .RUNNING
  | _ => True

instance (s : Scheduler) : (a : Act) → Decidable (s.Promised a)
  | .block | .yield _ =>
      inferInstanceAs (Decidable ((s.thread s.currentThread).status = .RUNNING))
  | .readyToRun t _ => inferInstanceAs (Decidable
      ((s.thread t).status = .JUST_CREATED ∨ (s.thread t).status = .BLOCKED))
  | .tick | .findNextToRun => isTrue trivial

variable {s s' : Scheduler} {log : List ReadyEvent} {a : SpaceId} {element : ℕ}

theorem pending_append (log log' : List ReadyEvent) :
    pending (log ++ log') = log'.foldl wait (pending log) := List.foldl_append

/-! ## §3  One lemma for each operation -/

/-- Where the list puts a thread with this key. -/
def inserted (s : Scheduler) (a : SpaceId) : List (ℤ × SpaceId) :=
  match s.algorithm with
  | .a1 => s.readyList.toList ++ [(0, a)]
  | _ => s.readyList.toList.orderedInsert ArrivalOrder.Before (s.key a, a)

theorem readyToRun_spec (h : s.readyList.Valid) (hfree : s.Free element) (a : SpaceId) :
    ∃ readyList, s.readyToRun a element =
        some { s.set a { s.thread a with status := .READY } with readyList } ∧
      readyList.Valid ∧ readyList.toList = s.inserted a := by
  have hnone : s.readyList.cells element = none := Option.isNone_iff_eq_none.mp hfree
  unfold readyToRun inserted key
  cases halg : s.algorithm with
  | a1 =>
      obtain ⟨l, hl, hvalid, hlist⟩ := h.append hnone a 0
      refine ⟨l, ?_, hvalid, hlist⟩
      simp only [set, halg, hl, Option.map_some]
  | a2 =>
      obtain ⟨l, hl, hvalid, hlist⟩ := h.sortedInsert hnone a (s.thread a).priority.toInt
      refine ⟨l, ?_, hvalid, hlist⟩
      simp only [set, halg, hl, Option.map_some]
  | a3 =>
      obtain ⟨l, hl, hvalid, hlist⟩ := h.sortedInsert hnone a
        ((s.thread a).priority + (s.thread a).cpu.sdiv 1000).toInt
      refine ⟨l, ?_, hvalid, hlist⟩
      simp only [set, halg, hl, Option.map_some]

theorem findNextToRun_nil (h : s.readyList.Valid) (hnil : s.readyList.toList = []) :
    s.findNextToRun = some (none, s) := by
  rw [findNextToRun, h.sortedRemove_nil hnil]
  rfl

theorem findNextToRun_cons (h : s.readyList.Valid) {k : ℤ} {q : List (ℤ × SpaceId)}
    (hcons : s.readyList.toList = (k, a) :: q) :
    ∃ readyList, s.findNextToRun = some (some a, { s with readyList }) ∧
      readyList.Valid ∧ readyList.toList = q := by
  obtain ⟨l, hl, hvalid, hlist⟩ := h.sortedRemove hcons
  refine ⟨l, ?_, hvalid, hlist⟩
  rw [findNextToRun, hl]
  rfl

/-! ## §4  No thread is lost -/

/-- The list holds the threads that it is to hold. -/
structure Exact (s : Scheduler) (log : List ReadyEvent) : Prop where
  valid : s.readyList.Valid
  perm : (s.readyList.toList.map Prod.snd).Perm (pending log)

theorem inserted_perm (s : Scheduler) (a : SpaceId) :
    ((s.inserted a).map Prod.snd).Perm (s.readyList.toList.map Prod.snd ++ [a]) := by
  unfold inserted
  have hsorted : ((s.readyList.toList.orderedInsert ArrivalOrder.Before (s.key a, a)).map
      Prod.snd).Perm (s.readyList.toList.map Prod.snd ++ [a]) :=
    ((List.perm_orderedInsert _ _ _).map Prod.snd).trans
      (List.perm_append_singleton a _).symm
  split
  · rw [List.map_append]
    exact List.Perm.refl _
  · exact hsorted

theorem Exact.readyToRun (h : Exact s log) (hready : s.readyToRun a element = some s')
    (hfree : s.Free element) : Exact s' (log ++ [.readied a]) := by
  obtain ⟨l, hl, hvalid, hlist⟩ := readyToRun_spec h.valid hfree a
  rw [hl] at hready
  cases hready
  refine ⟨hvalid, ?_⟩
  rw [pending_append]
  change (l.toList.map Prod.snd).Perm (pending log ++ [a])
  rw [hlist]
  exact (s.inserted_perm a).trans (h.perm.append_right [a])

theorem Exact.dispatch (h : Exact s log) (hs : s.dispatch = some s') :
    Exact s' (log ++ s.dispatchEvents) := by
  unfold Scheduler.dispatch at hs
  unfold dispatchEvents
  cases hlist : s.readyList.toList with
  | nil =>
      rw [findNextToRun_nil h.valid hlist] at hs ⊢
      cases hs
      rwa [List.append_nil]
  | cons e q =>
      obtain ⟨k, a⟩ := e
      obtain ⟨l, hl, hvalid, hq⟩ := findNextToRun_cons h.valid hlist
      rw [hl] at hs ⊢
      cases hs
      refine ⟨hvalid, ?_⟩
      rw [pending_append]
      change (l.toList.map Prod.snd).Perm ((pending log).erase a)
      have hperm := h.perm.erase a
      rw [hlist, List.map_cons, List.erase_cons_head] at hperm
      rw [hq]
      exact hperm

theorem exact_step {act : Act} (h : Exact s log) (hs : s.step act = some s') :
    Exact s' (log ++ s.event act) := by
  cases act with
  | tick =>
      cases hs
      rw [event, List.append_nil]
      exact ⟨h.valid, h.perm⟩
  | block =>
      cases hs
      rw [event, List.append_nil]
      exact ⟨h.valid, h.perm⟩
  | readyToRun t element =>
      obtain ⟨hfree, hs⟩ := Option.ite_none_right_eq_some.mp hs
      exact h.readyToRun hs hfree
  | findNextToRun => exact h.dispatch hs
  | yield element =>
      obtain ⟨hfree, hs⟩ := Option.ite_none_right_eq_some.mp hs
      obtain ⟨s₁, hready, hs⟩ := Option.bind_eq_some_iff.mp hs
      have hcharged : Exact s.charge log := ⟨h.valid, h.perm⟩
      have hnext := (hcharged.readyToRun hready hfree).dispatch hs
      rw [event, hready]
      rwa [List.append_assoc] at hnext

/-! ## §5  The keys stay as they were -/

/-- The list is sorted by the keys as they are now. -/
structure Ordered (s : Scheduler) (log : List ReadyEvent) : Prop where
  valid : s.readyList.Valid
  sorts : ArrivalOrder.Sorts s.key s.readyList.toList (pending log)

theorem key_congr {t : Scheduler} (halg : t.algorithm = s.algorithm)
    (hprio : (t.thread a).priority = (s.thread a).priority)
    (hcpu : s.algorithm = .a3 → (t.thread a).cpu = (s.thread a).cpu) :
    t.key a = s.key a := by
  unfold key
  rw [halg]
  cases h : s.algorithm with
  | a1 => rfl
  | a2 => rw [hprio]
  | a3 => rw [hprio, hcpu h]

theorem key_set {t : Thread} (hprio : t.priority = (s.thread a).priority)
    (hcpu : s.algorithm = .a3 → t.cpu = (s.thread a).cpu) : (s.set a t).key = s.key := by
  funext b
  by_cases hb : b = a
  · subst hb
    refine key_congr (s := s) (t := s.set b t) rfl ?_ fun halg => ?_
    · simpa [set] using hprio
    · simpa [set] using hcpu halg
  · refine key_congr (s := s) (t := s.set a t) rfl ?_ fun _ => ?_ <;> simp [set, hb]

/-- Only algorithm 3 looks at `cpu`. -/
theorem key_charge (halg : s.algorithm ≠ .a3) : s.charge.key = s.key :=
  key_set rfl fun h => absurd h halg

/-- The key of algorithm 3, where it is an `int`. -/
theorem key_eq_sum (halg : s.algorithm = .a3) (hlow : -0x80000000 ≤ (s.thread a).sum)
    (hhigh : (s.thread a).sum < 0x80000000) : s.key a = (s.thread a).sum := by
  unfold Thread.sum at hlow hhigh
  have hdiv : ((s.thread a).cpu.sdiv 1000).toInt = (s.thread a).cpu.toInt.tdiv 1000 :=
    BitVec.toInt_sdiv_of_ne_or_ne _ _ (Or.inr (by decide))
  have hsum := BitVec.toInt_add (s.thread a).priority ((s.thread a).cpu.sdiv 1000)
  rw [hdiv, Int.bmod_eq_of_le (by omega) (by omega)] at hsum
  rw [key, halg]
  exact hsum

/-- Algorithm 1 too puts a newcomer behind those with its key. -/
theorem Ordered.inserted_eq (h : Ordered s log) (a : SpaceId) :
    s.inserted a = s.readyList.toList.orderedInsert ArrivalOrder.Before (s.key a, a) := by
  unfold inserted
  split
  · rename_i halg
    have hzero : ∀ b, s.key b = 0 := fun b => by rw [key, halg]
    have hbehind : (s.readyList.toList ++ []).orderedInsert ArrivalOrder.Before (0, a) =
        s.readyList.toList ++ [].orderedInsert ArrivalOrder.Before (0, a) := by
      apply ArrivalOrder.orderedInsert_behind
      intro e he
      rw [ArrivalOrder.Before, h.sorts.current e he, hzero]
      exact lt_irrefl 0
    rw [List.append_nil, List.orderedInsert_nil] at hbehind
    rw [hzero, hbehind]
  · rfl

theorem Ordered.readyToRun (h : Ordered s log) (hfree : s.Free element) (a : SpaceId) :
    ∃ s', s.readyToRun a element = some s' ∧ Ordered s' (log ++ [.readied a]) := by
  obtain ⟨l, hl, hvalid, hlist⟩ := readyToRun_spec h.valid hfree a
  have hkey : (s.set a { s.thread a with status := .READY }).key = s.key :=
    key_set rfl fun _ => rfl
  refine ⟨_, hl, hvalid, ?_⟩
  change ArrivalOrder.Sorts (s.set a { s.thread a with status := .READY }).key l.toList _
  rw [hkey, hlist, h.inserted_eq a, pending_append]
  exact h.sorts.insert a

/-- **`FindNextToRun`** returns the first of the threads with the least key. -/
theorem Ordered.findNextToRun (h : Ordered s log) :
    ∃ readyList, s.findNextToRun =
        some ((pending log).argmin s.key, { s with readyList }) ∧ readyList.Valid ∧
      ∀ a, (pending log).argmin s.key = some a →
        ArrivalOrder.Sorts s.key readyList.toList ((pending log).erase a) := by
  cases hlist : s.readyList.toList with
  | nil =>
      have hsorts := h.sorts
      rw [hlist] at hsorts
      have hnone : pending log = [] := List.nil_perm.mp hsorts.perm
      refine ⟨s.readyList, ?_, h.valid, fun a ha => ?_⟩
      · rw [findNextToRun_nil h.valid hlist, hnone]
        rfl
      · rw [hnone] at ha
        cases ha
  | cons e q =>
      obtain ⟨k, a⟩ := e
      have hsorts := h.sorts
      rw [hlist] at hsorts
      obtain ⟨hargmin, hrest⟩ := hsorts.remove
      obtain ⟨l, hl, hvalid, hq⟩ := findNextToRun_cons h.valid hlist
      refine ⟨l, by rw [hl, hargmin], hvalid, fun b hb => ?_⟩
      rw [hargmin] at hb
      cases hb
      rw [hq]
      exact hrest

theorem Ordered.dispatch (h : Ordered s log) (hs : s.dispatch = some s') :
    Ordered s' (log ++ s.dispatchEvents) := by
  obtain ⟨l, hfind, hvalid, hrest⟩ := h.findNextToRun
  unfold Scheduler.dispatch at hs
  unfold dispatchEvents
  rw [hfind] at hs ⊢
  cases hargmin : (pending log).argmin s.key with
  | none =>
      rw [hargmin] at hs hfind
      have hnone : pending log = [] := List.argmin_eq_none.mp hargmin
      have hlist : s.readyList.toList = [] := by
        have hperm := h.sorts.perm
        rw [hnone, List.perm_nil, List.map_eq_nil_iff] at hperm
        exact hperm
      rw [findNextToRun_nil h.valid hlist] at hfind
      cases hs
      rw [List.append_nil, ← (Prod.mk.inj (Option.some.inj hfind)).2]
      exact h
  | some a =>
      rw [hargmin] at hs
      cases hs
      have hkey : (Scheduler.run { s with readyList := l } a).key = s.key :=
        key_set (s := { s with readyList := l, quantum := 0, currentThread := a }) rfl
          fun _ => rfl
      refine ⟨hvalid, ?_⟩
      rw [pending_append, hkey]
      exact hrest a hargmin

/-- The running thread pays for its quantum. -/
theorem Ordered.charge (h : Ordered s log) (hkeeps : s.KeepsKey log (.yield element)) :
    Ordered s.charge log := by
  refine ⟨h.valid, h.sorts.congr fun b hb => ?_⟩
  by_cases hcur : b = s.currentThread
  · rw [hcur] at hb ⊢
    exact hkeeps hb
  · refine key_congr (s := s) (t := s.charge) rfl ?_ fun _ => ?_ <;>
      simp [Scheduler.charge, Scheduler.set, hcur]

/-- **The step lemma.** -/
theorem ordered_step {act : Act} (h : Ordered s log) (hkeeps : s.KeepsKey log act)
    (hs : s.step act = some s') : Ordered s' (log ++ s.event act) := by
  cases act with
  | tick =>
      cases hs
      rw [event, List.append_nil]
      exact ⟨h.valid, h.sorts⟩
  | block =>
      cases hs
      rw [event, List.append_nil]
      have hkey : (s.set s.currentThread
          { s.thread s.currentThread with status := .BLOCKED }).key = s.key :=
        key_set rfl fun _ => rfl
      exact ⟨h.valid, h.sorts.congr fun b _ => congrFun hkey b⟩
  | readyToRun t element =>
      obtain ⟨hfree, hs⟩ := Option.ite_none_right_eq_some.mp hs
      obtain ⟨s₁, hready, hs₁⟩ := h.readyToRun hfree t
      rw [hs] at hready
      cases hready
      exact hs₁
  | findNextToRun => exact h.dispatch hs
  | yield element =>
      obtain ⟨hfree, hs⟩ := Option.ite_none_right_eq_some.mp hs
      obtain ⟨s₁, hready, hs₁⟩ := (h.charge hkeeps).readyToRun hfree s.currentThread
      have hdispatch : s₁.dispatch = some s' := by
        rw [Scheduler.yield, hready] at hs
        exact hs
      have hnext := hs₁.dispatch hdispatch
      rw [event, hready]
      rwa [List.append_assoc] at hnext

/-! ## §6  Callers that keep to their promise -/

/-- Who waits is ready, and waits once. -/
structure Waiting (s : Scheduler) (log : List ReadyEvent) : Prop where
  once : (pending log).Nodup
  ready : ∀ b ∈ pending log, (s.thread b).status = .READY

theorem Waiting.not_pending (h : Waiting s log) (ha : (s.thread a).status ≠ .READY) :
    a ∉ pending log :=
  fun hmem => ha (h.ready a hmem)

/-- A thread that does not wait may change. -/
theorem Waiting.set (h : Waiting s log) (ha : a ∉ pending log) (t : Thread) :
    Waiting (s.set a t) log := by
  refine ⟨h.once, fun b hb => ?_⟩
  have hba : b ≠ a := by
    rintro rfl
    exact ha hb
  change (Function.update s.thread a t b).status = .READY
  rw [Function.update_of_ne hba]
  exact h.ready b hb

theorem Waiting.readyToRun (h : Waiting s log) (hvalid : s.readyList.Valid)
    (hfree : s.Free element) (ha : a ∉ pending log)
    (hready : s.readyToRun a element = some s') : Waiting s' (log ++ [.readied a]) := by
  obtain ⟨l, hl, -⟩ := readyToRun_spec hvalid hfree a
  rw [hready] at hl
  cases hl
  have hpending : pending (log ++ [.readied a]) = pending log ++ [a] := pending_append _ _
  constructor
  · rw [hpending]
    apply List.Nodup.append h.once (List.nodup_singleton a)
    rintro b hb hb'
    rw [List.mem_singleton.mp hb'] at hb
    exact ha hb
  · intro b hb
    change (Function.update s.thread a _ b).status = .READY
    by_cases hba : b = a
    · subst hba
      rw [Function.update_self]
    · rw [Function.update_of_ne hba]
      rw [hpending, List.mem_append, List.mem_singleton] at hb
      exact h.ready b (hb.resolve_right hba)

theorem Waiting.dispatch (h : Waiting s log) (hvalid : s.readyList.Valid)
    (hs : s.dispatch = some s') : Waiting s' (log ++ s.dispatchEvents) := by
  unfold Scheduler.dispatch at hs
  unfold dispatchEvents
  cases hlist : s.readyList.toList with
  | nil =>
      rw [findNextToRun_nil hvalid hlist] at hs ⊢
      cases hs
      rwa [List.append_nil]
  | cons e q =>
      obtain ⟨k, a⟩ := e
      obtain ⟨l, hl, -⟩ := findNextToRun_cons hvalid hlist
      rw [hl] at hs ⊢
      cases hs
      have hpending : pending (log ++ [.dispatched a]) = (pending log).erase a :=
        pending_append _ _
      have hrest : Waiting s (log ++ [.dispatched a]) := by
        constructor
        · rw [hpending]
          exact h.once.erase a
        · intro b hb
          rw [hpending] at hb
          exact h.ready b (List.mem_of_mem_erase hb)
      have hgone : a ∉ pending (log ++ [.dispatched a]) := by
        rw [hpending]
        exact h.once.not_mem_erase
      have hset := hrest.set hgone { s.thread a with status := .RUNNING }
      exact ⟨hset.once, hset.ready⟩

theorem waiting_step {act : Act} (h : Waiting s log) (hvalid : s.readyList.Valid)
    (hpromise : s.Promised act) (hs : s.step act = some s') :
    Waiting s' (log ++ s.event act) := by
  cases act with
  | tick =>
      cases hs
      rw [event, List.append_nil]
      exact ⟨h.once, h.ready⟩
  | block =>
      cases hs
      have hrun : (s.thread s.currentThread).status = .RUNNING := hpromise
      rw [event, List.append_nil]
      apply h.set
      apply h.not_pending
      rw [hrun]
      decide
  | readyToRun t element =>
      obtain ⟨hfree, hs⟩ := Option.ite_none_right_eq_some.mp hs
      refine h.readyToRun hvalid hfree (h.not_pending ?_) hs
      rcases hpromise with hst | hst <;> rw [hst] <;> decide
  | findNextToRun => exact h.dispatch hvalid hs
  | yield element =>
      obtain ⟨hfree, hs⟩ := Option.ite_none_right_eq_some.mp hs
      obtain ⟨s₁, hready, hs⟩ := Option.bind_eq_some_iff.mp hs
      have hrun : (s.thread s.currentThread).status = .RUNNING := hpromise
      have hnot : s.currentThread ∉ pending log := h.not_pending (by rw [hrun]; decide)
      obtain ⟨l, hl, hvalid', -⟩ := readyToRun_spec (s := s.charge) hvalid hfree s.currentThread
      have hcharged : Waiting s.charge log := h.set hnot _
      have hready' := hcharged.readyToRun hvalid hfree hnot hready
      rw [hl] at hready
      cases hready
      have hnext := hready'.dispatch hvalid' hs
      rw [event, hl]
      rwa [List.append_assoc] at hnext

theorem Waiting.keepsKey (h : Waiting s log) {act : Act} (hpromise : s.Promised act) :
    s.KeepsKey log act := by
  cases act with
  | yield element =>
      intro hmem
      have hrun : (s.thread s.currentThread).status = .RUNNING := hpromise
      rw [h.ready _ hmem] at hrun
      cases hrun
  | tick => trivial
  | block => trivial
  | readyToRun t element => trivial
  | findNextToRun => trivial

theorem keepsKey_of_ne {act : Act} (halg : s.algorithm ≠ .a3) : s.KeepsKey log act := by
  cases act with
  | yield element => exact fun _ => congrFun (key_charge halg) s.currentThread
  | tick => trivial
  | block => trivial
  | readyToRun t element => trivial
  | findNextToRun => trivial

/-! ## §7  Runs -/

/-- A new cell lies at an address where nothing is. -/
def Allocates (s : Scheduler) : Act → Prop
  | .readyToRun _ element => s.Free element
  | .yield element => s.Free element
  | _ => True

theorem exists_dispatch (h : s.readyList.Valid) : ∃ s', s.dispatch = some s' := by
  unfold Scheduler.dispatch
  cases hlist : s.readyList.toList with
  | nil => exact ⟨_, by rw [findNextToRun_nil h hlist]; rfl⟩
  | cons e q =>
      obtain ⟨l, hl, -⟩ := findNextToRun_cons h (k := e.1) (a := e.2) hlist
      exact ⟨_, by rw [hl]; rfl⟩

/-- No pointer leads astray. -/
theorem exists_step (h : s.readyList.Valid) {act : Act} (halloc : s.Allocates act) :
    ∃ s', s.step act = some s' := by
  cases act with
  | tick => exact ⟨_, rfl⟩
  | block => exact ⟨_, rfl⟩
  | readyToRun t element =>
      obtain ⟨l, hl, -⟩ := readyToRun_spec h halloc t
      exact ⟨_, Option.ite_none_right_eq_some.mpr ⟨halloc, hl⟩⟩
  | findNextToRun => exact exists_dispatch h
  | yield element =>
      obtain ⟨l, hl, hvalid, -⟩ :=
        readyToRun_spec (s := s.charge) h halloc s.currentThread
      obtain ⟨s', hs'⟩ := exists_dispatch (s := { s.charge.set s.currentThread
        { s.charge.thread s.currentThread with status := .READY } with readyList := l }) hvalid
      refine ⟨s', Option.ite_none_right_eq_some.mpr ⟨halloc, ?_⟩⟩
      rw [Scheduler.yield, hl]
      exact hs'

variable {algorithm : Algorithm} {thread : SpaceId → Thread} {main : SpaceId}

theorem algorithm_step {act : Act} (h : s.readyList.Valid) (hs : s.step act = some s') :
    s'.algorithm = s.algorithm := by
  have hdispatch : ∀ {s₁ s₂ : Scheduler}, s₁.readyList.Valid → s₁.dispatch = some s₂ →
      s₂.algorithm = s₁.algorithm := by
    intro s₁ s₂ hvalid hs₂
    unfold Scheduler.dispatch at hs₂
    cases hlist : s₁.readyList.toList with
    | nil =>
        rw [findNextToRun_nil hvalid hlist] at hs₂
        cases hs₂
        rfl
    | cons e q =>
        obtain ⟨l, hl, -⟩ := findNextToRun_cons hvalid (k := e.1) (a := e.2) hlist
        rw [hl] at hs₂
        cases hs₂
        rfl
  cases act with
  | tick =>
      cases hs
      rfl
  | block =>
      cases hs
      rfl
  | readyToRun t element =>
      obtain ⟨hfree, hs⟩ := Option.ite_none_right_eq_some.mp hs
      obtain ⟨l, hl, -⟩ := readyToRun_spec h hfree t
      rw [hs] at hl
      cases hl
      rfl
  | findNextToRun => exact hdispatch h hs
  | yield element =>
      obtain ⟨hfree, hs⟩ := Option.ite_none_right_eq_some.mp hs
      obtain ⟨l, hl, hvalid, -⟩ :=
        readyToRun_spec (s := s.charge) h hfree s.currentThread
      obtain ⟨s₁, hready, hs⟩ := Option.bind_eq_some_iff.mp hs
      rw [hl] at hready
      cases hready
      rw [hdispatch hvalid hs]
      rfl

theorem exact_of_run {as : List Act} (hrun : PartialMachine.run (logged step event)
    (init algorithm thread main, []) as = some (s, log)) :
    Exact s log ∧ s.algorithm = algorithm := by
  refine run_invariant (I := fun c => Exact c.1 c.2 ∧ c.1.algorithm = algorithm) ?_ ?_ as
    (s, log) hrun
  · exact ⟨⟨LinkedList.valid_empty, List.Perm.refl _⟩, rfl⟩
  · rintro c act c' ⟨hc, halg⟩ hstep
    obtain ⟨hs, hlog⟩ := logged_eq_some.mp hstep
    rw [hlog]
    exact ⟨exact_step hc hs, (algorithm_step hc.valid hs).trans halg⟩

theorem ordered_of_run {as : List Act} (hrun : PartialMachine.run (logged step event)
    (init algorithm thread main, []) as = some (s, log))
    (hkeeps : StepsMeet (logged step event) (fun c a => c.1.KeepsKey c.2 a)
      (init algorithm thread main, []) as) : Ordered s log := by
  refine run_invariant_of_stepsMeet (I := fun c => Ordered c.1 c.2) ?_ ?_ as (s, log) hkeeps hrun
  · exact ⟨LinkedList.valid_empty, ArrivalOrder.Sorts.nil _⟩
  · intro c act c' hc hmeet hstep
    obtain ⟨hs, hlog⟩ := logged_eq_some.mp hstep
    rw [hlog]
    exact ordered_step hc hmeet hs

theorem waiting_of_run {as : List Act} (hrun : PartialMachine.run (logged step event)
    (init algorithm thread main, []) as = some (s, log))
    (hpromise : StepsMeet (logged step event) (fun c a => c.1.Promised a)
      (init algorithm thread main, []) as) : Waiting s log := by
  refine (run_invariant_of_stepsMeet (I := fun c => Waiting c.1 c.2 ∧ Exact c.1 c.2)
    ?_ ?_ as (s, log) hpromise hrun).1
  · refine ⟨⟨List.nodup_nil, ?_⟩, LinkedList.valid_empty, List.Perm.refl _⟩
    exact fun _ hmem => absurd hmem List.not_mem_nil
  · rintro c act c' ⟨hc, hexact⟩ hmeet hstep
    obtain ⟨hs, hlog⟩ := logged_eq_some.mp hstep
    rw [hlog]
    exact ⟨waiting_step hc hexact.valid hmeet hs, exact_step hexact hs⟩

/-- Algorithms 1 and 2 do not look at `cpu`; under algorithm 3 it is enough that the callers
keep to their promise. -/
theorem stepsMeet_keepsKey {as : List Act} (h : algorithm ≠ .a3 ∨
    StepsMeet (logged step event) (fun c a => c.1.Promised a) (init algorithm thread main, [])
      as) :
    StepsMeet (logged step event) (fun c a => c.1.KeepsKey c.2 a)
      (init algorithm thread main, []) as := by
  intro pre act post hsplit c hrun
  rcases h with halg | hpromise
  · exact keepsKey_of_ne (by rwa [(exact_of_run hrun).2])
  · have hpre : StepsMeet (logged step event) (fun c a => c.1.Promised a)
        (init algorithm thread main, []) pre := by
      rw [hsplit] at hpromise
      exact hpromise.of_append
    exact (waiting_of_run hrun hpre).keepsKey (hpromise pre act post hsplit c hrun)

/-- **The order of scheduling.** After any run the list holds the threads made ready and
not yet dispatched, and no operation loses its way. Where no thread waits that pays for a
quantum with its key, the keys in the list are those of the threads as they are now, and
`FindNextToRun`, called by itself or in `Yield`, returns of the threads with the least
key the one made ready first. Algorithms 1 and 2 need nothing for this, and algorithm 3 no
more than what the callers keep to; its key is `priority + cpu/1000` where that is an
`int`. -/
theorem scheduling_order (algorithm : Algorithm) (thread : SpaceId → Thread)
    (main : SpaceId) (as : List Act) (s : Scheduler) (log : List ReadyEvent)
    (hrun : PartialMachine.run (logged step event) (init algorithm thread main, []) as =
      some (s, log)) :
    (s.readyList.toList.map Prod.snd).Perm (pending log) ∧
    (∀ act, s.Allocates act → ∃ s', s.step act = some s') ∧
    (StepsMeet (logged step event) (fun c a => c.1.KeepsKey c.2 a)
        (init algorithm thread main, []) as →
      (∀ e ∈ s.readyList.toList, e.1 = s.key e.2) ∧
      (∃ s', s.findNextToRun = some ((pending log).argmin s.key, s')) ∧
      ∀ element, s.Free element → s.KeepsKey log (.yield element) →
        ∃ s₁ s', s.charge.readyToRun s.currentThread element = some s₁ ∧
          s₁.findNextToRun =
            some ((pending log ++ [s.currentThread]).argmin s₁.key, s')) ∧
    (algorithm ≠ .a3 ∨ StepsMeet (logged step event) (fun c a => c.1.Promised a)
        (init algorithm thread main, []) as →
      StepsMeet (logged step event) (fun c a => c.1.KeepsKey c.2 a)
        (init algorithm thread main, []) as) ∧
    (algorithm = .a3 → ∀ a, -0x80000000 ≤ (s.thread a).sum → (s.thread a).sum < 0x80000000 →
      s.key a = (s.thread a).sum) := by
  obtain ⟨hexact, halg⟩ := exact_of_run hrun
  refine ⟨hexact.perm, fun act => exists_step hexact.valid, fun hkeeps => ?_,
    stepsMeet_keepsKey, fun h3 _ => key_eq_sum (halg.trans h3)⟩
  have hordered := ordered_of_run hrun hkeeps
  refine ⟨hordered.sorts.current, ?_, ?_⟩
  · obtain ⟨l, hfind, -⟩ := hordered.findNextToRun
    exact ⟨_, hfind⟩
  · intro element hfree hyield
    obtain ⟨s₁, hready, hs₁⟩ := (hordered.charge hyield).readyToRun hfree s.currentThread
    obtain ⟨l, hfind, -⟩ := hs₁.findNextToRun
    rw [pending_append] at hfind
    exact ⟨s₁, _, hready, hfind⟩

/-- Thread 1 runs under algorithm 3, the priority of a thread being its address. -/
def threeThreads : Scheduler :=
  init .a3 (fun a => { Thread.new 0 0 a.toNat with
    status := if a = 1 then .RUNNING else .JUST_CREATED }) 1

theorem scheduling_order_threeThreads : ∃ (s : Scheduler) (log : List ReadyEvent),
    PartialMachine.run (logged step event) (threeThreads, [])
        [.readyToRun 5 100, .readyToRun 3 101, .tick, .yield 102] = some (s, log) ∧
      (s.readyList.toList.map Prod.snd).Perm (pending log) ∧
      ∀ e ∈ s.readyList.toList, e.1 = s.key e.2 := by
  have hsome : (PartialMachine.run (logged step event) (threeThreads, [])
      [.readyToRun 5 100, .readyToRun 3 101, .tick, .yield 102]).isSome := by decide
  obtain ⟨⟨s, log⟩, hrun⟩ := Option.isSome_iff_exists.mp hsome
  have hall := scheduling_order _ _ _ _ s log hrun
  have hkeeps := hall.2.2.2.1 (Or.inr ((stepsMeet_iff _ _).mp (by decide)))
  exact ⟨s, log, hrun, hall.1, (hall.2.2.1 hkeeps).1⟩

/-- Every thread has used all but one tick of its first second. -/
def lastTick : Scheduler :=
  init .a3 (fun _ => { Thread.new 0 0 0 with status := .RUNNING, cpu := 999 }) 1

/-- Thread 2 has the greatest priority that an `int` can have, and a second behind it. -/
def greatestPriority : Scheduler :=
  init .a3 (fun a => if a = 2 then { Thread.new 0 0 0x7fffffff with cpu := 1000 }
    else Thread.new 0 0 0) 1

/-- **Two ways past the least key.** The running thread is made ready, and pays in `Yield` for
a tick while it waits: it is returned before thread 3, whose key is less by then. And the sum
of thread 2 is less than 0 as an `int`: it is returned before thread 3, whose sum is 0. -/
theorem least_key_passed_over :
    (∃ s log, PartialMachine.run (logged step event) (lastTick, [])
        [.readyToRun 2 100, .readyToRun 1 101, .tick, .yield 102, .readyToRun 3 103] =
          some (s, log) ∧
      (∃ e ∈ s.readyList.toList, e.1 ≠ s.key e.2) ∧
      ∃ s', s.findNextToRun = some (some 1, s') ∧ 3 ∈ pending log ∧ s.key 3 < s.key 1) ∧
    ∃ s log, PartialMachine.run (logged step event) (greatestPriority, [])
        [.readyToRun 3 100, .readyToRun 2 101] = some (s, log) ∧
      ∃ s', s.findNextToRun = some (some 2, s') ∧ 3 ∈ pending log ∧
        (s.thread 3).sum < (s.thread 2).sum := by
  constructor
  · have hrun : (PartialMachine.run (logged step event) (lastTick, [])
        [.readyToRun 2 100, .readyToRun 1 101, .tick, .yield 102, .readyToRun 3 103]).map
          (fun c => (c.1.readyList.toList, c.1.findNextToRun.map Prod.fst, pending c.2,
            c.1.key 1, c.1.key 3)) =
        some ([(0, 1), (0, 3), (1, 1)], some (some 1), [1, 1, 3], 1, 0) := by decide
    obtain ⟨⟨s, log⟩, hs, heq⟩ := Option.map_eq_some_iff.mp hrun
    simp only [Prod.mk.injEq, Option.map_eq_some_iff] at heq
    obtain ⟨hlist, ⟨⟨_, s'⟩, hfind, rfl⟩, hpending, hold, hleast⟩ := heq
    refine ⟨s, log, hs, ⟨(0, 1), ?_, ?_⟩, s', hfind, ?_, ?_⟩
    · rw [hlist]
      decide
    · rw [hold]
      decide
    · rw [hpending]
      decide
    · rw [hold, hleast]
      decide
  · have hrun : (PartialMachine.run (logged step event) (greatestPriority, [])
        [.readyToRun 3 100, .readyToRun 2 101]).map
          (fun c => (c.1.findNextToRun.map Prod.fst, pending c.2, (c.1.thread 2).sum,
            (c.1.thread 3).sum)) =
        some (some (some 2), [3, 2], 0x80000000, 0) := by decide
    obtain ⟨⟨s, log⟩, hs, heq⟩ := Option.map_eq_some_iff.mp hrun
    simp only [Prod.mk.injEq, Option.map_eq_some_iff] at heq
    obtain ⟨⟨⟨_, s'⟩, hfind, rfl⟩, hpending, hsum, hsum'⟩ := heq
    refine ⟨s, log, hs, s', hfind, ?_, ?_⟩
    · rw [hpending]
      decide
    · rw [hsum, hsum']
      decide

/-! ## §8  The lists without pointers -/

theorem sortedInsert_eq_orderedInsert (item : SpaceId) (sortKey : ℤ)
    (l : List (ℤ × SpaceId)) :
    sortedInsert item sortKey l = l.orderedInsert ArrivalOrder.Before (sortKey, item) := by
  induction l with
  | nil => rfl
  | cons e l ih =>
      rw [sortedInsert, List.orderedInsert_cons, ih]
      rfl

/-- **`ReadyToRun`** on the cells does what it does on the list that they stand for. -/
theorem readyToRun_refines {σ : Sys} (hvalid : s.readyList.Valid) (hfree : s.Free element)
    (hlist : σ.readyList = s.readyList.toList) (halg : σ.algorithm = s.algorithm)
    (ht : σ.heap a = some (s.thread a)) :
    ∃ s' σ', s.readyToRun a element = some s' ∧ σ.readyToRun a = some σ' ∧
      s'.readyList.Valid ∧ σ'.readyList = s'.readyList.toList ∧
      σ'.heap a = some (s'.thread a) := by
  obtain ⟨l, hl, hvalid', hl'⟩ := readyToRun_spec hvalid hfree a
  refine ⟨_, _, hl, by rw [Sys.readyToRun, ht, Option.map_some], hvalid', ?_, ?_⟩
  · simp only [hl', inserted, key, Sys.set, halg, hlist]
    cases s.algorithm with
    | a1 => rfl
    | a2 => exact sortedInsert_eq_orderedInsert _ _ _
    | a3 => exact sortedInsert_eq_orderedInsert _ _ _
  · simp [Sys.set, set]

/-- **`FindNextToRun`** takes the first thread of that list. -/
theorem findNextToRun_refines {σ : Sys} (hvalid : s.readyList.Valid)
    (hlist : σ.readyList = s.readyList.toList) :
    ∃ s', s.findNextToRun = some (σ.readyList.head?.map Prod.snd, s') ∧
      s'.readyList.Valid ∧ s'.readyList.toList = σ.readyList.tail := by
  cases h : s.readyList.toList with
  | nil =>
      refine ⟨s, ?_, hvalid, by rw [hlist, h]; rfl⟩
      rw [findNextToRun_nil hvalid h, hlist, h]
      rfl
  | cons e q =>
      obtain ⟨l, hl, hvalid', hq⟩ := findNextToRun_cons (k := e.1) (a := e.2) hvalid h
      exact ⟨_, by rw [hl, hlist, h]; rfl, hvalid', by rw [hlist, h]; exact hq⟩

end Scheduler

end OsAssignments.MemoryManagement
