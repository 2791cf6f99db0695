import OsAssignments.MemoryManagement.JoinSafety

/-!
# The scheduler's own view of a run

`Sys.step` leaves out what the join protocol never does: a kernel thread that is
forked without a parent, a plain `Thread::Sleep`, and a forked function that
returns. Here they are added, and every step leaves in a log what it does to
the threads as objects: which one finishes, which one is deleted, and which one
is switched to.

`SWITCH` stands in the middle of `Scheduler::Run`. `nextSwitch` is the state
there and `afterSwitch` is what the thread that comes back does next;
`runNext_eq` puts the two together again.

- `inv_schedStep` — the join invariant survives the added actions.
-/

namespace OsAssignments.MemoryManagement

open PartialMachine

namespace Sys

/-! ## §1  `SWITCH` -/

/-- `Scheduler::Run`, up to `SWITCH`. -/
def switchTo (s : Sys) (nextThread : SpaceId) : Option Sys :=
  (s.heap nextThread).map fun t =>
    { s with quantum := 0, currentThread := nextThread }.set nextThread
      { t with status := .RUNNING }

/-- `FindNextToRun`, and `Run` up to `SWITCH`. -/
def nextSwitch (s : Sys) : Option Sys :=
  match s.readyList with
  | [] => none
  | (_, nextThread) :: l => { s with readyList := l }.switchTo nextThread

/-- A new thread goes to `ThreadRoot`; any other one deletes the carcass. -/
def afterSwitch (s : Sys) : Option Sys :=
  match s.heap s.currentThread with
  | none => none
  | some t =>
      if t.cont = .fresh then some (s.set s.currentThread { t with cont := .starting })
      else s.deleteCarcass

theorem set_set (s : Sys) (a : SpaceId) (t t' : Thread) :
    (s.set a t).set a t' = s.set a t' := by simp [set]

theorem run_eq (s : Sys) (a : SpaceId) : s.run a = (s.switchTo a).bind afterSwitch := by
  unfold run switchTo
  cases ht : s.heap a with
  | none => rfl
  | some t =>
      simp only [Option.map_some, Option.bind_some, afterSwitch, currentThread_set,
        heap_set_self, set_set]

theorem runNext_eq (s : Sys) : s.runNext = s.nextSwitch.bind afterSwitch := by
  cases hl : s.readyList with
  | nil => simp [runNext, nextSwitch, hl]
  | cons e l => simp [runNext, nextSwitch, hl, run_eq]

/-! ## §2  The actions -/

/-- `Thread::Fork` of a new thread that has no parent. -/
def fork (s : Sys) (tmp : SpaceId) (prio : BitVec 32) : Option Sys :=
  let s := s.set tmp (Thread.new s.nextTid s.serialPid prio)
  { s with serialPid := s.serialPid + 1, nextTid := s.nextTid + 1 }.readyToRun tmp

/-- `Thread::Sleep`, up to the dispatch. -/
def sleep (s : Sys) : Option Sys := do
  let t ← s.heap s.currentThread
  some (s.set s.currentThread { t with status := .BLOCKED })

inductive SchedAct where
  | act (a : Act)
  | fork (tmp : SpaceId) (prio : BitVec 32)
  /-- Kernel code puts the running thread to sleep. -/
  | sleep
  /-- The forked function returns to `ThreadRoot`, or `AddrSpace` gives up. -/
  | finish

/-- The running thread is not past `Finish`, and not asleep. -/
def Awake (s : Sys) : Prop :=
  ∃ t, s.heap s.currentThread = some t ∧ t.status = .RUNNING ∧ t.cont ≠ .finished

instance (s : Sys) : Decidable s.Awake :=
  match h : s.heap s.currentThread with
  | none => isFalse (by rintro ⟨t, ht, -⟩; rw [h] at ht; cases ht)
  | some t =>
      if hc : t.status = .RUNNING ∧ t.cont ≠ .finished then isTrue ⟨t, h, hc.1, hc.2⟩
      else isFalse (by
        rintro ⟨t', ht', hc'⟩
        rw [h] at ht'
        cases ht'
        exact hc hc')

def schedStep (s : Sys) : SchedAct → Option Sys
  | .act a => s.step a
  | .fork tmp prio =>
      if s.Awake ∧ tmp ≠ NULL ∧ s.heap tmp = none then s.fork tmp prio else none
  | .sleep => if s.Awake then s.sleep else none
  | .finish => if s.At .starting ∨ s.At .user then s.finish else none

/-- The state at the `SWITCH` of the step, if it reaches one. -/
def atSwitch (s : Sys) : SchedAct → Option Sys
  | .act .yield => do
      let t ← s.heap s.currentThread
      if t.status = .RUNNING ∧ t.cont ≠ .finished then do
        let s ← (s.set s.currentThread { t with cpu := t.cpu + s.quantum }).readyToRun
          s.currentThread
        s.nextSwitch
      else none
  | .act .dispatch => do
      let t ← s.heap s.currentThread
      if t.status = .BLOCKED then s.nextSwitch else none
  | _ => none

/-- **What a step does**, by its action. -/
inductive Scheduled (s : Sys) : SchedAct → Sys → Prop where
  | act (a : Act) (s' : Sys) (h : Stepped s a s') : Scheduled s (.act a) s'
  | fork (tmp : SpaceId) (prio : BitVec 32) (s' : Sys) (hawake : s.Awake) (hnull : tmp ≠ NULL)
      (hfree : s.heap tmp = none) (h : s.fork tmp prio = some s') :
      Scheduled s (.fork tmp prio) s'
  | sleep (t : Thread) (ht : s.heap s.currentThread = some t) (hst : t.status = .RUNNING)
      (hc : t.cont ≠ .finished) :
      Scheduled s .sleep (s.set s.currentThread { t with status := .BLOCKED })
  | finish (t : Thread) (s' : Sys) (ht : s.heap s.currentThread = some t)
      (hst : t.status = .RUNNING) (hc : t.cont ≠ .finished)
      (h : s.finish = some s') : Scheduled s .finish s'

theorem schedStep_cases {s s' : Sys} {a : SchedAct} (hstep : s.schedStep a = some s') :
    Scheduled s a s' := by
  cases a with
  | act a => exact .act a s' (step_cases hstep)
  | fork tmp prio =>
      obtain ⟨⟨hawake, hnull, hfree⟩, hstep⟩ := Option.ite_none_right_eq_some.mp hstep
      exact .fork tmp prio s' hawake hnull hfree hstep
  | sleep =>
      obtain ⟨⟨t, ht, hst, hc⟩, hstep⟩ := Option.ite_none_right_eq_some.mp hstep
      simp only [sleep, ht, Option.bind_eq_bind, Option.bind_some] at hstep
      cases hstep
      exact .sleep t ht hst hc
  | finish =>
      obtain ⟨hat, hstep⟩ := Option.ite_none_right_eq_some.mp hstep
      rcases hat with ⟨t, ht, hst, hc⟩ | ⟨t, ht, hst, hc⟩
      · exact .finish t s' ht hst (by simp [hc]) hstep
      · exact .finish t s' ht hst (by simp [hc]) hstep

/-- **`Fork`** without a parent adds one thread. -/
theorem fork_steps {s s' : Sys} {tmp : SpaceId} {prio : BitVec 32}
    (h : s.fork tmp prio = some s') :
    s'.cores = Function.update s.cores tmp
      (some ⟨s.nextTid, s.serialPid, NULL, JoinTable.new, false⟩) ∧
    s'.threadToBeDestroyed = s.threadToBeDestroyed ∧ s'.nextTid = s.nextTid + 1 ∧
    s'.currentThread = s.currentThread := by
  obtain ⟨hsame, hcur⟩ := readyToRun_sameJoin h
  have hcore : (Thread.new s.nextTid s.serialPid prio).core =
      ⟨s.nextTid, s.serialPid, NULL, JoinTable.new, false⟩ := by
    simp [Thread.core, Thread.new]
  refine ⟨?_, hsame.carcass, hsame.nextTid, hcur⟩
  rw [← hcore, ← cores_set]
  exact hsame.cores

theorem fork_inv {s s' : Sys} {log : List Event} {tmp : SpaceId} {prio : BitVec 32}
    (hstep : s.fork tmp prio = some s') (hi : Inv s log) (hnull : tmp ≠ NULL)
    (hfree : s.heap tmp = none) : Inv s' log := by
  obtain ⟨⟨owner, hj⟩, ha, hlt⟩ := hi
  obtain ⟨hcores, hcar, hnext, -⟩ := fork_steps hstep
  have hnew := hj.mono_nextTid.add (b := tmp)
    (c := ⟨s.nextTid, s.serialPid, NULL, JoinTable.new, false⟩) (by simp [cores, hfree])
    hnull (Nat.lt_succ_self _) (fun a d hd => Nat.ne_of_lt (hj.tid_lt a d hd))
    (fun _ => rfl) ?_ fun hne => absurd rfl hne
  · refine ⟨⟨owner, ?_⟩, ?_, ?_⟩
    · rw [hcores, hcar, hnext]
      exact hnew
    · intro a c hc hcd hct
      rw [hcores] at hc
      rcases update_eq_some.mp hc with ⟨-, heq⟩ | ⟨-, hc⟩
      · cases heq
        exact absurd (hlt _ hct) (Nat.lt_irrefl _)
      · exact ha a c hc hcd hct
    · intro c hc
      rw [hnext]
      exact Nat.lt_succ_of_lt (hlt c hc)
  · -- nobody has `Exec`ed in the name of a thread that is new
    intro id d hpe
    exact absurd (hj.exec_lt _ _ _ hpe.mem) (Nat.lt_irrefl _)

/-- **The join invariant survives every step** of the scheduler's view. -/
theorem inv_schedStep {s s' : Sys} {a : SchedAct} (hstep : s.schedStep a = some s')
    (hi : ∃ log, Inv s log) : ∃ log, Inv s' log := by
  obtain ⟨log, hi⟩ := hi
  cases schedStep_cases hstep with
  | act a s' h => exact ⟨_, (inv_step hi hstep).1⟩
  | fork tmp prio s' hawake hnull hfree h => exact ⟨log, fork_inv h hi hnull hfree⟩
  | sleep t ht hst hc =>
      refine ⟨log, SameJoin.inv (sameJoin_set ht ?_) hi⟩
      rfl
  | finish t s' ht hst hc h => exact ⟨_, kill_inv h hi ht⟩

/-! ## §3  Events -/

/-- By ghost identity; `none` stands for an address where no thread lives. -/
inductive SchedEvent where
  | finish (tid : ℕ)
  | delete (tid current : Option ℕ)
  | switch (tid : Option ℕ)
  /-- The running thread is inside `Sleep` or `Wait`. -/
  | sleep
deriving DecidableEq, Repr

def tidOf (s : Sys) (a : SpaceId) : Option ℕ := (s.heap a).map Thread.tid

def carcassEvents (s : Sys) : List SchedEvent :=
  if s.threadToBeDestroyed = NULL then []
  else [.delete (s.tidOf s.threadToBeDestroyed) (s.tidOf s.currentThread)]

/-- After `SWITCH`. -/
def backEvents (s : Sys) : List SchedEvent :=
  match s.heap s.currentThread with
  | none => []
  | some t => if t.cont = .fresh then [] else s.carcassEvents

def dispatchEvents (s : Sys) : List SchedEvent :=
  match s.readyList with
  | [] => []
  | (_, nextThread) :: _ =>
      .switch (s.tidOf nextThread) ::
        match s.nextSwitch with
        | none => []
        | some s => s.backEvents

def finishEvents (s : Sys) (t : Thread) : List SchedEvent :=
  .finish t.tid :: (s.carcassEvents ++ [.sleep])

/-- `Join` falls asleep when the code is not set. -/
def joinEvents (t : Thread) (id : SpaceId) (spid : BitVec 32) : List SchedEvent :=
  match t.jtable.finishJoin id spid with
  | some (res, _) => if res = CODENOTENDED then [.sleep] else []
  | none => []

def schedEvent (s : Sys) (a : SchedAct) : List SchedEvent :=
  match s.heap s.currentThread with
  | none => []
  | some t =>
      match a with
      | .act .yield =>
          match (s.set s.currentThread { t with cpu := t.cpu + s.quantum }).readyToRun
              s.currentThread with
          | none => []
          | some s => s.dispatchEvents
      | .act .dispatch => s.dispatchEvents
      | .act (.exit _) => s.finishEvents t
      | .act (.join id stale) => joinEvents t id (s.readPid id stale)
      | .act .resume =>
          match t.cont with
          | .joining id spid => joinEvents t id spid
          | _ => []
      | .act .kill => s.finishEvents t
      | .sleep => [.sleep]
      | .finish => s.finishEvents t
      | _ => []

/-- The last thing that happened is that the running thread fell asleep: the
processor is looking for the next one. -/
def Asleep (log : List SchedEvent) : Prop := log.getLast? = some .sleep

instance (log : List SchedEvent) : Decidable (Asleep log) :=
  inferInstanceAs (Decidable (_ = _))

end Sys

end OsAssignments.MemoryManagement
