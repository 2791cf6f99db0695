import OsAssignments.Lib.PartialMachine
import Mathlib.Logic.Function.Basic

/-!
# Threads and the process system calls of the process-management assignment

`threads/thread.cc`, `threads/scheduler.cc` and the process system calls of
`userprog/exception.cc`. The scheduler is first come, first served. `Join` waits
on the two globals `ENDED` and `EXIT_CODE`, which every `Exit` overwrites.

`tid` and `named` are ghosts: no function of the source reads them. A
`SpaceId` is the address of a thread; addresses of deleted threads can be handed
out again, and `named` tells which process an id was last given to.

`Sys.step` is `none` where the source aborts in an `ASSERT`, where it follows a
pointer to no thread, and where the action is not enabled.
-/

namespace OsAssignments.ProcessManagement

/-! ## §1  The data -/

abbrev SpaceId := BitVec 32

def NULL : SpaceId := 0

inductive ThreadStatus where
  | JUST_CREATED
  | RUNNING
  | READY
  | BLOCKED
deriving DecidableEq, Repr

/-- Where the thread's own stack stands. -/
inductive Cont where
  /-- Forked, never dispatched. -/
  | fresh
  /-- Inside `StartProcess`. -/
  | starting
  /-- In user code, or in a system call that is one step here. -/
  | user
  /-- Inside the loop of `SysCallJoin`; `target` is the process that `id` named
  when it was called. -/
  | joining (id : SpaceId) (target : Option ℕ)
  /-- Past `Finish`. -/
  | finished
deriving DecidableEq, Repr

/-- The process that a `Join` in progress named. -/
def Cont.target : Cont → Option ℕ
  | .joining _ target => target
  | _ => none

structure Thread where
  tid : ℕ
  status : ThreadStatus
  cont : Cont
deriving DecidableEq, Repr

structure Sys where
  heap : SpaceId → Option Thread
  readyList : List SpaceId
  currentThread : SpaceId
  threadToBeDestroyed : SpaceId
  ENDED : Bool
  EXIT_CODE : BitVec 32
  nextTid : ℕ
  named : SpaceId → Option ℕ

/-- The main thread, running and about to call `StartProcess`. -/
def Sys.init (main : SpaceId) : Sys where
  heap := Function.update (fun _ => none) main (some ⟨0, .RUNNING, .starting⟩)
  readyList := []
  currentThread := main
  threadToBeDestroyed := NULL
  ENDED := false
  EXIT_CODE := 0
  nextTid := 1
  named := Function.update (fun _ => none) main (some 0)

/-! ## §2  The scheduler -/

namespace Sys

def set (s : Sys) (a : SpaceId) (t : Thread) : Sys :=
  { s with heap := Function.update s.heap a (some t) }

def readyToRun (s : Sys) (thread : SpaceId) : Option Sys :=
  (s.heap thread).map fun t =>
    { s.set thread { t with status := .READY } with
      readyList := s.readyList ++ [thread] }

/-- `delete threadToBeDestroyed`, if there is one; a thread cannot delete
itself. -/
def deleteCarcass (s : Sys) : Option Sys :=
  if s.threadToBeDestroyed = NULL then some s
  else if s.threadToBeDestroyed = s.currentThread then none
  else some
    { s with
      heap := Function.update s.heap s.threadToBeDestroyed none
      threadToBeDestroyed := NULL }

/-- `Scheduler::Run`. A thread that runs for the first time starts in
`ThreadRoot`; any other one comes back from its own `SWITCH` and deletes the
carcass. -/
def run (s : Sys) (nextThread : SpaceId) : Option Sys :=
  match s.heap nextThread with
  | none => none
  | some t =>
      let s := { s with currentThread := nextThread }
      if t.cont = .fresh then
        some (s.set nextThread { t with status := .RUNNING, cont := .starting })
      else (s.set nextThread { t with status := .RUNNING }).deleteCarcass

/-- `FindNextToRun` and `Run`; with nothing to run the machine idles. -/
def runNext (s : Sys) : Option Sys :=
  match s.readyList with
  | [] => none
  | nextThread :: l => { s with readyList := l }.run nextThread

/-! ## §3  Threads and system calls -/

/-- `Thread::Finish` of the current thread, up to the dispatch in `Sleep`. -/
def finish (s : Sys) : Option Sys :=
  (s.heap s.currentThread).map fun t =>
    { s.set s.currentThread { t with status := .BLOCKED, cont := .finished } with
      threadToBeDestroyed := s.currentThread }

def yield (s : Sys) : Option Sys :=
  (s.readyToRun s.currentThread).bind runNext

def sysCallExit (s : Sys) (code : BitVec 32) : Option Sys :=
  { s with ENDED := true, EXIT_CODE := code }.finish

/-- `SysCallExec`: the new thread gets the address `tmp` from the allocator. -/
def sysCallExec (s : Sys) (tmp : SpaceId) : Option Sys :=
  { s.set tmp ⟨s.nextTid, .JUST_CREATED, .fresh⟩ with
    nextTid := s.nextTid + 1
    named := Function.update s.named tmp (some s.nextTid) }.readyToRun tmp

/-- The loop of `SysCallJoin`, from its test on: to the return, or into the next
`Yield`. -/
def joinLoop (s : Sys) : Option Sys := do
  let t ← s.heap s.currentThread
  if s.ENDED then some (s.set s.currentThread { t with cont := .user }) else s.yield

def sysCallJoin (s : Sys) (id : SpaceId) : Option Sys := do
  let t ← s.heap s.currentThread
  if id = NULL then s.sysCallExit (-1)
  else
    (s.set s.currentThread { t with cont := .joining id (s.named id) }).joinLoop

/-! ## §4  The machine -/

inductive Act where
  /-- `SysCallYield`, or a timer's `YieldOnReturn`. -/
  | yield
  /-- A thread that has gone to sleep gives up the processor. -/
  | dispatch
  /-- `StartProcess` reaches user code. -/
  | start
  | exec (tmp : SpaceId)
  /-- `SysCallExit`, from the program or with `-1` from an exception. -/
  | exit (code : BitVec 32)
  | join (id : SpaceId)
  /-- The thread is back from `Yield` inside `SysCallJoin`. -/
  | resume
deriving DecidableEq, Repr

/-- The running thread is at this point. -/
def At (s : Sys) (cont : Cont) : Prop :=
  ∃ t, s.heap s.currentThread = some t ∧ t.status = .RUNNING ∧ t.cont = cont

instance (s : Sys) (cont : Cont) : Decidable (s.At cont) :=
  match h : s.heap s.currentThread with
  | none => isFalse (by rintro ⟨t, ht, -⟩; rw [h] at ht; cases ht)
  | some t =>
      if hc : t.status = .RUNNING ∧ t.cont = cont then isTrue ⟨t, h, hc.1, hc.2⟩
      else isFalse (by
        rintro ⟨t', ht', hc'⟩
        rw [h] at ht'
        cases ht'
        exact hc hc')

def step (s : Sys) : Act → Option Sys
  | .yield => do
      let t ← s.heap s.currentThread
      if t.status = .RUNNING ∧ t.cont ≠ .finished then s.yield else none
  | .dispatch => do
      let t ← s.heap s.currentThread
      if t.status = .BLOCKED then s.runNext else none
  | .start => do
      let t ← s.heap s.currentThread
      if t.status = .RUNNING ∧ t.cont = .starting then
        some (s.set s.currentThread { t with cont := .user })
      else none
  | .exec tmp =>
      if s.At .user ∧ tmp ≠ NULL ∧ s.heap tmp = none then s.sysCallExec tmp else none
  | .exit code => if s.At .user then s.sysCallExit code else none
  | .join id => if s.At .user then s.sysCallJoin id else none
  | .resume => do
      let t ← s.heap s.currentThread
      match t.status, t.cont with
      | .RUNNING, .joining _ _ => s.joinLoop
      | _, _ => none

/-! ## §5  Events -/

/-- What the steps leave in the log, by ghost identity. -/
inductive Event where
  | exit (c : ℕ) (code : BitVec 32)
  /-- `Join(id)` of `p`, which named `target` when it was called, returns. -/
  | joined (p : ℕ) (id : SpaceId) (target : Option ℕ) (code : BitVec 32)
deriving DecidableEq, Repr

def event (s : Sys) (a : Act) : List Event :=
  match s.heap s.currentThread with
  | none => []
  | some t =>
      match a with
      | .exit code => [.exit t.tid code]
      | .join id =>
          if id = NULL then [.exit t.tid (-1)]
          else if s.ENDED then [.joined t.tid id (s.named id) s.EXIT_CODE]
          else []
      | .resume =>
          match t.cont with
          | .joining id target =>
              if s.ENDED then [.joined t.tid id target s.EXIT_CODE] else []
          | _ => []
      | _ => []

/-- The process whose `Exit` the action makes `Join` look for. -/
def awaits (s : Sys) : Act → Option ℕ
  | .join id => if id = NULL then none else s.named id
  | .resume => (s.heap s.currentThread).bind fun t => t.cont.target
  | _ => none

end Sys

end OsAssignments.ProcessManagement
