import OsAssignments.Lib.PartialMachine
import OsAssignments.MemoryManagement.JoinTable

/-!
# Threads, the scheduler and the process system calls

`threads/thread.cc`, `threads/scheduler.cc`, `threads/list.cc` and the `SC_Exit`,
`SC_Exec`, `SC_Join` and `SC_Yield` cases of `userprog/exception.cc`.

Threads live in a heap by address. A finished thread is deleted only later, by
the next thread that returns from `SWITCH` (or that finishes itself), and its
address can then be handed out again: a `SpaceId` does not identify a process
for ever. `tid` does, and is a ghost: no function of the source reads it.

`Sys.step` takes one action of the running thread, of the timer or of the
dispatcher. It is `none` where the source aborts in an `ASSERT`, where it
follows a pointer to no thread, and where the action is not enabled.
-/

namespace OsAssignments.MemoryManagement

/-! ## §1  The data -/

inductive ThreadStatus where
  | JUST_CREATED
  | RUNNING
  | READY
  | BLOCKED
deriving DecidableEq, Repr

/-- Where the thread's own stack stands. -/
inductive Cont where
  /-- Forked, never dispatched. -/
  | fresh
  /-- Inside `StartProcess`. -/
  | starting
  /-- In user code, or in a system call that is one step here. -/
  | user
  /-- Inside the loop of `Thread::Join`. -/
  | joining (id : SpaceId) (spid : BitVec 32)
  /-- Past `Finish`. -/
  | finished
deriving DecidableEq, Repr

structure Thread where
  tid : ℕ
  pid : BitVec 32
  status : ThreadStatus
  cont : Cont
  priority : BitVec 32
  cpu : BitVec 32
  jtable : JoinTable
  parent : SpaceId

/-- The options `-a1`, `-a2`, `-a3`. -/
inductive Algorithm where
  | a1
  | a2
  | a3
deriving DecidableEq, Repr

structure Sys where
  heap : SpaceId → Option Thread
  /-- Sort key and thread, first to run in front. -/
  readyList : List (ℤ × SpaceId)
  currentThread : SpaceId
  threadToBeDestroyed : SpaceId
  serialPid : BitVec 32
  quantum : BitVec 32
  algorithm : Algorithm
  nextTid : ℕ

def NULL : SpaceId := 0

/-- `new Thread(name, prio)`. -/
def Thread.new (tid : ℕ) (pid prio : BitVec 32) : Thread where
  tid := tid
  pid := pid
  status := .JUST_CREATED
  cont := .fresh
  priority := prio
  cpu := 0
  jtable := JoinTable.new
  parent := NULL

/-- The main thread, running and about to call `StartProcess`. -/
def Sys.init (algorithm : Algorithm) (main : SpaceId) : Sys where
  heap := Function.update (fun _ => none) main
    (some { Thread.new 0 0 10 with status := .RUNNING, cont := .starting })
  readyList := []
  currentThread := main
  threadToBeDestroyed := NULL
  serialPid := 1
  quantum := 0
  algorithm := algorithm
  nextTid := 1

/-! ## §2  The scheduler -/

def sortedInsert (item : SpaceId) (sortKey : ℤ) :
    List (ℤ × SpaceId) → List (ℤ × SpaceId)
  | [] => [(sortKey, item)]
  | (key, x) :: l =>
      if sortKey < key then (sortKey, item) :: (key, x) :: l
      else (key, x) :: sortedInsert item sortKey l

namespace Sys

def set (s : Sys) (a : SpaceId) (t : Thread) : Sys :=
  { s with heap := Function.update s.heap a (some t) }

def readyToRun (s : Sys) (thread : SpaceId) : Option Sys :=
  (s.heap thread).map fun t =>
    let s := s.set thread { t with status := .READY }
    { s with
      readyList :=
        match s.algorithm with
        | .a1 => s.readyList ++ [(0, thread)]
        | .a2 => sortedInsert thread t.priority.toInt s.readyList
        | .a3 => sortedInsert thread (t.priority + t.cpu.sdiv 1000).toInt s.readyList }

/-- `delete thread`; a thread cannot delete itself. -/
def deleteThread (s : Sys) (thread : SpaceId) : Option Sys :=
  if thread = s.currentThread then none
  else some { s with heap := Function.update s.heap thread none }

/-- Delete the thread that waits for it, if there is one. -/
def deleteCarcass (s : Sys) : Option Sys :=
  if s.threadToBeDestroyed = NULL then some s
  else (s.deleteThread s.threadToBeDestroyed).map fun s =>
    { s with threadToBeDestroyed := NULL }

/-- `Scheduler::Run`. A thread that runs for the first time starts in
`ThreadRoot`; any other one comes back from its own `SWITCH` and deletes the
carcass. -/
def run (s : Sys) (nextThread : SpaceId) : Option Sys :=
  match s.heap nextThread with
  | none => none
  | some t =>
      let s := { s with quantum := 0, currentThread := nextThread }
      if t.cont = .fresh then
        some (s.set nextThread { t with status := .RUNNING, cont := .starting })
      else (s.set nextThread { t with status := .RUNNING }).deleteCarcass

/-- `FindNextToRun` and `Run`; with nothing to run the machine idles. -/
def runNext (s : Sys) : Option Sys :=
  match s.readyList with
  | [] => none
  | (_, nextThread) :: l => { s with readyList := l }.run nextThread

/-! ## §3  Threads and system calls -/

def wakeUp (s : Sys) (thread : SpaceId) : Option Sys :=
  match s.heap thread with
  | none => none
  | some t => if t.status = .BLOCKED then s.readyToRun thread else some s

/-- The loop of `ClearChildren` over the other threads. -/
def clearParents (heap : SpaceId → Option Thread) (entries : JoinTable) :
    SpaceId → Option Thread :=
  (List.finRange MAXENTRIES).foldl (fun heap i =>
    if (entries i).inUse then
      Function.update heap (entries i).id
        ((heap (entries i).id).map fun child => { child with parent := NULL })
    else heap) heap

/-- `Thread::Finish` of the current thread, up to the dispatch in `Sleep`. -/
def finish (s : Sys) : Option Sys := do
  let t ← s.heap s.currentThread
  let s ← deleteCarcass { s with heap := clearParents s.heap t.jtable }
  let t ← s.heap s.currentThread
  some
    { s.set s.currentThread
        { t with jtable := t.jtable.clear, status := .BLOCKED, cont := .finished } with
      threadToBeDestroyed := s.currentThread }

def yield (s : Sys) : Option Sys := do
  let t ← s.heap s.currentThread
  let s := s.set s.currentThread { t with cpu := t.cpu + s.quantum }
  let s ← s.readyToRun s.currentThread
  s.runNext

/-- `SC_Exec`: the new thread gets the address `tmp` from the allocator. -/
def exec (s : Sys) (tmp : SpaceId) (prio : BitVec 32) : Option Sys := do
  let t ← s.heap s.currentThread
  let jtable ← t.jtable.addChild tmp s.serialPid
  let child := { Thread.new s.nextTid s.serialPid prio with
    parent := s.currentThread }
  let s := (s.set s.currentThread { t with jtable := jtable }).set tmp child
  { s with serialPid := s.serialPid + 1, nextTid := s.nextTid + 1 }.readyToRun tmp

/-- `parent->SetEndCode(id, spid, code)`. -/
def setEndCode (s : Sys) (parent id : SpaceId) (spid code : BitVec 32) :
    Option Sys := do
  let p ← s.heap parent
  let jtable ← p.jtable.setEndCode id spid code
  some (s.set parent { p with jtable := jtable })

/-- `SC_Exit`, but for the address space. -/
def exit (s : Sys) (code : BitVec 32) : Option Sys := do
  let t ← s.heap s.currentThread
  let s ←
    if t.parent = NULL then some s
    else do
      let s ← s.setEndCode t.parent s.currentThread t.pid code
      s.wakeUp t.parent
  s.finish

/-- One turn of the loop of `Thread::Join`. -/
def joinLoop (s : Sys) (id : SpaceId) (spid : BitVec 32) : Option Sys := do
  let t ← s.heap s.currentThread
  let (res, jtable) ← t.jtable.finishJoin id spid
  if res = CODENOTENDED then
    some (s.set s.currentThread
      { t with jtable := jtable, cont := .joining id spid, status := .BLOCKED })
  else
    some (s.set s.currentThread { t with jtable := jtable, cont := .user })

/-- The serial that `SC_Join` reads through the id: of the thread at that
address, or whatever the freed memory holds. -/
def readPid (s : Sys) (id : SpaceId) (stale : BitVec 32) : BitVec 32 :=
  match s.heap id with
  | some t => t.pid
  | none => stale

/-! ## §4  The machine -/

inductive Act where
  /-- The timer ticks. -/
  | tick
  /-- `SC_Yield`, or the timer's `YieldOnReturn`. -/
  | yield
  /-- A thread that has gone to sleep gives up the processor. -/
  | dispatch
  /-- `StartProcess` reaches user code. -/
  | start
  | exec (tmp : SpaceId) (prio : BitVec 32)
  | exit (code : BitVec 32)
  /-- `SC_Join`; `stale` is what freed memory would hold. -/
  | join (id : SpaceId) (stale : BitVec 32)
  /-- The thread is back from `Wait` inside `Thread::Join`. -/
  | resume
  /-- A fatal exception, or a page that could not be loaded. -/
  | kill

/-- The running thread is at this point. -/
def At (s : Sys) (cont : Cont) : Prop :=
  ∃ t, s.heap s.currentThread = some t ∧ t.status = .RUNNING ∧ t.cont = cont

instance (s : Sys) (cont : Cont) : Decidable (s.At cont) :=
  match h : s.heap s.currentThread with
  | none => isFalse (by rintro ⟨t, ht, -⟩; rw [h] at ht; cases ht)
  | some t =>
      if hc : t.status = .RUNNING ∧ t.cont = cont then isTrue ⟨t, h, hc.1, hc.2⟩
      else isFalse (by
        rintro ⟨t', ht', hc'⟩
        rw [h] at ht'
        cases ht'
        exact hc hc')

def step (s : Sys) : Act → Option Sys
  | .tick => some { s with quantum := s.quantum + 1 }
  | .yield => do
      let t ← s.heap s.currentThread
      if t.status = .RUNNING ∧ t.cont ≠ .finished then s.yield else none
  | .dispatch => do
      let t ← s.heap s.currentThread
      if t.status = .BLOCKED then s.runNext else none
  | .start => do
      let t ← s.heap s.currentThread
      if t.status = .RUNNING ∧ t.cont = .starting then
        some (s.set s.currentThread { t with cont := .user })
      else none
  | .exec tmp prio =>
      if s.At .user ∧ tmp ≠ NULL ∧ s.heap tmp = none then s.exec tmp prio else none
  | .exit code => if s.At .user then s.exit code else none
  | .join id stale =>
      if s.At .user then s.joinLoop id (s.readPid id stale) else none
  | .resume => do
      let t ← s.heap s.currentThread
      match t.status, t.cont with
      | .RUNNING, .joining id spid => s.joinLoop id spid
      | _, _ => none
  | .kill => if s.At .user then s.finish else none

/-! ## §5  Events -/

/-- What the steps leave in the log, by ghost identity. -/
inductive Event where
  | exec (p c : ℕ) (id : SpaceId)
  | exit (c : ℕ) (code : BitVec 32)
  | joined (p : ℕ) (id : SpaceId) (code : BitVec 32)
  | killed (c : ℕ)
deriving DecidableEq, Repr

/-- `Join` returns when the code is set. -/
def joinEvent (t : Thread) (id : SpaceId) (spid : BitVec 32) : List Event :=
  match t.jtable.finishJoin id spid with
  | some (res, _) => if res = CODENOTENDED then [] else [.joined t.tid id res]
  | none => []

def event (s : Sys) (a : Act) : List Event :=
  match s.heap s.currentThread with
  | none => []
  | some t =>
      match a with
      | .exec tmp _ => [.exec t.tid s.nextTid tmp]
      | .exit code => [.exit t.tid code]
      | .join id stale => joinEvent t id (s.readPid id stale)
      | .resume =>
          match t.cont with
          | .joining id spid => joinEvent t id spid
          | _ => []
      | .kill => [.killed t.tid]
      | _ => []

section

variable {s : Sys} {t : Thread} (ht : s.heap s.currentThread = some t)

include ht

theorem event_exec (tmp : SpaceId) (prio : BitVec 32) :
    s.event (.exec tmp prio) = [.exec t.tid s.nextTid tmp] := by
  rw [event, ht]

theorem event_exit (code : BitVec 32) : s.event (.exit code) = [.exit t.tid code] := by
  rw [event, ht]

theorem event_join (id stale : BitVec 32) :
    s.event (.join id stale) = joinEvent t id (s.readPid id stale) := by
  rw [event, ht]

theorem event_resume {id spid : BitVec 32} (hc : t.cont = .joining id spid) :
    s.event .resume = joinEvent t id spid := by
  simp only [event, ht, hc]

theorem event_kill : s.event .kill = [.killed t.tid] := by
  rw [event, ht]

end

end Sys

end OsAssignments.MemoryManagement
