import OsAssignments.Filesys.OpenFile

/-!
# The synchronous disk

`filesys/synchdisk.cc` over `threads/synch.cc`, the part of `threads/thread.cc` and
`threads/scheduler.cc` that puts threads to sleep and runs them, and `machine/disk.cc`
as far as its interrupt goes. The processor is left in `Sleep`, and where interrupts are
enabled again; between two such points the kernel runs alone. So a step of a
thread here is the code up to the next of them, and `Act` says which thread or
interrupt comes next.

The disk hardware holds the requests it has accepted in `pending`; each of them
completes once, at some later time. `nextRequest`, `completed`, `queued` and `obtained`
are ghosts: the number of the next request, the requests whose completion interrupt has come,
the threads that have queued for the lock and those that have obtained it after
queueing, in order.
-/

namespace OsAssignments.Filesys.SynchDisk

/-! ## §1  The data -/

inductive ThreadStatus where
  | JUST_CREATED
  | RUNNING
  | READY
  | BLOCKED
deriving DecidableEq, Repr

/-- A call of `WriteSector` or of `ReadSector`. -/
structure Call where
  writing : Bool
  sectorNumber : ℤ
deriving DecidableEq, Repr

/-- Where the thread's own stack stands. -/
inductive Pc where
  /-- Outside `SynchDisk`. -/
  | out
  /-- Asleep outside `SynchDisk`. -/
  | away
  | finished
  /-- In the `Sleep` of `Lock::Acquire`. -/
  | lockSleep (call : Call)
  /-- Back from `Acquire`. -/
  | acquired (call : Call)
  /-- Back from `ReadRequest` or `WriteRequest`. -/
  | requested (r : ℕ)
  /-- In the `Sleep` of `Semaphore::P`. -/
  | semSleep (r : ℕ)
  /-- Back from `P`. -/
  | got (r : ℕ)
deriving DecidableEq, Repr

/-- Interrupts have just been enabled again. -/
def Pc.tick : Pc → Bool
  | .out => true
  | .acquired _ => true
  | .got _ => true
  | _ => false

/-- `started` is false until the thread is first run. -/
structure Thread where
  status : ThreadStatus
  pc : Pc
  started : Bool
deriving DecidableEq, Repr

structure Lock where
  state : Option ℕ
  queue : List ℕ
deriving DecidableEq, Repr

structure Semaphore where
  value : ℕ
  queue : List ℕ
deriving DecidableEq, Repr

structure Disk where
  active : Bool
deriving DecidableEq, Repr

structure Kernel where
  threads : ℕ → Option Thread
  readyList : List ℕ
  currentThread : ℕ
  threadToBeDestroyed : Option ℕ
  lock : Lock
  semaphore : Semaphore
  disk : Disk
  pending : List ℕ
  nextRequest : ℕ
  completed : List ℕ
  queued : List ℕ
  obtained : List ℕ

/-- The main thread runs, and the disk is idle. -/
def Kernel.init (main : ℕ) : Kernel where
  threads := Function.update (fun _ => none) main (some ⟨.RUNNING, .out, true⟩)
  readyList := []
  currentThread := main
  threadToBeDestroyed := none
  lock := ⟨none, []⟩
  semaphore := ⟨0, []⟩
  disk := ⟨false⟩
  pending := []
  nextRequest := 0
  completed := []
  queued := []
  obtained := []

namespace Kernel

/-! ## §2  Threads and the scheduler -/

def modify (s : Kernel) (k : ℕ) (f : Thread → Thread) : Kernel :=
  { s with threads := Function.update s.threads k ((s.threads k).map f) }

/-- The current thread goes on to `pc`. -/
def goTo (s : Kernel) (pc : Pc) : Kernel :=
  s.modify s.currentThread fun t => { t with pc }

def readyToRun (s : Kernel) (thread : ℕ) : Kernel :=
  { s.modify thread fun t => { t with status := .READY } with
    readyList := s.readyList ++ [thread] }

/-- `Thread::Sleep`, up to its loop. -/
def sleep (s : Kernel) (pc : Pc) : Kernel :=
  s.modify s.currentThread fun t => { t with status := .BLOCKED, pc }

def deleteCarcass (s : Kernel) : Kernel :=
  match s.threadToBeDestroyed with
  | none => s
  | some k =>
      { s with threads := Function.update s.threads k none, threadToBeDestroyed := none }

/-- `Scheduler::Run`. A thread that has been run before comes back from its own
`SWITCH` and deletes the carcass. -/
def run (s : Kernel) (nextThread : ℕ) : Kernel :=
  match s.threads nextThread with
  | none => { s with currentThread := nextThread }
  | some t =>
      let s := { s with
        currentThread := nextThread
        threads :=
          Function.update s.threads nextThread
            (some { t with status := .RUNNING, started := true }) }
      if t.started then s.deleteCarcass else s

/-- `Thread::Yield`. -/
def yield (s : Kernel) : Kernel :=
  match s.readyList with
  | [] => s
  | nextThread :: readyList =>
      ({ s with readyList }.readyToRun s.currentThread).run nextThread

/-! ## §3  The lock and the semaphore -/

/-- `Lock::Acquire`, up to its end or its `Sleep`. -/
def acquire (s : Kernel) (call : Call) : Kernel :=
  match s.lock.state with
  | some _ =>
      { s with
        lock := { s.lock with queue := s.lock.queue ++ [s.currentThread] }
        queued := s.queued ++ [s.currentThread] }.sleep (.lockSleep call)
  | none =>
      { s with lock := { s.lock with state := some s.currentThread } }.goTo (.acquired call)

/-- The end of `Lock::Acquire`, after its `Sleep`. -/
def acquireSlept (s : Kernel) (call : Call) : Kernel :=
  { s with
    lock := { s.lock with state := some s.currentThread }
    obtained := s.obtained ++ [s.currentThread] }.goTo (.acquired call)

/-- `Lock::Release`; it aborts unless the caller holds the lock. -/
def release (s : Kernel) : Option Kernel :=
  if s.lock.state = some s.currentThread then
    match s.lock.queue with
    | [] => some { s with lock := ⟨none, []⟩ }
    | thread :: queue => some { s.readyToRun thread with lock := ⟨some thread, queue⟩ }
  else none

/-- `Semaphore::P` from the test of its loop on, up to its end or its next `Sleep`. -/
def P (s : Kernel) (r : ℕ) : Kernel :=
  if s.semaphore.value = 0 then
    { s with
      semaphore := { s.semaphore with queue := s.semaphore.queue ++ [s.currentThread] } }.sleep
        (.semSleep r)
  else
    { s with semaphore := { s.semaphore with value := s.semaphore.value - 1 } }.goTo (.got r)

/-- `Semaphore::V`. -/
def V (s : Kernel) : Kernel :=
  match s.semaphore.queue with
  | [] => { s with semaphore := ⟨s.semaphore.value + 1, []⟩ }
  | thread :: queue =>
      { s.readyToRun thread with semaphore := ⟨s.semaphore.value + 1, queue⟩ }

/-! ## §4  The disk -/

/-- What the two requests share: they abort while a request is outstanding and on a
sector that the disk does not have. -/
def request (s : Kernel) (sectorNumber : ℤ) : Option Kernel :=
  if s.disk.active then none
  else if 0 ≤ sectorNumber ∧ sectorNumber < NumSectors then
    some ({ s with
      disk := ⟨true⟩
      pending := s.pending ++ [s.nextRequest]
      nextRequest := s.nextRequest + 1 }.goTo (.requested s.nextRequest))
  else none

/-- `Disk::ReadRequest`. -/
def readRequest (s : Kernel) (sectorNumber : ℤ) : Option Kernel := s.request sectorNumber

/-- `Disk::WriteRequest`. -/
def writeRequest (s : Kernel) (sectorNumber : ℤ) : Option Kernel := s.request sectorNumber

/-- `SynchDisk::RequestDone`. -/
def requestDone (s : Kernel) : Kernel := s.V

/-- `Disk::HandleInterrupt`, for request `r`. -/
def handleInterrupt (s : Kernel) (r : ℕ) : Kernel :=
  { s with
    disk := ⟨false⟩
    pending := s.pending.erase r
    completed := s.completed ++ [r] }.requestDone

/-! ## §5  Steps -/

/-- The current thread stands at this point of its code. -/
def runningPc (s : Kernel) : Option Pc :=
  match s.threads s.currentThread with
  | some ⟨.RUNNING, pc, _⟩ => some pc
  | _ => none

/-- The current thread is in the loop of `Sleep`; a thread that was woken there, by an
interrupt that came while it idled, is `READY`. -/
def inSleep (s : Kernel) : Prop := ∃ t, s.threads s.currentThread = some t ∧ t.status ≠ .RUNNING

instance (s : Kernel) : Decidable s.inSleep :=
  match h : s.threads s.currentThread with
  | none => isFalse (by simp [inSleep, h])
  | some t => decidable_of_iff (t.status ≠ .RUNNING) (by simp [inSleep, h])

/-- Interrupts come where they are enabled again, and in the loop of `Sleep`: `Idle` can
fire several before the loop looks at the ready list again, so the list need not be empty. -/
def interruptible (s : Kernel) : Prop := s.inSleep ∨ s.runningPc.any Pc.tick = true

instance (s : Kernel) : Decidable s.interruptible :=
  inferInstanceAs (Decidable (_ ∨ _))

inductive Act where
  /-- The current thread calls `ReadSector` or `WriteSector`. -/
  | call (call : Call)
  /-- The current thread runs on, inside the call. -/
  | next
  /-- The disk has served request `r`. -/
  | interrupt (r : ℕ)
  /-- The current thread yields, of its own or for the timer. -/
  | yield
  /-- The loop of `Sleep` finds a thread to run. -/
  | dispatch
  | fork (k : ℕ)
  /-- The current thread sleeps on something else. -/
  | sleep
  /-- What thread `k` slept on, outside `SynchDisk`, has come. -/
  | wake (k : ℕ)
  | finish
deriving DecidableEq, Repr

/-- The current thread's next piece of `ReadSector` or `WriteSector`. -/
def next (s : Kernel) : Option Kernel :=
  match s.runningPc with
  | some (.lockSleep call) => some (s.acquireSlept call)
  | some (.acquired ⟨writing, sectorNumber⟩) =>
      if writing then s.writeRequest sectorNumber else s.readRequest sectorNumber
  | some (.requested r) => some (s.P r)
  | some (.semSleep r) => some (s.P r)
  | some (.got _) => s.release.map fun s => s.goTo .out
  | _ => none

def step (s : Kernel) : Act → Option Kernel
  | .call call => if s.runningPc = some .out then some (s.acquire call) else none
  | .next => s.next
  | .interrupt r => if s.interruptible ∧ r ∈ s.pending then some (s.handleInterrupt r) else none
  | .yield => if s.runningPc.any Pc.tick = true then some s.yield else none
  | .dispatch =>
      if s.inSleep then
        match s.readyList with
        | [] => none
        | nextThread :: readyList => some ({ s with readyList }.run nextThread)
      else none
  | .fork k =>
      if s.runningPc = some .out ∧ s.threads k = none then
        some ({ s with
          threads := Function.update s.threads k (some ⟨.JUST_CREATED, .out, false⟩) }.readyToRun k)
      else none
  | .sleep => if s.runningPc = some .out then some (s.sleep .away) else none
  | .wake k =>
      if s.interruptible ∧
          (s.threads k).map (fun t => (t.status, t.pc)) = some (.BLOCKED, .away) then
        some ((s.modify k fun t => { t with pc := .out }).readyToRun k)
      else none
  | .finish =>
      if s.runningPc = some .out then
        some ({ s with threadToBeDestroyed := some s.currentThread }.sleep .finished)
      else none

end Kernel

end OsAssignments.Filesys.SynchDisk
