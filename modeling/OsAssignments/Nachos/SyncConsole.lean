import OsAssignments.Lib.Bytes
import OsAssignments.Lib.HandoffLock
import OsAssignments.Lib.PartialMachine

/-!
# The synchronous console: the code

`userprog/sync_console.cc` over `threads/synch.cc` and `machine/console.cc`. Any number
of threads call `lirechar` and `ecrirechar`; the console polls the keyboard, and tells
when a character has been shown. `P`, `V`, `Acquire` and `Release` run with interrupts
off, so a step of a thread is the code from one of them to the next. Any thread that is
not asleep may run next, and any interrupt that is pending may come: these are all the
orders that the scheduler and the clock can make, and more.

`typed`, `returned` and `written` are ghosts: what has come from the keyboard, what the
calls of `lirechar` have returned, and the calls of `ecrirechar` that have.
-/

namespace OsAssignments.SyncConsole

/-! ## §1  The data -/

/-- `EOF` as a `char`. -/
def EOF : Byte := 0xff

/-- The two halves, each with a lock and a semaphore of its own. -/
inductive Side where
  | read
  | write
deriving DecidableEq, Repr

inductive Call where
  | lirechar
  | ecrirechar (car : Byte)
deriving DecidableEq, Repr

def Call.side : Call → Side
  | .lirechar => .read
  | .ecrirechar _ => .write

/-- Where a thread stands. -/
inductive Pc where
  /-- Outside the console. -/
  | out
  /-- In the `Sleep` of `Acquire`. -/
  | acquiring (call : Call)
  /-- Back from `Acquire`. -/
  | acquired (call : Call)
  /-- Back from `PutChar`. -/
  | put (car : Byte)
  /-- In the `Sleep` of `P`. -/
  | waiting (call : Call)
  /-- Back from `P`. -/
  | passed (call : Call)
  /-- Back from `GetChar`. -/
  | took (temp : Byte)
deriving DecidableEq, Repr

structure Thread where
  blocked : Bool
  pc : Pc
deriving DecidableEq, Repr

structure Semaphore where
  value : ℕ
  queue : List ℕ
deriving DecidableEq, Repr

/-- The device: `incoming` is `EOF` while there is no character. -/
structure Console where
  incoming : Byte
  putBusy : Bool
deriving DecidableEq, Repr

/-- `lock` and `sem` are `readlock`, `writelock`, `readsem` and `writesem`; `keyboard` is
what the UNIX file still has for us, and `writeInts` counts the `ConsoleWriteDone`
interrupts that are scheduled. -/
structure Kernel where
  threads : ℕ → Thread
  lock : Side → HandoffLock ℕ
  sem : Side → Semaphore
  console : Console
  keyboard : List Byte
  display : List Byte
  writeInts : ℕ
  numConsoleCharsWritten : ℕ
  typed : List Byte
  returned : List (ℕ × Byte)
  written : List (ℕ × Byte)

namespace Kernel

/-- The constructors of `SyncConsole` and `Console`. -/
def init : Kernel where
  threads := fun _ => ⟨false, .out⟩
  lock := fun _ => ⟨none, []⟩
  sem := fun _ => ⟨0, []⟩
  console := ⟨EOF, false⟩
  keyboard := []
  display := []
  writeInts := 0
  numConsoleCharsWritten := 0
  typed := []
  returned := []
  written := []

/-! ## §2  The lock and the semaphore -/

def setThread (s : Kernel) (k : ℕ) (t : Thread) : Kernel :=
  { s with threads := Function.update s.threads k t }

def setLock (s : Kernel) (side : Side) (l : HandoffLock ℕ) : Kernel :=
  { s with lock := Function.update s.lock side l }

def setSem (s : Kernel) (side : Side) (q : Semaphore) : Kernel :=
  { s with sem := Function.update s.sem side q }

def readyToRun (s : Kernel) (thread : ℕ) : Kernel :=
  s.setThread thread { s.threads thread with blocked := false }

/-- `Lock::Acquire` by thread `k`, up to its end or its `Sleep`. -/
def acquire (s : Kernel) (k : ℕ) (call : Call) : Kernel :=
  let lock := s.lock call.side
  match lock.state with
  | some _ =>
      (s.setLock call.side { lock with queue := lock.queue ++ [k] }).setThread k
        ⟨true, .acquiring call⟩
  | none => (s.setLock call.side { lock with state := some k }).setThread k ⟨false, .acquired call⟩

/-- The end of `Lock::Acquire`, after its `Sleep`. -/
def acquireSlept (s : Kernel) (k : ℕ) (call : Call) : Kernel :=
  (s.setLock call.side { s.lock call.side with state := some k }).setThread k
    ⟨false, .acquired call⟩

/-- `Lock::Release`; it aborts unless the caller holds the lock. -/
def release (s : Kernel) (k : ℕ) (side : Side) : Option Kernel :=
  if (s.lock side).state = some k then
    match (s.lock side).queue with
    | [] => some (s.setLock side ⟨none, []⟩)
    | thread :: queue => some ((s.readyToRun thread).setLock side ⟨some thread, queue⟩)
  else none

/-- `Semaphore::P` from the test of its loop on, up to its end or its next `Sleep`. -/
def P (s : Kernel) (k : ℕ) (call : Call) : Kernel :=
  let sem := s.sem call.side
  if sem.value = 0 then
    (s.setSem call.side { sem with queue := sem.queue ++ [k] }).setThread k ⟨true, .waiting call⟩
  else
    (s.setSem call.side { sem with value := sem.value - 1 }).setThread k ⟨false, .passed call⟩

/-- `Semaphore::V`. -/
def V (s : Kernel) (side : Side) : Kernel :=
  let sem := s.sem side
  match sem.queue with
  | [] => s.setSem side { sem with value := sem.value + 1 }
  | thread :: queue => (s.readyToRun thread).setSem side ⟨sem.value + 1, queue⟩

/-! ## §3  The device -/

/-- `Console::GetChar`. -/
def getChar (s : Kernel) (k : ℕ) : Kernel :=
  { s with console := { s.console with incoming := EOF } }.setThread k
    ⟨false, .took s.console.incoming⟩

/-- `Console::PutChar`; it aborts while a character is being shown. -/
def putChar (s : Kernel) (k : ℕ) (car : Byte) : Option Kernel :=
  if s.console.putBusy = false then
    some ({ s with
      display := s.display ++ [car]
      console := { s.console with putBusy := true }
      writeInts := s.writeInts + 1 }.setThread k ⟨false, .put car⟩)
  else none

/-- `Console::CheckCharAvail`, with `SyncConsole::ReadDone`. -/
def checkCharAvail (s : Kernel) : Kernel :=
  if s.console.incoming ≠ EOF then s
  else
    match s.keyboard with
    | [] => s
    | c :: keyboard =>
        { s with keyboard, console := { s.console with incoming := c } }.V .read

/-- `Console::WriteDone`, with `SyncConsole::WriteDone`. -/
def writeDone (s : Kernel) : Kernel :=
  { s with
    console := { s.console with putBusy := false }
    numConsoleCharsWritten := s.numConsoleCharsWritten + 1 }.V .write

/-! ## §4  Steps -/

inductive Act where
  /-- Thread `k` calls `lirechar` or `ecrirechar`. -/
  | call (k : ℕ) (call : Call)
  /-- Thread `k` runs on, inside the call. -/
  | next (k : ℕ)
  /-- A character comes from the keyboard. -/
  | type (c : Byte)
  /-- `ConsoleReadPoll`. -/
  | poll
  /-- `ConsoleWriteDone`. -/
  | writeDone
deriving DecidableEq, Repr

/-- The next piece of `SyncConsole::lirechar` or `SyncConsole::ecrirechar`. -/
def next (s : Kernel) (k : ℕ) : Option Kernel :=
  match (s.threads k).pc with
  | .out => none
  | .acquiring call => some (s.acquireSlept k call)
  | .acquired .lirechar => some (s.P k .lirechar)
  | .acquired (.ecrirechar car) => s.putChar k car
  | .put car => some (s.P k (.ecrirechar car))
  | .waiting call => some (s.P k call)
  | .passed .lirechar => some (s.getChar k)
  | .passed (.ecrirechar car) =>
      (s.release k .write).map fun s =>
        { s with written := s.written ++ [(k, car)] }.setThread k ⟨false, .out⟩
  | .took temp =>
      (s.release k .read).map fun s =>
        { s with returned := s.returned ++ [(k, temp)] }.setThread k ⟨false, .out⟩

def step (s : Kernel) : Act → Option Kernel
  | .call k call => if s.threads k = ⟨false, .out⟩ then some (s.acquire k call) else none
  | .next k => if (s.threads k).blocked then none else s.next k
  | .type c => some { s with keyboard := s.keyboard ++ [c], typed := s.typed ++ [c] }
  | .poll => some s.checkCharAvail
  | .writeDone =>
      if 0 < s.writeInts then some { s with writeInts := s.writeInts - 1 }.writeDone else none

end Kernel

end OsAssignments.SyncConsole
