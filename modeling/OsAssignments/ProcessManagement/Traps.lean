import OsAssignments.ProcessManagement.Join
import OsAssignments.ProcessManagement.ProgramCounters

/-!
# Exceptions and context switches

The whole machine of the process-management assignment: programs that run, their exceptions,
the scheduler, and the loader of new processes.

There is one set of user registers. `Scheduler::Run` saves and restores them, but only for a
thread whose `space` is not `NULL`; the loader of a new process and `InitRegisters` write
into what they find. A handler can be switched away from in `Yield`, in the loop of `Join`
and, by a timer, behind `Fork`.

`TrapSys.step` is `none` where the source aborts or halts, and where the action is not
enabled.
-/

namespace OsAssignments.ProcessManagement

open MemoryManagement (ExceptionType NoffHeader)

/-! ## §1  The data -/

def StackReg : Fin NumTotalRegs := ⟨29, by decide⟩

/-- `AddrSpace::InitRegisters`. -/
def initRegisters (numPages : BitVec 32) : Registers :=
  Function.update
    (Function.update (Function.update (fun _ => 0) PCReg 0) NextPCReg 4)
    StackReg (numPages * BitVec.ofNat 32 PageSize - 16)

/-- Where the handler of a program stands. -/
inductive Point where
  /-- In the `Yield` of `SysCallYield`. -/
  | yielding
  /-- Behind the `Fork` of `SysCallExec`. -/
  | forked (tmp : SpaceId)
  /-- In the loop of `SysCallJoin`. -/
  | joining
  /-- The program has the control again. -/
  | returned
deriving DecidableEq, Repr

structure Trap where
  point : Point
  /-- Ghost: the registers at the exception. -/
  registers : Registers

structure TrapSys where
  sys : Sys
  machine : CallState
  /-- The field of `Thread`. -/
  userRegisters : SpaceId → Registers
  /-- The process whose address space `Thread::space` points to; `none` is `NULL`. -/
  space : SpaceId → Option ℕ
  /-- The process whose address space `StartProcess` makes. -/
  made : SpaceId → Option ℕ
  /-- The last exception of the program, until it runs on. -/
  trap : SpaceId → Option Trap

inductive TrapAct where
  /-- The program runs; `registers` and `mainMemory` are what it leaves. -/
  | user (registers : Registers) (mainMemory : ByteMem)
  /-- `RaiseException`; `tmp` is the address of a new thread, if one is made. -/
  | exception (which : ExceptionType) (outside : Outside) (tmp : SpaceId)
  /-- The thread goes on in its handler. -/
  | resume
  /-- `YieldOnReturn`. -/
  | timer
  | dispatch
  /-- The constructor of `AddrSpace` in `StartProcess`, up to its first store. -/
  | newAddrSpace (noffH : NoffHeader) (executable : RandomAccessFile)
  /-- The constructor goes on to its next store, or ends. -/
  | load
  /-- `StartProcess` reaches user code. -/
  | start
  /-- `StartProcess` cannot open the executable, and the thread ends. -/
  | noExecutable

namespace TrapSys

/-- The main thread is about to call `StartProcess`. -/
def init (main : SpaceId) (machine : CallState) (userRegisters : SpaceId → Registers) :
    TrapSys where
  sys := Sys.init main
  machine := machine
  userRegisters := userRegisters
  space := fun _ => none
  made := fun _ => none
  trap := fun _ => none

/-! ## §2  `Scheduler::Run` -/

def saveUserState (s : TrapSys) : TrapSys :=
  match s.space s.sys.currentThread with
  | none => s
  | some _ =>
      { s with
        userRegisters :=
          Function.update s.userRegisters s.sys.currentThread s.machine.registers }

/-- `RestoreUserState` and `RestoreState`. -/
def restoreUserState (s : TrapSys) : Option TrapSys :=
  match s.space s.sys.currentThread with
  | none => some s
  | some k =>
      (s.machine.memory.step (.restoreState k)).map fun memory =>
        { s with
          machine := { s.machine with
            memory := memory
            registers := s.userRegisters s.sys.currentThread } }

/-- A step of the scheduler that comes through `Run`. A new thread does not come back
through it, but has no `space`. -/
def switch (s : TrapSys) (a : Sys.Act) : Option TrapSys :=
  (s.sys.step a).bind fun sys => { s.saveUserState with sys := sys }.restoreUserState

/-! ## §3  The handler -/

/-- The handler comes to `point`. -/
def handling (s : TrapSys) (machine : CallState) (point : Point) : TrapSys :=
  { s with
    machine := machine
    trap :=
      Function.update s.trap s.sys.currentThread (some ⟨point, s.machine.registers⟩) }

/-- The handler is back at the program. -/
def leave (s : TrapSys) (registers : Registers) : TrapSys :=
  { s with
    machine := { s.machine with registers := registers }
    trap := Function.update s.trap s.sys.currentThread
      ((s.trap s.sys.currentThread).map fun t => { t with point := .returned }) }

/-- The `new Thread` and `Fork` of `SysCallExec`. -/
def fork (s : TrapSys) (tmp : SpaceId) : Option TrapSys :=
  (s.sys.step (.exec tmp)).map fun sys =>
    { s with
      sys := sys
      space := Function.update s.space tmp none
      made := Function.update s.made tmp none
      trap := Function.update s.trap tmp none }

/-- The loop of `SysCallJoin`, from its test on. -/
def joinLoop (s : TrapSys) (a : Sys.Act) : Option TrapSys :=
  if s.sys.ENDED then
    (s.sys.step a).map fun sys =>
      { s with sys := sys }.leave
        (SystemCalls.advance (Function.update s.machine.registers ResultReg s.sys.EXIT_CODE))
  else s.switch a

/-- `ExceptionHandler`, in the name of the running thread. -/
def exception (s : TrapSys) (which : ExceptionType) (outside : Outside)
    (tmp : SpaceId) : Option TrapSys :=
  match SystemCalls.exceptionHandler outside which s.machine with
  | .error (.exit code) machine =>
      (s.sys.step (.exit code)).map fun sys =>
        { s with
          sys := sys
          machine := machine
          trap := Function.update s.trap s.sys.currentThread none }
  | .error .halt _ => none
  | .error .abort _ => none
  | .ok .returned machine => some (s.handling machine .returned)
  | .ok .yield machine => (s.handling machine .yielding).switch .yield
  | .ok .fork machine => (s.handling machine (.forked tmp)).fork tmp
  | .ok (.join id) machine => (s.handling machine .joining).joinLoop (.join id)

/-- The rest of the system calls that were switched away from. -/
def resume (s : TrapSys) : Option TrapSys :=
  match (s.trap s.sys.currentThread).map Trap.point with
  | some .yielding =>
      if s.sys.At .user then some (s.leave (SystemCalls.advance s.machine.registers))
      else none
  | some (.forked tmp) =>
      if s.sys.At .user then
        some (s.leave
          (Function.update (SystemCalls.advance s.machine.registers) ResultReg tmp))
      else none
  | some .joining => s.joinLoop .resume
  | some .returned => none
  | none => none

/-! ## §4  The machine -/

/-- The running thread is in its program, and not in its handler. -/
def InProgram (s : TrapSys) : Prop :=
  s.sys.At .user ∧
    ((s.trap s.sys.currentThread).all fun t => decide (t.point = .returned)) = true

instance (s : TrapSys) : Decidable s.InProgram := inferInstanceAs (Decidable (_ ∧ _))

/-- The loader's `SysCallRead` ends in `incrementPC` too. -/
def loadRegisters (kernel : Option Kernel) (registers : Registers) : Registers :=
  match kernel with
  | some (.copying [] _ _) => SystemCalls.advance registers
  | _ => registers

/-- A step of the constructor of process `k`; a copy that fails ends the thread. -/
def load (s : TrapSys) (k : ℕ) : Option TrapSys :=
  (s.machine.memory.step (.kernel k)).bind fun memory =>
    if memory.processes[k]?.map Process.kernel = some .finished then
      (s.sys.sysCallExit (-1)).map fun sys =>
        { s with sys := sys, machine := { s.machine with memory := memory } }
    else
      some { s with
        machine := { s.machine with
          memory := memory
          registers :=
            loadRegisters (s.machine.memory.processes[k]?.map Process.kernel)
              s.machine.registers } }

/-- The end of `StartProcess`, when the constructor of process `k` is done. -/
def start (s : TrapSys) (k : ℕ) (p : Process) : Option TrapSys :=
  (s.sys.step .start).map fun sys =>
    { s with
      sys := sys
      machine := { s.machine with
        memory := s.machine.memory.restoreState k p.space
        registers := initRegisters p.space.numPages }
      space := Function.update s.space s.sys.currentThread (some k) }

def step (s : TrapSys) : TrapAct → Option TrapSys
  | .user registers mainMemory =>
      if s.InProgram then
        some { s with
          machine := { s.machine with
            memory := { s.machine.memory with mainMemory := mainMemory }
            registers := registers }
          trap := Function.update s.trap s.sys.currentThread none }
      else none
  | .exception which outside tmp =>
      if s.InProgram then s.exception which outside tmp else none
  | .resume => s.resume
  | .timer => s.switch .yield
  | .dispatch => s.switch .dispatch
  | .newAddrSpace noffH executable =>
      if s.sys.At .starting ∧ s.made s.sys.currentThread = none then
        (s.machine.memory.step (.newAddrSpace noffH executable)).map fun memory =>
          { s with
            machine := { s.machine with memory := memory }
            made := Function.update s.made s.sys.currentThread
              (some s.machine.memory.processes.length) }
      else none
  | .load =>
      if s.sys.At .starting then (s.made s.sys.currentThread).bind s.load else none
  | .start =>
      (s.made s.sys.currentThread).bind fun k =>
        (s.machine.memory.processes[k]?).bind fun p =>
          if p.kernel = .user then s.start k p else none
  | .noExecutable =>
      if s.sys.At .starting ∧ s.made s.sys.currentThread = none then
        s.sys.finish.map fun sys => { s with sys := sys }
      else none

end TrapSys

end OsAssignments.ProcessManagement
