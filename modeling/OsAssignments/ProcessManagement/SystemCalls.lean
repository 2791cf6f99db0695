import OsAssignments.Lib.EStateRules
import OsAssignments.Nachos.FilesysStub
import OsAssignments.ProcessManagement.Loader

/-!
# `ExceptionHandler` of the process-management assignment

`userprog/exception.cc`, in the name of the process whose table is in the register. User
memory is read and written one byte at a time; an exception of such an access ends the
process from within, as every exception but an overflow does. Each call advances the program
counters itself.

`exceptionHandler` goes as far as the first point at which another thread can run: `Next`
tells what is left to do there.

What `new` returns holds whatever was there before, and the files that names lead to are
UNIX's: both are `Outside`.
-/

namespace OsAssignments.ProcessManagement

open FilesysStub
open MemoryManagement (ExceptionType)

/-! ## §1  The data -/

def NumTotalRegs : ℕ := 40
def PCReg : Fin NumTotalRegs := ⟨34, by decide⟩
def NextPCReg : Fin NumTotalRegs := ⟨35, by decide⟩
def PrevPCReg : Fin NumTotalRegs := ⟨36, by decide⟩

/-- `r2`, the code of the system call and its result. -/
def ResultReg : Fin NumTotalRegs := ⟨2, by decide⟩
def Arg1Reg : Fin NumTotalRegs := ⟨4, by decide⟩
def Arg2Reg : Fin NumTotalRegs := ⟨5, by decide⟩
def Arg3Reg : Fin NumTotalRegs := ⟨6, by decide⟩

abbrev Registers : Type := Fin NumTotalRegs → BitVec 32

def SC_Halt : BitVec 32 := 0
def SC_Exit : BitVec 32 := 1
def SC_Exec : BitVec 32 := 2
def SC_Join : BitVec 32 := 3
def SC_Create : BitVec 32 := 4
def SC_Open : BitVec 32 := 5
def SC_Read : BitVec 32 := 6
def SC_Write : BitVec 32 := 7
def SC_Yield : BitVec 32 := 10

def MAX_FILENAME_LENGTH : ℕ := 100

/-- What a system call reads and writes. -/
structure CallState where
  memory : Memory
  registers : Registers
  files : UnixFiles
  openFiles : OpenFiles
  /-- What `SysCallLogWrite` has printed. -/
  log : List Byte

/-- The address of an object that `new` makes. -/
abbrev ObjectAddr : Type := { a : BitVec 32 // a ≠ 0 ∧ a ≠ 1 }

/-- What a call gets from UNIX and from the heap. -/
structure Outside where
  /-- The contents of a new buffer. -/
  buffer : ByteMem
  /-- The address of a new object. -/
  object : ObjectAddr
  /-- The file of the name in a buffer; none is `-1`. -/
  openForReadWrite : ByteMem → Option ℕ
  openForWrite : ByteMem → Option ℕ

/-- Why a call does not go on. -/
inductive Stop where
  /-- `SysCallExit`. -/
  | exit (code : BitVec 32)
  /-- `interrupt->Halt()`. -/
  | halt
  /-- An `ASSERT`, an array that `new` refuses, or a pointer to no object. -/
  | abort
deriving DecidableEq, Repr

abbrev CallM := EStateM Stop CallState

namespace SystemCalls

/-! ## §2  User memory -/

/-- `ReadMem(addr, 1, &word)`, and the byte of it. An exception is handled at once, and
ends the process. -/
def readMem (addr : BitVec 32) : CallM Byte := fun u =>
  match u.memory.translate addr .byte false with
  | none => .error .abort u
  | some (.error _) => .error (.exit (-1)) u
  | some (.ok (physicalAddress, m)) =>
      .ok (m.mainMemory physicalAddress) { u with memory := m }

/-- `WriteMem(addr, 1, word)`. -/
def writeMem (addr : BitVec 32) (word : Byte) : CallM Unit := fun u =>
  match u.memory.writeMem addr .byte (word.setWidth 32) with
  | none => .error .abort u
  | some (.error _) => .error (.exit (-1)) u
  | some (.ok m) => .ok () { u with memory := m }

/-- The loop of `CopyFromUser` with a size, from index `i` on. -/
def copyBytes (source : BitVec 32) : ℕ → ℕ → ByteMem → CallM ByteMem
  | 0, _, buffer => pure buffer
  | left + 1, i, buffer => do
      let word ← readMem (source + BitVec.ofNat 32 i)
      let buffer := Function.update buffer i word
      if word = 0 then pure buffer else copyBytes source left (i + 1) buffer

/-- `CopyFromUser`, with a size. -/
def copyFromUser (source : BitVec 32) (buffer : ByteMem) (size : BitVec 32) :
    CallM ByteMem :=
  if size.toInt ≤ 0 then throw (.exit (-1)) else copyBytes source size.toInt.toNat 0 buffer

/-- The loop of `CopyFromUser` for a name, from index `i` on. -/
def copyChars (source : BitVec 32) : ℕ → ℕ → ByteMem → CallM ByteMem
  | 0, _, buffer => pure buffer
  | left + 1, i, buffer => do
      let word ← readMem source
      let buffer := Function.update buffer i word
      if word = 0 then pure buffer else copyChars (source + 1) left (i + 1) buffer

/-- `CopyFromUser`, for a name. -/
def copyNameFromUser (source : BitVec 32) (buffer : ByteMem) : CallM ByteMem :=
  copyChars source (MAX_FILENAME_LENGTH - 1) 0 buffer

/-- The loop of `CopyToUser`, from index `i` on. -/
def sendBytes (source : ByteMem) : ℕ → ℕ → BitVec 32 → CallM Unit
  | 0, _, _ => pure ()
  | left + 1, i, dest => do
      writeMem dest (source i)
      sendBytes source left (i + 1) (dest + 1)

/-- `CopyToUser`. -/
def sendToUser (source : ByteMem) (dest size : BitVec 32) : CallM Unit :=
  if size.toInt ≤ 0 then throw (.exit (-1)) else sendBytes source size.toInt.toNat 0 dest

/-! ## §3  The system calls -/

def readRegister (r : Fin NumTotalRegs) : CallM (BitVec 32) := do
  return (← get).registers r

def writeRegister (r : Fin NumTotalRegs) (value : BitVec 32) : CallM Unit :=
  modify fun u => { u with registers := Function.update u.registers r value }

def incrementPC : CallM Unit := do
  let pc ← readRegister PCReg
  writeRegister PrevPCReg pc
  let pc ← readRegister NextPCReg
  writeRegister PCReg pc
  writeRegister NextPCReg (pc + 4)

/-- `new char[size]`. -/
def newBuffer (outside : Outside) (size : BitVec 32) : CallM ByteMem :=
  if size.toInt < 0 then throw .abort else pure outside.buffer

/-- The object that a handle points to; `NULL` ends the process. -/
def openFile (handle : BitVec 32) : CallM OpenFile := do
  if handle = 0 then throw (.exit (-1))
  match (← get).openFiles.object handle with
  | none => throw .abort
  | some file => pure file

def sysCallLogWrite (outside : Outside) (source size : BitVec 32) : CallM Unit := do
  let buffer ← newBuffer outside (size + 1)
  let buffer ← copyFromUser source buffer size
  modify fun u => { u with log := u.log ++ buffer.read 0 size.toInt.toNat }
  incrementPC

/-- `fileSystem->Create`: the file is empty afterwards. -/
def createFile (outside : Outside) (name : ByteMem) : CallM Unit :=
  match outside.openForWrite name with
  | none => throw .abort
  | some file =>
      modify fun u => { u with files := Function.update u.files file RandomAccessFile.empty }

/-- `fileSystem->Open`; none is `NULL`. -/
def fileSystemOpen (outside : Outside) (name : ByteMem) : CallM (Option (BitVec 32)) :=
  match outside.openForReadWrite name with
  | none => pure none
  | some file => do
      modify fun u => { u with openFiles := u.openFiles.add outside.object ⟨file, 0⟩ }
      pure (some outside.object.val)

def sysCallCreate (outside : Outside) (fileName : BitVec 32) : CallM Unit := do
  let name ← copyNameFromUser fileName outside.buffer
  createFile outside name
  incrementPC

def sysCallOpen (outside : Outside) (fileName : BitVec 32) : CallM Unit := do
  let name ← copyNameFromUser fileName outside.buffer
  match ← fileSystemOpen outside name with
  | none => writeRegister ResultReg (-1)
  | some file =>
      incrementPC
      writeRegister ResultReg file

def sysCallWrite (outside : Outside) (fileDestination source size : BitVec 32) :
    CallM Unit := do
  let file ← openFile fileDestination
  let buffer ← newBuffer outside size
  let buffer ← copyFromUser source buffer size
  let u ← get
  let (bytesWritten, files, file) := file.write u.files buffer size.toInt.toNat
  set { u with files := files, openFiles := u.openFiles.set fileDestination file }
  if (bytesWritten : ℤ) < size.toInt then throw (.exit (-1))
  incrementPC

def sysCallRead (outside : Outside) (fileSource dest size : BitVec 32) : CallM Unit := do
  let file ← openFile fileSource
  let buffer ← newBuffer outside size
  let u ← get
  let (bytesRead, buffer, file) := file.read u.files buffer size.toInt.toNat
  set { u with openFiles := u.openFiles.set fileSource file }
  if (bytesRead : ℤ) < size.toInt then throw (.exit (-1))
  sendToUser buffer dest size
  incrementPC

/-- Up to the new thread. -/
def sysCallExec (outside : Outside) (executableName : BitVec 32) : CallM Unit := do
  let name ← copyNameFromUser executableName outside.buffer
  match ← fileSystemOpen outside name with
  | none => throw (.exit (-1))
  | some _ => pure ()

/-! ## §4  The handler -/

/-- What is left to do when the handler comes to a point at which it can be switched away
from, or returns. -/
inductive Next where
  | returned
  /-- `Yield`, in `SysCallYield`. -/
  | yield
  /-- `Fork`, in `SysCallExec`. -/
  | fork
  /-- The loop of `SysCallJoin`. -/
  | join (id : BitVec 32)
deriving DecidableEq, Repr

def sysCall (outside : Outside) : CallM Next := do
  let type ← readRegister ResultReg
  let arg1 ← readRegister Arg1Reg
  let arg2 ← readRegister Arg2Reg
  let arg3 ← readRegister Arg3Reg
  if type = SC_Halt then throw .halt
  else if type = SC_Exit then throw (.exit arg1)
  else if type = SC_Write then do
    if arg3 = 1 then sysCallLogWrite outside arg1 arg2
    else sysCallWrite outside arg3 arg1 arg2
    pure .returned
  else if type = SC_Create then do
    sysCallCreate outside arg1
    pure .returned
  else if type = SC_Open then do
    sysCallOpen outside arg1
    pure .returned
  else if type = SC_Read then do
    sysCallRead outside arg3 arg1 arg2
    pure .returned
  else if type = SC_Exec then do
    sysCallExec outside arg1
    pure .fork
  else if type = SC_Yield then pure .yield
  else if type = SC_Join then
    if arg1 = 0 then throw (.exit (-1)) else pure (.join arg1)
  else throw .abort

def exceptionHandler (outside : Outside) : ExceptionType → CallM Next
  | .SyscallException => sysCall outside
  | .OverflowException => pure .returned
  | .PageFaultException => throw (.exit (-1))
  | .ReadOnlyException => throw (.exit (-1))
  | .BusErrorException => throw (.exit (-1))
  | .AddressErrorException => throw (.exit (-1))
  | .IllegalInstrException => throw (.exit (-1))
  | .NoException => throw (.exit (-1))

/-! ## §5  What the small steps do -/

/-- The registers after `incrementPC`. -/
def advance (r : Registers) : Registers :=
  Function.update (Function.update (Function.update r PrevPCReg (r PCReg)) PCReg
    (r NextPCReg)) NextPCReg (r NextPCReg + 4)

theorem incrementPC_eq (u : CallState) :
    incrementPC u = .ok () { u with registers := advance u.registers } := rfl

theorem readRegister_eq (r : Fin NumTotalRegs) (u : CallState) :
    readRegister r u = .ok (u.registers r) u := rfl

theorem newBuffer_eq {size : BitVec 32} (h : 0 ≤ size.toInt) (outside : Outside)
    (u : CallState) : newBuffer outside size u = .ok outside.buffer u := by
  rw [newBuffer, if_neg (Int.not_lt.mpr h)]
  rfl

theorem openFile_eq {u : CallState} {handle : BitVec 32} {file : OpenFile}
    (h : u.openFiles.object handle = some file) : openFile handle u = .ok file u := by
  rw [openFile, if_neg (OpenFiles.ne_zero h)]
  change (match u.openFiles.object handle with
    | none => (throw Stop.abort : CallM OpenFile)
    | some file => pure file) u = _
  rw [h]
  rfl

end SystemCalls

end OsAssignments.ProcessManagement
