import OsAssignments.MemoryManagement.Machine

/-!
# Address spaces of the process-management assignment

`userprog/addrspace.cc`, `machine/translate.cc` and `CopyToUser` of
`userprog/exception.cc`. There is no paging here: a process gets consecutive
physical pages from a counter that only grows, and its program is loaded through
its own page table.

`int` and `unsigned int` are `BitVec 32`: the sizes of a header are whatever the
file says, and their sum wraps. There is no TLB.

The constructor and `CopyToUser` store one byte at a time, so one step of the
kernel here is one store, and other processes run between any two of them.
`Memory.step` is `none` where the source aborts in an `ASSERT` and where the
action is not enabled.
-/

namespace OsAssignments.ProcessManagement

open MemoryManagement (ExceptionType Width Segment NoffHeader NOFFMAGIC)

/-! ## §1  The data -/

def PageSize : ℕ := 128
def NumPhysPages : ℕ := 48
def MemorySize : ℕ := NumPhysPages * PageSize
def UserStackSize : BitVec 32 := 1024

/-- The macro, on `unsigned int`. -/
def divRoundUp (n s : BitVec 32) : BitVec 32 := n / s + if n % s > 0 then 1 else 0

structure TranslationEntry where
  virtualPage : BitVec 32
  physicalPage : BitVec 32
  valid : Bool
  use : Bool
  dirty : Bool
  readOnly : Bool
deriving DecidableEq, Repr

/-- The entries of `pageTable` from `numPages` on do not exist. -/
structure AddrSpace where
  pageTable : ℕ → TranslationEntry
  numPages : BitVec 32
  /-- Ghost: the `startPageIndex` of the constructor. -/
  startPage : BitVec 32

/-- What the kernel is doing in the name of a process. -/
inductive Kernel where
  /-- The constructor has come to byte `j` of page `i`. -/
  | zeroing (i j : ℕ)
  /-- `CopyToUser` has `rest` left; `next` is what the constructor reads then. -/
  | copying (rest : List Byte) (dest : BitVec 32) (next : List Segment)
  /-- The process runs. -/
  | user
  /-- Past `Finish`. -/
  | finished
deriving DecidableEq

structure Process where
  noffH : NoffHeader
  executable : RandomAccessFile
  space : AddrSpace
  kernel : Kernel

/-- The machine's memory and its page table register, with every address space that
was ever made. -/
structure Memory where
  mainMemory : ByteMem
  /-- The process whose table is in the register; `none` is `NULL`. -/
  pageTable : Option ℕ
  pageTableSize : BitVec 32
  nextFreePhysicalPage : BitVec 32
  processes : List Process

def Memory.init : Memory := ⟨fun _ => 0, none, 0, 0, []⟩

/-! ## §2  `AddrSpace::AddrSpace` -/

/-- The host is little endian, as the simulated machine is. -/
def wordToHost (word : BitVec 32) : BitVec 32 := word

def swapSegment (segment : Segment) : Segment where
  virtualAddr := wordToHost segment.virtualAddr
  inFileAddr := wordToHost segment.inFileAddr
  size := wordToHost segment.size

def swapHeader (noffH : NoffHeader) : NoffHeader where
  noffMagic := wordToHost noffH.noffMagic
  code := swapSegment noffH.code
  initData := swapSegment noffH.initData
  uninitData := swapSegment noffH.uninitData

/-- The header as the constructor uses it; `none` is its `ASSERT`. -/
def checkHeader (noffH : NoffHeader) : Option NoffHeader :=
  let noffH :=
    if noffH.noffMagic ≠ NOFFMAGIC ∧ wordToHost noffH.noffMagic = NOFFMAGIC then
      swapHeader noffH
    else noffH
  if noffH.noffMagic = NOFFMAGIC then some noffH else none

def numPages (noffH : NoffHeader) : BitVec 32 :=
  let size := noffH.code.size + noffH.initData.size + noffH.uninitData.size + UserStackSize
  divRoundUp size (BitVec.ofNat 32 PageSize)

/-- The result, and the new `nextFreePhysicalPage`. -/
def allocatePhysicalPages (nextFreePhysicalPage numPages : BitVec 32) :
    BitVec 32 × BitVec 32 :=
  let startPage := nextFreePhysicalPage
  if startPage + numPages ≤ BitVec.ofNat 32 NumPhysPages then
    (startPage, nextFreePhysicalPage + numPages)
  else (-1, nextFreePhysicalPage)

def AddrSpace.new (startPageIndex numPages : BitVec 32) : AddrSpace where
  pageTable i :=
    { virtualPage := BitVec.ofNat 32 i
      physicalPage := startPageIndex + BitVec.ofNat 32 i
      valid := true
      use := false
      dirty := false
      readOnly := false }
  numPages := numPages
  startPage := startPageIndex

/-- `OpenFile::ReadAt`; seeking before the start aborts. -/
def readAt (file : RandomAccessFile) (numBytes position : BitVec 32) : Option (List Byte) :=
  if position.toInt < 0 then none
  else some (file.fread position.toNat numBytes.toNat)

/-- `CopyToUser`, up to its first store; with nothing to copy the process ends. -/
def copyToUser (source : List Byte) (dest size : BitVec 32) (next : List Segment) : Kernel :=
  if size.toInt ≤ 0 then .finished else .copying (source.take size.toNat) dest next

/-- `SysCallRead`, after `Read` has brought `source`. -/
def sysCallRead (source : List Byte) (dest size : BitVec 32) (next : List Segment) : Kernel :=
  if (source.length : ℤ) < size.toInt then .finished else copyToUser source dest size next

/-- The constructor reads its segments, the empty ones left out. -/
def loadSegments (executable : RandomAccessFile) : List Segment → Option Kernel
  | [] => some .user
  | segment :: next =>
      if segment.size.toInt > 0 then
        (readAt executable segment.size segment.inFileAddr).map fun source =>
          sysCallRead source segment.virtualAddr segment.size next
      else loadSegments executable next

/-! ## §3  Stores -/

namespace Memory

def setKernel (m : Memory) (k : ℕ) (kernel : Kernel) : Memory :=
  { m with processes := m.processes.modify k fun p => { p with kernel := kernel } }

/-- `AddrSpace::RestoreState`. -/
def restoreState (m : Memory) (k : ℕ) (space : AddrSpace) : Memory :=
  { m with pageTable := some k, pageTableSize := space.numPages }

/-- The use and dirty bits that an access sets. -/
def touch (m : Memory) (k vpn : ℕ) (writing : Bool) : Memory :=
  { m with
    processes := m.processes.modify k fun p =>
      { p with
        space.pageTable := Function.update p.space.pageTable vpn
          { p.space.pageTable vpn with
            use := true
            dirty := (p.space.pageTable vpn).dirty || writing } } }

/-- `Machine::Translate`; `none` is an `ASSERT` that fails. -/
def translate (m : Memory) (virtAddr : BitVec 32) (size : Width) (writing : Bool) :
    Option (Except ExceptionType (ℕ × Memory)) :=
  if virtAddr.toNat % size.size ≠ 0 then some (.error .AddressErrorException)
  else
    match m.pageTable with
    | none => none
    | some k =>
        match m.processes[k]? with
        | none => none
        | some p =>
            let vpn := virtAddr.toNat / PageSize
            let offset := virtAddr.toNat % PageSize
            let entry := p.space.pageTable vpn
            let pageFrame := entry.physicalPage.toNat
            if vpn ≥ m.pageTableSize.toNat then some (.error .AddressErrorException)
            else if ¬ entry.valid then some (.error .PageFaultException)
            else if entry.readOnly && writing then some (.error .ReadOnlyException)
            else if pageFrame ≥ NumPhysPages then some (.error .BusErrorException)
            else
              let physAddr := pageFrame * PageSize + offset
              if physAddr + size.size ≤ MemorySize then
                some (.ok (physAddr, m.touch k vpn writing))
              else none

/-- `Machine::WriteMem`. -/
def writeMem (m : Memory) (addr : BitVec 32) (size : Width) (value : BitVec 32) :
    Option (Except ExceptionType Memory) :=
  (m.translate addr size true).map fun
    | .error exception => .error exception
    | .ok (physicalAddress, m) =>
        .ok { m with
          mainMemory := m.mainMemory.write physicalAddress ((wordBytes value).take size.size) }

/-- A store in the name of process `k`. Every exception of `Translate` ends in
`SysCallExit(-1)`. -/
def store (m : Memory) (k : ℕ) (addr : BitVec 32) (size : Width) (value : BitVec 32)
    (kernel : Kernel) : Option Memory :=
  (m.writeMem addr size value).map fun
    | .error _ => m.setKernel k .finished
    | .ok m => m.setKernel k kernel

/-! ## §4  Steps -/

inductive Act where
  /-- The constructor, up to its first store, with the header that `ReadAt` has left
  in `noffH`. -/
  | newAddrSpace (noffH : NoffHeader) (executable : RandomAccessFile)
  /-- On a context switch, or in `StartProcess`. -/
  | restoreState (k : ℕ)
  /-- The constructor or `CopyToUser` goes on to its next store, or ends. -/
  | kernel (k : ℕ)
  /-- The program stores. -/
  | store (k : ℕ) (addr : BitVec 32) (size : Width) (value : BitVec 32)
  /-- `SC_Read`, when `Read` has brought `source`. -/
  | read (k : ℕ) (source : List Byte) (userbuffer size : BitVec 32)
  | exit (k : ℕ)

def newAddrSpace (m : Memory) (noffH : NoffHeader) (executable : RandomAccessFile) :
    Option Memory :=
  (checkHeader noffH).bind fun noffH =>
    let n := numPages noffH
    let (startPageIndex, next) := allocatePhysicalPages m.nextFreePhysicalPage n
    if startPageIndex = -1 then none
    else if n ≤ BitVec.ofNat 32 NumPhysPages then
      let space := AddrSpace.new startPageIndex n
      some ({ m with
        nextFreePhysicalPage := next
        processes := m.processes ++
          [{ noffH, executable, space, kernel := .zeroing 0 0 }] : Memory }.restoreState
            m.processes.length space)
    else none

def kernelStep (m : Memory) (k : ℕ) (p : Process) : Option Memory :=
  match p.kernel with
  | .zeroing i j =>
      if i < p.space.numPages.toNat then
        if j < PageSize then
          m.store k (BitVec.ofNat 32 (i * PageSize) + BitVec.ofNat 32 j) .byte 0
            (.zeroing i (j + 1))
        else some (m.setKernel k (.zeroing (i + 1) 0))
      else (loadSegments p.executable [p.noffH.code, p.noffH.initData]).map (m.setKernel k)
  | .copying [] _ next => (loadSegments p.executable next).map (m.setKernel k)
  | .copying (b :: rest) dest next =>
      m.store k dest .byte (b.setWidth 32) (.copying rest (dest + 1) next)
  | .user => none
  | .finished => none

/-- The process runs its program. -/
def AtUser (m : Memory) (k : ℕ) : Prop := m.processes[k]?.map Process.kernel = some .user

instance (m : Memory) (k : ℕ) : Decidable (m.AtUser k) := inferInstanceAs (Decidable (_ = _))

def step (m : Memory) : Act → Option Memory
  | .newAddrSpace noffH executable => m.newAddrSpace noffH executable
  | .restoreState k => m.processes[k]?.map fun p => m.restoreState k p.space
  | .kernel k => m.processes[k]?.bind (m.kernelStep k)
  | .store k addr size value => if m.AtUser k then m.store k addr size value .user else none
  | .read k source userbuffer size =>
      if m.AtUser k then some (m.setKernel k (sysCallRead source userbuffer size [])) else none
  | .exit k => if m.AtUser k then some (m.setKernel k .finished) else none

end Memory

end OsAssignments.ProcessManagement
