import OsAssignments.Lib.Bytes
import OsAssignments.Nachos.BitMap
import Mathlib.Logic.Function.Basic

/-!
# Address spaces: demand paging and the swap file

`userprog/addrspace.cc` of the memory-management assignment. A page lives in a
frame of `mainMemory`, in the process's own swap file, or still in the
executable; the three cases share the `physicalPage` field of its page-table
entry (`-1` never loaded, `IN_SWAP_FILE` swapped out, else a frame number).

Replacement is local: `swapOut` looks for a victim among the pages of the
faulting address space only, while the frames come from the one global bitmap.

§1 the data, §2 the code. The swap file is a UNIX file whose `fread` and
`fwrite` succeed. What one call can do is in `Paging.lean`.
-/

namespace OsAssignments.MemoryManagement

/-! ## §1  The data -/

def SectorSize : ℕ := 128
def PageSize : ℕ := SectorSize
def NumPhysPages : ℕ := 48
def UserStackSize : ℕ := 1024
def IN_SWAP_FILE : ℤ := -2
def NOFFMAGIC : BitVec 32 := 0xbadfad

structure TranslationEntry where
  virtualPage : ℤ
  physicalPage : ℤ
  valid : Bool
  readOnly : Bool
  use : Bool
  dirty : Bool
deriving DecidableEq, Repr

structure Segment where
  virtualAddr : BitVec 32
  inFileAddr : BitVec 32
  size : BitVec 32
deriving DecidableEq, Repr

structure NoffHeader where
  noffMagic : BitVec 32
  code : Segment
  initData : Segment
  uninitData : Segment
deriving DecidableEq, Repr

structure AddrSpace where
  pageTable : ℕ → TranslationEntry
  numPages : ℕ
  noffH : NoffHeader
  executable : RandomAccessFile
  swapFile : RandomAccessFile
  /-- The queue of victims, front first. -/
  loadedPages : List ℕ

/-- What the machine shares between the address spaces. -/
structure PhysMemory where
  mainMemory : ByteMem
  freeFrame : BitMap

/-- Memory and bitmap as `Initialize` leaves them. -/
def PhysMemory.init : PhysMemory := ⟨fun _ => 0, BitMap.new NumPhysPages⟩

/-! ## §2  The code -/

/-- The ten words of the header, as `ReadAt` leaves them in `noffH`. -/
def readHeader (executable : RandomAccessFile) : NoffHeader :=
  let word (i : ℕ) : BitVec 32 := bytesWord ((executable.fread 0 40).drop (4 * i))
  { noffMagic := word 0
    code := ⟨word 1, word 2, word 3⟩
    initData := ⟨word 4, word 5, word 6⟩
    uninitData := ⟨word 7, word 8, word 9⟩ }

/-- Size of the address space in pages: the sum is taken in `unsigned int`. -/
def NoffHeader.numPages (h : NoffHeader) : ℕ :=
  let size := h.code.size + h.initData.size + h.uninitData.size +
    BitVec.ofNat 32 UserStackSize
  divRoundUp size.toNat PageSize

/-- The constructor. Nothing is loaded yet; a bad magic number fails the
`ASSERT`. (The byte swap before it changes nothing on a little-endian host.) -/
def AddrSpace.new (executable : RandomAccessFile) : Option AddrSpace :=
  let noffH := readHeader executable
  if noffH.noffMagic = NOFFMAGIC then
    some
      { pageTable := fun i =>
          { virtualPage := i, physicalPage := -1, valid := false,
            readOnly := false, use := false, dirty := false }
        numPages := noffH.numPages
        noffH := noffH
        executable := executable
        swapFile := RandomAccessFile.empty
        loadedPages := [] }
  else none

/-- The loop of `SwapOut`: rotate the queue, at most once around, until a page
that is still resident stands in front. -/
def seekVictim (pageTable : ℕ → TranslationEntry) :
    ℕ → List ℕ → Option ℕ × List ℕ
  | 0, q => (none, q)
  | _ + 1, [] => (none, [])
  | n + 1, pageIndex :: q =>
      if (pageTable pageIndex).valid then (some pageIndex, pageIndex :: q)
      else seekVictim pageTable n (q ++ [pageIndex])

/-- The victim's frame goes to its slot of the swap file and its entry is
invalidated; `queue` is what the search left of the queue. -/
def AddrSpace.evict (mem : ByteMem) (sp : AddrSpace) (pageIndex : ℕ)
    (queue : List ℕ) : AddrSpace :=
  let entry := sp.pageTable pageIndex
  { sp with
    loadedPages := queue
    swapFile := sp.swapFile.fwrite (pageIndex * PageSize)
      (mem.read (entry.physicalPage.toNat * PageSize) PageSize)
    pageTable := Function.update sp.pageTable pageIndex
      { entry with valid := false, physicalPage := IN_SWAP_FILE } }

/-- Evict the first resident page of the queue and return its frame; `-1` when
there is none. -/
def AddrSpace.swapOut (mem : ByteMem) (sp : AddrSpace) : ℤ × AddrSpace :=
  match seekVictim sp.pageTable sp.loadedPages.length sp.loadedPages with
  | (none, q) => (-1, { sp with loadedPages := q })
  | (some pageIndex, q) =>
      ((sp.pageTable pageIndex).physicalPage, sp.evict mem pageIndex q.tail)

/-- Read the page's slot into the frame, then overwrite the slot with zeros. -/
def AddrSpace.swapIn (mem : ByteMem) (sp : AddrSpace) (pageNumber frame : ℕ) :
    ByteMem × AddrSpace :=
  let swapFileOffset := pageNumber * PageSize
  (mem.write (frame * PageSize) (sp.swapFile.fread swapFileOffset PageSize),
    { sp with
      pageTable := Function.update sp.pageTable pageNumber
        { sp.pageTable pageNumber with physicalPage := frame, valid := true }
      swapFile := sp.swapFile.fwrite swapFileOffset (List.replicate PageSize 0) })

/-- What the first load puts into the frame: zeros past the executable's
image, else the bytes of the file (which may end inside the page). At a negative
position the `ASSERT` of `Lseek` fails. -/
def AddrSpace.loadImage (mem : ByteMem) (sp : AddrSpace) (pageNumber frame : ℕ) :
    Option ByteMem :=
  let offset : BitVec 32 := BitVec.ofNat 32 (pageNumber * PageSize)
  let exeSize := sp.noffH.code.size + sp.noffH.initData.size
  if exeSize.toInt ≤ offset.toInt then
    some (mem.write (frame * PageSize) (List.replicate PageSize 0))
  else
    let position := sp.noffH.code.inFileAddr + offset
    if position.toInt < 0 then none
    else some (mem.write (frame * PageSize) (sp.executable.fread position.toNat PageSize))

/-- The page-table entry of a page that was filled from the executable. -/
def AddrSpace.mapPage (sp : AddrSpace) (pageNumber frame : ℕ) : AddrSpace :=
  { sp with
    pageTable := Function.update sp.pageTable pageNumber
      { sp.pageTable pageNumber with
        virtualPage := pageNumber, physicalPage := frame, valid := true } }

/-- The second half of `LoadFromExecutable`: fill the frame, map the page. -/
def AddrSpace.fillFrame (mem : ByteMem) (sp : AddrSpace) (pageNumber frame : ℕ) :
    Option (ByteMem × AddrSpace) :=
  if (sp.pageTable pageNumber).physicalPage = IN_SWAP_FILE then
    some (sp.swapIn mem pageNumber frame)
  else
    (sp.loadImage mem pageNumber frame).map fun mem => (mem, sp.mapPage pageNumber frame)

/-- Resolve a page fault. `false` when no frame can be had: the caller then
finishes the thread. `none` when Nachos stops at an `ASSERT`. -/
def AddrSpace.loadFromExecutable (pm : PhysMemory) (sp : AddrSpace)
    (pageNumber : ℕ) : Option (Bool × PhysMemory × AddrSpace) :=
  let sp := { sp with loadedPages := sp.loadedPages ++ [pageNumber] }
  if (sp.pageTable pageNumber).valid then some (true, pm, sp)
  else
    match pm.freeFrame.find with
    | (some frame, freeFrame) =>
        (sp.fillFrame pm.mainMemory pageNumber frame).map fun (mem, sp) =>
          (true, ⟨mem, freeFrame⟩, sp)
    | (none, freeFrame) =>
        let (frame, sp) := sp.swapOut pm.mainMemory
        if frame = -1 then some (false, ⟨pm.mainMemory, freeFrame⟩, sp)
        else
          (sp.fillFrame pm.mainMemory pageNumber frame.toNat).map fun (mem, sp) =>
            (true, ⟨mem, freeFrame⟩, sp)

/-- The destructor gives the frames back; `Clear` aborts on a bad index. -/
def AddrSpace.destroy (sp : AddrSpace) (freeFrame : BitMap) : Option BitMap :=
  (List.range sp.numPages).foldlM (fun b i =>
    let physicalPage := (sp.pageTable i).physicalPage
    if physicalPage ≠ -1 ∧ physicalPage ≠ IN_SWAP_FILE then b.clear physicalPage
    else some b) freeFrame

end OsAssignments.MemoryManagement
