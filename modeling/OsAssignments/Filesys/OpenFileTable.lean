import Mathlib.Logic.Function.Basic
import OsAssignments.Lib.CString
import OsAssignments.Filesys.OpenFile

/-!
# The table of open files

`FileHandle` and `OpenFileTable` of `filesys/filesys.cc`. Handles and open files
are objects at addresses; `NULL` is address 0. The constructor of the table
allocates the array of slots and sets none of them, and the constructor of a
handle does not set its `sector`: what these hold is chosen by the caller.

A call that does not return says why: an `ASSERT` of the disk aborts, or a slot
that is unset or `NULL` is dereferenced.
-/

namespace OsAssignments.Filesys

/-! ## §1  Handles -/

inductive Fault where
  | assertion
  | slot
  deriving DecidableEq

def orAbort {α : Type} : Option α → Except Fault α
  | some x => .ok x
  | none => .error .assertion

structure FileHandle where
  name : CString
  sector : ℤ
  writeable : Bool
  file : ℕ
  position : ℤ
  useCount : ℤ

/-- The objects that `new` has made and `delete` has not freed. -/
structure Heap where
  handles : ℕ → Option FileHandle
  files : ℕ → Option OpenFile
  next : ℕ

namespace Heap

/-- Addresses start after `NULL`. -/
def empty : Heap := ⟨fun _ => none, fun _ => none, 1⟩

def newFile (heap : Heap) (file : OpenFile) : ℕ × Heap :=
  (heap.next, { heap with
    files := Function.update heap.files heap.next (some file)
    next := heap.next + 1 })

/-- The constructor; `sector` is what the memory held. -/
def newHandle (heap : Heap) (name : CString) (writeable : Bool) (file : ℕ)
    (sector : ℤ) : ℕ × Heap :=
  (heap.next, { heap with
    handles := Function.update heap.handles heap.next
      (some ⟨name, sector, writeable, file, 0, 1⟩)
    next := heap.next + 1 })

def setUseCount (heap : Heap) (p : ℕ) (h : FileHandle) (count : ℤ) : Heap :=
  { heap with
    handles := Function.update heap.handles p (some { h with useCount := count }) }

/-- The destructor deletes the open file. -/
def deleteHandle (heap : Heap) (p : ℕ) (h : FileHandle) : Heap :=
  { heap with
    handles := Function.update heap.handles p none
    files := Function.update heap.files h.file none }

end Heap

/-! ## §2  The table -/

def OpenFileTableSize : ℕ := 10

/-- `set` is ghost: an unset slot holds some pointer too. -/
structure Slot where
  ptr : ℕ
  set : Bool

def Slot.null : Slot := ⟨0, true⟩

def Slot.Occupied (slot : Slot) : Prop := slot.set = true ∧ slot.ptr ≠ 0

instance (slot : Slot) : Decidable slot.Occupied := inferInstanceAs (Decidable (_ ∧ _))

/-- The handle that a slot points to. -/
def Heap.deref (heap : Heap) (slot : Slot) : Except Fault FileHandle :=
  if slot.Occupied then
    match heap.handles slot.ptr with
    | some h => .ok h
    | none => .error .slot
  else .error .slot

structure OpenFileTable where
  table : ℕ → Slot
  count : ℤ

namespace OpenFileTable

def new (junk : ℕ → ℕ) : OpenFileTable := ⟨fun i => ⟨junk i, false⟩, 0⟩

def setSlot (t : OpenFileTable) (i : ℕ) (slot : Slot) : OpenFileTable :=
  { t with table := Function.update t.table i slot }

/-- The loop of `FindFile` over the slots `l`. -/
def findFileLoop (t : OpenFileTable) (heap : Heap) (sector : ℤ) : List ℕ → Except Fault ℤ
  | [] => .ok (-1)
  | i :: l => do
    let h ← heap.deref (t.table i)
    if h.useCount > 0 ∧ h.sector = sector then .ok i
    else findFileLoop t heap sector l

def findFile (t : OpenFileTable) (heap : Heap) (sector : ℤ) : Except Fault ℤ :=
  findFileLoop t heap sector (List.range OpenFileTableSize)

def addFileLoop (t : OpenFileTable) (heap : Heap) (p : ℕ) (file : FileHandle) :
    List ℕ → Except Fault (Bool × OpenFileTable × Heap)
  | [] => .ok (false, t, heap)
  | i :: l =>
    if (t.table i).ptr = 0 then
      .ok (true, { t.setSlot i ⟨p, true⟩ with count := t.count + 1 }, heap)
    else do
      let h ← heap.deref (t.table i)
      if h.file = file.file then
        .ok (true, t, heap.setUseCount (t.table i).ptr h (h.useCount + 1))
      else addFileLoop t heap p file l

def addFile (t : OpenFileTable) (heap : Heap) (p : ℕ) (file : FileHandle) :
    Except Fault (Bool × OpenFileTable × Heap) :=
  if t.count ≥ OpenFileTableSize then .ok (false, t, heap)
  else addFileLoop t heap p file (List.range OpenFileTableSize)

def removeFileLoop (t : OpenFileTable) (heap : Heap) (p : ℕ) :
    List ℕ → Except Fault (Bool × OpenFileTable × Heap)
  | [] => .ok (false, t, heap)
  | i :: l =>
    if (t.table i).ptr = p then do
      let h ← heap.deref (t.table i)
      if h.useCount > 1 then
        .ok (true, t, heap.setUseCount p h (h.useCount - 1))
      else
        .ok (true, { t.setSlot i Slot.null with count := t.count - 1 },
          heap.deleteHandle p h)
    else removeFileLoop t heap p l

def removeFile (t : OpenFileTable) (heap : Heap) (p : ℕ) :
    Except Fault (Bool × OpenFileTable × Heap) :=
  removeFileLoop t heap p (List.range OpenFileTableSize)

/-- Only the handles with more than one user are deleted. -/
def removeAllFilesLoop (t : OpenFileTable) (heap : Heap) :
    List ℕ → Except Fault (OpenFileTable × Heap)
  | [] => .ok (t, heap)
  | i :: l => do
    let h ← heap.deref (t.table i)
    if h.useCount > 1 then
      removeAllFilesLoop (t.setSlot i Slot.null) (heap.deleteHandle (t.table i).ptr h) l
    else removeAllFilesLoop t heap l

def removeAllFiles (t : OpenFileTable) (heap : Heap) :
    Except Fault (Bool × OpenFileTable × Heap) :=
  (removeAllFilesLoop t heap (List.range OpenFileTableSize)).map fun (t, heap) =>
    (true, { t with count := 0 }, heap)

/-- Writes `modif` at the start of each file that is open for writing. -/
def touchWriteableFilesLoop (t : OpenFileTable) (heap : Heap) (modif : CString)
    (junk : ByteMem) : List ℕ → Disk → Except Fault Disk
  | [], disk => .ok disk
  | i :: l, disk => do
    let h ← heap.deref (t.table i)
    if h.useCount > 0 ∧ h.writeable = true then
      let file ← orAbort (heap.files h.file)
      let (_, disk) ← orAbort (file.writeAt disk junk modif.mem modif.chars.length 0)
      touchWriteableFilesLoop t heap modif junk l disk
    else touchWriteableFilesLoop t heap modif junk l disk

def touchWriteableFiles (t : OpenFileTable) (heap : Heap) (modif : CString)
    (junk : ByteMem) (disk : Disk) : Except Fault Disk :=
  touchWriteableFilesLoop t heap modif junk (List.range OpenFileTableSize) disk

end OpenFileTable

end OsAssignments.Filesys
