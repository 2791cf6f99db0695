import Mathlib.Logic.Function.Basic
import OsAssignments.Lib.Bytes

/-!
# Open files, with `FILESYS_STUB`

`filesys/openfile.h`, the same file in the process-management and the memory-management
tree: each operation is one of UNIX, through `machine/sysdep.cc`. A kernel buffer is a
memory that is read and written from 0.
-/

namespace OsAssignments.FilesysStub

/-- The UNIX files that descriptors are open on. -/
abbrev UnixFiles : Type := ℕ → RandomAccessFile

structure OpenFile where
  file : ℕ
  currentOffset : ℕ
deriving DecidableEq, Repr

namespace OpenFile

variable (files : UnixFiles) (f : OpenFile)

/-- How many bytes are behind `position`. -/
def remaining (position : ℕ) : ℕ := (files f.file).size - position

/-- `ReadAt`: how many bytes were read, and the buffer. -/
def readAt (into : ByteMem) (numBytes position : ℕ) : ℕ × ByteMem :=
  let bytes := (files f.file).fread position numBytes
  (bytes.length, into.write 0 bytes)

def writeAt (source : ByteMem) (numBytes position : ℕ) : ℕ × UnixFiles :=
  (numBytes, Function.update files f.file
    ((files f.file).fwrite position (source.read 0 numBytes)))

def read (into : ByteMem) (numBytes : ℕ) : ℕ × ByteMem × OpenFile :=
  let (numRead, into) := f.readAt files into numBytes f.currentOffset
  (numRead, into, { f with currentOffset := f.currentOffset + numRead })

def write (source : ByteMem) (numBytes : ℕ) : ℕ × UnixFiles × OpenFile :=
  let (numWritten, files) := f.writeAt files source numBytes f.currentOffset
  (numWritten, files, { f with currentOffset := f.currentOffset + numWritten })

variable {files f} {numBytes position i : ℕ} (into : ByteMem)

@[simp] theorem readAt_fst : (f.readAt files into numBytes position).1 =
    min numBytes (f.remaining files position) := RandomAccessFile.length_fread _ _ _

/-- A byte that was read. -/
theorem readAt_snd_lt (h : i < min numBytes (f.remaining files position)) :
    (f.readAt files into numBytes position).2 i = (files f.file).data (position + i) := by
  have hlen := RandomAccessFile.length_fread (files f.file) position numBytes
  have hbyte := ByteMem.write_inside into 0 i ((files f.file).fread position numBytes)
    (by rw [hlen]; exact h)
  rw [Nat.zero_add] at hbyte
  exact hbyte.trans (ByteMem.getD_read _ _ _ _ h)

/-- The rest of the buffer. -/
theorem readAt_snd_ge (h : min numBytes (f.remaining files position) ≤ i) :
    (f.readAt files into numBytes position).2 i = into i := by
  refine ByteMem.write_outside _ _ _ _ (Or.inr ?_)
  rw [Nat.zero_add, RandomAccessFile.length_fread]
  exact h

end OpenFile

/-- The objects of class `OpenFile`, by address. `new` returns neither `NULL` nor the
value that stands for the console. -/
structure OpenFiles where
  object : BitVec 32 → Option OpenFile
  null : object 0 = none
  console : object 1 = none

namespace OpenFiles

def empty : OpenFiles := ⟨fun _ => none, rfl, rfl⟩

/-- A new object at `id`. -/
def add (fs : OpenFiles) (id : { a : BitVec 32 // a ≠ 0 ∧ a ≠ 1 }) (f : OpenFile) :
    OpenFiles where
  object := Function.update fs.object id.val (some f)
  null := by rw [Function.update_of_ne id.property.1.symm, fs.null]
  console := by rw [Function.update_of_ne id.property.2.symm, fs.console]

/-- The object at `id` is changed. -/
def set (fs : OpenFiles) (id : BitVec 32) (f : OpenFile) : OpenFiles where
  object a := (fs.object a).map fun old => if a = id then f else old
  null := by rw [fs.null, Option.map_none]
  console := by rw [fs.console, Option.map_none]

variable {fs : OpenFiles} {id : BitVec 32} {f g : OpenFile}

theorem object_set_self (h : fs.object id = some f) : (fs.set id g).object id = some g := by
  simp [set, h]

theorem ne_zero (h : fs.object id = some f) : id ≠ 0 := by
  rintro rfl
  rw [fs.null] at h
  cases h

theorem ne_one (h : fs.object id = some f) : id ≠ 1 := by
  rintro rfl
  rw [fs.console] at h
  cases h

end OpenFiles

end OsAssignments.FilesysStub
