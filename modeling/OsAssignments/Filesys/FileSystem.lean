import OsAssignments.Filesys.Directory
import OsAssignments.Filesys.OpenFileTable

/-!
# The file system

`FileSystem` of `filesys/filesys.cc`: two open files, for the bitmap of free
sectors and for the root directory, and the sector of the header of the current
directory. Every operation reads the current directory and the bitmap from the
disk and writes them back when it succeeds.

An operation on directories is `none` where an `ASSERT` aborts; otherwise it comes
with its result. `junk` is the memory it allocates and does not initialise.
-/

namespace OsAssignments.Filesys

def FreeMapSector : ℕ := 0
def DirectorySector : ℕ := 1
def BitsInByte : ℕ := 8
def FreeMapFileSize : ℕ := NumSectors / BitsInByte
def NumDirEntries : ℕ := 10
def DirectoryFileSize : ℕ := entrySize * NumDirEntries

structure FileSystem where
  disk : Disk
  freeMapFile : OpenFile
  directoryFile : OpenFile
  cdSector : ℤ
  openFileTable : OpenFileTable
  heap : Heap

namespace FileSystem

/-! ## §1  The constructor -/

/-- `format = TRUE`: the disk and the bitmap as the new system finds them. -/
def formatDisk (disk : Disk) (junk : ℕ → ByteMem) :
    Option (Disk × OpenFile × OpenFile) := do
  let freeMap ← (BitMap.new NumSectors).mark FreeMapSector
  let freeMap ← freeMap.mark DirectorySector
  match (FileHeader.mk (junk 0)).allocate freeMap FreeMapFileSize with
  | (false, _, _) => none
  | (true, freeMap, mapHdr) =>
    match (FileHeader.mk (junk 1)).allocate freeMap DirectoryFileSize with
    | (false, _, _) => none
    | (true, freeMap, dirHdr) =>
      let disk ← mapHdr.writeBack disk FreeMapSector
      let disk ← dirHdr.writeBack disk DirectorySector
      let freeMapFile ← OpenFile.new disk FreeMapSector
      let directoryFile ← OpenFile.new disk DirectorySector
      let disk ← freeMap.writeBack disk freeMapFile (junk 2)
      let disk ← (Directory.new NumDirEntries (junk 3)).writeBack disk directoryFile (junk 4)
      some (disk, freeMapFile, directoryFile)

def new (format : Bool) (disk : Disk) (junk : ℕ → ByteMem) : Option FileSystem := do
  let (disk, freeMapFile, directoryFile) ←
    if format then formatDisk disk junk
    else do
      let freeMapFile ← OpenFile.new disk FreeMapSector
      let directoryFile ← OpenFile.new disk DirectorySector
      some (disk, freeMapFile, directoryFile)
  some {
    disk, freeMapFile, directoryFile
    cdSector := DirectorySector
    openFileTable := OpenFileTable.new fun i => ((junk 5).word (4 * i)).toNat
    heap := Heap.empty }

/-! ## §2  Directories and files -/

/-- The table of the directory with header in `sector`, with the open file. -/
def openDirectory (disk : Disk) (sector : ℤ) (junk junk' : ByteMem) :
    Option (OpenFile × Directory) := do
  let file ← OpenFile.new disk sector
  let directory ← (Directory.new NumDirEntries junk).fetchFrom disk file junk'
  some (file, directory)

def changeDirectory (fs : FileSystem) (name : CString) (junk : ℕ → ByteMem) :
    Option (Bool × FileSystem) := do
  let (_, cdir) ← openDirectory fs.disk fs.cdSector (junk 0) (junk 1)
  let targetDirSector := cdir.findDirectory name
  if targetDirSector = -1 then some (false, fs)
  else some (true, { fs with cdSector := targetDirSector })

/-- The entries `.` and `..` of the directory with header in `sector`. -/
def addLinks (disk : Disk) (sector cdSector : ℤ) (junk junk' : ByteMem) :
    Option Disk := do
  let newDir := Directory.new NumDirEntries junk
  let newDirFile ← OpenFile.new disk sector
  let (_, newDir) := newDir.add dot sector true
  let (_, newDir) := newDir.add dotDot cdSector true
  newDir.writeBack disk newDirFile junk'

def create (fs : FileSystem) (name : CString) (initialSize : ℤ) (isDirectory : Bool)
    (junk : ℕ → ByteMem) : Option (Bool × FileSystem) := do
  let (currentDirFile, directory) ←
    openDirectory fs.disk fs.cdSector (junk 0) (junk 1)
  if directory.find name ≠ -1 then some (false, fs)
  else if directory.findDirectory name ≠ -1 then some (false, fs)
  else
    let freeMap ← (BitMap.new NumSectors).fetchFrom fs.disk fs.freeMapFile (junk 2)
    match freeMap.find with
    | (none, _) => some (false, fs)
    | (some sector, freeMap) =>
      match directory.add name sector isDirectory with
      | (false, _) => some (false, fs)
      | (true, directory) =>
        match (FileHeader.mk (junk 3)).allocate freeMap initialSize with
        | (false, _, _) => some (false, fs)
        | (true, freeMap, hdr) =>
          let disk ← hdr.writeBack fs.disk sector
          let disk ← directory.writeBack disk currentDirFile (junk 4)
          let disk ← freeMap.writeBack disk fs.freeMapFile (junk 5)
          let disk ←
            if isDirectory then addLinks disk sector fs.cdSector (junk 6) (junk 7)
            else some disk
          some (true, { fs with disk })

def createDirectory (fs : FileSystem) (name : CString) (junk : ℕ → ByteMem) :
    Option (Bool × FileSystem) :=
  fs.create name DirectoryFileSize true junk

/-- A directory that is not empty is not removed. -/
def isFull (disk : Disk) (sector : ℤ) (isDirectory : Bool) (junk junk' : ByteMem) :
    Option Bool :=
  if isDirectory then
    (openDirectory disk sector junk junk').map fun (_, targetDir) => !targetDir.isEmpty
  else some false

def remove (fs : FileSystem) (name : CString) (junk : ℕ → ByteMem) :
    Option (Bool × FileSystem) := do
  let (cdirFile, cdir) ← openDirectory fs.disk fs.cdSector (junk 0) (junk 1)
  let sector := cdir.find name
  if sector = -1 then some (false, fs)
  else
    let isDirectory : Bool := cdir.findDirectory name ≠ -1
    let fileHdr ← FileHeader.fetchFrom fs.disk sector
    let freeMap ← (BitMap.new NumSectors).fetchFrom fs.disk fs.freeMapFile (junk 2)
    let full ← isFull fs.disk sector isDirectory (junk 3) (junk 4)
    if full then some (false, fs)
    else
      let freeMap ← fileHdr.deallocate freeMap
      let freeMap ← freeMap.clear sector
      let (_, cdir) := cdir.remove name
      let disk ← freeMap.writeBack fs.disk fs.freeMapFile (junk 5)
      let disk ← cdir.writeBack disk cdirFile (junk 6)
      some (true, { fs with disk })

/-! ## §3  Open files -/

/-- The sector that `Open` finds: of an entry that is not a directory. -/
def findPlain (fs : FileSystem) (name : CString) (junk : ℕ → ByteMem) :
    Option (Option ℤ) := do
  let (_, cdir) ← openDirectory fs.disk fs.cdSector (junk 0) (junk 1)
  let sector := cdir.find name
  if sector ≥ 0 ∧ cdir.findDirectory name = -1 then some (some sector) else some none

/-- `Open`, once it has found a file with header in `sector`. -/
def openFound (fs : FileSystem) (name : CString) (sector : ℤ) (junk : ℕ → ByteMem) :
    Except Fault (Option ℕ × FileSystem) := do
  let (openFile, heap) := fs.heap.newFile (← orAbort (OpenFile.new fs.disk sector))
  let fileIndex ← fs.openFileTable.findFile heap sector
  if fileIndex ≠ -1 then
    let slot := fs.openFileTable.table fileIndex.toNat
    let h ← heap.deref slot
    .ok (some slot.ptr, { fs with heap := heap.setUseCount slot.ptr h (h.useCount + 1) })
  else
    let (p, heap) := heap.newHandle name true openFile ((junk 2).word 0).toInt
    let (added, openFileTable, heap) ← fs.openFileTable.addFile heap p
      ⟨name, ((junk 2).word 0).toInt, true, openFile, 0, 1⟩
    .ok (if added then some p else none, { fs with openFileTable, heap })

/-- `Open`: the handle, or `none` for `NULL`. -/
def openFile (fs : FileSystem) (name : CString) (junk : ℕ → ByteMem) :
    Except Fault (Option ℕ × FileSystem) := do
  match ← orAbort (fs.findPlain name junk) with
  | none => .ok (none, fs)
  | some sector => fs.openFound name sector junk

def close (fs : FileSystem) (file : ℕ) : Except Fault FileSystem :=
  (fs.openFileTable.removeFile fs.heap file).map fun (_, openFileTable, heap) =>
    { fs with openFileTable, heap }

def closeAll (fs : FileSystem) : Except Fault FileSystem :=
  (fs.openFileTable.removeAllFiles fs.heap).map fun (_, openFileTable, heap) =>
    { fs with openFileTable, heap }

def touchOpenedFiles (fs : FileSystem) (modif : CString) (junk : ByteMem) :
    Except Fault FileSystem :=
  (fs.openFileTable.touchWriteableFiles fs.heap modif junk fs.disk).map fun disk =>
    { fs with disk }

/-! ## §4  Runs -/

/-- The calls that change the tree of directories, with the memory they find. -/
inductive Act where
  | create (name : CString) (initialSize : ℤ) (isDirectory : Bool)
  | createDirectory (name : CString)
  | changeDirectory (name : CString)
  | remove (name : CString)

/-- A call that returns, with its result. -/
def call (fs : FileSystem) : Act → (ℕ → ByteMem) → Option (Bool × FileSystem)
  | .create name initialSize isDirectory, junk =>
    fs.create name initialSize isDirectory junk
  | .createDirectory name, junk => fs.createDirectory name junk
  | .changeDirectory name, junk => fs.changeDirectory name junk
  | .remove name, junk => fs.remove name junk

def step (fs : FileSystem) (a : Act × (ℕ → ByteMem)) : Option FileSystem :=
  (fs.call a.1 a.2).map Prod.snd

end FileSystem

end OsAssignments.Filesys
