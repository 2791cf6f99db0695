import OsAssignments.Lib.PartialMachine
import OsAssignments.Filesys.HandleTable

/-!
# An open file can be removed

`Remove` does not look at the table of open files. A handle keeps its header in
memory: once its file is gone and its sectors are those of a file created later, a
write through the handle goes to the new file.

The constructor of the table sets none of its slots. Here each holds the pointer that
its memory holds, and the memory it points to is whatever the caller chooses; so a
slot may hold a handle that is in use from the start, and `Open` returns no other.

- `Session.conforms_of_new` — **the constructor leaves no handle**, and then `Open` of a
  file never returns, no handle is ever live, and every call does as it should.
- `Session.conforms_iff` — **with handles in the slots** the runs in which every call does
  as it should are those that remove no open file.
-/

namespace OsAssignments.Filesys

open Volume PartialMachine

/-! ## §1  Sessions -/

/-- What `Open` returned a handle for: the sector of the header, and the data sectors
that the file had. `there` until `Remove` has removed the file. -/
structure Opened where
  sector : ℕ
  blocks : List ℕ
  there : Bool
deriving DecidableEq

/-- `opened` is a ghost: for each handle that `Open` returned and `Close` has not
deleted, the file that it was last opened on. -/
structure Session where
  fs : FileSystem
  opened : ℕ → Option Opened

inductive HandleAct where
  | create (name : CString) (initialSize : ℤ) (isDirectory : Bool)
  | openFile (name : CString)
  | close (file : ℕ)
  | remove (name : CString)
  | write (file : ℕ) (src : ByteMem) (numBytes : ℤ)
  | writeAt (file : ℕ) (src : ByteMem) (numBytes : ℤ) (position : ℕ)

/-- The handle that a call writes through. -/
def HandleAct.target : HandleAct → Option ℕ
  | .write file _ _ => some file
  | .writeAt file _ _ _ => some file
  | _ => none

/-- Sizes fit in a header, and a directory gets room for its table, as it does from
`CreateDirectory`. -/
def HandleAct.Valid : HandleAct → Prop
  | .create _ initialSize isDirectory =>
    0 ≤ initialSize ∧ initialSize ≤ MaxFileSize ∧
      (isDirectory = true → (DirectoryFileSize : ℤ) ≤ initialSize)
  | _ => True

/-- The slots hold what their memory holds, and `heap` is what there is to point to. -/
def FileSystem.withMemory (fs : FileSystem) (heap : Heap) : FileSystem :=
  { fs with
    openFileTable := { fs.openFileTable with
      table := fun i => ⟨(fs.openFileTable.table i).ptr, true⟩ }
    heap }

/-- The file is gone, if it is the one that `Remove` found. -/
def Opened.removed (o : Opened) (found : Option (Option ℤ)) : Opened :=
  if found = some (some (o.sector : ℤ)) then { o with there := false } else o

/-- The headers are of the same size and list the same sectors. -/
def FileHeader.Same (h h' : FileHeader) : Prop :=
  h.numBytes = h'.numBytes ∧ h.numSectors = h'.numSectors ∧
    ∀ i < h'.numSectors.toNat, h.dataSectors i = h'.dataSectors i

instance (h h' : FileHeader) : Decidable (h.Same h') :=
  inferInstanceAs (Decidable (_ ∧ _ ∧ _))

namespace Session

def start (fs : FileSystem) (heap : Heap) : Session := ⟨fs.withMemory heap, fun _ => none⟩

/-- A call that returns. Writes go through handles that are open. -/
def step (c : Session) : HandleAct × (ℕ → ByteMem) → Option Session
  | (.create name initialSize isDirectory, junk) =>
    (c.fs.create name initialSize isDirectory junk).map fun (_, fs) => { c with fs }
  | (.openFile name, junk) =>
    match c.fs.findPlain name junk, c.fs.openFile name junk with
    | some (some sector), .ok (some file, fs) =>
      some ⟨fs, Function.update c.opened file
        (some ⟨sector.toNat, blocksOf (headerOf c.fs.disk sector.toNat), true⟩)⟩
    | _, .ok (_, fs) => some { c with fs }
    | _, .error _ => none
  | (.close file, _) =>
    match c.fs.close file with
    | .ok fs =>
      some ⟨fs, if (fs.heap.handles file).isSome then c.opened
        else Function.update c.opened file none⟩
    | .error _ => none
  | (.remove name, junk) =>
    (c.fs.remove name junk).map fun (removed, fs) =>
      ⟨fs, if removed then fun file =>
          (c.opened file).map fun o => o.removed (c.fs.findPlain name junk)
        else c.opened⟩
  | (.write file src numBytes, junk) =>
    if (c.opened file).isSome then
      (c.fs.write file src numBytes (junk 0)).map fun (_, fs) => { c with fs }
    else none
  | (.writeAt file src numBytes position, junk) =>
    if (c.opened file).isSome then
      (c.fs.writeAt file src numBytes position (junk 0)).map fun (_, fs) => { c with fs }
    else none

/-! ## §2  What should hold -/

/-- The handle is open on `o`: `Open` returned it, and a slot holds it, in use. -/
def IsOpen (c : Session) (file : ℕ) (o : Opened) : Prop :=
  c.opened file = some o ∧
    (∃ i < OpenFileTableSize, (c.fs.openFileTable.table i).Occupied ∧
      (c.fs.openFileTable.table i).ptr = file) ∧
    ∃ h, c.fs.heap.handles file = some h ∧ 0 < h.useCount

/-- The call removes a file that a handle is open on. -/
def RemovesOpen (c : Session) (a : HandleAct × (ℕ → ByteMem)) : Prop :=
  ∃ name file o, a.1 = .remove name ∧ c.IsOpen file o ∧ o.there = true ∧
    c.fs.findPlain name a.2 = some (some (o.sector : ℤ))

/-- Of the disk only data sectors of the file are changed, and none that another file
or directory uses. -/
def ChangesOnly (disk disk' : Disk) (o : Opened) : Prop :=
  SameOff (· ∈ o.blocks) disk disk' ∧
    ∀ r, (volume disk).Live r → ¬ (o.there = true ∧ (volume disk).header r = o.sector) →
      ∀ x, x / SectorSize ∈ (volume disk).sectors r → disk' x = disk x

/-- **The call does as it should**: a file that is open is not removed, and a write
through a handle changes the file that the handle was opened on. -/
structure Conforms (c : Session) (a : HandleAct × (ℕ → ByteMem)) : Prop where
  remove : ∀ name, a.1 = .remove name → c.RemovesOpen a →
    c.fs.remove name a.2 = some (false, c.fs)
  write : ∀ file o c', a.1.target = some file → c.IsOpen file o → c.step a = some c' →
    ChangesOnly c.fs.disk c'.fs.disk o

/-- What the slots hold in use for the sector that `Open` finds is a handle on the file
there. -/
def SlotsMatch (c : Session) : HandleAct × (ℕ → ByteMem) → Prop
  | (.openFile name, junk) =>
    ∀ found ∈ c.fs.findPlain name junk, ∀ sector ∈ found, ∀ i < OpenFileTableSize,
      ∀ h ∈ c.fs.heap.handles (c.fs.openFileTable.table i).ptr, 0 < h.useCount →
        h.sector = sector → ∀ f ∈ c.fs.heap.files h.file,
          f.hdr.Same (headerOf c.fs.disk sector.toNat) ∧ 0 ≤ f.seekPosition
  | _ => True

instance (c : Session) : DecidablePred c.SlotsMatch
  | (.openFile _, _) => inferInstanceAs (Decidable (∀ _ ∈ _, ∀ _ ∈ _, ∀ _ < _, ∀ _ ∈ _, _))
  | (.create _ _ _, _) => .isTrue trivial
  | (.close _, _) => .isTrue trivial
  | (.remove _, _) => .isTrue trivial
  | (.write _ _ _, _) => .isTrue trivial
  | (.writeAt _ _ _ _, _) => .isTrue trivial

/-! ## §3  The invariant -/

/-- `o` is a file of the volume, in the root. -/
def OnVolume (v : Volume) (o : Opened) : Prop :=
  ∃ i, v.Live (.entry DirectorySector i) ∧ (v.entry DirectorySector i).isDirectory = false ∧
    v.header (.entry DirectorySector i) = o.sector ∧ v.blocks o.sector = o.blocks

/-- `hdr` is a header of `o`. -/
def Describes (hdr : FileHeader) (o : Opened) : Prop :=
  ∃ len, hdr.Fits len ∧ blocksOf hdr = o.blocks ∧ o.blocks.length = divRoundUp len SectorSize

/-- The handle is in the table, with a header of `o`, and `o` is there. -/
structure Holds (fs : FileSystem) (file : ℕ) (o : Opened) : Prop where
  there : o.there = true
  slot : ∃ i < OpenFileTableSize, (fs.openFileTable.table i).Occupied ∧
    (fs.openFileTable.table i).ptr = file
  handle : ∃ h, fs.heap.handles file = some h ∧ 0 < h.useCount ∧
    ∀ f, fs.heap.files h.file = some f → Describes f.hdr o
  onVolume : OnVolume (volume fs.disk) o

structure Inv (c : Session) : Prop where
  sound : c.fs.Sound
  root : c.fs.cdSector = DirectorySector
  sized : (volume c.fs.disk).Sized
  allocated : c.fs.heap.Allocated
  holds : ∀ file o, c.opened file = some o → Holds c.fs file o

variable {c c' : Session} {fs fs' : FileSystem} {file : ℕ} {o : Opened}

theorem Holds.isOpen (h : Holds c.fs file o) (ho : c.opened file = some o) :
    c.IsOpen file o := by
  obtain ⟨g, hg, hcount, -⟩ := h.handle
  exact ⟨ho, h.slot, g, hg, hcount⟩

/-- The rest of the state can change. -/
theorem Holds.keeps (h : Holds fs file o) (hheap : fs.heap.Keeps fs'.heap file)
    (hslots : ∀ i < OpenFileTableSize, (fs.openFileTable.table i).ptr = file →
      fs'.openFileTable.table i = fs.openFileTable.table i)
    (hvolume : OnVolume (volume fs'.disk) o) : Holds fs' file o where
  there := h.there
  slot := by
    obtain ⟨i, hi, hocc, hptr⟩ := h.slot
    refine ⟨i, hi, ?_⟩
    rw [hslots i hi hptr]
    exact ⟨hocc, hptr⟩
  handle := by
    obtain ⟨g, hg, hcount, hhdr⟩ := h.handle
    obtain ⟨g', hg', hfile, hcount', hhdr'⟩ := hheap g hg
    refine ⟨g', hg', hcount' hcount, ?_⟩
    intro f' hf'
    rw [hfile] at hf'
    obtain ⟨f, hf, heq⟩ := hhdr' f' hf'
    rw [← heq]
    exact hhdr f hf
  onVolume := hvolume

/-- A header of the same size and sectors as the one on the disk. -/
theorem describes_of_same {disk : Disk} {hdr : FileHeader} (hv : (volume disk).Sound)
    (hsized : (volume disk).Sized) {r : Ref} (hr : (volume disk).Live r) {s : ℕ}
    (hheader : (volume disk).header r = s) (hsame : hdr.Same (headerOf disk s)) :
    Describes hdr ⟨s, blocksOf (headerOf disk s), true⟩ := by
  subst hheader
  obtain ⟨len, hsize⟩ := hsized r hr
  have hfits := hv.fits hr hsize
  obtain ⟨hbytes, hnum, hdata⟩ := hsame
  have hlength : (headerOf disk ((volume disk).header r)).numSectors.toNat =
      divRoundUp len SectorSize := by
    rw [← length_blocksOf]
    exact hsize.2
  have hdata' : ∀ i < divRoundUp len SectorSize,
      hdr.dataSectors i = (headerOf disk ((volume disk).header r)).dataSectors i :=
    fun i hi => hdata i (by omega)
  refine ⟨len, ⟨hbytes.trans hfits.numBytes, ?_, ?_⟩, ?_, ?_⟩
  · intro i hi
    rw [hdata' i hi]
    exact hfits.onDisk i hi
  · intro i j hi hj heq
    rw [hdata' i hi, hdata' j hj] at heq
    exact hfits.inj i j hi hj heq
  · rw [blocksOf, blocksOf, hnum]
    refine List.map_congr_left fun i hi => ?_
    rw [hdata i (List.mem_range.mp hi)]
  · rw [length_blocksOf]
    exact hlength

/-! ## §4  The volume under an open file -/

theorem OnVolume.created {v v' : Volume} {i sector initialSize : ℕ} {l : List ℕ}
    {name : List Byte} {isDirectory : Bool} (ho : OnVolume v o)
    (h : Created v v' DirectorySector i sector l initialSize name isDirectory) (hv : v.Sound) :
    OnVolume v' o := by
  obtain ⟨j, hlive, hplain, hheader, hblocks⟩ := ho
  have hentry : v'.entry DirectorySector j = v.entry DirectorySector j := by
    refine h.same_entry _ j hlive.1 hlive.2.1 ?_
    rintro ⟨-, rfl⟩
    exact h.not_live_new hlive
  refine ⟨j, (h.live_iff hv RootedTree.Reach.root).mpr (.inl hlive), ?_, ?_, ?_⟩
  · rw [hentry]
    exact hplain
  · rw [h.header_same hlive]
    exact hheader
  · rw [← hblocks, ← hheader]
    exact (h.same_file _ hlive).2

theorem OnVolume.removed {v v' : Volume} {i : ℕ} (h : Removed v v' DirectorySector i)
    (hlive : ∀ r, v.Live r → r ≠ .entry DirectorySector i → v'.Live r) {j : ℕ} (hne : j ≠ i)
    (hj : v.Live (.entry DirectorySector j))
    (hplain : (v.entry DirectorySector j).isDirectory = false)
    (hheader : v.header (.entry DirectorySector j) = o.sector)
    (hblocks : v.blocks o.sector = o.blocks) : OnVolume v' o := by
  have hentry : v'.entry DirectorySector j = v.entry DirectorySector j :=
    h.same_entry _ j hj.1 hj.2.1 fun heq => hne heq.2
  have href : Ref.entry DirectorySector j ≠ .entry DirectorySector i :=
    fun heq => hne (Ref.entry.inj heq).2
  refine ⟨j, hlive _ hj href, ?_, ?_, ?_⟩
  · rw [hentry]
    exact hplain
  · rw [h.header_same hj href]
    exact hheader
  · rw [← hblocks, ← hheader]
    exact (h.same_file _ hj).2

theorem OnVolume.untouched {v v' : Volume} (ho : OnVolume v o) (h : Untouched v v') :
    OnVolume v' o := by
  obtain ⟨j, hlive, hplain, hheader, hblocks⟩ := ho
  refine ⟨j, h.live_iff.mpr hlive, ?_, ?_, ?_⟩
  · rw [h.same_entry _ j hlive.1 hlive.2.1]
    exact hplain
  · rw [h.header_same hlive]
    exact hheader
  · rw [← hblocks, ← hheader]
    exact (h.same_file _ hlive).2

/-- What `Open` and `Remove` find under a name in the root. -/
theorem findPlain_cases (h : fs.Sound) (hroot : fs.cdSector = DirectorySector)
    (name : CString) (junk : ℕ → ByteMem) :
    (fs.findPlain name junk = some none ∧ ∀ i,
      FileSystem.Named (volume fs.disk) DirectorySector i (key name) →
        ((volume fs.disk).entry DirectorySector i).isDirectory = true) ∨
    ∃ i, FileSystem.Named (volume fs.disk) DirectorySector i (key name) ∧
      ((volume fs.disk).entry DirectorySector i).isDirectory = false ∧
      (volume fs.disk).Live (.entry DirectorySector i) ∧
      fs.findPlain name junk =
        some (some (((volume fs.disk).header (.entry DirectorySector i) : ℕ) : ℤ)) := by
  have hcd : fs.cdSector.toNat = DirectorySector := by
    rw [hroot, Int.toNat_natCast]
  obtain ⟨d, hopen, hsize, hentry⟩ := h.openDirectory (junk 0) (junk 1)
  rw [hcd] at hentry
  simp only [FileSystem.findPlain, hopen, Option.bind_eq_bind, Option.bind_some]
  rcases FileSystem.findIndex_cases hsize hentry name with
    ⟨i, hi, hlt, huse, hname⟩ | ⟨hnone, hall⟩
  · have hnamed : FileSystem.Named (volume fs.disk) DirectorySector i (key name) :=
      ⟨hlt, huse, hname⟩
    have hlive : (volume fs.disk).Live (.entry DirectorySector i) :=
      ⟨RootedTree.Reach.root, hlt, huse, fun hlink => hlink.1 rfl⟩
    have hsector := h.volume.exact.sector_eq hlive
    rw [Directory.find_eq hi, Directory.findDirectory_eq hi, hentry i hlt, hsector]
    cases hdir : ((volume fs.disk).entry DirectorySector i).isDirectory with
    | true =>
        refine .inl ⟨if_neg (by simp), fun j hj => ?_⟩
        obtain rfl := hnamed.unique h.volume RootedTree.Reach.root hj
        exact hdir
    | false => exact .inr ⟨i, hnamed, hdir, hlive, if_pos ⟨by omega, rfl⟩⟩
  · rw [Directory.find_none hnone]
    exact .inl ⟨if_neg (by simp), fun i hi => absurd hi.2.2 (hall i hi.1 hi.2.1)⟩

/-- **`Remove` of a file** that exists succeeds, whoever has it open. -/
theorem remove_of_findPlain (h : fs.Sound) (hroot : fs.cdSector = DirectorySector)
    {name : CString} {junk : ℕ → ByteMem} {sector : ℤ}
    (hfind : fs.findPlain name junk = some (some sector)) :
    ∃ fs', fs.remove name junk = some (true, fs') := by
  have hcd : fs.cdSector.toNat = DirectorySector := by
    rw [hroot, Int.toNat_natCast]
  rcases findPlain_cases h hroot name junk with ⟨hnone, -⟩ | ⟨i, hnamed, hplain, -, -⟩
  · rw [hnone] at hfind
    cases hfind
  · rcases FileSystem.remove_cases h name junk with ⟨-, hfull⟩ | ⟨disk', j, -, -, hremove, -⟩
    · rw [hcd] at hfull
      refine absurd ?_ (hfull i hnamed)
      intro hdir
      rw [hplain] at hdir
      cases hdir
    · exact ⟨_, hremove⟩

/-! ## §5  The calls keep the invariant -/

theorem Inv.create (h : c.Inv) {name : CString} {initialSize : ℤ} {isDirectory : Bool}
    (hvalid : (HandleAct.create name initialSize isDirectory).Valid) {junk : ℕ → ByteMem}
    {r : Bool} (hcreate : c.fs.create name initialSize isDirectory junk = some (r, fs')) :
    Inv { c with fs := fs' } := by
  obtain ⟨hnonneg, hmax, hroom⟩ := hvalid
  obtain ⟨n, rfl⟩ := Int.eq_ofNat_of_zero_le hnonneg
  have hroom' : isDirectory = true → DirectoryFileSize ≤ n :=
    fun hdir => by exact_mod_cast hroom hdir
  rcases FileSystem.create_cases h.sound name (by exact_mod_cast hmax) hroom' junk with
    ⟨hfail, -⟩ | ⟨-, disk', i, sector, l, hsucc, hcreated, hmap⟩
  · rw [hfail] at hcreate
    cases hcreate
    exact h
  · rw [hsucc] at hcreate
    cases hcreate
    have hsound := h.sound.created hcreated hmap hroom'
    rw [show c.fs.cdSector.toNat = DirectorySector by rw [h.root, Int.toNat_natCast]] at hcreated
    refine ⟨hsound, h.root, ?_, h.allocated, ?_⟩
    · exact h.sized.created hcreated h.sound.volume RootedTree.Reach.root
    · intro file o ho
      have hold := h.holds file o ho
      exact hold.keeps (Heap.Keeps.refl _ _) (fun _ _ _ => rfl)
        (hold.onVolume.created hcreated h.sound.volume)

theorem Inv.remove (h : c.Inv) {name : CString} {junk : ℕ → ByteMem}
    (hnot : ¬ c.RemovesOpen (.remove name, junk))
    (hstep : c.step (.remove name, junk) = some c') : c'.Inv := by
  have hcd : c.fs.cdSector.toNat = DirectorySector := by
    rw [h.root, Int.toNat_natCast]
  -- the file that is found is not one that is open
  have hfound : ∀ file o, c.opened file = some o →
      c.fs.findPlain name junk ≠ some (some (o.sector : ℤ)) := by
    intro file o ho hfind
    have hold := h.holds file o ho
    exact hnot ⟨name, file, o, rfl, hold.isOpen ho, hold.there, hfind⟩
  obtain ⟨⟨removed, fs'⟩, hremove, rfl⟩ := Option.map_eq_some_iff.mp hstep
  rcases FileSystem.remove_cases h.sound name junk with
    ⟨hfail, -⟩ | ⟨disk', i, hnamed, hremovable, hsucc, hremoved, hmap⟩
  · rw [hfail] at hremove
    cases hremove
    exact h
  · rw [hsucc] at hremove
    cases hremove
    have hord : (volume c.fs.disk).Ordinary c.fs.cdSector.toNat i :=
      ⟨hnamed.1, hnamed.2.1, fun hlink => hlink.1 hcd⟩
    have hsound := h.sound.removed hremoved hmap hord hremovable
    have hlive := fun r => hremoved.live_iff h.sound.volume h.sound.reachable hord hremovable
      (r := r)
    rw [hcd] at hremoved hnamed hlive
    refine ⟨hsound, h.root, ?_, h.allocated, ?_⟩
    · exact h.sized.removed hremoved fun r hr => (hlive r).mp hr
    · intro file o ho
      simp only [if_true] at ho
      obtain ⟨o', ho', rfl⟩ := Option.map_eq_some_iff.mp ho
      have hsame : o'.removed (c.fs.findPlain name junk) = o' := if_neg (hfound file o' ho')
      rw [hsame]
      have hold := h.holds file o' ho'
      obtain ⟨j, hj, hplain, hheader, hblocks⟩ := hold.onVolume
      refine hold.keeps (Heap.Keeps.refl _ _) (fun _ _ _ => rfl) ?_
      refine OnVolume.removed hremoved (fun r hr hne => (hlive r).mpr ⟨hr, hne⟩) ?_ hj hplain
        hheader hblocks
      rintro rfl
      rcases findPlain_cases h.sound h.root name junk with ⟨-, hdir⟩ | ⟨k, hk, -, -, hfind⟩
      · have := hdir j hnamed
        rw [hplain] at this
        cases this
      · obtain rfl := hnamed.unique h.sound.volume RootedTree.Reach.root hk
        rw [hheader] at hfind
        exact hfound file o' ho' hfind

/-- The handles that are open after a `Close` were open before, and are not the one
that was deleted. -/
theorem opened_of_close {opened : ℕ → Option Opened} {b : Bool} {q : ℕ}
    (hq : (if b = true then opened else Function.update opened file none) q = some o) :
    opened q = some o ∧ (b = false → q ≠ file) := by
  cases b with
  | true => exact ⟨hq, (fun hb => by cases hb)⟩
  | false =>
      rw [if_neg (by simp)] at hq
      by_cases hqf : q = file
      · subst hqf
        rw [Function.update_self] at hq
        cases hq
      · rw [Function.update_of_ne hqf] at hq
        exact ⟨hq, fun _ => hqf⟩

/-- A call that leaves the disk alone. -/
theorem Inv.of_disk (h : c.Inv) (hdisk : c'.fs.disk = c.fs.disk)
    (hmap : c'.fs.freeMapFile = c.fs.freeMapFile) (hcd : c'.fs.cdSector = c.fs.cdSector)
    (ha : c'.fs.heap.Allocated)
    (hholds : ∀ q o, c'.opened q = some o → Holds c'.fs q o) : c'.Inv := by
  refine ⟨⟨?_, ?_, ?_, ?_⟩, hcd.trans h.root, ?_, ha, hholds⟩
  · rw [hdisk]
    exact h.sound.volume
  · rw [hmap, hdisk]
    exact h.sound.freeMapFile
  · rw [hcd]
    exact h.sound.cdSector
  · rw [hdisk, hcd]
    exact h.sound.reachable
  · rw [hdisk]
    exact h.sized

theorem Inv.close (h : c.Inv) {junk : ℕ → ByteMem}
    (hstep : c.step (.close file, junk) = some c') : c'.Inv := by
  rw [step] at hstep
  cases hclose : c.fs.close file with
  | error e =>
      rw [hclose] at hstep
      cases hstep
  | ok fs' =>
      rw [hclose] at hstep
      cases hstep
      rcases FileSystem.close_cases hclose with
        rfl | ⟨g, hg, ⟨hcount, rfl⟩ | ⟨i, hi, hptr, rfl⟩⟩
      · refine h.of_disk rfl rfl rfl h.allocated fun q o ho => ?_
        exact h.holds q o (opened_of_close ho).1
      · refine h.of_disk rfl rfl rfl (h.allocated.setUseCount hg _) fun q o ho => ?_
        have hold := h.holds q o (opened_of_close ho).1
        exact hold.keeps (Heap.keeps_setUseCount hg (by omega) q) (fun _ _ _ => rfl)
          hold.onVolume
      · refine h.of_disk rfl rfl rfl (h.allocated.deleteHandle file g) fun q o ho => ?_
        obtain ⟨ho, hne⟩ := opened_of_close ho
        have hqf : q ≠ file := hne (by simp [Heap.deleteHandle])
        have hold := h.holds q o ho
        refine hold.keeps (Heap.keeps_deleteHandle hqf g) ?_ hold.onVolume
        intro j hj hjq
        refine Function.update_of_ne ?_ _ _
        rintro rfl
        exact hqf (hjq.symm.trans hptr)

theorem Inv.openFile (h : c.Inv) {name : CString} {junk : ℕ → ByteMem}
    (hmatch : c.SlotsMatch (.openFile name, junk))
    (hstep : c.step (.openFile name, junk) = some c') : c'.Inv := by
  rw [step] at hstep
  rcases findPlain_cases h.sound h.root name junk with
    ⟨hfind, -⟩ | ⟨i, -, hplain, hlive, hfind⟩
  · rw [hfind, FileSystem.openFile_none hfind] at hstep
    cases hstep
    exact h
  · obtain ⟨sector, hsector⟩ : ∃ sector,
        (volume c.fs.disk).header (.entry DirectorySector i) = sector := ⟨_, rfl⟩
    rw [hsector] at hfind
    rw [hfind, FileSystem.openFile_some hfind] at hstep
    cases hfound : c.fs.openFound name (sector : ℤ) junk with
    | error e =>
        rw [hfound] at hstep
        cases hstep
    | ok r =>
        obtain ⟨file, fs'⟩ := r
        rw [hfound] at hstep
        obtain ⟨f, -, ⟨j, hj, g, hocc, hg, hcount, hgsector, rfl, rfl⟩ | ⟨rfl, rfl⟩⟩ :=
          FileSystem.openFound_cases h.allocated hfound
        · cases hstep
          have hg' : (c.fs.heap.newFile f).2.handles (c.fs.openFileTable.table j).ptr = some g :=
            hg
          have hkeeps : ∀ q, c.fs.heap.Keeps ((c.fs.heap.newFile f).2.setUseCount
              (c.fs.openFileTable.table j).ptr g (g.useCount + 1)) q := fun q =>
            (Heap.keeps_newFile h.allocated f q).trans
              (Heap.keeps_setUseCount hg' (by omega) q)
          refine h.of_disk rfl rfl rfl ((h.allocated.newFile f).setUseCount hg' _) ?_
          intro q o ho
          change Function.update c.opened _ _ q = some o at ho
          by_cases hq : q = (c.fs.openFileTable.table j).ptr
          · subst hq
            rw [Function.update_self] at ho
            cases ho
            rw [Int.toNat_natCast]
            have hold : Holds c.fs (c.fs.openFileTable.table j).ptr
                ⟨sector, blocksOf (headerOf c.fs.disk sector), true⟩ := by
              refine ⟨rfl, ⟨j, hj, hocc, rfl⟩, ⟨g, hg, hcount, ?_⟩,
                ⟨i, hlive, hplain, hsector, rfl⟩⟩
              intro f' hf'
              have hsame := (hmatch _ hfind _ rfl j hj g hg hcount hgsector f' hf').1
              rw [Int.toNat_natCast] at hsame
              exact describes_of_same h.sound.volume h.sized hlive hsector hsame
            exact hold.keeps (hkeeps _) (fun _ _ _ => rfl) hold.onVolume
          · rw [Function.update_of_ne hq] at ho
            have hold := h.holds q o ho
            exact hold.keeps (hkeeps q) (fun _ _ _ => rfl) hold.onVolume
        · cases hstep
          refine h.of_disk rfl rfl rfl ((h.allocated.newFile f).newHandle name true
            (Nat.lt_succ_self _) _) ?_
          intro q o ho
          have hold := h.holds q o ho
          exact hold.keeps ((Heap.keeps_newFile h.allocated f q).trans
            (Heap.keeps_newHandle (h.allocated.newFile f) _ _ _ _ q)) (fun _ _ _ => rfl)
            hold.onVolume

/-! ## §6  Writes -/

/-- What a write through a handle that is open on `o` leaves. -/
structure Wrote (fs fs' : FileSystem) (o : Opened) : Prop where
  disk : SameOff (· ∈ o.blocks) fs.disk fs'.disk
  freeMapFile : fs'.freeMapFile = fs.freeMapFile
  cdSector : fs'.cdSector = fs.cdSector
  table : fs'.openFileTable = fs.openFileTable
  allocated : fs.heap.Allocated → fs'.heap.Allocated
  keeps : ∀ p, fs.heap.Keeps fs'.heap p

theorem Holds.wrote_writeAt (h : Holds fs file o) {src : ByteMem} {numBytes : ℤ}
    {position : ℕ} {junk : ByteMem} {r : ℕ}
    (hwrite : fs.writeAt file src numBytes position junk = some (r, fs')) : Wrote fs fs' o := by
  obtain ⟨g, hg, -, hhdr⟩ := h.handle
  simp only [FileSystem.writeAt, hg, Option.bind_eq_bind, Option.bind_some] at hwrite
  obtain ⟨f, hf, hwrite⟩ := Option.bind_eq_some_iff.mp hwrite
  obtain ⟨len, hfits, hblocks, hlength⟩ := hhdr f hf
  rw [← hblocks] at hlength
  obtain ⟨⟨result, disk'⟩, hcall, heq⟩ := Option.bind_eq_some_iff.mp hwrite
  cases heq
  have hsame := OpenFile.sameOff_of_writeAt hfits hlength hcall
  exact ⟨hblocks ▸ hsame, rfl, rfl, rfl, id, fun p => Heap.Keeps.refl _ p⟩

theorem Holds.wrote_write (h : Holds fs file o) {src : ByteMem} {numBytes : ℤ}
    {junk : ByteMem} {r : ℕ} (hwrite : fs.write file src numBytes junk = some (r, fs')) :
    Wrote fs fs' o := by
  obtain ⟨g, hg, -, hhdr⟩ := h.handle
  simp only [FileSystem.write, hg, Option.bind_eq_bind, Option.bind_some] at hwrite
  obtain ⟨f, hf, hwrite⟩ := Option.bind_eq_some_iff.mp hwrite
  obtain ⟨len, hfits, hblocks, hlength⟩ := hhdr f hf
  rw [← hblocks] at hlength
  obtain ⟨⟨result, disk', f'⟩, hcall, heq⟩ := Option.bind_eq_some_iff.mp hwrite
  cases heq
  obtain ⟨_, hmove, heq⟩ := Option.map_eq_some_iff.mp hcall
  cases heq
  have hsame := OpenFile.sameOff_of_writeAt hfits hlength hmove
  refine ⟨hblocks ▸ hsame, rfl, rfl, rfl, fun ha => ha.setFile _ _, ?_⟩
  exact Heap.keeps_setFile hf (g := { f with seekPosition := f.seekPosition + _ }) rfl

theorem Inv.wrote (h : c.Inv) (ho : c.opened file = some o) (hwrote : Wrote c.fs fs' o) :
    Inv { c with fs := fs' } := by
  obtain ⟨i, hlive, hplain, hheader, hblocks⟩ := (h.holds file o ho).onVolume
  have hsame : SameOff (· ∈ (volume c.fs.disk).blocks
      ((volume c.fs.disk).header (.entry DirectorySector i))) c.fs.disk fs'.disk := by
    rw [hheader, hblocks]
    exact hwrote.disk
  have huntouched := untouched_of_sameOff h.sound.volume hlive hplain hsame
  refine ⟨h.sound.written hlive hplain hsame hwrote.freeMapFile hwrote.cdSector,
    hwrote.cdSector.trans h.root, huntouched.sized h.sized, hwrote.allocated h.allocated, ?_⟩
  intro q o' ho'
  have hold := h.holds q o' ho'
  refine hold.keeps (hwrote.keeps q) ?_ (hold.onVolume.untouched huntouched)
  intro j _ _
  exact congrArg (fun t : OpenFileTable => t.table j) hwrote.table

/-- A file that is there shares no sector with the others. -/
theorem Inv.changesOnly (h : c.Inv) (ho : c.opened file = some o)
    (hwrote : Wrote c.fs fs' o) : ChangesOnly c.fs.disk fs'.disk o := by
  have hold := h.holds file o ho
  obtain ⟨i, hlive, -, hheader, hblocks⟩ := hold.onVolume
  refine ⟨hwrote.disk, ?_⟩
  intro r hr hother x hx
  refine hwrote.disk x fun hmem => ?_
  have hne : r ≠ .entry DirectorySector i := by
    rintro rfl
    exact hother ⟨hold.there, hheader⟩
  refine h.sound.volume.exact.disjoint r _ hr hlive hne _ hx ?_
  rw [sectors, hheader, hblocks]
  exact List.mem_cons_of_mem _ hmem

/-- The calls that write. -/
theorem Inv.step_target (h : c.Inv) {a : HandleAct × (ℕ → ByteMem)}
    (htarget : a.1.target = some file) (hstep : c.step a = some c') :
    ∃ o, c.opened file = some o ∧ Wrote c.fs c'.fs o ∧ c'.opened = c.opened := by
  obtain ⟨act, junk⟩ := a
  cases act with
  | create name initialSize isDirectory => cases htarget
  | openFile name => cases htarget
  | close q => cases htarget
  | remove name => cases htarget
  | write q src numBytes =>
      cases htarget
      rw [step, Option.ite_none_right_eq_some] at hstep
      obtain ⟨ho, hmap⟩ := hstep
      obtain ⟨o, ho⟩ := Option.isSome_iff_exists.mp ho
      obtain ⟨⟨r, fs'⟩, hwrite, rfl⟩ := Option.map_eq_some_iff.mp hmap
      exact ⟨o, ho, (h.holds _ o ho).wrote_write hwrite, rfl⟩
  | writeAt q src numBytes position =>
      cases htarget
      rw [step, Option.ite_none_right_eq_some] at hstep
      obtain ⟨ho, hmap⟩ := hstep
      obtain ⟨o, ho⟩ := Option.isSome_iff_exists.mp ho
      obtain ⟨⟨r, fs'⟩, hwrite, rfl⟩ := Option.map_eq_some_iff.mp hmap
      exact ⟨o, ho, (h.holds _ o ho).wrote_writeAt hwrite, rfl⟩

theorem Inv.step (h : c.Inv) {a : HandleAct × (ℕ → ByteMem)} (hvalid : a.1.Valid)
    (hmatch : c.SlotsMatch a) (hnot : ¬ c.RemovesOpen a) (hstep : c.step a = some c') :
    c'.Inv := by
  have hwrites : ∀ file, a.1.target = some file → c'.Inv := by
    intro file htarget
    obtain ⟨o, ho, hwrote, hopened⟩ := h.step_target htarget hstep
    obtain ⟨fs', opened'⟩ := c'
    cases hopened
    exact h.wrote ho hwrote
  obtain ⟨act, junk⟩ := a
  cases act with
  | create name initialSize isDirectory =>
      obtain ⟨⟨r, fs'⟩, hcreate, rfl⟩ := Option.map_eq_some_iff.mp hstep
      exact h.create hvalid hcreate
  | openFile name => exact h.openFile hmatch hstep
  | close file => exact h.close hstep
  | remove name => exact h.remove hnot hstep
  | write file src numBytes => exact hwrites file rfl
  | writeAt file src numBytes position => exact hwrites file rfl

/-! ## §7  Runs -/

theorem Inv.conforms_call (h : c.Inv) (a : HandleAct × (ℕ → ByteMem)) :
    c.Conforms a ↔ ¬ c.RemovesOpen a := by
  constructor
  · intro hconforms hremoves
    obtain ⟨name, file, o, hact, hopen, hthere, hfind⟩ := hremoves
    have hfails := hconforms.remove name hact ⟨name, file, o, hact, hopen, hthere, hfind⟩
    obtain ⟨fs', hsucceeds⟩ := remove_of_findPlain h.sound h.root hfind
    rw [hfails] at hsucceeds
    cases hsucceeds
  · intro hnot
    refine ⟨fun name _ hremoves => absurd hremoves hnot, ?_⟩
    intro file o c' htarget hopen hstep
    obtain ⟨o', ho', hwrote, -⟩ := h.step_target htarget hstep
    obtain rfl : o' = o := Option.some.inj (ho'.symm.trans hopen.1)
    exact h.changesOnly ho' hwrote

theorem inv_start {disk : Disk} {junk : ℕ → ByteMem} {fs₀ : FileSystem}
    (hnew : FileSystem.new true disk junk = some fs₀) {heap : Heap} (ha : heap.Allocated) :
    (start fs₀ heap).Inv := by
  obtain ⟨fs, mapBlocks, dirBlocks, hfs, hsound, hroot, hformatted⟩ :=
    FileSystem.new_format disk junk
  obtain rfl : fs = fs₀ := Option.some.inj (hfs.symm.trans hnew)
  refine ⟨⟨hsound.volume, hsound.freeMapFile, hsound.cdSector, hsound.reachable⟩, hroot,
    sized_of_formatted hformatted, ha, ?_⟩
  intro file o ho
  cases ho

/-- **Open files.** In a run from a formatted disk, whatever memory the slots were left
with: every call does as it should iff no call removes a file that is open. -/
theorem conforms_iff {disk : Disk} {junk : ℕ → ByteMem} {fs₀ : FileSystem}
    (hnew : FileSystem.new true disk junk = some fs₀) {heap : Heap} (ha : heap.Allocated)
    (as : List (HandleAct × (ℕ → ByteMem))) (hvalid : ∀ a ∈ as, a.1.Valid)
    (hmatch : StepsMeet step SlotsMatch (start fs₀ heap) as) :
    StepsMeet step Conforms (start fs₀ heap) as ↔
      StepsMeet step (fun c a => ¬ c.RemovesOpen a) (start fs₀ heap) as := by
  refine stepsMeet_iff_of_stepsMeet (I := Inv) (B := fun c a => a.1.Valid ∧ c.SlotsMatch a)
    (inv_start hnew ha) ?_ (fun c a h => h.conforms_call a) as ?_
  · intro c a c' h hB hnot hstep
    exact h.step hB.1 hB.2 hnot hstep
  · intro pre a post hsplit c hc
    exact ⟨hvalid a (by simp [hsplit]), hmatch pre a post hsplit c hc⟩

def nameC : CString := ⟨[0x63], by decide⟩
def nameD : CString := ⟨[0x64], by decide⟩

/-- The memory that the calls find. -/
def zeros : ℕ → ByteMem := fun _ _ => 0

/-- A file of 10 bytes with its data in sector 6. -/
def leftHeader : FileHeader :=
  ⟨Function.update (Function.update (Function.update (fun _ => 0) 0 10) 4 1) 8 6⟩

/-- What the memory of the slots points to: a handle with one user. -/
def leftHandle : Heap where
  handles := Function.update (fun _ => none) 1 (some ⟨nameC, 5, true, 2, 0, 1⟩)
  files := Function.update (fun _ => none) 2 (some ⟨leftHeader, 0⟩)
  next := 3

/-- Memory with 1 in each word. -/
def leftSlots : ℕ → ByteMem := fun _ p => if p % 4 = 0 then 1 else 0

theorem handles_leftHandle {p : ℕ} (hp : p ≠ 1) : leftHandle.handles p = none := by
  simp [leftHandle, Function.update_of_ne hp]

theorem allocated_leftHandle : leftHandle.Allocated := by
  constructor
  · intro p hp
    refine handles_leftHandle ?_
    rintro rfl
    exact absurd hp (by decide)
  · intro p h hp
    by_cases hp1 : p = 1
    · subst hp1
      obtain rfl : (⟨nameC, 5, true, 2, 0, 1⟩ : FileHandle) = h := Option.some.inj hp
      exact Nat.lt_succ_self 2
    · rw [handles_leftHandle hp1] at hp
      cases hp

/-- Another file is removed. -/
def removeOther : List (HandleAct × (ℕ → ByteMem)) :=
  [.create nameC 10 false, .create nameD 10 false, .openFile nameC, .remove nameD,
    .write 1 (fun _ => 0x21) 10, .close 1].map fun a => (a, zeros)

theorem conforms_iff_removeOther :
    ∃ fs₀, FileSystem.new true (fun _ => 0) leftSlots = some fs₀ ∧
      StepsMeet step SlotsMatch (start fs₀ leftHandle) removeOther ∧
      (StepsMeet step Conforms (start fs₀ leftHandle) removeOther ↔
        StepsMeet step (fun c a => ¬ c.RemovesOpen a) (start fs₀ leftHandle) removeOther) := by
  have hrun : (FileSystem.new true (fun _ => 0) leftSlots).map (fun fs₀ =>
      stepsMeet step SlotsMatch (start fs₀ leftHandle) removeOther) = some true := by
    decide +kernel
  obtain ⟨fs₀, hnew, hmeet⟩ := Option.map_eq_some_iff.mp hrun
  rw [stepsMeet_iff] at hmeet
  have hvalid : ∀ a ∈ removeOther, a.1.Valid := by
    have hsize : (10 : ℤ) ≤ MaxFileSize := by decide
    simp [removeOther, HandleAct.Valid, hsize]
  exact ⟨fs₀, hnew, hmeet, conforms_iff hnew allocated_leftHandle removeOther hvalid hmeet⟩

/-! ## §8  From the constructor -/

/-- There is no handle, and none was ever returned. -/
structure Bare (c : Session) : Prop where
  handles : ∀ p, c.fs.heap.handles p = none
  opened : ∀ file, c.opened file = none

theorem bare_start {format : Bool} {disk : Disk} {junk : ℕ → ByteMem}
    (hnew : FileSystem.new format disk junk = some fs) : (start fs fs.heap).Bare := by
  refine ⟨fun p => ?_, fun _ => rfl⟩
  change fs.heap.handles p = none
  rw [FileSystem.new_heap hnew]
  rfl

namespace Bare

variable (h : c.Bare)

include h

theorem not_isOpen (file : ℕ) (o : Opened) : ¬ c.IsOpen file o := by
  rintro ⟨ho, -⟩
  rw [h.opened file] at ho
  cases ho

/-- `FindFile` has no handle to look at. -/
theorem openFound {name : CString} {sector : ℤ} {junk : ℕ → ByteMem}
    {r : Option ℕ × FileSystem} : c.fs.openFound name sector junk ≠ .ok r := by
  intro hopen
  obtain ⟨f, -, hopen⟩ := bind_eq_ok.mp hopen
  obtain ⟨index, hfind, -⟩ := bind_eq_ok.mp hopen
  obtain ⟨g, hderef, -⟩ := bind_eq_ok.mp
    (show ((c.fs.heap.newFile f).2.deref (c.fs.openFileTable.table 0)).bind _ = _ from hfind)
  have hg : c.fs.heap.handles _ = some g := (Heap.deref_eq_ok.mp hderef).2
  rw [h.handles] at hg
  cases hg

/-- `Open` returns only where there is no file, and then `NULL`. -/
theorem openFile {name : CString} {junk : ℕ → ByteMem} {r : Option ℕ × FileSystem}
    (hopen : c.fs.openFile name junk = .ok r) :
    c.fs.findPlain name junk = some none ∧ r = (none, c.fs) := by
  obtain ⟨found, hfind, -⟩ := bind_eq_ok.mp hopen
  rw [orAbort_eq_ok] at hfind
  cases found with
  | none =>
      rw [FileSystem.openFile_none hfind] at hopen
      exact ⟨hfind, (Except.ok.inj hopen).symm⟩
  | some sector =>
      rw [FileSystem.openFile_some hfind] at hopen
      exact absurd hopen h.openFound

theorem step {a : HandleAct × (ℕ → ByteMem)} (hstep : c.step a = some c') : c'.Bare := by
  obtain ⟨act, junk⟩ := a
  cases act with
  | create name initialSize isDirectory =>
      obtain ⟨⟨r, fs'⟩, hcreate, rfl⟩ := Option.map_eq_some_iff.mp hstep
      refine ⟨fun p => ?_, h.opened⟩
      rw [FileSystem.create_heap hcreate]
      exact h.handles p
  | openFile name =>
      rw [Session.step] at hstep
      cases hopen : c.fs.openFile name junk with
      | error e =>
          rw [hopen] at hstep
          split at hstep <;> simp_all
      | ok r =>
          obtain ⟨hfind, rfl⟩ := h.openFile hopen
          rw [hfind, hopen] at hstep
          cases hstep
          exact h
  | close file =>
      rw [Session.step] at hstep
      cases hclose : c.fs.close file with
      | error e =>
          rw [hclose] at hstep
          cases hstep
      | ok fs' =>
          rw [hclose] at hstep
          cases hstep
          rcases FileSystem.close_cases hclose with rfl | ⟨g, hg, -⟩
          · refine ⟨h.handles, fun q => ?_⟩
            cases hq : (if (c.fs.heap.handles file).isSome = true then c.opened
                else Function.update c.opened file none) q with
            | none => exact hq
            | some o =>
                have ho := (opened_of_close hq).1
                rw [h.opened q] at ho
                cases ho
          · rw [h.handles file] at hg
            cases hg
  | remove name =>
      obtain ⟨⟨removed, fs'⟩, hremove, rfl⟩ := Option.map_eq_some_iff.mp hstep
      refine ⟨fun p => ?_, fun q => ?_⟩
      · rw [FileSystem.remove_heap hremove]
        exact h.handles p
      · dsimp only
        split
        · change (c.opened q).map _ = none
          rw [h.opened q, Option.map_none]
        · exact h.opened q
  | write file src numBytes =>
      rw [Session.step, h.opened file] at hstep
      cases hstep
  | writeAt file src numBytes position =>
      rw [Session.step, h.opened file] at hstep
      cases hstep

theorem conforms (a : HandleAct × (ℕ → ByteMem)) : c.Conforms a where
  remove := by
    rintro name - ⟨-, file, o, -, hopen, -⟩
    exact absurd hopen (h.not_isOpen file o)
  write := fun file o _ _ hopen => absurd hopen (h.not_isOpen file o)

end Bare

/-- **No handle is ever live.** In a run of any calls from the constructor, on any disk and
with anything in the memory of the slots: `Open` returns `NULL` where there is no file, and
where there is one it does not return; so no file that is removed is open, and no write goes
to another file. -/
theorem conforms_of_new {format : Bool} {disk : Disk} {junk : ℕ → ByteMem} {fs₀ : FileSystem}
    (hnew : FileSystem.new format disk junk = some fs₀) (as : List (HandleAct × (ℕ → ByteMem))) :
    StepsMeet step Conforms (start fs₀ fs₀.heap) as ∧
      ∀ c, run step (start fs₀ fs₀.heap) as = some c →
        (∀ file o, ¬ c.IsOpen file o) ∧
        ∀ name junk' r, c.fs.openFile name junk' = .ok r →
          c.fs.findPlain name junk' = some none ∧ r = (none, c.fs) := by
  have hbare : ∀ bs c, run step (start fs₀ fs₀.heap) bs = some c → c.Bare :=
    run_invariant (bare_start hnew) fun _ _ _ h => h.step
  constructor
  · intro pre a post _ c hc
    exact (hbare pre c hc).conforms a
  · intro c hc
    exact ⟨(hbare as c hc).not_isOpen, fun _ _ _ => (hbare as c hc).openFile⟩

/-- A file is created, another is looked for, the file is removed. -/
def createRemove : List (HandleAct × (ℕ → ByteMem)) :=
  [(.create nameC 10 false, zeros), (.openFile nameD, zeros), (.remove nameC, zeros)]

theorem conforms_of_new_createRemove :
    ∃ fs₀ c, FileSystem.new true (fun _ => 0) zeros = some fs₀ ∧
      run step (start fs₀ fs₀.heap) createRemove = some c ∧
      StepsMeet step Conforms (start fs₀ fs₀.heap) createRemove ∧ ∀ file o, ¬ c.IsOpen file o := by
  have hrun : ((FileSystem.new true (fun _ => 0) zeros).bind fun fs₀ =>
      (run step (start fs₀ fs₀.heap) createRemove).map fun _ => ()) = some () := by
    decide +kernel
  simp only [Option.bind_eq_some_iff, Option.map_eq_some_iff] at hrun
  obtain ⟨fs₀, hnew, c, hc, -⟩ := hrun
  obtain ⟨hconforms, hlive⟩ := conforms_of_new hnew createRemove
  exact ⟨fs₀, c, hnew, hc, hconforms, (hlive c hc).1⟩

end Session

end OsAssignments.Filesys
