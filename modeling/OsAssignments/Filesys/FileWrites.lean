import OsAssignments.Filesys.Operations

/-!
# Writing through a handle

`Write` and `WriteAt` of `FileSystem` go to the header that the open file holds in
memory. Where that header lists the data sectors of a file, a write changes these
sectors and nothing that the volume is made of (`Untouched`), so the state stays
sound.

- `OpenFile.writeAt_sameOff` — a write changes no sector but those of the header.
- `untouched_of_sameOff` — the sectors of a file are not those of the system.
-/

namespace OsAssignments.Filesys

open Volume

/-! ## §1  The calls -/

/-- `OpenFile::Write`: at the seek position, which is not negative and moves on. -/
def OpenFile.write (disk : Disk) (f : OpenFile) (junk src : ByteMem) (numBytes : ℤ) :
    Option (ℕ × Disk × OpenFile) :=
  (f.writeAt disk junk src numBytes f.seekPosition.toNat).map fun (result, disk) =>
    (result, disk, { f with seekPosition := f.seekPosition + result })

def Heap.setFile (heap : Heap) (file : ℕ) (f : OpenFile) : Heap :=
  { heap with files := Function.update heap.files file (some f) }

namespace FileSystem

def writeAt (fs : FileSystem) (file : ℕ) (src : ByteMem) (numBytes : ℤ) (position : ℕ)
    (junk : ByteMem) : Option (ℕ × FileSystem) := do
  let h ← fs.heap.handles file
  let f ← fs.heap.files h.file
  let (result, disk) ← f.writeAt fs.disk junk src numBytes position
  some (result, { fs with disk })

def write (fs : FileSystem) (file : ℕ) (src : ByteMem) (numBytes : ℤ) (junk : ByteMem) :
    Option (ℕ × FileSystem) := do
  let h ← fs.heap.handles file
  let f ← fs.heap.files h.file
  let (result, disk, f) ← f.write fs.disk junk src numBytes
  some (result, { fs with disk, heap := fs.heap.setFile h.file f })

end FileSystem

/-- **`WriteAt`** changes no sector but those that the header lists. -/
theorem OpenFile.writeAt_sameOff (disk : Disk) {f : OpenFile} {len : ℕ}
    (hfits : f.hdr.Fits len)
    (hlength : (blocksOf f.hdr).length = divRoundUp len SectorSize) (junk src : ByteMem)
    {numBytes : ℤ} {position : ℕ} (hsum : Representable len numBytes position) :
    ∃ disk', f.writeAt disk junk src numBytes position =
        some (transferred len numBytes position, disk') ∧
      SameOff (· ∈ blocksOf f.hdr) disk disk' := by
  obtain ⟨disk', hwrite, -, hout⟩ := OpenFile.writeAt_spec disk hfits junk src hsum
  refine ⟨disk', hwrite, fun x hx => hout x fun i hi heq => hx ?_⟩
  rw [← heq]
  exact mem_blocksOf (by omega)

theorem OpenFile.sameOff_of_writeAt {disk disk' : Disk} {f : OpenFile} {len result : ℕ}
    (hfits : f.hdr.Fits len)
    (hlength : (blocksOf f.hdr).length = divRoundUp len SectorSize) {junk src : ByteMem}
    {numBytes : ℤ} {position : ℕ}
    (hwrite : f.writeAt disk junk src numBytes position = some (result, disk')) :
    SameOff (· ∈ blocksOf f.hdr) disk disk' := by
  obtain ⟨disk₁, heq, hsame⟩ := OpenFile.writeAt_sameOff disk hfits hlength junk src
    (OpenFile.representable_of_writeAt hfits hwrite)
  rw [hwrite] at heq
  cases heq
  exact hsame

/-! ## §2  The sizes of files -/

namespace Volume

/-- Every header in use is one for some number of bytes. -/
def Sized (v : Volume) : Prop := ∀ r, v.Live r → ∃ len, v.HasSize (v.header r) len

variable {v v' : Volume}

theorem sized_of_formatted {mapBlocks dirBlocks : List ℕ} (h : Formatted v mapBlocks dirBlocks) :
    v.Sized := by
  intro r hr
  rcases h.live_iff.mp hr with rfl | rfl
  · exact ⟨_, h.size_map⟩
  · exact ⟨_, h.size_dir⟩

theorem Sized.created {cd i sector initialSize : ℕ} {l : List ℕ} {name : List Byte}
    {isDirectory : Bool} (hsized : v.Sized)
    (h : Created v v' cd i sector l initialSize name isDirectory) (hv : v.Sound)
    (hcd : v.Reachable cd) : v'.Sized := by
  intro r hr
  rcases (h.live_iff hv hcd).mp hr with hr | rfl
  · obtain ⟨len, hlen⟩ := hsized r hr
    rw [h.header_same hr]
    exact ⟨len, hlen.of_same (h.same_file r hr)⟩
  · have hheader : v'.header (.entry cd i) = sector := by
      rw [header, h.entry_new, Int.toNat_natCast]
    rw [hheader]
    exact ⟨initialSize, h.size_new⟩

theorem Sized.removed {cd i : ℕ} (hsized : v.Sized) (h : Removed v v' cd i)
    (hlive : ∀ r, v'.Live r → v.Live r ∧ r ≠ .entry cd i) : v'.Sized := by
  intro r hr
  obtain ⟨hr, hne⟩ := hlive r hr
  obtain ⟨len, hlen⟩ := hsized r hr
  rw [h.header_same hr hne]
  exact ⟨len, hlen.of_same (h.same_file r hr)⟩

/-! ## §3  Volumes that a write leaves alone -/

/-- The bitmap, the headers in use and the directories are the same. -/
structure Untouched (v v' : Volume) : Prop where
  marked : ∀ x, v'.marked x = v.marked x
  same_file : ∀ r, v.Live r →
    v'.size (v.header r) = v.size (v.header r) ∧
      v'.blocks (v.header r) = v.blocks (v.header r)
  same_entry : ∀ s j, v.Reachable s → j < NumDirEntries → v'.entry s j = v.entry s j

namespace Untouched

variable (h : Untouched v v')

include h

theorem child_same {s : ℕ} (hs : v.Reachable s) (j : ℕ) : v'.child s j = v.child s j :=
  child_congr (h.same_entry s j hs)

theorem reachable_iff {s : ℕ} : v'.Reachable s ↔ v.Reachable s :=
  RootedTree.reach_congr fun _ hn j => h.child_same hn j

theorem live_iff {r : Ref} : v'.Live r ↔ v.Live r := by
  cases r with
  | freeMap => exact Iff.rfl
  | root => exact Iff.rfl
  | entry s i =>
      rw [Live, Live, h.reachable_iff]
      exact and_congr_right fun hs => ordinary_congr (h.same_entry s i hs)

theorem header_same {r : Ref} (hr : v.Live r) : v'.header r = v.header r := by
  cases r with
  | freeMap => rfl
  | root => rfl
  | entry s i => rw [header, header, h.same_entry s i hr.1 hr.2.1]

theorem sectors_same {r : Ref} (hr : v.Live r) : v'.sectors r = v.sectors r := by
  rw [sectors, sectors, h.header_same hr, (h.same_file r hr).2]

theorem exact (hv : v.Exact) : v'.Exact where
  marked_iff := by
    intro x
    rw [h.marked, hv.marked_iff]
    refine exists_congr fun r => ?_
    rw [h.live_iff]
    refine and_congr_right fun hr => ?_
    rw [h.sectors_same hr]
  nodup := by
    intro r hr
    rw [h.live_iff] at hr
    rw [h.sectors_same hr]
    exact hv.nodup r hr
  disjoint := by
    intro r r' hr hr' hne
    rw [h.live_iff] at hr hr'
    rw [h.sectors_same hr, h.sectors_same hr']
    exact hv.disjoint r r' hr hr' hne

theorem sound (hv : v.Sound) : v'.Sound where
  exact := h.exact hv.exact
  marked_lt := fun x hx => hv.marked_lt x (h.marked x ▸ hx)
  freeMap := hv.freeMap.of_same (h.same_file .freeMap trivial)
  directory := by
    intro s hs
    rw [h.reachable_iff] at hs
    obtain ⟨r, hr, rfl, -⟩ := Reachable.exists_ref hs
    obtain ⟨len, hlen, hhas⟩ := hv.directory _ hs
    exact ⟨len, hlen, hhas.of_same (h.same_file r hr)⟩
  links := by
    intro s i c hs hc
    rw [h.reachable_iff] at hs
    rw [h.child_same hs] at hc
    have hreach : v.Reachable c := RootedTree.Reach.step hs hc
    rw [h.same_entry c 0 hreach (by decide), h.same_entry c 1 hreach (by decide)]
    exact hv.links s i c hs hc
  names := by
    intro s i j hs hi hj
    rw [h.reachable_iff] at hs
    rw [h.same_entry s i hs hi, h.same_entry s j hs hj]
    exact hv.names s i j hs hi hj

theorem sized (hsized : v.Sized) : v'.Sized := by
  intro r hr
  rw [h.live_iff] at hr
  obtain ⟨len, hlen⟩ := hsized r hr
  rw [h.header_same hr]
  exact ⟨len, hlen.of_same (h.same_file r hr)⟩

end Untouched

/-- A file that is not a directory is not the header of one. -/
theorem Exact.not_reachable_of_plain (hv : v.Exact) {s i : ℕ} (hr : v.Live (.entry s i))
    (hplain : (v.entry s i).isDirectory = false) : ¬ v.Reachable (v.header (.entry s i)) := by
  intro hreach
  generalize hc : v.header (.entry s i) = c at hreach
  cases hreach with
  | root => exact Ref.noConfusion (hv.header_inj hr (show v.Live .root from trivial) hc)
  | step hp hchild =>
      obtain ⟨ho, hdir, hsec⟩ := child_eq_some.mp hchild
      obtain ⟨rfl, rfl⟩ := Ref.entry.inj
        (hv.header_inj hr (show v.Live (.entry _ _) from ⟨hp, ho⟩) (hc.trans hsec.symm))
      rw [hplain] at hdir
      cases hdir

end Volume

/-! ## §4  A write to a file -/

section

variable {disk disk' : Disk} (hv : (volume disk).Sound) {s i : ℕ}
  (hr : (volume disk).Live (.entry s i))
  (hplain : ((volume disk).entry s i).isDirectory = false)
  (hsame : SameOff (· ∈ (volume disk).blocks ((volume disk).header (.entry s i))) disk disk')

include hv hr hsame

theorem headerOf_written {r : Ref} (hr' : (volume disk).Live r) :
    headerOf disk' ((volume disk).header r) = headerOf disk ((volume disk).header r) :=
  hsame.headerOf_eq (hv.exact.header_not_mem hr' hr)

include hplain

/-- **A write to the data sectors of a file** leaves the volume alone. -/
theorem untouched_of_sameOff : Untouched (volume disk) (volume disk') where
  marked := by
    intro x
    have hheader := headerOf_written hv hr hsame (r := .freeMap) trivial
    change (BitMap.ofMem NumSectors (contents disk' (headerOf disk' _))).testBit x = _
    rw [show headerOf disk' FreeMapSector = headerOf disk FreeMapSector from hheader]
    refine hsame.bitmap_eq (fun y hy => ?_) (Nat.le_of_eq hv.freeMap.2.symm)
    exact hv.exact.block_not_mem (r := .freeMap) trivial hr Ref.noConfusion hy
  same_file := by
    intro r hr'
    have hheader := headerOf_written hv hr hsame hr'
    simp only [volume] at *
    rw [hheader]
    exact ⟨rfl, rfl⟩
  same_entry := by
    intro s' j hs hj
    obtain ⟨len, hlen, -, hlength⟩ := hv.directory s' hs
    obtain ⟨r, hr', rfl, hmap⟩ := Reachable.exists_ref hs
    have hne : r ≠ .entry s i := by
      rintro rfl
      exact hv.exact.not_reachable_of_plain hr hplain hs
    have hheader := headerOf_written hv hr hsame hr'
    change entryAt (contents disk' (headerOf disk' _)) j = _
    rw [hheader]
    refine hsame.table_eq (fun x hx => hv.exact.block_not_mem hr' hr hne hx) ?_ hj
    exact Nat.le_trans (divRoundUp_mono (by decide) hlen) (Nat.le_of_eq hlength.symm)

end

/-- The state after a write to a file. -/
theorem FileSystem.Sound.written {fs fs' : FileSystem} (h : fs.Sound) {s i : ℕ}
    (hr : (Filesys.volume fs.disk).Live (.entry s i))
    (hplain : ((Filesys.volume fs.disk).entry s i).isDirectory = false)
    (hsame : SameOff (· ∈ (Filesys.volume fs.disk).blocks
      ((Filesys.volume fs.disk).header (.entry s i))) fs.disk fs'.disk)
    (hmap : fs'.freeMapFile = fs.freeMapFile) (hcd : fs'.cdSector = fs.cdSector) :
    fs'.Sound := by
  have huntouched := untouched_of_sameOff h.volume hr hplain hsame
  have hheader : headerOf fs'.disk FreeMapSector = headerOf fs.disk FreeMapSector :=
    headerOf_written h.volume hr hsame (r := .freeMap) trivial
  refine ⟨huntouched.sound h.volume, ?_, ?_, ?_⟩
  · rw [hmap, hheader, h.freeMapFile]
  · rw [hcd]
    exact h.cdSector
  · rw [hcd]
    exact huntouched.reachable_iff.mpr h.reachable

end OsAssignments.Filesys
