import OsAssignments.Filesys.Allocation

/-!
# The two files that a call writes

`Create` and `Remove` read the bitmap and the current directory from the disk and write
both back. What they do depends on nothing but these two files, the header of the new
file or of the one to remove, and, for a directory, its table. So much is said here, for
any state in which the two files lie apart on marked sectors; what becomes of the other
files and directories is said elsewhere.

- `save_spec`, `flush_spec` — the writes of `Create` do not touch each other's sectors.
- `create_spec` — `Create` chooses and writes, or it fails and changes nothing.
- `remove_spec` — `Remove` frees the entry of the name and its sectors.
-/

namespace OsAssignments.Filesys

open Volume

namespace Volume

variable {v : Volume}

/-- The number of sectors that are not marked. -/
def numClear (v : Volume) : ℕ :=
  ((Finset.range NumSectors).filter fun x => v.marked x = false).card

theorem numClear_eq {b : BitMap} (hb : b.numBits = NumSectors)
    (h : ∀ x, b.testBit x = v.marked x) : b.numClear = v.numClear := by
  rw [BitMap.numClear_eq_card, BitMap.clearSet, hb, numClear]
  simp only [h]

/-- A file of `size` bytes called `name` fits into directory `cd`: the name is new,
an entry is free, and so are enough sectors. -/
def CanCreate (v : Volume) (cd : ℕ) (name : List Byte) (size : ℕ) : Prop :=
  (∀ j < NumDirEntries, (v.entry cd j).inUse = true → (v.entry cd j).name ≠ name) ∧
  (∃ j < NumDirEntries, (v.entry cd j).inUse = false) ∧
  1 + divRoundUp size SectorSize ≤ v.numClear

end Volume

namespace FileSystem

/-! ## §1  The bitmap and the current directory -/

/-- The sectors of the bitmap and of the current directory. -/
def home (fs : FileSystem) : List ℕ :=
  FreeMapSector :: (volume fs.disk).blocks FreeMapSector ++
    fs.cdSector.toNat :: (volume fs.disk).blocks fs.cdSector.toNat

/-- What a call needs of the two files that it writes: they have room for what is written
and lie on marked sectors, each used once. -/
structure Mounted (fs : FileSystem) : Prop where
  freeMapFile : fs.freeMapFile.hdr = headerOf fs.disk FreeMapSector
  cdSector : fs.cdSector = (fs.cdSector.toNat : ℤ)
  freeMap : (volume fs.disk).HasSize FreeMapSector FreeMapFileSize
  directory : ∃ len, DirectoryFileSize ≤ len ∧
    (volume fs.disk).HasSize fs.cdSector.toNat len
  nodup : fs.home.Nodup
  marked : ∀ x ∈ fs.home, (volume fs.disk).marked x = true

/-- The data sectors of the two files. -/
def Rewritten (fs : FileSystem) (x : ℕ) : Prop :=
  x ∈ (volume fs.disk).blocks fs.cdSector.toNat ∨ x ∈ (volume fs.disk).blocks FreeMapSector

variable {fs : FileSystem}

theorem mem_home {x : ℕ} : x ∈ fs.home ↔
    x = FreeMapSector ∨ x = fs.cdSector.toNat ∨ fs.Rewritten x := by
  rw [home, List.mem_append, List.mem_cons, List.mem_cons, Rewritten]
  constructor
  · rintro ((hx | hx) | hx | hx)
    · exact Or.inl hx
    · exact Or.inr (Or.inr (Or.inr hx))
    · exact Or.inr (Or.inl hx)
    · exact Or.inr (Or.inr (Or.inl hx))
  · rintro (hx | hx | hx | hx)
    · exact Or.inl (Or.inl hx)
    · exact Or.inr (Or.inl hx)
    · exact Or.inr (Or.inr hx)
    · exact Or.inl (Or.inr hx)

namespace Mounted

variable (h : fs.Mounted)

include h

theorem lt_of_mem {x : ℕ} (hx : x ∈ fs.home) : x < NumSectors := marked_lt (h.marked x hx)

theorem nodup_freeMap :
    (FreeMapSector :: (volume fs.disk).blocks FreeMapSector).Nodup :=
  (List.nodup_append.mp h.nodup).1

theorem nodup_cd :
    (fs.cdSector.toNat :: (volume fs.disk).blocks fs.cdSector.toNat).Nodup :=
  (List.nodup_append.mp h.nodup).2.1

/-- The two files are apart. -/
theorem disjoint {x : ℕ} (hx : x ∈ FreeMapSector :: (volume fs.disk).blocks FreeMapSector) :
    x ∉ fs.cdSector.toNat :: (volume fs.disk).blocks fs.cdSector.toNat := fun hx' =>
  (List.nodup_append.mp h.nodup).2.2 x hx x hx' rfl

theorem not_rewritten_freeMap : ¬ fs.Rewritten FreeMapSector := by
  rintro (hx | hx)
  · exact h.disjoint List.mem_cons_self (List.mem_cons_of_mem _ hx)
  · exact (List.nodup_cons.mp h.nodup_freeMap).1 hx

theorem not_rewritten_cd : ¬ fs.Rewritten fs.cdSector.toNat := by
  rintro (hx | hx)
  · exact (List.nodup_cons.mp h.nodup_cd).1 hx
  · exact h.disjoint (List.mem_cons_of_mem _ hx) List.mem_cons_self

theorem pos_of_rewritten {x : ℕ} (hx : fs.Rewritten x) : 0 < x := by
  rw [Nat.pos_iff_ne_zero]
  rintro rfl
  exact h.not_rewritten_freeMap hx

theorem fits_freeMap : (headerOf fs.disk FreeMapSector).Fits FreeMapFileSize :=
  fits_of_hasSize h.freeMap
    (fun _ hx => ⟨h.pos_of_rewritten (Or.inr hx),
      h.lt_of_mem (mem_home.mpr (Or.inr (Or.inr (Or.inr hx))))⟩)
    (List.nodup_cons.mp h.nodup_freeMap).2

theorem cd_lt : fs.cdSector.toNat < NumSectors :=
  h.lt_of_mem (mem_home.mpr (Or.inr (Or.inl rfl)))

theorem fits_cd : ∃ len, DirectoryFileSize ≤ len ∧
    (headerOf fs.disk fs.cdSector.toNat).Fits len ∧
      (blocksOf (headerOf fs.disk fs.cdSector.toNat)).length = divRoundUp len SectorSize := by
  obtain ⟨len, hlen, hhas⟩ := h.directory
  refine ⟨len, hlen, fits_of_hasSize hhas (fun _ hx => ?_) (List.nodup_cons.mp h.nodup_cd).2,
    hhas.2⟩
  exact ⟨h.pos_of_rewritten (Or.inl hx),
    h.lt_of_mem (mem_home.mpr (Or.inr (Or.inr (Or.inl hx))))⟩

/-- The sector of a byte of the current directory. -/
theorem block_of_lt {x : ℕ} (hx : (x : ℤ) < (volume fs.disk).size fs.cdSector.toNat) :
    ((headerOf fs.disk fs.cdSector.toNat).dataSectors (x / SectorSize)).toNat ∈
      (volume fs.disk).blocks fs.cdSector.toNat := by
  obtain ⟨len, -, hsize, hlength⟩ := h.directory
  rw [hsize] at hx
  exact mem_blocksOf (hlength ▸ div_lt_divRoundUp (by decide) (by exact_mod_cast hx))

/-- The current directory, read into memory. -/
theorem openDirectory (junk junk' : ByteMem) :
    ∃ d, FileSystem.openDirectory fs.disk fs.cdSector junk junk' =
        some (⟨headerOf fs.disk fs.cdSector.toNat, 0⟩, d) ∧
      d.tableSize = NumDirEntries ∧
      (∀ x < DirectoryFileSize,
        d.table x = contents fs.disk (headerOf fs.disk fs.cdSector.toNat) x) ∧
      ∀ i < NumDirEntries, d.entry i = (volume fs.disk).entry fs.cdSector.toNat i := by
  obtain ⟨len, hlen, hfits, -⟩ := h.fits_cd
  have hopen := openDirectory_of_fits h.cd_lt hlen hfits junk junk'
  rw [← h.cdSector] at hopen
  obtain ⟨d, hread, hsize, htable⟩ := hopen
  exact ⟨d, hread, hsize, htable, fun i hi => entryAt_of_table htable hi⟩

/-- Sectors that are clear are not among those of the two files. -/
theorem not_mem_of_clear {l : List ℕ} (hl : ∀ x ∈ l, (volume fs.disk).marked x = false)
    {x : ℕ} (hx : x ∈ fs.home) : x ∉ l := by
  intro hmem
  have hmarked := h.marked x hx
  rw [hl x hmem] at hmarked
  cases hmarked

/-- Two headers that stay and marks that stay are enough. -/
theorem of_headers {disk' : Disk}
    (hmap : headerOf disk' FreeMapSector = headerOf fs.disk FreeMapSector)
    (hcd : headerOf disk' fs.cdSector.toNat = headerOf fs.disk fs.cdSector.toNat)
    (hmarked : ∀ x ∈ fs.home, (volume disk').marked x = true) :
    Mounted { fs with disk := disk' } := by
  have hsize : ∀ {s len : ℕ}, headerOf disk' s = headerOf fs.disk s →
      (volume fs.disk).HasSize s len → (volume disk').HasSize s len := by
    intro s len hheader hhas
    simp only [HasSize, volume] at *
    rwa [hheader]
  have hhome : home { fs with disk := disk' } = fs.home := by
    simp only [home, volume, hmap, hcd]
  obtain ⟨len, hlen, hhas⟩ := h.directory
  exact {
    freeMapFile := h.freeMapFile.trans hmap.symm
    cdSector := h.cdSector
    freeMap := hsize hmap h.freeMap
    directory := ⟨len, hlen, hsize hcd hhas⟩
    nodup := hhome.symm ▸ h.nodup
    marked := fun x hx => hmarked x (hhome ▸ hx) }

end Mounted

/-- Entry `i` of directory `cd` is in use under `name`. -/
def Named (v : Volume) (cd i : ℕ) (name : List Byte) : Prop :=
  i < NumDirEntries ∧ (v.entry cd i).inUse = true ∧ (v.entry cd i).name = name

/-- A name is found in the current directory or it is not. -/
theorem findIndex_cases {d : Directory} {v : Volume} {cd : ℕ}
    (hsize : d.tableSize = NumDirEntries)
    (hentry : ∀ i < NumDirEntries, d.entry i = v.entry cd i) (name : CString) :
    (∃ i : ℕ, d.findIndex name = i ∧ i < NumDirEntries ∧ (v.entry cd i).inUse = true ∧
      (v.entry cd i).name = key name) ∨
    (d.findIndex name = -1 ∧ ∀ i < NumDirEntries, (v.entry cd i).inUse = true →
      (v.entry cd i).name ≠ key name) := by
  rcases d.findIndex_cases name with ⟨i, hi, hlt, huse, hname⟩ | ⟨hnone, hall⟩
  · rw [hsize] at hlt
    rw [hentry i hlt] at huse hname
    exact Or.inl ⟨i, hi, hlt, huse, hname⟩
  · refine Or.inr ⟨hnone, fun i hi => ?_⟩
    rw [← hentry i hi]
    exact hall i (by omega)

/-- The current directory with the one entry that is called `name`. -/
theorem Mounted.openDirectory_named (h : fs.Mounted) {name : CString} {i sector : ℕ}
    (hnamed : Named (volume fs.disk) fs.cdSector.toNat i (key name))
    (honly : ∀ j, Named (volume fs.disk) fs.cdSector.toNat j (key name) → j = i)
    (hsec : ((volume fs.disk).entry fs.cdSector.toNat i).sector = sector)
    (junk junk' : ByteMem) :
    ∃ d, FileSystem.openDirectory fs.disk fs.cdSector junk junk' =
        some (⟨headerOf fs.disk fs.cdSector.toNat, 0⟩, d) ∧
      d.tableSize = NumDirEntries ∧
      (∀ j < NumDirEntries, d.entry j = (volume fs.disk).entry fs.cdSector.toNat j) ∧
      d.findIndex name = i ∧ d.find name = sector ∧
      d.findDirectory name =
        if ((volume fs.disk).entry fs.cdSector.toNat i).isDirectory then (sector : ℤ)
        else -1 := by
  obtain ⟨d, hopen, hsize, -, hentry⟩ := h.openDirectory junk junk'
  have hi : d.findIndex name = i := by
    rcases findIndex_cases hsize hentry name with ⟨k, hk, hlt, huse, hname⟩ | ⟨-, hall⟩
    · obtain rfl := honly k ⟨hlt, huse, hname⟩
      exact hk
    · exact absurd hnamed.2.2 (hall i hnamed.1 hnamed.2.1)
  refine ⟨d, hopen, hsize, hentry, hi, ?_, ?_⟩
  · rw [Directory.find_eq hi, hentry i hnamed.1, hsec]
  · rw [Directory.findDirectory_eq hi, hentry i hnamed.1, hsec]

/-! ## §2  `Create` -/

/-- The table of a new directory. -/
theorem addLinks_table (junk : ByteMem) {sector cdSector : ℕ} (hs : sector < NumSectors)
    (hcd : cdSector < NumSectors) :
    ∃ d₁ d₂, (Directory.new NumDirEntries junk).add dot sector true = (true, d₁) ∧
      d₁.add dotDot cdSector true = (true, d₂) ∧ d₂.tableSize = NumDirEntries ∧
      d₂.entry 0 = ⟨true, sector, dot.chars, true⟩ ∧
      d₂.entry 1 = ⟨true, cdSector, dotDot.chars, true⟩ ∧
      ∀ j, 2 ≤ j → j < NumDirEntries → (d₂.entry j).inUse = false := by
  have hN : NumSectors = 1024 := rfl
  have hfree : ∀ j < NumDirEntries,
      ((Directory.new NumDirEntries junk).entry j).inUse = false := fun j hj =>
    Directory.inUse_new _ _ hj
  rcases (Directory.new NumDirEntries junk).add_cases dot sector true with
    ⟨hfound, -⟩ | ⟨-, -, hfull⟩ | ⟨i, d₁, -, hadd, hi, -, hfirst, hsize, hnew, hother⟩
  · rcases (Directory.new NumDirEntries junk).findIndex_cases dot with
      ⟨i, -, hi, huse, -⟩ | ⟨hnone, -⟩
    · rw [hfree i hi] at huse
      exact absurd huse (by simp)
    · exact absurd hnone hfound
  · have := hfull 0 (show 0 < NumDirEntries by decide)
    rw [hfree 0 (by decide)] at this
    exact absurd this (by simp)
  obtain rfl : i = 0 := by
    by_contra hne
    have := hfirst 0 (by omega)
    rw [hfree 0 (by decide)] at this
    exact absurd this (by simp)
  rw [toInt_ofInt_small (by omega) (by omega)] at hnew
  have hsize₁ : d₁.tableSize = NumDirEntries := hsize
  have hfree₁ : ∀ j, 1 ≤ j → j < NumDirEntries → (d₁.entry j).inUse = false := by
    intro j hj hlt
    rw [hother j (by omega)]
    exact hfree j hlt
  rcases d₁.add_cases dotDot cdSector true with
    ⟨hfound, -⟩ | ⟨-, -, hfull⟩ | ⟨i, d₂, -, hadd₂, hi₂, hunused, hfirst₂, hsize₂, hnew₂,
      hother₂⟩
  · rcases d₁.findIndex_cases dotDot with ⟨i, -, hi, huse, hname⟩ | ⟨hnone, -⟩
    · by_cases hi0 : i = 0
      · subst hi0
        rw [hnew] at hname
        have hne : key dot ≠ key dotDot := by decide
        exact absurd hname hne
      · rw [hfree₁ i (by omega) (by omega)] at huse
        exact absurd huse (by simp)
    · exact absurd hnone hfound
  · have := hfull 1 (by rw [hsize₁]; decide)
    rw [hfree₁ 1 (by omega) (by decide)] at this
    exact absurd this (by simp)
  obtain rfl : i = 1 := by
    have hne : i ≠ 0 := by
      rintro rfl
      rw [hnew] at hunused
      exact absurd hunused (by simp)
    by_contra hne₁
    have := hfirst₂ 1 (by omega)
    rw [hfree₁ 1 (by omega) (by decide)] at this
    exact absurd this (by simp)
  rw [toInt_ofInt_small (by omega) (by omega)] at hnew₂
  refine ⟨d₁, d₂, hadd, hadd₂, hsize₂.trans hsize₁, ?_, hnew₂, fun j hj hlt => ?_⟩
  · rw [hother₂ 0 (by omega), hnew]
    rfl
  · rw [hother₂ j (by omega)]
    exact hfree₁ j (by omega) hlt

/-- The links of a new directory, written through its header. -/
theorem addLinks_spec {disk : Disk} {sector cdSector len : ℕ} (hs : sector < NumSectors)
    (hcd : cdSector < NumSectors) (hfits : (headerOf disk sector).Fits len)
    (hlen : DirectoryFileSize ≤ len)
    (hlength : (blocksOf (headerOf disk sector)).length = divRoundUp len SectorSize)
    (junk junk' : ByteMem) :
    ∃ disk', addLinks disk sector cdSector junk junk' = some disk' ∧
      entryAt (contents disk' (headerOf disk sector)) 0 =
        ⟨true, sector, dot.chars, true⟩ ∧
      entryAt (contents disk' (headerOf disk sector)) 1 =
        ⟨true, cdSector, dotDot.chars, true⟩ ∧
      (∀ j, 2 ≤ j → j < NumDirEntries →
        (entryAt (contents disk' (headerOf disk sector)) j).inUse = false) ∧
      SameOff (· ∈ blocksOf (headerOf disk sector)) disk disk' := by
  obtain ⟨d₁, d₂, hadd₁, hadd₂, hsize, h₀, h₁, hrest⟩ := addLinks_table junk hs hcd
  obtain ⟨disk', hwrite, hentry, hsame⟩ := Directory.writeBack_spec disk
    ⟨headerOf disk sector, 0⟩ hfits hlen hlength hsize junk'
  refine ⟨disk', ?_, ?_, ?_, fun j hj hlt => ?_, hsame⟩
  · simp only [addLinks, OpenFile.new, fetchFrom_eq hs, Option.map_some,
      Option.bind_eq_bind, Option.bind_some, hadd₁, hadd₂, hwrite]
  · rw [hentry 0 (by decide), h₀]
  · rw [hentry 1 (by decide), h₁]
  · rw [hentry j hlt]
    exact hrest j hj hlt

/-- The last write of `Create`: the links, if it is a directory. -/
theorem links_spec {disk : Disk} {sector cdSector initialSize : ℕ} {l : List ℕ}
    (hs : sector < NumSectors) (hcd : cdSector < NumSectors)
    (hl : (headerOf disk sector).Lists initialSize l) {isDirectory : Bool}
    (hroom : isDirectory = true → DirectoryFileSize ≤ initialSize) (junk junk' : ByteMem) :
    ∃ disk', (if isDirectory then addLinks disk sector cdSector junk junk' else some disk) =
        some disk' ∧
      (isDirectory = true →
        entryAt (contents disk' (headerOf disk sector)) 0 = ⟨true, sector, dot.chars, true⟩ ∧
        entryAt (contents disk' (headerOf disk sector)) 1 =
          ⟨true, cdSector, dotDot.chars, true⟩ ∧
        ∀ j, 2 ≤ j → j < NumDirEntries →
          (entryAt (contents disk' (headerOf disk sector)) j).inUse = false) ∧
      SameOff (· ∈ l) disk disk' := by
  cases hdir : isDirectory with
  | false => exact ⟨disk, by simp, by simp, fun _ _ => rfl⟩
  | true =>
      obtain ⟨disk', hadd, h₀, h₁, hrest, hsame⟩ := addLinks_spec hs hcd hl.fits
        (hroom hdir) (by rw [hl.blocksOf_eq, hl.length]) junk junk'
      rw [hl.blocksOf_eq] at hsame
      exact ⟨disk', hadd, fun _ => ⟨h₀, h₁, hrest⟩, hsame⟩

/-- The disk after `Create` has written a header in `sector` that lists the sectors `l`,
the directory `d`, the bitmap `b` and, for a directory, the links. -/
structure Flushed (fs : FileSystem) (disk' : Disk) (sector : ℕ) (l : List ℕ)
    (initialSize : ℕ) (isDirectory : Bool) (d : Directory) (b : BitMap) : Prop where
  marked : ∀ x, (volume disk').marked x = b.testBit x
  lists : (headerOf disk' sector).Lists initialSize l
  table : ∀ x : ℕ, (x : ℤ) < (volume fs.disk).size fs.cdSector.toNat →
    contents disk' (headerOf fs.disk fs.cdSector.toNat) x =
      if x < DirectoryFileSize then d.table x
      else contents fs.disk (headerOf fs.disk fs.cdSector.toNat) x
  freeMap : headerOf disk' FreeMapSector = headerOf fs.disk FreeMapSector
  directory : headerOf disk' fs.cdSector.toNat = headerOf fs.disk fs.cdSector.toNat
  links : isDirectory = true →
    (volume disk').entry sector 0 = ⟨true, sector, dot.chars, true⟩ ∧
      (volume disk').entry sector 1 = ⟨true, fs.cdSector.toNat, dotDot.chars, true⟩ ∧
      ∀ j, 2 ≤ j → j < NumDirEntries → ((volume disk').entry sector j).inUse = false
  same : SameOff (fun x => x ∈ sector :: l ∨ fs.Rewritten x) fs.disk disk'

/-- The disk after the first three writes of `Create`: a header in `sector`, the directory
`d` and the bitmap `b`. -/
structure Saved (fs : FileSystem) (disk' : Disk) (sector : ℕ) (hdr : FileHeader)
    (d : Directory) (b : BitMap) : Prop where
  header : headerOf disk' sector = hdr
  table : ∀ x : ℕ, (x : ℤ) < (volume fs.disk).size fs.cdSector.toNat →
    contents disk' (headerOf fs.disk fs.cdSector.toNat) x =
      if x < DirectoryFileSize then d.table x
      else contents fs.disk (headerOf fs.disk fs.cdSector.toNat) x
  marked : ∀ x, (BitMap.ofMem NumSectors
    (contents disk' (headerOf fs.disk FreeMapSector))).testBit x = b.testBit x
  same : SameOff (fun x => x = sector ∨ fs.Rewritten x) fs.disk disk'

/-- **The first three writes of `Create`** do not touch each other's sectors. -/
theorem save_spec (h : fs.Mounted) {sector : ℕ} (hsector : sector < NumSectors)
    (hfresh : (volume fs.disk).marked sector = false) (hdr : FileHeader) {d : Directory}
    (hd : d.tableSize = NumDirEntries) {b : BitMap} (hb : b.numBits = NumSectors)
    (junk : ℕ → ByteMem) {disk₁ : Disk} (hwrite₁ : hdr.writeBack fs.disk sector = some disk₁) :
    ∃ disk₂ disk₃,
      d.writeBack disk₁ ⟨headerOf fs.disk fs.cdSector.toNat, 0⟩ (junk 4) = some disk₂ ∧
      b.writeBack disk₂ fs.freeMapFile (junk 5) = some disk₃ ∧
      Saved fs disk₃ sector (headerOf disk₁ sector) d b := by
  obtain ⟨len, hlen, hfits, hlength⟩ := h.fits_cd
  have hnew : ∀ x, fs.Rewritten x → x ≠ sector := by
    rintro x hx rfl
    exact h.not_mem_of_clear (l := [x]) (by simpa using hfresh)
      (mem_home.mpr (Or.inr (Or.inr hx))) List.mem_cons_self
  obtain ⟨disk, hwrite, -, -, -, hsame₁⟩ := hdr.writeBack_spec fs.disk hsector
  obtain rfl : disk₁ = disk := Option.some.inj (hwrite₁.symm.trans hwrite)
  obtain ⟨disk₂, hwrite₂, htable₂, hsame₂⟩ := Directory.writeBack_bytes disk₁
    ⟨headerOf fs.disk fs.cdSector.toNat, 0⟩ hfits hlen hlength hd (junk 4)
  obtain ⟨disk₃, hwrite₃, htest₃, hsame₃⟩ := freeMap_writeBack_spec disk₂
    fs.freeMapFile (by rw [h.freeMapFile]; exact h.fits_freeMap)
    (by rw [h.freeMapFile]; exact h.freeMap.2) hb (junk 5)
  rw [h.freeMapFile] at htest₃ hsame₃
  refine ⟨disk₂, disk₃, hwrite₂, hwrite₃, ?_, fun x hx => ?_, htest₃,
    (hsame₁.trans hsame₂ fun s hs => hs).trans hsame₃ fun s hs => ?_⟩
  · rw [hsame₃.headerOf_eq fun hmem => hnew _ (Or.inr hmem) rfl,
      hsame₂.headerOf_eq fun hmem => hnew _ (Or.inl hmem) rfl]
  · -- the table is written before the bitmap
    have hmem := h.block_of_lt hx
    have hx' : x < len := by
      rw [show (volume fs.disk).size fs.cdSector.toNat = len from hfits.numBytes] at hx
      exact_mod_cast hx
    have hlater : contents disk₃ (headerOf fs.disk fs.cdSector.toNat) x =
        contents disk₂ (headerOf fs.disk fs.cdSector.toNat) x :=
      hsame₃.contents_eq fun hmap =>
        h.disjoint (List.mem_cons_of_mem _ hmap) (List.mem_cons_of_mem _ hmem)
    have hfirst : contents disk₁ (headerOf fs.disk fs.cdSector.toNat) x =
        contents fs.disk (headerOf fs.disk fs.cdSector.toNat) x :=
      hsame₁.contents_eq fun heq => hnew _ (Or.inl hmem) heq
    rw [hlater, htable₂ x hx', hfirst]
  · rcases hs with (hs | hs) | hs
    · exact Or.inl hs
    · exact Or.inr (Or.inl hs)
    · exact Or.inr (Or.inr hs)

/-- **The writes of `Create`** do not touch each other's sectors. -/
theorem flush_spec (h : fs.Mounted) {sector initialSize : ℕ} {l : List ℕ}
    (hsector : sector < NumSectors)
    (hfresh : ∀ x ∈ sector :: l, (volume fs.disk).marked x = false)
    (hnotin : sector ∉ l) {hdr : FileHeader} (hl : hdr.Lists initialSize l)
    (hmax : initialSize ≤ MaxFileSize) {isDirectory : Bool}
    (hroom : isDirectory = true → DirectoryFileSize ≤ initialSize) {d : Directory}
    (hd : d.tableSize = NumDirEntries) {b : BitMap} (hb : b.numBits = NumSectors)
    (junk : ℕ → ByteMem) :
    ∃ disk₁ disk₂ disk₃ disk₄, hdr.writeBack fs.disk sector = some disk₁ ∧
      d.writeBack disk₁ ⟨headerOf fs.disk fs.cdSector.toNat, 0⟩ (junk 4) = some disk₂ ∧
      b.writeBack disk₂ fs.freeMapFile (junk 5) = some disk₃ ∧
      (if isDirectory then addLinks disk₃ sector fs.cdSector (junk 6) (junk 7)
        else some disk₃) = some disk₄ ∧
      Flushed fs disk₄ sector l initialSize isDirectory d b := by
  have hnew : ∀ x, fs.Rewritten x → x ∉ sector :: l := fun x hx =>
    h.not_mem_of_clear hfresh (mem_home.mpr (Or.inr (Or.inr hx)))
  obtain ⟨disk₁, hwrite₁, hl₁, -⟩ := hl.writeBack hmax fs.disk hsector
  obtain ⟨disk₂, disk₃, hwrite₂, hwrite₃, hsaved⟩ :=
    save_spec h hsector (hfresh _ List.mem_cons_self) hdr hd hb junk hwrite₁
  have hl₃ : (headerOf disk₃ sector).Lists initialSize l := hsaved.header ▸ hl₁
  obtain ⟨disk₄, hwrite₄, hlinks₄, hsame₄⟩ :=
    links_spec hsector h.cd_lt hl₃ hroom (junk 6) (junk 7)
  rw [← h.cdSector] at hwrite₄
  have hsame : SameOff (fun x => x ∈ sector :: l ∨ fs.Rewritten x) fs.disk disk₄ := by
    refine hsaved.same.trans hsame₄ fun s hs => ?_
    rcases hs with (rfl | hs) | hs
    · exact Or.inl List.mem_cons_self
    · exact Or.inr hs
    · exact Or.inl (List.mem_cons_of_mem _ hs)
  have hkept : ∀ {x}, x ∈ fs.home → ¬ fs.Rewritten x →
      headerOf disk₄ x = headerOf fs.disk x := by
    intro x hx hnot
    refine hsame.headerOf_eq ?_
    rintro (hmem | hmem)
    · exact h.not_mem_of_clear hfresh hx hmem
    · exact hnot hmem
  have hmap : headerOf disk₄ FreeMapSector = headerOf fs.disk FreeMapSector :=
    hkept (mem_home.mpr (Or.inl rfl)) h.not_rewritten_freeMap
  have hheader₄ : headerOf disk₄ sector = headerOf disk₃ sector :=
    hsame₄.headerOf_eq hnotin
  refine ⟨disk₁, disk₂, disk₃, disk₄, hwrite₁, hwrite₂, hwrite₃, hwrite₄, fun x => ?_,
    hheader₄ ▸ hl₃, fun x hx => ?_, hmap,
    hkept (mem_home.mpr (Or.inr (Or.inl rfl))) h.not_rewritten_cd, fun hdir => ?_, hsame⟩
  · -- the links are written last
    rw [← hsaved.marked]
    simp only [volume, hmap]
    exact hsame₄.bitmap_eq
      (fun y hy hmem => hnew y (Or.inr hy) (List.mem_cons_of_mem _ hmem))
      (Nat.le_of_eq h.freeMap.2.symm)
  · rw [← hsaved.table x hx]
    exact hsame₄.contents_eq fun hmem =>
      hnew _ (Or.inl (h.block_of_lt hx)) (List.mem_cons_of_mem _ hmem)
  · simp only [volume, hheader₄]
    exact hlinks₄ hdir

/-- `Find` on the bitmap fails only when no sector is clear. -/
theorem find_bitmap_cases (b : BitMap) (hb : b.numBits = NumSectors) :
    (b.find = (none, b) ∧ b.numClear = 0) ∨
    ∃ x, b.find = (some x, b.setBit x) ∧ x < NumSectors ∧ b.testBit x = false ∧
      (b.setBit x).numClear + 1 = b.numClear := by
  rcases Nat.eq_zero_or_pos b.numClear with hzero | hpos
  · rcases b.find_cases with ⟨i, -, hi, hclear, -⟩ | ⟨hfind, -⟩
    · rw [BitMap.numClear_eq_card, Finset.card_eq_zero] at hzero
      have hmem := BitMap.mem_clearSet.mpr ⟨hi, hclear⟩
      rw [hzero] at hmem
      exact absurd hmem (Finset.notMem_empty i)
    · exact Or.inl ⟨hfind, hzero⟩
  · obtain ⟨x, hfind, hx, hclear, hnum⟩ := BitMap.find_of_numClear_pos hpos
    exact Or.inr ⟨x, hfind, hb ▸ hx, hclear, by omega⟩

/-- The sector of the header and those of the data, in the bitmap. -/
theorem fresh_of_allocate {b b' : BitMap} {x : ℕ} {l : List ℕ} (hx : x < b.numBits)
    (hclear : b.testBit x = false) (hlclear : ∀ y ∈ l, (b.setBit x).testBit y = false)
    (htest : ∀ y, b'.testBit y = true ↔ (b.setBit x).testBit y = true ∨ y ∈ l) :
    x ∉ l ∧ (∀ y ∈ x :: l, b.testBit y = false) ∧
      ∀ y, b'.testBit y = true ↔ b.testBit y = true ∨ y ∈ x :: l := by
  have hbit : ∀ y, (b.setBit x).testBit y = true ↔ x = y ∨ b.testBit y = true := by
    intro y
    rw [BitMap.testBit_setBit hx, Bool.or_eq_true, decide_eq_true_eq]
  have hl : ∀ y ∈ l, x ≠ y ∧ b.testBit y = false := by
    intro y hy
    have hno : ¬ (x = y ∨ b.testBit y = true) := by
      rw [← hbit, hlclear y hy]
      simp
    simpa using hno
  refine ⟨fun hmem => (hl x hmem).1 rfl, ?_, ?_⟩
  · intro y hy
    rcases List.mem_cons.mp hy with rfl | hy
    · exact hclear
    · exact (hl y hy).2
  · intro y
    rw [htest, hbit, List.mem_cons]
    constructor
    · rintro ((rfl | hy) | hy)
      · exact Or.inr (Or.inl rfl)
      · exact Or.inl hy
      · exact Or.inr (Or.inr hy)
    · rintro (hy | rfl | hy)
      · exact Or.inl (Or.inr hy)
      · exact Or.inl (Or.inl rfl)
      · exact Or.inr hy

/-- What `Create` chooses before it writes: entry `i` of the current directory, `sector` for
the header and the sectors `l`; `d` and `b` are the directory and the bitmap in memory. -/
structure Chosen (fs : FileSystem) (name : CString) (isDirectory : Bool) (i sector : ℕ)
    (l : List ℕ) (d : Directory) (b : BitMap) : Prop where
  slot : i < NumDirEntries
  free : ((volume fs.disk).entry fs.cdSector.toNat i).inUse = false
  new_name : ∀ j < NumDirEntries, ((volume fs.disk).entry fs.cdSector.toNat j).inUse = true →
    ((volume fs.disk).entry fs.cdSector.toNat j).name ≠ key name
  nodup : (sector :: l).Nodup
  unmarked : ∀ x ∈ sector :: l, (volume fs.disk).marked x = false ∧ x < NumSectors
  testBit : ∀ x, b.testBit x = true ↔
    (volume fs.disk).marked x = true ∨ x ∈ sector :: l
  entry_new : d.entry i = ⟨true, sector, key name, isDirectory⟩
  table : ∀ x < DirectoryFileSize, x < entrySize * i ∨ entrySize * i + entrySize ≤ x →
    d.table x = contents fs.disk (headerOf fs.disk fs.cdSector.toNat) x

theorem Chosen.entry_other {name : CString} {isDirectory : Bool} {i sector : ℕ} {l : List ℕ}
    {d : Directory} {b : BitMap} (h : Chosen fs name isDirectory i sector l d b) {j : ℕ}
    (hj : j < NumDirEntries) (hne : j ≠ i) :
    d.entry j = (volume fs.disk).entry fs.cdSector.toNat j := by
  refine entryAt_congr fun k hk => h.table _ ?_ ?_
  · have : DirectoryFileSize = 200 := rfl
    simp only [entrySize, NumDirEntries] at *
    omega
  · simp only [entrySize] at *
    omega

/-- A name that is there: `Find` sees it or, where the entry holds sector -1, `Add` does. -/
theorem create_named (h : fs.Mounted) {name : CString} {k : ℕ}
    (hnamed : Named (volume fs.disk) fs.cdSector.toNat k (key name)) (initialSize : ℤ)
    (isDirectory : Bool) (junk : ℕ → ByteMem) :
    fs.create name initialSize isDirectory junk = some (false, fs) := by
  obtain ⟨d, hopen, hsize, -, hentry⟩ := h.openDirectory (junk 0) (junk 1)
  have hfound : d.findIndex name ≠ -1 := by
    rcases findIndex_cases hsize hentry name with ⟨i, hi, -⟩ | ⟨-, hall⟩
    · omega
    · exact absurd hnamed.2.2 (hall k hnamed.1 hnamed.2.1)
  obtain ⟨b, hfetch, hb, -⟩ := fetchFreeMap_of_fits h.freeMapFile h.fits_freeMap (junk 2)
  simp only [create, hopen, Option.bind_eq_bind, Option.bind_some]
  split
  · rfl
  · split
    · rfl
    · simp only [hfetch, Option.bind_some]
      rcases find_bitmap_cases b hb with ⟨hfind, -⟩ | ⟨x, hfind, -⟩
      · simp only [hfind]
      · rw [hfind]
        simp only [Directory.add, if_pos hfound]

/-- What `Create` has before it allocates: entry `i` and `sector` for the header; `d` is the
directory with the entry, `b` the bitmap as it was read. -/
structure Picked (fs : FileSystem) (name : CString) (isDirectory : Bool) (i sector : ℕ)
    (d : Directory) (b : BitMap) : Prop where
  slot : i < NumDirEntries
  free : ((volume fs.disk).entry fs.cdSector.toNat i).inUse = false
  new_name : ∀ j < NumDirEntries, ((volume fs.disk).entry fs.cdSector.toNat j).inUse = true →
    ((volume fs.disk).entry fs.cdSector.toNat j).name ≠ key name
  sector_lt : sector < NumSectors
  clear : b.testBit sector = false
  numBits : b.numBits = NumSectors
  testBit : ∀ x, b.testBit x = (volume fs.disk).marked x
  numClear : (b.setBit sector).numClear + 1 = (volume fs.disk).numClear
  tableSize : d.tableSize = NumDirEntries
  entry_new : d.entry i = ⟨true, sector, key name, isDirectory⟩
  table : ∀ x < DirectoryFileSize, x < entrySize * i ∨ entrySize * i + entrySize ≤ x →
    d.table x = contents fs.disk (headerOf fs.disk fs.cdSector.toNat) x

/-- The rest of `create`, from `Allocate` on. -/
def createAt (fs : FileSystem) (directory : Directory) (freeMap : BitMap) (sector : ℕ)
    (initialSize : ℤ) (isDirectory : Bool) (junk : ℕ → ByteMem) :
    Option (Bool × FileSystem) :=
  match (FileHeader.mk (junk 3)).allocate freeMap initialSize with
  | (false, _, _) => some (false, fs)
  | (true, freeMap, hdr) => do
    let disk ← hdr.writeBack fs.disk sector
    let disk ← directory.writeBack disk ⟨headerOf fs.disk fs.cdSector.toNat, 0⟩ (junk 4)
    let disk ← freeMap.writeBack disk fs.freeMapFile (junk 5)
    let disk ←
      if isDirectory then addLinks disk sector fs.cdSector (junk 6) (junk 7)
      else some disk
    some (true, { fs with disk })

/-- **The choices of `Create`**, for any size. -/
theorem create_choose (h : fs.Mounted) (name : CString) (initialSize : ℤ)
    (isDirectory : Bool) (junk : ℕ → ByteMem) :
    (fs.create name initialSize isDirectory junk = some (false, fs) ∧
      ∀ size, ¬ (volume fs.disk).CanCreate fs.cdSector.toNat (key name) size) ∨
    ∃ i sector d b, Picked fs name isDirectory i sector d b ∧
      fs.create name initialSize isDirectory junk =
        fs.createAt d (b.setBit sector) sector initialSize isDirectory junk := by
  have hN : NumSectors = 1024 := rfl
  obtain ⟨d, hopen, hsize, htable, hentry⟩ := h.openDirectory (junk 0) (junk 1)
  rcases findIndex_cases hsize hentry name with ⟨k, -, hlt, huse, hname⟩ | ⟨hnone, hall⟩
  · exact Or.inl ⟨create_named h ⟨hlt, huse, hname⟩ initialSize isDirectory junk,
      fun size hcan => hcan.1 k hlt huse hname⟩
  simp only [create, hopen, Option.bind_eq_bind, Option.bind_some]
  rw [if_neg (by simp [Directory.find_none hnone]),
    if_neg (by simp [Directory.findDirectory_none hnone])]
  obtain ⟨b, hfetch, hb, htest⟩ := fetchFreeMap_of_fits h.freeMapFile h.fits_freeMap (junk 2)
  have hnum := numClear_eq hb htest
  simp only [hfetch, Option.bind_some]
  rcases find_bitmap_cases b hb with ⟨hfind, hzero⟩ | ⟨x, hfind, hx, hclear, hleft⟩
  · simp only [hfind]
    refine Or.inl ⟨trivial, fun size hcan => ?_⟩
    have := hcan.2.2
    omega
  simp only [hfind]
  rcases d.add_cases name x isDirectory with
    ⟨hfound, -⟩ | ⟨-, hadd, hfull⟩ | ⟨i, d', -, hadd, hi, hfree, hfirst, hsize', hnew, -⟩
  · exact absurd hnone hfound
  · simp only [hadd]
    refine Or.inl ⟨trivial, ?_⟩
    rintro size ⟨-, ⟨j, hj, hjfree⟩, -⟩
    rw [← hentry j hj, hfull j (by omega)] at hjfree
    exact absurd hjfree (by simp)
  simp only [hadd]
  have hother := fun y => Directory.add_other hadd hi hfree hfirst (x := y)
  rw [hsize] at hi
  rw [hentry i hi] at hfree
  exact Or.inr ⟨i, x, d', b, {
    slot := hi
    free := hfree
    new_name := hall
    sector_lt := hx
    clear := hclear
    numBits := hb
    testBit := htest
    numClear := by omega
    tableSize := hsize'.trans hsize
    entry_new := by rw [hnew, toInt_ofInt_small (by omega) (by omega)]
    table := fun y hy hout => (hother y hout).trans (htable y hy) }, rfl⟩

/-- **`Create`** chooses and writes when the name is new and there is room, and otherwise
changes nothing. -/
theorem create_spec (h : fs.Mounted) (name : CString) {initialSize : ℕ}
    (hmax : initialSize ≤ MaxFileSize) {isDirectory : Bool}
    (hroom : isDirectory = true → DirectoryFileSize ≤ initialSize) (junk : ℕ → ByteMem) :
    (fs.create name initialSize isDirectory junk = some (false, fs) ∧
      ¬ (volume fs.disk).CanCreate fs.cdSector.toNat (key name) initialSize) ∨
    ((volume fs.disk).CanCreate fs.cdSector.toNat (key name) initialSize ∧
      ∃ disk' i sector l d b,
        fs.create name initialSize isDirectory junk = some (true, { fs with disk := disk' }) ∧
        Chosen fs name isDirectory i sector l d b ∧
        Flushed fs disk' sector l initialSize isDirectory d b) := by
  rcases create_choose h name initialSize isDirectory junk with
    ⟨hfail, hno⟩ | ⟨i, x, d, b, hpick, hcreate⟩
  · exact Or.inl ⟨hfail, hno initialSize⟩
  rw [hcreate, createAt]
  have hnum := hpick.numClear
  have hb₁ : (b.setBit x).numBits = NumSectors := hpick.numBits
  rcases (FileHeader.mk (junk 3)).allocate_cases hb₁ hmax with
    ⟨hfew, b', hdr, halloc⟩ | ⟨henough, l, b', hdr, halloc, hl, hlclear, hb', htest', -⟩
  · simp only [halloc]
    refine Or.inl ⟨trivial, fun hcan => ?_⟩
    have := hcan.2.2
    omega
  simp only [halloc]
  obtain ⟨hxl, hclear', hmarked⟩ := fresh_of_allocate (hpick.numBits ▸ hpick.sector_lt)
    hpick.clear hlclear htest'
  have hfresh : ∀ y ∈ x :: l, (volume fs.disk).marked y = false := by
    intro y hy
    rw [← hpick.testBit]
    exact hclear' y hy
  obtain ⟨disk₁, disk₂, disk₃, disk₄, hwrite₁, hwrite₂, hwrite₃, hwrite₄, hflush⟩ :=
    flush_spec h hpick.sector_lt hfresh hxl hl hmax hroom hpick.tableSize hb' junk
  refine Or.inr ⟨⟨hpick.new_name, ⟨i, hpick.slot, hpick.free⟩, by omega⟩, disk₄, i, x, l, d,
    b', ?_, ?_, hflush⟩
  · simp only [hwrite₁, Option.bind_eq_bind, Option.bind_some, hwrite₂, hwrite₃]
    split at hwrite₄
    · rename_i hdir
      rw [if_pos hdir, hwrite₄, Option.bind_some]
    · rename_i hdir
      cases hwrite₄
      rw [if_neg hdir]
  · exact {
      slot := hpick.slot
      free := hpick.free
      new_name := hpick.new_name
      nodup := List.nodup_cons.mpr ⟨hxl, hl.nodup⟩
      unmarked := fun y hy => ⟨hfresh y hy, by
        rcases List.mem_cons.mp hy with rfl | hy
        · exact hpick.sector_lt
        · exact hl.lt y hy⟩
      testBit := fun y => by rw [hmarked, hpick.testBit]
      entry_new := hpick.entry_new
      table := hpick.table }

/-! ## §3  `Remove` -/

/-- What `Remove` writes once it has decided: the bitmap, then the directory. -/
theorem erase_spec (h : fs.Mounted) {d : Directory} (hd : d.tableSize = NumDirEntries)
    {b : BitMap} (hb : b.numBits = NumSectors) (junk : ℕ → ByteMem) :
    ∃ disk₁ disk₂, b.writeBack fs.disk fs.freeMapFile (junk 5) = some disk₁ ∧
      d.writeBack disk₁ ⟨headerOf fs.disk fs.cdSector.toNat, 0⟩ (junk 6) = some disk₂ ∧
      headerOf disk₂ FreeMapSector = headerOf fs.disk FreeMapSector ∧
      headerOf disk₂ fs.cdSector.toNat = headerOf fs.disk fs.cdSector.toNat ∧
      (∀ x, (volume disk₂).marked x = b.testBit x) ∧
      (∀ j < NumDirEntries, (volume disk₂).entry fs.cdSector.toNat j = d.entry j) ∧
      SameOff fs.Rewritten fs.disk disk₂ := by
  obtain ⟨len, hlen, hfits, hlength⟩ := h.fits_cd
  obtain ⟨disk₁, hwrite₁, htest₁, hsame₁⟩ := freeMap_writeBack_spec fs.disk
    fs.freeMapFile (by rw [h.freeMapFile]; exact h.fits_freeMap)
    (by rw [h.freeMapFile]; exact h.freeMap.2) hb (junk 5)
  rw [h.freeMapFile] at htest₁ hsame₁
  obtain ⟨disk₂, hwrite₂, hentry₂, hsame₂⟩ := Directory.writeBack_spec disk₁
    ⟨headerOf fs.disk fs.cdSector.toNat, 0⟩ hfits hlen hlength hd (junk 6)
  have hsame : SameOff fs.Rewritten fs.disk disk₂ := hsame₁.trans hsame₂ fun _ hs => hs.symm
  have hmap := hsame.headerOf_eq h.not_rewritten_freeMap
  have hcdheader := hsame.headerOf_eq h.not_rewritten_cd
  refine ⟨disk₁, disk₂, hwrite₁, hwrite₂, hmap, hcdheader, fun x => ?_, fun j hj => ?_, hsame⟩
  · rw [← htest₁]
    simp only [volume, hmap]
    exact hsame₂.bitmap_eq (fun y hy hmem => h.disjoint (List.mem_cons_of_mem _ hy)
      (List.mem_cons_of_mem _ hmem)) (Nat.le_of_eq h.freeMap.2.symm)
  · rw [← hentry₂ j hj]
    simp only [volume, hcdheader]

/-- The disk after `Remove` has freed entry `i` of the current directory and the sectors of
what it held. -/
structure Freed (fs : FileSystem) (disk' : Disk) (i : ℕ) : Prop where
  marked : ∀ x, (volume disk').marked x = true ↔ (volume fs.disk).marked x = true ∧
    x ∉ ((volume fs.disk).entry fs.cdSector.toNat i).sector.toNat ::
      (volume fs.disk).blocks ((volume fs.disk).entry fs.cdSector.toNat i).sector.toNat
  freed : ((volume disk').entry fs.cdSector.toNat i).inUse = false
  entry_other : ∀ j < NumDirEntries, j ≠ i →
    (volume disk').entry fs.cdSector.toNat j = (volume fs.disk).entry fs.cdSector.toNat j
  freeMap : headerOf disk' FreeMapSector = headerOf fs.disk FreeMapSector
  directory : headerOf disk' fs.cdSector.toNat = headerOf fs.disk fs.cdSector.toNat
  same : SameOff fs.Rewritten fs.disk disk'

/-- A name that is not there. -/
theorem remove_none (h : fs.Mounted) {name : CString}
    (hnone : ∀ i, ¬ Named (volume fs.disk) fs.cdSector.toNat i (key name))
    (junk : ℕ → ByteMem) : fs.remove name junk = some (false, fs) := by
  obtain ⟨d, hopen, hsize, -, hentry⟩ := h.openDirectory (junk 0) (junk 1)
  simp only [remove, hopen, Option.bind_eq_bind, Option.bind_some]
  rcases findIndex_cases hsize hentry name with ⟨i, -, hlt, huse, hname⟩ | ⟨hno, -⟩
  · exact absurd ⟨hlt, huse, hname⟩ (hnone i)
  · rw [if_pos (Directory.find_none hno)]

/-- **`Remove`** frees the one entry of the name, if its sectors are marked and different;
`full` is what the check of a directory says. -/
theorem remove_spec (h : fs.Mounted) {name : CString} {i sector : ℕ}
    (hnamed : Named (volume fs.disk) fs.cdSector.toNat i (key name))
    (honly : ∀ j, Named (volume fs.disk) fs.cdSector.toNat j (key name) → j = i)
    (hsec : ((volume fs.disk).entry fs.cdSector.toNat i).sector = sector)
    (hmarked : ∀ x ∈ sector :: (volume fs.disk).blocks sector,
      0 < x ∧ (volume fs.disk).marked x = true)
    (hnodup : ((volume fs.disk).blocks sector).Nodup) (junk : ℕ → ByteMem) {full : Bool}
    (hfull : isFull fs.disk sector
      ((volume fs.disk).entry fs.cdSector.toNat i).isDirectory (junk 3) (junk 4) =
        some full) :
    (full = true ∧ fs.remove name junk = some (false, fs)) ∨
    (full = false ∧ ∃ disk',
      fs.remove name junk = some (true, { fs with disk := disk' }) ∧ Freed fs disk' i) := by
  obtain ⟨d, hopen, hsize, hentry, hi, hfind, hfindDir⟩ :=
    h.openDirectory_named hnamed honly hsec (junk 0) (junk 1)
  have hlt : i < NumDirEntries := hnamed.1
  simp only [remove, hopen, Option.bind_eq_bind, Option.bind_some]
  have hsectorlt : sector < NumSectors := marked_lt (hmarked _ List.mem_cons_self).2
  have hdirectory : (decide (d.findDirectory name ≠ -1)) =
      ((volume fs.disk).entry fs.cdSector.toNat i).isDirectory := by
    rw [hfindDir]
    cases ((volume fs.disk).entry fs.cdSector.toNat i).isDirectory with
    | true => simp only [if_true, decide_eq_true_eq]; omega
    | false => simp
  obtain ⟨b, hfetch, hb, htest⟩ := fetchFreeMap_of_fits h.freeMapFile h.fits_freeMap (junk 2)
  rw [hdirectory, hfind, if_neg (by omega), fetchFrom_eq hsectorlt]
  simp only [Option.bind_some, hfetch, hfull]
  cases full with
  | true => exact Or.inl ⟨rfl, if_pos rfl⟩
  | false =>
      refine Or.inr ⟨rfl, ?_⟩
      obtain ⟨b', hdealloc, hb', htest'⟩ := FileHeader.deallocate_eq
        (h := headerOf fs.disk sector) hb
        (fun x hx => by
          obtain ⟨hpos, hx⟩ := hmarked x (List.mem_cons_of_mem _ hx)
          exact ⟨hpos, marked_lt hx, (htest x).trans hx⟩) hnodup
      rcases d.remove_cases name with ⟨hno, -⟩ | ⟨k, d', hk, -, hremove, hsize', hold, hother⟩
      · rw [hi] at hno
        omega
      obtain rfl : i = k := by
        rw [hi] at hk
        exact_mod_cast hk
      obtain ⟨disk₁, disk₂, hwrite₁, hwrite₂, hmap, hcd, hmarks, hentries, hsame⟩ :=
        erase_spec h (hsize'.trans hsize) (b := b'.clearBit sector) hb' junk
      refine ⟨disk₂, ?_, fun x => ?_, ?_, fun j hj hne => ?_, hmap, hcd, hsame⟩
      · rw [if_neg (by simp), hdealloc, Option.bind_some,
          BitMap.clear_natCast (by omega), Option.bind_some]
        simp only [hremove, hwrite₁, hwrite₂, Option.bind_some]
      · rw [hmarks, BitMap.testBit_clearBit (by omega), Bool.and_eq_true, Bool.not_eq_true',
          decide_eq_false_iff_not, htest', htest, hsec, Int.toNat_natCast, List.mem_cons,
          not_or]
        constructor
        · rintro ⟨hne, hx, hout⟩
          exact ⟨hx, fun heq => hne heq.symm, hout⟩
        · rintro ⟨hx, hne, hout⟩
          exact ⟨fun heq => hne heq.symm, hx, hout⟩
      · rw [hentries i hlt, hold]
      · rw [hentries j hj, hother j hne, hentry j hj]

end FileSystem

end OsAssignments.Filesys
