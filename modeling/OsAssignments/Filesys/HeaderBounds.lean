import OsAssignments.Filesys.Creation

/-!
# Headers and their sector

A header is one sector and has room for 30 data sectors, but `Allocate` compares the size
asked for only with the number of clear sectors. A file that is too large is refused when the
disk is nearly full; otherwise the loop of `Allocate` goes on past the end of the header, and
`Create` returns `TRUE`.

- `fits_iff` — a call keeps the header inside its sector, and refuses what does not fit, exactly
  for sizes up to `MaxFileSize` and for calls that are refused in any case.
-/

namespace OsAssignments.Filesys

open Volume

namespace FileHeader

variable {h : FileHeader} {b : BitMap} {fileSize : ℤ}

/-! ## §1  `Allocate` -/

/-- `Allocate` writes nothing past the end of the header, and refuses a file that is too
large; the bitmap is then as before. -/
structure AllocateFits (h : FileHeader) (b : BitMap) (fileSize : ℤ) : Prop where
  numSectors : ∀ b' h', h.allocate b fileSize = (true, b', h') → h'.numSectors ≤ NumDirect
  inside : ∀ b' h', h.allocate b fileSize = (true, b', h') →
    ∀ x, SectorSize ≤ x → h'.mem x = h.mem x
  refused : MaxFileSize < fileSize → ∃ h', h.allocate b fileSize = (false, b, h')

theorem mem_setDataSectors {i x : ℕ} (hi : i < NumDirect) (hx : SectorSize ≤ x) (n : ℤ) :
    (h.setDataSectors i n).mem x = h.mem x := by
  have hN : NumDirect = 30 := rfl
  have hS : SectorSize = 128 := rfl
  exact ByteMem.setWord_outside _ _ (by omega)

/-- The loop of `Allocate` writes the slots that it goes through. -/
theorem allocateLoop_inside (l : List ℕ) (hl : ∀ i ∈ l, i < NumDirect) (b : BitMap)
    (h : FileHeader) : (allocateLoop l b h).2.numSectors = h.numSectors ∧
      (allocateLoop l b h).2.numBytes = h.numBytes ∧
      ∀ x, SectorSize ≤ x → (allocateLoop l b h).2.mem x = h.mem x := by
  induction l generalizing b h with
  | nil => exact ⟨rfl, rfl, fun _ _ => rfl⟩
  | cons i l ih =>
      have hi := hl i List.mem_cons_self
      have hturn : ∃ b' n, allocateLoop (i :: l) b h =
          allocateLoop l b' (h.setDataSectors i n) := by
        simp only [allocateLoop, List.foldl_cons]
        cases b.find with
        | mk found b' =>
            cases found with
            | none => exact ⟨b', -1, rfl⟩
            | some sector => exact ⟨b', sector, rfl⟩
      obtain ⟨b', n, hturn⟩ := hturn
      obtain ⟨hsectors, hbytes, hmem⟩ :=
        ih (fun j hj => hl j (List.mem_cons_of_mem _ hj)) b' (h.setDataSectors i n)
      rw [hturn]
      refine ⟨?_, ?_, fun x hx => ?_⟩
      · rw [hsectors, numSectors_setDataSectors]
      · rw [hbytes, numBytes_setDataSectors]
      · rw [hmem x hx, mem_setDataSectors hi hx]

/-- In C the quotient of a negative size is rounded up. -/
theorem intDivRoundUp_nonpos (hneg : fileSize ≤ 0) :
    fileSize ≤ intDivRoundUp fileSize SectorSize ∧
      intDivRoundUp fileSize SectorSize ≤ 0 := by
  obtain ⟨m, rfl⟩ : ∃ m : ℕ, fileSize = -m := ⟨fileSize.natAbs, by omega⟩
  have hdiv := Nat.div_le_self m SectorSize
  rw [intDivRoundUp, Int.neg_tdiv, Int.neg_tmod,
    Int.tdiv_eq_ediv_of_nonneg (Int.natCast_nonneg m),
    Int.tmod_eq_emod_of_nonneg (Int.natCast_nonneg m), ← Int.natCast_emod,
    ← Int.natCast_ediv]
  generalize m % SectorSize = r
  generalize m / SectorSize = q at hdiv ⊢
  rw [if_neg (by omega)]
  omega

/-- A size that fits needs no more data sectors than there are slots. -/
theorem intDivRoundUp_le (hmax : fileSize ≤ MaxFileSize) :
    intDivRoundUp fileSize SectorSize ≤ NumDirect := by
  rcases Int.le_total 0 fileSize with hpos | hneg
  · obtain ⟨n, rfl⟩ := Int.eq_ofNat_of_zero_le hpos
    rw [intDivRoundUp_natCast]
    exact_mod_cast divRoundUp_le_numDirect (by exact_mod_cast hmax)
  · exact Int.le_trans (intDivRoundUp_nonpos hneg).2 (Int.natCast_nonneg _)

/-- **A header for a size that fits** has the two numbers and is written inside. -/
theorem allocate_inside (hmin : -0x80000000 ≤ fileSize) (hmax : fileSize ≤ MaxFileSize)
    {b' : BitMap} {h' : FileHeader} (halloc : h.allocate b fileSize = (true, b', h')) :
    h'.numSectors = intDivRoundUp fileSize SectorSize ∧ h'.numBytes = fileSize ∧
      ∀ x, SectorSize ≤ x → h'.mem x = h.mem x := by
  have hM : MaxFileSize = 3840 := rfl
  have hN : NumDirect = 30 := rfl
  have hS : SectorSize = 128 := rfl
  have hle := intDivRoundUp_le hmax
  have hge : -0x80000000 ≤ intDivRoundUp fileSize SectorSize := by
    rcases Int.le_total 0 fileSize with hpos | hneg
    · obtain ⟨n, rfl⟩ := Int.eq_ofNat_of_zero_le hpos
      rw [intDivRoundUp_natCast]
      omega
    · exact Int.le_trans hmin (intDivRoundUp_nonpos hneg).1
  obtain ⟨hsectors, hbytes, hmem⟩ := allocateLoop_inside
    (List.range (intDivRoundUp fileSize SectorSize).toNat)
    (fun i hi => by have := List.mem_range.mp hi; omega) b
    ((h.setNumBytes fileSize).setNumSectors (intDivRoundUp fileSize SectorSize))
  simp only [allocate] at halloc
  split at halloc
  · cases halloc
  · rw [Prod.mk.injEq] at halloc
    rw [halloc.2] at hsectors hbytes hmem
    refine ⟨hsectors.trans ?_, hbytes.trans ?_, fun x hx => (hmem x hx).trans ?_⟩
    · rw [numSectors, setNumSectors, ByteMem.word_setWord,
        BitVec.toInt_ofInt_eq_self (by decide) (by omega) (by omega)]
    · rw [numBytes, setNumSectors, ByteMem.word_setWord_disjoint _ _ (by omega), setNumBytes,
        ByteMem.word_setWord, BitVec.toInt_ofInt_eq_self (by decide) (by omega) (by omega)]
    · exact (ByteMem.setWord_outside _ _ (by omega)).trans
        (ByteMem.setWord_outside _ _ (by omega))

/-- **`Allocate`** keeps to the header exactly for the sizes that fit and where it fails
anyway. -/
theorem allocateFits_iff (h : FileHeader) (b : BitMap) (fileSize : BitVec 32) :
    h.AllocateFits b fileSize.toInt ↔ fileSize.toInt ≤ MaxFileSize ∨
      (b.numClear : ℤ) < intDivRoundUp fileSize.toInt SectorSize := by
  have hmin : -0x80000000 ≤ fileSize.toInt := BitVec.le_toInt fileSize
  constructor
  · intro hfits
    by_contra hno
    rw [not_or] at hno
    obtain ⟨h', halloc⟩ := hfits.refused (by omega)
    rw [allocate, if_neg hno.2] at halloc
    cases halloc
  · rintro (hmax | hfew)
    · exact {
        numSectors := fun b' h' halloc =>
          (allocate_inside hmin hmax halloc).1 ▸ intDivRoundUp_le hmax
        inside := fun b' h' halloc => (allocate_inside hmin hmax halloc).2.2
        refused := fun hlarge => absurd hmax (by omega) }
    · have halloc : h.allocate b fileSize.toInt =
          (false, b, (h.setNumBytes fileSize.toInt).setNumSectors
            (intDivRoundUp fileSize.toInt SectorSize)) := if_pos hfew
      exact {
        numSectors := fun b' h' htrue => by rw [halloc] at htrue; cases htrue
        inside := fun b' h' htrue => by rw [halloc] at htrue; cases htrue
        refused := fun _ => ⟨_, halloc⟩ }

end FileHeader

namespace FileSystem

variable {fs : FileSystem}

/-! ## §2  `Create` -/

/-- The header in `sector` is opened as that of a file of `size` bytes that is read to its
end. -/
def ReadsBack (disk : Disk) (sector size : ℤ) : Prop :=
  ∃ f, OpenFile.new disk sector = some f ∧ f.hdr.numSectors ≤ NumDirect ∧
    f.hdr.fileLength = size ∧ ∀ junk into, f.readAt disk junk into 0 size 0 =
      some (size.toNat, bcopy (contents disk f.hdr) 0 into 0 size.toNat)

/-- `Create` stores a file that can be read back, and refuses one that is too large; nothing
is then changed. -/
structure CreateFits (fs : FileSystem) (name : CString) (initialSize : ℤ)
    (isDirectory : Bool) (junk : ℕ → ByteMem) : Prop where
  stored : ∀ fs', fs.create name initialSize isDirectory junk = some (true, fs') →
    ∃ i, Named (volume fs'.disk) fs.cdSector.toNat i (key name) ∧
      ReadsBack fs'.disk ((volume fs'.disk).entry fs.cdSector.toNat i).sector initialSize
  refused : MaxFileSize < initialSize →
    fs.create name initialSize isDirectory junk = some (false, fs)

theorem readsBack_of_lists {disk : Disk} {sector size : ℕ} {l : List ℕ}
    (hsector : sector < NumSectors) (hmax : size ≤ MaxFileSize)
    (hl : (headerOf disk sector).Lists size l) : ReadsBack disk sector size := by
  refine ⟨⟨headerOf disk sector, 0⟩, ?_, ?_, hl.numBytes, fun junk into => ?_⟩
  · rw [OpenFile.new, fetchFrom_eq hsector, Option.map_some]
  · rw [hl.numSectors, hl.length]
    exact_mod_cast FileHeader.divRoundUp_le_numDirect hmax
  · have hall : transferred size size 0 = size := by
      rw [transferred]
      omega
    have hsum : Representable size size 0 := hl.fits.representable_inside (by omega)
    rw [OpenFile.readAt_eq disk hl.fits _ _ _ hsum, hall, Int.toNat_natCast]

/-- A file of negative length: nothing is read. -/
theorem readsBack_of_nonpos {disk : Disk} {sector : ℕ} {size : ℤ}
    (hsector : sector < NumSectors) (hneg : size ≤ 0)
    (hsectors : (headerOf disk sector).numSectors ≤ NumDirect)
    (hbytes : (headerOf disk sector).numBytes = size) : ReadsBack disk sector size := by
  refine ⟨⟨headerOf disk sector, 0⟩, ?_, hsectors, hbytes, fun junk into => ?_⟩
  · rw [OpenFile.new, fetchFrom_eq hsector, Option.map_some]
  · rw [OpenFile.readAt, if_pos (Or.inl hneg), Int.toNat_of_nonpos hneg, OpenFile.bcopy_none]

section

variable {name : CString} {isDirectory : Bool} {i sector : ℕ} {d : Directory} {b : BitMap}
  {initialSize : ℤ} {junk : ℕ → ByteMem}

/-- What is left to ask once the entry and the sector of the header are there. -/
theorem Picked.canCreate_iff (hpick : Picked fs name isDirectory i sector d b) (size : ℕ) :
    (volume fs.disk).CanCreate fs.cdSector.toNat (key name) size ↔
      divRoundUp size SectorSize ≤ (b.setBit sector).numClear := by
  have hnum := hpick.numClear
  constructor
  · intro hcan
    have := hcan.2.2
    omega
  · exact fun hle => ⟨hpick.new_name, ⟨i, hpick.slot, hpick.free⟩, by omega⟩

/-- After `Allocate` nothing makes `Create` return `FALSE`. -/
theorem createAt_eq_false (hcreate : fs.createAt d b sector initialSize isDirectory junk =
    some (false, fs)) : (b.numClear : ℤ) < intDivRoundUp initialSize SectorSize := by
  by_contra henough
  rw [createAt, FileHeader.allocate, if_neg henough] at hcreate
  simp only [Option.bind_eq_bind, Option.bind_eq_some_iff] at hcreate
  obtain ⟨disk₁, -, disk₂, -, disk₃, -, hlast⟩ := hcreate
  cases isDirectory with
  | false => cases hlast
  | true =>
      simp only [if_true, Option.bind_eq_some_iff] at hlast
      obtain ⟨disk₄, -, hlast⟩ := hlast
      cases hlast

/-- `Create` with a negative size writes a header without data sectors. -/
theorem createAt_of_neg (h : fs.Mounted)
    (hpick : Picked fs name false i sector d b) (hmin : -0x80000000 ≤ initialSize)
    (hneg : initialSize < 0) {fs' : FileSystem}
    (hcreate : fs.createAt d (b.setBit sector) sector initialSize false junk =
      some (true, fs')) :
    (volume fs'.disk).entry fs.cdSector.toNat i = ⟨true, sector, key name, false⟩ ∧
      ReadsBack fs'.disk sector initialSize := by
  have hnone : intDivRoundUp initialSize SectorSize ≤ 0 :=
    (FileHeader.intDivRoundUp_nonpos (Int.le_of_lt hneg)).2
  obtain ⟨hdr, halloc⟩ : ∃ hdr, (FileHeader.mk (junk 3)).allocate (b.setBit sector)
      initialSize = (true, b.setBit sector, hdr) := by
    simp only [FileHeader.allocate, Int.toNat_of_nonpos hnone]
    exact ⟨_, if_neg (by omega)⟩
  obtain ⟨hsectors, hbytes, -⟩ :=
    FileHeader.allocate_inside hmin (Int.le_trans (Int.le_of_lt hneg) (Int.natCast_nonneg _))
      halloc
  have hfresh : (volume fs.disk).marked sector = false := by
    rw [← hpick.testBit]
    exact hpick.clear
  obtain ⟨disk₁, hwrite₁, hbytes₁, hsectors₁, -⟩ :=
    hdr.writeBack_spec fs.disk hpick.sector_lt
  obtain ⟨disk₂, disk₃, hwrite₂, hwrite₃, hsaved⟩ := save_spec h hpick.sector_lt hfresh hdr
    hpick.tableSize (b := b.setBit sector) hpick.numBits junk hwrite₁
  simp only [createAt, halloc, hwrite₁, hwrite₂, hwrite₃, Option.bind_eq_bind,
    Option.bind_some, Bool.false_eq_true, if_false] at hcreate
  cases hcreate
  have hhome : fs.cdSector.toNat ≠ sector := by
    rintro rfl
    exact h.not_mem_of_clear (l := [fs.cdSector.toNat]) (by simpa using hfresh)
      (mem_home.mpr (Or.inr (Or.inl rfl))) List.mem_cons_self
  have hdirectory : headerOf disk₃ fs.cdSector.toNat = headerOf fs.disk fs.cdSector.toNat :=
    hsaved.same.headerOf_eq (not_or.mpr ⟨hhome, h.not_rewritten_cd⟩)
  refine ⟨(h.entry_of_table hdirectory hsaved.table hpick.slot).trans hpick.entry_new,
    readsBack_of_nonpos hpick.sector_lt (Int.le_of_lt hneg) ?_ ?_⟩
  · rw [hsaved.header, hsectors₁, hsectors]
    exact Int.le_trans hnone (Int.natCast_nonneg _)
  · rw [hsaved.header, hbytes₁, hbytes]

end

/-- The entry that a call makes is the one of the name, and leads to the header. -/
theorem createFits_stored (h : fs.Mounted) (name : CString) (initialSize : BitVec 32)
    (hmax : initialSize.toInt ≤ MaxFileSize) {isDirectory : Bool}
    (hroom : isDirectory = true → DirectoryFileSize ≤ initialSize.toInt)
    (junk : ℕ → ByteMem) {fs' : FileSystem}
    (hcreate : fs.create name initialSize.toInt isDirectory junk = some (true, fs')) :
    ∃ i, Named (volume fs'.disk) fs.cdSector.toNat i (key name) ∧
      ReadsBack fs'.disk ((volume fs'.disk).entry fs.cdSector.toNat i).sector
        initialSize.toInt := by
  have hmin : -0x80000000 ≤ initialSize.toInt := BitVec.le_toInt initialSize
  rcases Int.lt_or_le initialSize.toInt 0 with hneg | hpos
  · obtain rfl : isDirectory = false := by
      by_contra hdir
      have := hroom (by simpa using hdir)
      have := Int.natCast_nonneg DirectoryFileSize
      omega
    rcases create_choose h name initialSize.toInt false junk with
      ⟨hfail, -⟩ | ⟨i, sector, d, b, hpick, heq⟩
    · rw [hfail] at hcreate
      cases hcreate
    rw [heq] at hcreate
    obtain ⟨hentry, hback⟩ := createAt_of_neg h hpick hmin hneg hcreate
    refine ⟨i, ⟨hpick.slot, by rw [hentry], by rw [hentry]⟩, ?_⟩
    rw [hentry]
    exact hback
  · obtain ⟨size, hsize⟩ := Int.eq_ofNat_of_zero_le hpos
    rw [hsize] at hmax hroom hcreate ⊢
    rw [Int.ofNat_le] at hmax
    rcases create_spec h name hmax (fun hdir => Int.ofNat_le.mp (hroom hdir)) junk with
      ⟨hfail, -⟩ | ⟨-, disk', i, sector, l, d, b, hok, hchosen, hflush⟩
    · rw [hfail] at hcreate
      cases hcreate
    rw [hok] at hcreate
    cases hcreate
    have hinstalled := Installed.of_flushed h hchosen hflush
    refine ⟨i, (hinstalled.named hchosen.new_name).1, ?_⟩
    rw [hinstalled.entry_new]
    exact readsBack_of_lists (hchosen.unmarked sector List.mem_cons_self).2 hmax hflush.lists

/-- **`Create`** makes files that can be read back exactly for the sizes that fit and where it
fails anyway. -/
theorem createFits_iff (h : fs.Mounted) (name : CString) (initialSize : BitVec 32)
    {isDirectory : Bool}
    (hroom : isDirectory = true → DirectoryFileSize ≤ initialSize.toInt)
    (junk : ℕ → ByteMem) :
    CreateFits fs name initialSize.toInt isDirectory junk ↔
      initialSize.toInt ≤ MaxFileSize ∨ ¬ (volume fs.disk).CanCreate fs.cdSector.toNat
        (key name) initialSize.toInt.toNat := by
  have hchoose := create_choose h name initialSize.toInt isDirectory junk
  constructor
  · intro hfits
    by_contra hno
    rw [not_or, not_not] at hno
    obtain ⟨hlarge, hcan⟩ := hno
    have hrefused := hfits.refused (by omega)
    rcases hchoose with ⟨-, hno⟩ | ⟨i, sector, d, b, hpick, heq⟩
    · exact hno _ hcan
    · rw [heq] at hrefused
      have hfew := createAt_eq_false hrefused
      have henough := (hpick.canCreate_iff _).mp hcan
      rw [← Int.toNat_of_nonneg (a := initialSize.toInt) (by omega),
        intDivRoundUp_natCast] at hfew
      omega
  · rintro (hmax | hcannot)
    · exact {
        stored := fun fs' hcreate => createFits_stored h name initialSize hmax hroom junk hcreate
        refused := fun hlarge => absurd hmax (by omega) }
    by_cases hmax : initialSize.toInt ≤ MaxFileSize
    · exact {
        stored := fun fs' hcreate => createFits_stored h name initialSize hmax hroom junk hcreate
        refused := fun hlarge => absurd hmax (by omega) }
    have hrefused : fs.create name initialSize.toInt isDirectory junk = some (false, fs) := by
      rcases hchoose with ⟨hfail, -⟩ | ⟨i, sector, d, b, hpick, heq⟩
      · exact hfail
      rw [hpick.canCreate_iff] at hcannot
      rw [heq, createAt, FileHeader.allocate, if_pos]
      rw [← Int.toNat_of_nonneg (a := initialSize.toInt) (by omega), intDivRoundUp_natCast]
      omega
    exact {
      stored := fun fs' hcreate => by rw [hrefused] at hcreate; cases hcreate
      refused := fun _ => hrefused }

/-- **Headers keep to their sector** exactly for the sizes that fit and where the call fails
anyway: in `Allocate` for want of clear sectors, in `Create` also because the name is taken or
the directory is full. -/
theorem fits_iff (h : fs.Mounted) (name : CString) (initialSize : BitVec 32)
    {isDirectory : Bool}
    (hroom : isDirectory = true → DirectoryFileSize ≤ initialSize.toInt)
    (junk : ℕ → ByteMem) :
    (∀ (hdr : FileHeader) (b : BitMap), hdr.AllocateFits b initialSize.toInt ↔
      initialSize.toInt ≤ MaxFileSize ∨
        (b.numClear : ℤ) < intDivRoundUp initialSize.toInt SectorSize) ∧
    (CreateFits fs name initialSize.toInt isDirectory junk ↔
      initialSize.toInt ≤ MaxFileSize ∨ ¬ (volume fs.disk).CanCreate fs.cdSector.toNat
        (key name) initialSize.toInt.toNat) :=
  ⟨fun hdr b => hdr.allocateFits_iff b initialSize, createFits_iff h name initialSize hroom junk⟩

/-- A file of thirty sectors, and one of negative length, on a formatted disk. -/
theorem fits_iff_formatted : ∃ fs : FileSystem,
    FileSystem.new true (fun _ => 0xff) (fun _ _ => 0xff) = some fs ∧
      CreateFits fs nameA 3840 false (fun _ _ => 0xff) ∧
      CreateFits fs nameA (-5) false (fun _ _ => 0xff) := by
  obtain ⟨fs, -, -, hnew, hsound, -⟩ := new_format (fun _ => 0xff) fun _ _ => 0xff
  have hneg : (BitVec.ofInt 32 (-5)).toInt = -5 := by decide
  refine ⟨fs, hnew, ?_, hneg ▸ ?_⟩
  · exact (fits_iff hsound.intact.mounted nameA 3840#32 (by simp) _).2.mpr
      (Or.inl (by decide))
  · exact (fits_iff hsound.intact.mounted nameA (BitVec.ofInt 32 (-5)) (by simp) _).2.mpr
      (Or.inl (by decide))

/-- One byte more than thirty sectors, on a formatted disk: the call returns `TRUE`, and the
stored header counts 31 data sectors. -/
theorem not_fits_thirtyOne : ∃ fs fs' : FileSystem,
    FileSystem.new true (fun _ => 0xff) (fun _ _ => 0xff) = some fs ∧
      fs.create nameA 3841 false (fun _ _ => 0xff) = some (true, fs') ∧
      (headerOf fs'.disk ((volume fs'.disk).entry DirectorySector 0).sector.toNat).numSectors =
        31 ∧ ¬ CreateFits fs nameA 3841 false (fun _ _ => 0xff) := by
  have hcreate : ((FileSystem.new true (fun _ => 0xff) (fun _ _ => 0xff)).bind fun fs =>
      (fs.create nameA 3841 false fun _ _ => 0xff).map fun r => (r.1,
        (headerOf r.2.disk
          ((volume r.2.disk).entry DirectorySector 0).sector.toNat).numSectors)) =
      some (true, 31) := by
    decide +kernel
  simp only [Option.bind_eq_some_iff, Option.map_eq_some_iff, Prod.mk.injEq] at hcreate
  obtain ⟨fs, hnew, ⟨r, fs'⟩, hfs', rfl, hsectors⟩ := hcreate
  refine ⟨fs, fs', hnew, hfs', hsectors, fun hfits => ?_⟩
  rw [hfits.refused (by decide)] at hfs'
  cases hfs'

end FileSystem

end OsAssignments.Filesys
