import OsAssignments.MemoryManagement.Paging

/-!
# The first load of a page

`LoadFromExecutable` fills a frame with the bytes of the executable, or with zeros
where the whole page lies past the image. A page that the image ends in gets what the
file holds there; where the file ends too, the frame keeps what it had.

- `load_first` — what the first load puts into the frame.
- `firstLoad_image_iff` — the page shows the program image, whatever was in memory,
  iff it is filled (`Filled`).
- `stale_byte_seen` — it is not where the image ends inside the page.
-/

namespace OsAssignments.MemoryManagement

namespace AddrSpace

/-! ## §1  The image -/

/-- The size of code and initialised data. -/
def imageSize (sp : AddrSpace) : ℕ :=
  sp.noffH.code.size.toNat + sp.noffH.initData.size.toNat

/-- The layout that `coff2noff` produces: code at virtual address 0, initialised data
behind it, in memory as in the file. Its addresses in the file are `int`s. -/
structure Laid (sp : AddrSpace) : Prop where
  code : sp.noffH.code.virtualAddr = 0
  initData : sp.noffH.initData.size ≠ 0 →
    sp.noffH.initData.virtualAddr = sp.noffH.code.size ∧
      sp.noffH.initData.inFileAddr = sp.noffH.code.inFileAddr + sp.noffH.code.size
  inFile : sp.noffH.code.inFileAddr.toNat + sp.imageSize ≤ sp.executable.size
  int : sp.executable.size < 0x80000000

/-- Byte `a` of the program: code, initialised data, then zeros. -/
def image (sp : AddrSpace) (a : ℕ) : Byte :=
  if a < sp.imageSize then
    sp.executable.data (sp.noffH.code.inFileAddr.toNat + a)
  else 0

/-- The same program: header, size and file. -/
structure SameProgram (sp sp' : AddrSpace) : Prop where
  noffH : sp'.noffH = sp.noffH
  executable : sp'.executable = sp.executable
  numPages : sp'.numPages = sp.numPages

theorem SameProgram.trans {sp sp' sp'' : AddrSpace} (h : SameProgram sp sp')
    (h' : SameProgram sp' sp'') : SameProgram sp sp'' :=
  ⟨h'.noffH.trans h.noffH, h'.executable.trans h.executable, h'.numPages.trans h.numPages⟩

theorem SameProgram.seeksBefore_iff {sp sp' : AddrSpace} (h : SameProgram sp sp') {p : ℕ} :
    sp'.SeeksBefore p ↔ sp.SeeksBefore p := by
  unfold SeeksBefore PastImage readAddr
  rw [h.noffH]

theorem SameProgram.laid {sp sp' : AddrSpace} (h : SameProgram sp sp') (hlaid : sp.Laid) :
    sp'.Laid ∧ sp'.imageSize = sp.imageSize := by
  have hsize : sp'.imageSize = sp.imageSize := by rw [imageSize, imageSize, h.noffH]
  refine ⟨⟨?_, ?_, ?_, ?_⟩, hsize⟩
  · rw [h.noffH]
    exact hlaid.code
  · rw [h.noffH]
    exact hlaid.initData
  · rw [hsize, h.noffH, h.executable]
    exact hlaid.inFile
  · rw [h.executable]
    exact hlaid.int

theorem program_filled (mem : ByteMem) (sp : AddrSpace) (p f : ℕ) :
    (sp.filled mem p f).2.noffH = sp.noffH ∧
      (sp.filled mem p f).2.executable = sp.executable := by
  rw [filled_eq]
  split <;> exact ⟨rfl, rfl⟩

theorem sameProgram_load (pm : PhysMemory) {sp : AddrSpace} {p : ℕ} (h : sp.Wf)
    (hp : p < sp.numPages) :
    SameProgram sp (sp.loaded pm p).2.2 := by
  refine ⟨?_, ?_, numPages_load h hp⟩ <;>
    rcases loaded_cases pm h hp with
      ⟨-, heq⟩ | ⟨-, f, -, -, heq⟩ | ⟨-, -, pre, v, post, f, -, -, heq⟩ | ⟨-, -, heq⟩ <;>
    rw [heq]
  · rfl
  · exact (program_filled _ _ p f).1
  · exact (program_filled _ _ p f).1
  · rfl
  · rfl
  · exact (program_filled _ _ p f).2
  · exact (program_filled _ _ p f).2
  · rfl

/-- Every byte of page `p` is that of the program. -/
def ShowsImage (program : AddrSpace) (mem : ByteMem) (sp : AddrSpace) (p : ℕ) : Prop :=
  ∀ a, a / PageSize = p → view mem sp a = some (program.image a)

/-! ## §2  What the first load does -/

theorem loadImage_at {mem mem' : ByteMem} {sp : AddrSpace} {p f : ℕ}
    (h : sp.loadImage mem p f = some mem') {i : ℕ} (hi : i < PageSize) :
    (sp.PastImage p → mem' (f * PageSize + i) = 0) ∧
    (¬ sp.PastImage p → mem' (f * PageSize + i) =
      if sp.readAddr p + i < sp.executable.size then sp.executable.data (sp.readAddr p + i)
      else mem (f * PageSize + i)) := by
  unfold loadImage at h
  unfold PastImage
  dsimp only at h
  constructor
  · intro hpast
    rw [if_pos hpast] at h
    rw [← Option.some.inj h, ByteMem.write_inside _ _ _ _ (by simpa using hi)]
    simp [List.getD_eq_getElem?_getD, hi]
  · intro hpast
    rw [if_neg hpast] at h
    have hlen := RandomAccessFile.length_fread sp.executable (sp.readAddr p) PageSize
    split at h
    · cases h
    obtain rfl : mem.write (f * PageSize) (sp.executable.fread (sp.readAddr p) PageSize) = mem' :=
      Option.some.inj h
    split
    · rw [ByteMem.write_inside _ _ _ _ (by omega), RandomAccessFile.fread,
        ByteMem.getD_read _ _ _ _ (by omega)]
    · exact ByteMem.write_outside _ _ _ _ (by omega)

/-- The page of the first load is filled from the executable. -/
theorem fillFrame_first {mem : ByteMem} {sp : AddrSpace} {p f : ℕ} {r : ByteMem × AddrSpace}
    (h : sp.fillFrame mem p f = some r) (hp : p < sp.numPages)
    (hswap : (sp.pageTable p).physicalPage ≠ IN_SWAP_FILE) :
    r.2.Maps p f ∧ sp.loadImage mem p f = some r.1 := by
  rw [fillFrame, if_neg hswap] at h
  obtain ⟨mem', hmem, rfl⟩ := Option.map_eq_some_iff.mp h
  exact ⟨⟨hp, by simp [mapPage], by simp [mapPage]⟩, hmem⟩

/-- **The first load** puts the image of the page into the frame that the page gets. -/
theorem load_first {pm pm' : PhysMemory} {sp sp' : AddrSpace} {p : ℕ} (h : sp.Wf)
    (hp : p < sp.numPages) (hnew : (sp.pageTable p).physicalPage = -1)
    (hload : sp.loadFromExecutable pm p = some (true, pm', sp')) :
    ∃ f, sp'.Maps p f ∧ sp.loadImage pm.mainMemory p f = some pm'.mainMemory := by
  have hswap : (sp.pageTable p).physicalPage ≠ IN_SWAP_FILE := by
    rw [hnew]
    decide
  rcases loadFromExecutable_cases pm h hp with
    ⟨hv, -⟩ | ⟨-, f, -, -, heq⟩ | ⟨hv, -, pre, v, post, f, -, hm, heq⟩ | ⟨-, -, -, heq⟩
  · have := (h.valid_range p hp hv).1
    omega
  · rw [heq] at hload
    obtain ⟨r, hr, heq'⟩ := Option.map_eq_some_iff.mp hload
    cases heq'
    have hfirst := fillFrame_first hr hp hswap
    exact ⟨f, hfirst⟩
  · have hpv : p ≠ v := by
      rintro rfl
      exact not_maps_of_invalid hv hm
    rw [heq] at hload
    obtain ⟨r, hr, heq'⟩ := Option.map_eq_some_iff.mp hload
    cases heq'
    have hfirst := fillFrame_first hr hp (by rwa [pageTable_evict_ne _ _ _ hpv])
    exact ⟨f, hfirst⟩
  · rw [heq] at hload
    cases hload

/-! ## §3  When it is the program image -/

/-- The page lies past the image, or the file has it to its end, with zeros for every
byte that is not of the image. -/
def Filled (sp : AddrSpace) (p : ℕ) : Prop :=
  sp.PastImage p ∨ ∀ i < PageSize, sp.imageSize ≤ p * PageSize + i →
    sp.readAddr p + i < sp.executable.size ∧ sp.executable.data (sp.readAddr p + i) = 0

variable {sp : AddrSpace} {p : ℕ}

theorem Laid.toInt_imageSize (h : sp.Laid) :
    (sp.noffH.code.size + sp.noffH.initData.size).toInt = sp.imageSize := by
  have hfile := h.inFile
  have hint := h.int
  unfold imageSize at *
  rw [BitVec.toInt_eq_toNat_of_lt (by rw [BitVec.toNat_add]; omega), BitVec.toNat_add]
  omega

/-- A page with a byte of the image: the addresses do not overflow. -/
theorem Laid.of_lt {i : ℕ} (h : sp.Laid) (hlt : p * PageSize + i < sp.imageSize) :
    ¬ sp.PastImage p ∧
      sp.readAddr p + i = sp.noffH.code.inFileAddr.toNat + (p * PageSize + i) ∧
      sp.readAddr p + i < sp.executable.size := by
  have hfile := h.inFile
  have hint := h.int
  have hoff : (BitVec.ofNat 32 (p * PageSize)).toNat = p * PageSize := by
    rw [BitVec.toNat_ofNat]
    omega
  refine ⟨?_, ?_, ?_⟩
  · rw [PastImage, h.toInt_imageSize, BitVec.toInt_eq_toNat_of_lt (by omega), hoff]
    omega
  · rw [readAddr, BitVec.toNat_add, hoff]
    omega
  · rw [readAddr, BitVec.toNat_add, hoff]
    omega

/-- A page that can be read is loaded. -/
theorem load_of_frame (h : sp.Wf) (hp : p < sp.numPages) (hread : ¬ sp.SeeksBefore p)
    (mem : ByteMem) (freeFrame : BitMap)
    (hframe : (∃ f < freeFrame.numBits, freeFrame.testBit f = false) ∨
      ∃ q < sp.numPages, (sp.pageTable q).valid = true) :
    ∃ pm' sp', sp.loadFromExecutable ⟨mem, freeFrame⟩ p = some (true, pm', sp') := by
  have hno : ¬ sp.NoFrame freeFrame := by
    rintro ⟨hall, hnone⟩
    rcases hframe with ⟨f, hf, hclear⟩ | ⟨q, hq, hv⟩
    · rw [hall f hf] at hclear
      cases hclear
    · rw [hnone q hq] at hv
      cases hv
  cases hload : sp.loadFromExecutable ⟨mem, freeFrame⟩ p with
  | none =>
      obtain ⟨-, -, -, hseek⟩ := (loadFromExecutable_eq_none_iff h hp).mp hload
      exact absurd hseek hread
  | some r =>
      obtain ⟨ok, pm', sp'⟩ := r
      cases ok with
      | true => exact ⟨pm', sp', rfl⟩
      | false => exact absurd ((loadFromExecutable_false_iff h hp).mp ⟨_, hload⟩) hno

/-- The file has the page at a position that is an `int`. -/
theorem Filled.not_seeksBefore (hfilled : sp.Filled p) (h : sp.Laid) : ¬ sp.SeeksBefore p := by
  rintro ⟨hpast, haddr⟩
  have hint := h.int
  rcases hfilled with hpast' | hzero
  · exact hpast hpast'
  by_cases hin : p * PageSize < sp.imageSize
  · have hlt := (h.of_lt (i := 0) (by omega)).2.2
    omega
  · have hlt := (hzero 0 (by decide) (by omega)).1
    omega

/-- A page below 2 GiB can be read. -/
theorem Laid.not_seeksBefore (h : sp.Laid) (hint : p * PageSize < 0x80000000) :
    ¬ sp.SeeksBefore p := by
  rintro ⟨hpast, haddr⟩
  apply hpast
  by_contra hnot
  have hoff : (BitVec.ofNat 32 (p * PageSize)).toNat = p * PageSize := by
    rw [BitVec.toNat_ofNat]
    omega
  have hsize := h.int
  have hlt : p * PageSize < sp.imageSize := by
    rw [PastImage, h.toInt_imageSize, BitVec.toInt_eq_toNat_of_lt (by omega), hoff] at hnot
    omega
  have hin := (h.of_lt (p := p) (i := 0) (by omega)).2.2
  omega

/-- A page behind the image that can be read is past it, also by the `int`s of the code. -/
theorem Laid.pastImage (h : sp.Laid) (hread : ¬ sp.SeeksBefore p)
    (hint : sp.noffH.code.inFileAddr.toNat + p * PageSize < 0x100000000)
    (hp : sp.imageSize ≤ p * PageSize) : sp.PastImage p := by
  by_contra hpast
  have hoff : (BitVec.ofNat 32 (p * PageSize)).toNat = p * PageSize := by
    rw [BitVec.toNat_ofNat]
    omega
  apply hread
  refine ⟨hpast, ?_⟩
  rw [PastImage, h.toInt_imageSize, Int.not_le, BitVec.toInt_eq_toNat_cond, hoff] at hpast
  rw [readAddr, BitVec.toNat_add, hoff, Nat.mod_eq_of_lt hint]
  split at hpast <;> omega

/-- **When the first load shows the program image.** A page of the address space that
was never loaded, with a frame to be had: whatever main memory holds, the page shows
the image after `LoadFromExecutable`, iff it is filled. -/
theorem firstLoad_image_iff (h : sp.Wf) (hlaid : sp.Laid) (hp : p < sp.numPages)
    (hnew : (sp.pageTable p).physicalPage = -1) (freeFrame : BitMap)
    (hframe : (∃ f < freeFrame.numBits, freeFrame.testBit f = false) ∨
      ∃ q < sp.numPages, (sp.pageTable q).valid = true) :
    (∀ mem, ∃ pm' sp', sp.loadFromExecutable ⟨mem, freeFrame⟩ p = some (true, pm', sp') ∧
      sp.ShowsImage pm'.mainMemory sp' p) ↔ sp.Filled p := by
  -- what each byte of the page is
  have hbyte {mem : ByteMem} {pm' : PhysMemory} {sp' : AddrSpace}
      (hload : sp.loadFromExecutable ⟨mem, freeFrame⟩ p = some (true, pm', sp')) :
      ∃ f, sp.loadImage mem p f = some pm'.mainMemory ∧ ∀ i < PageSize,
        view pm'.mainMemory sp' (p * PageSize + i) =
          some (pm'.mainMemory (f * PageSize + i)) := by
    obtain ⟨f, hm, hmem⟩ := load_first h hp hnew hload
    refine ⟨f, hmem, fun i hi => ?_⟩
    have haddr : (p * PageSize + i) / PageSize = p ∧ (p * PageSize + i) % PageSize = i := by
      simp only [PageSize, SectorSize] at *
      omega
    rw [view_of_maps (by rw [haddr.1]; exact hm), haddr.2]
  constructor
  · intro hall
    by_cases hpast : sp.PastImage p
    · exact Or.inl hpast
    refine Or.inr fun i hi hout => ?_
    obtain ⟨pm', sp', hload, hshows⟩ := hall fun _ => 1
    obtain ⟨f, hmem, hf⟩ := hbyte hload
    have hshow := hshows (p * PageSize + i) (by
      simp only [PageSize, SectorSize] at *
      omega)
    have himage : sp.image (p * PageSize + i) = 0 := by rw [image, if_neg (by omega)]
    rw [hf i hi, (loadImage_at hmem hi).2 hpast, himage] at hshow
    split at hshow
    · rename_i hlt
      exact ⟨hlt, Option.some.inj hshow⟩
    · cases hshow
  · rintro hfilled mem
    obtain ⟨pm', sp', hload⟩ := load_of_frame h hp (hfilled.not_seeksBefore hlaid) mem freeFrame
      hframe
    obtain ⟨f, hmem, hf⟩ := hbyte hload
    refine ⟨pm', sp', hload, fun a ha => ?_⟩
    obtain ⟨i, hi, rfl⟩ : ∃ i < PageSize, a = p * PageSize + i := by
      refine ⟨a % PageSize, Nat.mod_lt _ (by decide), ?_⟩
      rw [← ha]
      exact (Nat.div_add_mod' a PageSize).symm
    rw [hf i hi, image]
    by_cases hin : p * PageSize + i < sp.imageSize
    · obtain ⟨hpast, haddr, hlt⟩ := hlaid.of_lt hin
      rw [(loadImage_at hmem hi).2 hpast, if_pos hlt, if_pos hin, haddr]
    · rw [if_neg hin]
      rcases hfilled with hpast | hzero
      · rw [(loadImage_at hmem hi).1 hpast]
      · obtain ⟨hlt, hdata⟩ := hzero i hi (by omega)
        by_cases hpast : sp.PastImage p
        · rw [(loadImage_at hmem hi).1 hpast]
        · rw [(loadImage_at hmem hi).2 hpast, if_pos hlt, hdata]

/-- `size` bytes of code, all 7, behind the header, and no data. -/
def codeProgram (size : ℕ) : RandomAccessFile where
  size := 40 + size
  data := fun a =>
    if a < 40 then
      ((ByteMem.write (fun _ => 0) 0 (wordBytes NOFFMAGIC)).write 8 (wordBytes 40)).write 12
        (wordBytes (BitVec.ofNat 32 size)) a
    else 7

theorem new_codeProgram (size : ℕ) (h : (readHeader (codeProgram size)).noffMagic = NOFFMAGIC) :
    AddrSpace.new (codeProgram size) = some
      { pageTable := fun i =>
          { virtualPage := i, physicalPage := -1, valid := false,
            readOnly := false, use := false, dirty := false }
        numPages := (readHeader (codeProgram size)).numPages
        noffH := readHeader (codeProgram size)
        executable := codeProgram size
        swapFile := RandomAccessFile.empty
        loadedPages := [] } := by
  simp only [AddrSpace.new, if_pos h]

/-- A program of one full page. -/
theorem firstLoad_image_iff_fullPage : ∃ sp : AddrSpace,
    AddrSpace.new (codeProgram 128) = some sp ∧
      ((∀ mem, ∃ pm' sp',
        sp.loadFromExecutable ⟨mem, BitMap.new NumPhysPages⟩ 0 = some (true, pm', sp') ∧
          sp.ShowsImage pm'.mainMemory sp' 0) ↔ sp.Filled 0) := by
  have hnew := new_codeProgram 128 (by decide)
  refine ⟨_, hnew, ?_⟩
  exact firstLoad_image_iff (new_wf hnew).1 ⟨by decide, by decide, by decide, by decide⟩
    (by decide) rfl (BitMap.new NumPhysPages) (Or.inl ⟨0, by decide, by decide⟩)

/-- **Four bytes of code**: the byte behind them is what the frame held before. -/
theorem stale_byte_seen : ∃ (sp : AddrSpace) (mem : ByteMem) (pm' : PhysMemory)
    (sp' : AddrSpace), AddrSpace.new (codeProgram 4) = some sp ∧ sp.Laid ∧ 0 < sp.numPages ∧
      (sp.pageTable 0).physicalPage = -1 ∧
      sp.loadFromExecutable ⟨mem, BitMap.new NumPhysPages⟩ 0 = some (true, pm', sp') ∧
      sp.image 4 = 0 ∧ view pm'.mainMemory sp' 4 = some 1 := by
  have hnew := new_codeProgram 4 (by decide)
  refine ⟨_, fun _ => 1, _, _, hnew, ⟨by decide, by decide, by decide, by decide⟩, by decide,
    rfl, rfl, ?_, ?_⟩
  · decide
  · decide

end AddrSpace

end OsAssignments.MemoryManagement
