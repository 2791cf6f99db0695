import OsAssignments.Filesys.Volume

/-!
# The volume on a disk

`volume disk` reads the bitmap, the headers and the directory entries off the
bytes of a disk. Where the volume is sound, the functions that move headers,
bitmaps and directories between disk and memory do what their names say, and
what they do not write they do not change (`SameOff`).

- `Sound.fits` — headers in use describe files that `ReadAt` and `WriteAt` can
  handle.
- `openDirectory_of_fits`, `fetchFreeMap_of_fits` — what is read.
- `Directory.writeBack_bytes`, `freeMap_writeBack_spec`, `FileHeader.writeBack_spec`
  — what is written.
-/

namespace OsAssignments.Filesys

open Volume

/-! ## §1  Reading a disk as a volume -/

/-- The header in sector `s`, as `FetchFrom` finds it. -/
def headerOf (disk : Disk) (s : ℕ) : FileHeader :=
  ⟨bcopy disk (s * SectorSize) (fun _ => 0) 0 SectorSize⟩

def blocksOf (h : FileHeader) : List ℕ :=
  (List.range h.numSectors.toNat).map fun i => (h.dataSectors i).toNat

def volume (disk : Disk) : Volume where
  marked := (BitMap.ofMem NumSectors (contents disk (headerOf disk FreeMapSector))).testBit
  size s := (headerOf disk s).numBytes
  blocks s := blocksOf (headerOf disk s)
  entry s i := entryAt (contents disk (headerOf disk s)) i

theorem fetchFrom_eq {disk : Disk} {s : ℕ} (h : s < NumSectors) :
    FileHeader.fetchFrom disk s = some (headerOf disk s) := by
  have hon : OnDisk s := ⟨by omega, by exact_mod_cast h⟩
  rw [FileHeader.fetchFrom, readSector, if_pos hon, Option.map_some, Int.toNat_natCast]
  rfl

theorem length_blocksOf (h : FileHeader) : (blocksOf h).length = h.numSectors.toNat := by
  simp [blocksOf]

theorem mem_blocksOf {h : FileHeader} {i : ℕ} (hi : i < (blocksOf h).length) :
    (h.dataSectors i).toNat ∈ blocksOf h := by
  rw [length_blocksOf] at hi
  exact List.mem_map_of_mem (List.mem_range.mpr hi)

/-- The words of a bitmap in memory. -/
theorem testBit_ofMem (n : ℕ) (mem : ByteMem) (x : ℕ) :
    (BitMap.ofMem n mem).testBit x =
      if x / BitsInWord < divRoundUp n BitsInWord then
        (mem.word (4 * (x / BitsInWord))).getLsbD (x % BitsInWord)
      else false := by
  rw [BitMap.testBit_eq_getLsbD, BitMap.ofMem, List.getD_eq_getElem?_getD,
    List.getElem?_map]
  split
  · rename_i hlt
    rw [List.getElem?_range hlt]
    rfl
  · rename_i hge
    rw [List.getElem?_eq_none (by simpa using hge)]
    exact BitVec.getLsbD_zero

theorem testBit_ofMem_congr {mem mem' : ByteMem} {x : ℕ}
    (h : ∀ k < FreeMapFileSize, mem k = mem' k) :
    (BitMap.ofMem NumSectors mem).testBit x = (BitMap.ofMem NumSectors mem').testBit x := by
  rw [testBit_ofMem, testBit_ofMem]
  split
  · rename_i hlt
    have hlt' : x / BitsInWord < 32 := hlt
    rw [ByteMem.word_congr fun k hk => h _ ?_]
    have : FreeMapFileSize = 128 := rfl
    omega
  · rfl

/-- The bits of a bitmap in memory are all that there is of it. -/
theorem eq_of_testBit_ofMem {mem mem' : ByteMem}
    (h : ∀ x, (BitMap.ofMem NumSectors mem).testBit x =
      (BitMap.ofMem NumSectors mem').testBit x) {k : ℕ} (hk : k < FreeMapFileSize) :
    mem k = mem' k := by
  have hsize : FreeMapFileSize = 128 := rfl
  have hword : mem.word (4 * (k / 4)) = mem'.word (4 * (k / 4)) := by
    apply BitVec.eq_of_getLsbD_eq
    intro b hb
    have hbit := h (32 * (k / 4) + b)
    have hdiv : (32 * (k / 4) + b) / BitsInWord = k / 4 := by
      rw [BitsInWord]
      omega
    have hmod : (32 * (k / 4) + b) % BitsInWord = b := by
      rw [BitsInWord]
      omega
    have hlt : k / 4 < divRoundUp NumSectors BitsInWord := by
      rw [show divRoundUp NumSectors BitsInWord = 32 from rfl]
      omega
    rwa [testBit_ofMem, testBit_ofMem, hdiv, hmod, if_pos hlt, if_pos hlt] at hbit
  have hbyte : ∀ m : ByteMem,
      (m.word (4 * (k / 4))).extractLsb' (8 * (k % 4)) 8 = m k := by
    intro m
    rw [ByteMem.word, extractLsb'_bytesWord _ (Nat.mod_lt k (by decide)),
      ByteMem.getD_read _ _ _ _ (Nat.mod_lt k (by decide)), Nat.div_add_mod]
  rw [← hbyte mem, ← hbyte mem', hword]

theorem lt_of_testBit {mem : ByteMem} {x : ℕ}
    (h : (BitMap.ofMem NumSectors mem).testBit x = true) : x < NumSectors := by
  rw [testBit_ofMem] at h
  split at h
  · rename_i hlt
    have hlt' : x / 32 < 32 := hlt
    have : NumSectors = 1024 := rfl
    omega
  · exact absurd h (by simp)

/-- Storing a bitmap and reading it back. -/
theorem testBit_ofMem_toMem {b : BitMap} (hb : b.numBits = NumSectors) {x : ℕ} :
    (BitMap.ofMem NumSectors b.toMem).testBit x = b.testBit x := by
  have hword : ∀ w, b.toMem.word (4 * w) = b.map.getD w 0 := by
    intro w
    have hbytes : b.toMem.read (4 * w) 4 = wordBytes (b.map.getD w 0) := by
      have hdiv : ∀ k < 4, b.toMem (4 * w + k) =
          (b.map.getD w 0).extractLsb' (8 * k) 8 := by
        intro k hk
        rw [BitMap.toMem, show (4 * w + k) / 4 = w by omega,
          show (4 * w + k) % 4 = k by omega]
      simp only [ByteMem.read, List.range, List.range.loop, List.map_cons, List.map_nil,
        hdiv 0 (by omega), hdiv 1 (by omega), hdiv 2 (by omega), hdiv 3 (by omega)]
      rfl
    rw [ByteMem.word, hbytes, bytesWord_wordBytes]
  rw [testBit_ofMem, hword, BitMap.testBit_eq_getLsbD]
  split
  · rfl
  · rename_i hge
    rw [List.getD_eq_default _ _ (by rw [b.length_map, hb]; omega)]
    exact BitVec.getLsbD_zero.symm

theorem marked_lt {disk : Disk} {x : ℕ} (h : (volume disk).marked x = true) :
    x < NumSectors := lt_of_testBit h

/-! ## §2  Sound headers -/

/-- A header with as many different data sectors as its size takes. -/
theorem fits_of_hasSize {disk : Disk} {s len : ℕ} (h : (volume disk).HasSize s len)
    (hlt : ∀ x ∈ (volume disk).blocks s, 0 < x ∧ x < NumSectors)
    (hnodup : ((volume disk).blocks s).Nodup) : (headerOf disk s).Fits len := by
  obtain ⟨hsize, hblocks⟩ := h
  have hblocks' : (blocksOf (headerOf disk s)).length = divRoundUp len SectorSize := hblocks
  refine ⟨hsize, fun i hi => ?_, fun i j hi hj heq => ?_⟩
  · obtain ⟨hpos, hle⟩ := hlt _ (mem_blocksOf (h := headerOf disk s) (i := i) (by omega))
    exact ⟨by omega, by omega⟩
  · have hnum := length_blocksOf (headerOf disk s)
    exact List.inj_on_of_nodup_map hnodup (List.mem_range.mpr (by omega))
      (List.mem_range.mpr (by omega)) (congrArg Int.toNat heq)

section

variable {disk : Disk} (hv : (volume disk).Sound)

include hv

theorem Volume.Sound.live_lt {r : Ref} (hr : (volume disk).Live r) {x : ℕ}
    (hx : x ∈ (volume disk).sectors r) : x < NumSectors :=
  hv.marked_lt x (hv.exact.marked_of_mem hr hx)

/-- A header in use describes a file. -/
theorem Volume.Sound.fits {r : Ref} (hr : (volume disk).Live r) {len : ℕ}
    (hlen : (volume disk).HasSize ((volume disk).header r) len) :
    (headerOf disk ((volume disk).header r)).Fits len :=
  fits_of_hasSize hlen
    (fun _ hx => ⟨hv.exact.block_pos hr hx, hv.live_lt hr (List.mem_cons_of_mem _ hx)⟩)
    (List.nodup_cons.mp (hv.exact.nodup r hr)).2

theorem Volume.Sound.fits_directory {s : ℕ} (hs : (volume disk).Reachable s) :
    s < NumSectors ∧ ∃ len, DirectoryFileSize ≤ len ∧ (headerOf disk s).Fits len ∧
      (blocksOf (headerOf disk s)).length = divRoundUp len SectorSize := by
  obtain ⟨r, hr, rfl, -⟩ := Reachable.exists_ref hs
  obtain ⟨len, hlen, hhas⟩ := hv.directory _ hs
  exact ⟨hv.live_lt hr (header_mem_sectors r), len, hlen, hv.fits hr hhas, hhas.2⟩

end

/-! ## §3  What a write leaves alone -/

/-- The disks agree off the sectors `S`. -/
def SameOff (S : ℕ → Prop) (disk disk' : Disk) : Prop :=
  ∀ x, ¬ S (x / SectorSize) → disk' x = disk x

theorem SameOff.trans {S T U : ℕ → Prop} {disk₁ disk₂ disk₃ : Disk}
    (h : SameOff S disk₁ disk₂) (h' : SameOff T disk₂ disk₃)
    (hU : ∀ s, S s ∨ T s → U s) : SameOff U disk₁ disk₃ := fun x hx =>
  (h' x fun hT => hx (hU _ (Or.inr hT))).trans (h x fun hS => hx (hU _ (Or.inl hS)))

theorem SameOff.headerOf_eq {S : ℕ → Prop} {disk disk' : Disk} (h : SameOff S disk disk')
    {s : ℕ} (hs : ¬ S s) : headerOf disk' s = headerOf disk s := by
  refine congrArg FileHeader.mk (funext fun x => ?_)
  by_cases hx : x < SectorSize
  · rw [bcopy_zero _ _ _ hx, bcopy_zero _ _ _ hx]
    refine h _ ?_
    simp only [SectorSize] at *
    rwa [show (s * 128 + x) / 128 = s by omega]
  · rw [bcopy_outside _ _ _ (by omega), bcopy_outside _ _ _ (by omega)]

theorem SameOff.contents_eq {S : ℕ → Prop} {disk disk' : Disk} (h : SameOff S disk disk')
    {hdr : FileHeader} {i : ℕ} (hi : ¬ S (hdr.dataSectors (i / SectorSize)).toNat) :
    contents disk' hdr i = contents disk hdr i :=
  contents_congr fun x hx => h x (by rwa [hx])

section

variable {S : ℕ → Prop} {disk disk' : Disk} (h : SameOff S disk disk')

include h

/-- The entries read through a header none of whose data sectors is written. -/
theorem SameOff.table_eq {hdr : FileHeader} (hblocks : ∀ x ∈ blocksOf hdr, ¬ S x)
    (hlength : divRoundUp DirectoryFileSize SectorSize ≤ (blocksOf hdr).length)
    {i : ℕ} (hi : i < NumDirEntries) :
    entryAt (contents disk' hdr) i = entryAt (contents disk hdr) i := by
  refine entryAt_congr fun k hk => h.contents_eq (hblocks _ (mem_blocksOf ?_))
  refine Nat.lt_of_lt_of_le (div_lt_divRoundUp (by decide) ?_) hlength
  have : DirectoryFileSize = 200 := rfl
  simp only [entrySize, NumDirEntries] at *
  omega

/-- The bitmap read through a header none of whose data sectors is written. -/
theorem SameOff.bitmap_eq {hdr : FileHeader} (hblocks : ∀ x ∈ blocksOf hdr, ¬ S x)
    (hlength : divRoundUp FreeMapFileSize SectorSize ≤ (blocksOf hdr).length) {x : ℕ} :
    (BitMap.ofMem NumSectors (contents disk' hdr)).testBit x =
      (BitMap.ofMem NumSectors (contents disk hdr)).testBit x :=
  testBit_ofMem_congr fun _ hk => h.contents_eq (hblocks _ (mem_blocksOf
    (Nat.lt_of_lt_of_le (div_lt_divRoundUp (by decide) hk) hlength)))

end

/-! ## §4  Reading -/

/-- Equal tables have equal entries. -/
theorem entryAt_of_table {table table' : ByteMem}
    (h : ∀ x < DirectoryFileSize, table x = table' x) {i : ℕ} (hi : i < NumDirEntries) :
    entryAt table i = entryAt table' i := by
  refine entryAt_congr fun k hk => h _ ?_
  have : DirectoryFileSize = 200 := rfl
  simp only [entrySize, NumDirEntries] at *
  omega

/-- The table of a directory in a file with room for it, read into memory. -/
theorem openDirectory_of_fits {disk : Disk} {s len : ℕ} (hlt : s < NumSectors)
    (hlen : DirectoryFileSize ≤ len) (hfits : (headerOf disk s).Fits len)
    (junk junk' : ByteMem) :
    ∃ d, FileSystem.openDirectory disk s junk junk' = some (⟨headerOf disk s, 0⟩, d) ∧
      d.tableSize = NumDirEntries ∧
      ∀ x < DirectoryFileSize, d.table x = contents disk (headerOf disk s) x := by
  refine ⟨{ Directory.new NumDirEntries junk with
    table := bcopy (contents disk (headerOf disk s)) 0
      (Directory.new NumDirEntries junk).table 0 DirectoryFileSize }, ?_, rfl,
    fun x hx => (bcopy_zero _ _ _ hx).trans (by rw [Nat.zero_add])⟩
  have hfits' : (OpenFile.mk (headerOf disk s) 0).hdr.Fits len := hfits
  have hfetch := Directory.fetchFrom_file (d := Directory.new NumDirEntries junk)
    hfits' hlen disk junk'
  rw [FileSystem.openDirectory, OpenFile.new, fetchFrom_eq hlt]
  simp only [Option.map_some, Option.bind_eq_bind, Option.bind_some, hfetch]
  rfl

/-- **The bitmap**, read into memory. -/
theorem fetchFreeMap_of_fits {disk : Disk} {file : OpenFile}
    (hfile : file.hdr = headerOf disk FreeMapSector)
    (hfits : (headerOf disk FreeMapSector).Fits FreeMapFileSize) (junk : ByteMem) :
    ∃ b, (BitMap.new NumSectors).fetchFrom disk file junk = some b ∧
      b.numBits = NumSectors ∧ ∀ x, b.testBit x = (volume disk).marked x := by
  rw [← hfile] at hfits
  have hsum : Representable FreeMapFileSize ((BitMap.new NumSectors).numWords * 4 : ℕ) 0 :=
    hfits.representable_inside (by decide)
  have hread := OpenFile.readAt_eq disk hfits junk (BitMap.new NumSectors).toMem 0 hsum
  refine ⟨BitMap.ofMem NumSectors (bcopy (contents disk file.hdr) 0
    (BitMap.new NumSectors).toMem 0 FreeMapFileSize), ?_, rfl, fun x => ?_⟩
  · rw [BitMap.fetchFrom, hread]
    rfl
  · rw [volume, ← hfile]
    refine testBit_ofMem_congr fun k hk => ?_
    rw [bcopy_zero _ _ _ hk, Nat.zero_add]

section

variable {disk : Disk} (hv : (volume disk).Sound)

include hv

/-- **The directory with header in `s`**, read into memory. -/
theorem openDirectory_eq {s : ℕ} (hs : (volume disk).Reachable s) (junk junk' : ByteMem) :
    ∃ d, FileSystem.openDirectory disk s junk junk' = some (⟨headerOf disk s, 0⟩, d) ∧
      d.tableSize = NumDirEntries ∧
      ∀ i < NumDirEntries, d.entry i = (volume disk).entry s i := by
  obtain ⟨hlt, len, hlen, hfits, -⟩ := hv.fits_directory hs
  obtain ⟨d, hopen, hsize, htable⟩ := openDirectory_of_fits hlt hlen hfits junk junk'
  exact ⟨d, hopen, hsize, fun i hi => entryAt_of_table htable hi⟩

end

/-! ## §5  Writing -/

/-- A directory written back: its table, and behind it what was there. -/
theorem Directory.writeBack_bytes (disk : Disk) (file : OpenFile) {len : ℕ}
    (hfits : file.hdr.Fits len) (hlen : DirectoryFileSize ≤ len)
    (hlength : (blocksOf file.hdr).length = divRoundUp len SectorSize)
    {d : Directory} (hd : d.tableSize = NumDirEntries) (junk : ByteMem) :
    ∃ disk', d.writeBack disk file junk = some disk' ∧
      (∀ x < len, contents disk' file.hdr x =
        if x < DirectoryFileSize then d.table x else contents disk file.hdr x) ∧
      SameOff (· ∈ blocksOf file.hdr) disk disk' := by
  have hbytes : d.tableSize * entrySize = DirectoryFileSize := by rw [hd]; rfl
  obtain ⟨disk', hwrite, hin, hout⟩ :=
    Directory.writeBack_file hfits (hbytes ▸ hlen) disk junk
  rw [hbytes] at hin
  refine ⟨disk', hwrite, hin, fun x hx => hout x fun j hj heq => hx ?_⟩
  rw [← heq]
  exact mem_blocksOf (by omega)

theorem Directory.writeBack_spec (disk : Disk) (file : OpenFile) {len : ℕ}
    (hfits : file.hdr.Fits len) (hlen : DirectoryFileSize ≤ len)
    (hlength : (blocksOf file.hdr).length = divRoundUp len SectorSize)
    {d : Directory} (hd : d.tableSize = NumDirEntries) (junk : ByteMem) :
    ∃ disk', d.writeBack disk file junk = some disk' ∧
      (∀ i < NumDirEntries, entryAt (contents disk' file.hdr) i = d.entry i) ∧
      SameOff (· ∈ blocksOf file.hdr) disk disk' := by
  obtain ⟨disk', hwrite, hin, hsame⟩ :=
    Directory.writeBack_bytes disk file hfits hlen hlength hd junk
  refine ⟨disk', hwrite, fun i hi => entryAt_of_table (fun x hx => ?_) hi, hsame⟩
  rw [hin x (by omega), if_pos hx]

/-- The bitmap written back. -/
theorem freeMap_writeBack_spec (disk : Disk) (file : OpenFile)
    (hfits : file.hdr.Fits FreeMapFileSize)
    (hlength : (blocksOf file.hdr).length = divRoundUp FreeMapFileSize SectorSize)
    {b : BitMap} (hb : b.numBits = NumSectors) (junk : ByteMem) :
    ∃ disk', b.writeBack disk file junk = some disk' ∧
      (∀ x, (BitMap.ofMem NumSectors (contents disk' file.hdr)).testBit x = b.testBit x) ∧
      SameOff (· ∈ blocksOf file.hdr) disk disk' := by
  have hwords : b.numWords * 4 = FreeMapFileSize := by
    rw [BitMap.numWords, hb]
    rfl
  have hsum : Representable FreeMapFileSize (b.numWords * 4 : ℕ) 0 :=
    hfits.representable_inside (by omega)
  obtain ⟨disk', hwrite, hin, hout⟩ := OpenFile.writeAt_spec disk hfits junk b.toMem hsum
  refine ⟨disk', by rw [BitMap.writeBack, hwrite, Option.map_some], fun x => ?_,
    fun x hx => hout x fun j hj heq => hx ?_⟩
  · rw [← testBit_ofMem_toMem hb]
    refine testBit_ofMem_congr fun k hk => ?_
    rw [hin k hk, if_pos, Nat.sub_zero]
    simp only [transferred]
    omega
  · rw [← heq]
    exact mem_blocksOf (by omega)

/-- A header written to its sector. -/
theorem FileHeader.writeBack_spec (hdr : FileHeader) (disk : Disk) {s : ℕ}
    (hs : s < NumSectors) :
    ∃ disk', hdr.writeBack disk s = some disk' ∧
      (headerOf disk' s).numBytes = hdr.numBytes ∧
      (headerOf disk' s).numSectors = hdr.numSectors ∧
      (∀ i < NumDirect, (headerOf disk' s).dataSectors i = hdr.dataSectors i) ∧
      SameOff (· = s) disk disk' := by
  have hon : OnDisk s := ⟨by omega, by exact_mod_cast hs⟩
  have hbyte : ∀ x < SectorSize,
      (headerOf (bcopy hdr.mem 0 disk (s * SectorSize) SectorSize) s).mem x = hdr.mem x := by
    intro x hx
    change bcopy (bcopy hdr.mem 0 disk (s * SectorSize) SectorSize) (s * SectorSize)
      (fun _ => 0) 0 SectorSize x = hdr.mem x
    rw [bcopy_zero _ _ _ hx, bcopy_inside _ _ _ (by omega) (by omega)]
    congr 1
    omega
  have hword : ∀ a, a + 4 ≤ SectorSize →
      (headerOf (bcopy hdr.mem 0 disk (s * SectorSize) SectorSize) s).mem.word a =
        hdr.mem.word a := fun a ha =>
    ByteMem.word_congr fun k hk => hbyte _ (by omega)
  refine ⟨bcopy hdr.mem 0 disk (s * SectorSize) SectorSize, ?_,
    congrArg BitVec.toInt (hword 0 (by decide)),
    congrArg BitVec.toInt (hword 4 (by decide)),
    fun i hi => congrArg BitVec.toInt (hword _ ?_), fun x hx => ?_⟩
  · rw [FileHeader.writeBack, writeSector, if_pos hon, Int.toNat_natCast]
  · have : NumDirect = 30 := rfl
    simp only [SectorSize]
    omega
  · refine bcopy_outside _ _ _ ?_
    simp only [SectorSize] at *
    omega

end OsAssignments.Filesys
