import OsAssignments.Filesys.Mounted

/-!
# What the calls do to the volume

Each call of the file system, from a sound state, is one of a few cases: it
fails and changes nothing, or it makes one of the changes of volumes
(`Created`, `Removed`), or it moves to another directory. In particular it
returns: no `ASSERT` aborts.

- `changeDirectory_cases`, `create_cases`, `remove_cases`.
- `new_format` — the constructor, formatting the disk, makes a sound state.
-/

namespace OsAssignments.Filesys

open Volume

namespace Volume

/-! ## §1  Sectors that a call does not write -/

variable {v : Volume}

theorem Exact.header_not_mem (h : v.Exact) {r r' : Ref} (hr : v.Live r) (hr' : v.Live r') :
    v.header r ∉ v.blocks (v.header r') := by
  intro hmem
  by_cases hrr : r = r'
  · subst hrr
    exact (List.nodup_cons.mp (h.nodup r hr)).1 hmem
  · exact h.disjoint r r' hr hr' hrr _ (header_mem_sectors r) (List.mem_cons_of_mem _ hmem)

theorem Exact.block_not_mem (h : v.Exact) {r r' : Ref} (hr : v.Live r) (hr' : v.Live r')
    (hne : r ≠ r') {x : ℕ} (hx : x ∈ v.blocks (v.header r)) :
    x ∉ v.blocks (v.header r') := fun hx' =>
  h.disjoint r r' hr hr' hne x (List.mem_cons_of_mem _ hx) (List.mem_cons_of_mem _ hx')

/-- Sectors in use are not among those that are clear. -/
theorem Exact.not_mem_of_clear (h : v.Exact) {l : List ℕ}
    (hl : ∀ x ∈ l, v.marked x = false) {r : Ref} (hr : v.Live r) {x : ℕ}
    (hx : x ∈ v.sectors r) : x ∉ l := by
  intro hmem
  have := h.marked_of_mem hr hx
  rw [hl x hmem] at this
  exact absurd this (by simp)

/-- The sectors that a call writes: clear ones, the table of the current directory
and the bitmap. -/
def Written (v : Volume) (rcd : Ref) (l : List ℕ) (x : ℕ) : Prop :=
  x ∈ l ∨ x ∈ v.blocks (v.header rcd) ∨ x ∈ v.blocks FreeMapSector

section

variable {rcd r : Ref} {l : List ℕ} (h : v.Exact) (hrcd : v.Live rcd)
  (hl : ∀ x ∈ l, v.marked x = false) (hr : v.Live r)

include h hrcd hl hr

theorem Exact.header_not_written : ¬ v.Written rcd l (v.header r) := by
  rintro (hx | hx | hx)
  · exact h.not_mem_of_clear hl hr (header_mem_sectors r) hx
  · exact h.header_not_mem hr hrcd hx
  · exact h.header_not_mem hr (show v.Live .freeMap from trivial) hx

theorem Exact.block_not_written (hne : r ≠ rcd) (hne' : r ≠ .freeMap) :
    ∀ x ∈ v.blocks (v.header r), ¬ v.Written rcd l x := by
  rintro x hx (hx' | hx' | hx')
  · exact h.not_mem_of_clear hl hr (List.mem_cons_of_mem _ hx) hx'
  · exact h.block_not_mem hr hrcd hne hx hx'
  · exact h.block_not_mem hr (show v.Live .freeMap from trivial) hne' hx hx'

end

end Volume

section

variable {disk disk' : Disk} {rcd : Ref} {l : List ℕ} (hv : (volume disk).Sound)
  (hrcd : (volume disk).Live rcd) (hl : ∀ x ∈ l, (volume disk).marked x = false)
  (hsame : SameOff ((volume disk).Written rcd l) disk disk')

include hv hrcd hl hsame

/-- **The frame of a call**: all headers in use, and all directories but the
current one, are as before. -/
theorem headerOf_same {r : Ref} (hr : (volume disk).Live r) :
    headerOf disk' ((volume disk).header r) = headerOf disk ((volume disk).header r) :=
  hsame.headerOf_eq (hv.exact.header_not_written hrcd hl hr)

theorem file_same {r : Ref} (hr : (volume disk).Live r) :
    (volume disk').size ((volume disk).header r) = (volume disk).size ((volume disk).header r) ∧
      (volume disk').blocks ((volume disk).header r) =
        (volume disk).blocks ((volume disk).header r) := by
  have h := headerOf_same hv hrcd hl hsame hr
  simp only [volume] at *
  rw [h]
  exact ⟨rfl, rfl⟩

theorem entry_same {s j : ℕ} (hs : (volume disk).Reachable s) (hj : j < NumDirEntries)
    (hne : s ≠ (volume disk).header rcd) :
    (volume disk').entry s j = (volume disk).entry s j := by
  obtain ⟨len, hlen, -, hlength⟩ := hv.directory s hs
  obtain ⟨r, hr, rfl, hmap⟩ := Reachable.exists_ref hs
  have hheader := headerOf_same hv hrcd hl hsame hr
  change entryAt (contents disk' (headerOf disk' _)) j = _
  rw [hheader]
  refine hsame.table_eq (hv.exact.block_not_written hrcd hl hr ?_ hmap) ?_ hj
  · rintro rfl
    exact hne rfl
  · exact Nat.le_trans (divRoundUp_mono (by decide) hlen) (Nat.le_of_eq hlength.symm)

end

/-! ## §2  Sound states -/

namespace FileSystem

/-- The invariant of the file system. -/
structure Sound (fs : FileSystem) : Prop where
  volume : (volume fs.disk).Sound
  freeMapFile : fs.freeMapFile.hdr = headerOf fs.disk FreeMapSector
  cdSector : fs.cdSector = (fs.cdSector.toNat : ℤ)
  reachable : (Filesys.volume fs.disk).Reachable fs.cdSector.toNat

variable {fs : FileSystem}

theorem Sound.mounted (h : fs.Sound) : fs.Mounted := by
  have hv := h.volume
  obtain ⟨rcd, hrcd, hcd, hne⟩ := Reachable.exists_ref h.reachable
  have hsectors : fs.home = (Filesys.volume fs.disk).sectors .freeMap ++
      (Filesys.volume fs.disk).sectors rcd := by
    rw [home, sectors, sectors, hcd]
    rfl
  refine ⟨h.freeMapFile, h.cdSector, hv.freeMap, hv.directory _ h.reachable, ?_, fun x hx => ?_⟩
  · rw [hsectors]
    refine List.nodup_append.mpr
      ⟨hv.exact.nodup .freeMap trivial, hv.exact.nodup rcd hrcd, ?_⟩
    rintro x hx y hy rfl
    exact hv.exact.disjoint .freeMap rcd trivial hrcd hne.symm x hx hy
  · rw [hsectors, List.mem_append] at hx
    rcases hx with hx | hx
    · exact hv.exact.marked_of_mem (r := .freeMap) trivial hx
    · exact hv.exact.marked_of_mem hrcd hx

/-- The current directory, read into memory. -/
theorem Sound.openDirectory (h : fs.Sound) (junk junk' : ByteMem) :
    ∃ d, FileSystem.openDirectory fs.disk fs.cdSector junk junk' =
        some (⟨headerOf fs.disk fs.cdSector.toNat, 0⟩, d) ∧
      d.tableSize = NumDirEntries ∧
      ∀ i < NumDirEntries, d.entry i = (Filesys.volume fs.disk).entry fs.cdSector.toNat i := by
  have := openDirectory_eq h.volume h.reachable junk junk'
  rwa [← h.cdSector] at this

/-! ## §3  `ChangeDirectory` -/

/-- Entry `i` of directory `cd` is a directory called `name`. -/
def IsDirectoryEntry (v : Volume) (cd i : ℕ) (name : List Byte) : Prop :=
  i < NumDirEntries ∧ (v.entry cd i).inUse = true ∧ (v.entry cd i).name = name ∧
    (v.entry cd i).isDirectory = true

/-- **`ChangeDirectory`** moves to the directory of the name, if there is one. -/
theorem changeDirectory_cases (h : fs.Sound) (name : CString) (junk : ℕ → ByteMem) :
    (fs.changeDirectory name junk = some (false, fs) ∧
      ∀ i, ¬ IsDirectoryEntry (Filesys.volume fs.disk) fs.cdSector.toNat i (key name)) ∨
    ∃ i, IsDirectoryEntry (Filesys.volume fs.disk) fs.cdSector.toNat i (key name) ∧
      fs.changeDirectory name junk = some (true, { fs with
        cdSector := ((Filesys.volume fs.disk).entry fs.cdSector.toNat i).sector }) := by
  obtain ⟨d, hopen, hsize, hentry⟩ := h.openDirectory (junk 0) (junk 1)
  simp only [changeDirectory, hopen, Option.bind_eq_bind, Option.bind_some]
  rcases findIndex_cases hsize hentry name with ⟨i, hi, hlt, huse, hname⟩ | ⟨hnone, hall⟩
  · rw [Directory.findDirectory_eq hi, hentry i hlt]
    cases hdir : ((Filesys.volume fs.disk).entry fs.cdSector.toNat i).isDirectory with
    | true =>
        obtain ⟨r, -, -, hsec⟩ := h.volume.exists_ref h.reachable hlt huse
        refine Or.inr ⟨i, ⟨hlt, huse, hname, hdir⟩, ?_⟩
        rw [if_pos rfl, if_neg (by omega)]
    | false =>
        refine Or.inl ⟨by simp, fun j hj => ?_⟩
        have := h.volume.names _ i j h.reachable hlt hj.1 huse hj.2.1
          (hname.trans hj.2.2.1.symm)
        subst this
        exact absurd (hdir.symm.trans hj.2.2.2) (by simp)
  · rw [Directory.findDirectory_none hnone]
    exact Or.inl ⟨by simp, fun j hj => hall j hj.1 hj.2.1 hj.2.2.1⟩

/-! ## §4  `Create` -/

/-- The volume after `Create` has written a header in `sector` that lists the
sectors `l`, the directory `d` and the bitmap `b`. -/
structure Committed (v v' : Volume) (cd sector : ℕ) (l : List ℕ) (initialSize : ℕ)
    (isDirectory : Bool) (d : Directory) (b : BitMap) : Prop where
  marked : ∀ x, v'.marked x = b.testBit x
  size_new : v'.HasSize sector initialSize
  blocks_new : v'.blocks sector = l
  entry_cd : ∀ j < NumDirEntries, v'.entry cd j = d.entry j
  same_file : ∀ r, v.Live r →
    v'.size (v.header r) = v.size (v.header r) ∧
      v'.blocks (v.header r) = v.blocks (v.header r)
  same_entry : ∀ s j, v.Reachable s → j < NumDirEntries → s ≠ cd →
    v'.entry s j = v.entry s j
  links : isDirectory = true →
    v'.entry sector 0 = ⟨true, sector, dot.chars, true⟩ ∧
      v'.entry sector 1 = ⟨true, cd, dotDot.chars, true⟩ ∧
      ∀ j, 2 ≤ j → j < NumDirEntries → (v'.entry sector j).inUse = false

/-- **The frame of a sound state**: the headers in use and the other directories. -/
theorem Sound.frame (h : fs.Sound) {disk' : Disk} {l : List ℕ}
    (hfresh : ∀ x ∈ l, (Filesys.volume fs.disk).marked x = false)
    (hsame : SameOff (fun x => x ∈ l ∨ fs.Rewritten x) fs.disk disk') :
    (∀ r, (Filesys.volume fs.disk).Live r →
      (Filesys.volume disk').size ((Filesys.volume fs.disk).header r) =
          (Filesys.volume fs.disk).size ((Filesys.volume fs.disk).header r) ∧
        (Filesys.volume disk').blocks ((Filesys.volume fs.disk).header r) =
          (Filesys.volume fs.disk).blocks ((Filesys.volume fs.disk).header r)) ∧
    ∀ s j, (Filesys.volume fs.disk).Reachable s → j < NumDirEntries →
      s ≠ fs.cdSector.toNat →
      (Filesys.volume disk').entry s j = (Filesys.volume fs.disk).entry s j := by
  obtain ⟨rcd, hrcd, hcd, -⟩ := Reachable.exists_ref h.reachable
  have hwritten : SameOff ((Filesys.volume fs.disk).Written rcd l) fs.disk disk' := by
    intro x hx
    refine hsame x fun hmem => hx ?_
    rwa [Written, hcd]
  exact ⟨fun r hr => file_same h.volume hrcd hfresh hwritten hr,
    fun s j hs hj hne => entry_same h.volume hrcd hfresh hwritten hs hj (by rwa [hcd])⟩

/-- What the frame adds to the writes of `Create`. -/
theorem Flushed.committed (h : fs.Sound) {disk' : Disk} {sector initialSize : ℕ} {l : List ℕ}
    {isDirectory : Bool} {d : Directory} {b : BitMap}
    (hflush : Flushed fs disk' sector l initialSize isDirectory d b)
    (hfresh : ∀ x ∈ sector :: l, (Filesys.volume fs.disk).marked x = false) :
    Committed (Filesys.volume fs.disk) (Filesys.volume disk') fs.cdSector.toNat sector l
      initialSize isDirectory d b := by
  obtain ⟨len, hlen, hhas⟩ := h.volume.directory _ h.reachable
  obtain ⟨hfile, hentries⟩ := h.frame hfresh hflush.same
  refine ⟨hflush.marked, ⟨hflush.lists.numBytes, ?_⟩, hflush.lists.blocksOf_eq,
    fun j hj => ?_, hfile, hentries, hflush.links⟩
  · exact (congrArg List.length hflush.lists.blocksOf_eq).trans hflush.lists.length
  · change entryAt (contents disk' (headerOf disk' _)) j = _
    rw [hflush.directory]
    refine entryAt_of_table (fun x hx => ?_) hj
    rw [hflush.table x (by rw [hhas.1]; omega), if_pos hx]

/-- `Create` from a sound state, as a change of the volume. -/
theorem create_cases (h : fs.Sound) (name : CString) {initialSize : ℕ}
    (hmax : initialSize ≤ MaxFileSize) {isDirectory : Bool}
    (hroom : isDirectory = true → DirectoryFileSize ≤ initialSize) (junk : ℕ → ByteMem) :
    (fs.create name initialSize isDirectory junk = some (false, fs) ∧
      ¬ (Filesys.volume fs.disk).CanCreate fs.cdSector.toNat (key name) initialSize) ∨
    ((Filesys.volume fs.disk).CanCreate fs.cdSector.toNat (key name) initialSize ∧
      ∃ disk' i sector l,
        fs.create name initialSize isDirectory junk = some (true, { fs with disk := disk' }) ∧
        Created (Filesys.volume fs.disk) (Filesys.volume disk') fs.cdSector.toNat i sector l
          initialSize (key name) isDirectory ∧
        headerOf disk' FreeMapSector = headerOf fs.disk FreeMapSector) := by
  rcases create_spec h.mounted name hmax hroom junk with
    hfail | ⟨hcan, disk', i, sector, l, d, b, hcreate, hchosen, hflush⟩
  · exact Or.inl hfail
  have hcommit := hflush.committed h fun x hx => (hchosen.unmarked x hx).1
  refine Or.inr ⟨hcan, disk', i, sector, l, hcreate, ?_, hflush.freeMap⟩
  exact {
    slot := hchosen.slot
    free := hchosen.free
    new_name := hchosen.new_name
    nodup := hchosen.nodup
    unmarked := hchosen.unmarked
    marked := fun y => by rw [hcommit.marked, hchosen.testBit]
    size_new := hcommit.size_new
    blocks_new := hcommit.blocks_new
    entry_new := (hcommit.entry_cd i hchosen.slot).trans hchosen.entry_new
    same_file := hcommit.same_file
    same_entry := by
      intro s j hs hj hne
      by_cases hcd : s = fs.cdSector.toNat
      · subst hcd
        rw [hcommit.entry_cd j hj, hchosen.entry_other hj fun hji => hne ⟨rfl, hji⟩]
      · exact hcommit.same_entry s j hs hj hcd
    links := hcommit.links }

/-! ## §5  `Remove` -/

/-- Entry `i` of directory `cd` is called `name`; if it is a directory, all that is
in use in it are entries named like links. -/
def Removable (v : Volume) (cd i : ℕ) : Prop :=
  (v.entry cd i).isDirectory = true → ∀ j < NumDirEntries,
    (v.entry (v.entry cd i).sector.toNat j).inUse = true →
      IsDots (v.entry (v.entry cd i).sector.toNat j).name

theorem Named.unique {v : Volume} (hv : v.Sound) {cd i j : ℕ} {name : List Byte}
    (hcd : v.Reachable cd) (hi : Named v cd i name) (hj : Named v cd j name) : i = j :=
  hv.names cd i j hcd hi.1 hj.1 hi.2.1 hj.2.1 (hi.2.2.trans hj.2.2.symm)

/-- The check of `Remove`. -/
theorem isFull_eq (h : fs.Sound) {i : ℕ} (hi : i < NumDirEntries)
    (huse : ((Filesys.volume fs.disk).entry fs.cdSector.toNat i).inUse = true)
    (junk junk' : ByteMem) :
    ∃ full, isFull fs.disk ((Filesys.volume fs.disk).entry fs.cdSector.toNat i).sector
        ((Filesys.volume fs.disk).entry fs.cdSector.toNat i).isDirectory junk junk' =
        some full ∧
      (full = false ↔ Removable (Filesys.volume fs.disk) fs.cdSector.toNat i) := by
  have hv := h.volume
  cases hdir : ((Filesys.volume fs.disk).entry fs.cdSector.toNat i).isDirectory with
  | false =>
      refine ⟨false, by simp [isFull], ?_⟩
      simp [Removable, hdir]
  | true =>
      have hreach := hv.reachable_of_isDirectory h.reachable hi huse hdir
      obtain ⟨r, -, -, hsec⟩ := hv.exists_ref h.reachable hi huse
      obtain ⟨d, hopen, hsize, hentry⟩ := openDirectory_eq hv hreach junk junk'
      rw [Int.toNat_of_nonneg (by omega)] at hopen
      refine ⟨!d.isEmpty, by rw [isFull, if_pos rfl, hopen, Option.map_some], ?_⟩
      rw [Bool.not_eq_false', d.isEmpty_iff, Removable, hdir]
      simp only [true_implies]
      refine forall_congr' fun j => ?_
      rw [hsize]
      refine imp_congr_right fun hj => ?_
      rw [hentry j hj]

/-- `Remove` from a sound state, as a change of the volume: it frees the entry of the name,
unless it is a directory that holds more than links. -/
theorem remove_cases (h : fs.Sound) (name : CString) (junk : ℕ → ByteMem) :
    (fs.remove name junk = some (false, fs) ∧
      ∀ i, Named (Filesys.volume fs.disk) fs.cdSector.toNat i (key name) →
        ¬ Removable (Filesys.volume fs.disk) fs.cdSector.toNat i) ∨
    ∃ disk' i, Named (Filesys.volume fs.disk) fs.cdSector.toNat i (key name) ∧
      Removable (Filesys.volume fs.disk) fs.cdSector.toNat i ∧
      fs.remove name junk = some (true, { fs with disk := disk' }) ∧
      Removed (Filesys.volume fs.disk) (Filesys.volume disk') fs.cdSector.toNat i ∧
      headerOf disk' FreeMapSector = headerOf fs.disk FreeMapSector := by
  have hv := h.volume
  by_cases hex : ∃ i, Named (Filesys.volume fs.disk) fs.cdSector.toNat i (key name)
  swap
  · have hnone := not_exists.mp hex
    exact Or.inl ⟨remove_none h.mounted hnone junk, fun i hi => absurd hi (hnone i)⟩
  obtain ⟨i, hnamed⟩ := hex
  have honly : ∀ j, Named (Filesys.volume fs.disk) fs.cdSector.toNat j (key name) → j = i :=
    fun j hj => hj.unique hv h.reachable hnamed
  obtain ⟨r, hr, hrne, hsec⟩ := hv.exists_ref h.reachable hnamed.1 hnamed.2.1
  obtain ⟨full, hfull, hremovable⟩ := isFull_eq h hnamed.1 hnamed.2.1 (junk 3) (junk 4)
  have hmarked : ∀ x ∈ (Filesys.volume fs.disk).sectors r,
      0 < x ∧ (Filesys.volume fs.disk).marked x = true :=
    fun x hx => ⟨hv.exact.mem_pos hr hrne hx, hv.exact.marked_of_mem hr hx⟩
  rw [hsec] at hfull
  rcases remove_spec h.mounted hnamed honly hsec hmarked
      (List.nodup_cons.mp (hv.exact.nodup r hr)).2 junk hfull with
    ⟨hfulleq, hremove⟩ | ⟨hfulleq, disk', hremove, hfreed⟩
  · refine Or.inl ⟨hremove, fun j hj hrem => ?_⟩
    obtain rfl := honly j hj
    rw [hremovable.mpr hrem] at hfulleq
    cases hfulleq
  · obtain ⟨hfile, hentries⟩ := h.frame (l := []) (by simp)
      fun x hx => hfreed.same x fun hx' => hx (Or.inr hx')
    refine Or.inr ⟨disk', i, hnamed, hremovable.mp hfulleq, hremove, ?_, hfreed.freeMap⟩
    exact {
      slot := hnamed.1
      inUse := hnamed.2.1
      marked := hfreed.marked
      freed := hfreed.freed
      same_file := hfile
      same_entry := by
        intro s j hs hj hne
        by_cases hs' : s = fs.cdSector.toNat
        · subst hs'
          exact hfreed.entry_other j hj fun hji => hne ⟨rfl, hji⟩
        · exact hentries s j hs hj hs' }

/-! ## §6  The constructor -/

/-- The bitmap of the constructor, before it allocates. -/
theorem bitmap_reserved : ∃ b, ((BitMap.new NumSectors).mark FreeMapSector).bind
      (fun freeMap => freeMap.mark DirectorySector) = some b ∧ b.numBits = NumSectors ∧
    (∀ x, b.testBit x = true ↔ x = FreeMapSector ∨ x = DirectorySector) ∧
    b.numClear = NumSectors - 2 := by
  have hmark₀ : (BitMap.new NumSectors).mark FreeMapSector =
      some ((BitMap.new NumSectors).setBit FreeMapSector) := BitMap.mark_natCast (by decide)
  have hmark₁ : ((BitMap.new NumSectors).setBit FreeMapSector).mark DirectorySector =
      some (((BitMap.new NumSectors).setBit FreeMapSector).setBit DirectorySector) :=
    BitMap.mark_natCast (show DirectorySector < NumSectors by decide)
  refine ⟨((BitMap.new NumSectors).setBit FreeMapSector).setBit DirectorySector, ?_, rfl,
    fun x => ?_, ?_⟩
  · rw [hmark₀, Option.bind_some, hmark₁]
  · rw [BitMap.testBit_setBit (show DirectorySector < NumSectors by decide),
      BitMap.testBit_setBit (show FreeMapSector < NumSectors by decide), BitMap.testBit_new]
    simp only [Bool.or_false, Bool.or_eq_true, decide_eq_true_eq]
    constructor
    · rintro (h | h)
      · exact Or.inr h.symm
      · exact Or.inl h.symm
    · rintro (h | h)
      · exact Or.inr h.symm
      · exact Or.inl h.symm
  · have hnew : (BitMap.new NumSectors).clearSet = Finset.range NumSectors := by
      ext x
      simp [BitMap.mem_clearSet]
    rw [BitMap.numClear_eq_card,
      BitMap.clearSet_setBit (show DirectorySector < NumSectors by decide),
      BitMap.clearSet_setBit (show FreeMapSector < NumSectors by decide), hnew,
      Finset.card_erase_of_mem (by simp [DirectorySector, FreeMapSector, NumSectors]),
      Finset.card_erase_of_mem (by simp [FreeMapSector, NumSectors]), Finset.card_range]
    rfl

/-- The sectors of the two files of the system. -/
theorem allocate_system (mem mem' : ByteMem) :
    ∃ b mapHdr b₀ dirHdr b₁ l₀ l₁,
      ((BitMap.new NumSectors).mark FreeMapSector).bind
        (fun freeMap => freeMap.mark DirectorySector) = some b ∧
      (FileHeader.mk mem).allocate b FreeMapFileSize = (true, b₀, mapHdr) ∧
      (FileHeader.mk mem').allocate b₀ DirectoryFileSize = (true, b₁, dirHdr) ∧
      mapHdr.Lists FreeMapFileSize l₀ ∧ dirHdr.Lists DirectoryFileSize l₁ ∧
      b₁.numBits = NumSectors ∧
      (∀ x, b₁.testBit x = true ↔ x ∈ FreeMapSector :: l₀ ++ DirectorySector :: l₁) ∧
      (FreeMapSector :: l₀ ++ DirectorySector :: l₁).Nodup := by
  obtain ⟨b, hb, hbits, htest, hnum⟩ := bitmap_reserved
  have hsizes : divRoundUp FreeMapFileSize SectorSize = 1 ∧
    divRoundUp DirectoryFileSize SectorSize = 2 := by decide
  have hN : NumSectors = 1024 := rfl
  rcases (FileHeader.mk mem).allocate_cases hbits
      (show FreeMapFileSize ≤ MaxFileSize by decide) with
    ⟨hfew, -⟩ | ⟨-, l₀, b₀, mapHdr, halloc₀, hl₀, hclear₀, hbits₀, htest₀, hnum₀⟩
  · omega
  rcases (FileHeader.mk mem').allocate_cases hbits₀
      (show DirectoryFileSize ≤ MaxFileSize by decide) with
    ⟨hfew, -⟩ | ⟨-, l₁, b₁, dirHdr, halloc₁, hl₁, hclear₁, hbits₁, htest₁, -⟩
  · have := hl₀.length
    omega
  have hnew₀ : ∀ x ∈ l₀, x ≠ FreeMapSector ∧ x ≠ DirectorySector := by
    intro x hx
    have hno : ¬ (x = FreeMapSector ∨ x = DirectorySector) := by
      rw [← htest, hclear₀ x hx]
      simp
    exact not_or.mp hno
  have hnew₁ : ∀ x ∈ l₁, (x ≠ FreeMapSector ∧ x ≠ DirectorySector) ∧ x ∉ l₀ := by
    intro x hx
    have hno : ¬ ((x = FreeMapSector ∨ x = DirectorySector) ∨ x ∈ l₀) := by
      rw [← htest, ← htest₀, hclear₁ x hx]
      simp
    exact ⟨not_or.mp (not_or.mp hno).1, (not_or.mp hno).2⟩
  refine ⟨b, mapHdr, b₀, dirHdr, b₁, l₀, l₁, hb, halloc₀, halloc₁, hl₀, hl₁, hbits₁, ?_, ?_⟩
  · intro x
    rw [htest₁, htest₀, htest, List.mem_append, List.mem_cons, List.mem_cons]
    tauto
  · refine List.nodup_append.mpr ⟨List.nodup_cons.mpr ⟨?_, hl₀.nodup⟩,
      List.nodup_cons.mpr ⟨?_, hl₁.nodup⟩, ?_⟩
    · exact fun hmem => (hnew₀ _ hmem).1 rfl
    · exact fun hmem => (hnew₁ _ hmem).1.2 rfl
    · rintro x hx y hy rfl
      rcases List.mem_cons.mp hy with rfl | hy
      · rcases List.mem_cons.mp hx with hx | hx
        · exact absurd hx (by decide)
        · exact (hnew₀ _ hx).2 rfl
      · rcases List.mem_cons.mp hx with rfl | hx
        · exact (hnew₁ _ hy).1.1 rfl
        · exact (hnew₁ _ hy).2 hx

/-- **Formatting** a disk, whatever is on it. -/
theorem formatDisk_spec (disk : Disk) (junk : ℕ → ByteMem) :
    ∃ disk' mapBlocks dirBlocks,
      formatDisk disk junk = some (disk', ⟨headerOf disk' FreeMapSector, 0⟩,
        ⟨headerOf disk' DirectorySector, 0⟩) ∧
      Formatted (volume disk') mapBlocks dirBlocks := by
  obtain ⟨b, mapHdr, b₀, dirHdr, b₁, l₀, l₁, hb, halloc₀, halloc₁, hl₀, hl₁, hbits₁, htest₁,
    hnodup⟩ := allocate_system (junk 0) (junk 1)
  obtain ⟨hnodup₀, hnodup₁, hdisjoint⟩ := List.nodup_append.mp hnodup
  have hmapl₀ : FreeMapSector ∉ l₀ := (List.nodup_cons.mp hnodup₀).1
  have hdirl₁ : DirectorySector ∉ l₁ := (List.nodup_cons.mp hnodup₁).1
  have hdirl₀ : DirectorySector ∉ l₀ := fun hmem =>
    hdisjoint _ (List.mem_cons_of_mem _ hmem) _ List.mem_cons_self rfl
  have hmapl₁ : FreeMapSector ∉ l₁ := fun hmem =>
    hdisjoint _ List.mem_cons_self _ (List.mem_cons_of_mem _ hmem) rfl
  obtain ⟨disk₁, hwrite₁, hheader₁, hsame₁⟩ := hl₀.writeBack (by decide) disk
    (show FreeMapSector < NumSectors by decide)
  obtain ⟨disk₂, hwrite₂, hheader₂, hsame₂⟩ := hl₁.writeBack (by decide) disk₁
    (show DirectorySector < NumSectors by decide)
  rw [← hsame₂.headerOf_eq (by decide)] at hheader₁
  obtain ⟨disk₃, hwrite₃, htest₃, hsame₃⟩ := freeMap_writeBack_spec disk₂
    ⟨headerOf disk₂ FreeMapSector, 0⟩ hheader₁.fits
    (by rw [hheader₁.blocksOf_eq, hl₀.length]) hbits₁ (junk 2)
  obtain ⟨disk₄, hwrite₄, hentry₄, hsame₄⟩ := Directory.writeBack_spec disk₃
    ⟨headerOf disk₂ DirectorySector, 0⟩ hheader₂.fits (Nat.le_refl _)
    (by rw [hheader₂.blocksOf_eq, hl₁.length])
    (Directory.tableSize_new NumDirEntries (junk 3)) (junk 4)
  simp only [hheader₁.blocksOf_eq] at hsame₃
  simp only [hheader₂.blocksOf_eq] at hsame₄
  have hmap : headerOf disk₄ FreeMapSector = headerOf disk₂ FreeMapSector := by
    rw [hsame₄.headerOf_eq hmapl₁, hsame₃.headerOf_eq hmapl₀]
  have hdir : headerOf disk₄ DirectorySector = headerOf disk₂ DirectorySector := by
    rw [hsame₄.headerOf_eq hdirl₁, hsame₃.headerOf_eq hdirl₀]
  refine ⟨disk₄, l₀, l₁, ?_, ?_⟩
  · rw [hmap, hdir, formatDisk]
    obtain ⟨b', hmark₀, hmark₁⟩ := Option.bind_eq_some_iff.mp hb
    simp only [Option.bind_eq_bind, hmark₀, Option.bind_some, hmark₁, halloc₀, halloc₁,
      hwrite₁, hwrite₂, OpenFile.new, fetchFrom_eq (show FreeMapSector < NumSectors by decide),
      fetchFrom_eq (show DirectorySector < NumSectors by decide), Option.map_some, hwrite₃,
      hwrite₄]
  · have hmarked : ∀ x, (volume disk₄).marked x = b₁.testBit x := by
      intro x
      rw [← htest₃]
      simp only [volume, hmap]
      refine hsame₄.bitmap_eq (fun y hy hmem => ?_) ?_
      · rw [hheader₁.blocksOf_eq] at hy
        exact hdisjoint y (List.mem_cons_of_mem _ hy) y (List.mem_cons_of_mem _ hmem) rfl
      · rw [hheader₁.blocksOf_eq, hl₀.length]
    exact {
      nodup := hnodup
      marked := fun x => by rw [hmarked, htest₁]
      marked_lt := fun x => marked_lt
      blocks_map := by simp only [volume, hmap, hheader₁.blocksOf_eq]
      blocks_dir := by simp only [volume, hdir, hheader₂.blocksOf_eq]
      size_map := by
        refine ⟨?_, ?_⟩ <;> simp only [volume, hmap]
        · exact hheader₁.numBytes
        · rw [hheader₁.blocksOf_eq, hl₀.length]
      size_dir := by
        refine ⟨?_, ?_⟩ <;> simp only [volume, hdir]
        · exact hheader₂.numBytes
        · rw [hheader₂.blocksOf_eq, hl₁.length]
      empty := by
        intro i hi
        simp only [volume, hdir]
        rw [hentry₄ i hi]
        exact Directory.inUse_new _ _ hi }

/-- The constructor on any disk, `format = TRUE`. -/
theorem new_format (disk : Disk) (junk : ℕ → ByteMem) :
    ∃ fs mapBlocks dirBlocks, FileSystem.new true disk junk = some fs ∧ fs.Sound ∧
      fs.cdSector = DirectorySector ∧
      Formatted (Filesys.volume fs.disk) mapBlocks dirBlocks := by
  obtain ⟨disk', l₀, l₁, hformat, hfmt⟩ := formatDisk_spec disk junk
  refine ⟨⟨disk', ⟨headerOf disk' FreeMapSector, 0⟩, ⟨headerOf disk' DirectorySector, 0⟩,
    DirectorySector, OpenFileTable.new fun i => ((junk 5).word (4 * i)).toNat, Heap.empty⟩,
    l₀, l₁, ?_, ⟨hfmt.sound, rfl, ?_, ?_⟩, rfl, hfmt⟩
  · simp only [FileSystem.new, if_true, hformat, Option.bind_eq_bind, Option.bind_some]
  · exact (congrArg Nat.cast (Int.toNat_natCast DirectorySector)).symm
  · rw [Int.toNat_natCast]
    exact RootedTree.Reach.root

/-! ## §7  Keeping the state sound -/

/-- Moving to any directory entry of the current directory. -/
theorem Sound.moved (h : fs.Sound) {i : ℕ} {name : List Byte}
    (hi : IsDirectoryEntry (Filesys.volume fs.disk) fs.cdSector.toNat i name) :
    Sound { fs with
      cdSector := ((Filesys.volume fs.disk).entry fs.cdSector.toNat i).sector } := by
  obtain ⟨r, -, -, hsec⟩ := h.volume.exists_ref h.reachable hi.1 hi.2.1
  exact ⟨h.volume, h.freeMapFile, (Int.toNat_of_nonneg (by simp only; omega)).symm,
    h.volume.reachable_of_isDirectory h.reachable hi.1 hi.2.1 hi.2.2.2⟩

theorem Sound.created (h : fs.Sound) {disk' : Disk} {i sector initialSize : ℕ} {l : List ℕ}
    {name : List Byte} {isDirectory : Bool}
    (hcreated : Created (Filesys.volume fs.disk) (Filesys.volume disk') fs.cdSector.toNat i
      sector l initialSize name isDirectory)
    (hmap : headerOf disk' FreeMapSector = headerOf fs.disk FreeMapSector)
    (hroom : isDirectory = true → DirectoryFileSize ≤ initialSize) :
    Sound { fs with disk := disk' } :=
  ⟨hcreated.sound h.volume h.reachable hroom, h.freeMapFile.trans hmap.symm, h.cdSector,
    (hcreated.reachable_iff h.volume h.reachable).mpr (Or.inl h.reachable)⟩

/-- The current directory stays reachable: a directory that holds the entry removed
is not the empty one that the entry leads to. -/
theorem Sound.removed (h : fs.Sound) {disk' : Disk} {i : ℕ}
    (hremoved : Removed (Filesys.volume fs.disk) (Filesys.volume disk') fs.cdSector.toNat i)
    (hmap : headerOf disk' FreeMapSector = headerOf fs.disk FreeMapSector)
    (hord : (Filesys.volume fs.disk).Ordinary fs.cdSector.toNat i)
    (hempty : Removable (Filesys.volume fs.disk) fs.cdSector.toNat i) :
    Sound { fs with disk := disk' } := by
  refine ⟨hremoved.sound h.volume h.reachable hord hempty, h.freeMapFile.trans hmap.symm,
    h.cdSector, (hremoved.reachable_iff h.volume h.reachable hord hempty).mpr
      ⟨h.reachable, ?_⟩⟩
  rintro ⟨hdir, hself⟩
  exact h.volume.exact.isTree.child_ne h.reachable
    (child_eq_some.mpr ⟨hord, hdir, rfl⟩) hself.symm

/-- Sizes fit in a header, and a directory gets room for its table, as it does from
`CreateDirectory`. -/
def Act.Valid : Act → Prop
  | .create _ initialSize isDirectory =>
    0 ≤ initialSize ∧ initialSize ≤ MaxFileSize ∧
      (isDirectory = true → (DirectoryFileSize : ℤ) ≤ initialSize)
  | .createDirectory _ => True
  | .changeDirectory _ => True
  | .remove _ => True

instance : DecidablePred Act.Valid
  | .create _ _ _ => inferInstanceAs (Decidable (_ ∧ _ ∧ _))
  | .createDirectory _ => .isTrue trivial
  | .changeDirectory _ => .isTrue trivial
  | .remove _ => .isTrue trivial

end FileSystem

end OsAssignments.Filesys
