import OsAssignments.Filesys.FreeMap
import OsAssignments.Filesys.FileWrites

/-!
# Creating, and removing again

`Create` does all that it is to do or nothing, and `Remove` takes back what it did. Both
are said of every state in which distinct files and directories lie on distinct sectors,
all of them marked: sectors may be marked that nothing uses, and the links `.` and `..`
may be gone or lead anywhere.

- `create_all_or_nothing` — a call that fails changes nothing; a call that succeeds takes
  the sectors it needs, adds one entry and touches no other file or directory.
- `remove_undoes_create` — after any writes to the new file, `Remove` gives the old bitmap
  and the old directory back.
-/

namespace OsAssignments.Filesys

open Volume PartialMachine

/-! ## §1  Files that lie apart -/

/-- Distinct files and directories use distinct sectors, and these are marked. -/
structure Volume.Apart (v : Volume) : Prop where
  marked : ∀ r, v.Live r → ∀ x ∈ v.sectors r, v.marked x = true
  disjoint : ∀ r r', v.Live r → v.Live r' → r ≠ r' →
    ∀ x ∈ v.sectors r, x ∉ v.sectors r'

/-- A call of `WriteAt`, with what the buffer on the kernel's heap held before. -/
structure WriteCall where
  src : ByteMem
  numBytes : ℤ
  position : ℕ
  junk : ByteMem

def OpenFile.perform (f : OpenFile) (disk : Disk) (w : WriteCall) : Option Disk :=
  (f.writeAt disk w.junk w.src w.numBytes w.position).map Prod.snd

section

variable {f : OpenFile} {len : ℕ} (hfits : f.hdr.Fits len)
  (hlength : (blocksOf f.hdr).length = divRoundUp len SectorSize)

include hfits hlength

/-- **A run of writes** stays in the data sectors of the file. -/
theorem OpenFile.sameOff_of_run {ws : List WriteCall} {disk disk' : Disk}
    (hrun : run f.perform disk ws = some disk') :
    SameOff (· ∈ blocksOf f.hdr) disk disk' := by
  refine run_invariant (I := fun d => SameOff (· ∈ blocksOf f.hdr) disk d)
    (fun _ _ => rfl) (fun d w d' hsame hw => ?_) ws disk' hrun
  obtain ⟨⟨result, _⟩, hwrite, rfl⟩ := Option.map_eq_some_iff.mp hw
  exact hsame.trans (OpenFile.sameOff_of_writeAt hfits hlength hwrite) fun s hs => hs.elim id id

/-- It returns if and only if each sum of a position inside the file and a count is an
`int`. -/
theorem OpenFile.isSome_run_iff (ws : List WriteCall) (disk : Disk) :
    (run f.perform disk ws).isSome ↔
      ∀ w ∈ ws, Representable len w.numBytes w.position := by
  induction ws generalizing disk with
  | nil => simp
  | cons w ws ih =>
      rw [run_cons, List.forall_mem_cons, perform]
      constructor
      · intro hsome
        cases hwrite : f.writeAt disk w.junk w.src w.numBytes w.position with
        | none => simp [hwrite] at hsome
        | some r =>
            rw [hwrite, Option.map_some, Option.bind_some] at hsome
            exact ⟨OpenFile.representable_of_writeAt hfits hwrite, (ih _).mp hsome⟩
      · rintro ⟨hw, hws⟩
        obtain ⟨disk₁, hwrite, -⟩ := f.writeAt_sameOff disk hfits hlength w.junk w.src hw
        rw [hwrite, Option.map_some, Option.bind_some]
        exact (ih disk₁).mpr hws

end

namespace FileSystem

/-- The current directory is one of the directories, and it and the bitmap have headers as
`Allocate` makes them, for as many bytes as are written there. -/
structure Intact (fs : FileSystem) : Prop where
  apart : (volume fs.disk).Apart
  reachable : (volume fs.disk).Reachable fs.cdSector.toNat
  cdSector : fs.cdSector = (fs.cdSector.toNat : ℤ)
  freeMapFile : fs.freeMapFile.hdr = headerOf fs.disk FreeMapSector
  freeMap : (volume fs.disk).HasSize FreeMapSector FreeMapFileSize
  nodup_freeMap : (FreeMapSector :: (volume fs.disk).blocks FreeMapSector).Nodup
  directory : ∃ len, DirectoryFileSize ≤ len ∧
    (volume fs.disk).HasSize fs.cdSector.toNat len
  nodup_cd : (fs.cdSector.toNat :: (volume fs.disk).blocks fs.cdSector.toNat).Nodup

variable {fs : FileSystem}

theorem Intact.mounted (h : fs.Intact) : fs.Mounted := by
  obtain ⟨rcd, hrcd, hcd, hne⟩ := Reachable.exists_ref h.reachable
  have hsectors : fs.home = (volume fs.disk).sectors .freeMap ++
      (volume fs.disk).sectors rcd := by
    rw [home, sectors, sectors, hcd]
    rfl
  refine ⟨h.freeMapFile, h.cdSector, h.freeMap, h.directory,
    List.nodup_append.mpr ⟨h.nodup_freeMap, h.nodup_cd, ?_⟩, fun x hx => ?_⟩
  · rintro x hx y hy rfl
    rw [← hcd] at hy
    exact h.apart.disjoint .freeMap rcd trivial hrcd hne.symm x hx hy
  · rw [hsectors, List.mem_append] at hx
    rcases hx with hx | hx
    · exact h.apart.marked .freeMap trivial x hx
    · exact h.apart.marked rcd hrcd x hx

/-- The states that the code makes are more than intact. -/
theorem Sound.intact (h : fs.Sound) : fs.Intact where
  apart := ⟨fun _ hr _ hx => h.volume.exact.marked_of_mem hr hx, h.volume.exact.disjoint⟩
  reachable := h.reachable
  cdSector := h.cdSector
  freeMapFile := h.freeMapFile
  freeMap := h.volume.freeMap
  nodup_freeMap := h.mounted.nodup_freeMap
  directory := h.volume.directory _ h.reachable
  nodup_cd := h.mounted.nodup_cd

/-! ## §2  All or nothing -/

/-- What `Create` has done when it returns `TRUE`: entry `i` of the current directory is for
the new file or directory, `sector` has its header and `l` are its data sectors. -/
structure Creates (fs : FileSystem) (disk' : Disk) (name : CString) (size : ℕ)
    (isDirectory : Bool) (i sector : ℕ) (l : List ℕ) : Prop where
  count : (sector :: l).length = 1 + divRoundUp size SectorSize
  nodup : (sector :: l).Nodup
  was_free : ∀ x ∈ sector :: l, (volume fs.disk).marked x = false ∧ x < NumSectors
  marked : ∀ x, (volume disk').marked x = true ↔
    (volume fs.disk).marked x = true ∨ x ∈ sector :: l
  absent : ∀ junk junk', ∃ file d,
    openDirectory fs.disk fs.cdSector junk junk' = some (file, d) ∧ d.findIndex name = -1
  found : ∀ junk junk', ∃ file d,
    openDirectory disk' fs.cdSector junk junk' = some (file, d) ∧ d.find name = sector ∧
      d.findDirectory name = if isDirectory then (sector : ℤ) else -1
  entry : (volume disk').entry fs.cdSector.toNat i =
    ⟨true, sector, name.chars, isDirectory⟩
  header : (headerOf disk' sector).fileLength = size ∧ (volume disk').blocks sector = l
  /-- The table of a new directory. -/
  links : isDirectory = true →
    (volume disk').entry sector 0 = ⟨true, sector, dot.chars, true⟩ ∧
      (volume disk').entry sector 1 = ⟨true, fs.cdSector.toNat, dotDot.chars, true⟩ ∧
      ∀ j, 2 ≤ j → j < NumDirEntries → ((volume disk').entry sector j).inUse = false
  /-- Every other file and directory, header and all. -/
  others : ∀ r, (volume fs.disk).Live r → r ≠ .freeMap →
    (volume fs.disk).header r ≠ fs.cdSector.toNat →
    ∀ x, x / SectorSize ∈ (volume fs.disk).sectors r → disk' x = fs.disk x
  headers : headerOf disk' FreeMapSector = headerOf fs.disk FreeMapSector ∧
    headerOf disk' fs.cdSector.toNat = headerOf fs.disk fs.cdSector.toNat
  /-- The current directory but the one entry. -/
  directory : ∀ x : ℕ, (x : ℤ) < (volume fs.disk).size fs.cdSector.toNat →
    x < entrySize * i ∨ entrySize * i + entrySize ≤ x →
    contents disk' (headerOf disk' fs.cdSector.toNat) x =
      contents fs.disk (headerOf fs.disk fs.cdSector.toNat) x

/-- The call fails and changes nothing, or it succeeds and does everything. -/
def AllOrNothing (fs : FileSystem) (name : CString) (size : ℕ) (isDirectory : Bool)
    (result : Option (Bool × FileSystem)) : Prop :=
  result = some (false, fs) ∨ ∃ disk' i sector l,
    result = some (true, { fs with disk := disk' }) ∧
      Creates fs disk' name size isDirectory i sector l

section

variable {disk' : Disk} {name : CString} {initialSize i sector : ℕ} {l : List ℕ}
  {isDirectory : Bool} {d : Directory} {b : BitMap}

/-- The entries of the current directory once the table of `d` is written. -/
theorem Mounted.entry_of_table (h : fs.Mounted)
    (hdirectory : headerOf disk' fs.cdSector.toNat = headerOf fs.disk fs.cdSector.toNat)
    (htable : ∀ x : ℕ, (x : ℤ) < (volume fs.disk).size fs.cdSector.toNat →
      contents disk' (headerOf fs.disk fs.cdSector.toNat) x =
        if x < DirectoryFileSize then d.table x
        else contents fs.disk (headerOf fs.disk fs.cdSector.toNat) x)
    {j : ℕ} (hj : j < NumDirEntries) :
    (volume disk').entry fs.cdSector.toNat j = d.entry j := by
  obtain ⟨len, hlen, hhas⟩ := h.directory
  change entryAt (contents disk' (headerOf disk' _)) j = _
  rw [hdirectory]
  refine Filesys.entryAt_of_table (fun x hx => ?_) hj
  rw [htable x (by rw [hhas.1]; omega), if_pos hx]

/-- The new sectors are not those of the two files. -/
theorem Chosen.not_mem (hchosen : Chosen fs name isDirectory i sector l d b)
    (h : fs.Mounted) {x : ℕ} (hx : x ∈ fs.home) : x ∉ sector :: l :=
  h.not_mem_of_clear (fun y hy => (hchosen.unmarked y hy).1) hx

variable (hflush : Flushed fs disk' sector l initialSize isDirectory d b)

include hflush

/-- The entries of the current directory after `Create`. -/
theorem Flushed.entry (h : fs.Mounted) {j : ℕ} (hj : j < NumDirEntries) :
    (volume disk').entry fs.cdSector.toNat j = d.entry j :=
  h.entry_of_table hflush.directory hflush.table hj

variable (hchosen : Chosen fs name isDirectory i sector l d b)

include hchosen

theorem Flushed.marked_iff (x : ℕ) : (volume disk').marked x = true ↔
    (volume fs.disk).marked x = true ∨ x ∈ sector :: l := by
  rw [hflush.marked, hchosen.testBit]

/-- The state after `Create` can be written to again. -/
theorem Flushed.mounted (h : fs.Mounted) : Mounted { fs with disk := disk' } :=
  h.of_headers hflush.freeMap hflush.directory fun x hx =>
    (hflush.marked_iff hchosen x).mpr (Or.inl (h.marked x hx))

end

/-- The new file or directory as the calls that follow find it. -/
structure Installed (fs : FileSystem) (disk' : Disk) (name : CString) (size : ℕ)
    (isDirectory : Bool) (i sector : ℕ) (l : List ℕ) : Prop where
  mounted : Mounted { fs with disk := disk' }
  clear : ∀ x ∈ home { fs with disk := disk' }, x ∉ sector :: l
  slot : i < NumDirEntries
  marked : ∀ x, (volume disk').marked x = true ↔
    (volume fs.disk).marked x = true ∨ x ∈ sector :: l
  lists : (headerOf disk' sector).Lists size l
  entry_new : (volume disk').entry fs.cdSector.toNat i =
    ⟨true, sector, key name, isDirectory⟩
  entry_other : ∀ j < NumDirEntries, j ≠ i →
    (volume disk').entry fs.cdSector.toNat j = (volume fs.disk).entry fs.cdSector.toNat j

section

variable {disk' disk'' : Disk} {name : CString} {size i sector : ℕ} {l : List ℕ}
  {isDirectory : Bool} {d : Directory} {b : BitMap}

theorem Installed.of_flushed (h : fs.Mounted)
    (hchosen : Chosen fs name isDirectory i sector l d b)
    (hflush : Flushed fs disk' sector l size isDirectory d b) :
    Installed fs disk' name size isDirectory i sector l where
  mounted := hflush.mounted hchosen h
  clear := by
    have hhome : home { fs with disk := disk' } = fs.home := by
      simp only [home, volume, hflush.freeMap, hflush.directory]
    exact fun x hx => hchosen.not_mem h (hhome ▸ hx)
  slot := hchosen.slot
  marked := hflush.marked_iff hchosen
  lists := hflush.lists
  entry_new := (hflush.entry h hchosen.slot).trans hchosen.entry_new
  entry_other := fun _ hj hne => (hflush.entry h hj).trans (hchosen.entry_other hj hne)

/-- **A write to the new file** leaves it there. -/
theorem Installed.written (h : Installed fs disk' name size isDirectory i sector l)
    (hnotin : sector ∉ l) (hsame : SameOff (· ∈ l) disk' disk'') :
    Installed fs disk'' name size isDirectory i sector l := by
  have hout : ∀ x ∈ home { fs with disk := disk' }, x ∉ l :=
    fun x hx hmem => h.clear x hx (List.mem_cons_of_mem _ hmem)
  have hmap : headerOf disk'' FreeMapSector = headerOf disk' FreeMapSector :=
    hsame.headerOf_eq (hout _ (mem_home.mpr (Or.inl rfl)))
  have hcd : headerOf disk'' fs.cdSector.toNat = headerOf disk' fs.cdSector.toNat :=
    hsame.headerOf_eq (hout _ (mem_home.mpr (Or.inr (Or.inl rfl))))
  have hmarked : ∀ x, (volume disk'').marked x = (volume disk').marked x := by
    intro x
    simp only [volume, hmap]
    exact hsame.bitmap_eq (fun y hy => hout y (mem_home.mpr (Or.inr (Or.inr (Or.inr hy)))))
      (Nat.le_of_eq h.mounted.freeMap.2.symm)
  have hentry : ∀ j < NumDirEntries, (volume disk'').entry fs.cdSector.toNat j =
      (volume disk').entry fs.cdSector.toNat j := by
    intro j hj
    obtain ⟨len, hlen, -, hlength⟩ := h.mounted.directory
    simp only [volume, hcd]
    exact hsame.table_eq (fun y hy => hout y (mem_home.mpr (Or.inr (Or.inr (Or.inl hy)))))
      (Nat.le_trans (divRoundUp_mono (by decide) hlen) (Nat.le_of_eq hlength.symm)) hj
  have hhome : home { fs with disk := disk'' } = home { fs with disk := disk' } := by
    simp only [home, volume, hmap, hcd]
  exact {
    mounted := h.mounted.of_headers hmap hcd fun x hx =>
      (hmarked x).trans (h.mounted.marked x hx)
    clear := fun x hx => h.clear x (hhome ▸ hx)
    slot := h.slot
    marked := fun x => by rw [hmarked, h.marked]
    lists := (hsame.headerOf_eq hnotin).symm ▸ h.lists
    entry_new := (hentry i h.slot).trans h.entry_new
    entry_other := fun j hj hne => (hentry j hj).trans (h.entry_other j hj hne) }

/-- The new entry is the one of the name. -/
theorem Installed.named (h : Installed fs disk' name size isDirectory i sector l)
    (hnew : ∀ j < NumDirEntries, ((volume fs.disk).entry fs.cdSector.toNat j).inUse = true →
      ((volume fs.disk).entry fs.cdSector.toNat j).name ≠ key name) :
    Named (volume disk') fs.cdSector.toNat i (key name) ∧
      ∀ j, Named (volume disk') fs.cdSector.toNat j (key name) → j = i := by
  refine ⟨⟨h.slot, by rw [h.entry_new], by rw [h.entry_new]⟩, fun j hj => ?_⟩
  obtain ⟨hlt, huse, hname⟩ := hj
  by_contra hne
  rw [h.entry_other j hlt hne] at huse hname
  exact hnew j hlt huse hname

end

/-- The other files and directories are neither in the new sectors nor rewritten. -/
theorem Intact.not_written (h : fs.Intact) {l : List ℕ}
    (hfresh : ∀ x ∈ l, (volume fs.disk).marked x = false) {r : Ref}
    (hr : (volume fs.disk).Live r) (hmap : r ≠ .freeMap)
    (hcd : (volume fs.disk).header r ≠ fs.cdSector.toNat) {x : ℕ}
    (hx : x ∈ (volume fs.disk).sectors r) : ¬ (x ∈ l ∨ fs.Rewritten x) := by
  obtain ⟨rcd, hrcd, hrcdheader, -⟩ := Reachable.exists_ref h.reachable
  have hne : r ≠ rcd := by
    rintro rfl
    exact hcd hrcdheader
  rintro (hmem | hmem | hmem)
  · have hmarked := h.apart.marked r hr x hx
    rw [hfresh x hmem] at hmarked
    cases hmarked
  · rw [← hrcdheader] at hmem
    exact h.apart.disjoint r rcd hr hrcd hne x hx (List.mem_cons_of_mem _ hmem)
  · exact h.apart.disjoint r .freeMap hr trivial hmap x hx (List.mem_cons_of_mem _ hmem)

theorem key_eq {name : CString} (hname : name.chars.length ≤ FileNameMaxLen) :
    key name = name.chars :=
  List.take_of_length_le hname

/-- The two calls, for a file of any size and for a directory. -/
theorem Intact.allOrNothing (h : fs.Intact) {name : CString}
    (hname : name.chars.length ≤ FileNameMaxLen) {size : ℕ} (hsize : size ≤ MaxFileSize)
    {isDirectory : Bool} (hroom : isDirectory = true → DirectoryFileSize ≤ size)
    (junk : ℕ → ByteMem) :
    AllOrNothing fs name size isDirectory (fs.create name size isDirectory junk) := by
  have hm := h.mounted
  rcases create_spec hm name hsize hroom junk with
    ⟨hfail, -⟩ | ⟨-, disk', i, sector, l, d, b, hcreate, hchosen, hflush⟩
  · exact Or.inl hfail
  refine Or.inr ⟨disk', i, sector, l, hcreate, ?_⟩
  have hinstalled := Installed.of_flushed hm hchosen hflush
  have hfresh : ∀ x ∈ sector :: l, (volume fs.disk).marked x = false :=
    fun x hx => (hchosen.unmarked x hx).1
  exact {
    count := by
      rw [List.length_cons, hflush.lists.length]
      omega
    nodup := hchosen.nodup
    was_free := hchosen.unmarked
    marked := hinstalled.marked
    absent := by
      intro junk junk'
      obtain ⟨d, hopen, htable, -, hentry⟩ := hm.openDirectory junk junk'
      refine ⟨_, d, hopen, ?_⟩
      rcases findIndex_cases htable hentry name with ⟨k, -, hlt, huse, hk⟩ | ⟨hnone, -⟩
      · exact absurd hk (hchosen.new_name k hlt huse)
      · exact hnone
    found := by
      intro junk junk'
      obtain ⟨hnamed, honly⟩ := hinstalled.named hchosen.new_name
      obtain ⟨d, hopen, -, -, -, hfind, hfindDir⟩ := hinstalled.mounted.openDirectory_named
        hnamed honly (by rw [hinstalled.entry_new]) junk junk'
      refine ⟨_, d, hopen, hfind, ?_⟩
      rw [hfindDir, hinstalled.entry_new]
    entry := hinstalled.entry_new.trans (by rw [key_eq hname])
    header := ⟨hflush.lists.numBytes, hflush.lists.blocksOf_eq⟩
    links := hflush.links
    others := fun r hr hmap hcd x hx =>
      hflush.same x (h.not_written hfresh hr hmap hcd hx)
    headers := ⟨hflush.freeMap, hflush.directory⟩
    directory := by
      intro x hx hout
      rw [hflush.directory, hflush.table x hx]
      split
      · rename_i hlt
        exact hchosen.table x hlt hout
      · rfl }

/-- **`Create` and `CreateDirectory` do everything or nothing.** -/
theorem create_all_or_nothing (h : fs.Intact) (name : CString)
    (hname : name.chars.length ≤ FileNameMaxLen) (junk : ℕ → ByteMem) :
    (∀ size : ℕ, size ≤ MaxFileSize →
      AllOrNothing fs name size false (fs.create name size false junk)) ∧
    AllOrNothing fs name DirectoryFileSize true (fs.createDirectory name junk) :=
  ⟨fun _ hsize => h.allOrNothing hname hsize (by simp) junk,
    h.allOrNothing hname (show DirectoryFileSize ≤ MaxFileSize by decide)
      (fun _ => Nat.le_refl _) junk⟩

/-- A file of three sectors, and a directory, on a formatted disk. -/
theorem create_all_or_nothing_formatted : ∃ fs : FileSystem,
    FileSystem.new true (fun _ => 0xff) (fun _ _ => 0xff) = some fs ∧
      AllOrNothing fs nameA 300 false (fs.create nameA 300 false fun _ _ => 0xff) ∧
      AllOrNothing fs nameA DirectoryFileSize true
        (fs.createDirectory nameA fun _ _ => 0xff) := by
  obtain ⟨fs, -, -, hnew, hsound, -⟩ := new_format (fun _ => 0xff) fun _ _ => 0xff
  obtain ⟨hfile, hdirectory⟩ :=
    create_all_or_nothing hsound.intact nameA (by decide) fun _ _ => 0xff
  exact ⟨fs, hnew, hfile 300 (by decide), hdirectory⟩

/-! ## §3  Removing again -/

/-- The old bitmap, and the old names with the sectors and kinds that they had. -/
structure Restores (fs fs' : FileSystem) : Prop where
  marked : ∀ x, (volume fs'.disk).marked x = (volume fs.disk).marked x
  bitmap : ∀ k < FreeMapFileSize,
    contents fs'.disk (headerOf fs'.disk FreeMapSector) k =
      contents fs.disk (headerOf fs.disk FreeMapSector) k
  cdSector : fs'.cdSector = fs.cdSector
  names : ∀ junk junk', ∃ file d file' d',
    openDirectory fs.disk fs.cdSector junk junk' = some (file, d) ∧
      openDirectory fs'.disk fs'.cdSector junk junk' = some (file', d') ∧
      ∀ name, d'.find name = d.find name ∧ d'.findDirectory name = d.findDirectory name

/-- `Remove` returns `TRUE`, without an `ASSERT` that fails, and takes back what was done
since `fs`. -/
def RemoveRestores (fs fs' : FileSystem) (name : CString) : Prop :=
  ∀ junk, ∃ fs'', fs'.remove name junk = some (true, fs'') ∧ Restores fs fs''

section

variable {disk' disk'' : Disk} {name : CString} {size i sector : ℕ} {l : List ℕ}
  {isDirectory : Bool}

/-- The emptiness test sees through the links of a new directory. -/
theorem isFull_new {disk : Disk} {sector cd : ℕ} (hlt : sector < NumSectors)
    (hl : (headerOf disk sector).Lists DirectoryFileSize l)
    (hlinks : (volume disk).entry sector 0 = ⟨true, sector, dot.chars, true⟩ ∧
      (volume disk).entry sector 1 = ⟨true, cd, dotDot.chars, true⟩ ∧
      ∀ j, 2 ≤ j → j < NumDirEntries → ((volume disk).entry sector j).inUse = false)
    (junk junk' : ByteMem) : isFull disk sector true junk junk' = some false := by
  obtain ⟨d, hopen, hsize, htable⟩ :=
    openDirectory_of_fits hlt (Nat.le_refl _) hl.fits junk junk'
  have hentry : ∀ j < NumDirEntries, d.entry j = (volume disk).entry sector j :=
    fun j hj => entryAt_of_table htable hj
  have hempty : d.isEmpty = true := by
    rw [Directory.isEmpty_iff, hsize]
    intro j hj huse
    rw [hentry j hj] at huse ⊢
    exact isDots_of_links hlinks hj huse
  rw [isFull, if_pos rfl, hopen, Option.map_some]
  exact congrArg (fun e => some !e) hempty

/-- **`Remove`** of what was just created. -/
theorem Installed.remove (h : Installed fs disk' name size isDirectory i sector l)
    (hm : fs.Mounted) (hfree : ((volume fs.disk).entry fs.cdSector.toNat i).inUse = false)
    (hnew : ∀ j < NumDirEntries, ((volume fs.disk).entry fs.cdSector.toNat j).inUse = true →
      ((volume fs.disk).entry fs.cdSector.toNat j).name ≠ key name)
    (hunmarked : ∀ x ∈ sector :: l, (volume fs.disk).marked x = false)
    (hfull : ∀ junk junk', isFull disk' sector isDirectory junk junk' = some false) :
    RemoveRestores fs { fs with disk := disk' } name := by
  intro junk
  obtain ⟨hnamed, honly⟩ := h.named hnew
  have hsec : ((volume disk').entry fs.cdSector.toNat i).sector = sector := by
    rw [h.entry_new]
  have hblocks : (volume disk').blocks sector = l := h.lists.blocksOf_eq
  have hmarked : ∀ x ∈ sector :: (volume disk').blocks sector,
      0 < x ∧ (volume disk').marked x = true := by
    rw [hblocks]
    intro x hx
    refine ⟨?_, (h.marked x).mpr (Or.inr hx)⟩
    rw [Nat.pos_iff_ne_zero]
    rintro rfl
    exact h.clear 0 (mem_home.mpr (Or.inl rfl)) hx
  have hcheck : isFull disk' sector
      ((volume disk').entry fs.cdSector.toNat i).isDirectory (junk 3) (junk 4) =
        some false := by
    rw [h.entry_new]
    exact hfull (junk 3) (junk 4)
  rcases remove_spec h.mounted hnamed honly hsec hmarked (hblocks ▸ h.lists.nodup) junk
      hcheck with
    ⟨hno, -⟩ | ⟨-, disk₂, hremove, hfreed⟩
  · cases hno
  refine ⟨_, hremove, ?_⟩
  have hmarks : ∀ x, (volume disk₂).marked x = (volume fs.disk).marked x := by
    intro x
    rw [Bool.eq_iff_iff, hfreed.marked, hsec, Int.toNat_natCast, hblocks, h.marked]
    constructor
    · rintro ⟨hx | hx, hout⟩
      · exact hx
      · exact absurd hx hout
    · refine fun hx => ⟨Or.inl hx, fun hmem => ?_⟩
      rw [hunmarked x hmem] at hx
      cases hx
  -- the directory can still be read
  have hmounted : Mounted { fs with disk := disk₂ } :=
    h.mounted.of_headers hfreed.freeMap hfreed.directory fun x hx =>
      (hfreed.marked x).mpr ⟨h.mounted.marked x hx, by
        rw [hsec, Int.toNat_natCast, hblocks]
        exact h.clear x hx⟩
  refine ⟨hmarks, fun k hk => eq_of_testBit_ofMem hmarks hk, rfl, fun junk junk' => ?_⟩
  obtain ⟨d, hopen, hsize, -, hentry⟩ := hm.openDirectory junk junk'
  obtain ⟨d₂, hopen₂, hsize₂, -, hentry₂⟩ := hmounted.openDirectory junk junk'
  refine ⟨_, d, _, d₂, hopen, hopen₂, fun n => ?_⟩
  refine Directory.find_congr (hsize₂.trans hsize.symm) (fun j hj => ?_) n
  rw [hsize] at hj
  rw [hentry j hj, hentry₂ j hj]
  by_cases hji : j = i
  · subst hji
    exact Or.inr ⟨hfreed.freed, hfree⟩
  · exact Or.inl ((hfreed.entry_other j hj hji).trans (h.entry_other j hj hji))

/-- A new file can be opened, and writes through the open file return where they can be
represented. -/
theorem Installed.open_write (h : Installed fs disk' name size false i sector l)
    (hnew : ∀ j < NumDirEntries, ((volume fs.disk).entry fs.cdSector.toNat j).inUse = true →
      ((volume fs.disk).entry fs.cdSector.toNat j).name ≠ key name)
    (hnotin : sector ∉ l) (hlt : sector < NumSectors) :
    (∀ junk, findPlain { fs with disk := disk' } name junk = some (some (sector : ℤ))) ∧
    ∃ f, OpenFile.new disk' sector = some f ∧ ∀ ws : List WriteCall,
      ((run f.perform disk' ws).isSome ↔
        ∀ w ∈ ws, Representable size w.numBytes w.position) ∧
      ∀ disk'', run f.perform disk' ws = some disk'' →
        Installed fs disk'' name size false i sector l := by
  have hlength : (blocksOf (headerOf disk' sector)).length = divRoundUp size SectorSize := by
    rw [h.lists.blocksOf_eq, h.lists.length]
  refine ⟨fun junk => ?_, ⟨headerOf disk' sector, 0⟩, ?_, fun ws =>
    ⟨OpenFile.isSome_run_iff (f := ⟨headerOf disk' sector, 0⟩) h.lists.fits hlength ws disk',
      fun disk'' hrun => ?_⟩⟩
  · obtain ⟨hnamed, honly⟩ := h.named hnew
    obtain ⟨d, hopen, -, -, -, hfind, hfindDir⟩ := h.mounted.openDirectory_named hnamed honly
      (by rw [h.entry_new]) (junk 0) (junk 1)
    rw [h.entry_new, if_neg Bool.false_ne_true] at hfindDir
    simp only [findPlain, hopen, Option.bind_eq_bind, Option.bind_some, hfind, hfindDir]
    rw [if_pos ⟨Int.natCast_nonneg sector, trivial⟩]
  · rw [OpenFile.new, fetchFrom_eq hlt, Option.map_some]
  · have hsame := OpenFile.sameOff_of_run (f := ⟨headerOf disk' sector, 0⟩) h.lists.fits
      hlength hrun
    rw [h.lists.blocksOf_eq] at hsame
    exact h.written hnotin hsame

end

/-- **`Remove` undoes `Create`**: the new file is found and opened, a run of writes to it
returns unless a position and a count overflow an `int`, and after any that returns `Remove`
takes back all of it; and `Remove` undoes `CreateDirectory`. -/
theorem remove_undoes_create (h : fs.Intact) (name : CString) (junk : ℕ → ByteMem) :
    (∀ (size : ℕ) (fs' : FileSystem), size ≤ MaxFileSize →
      fs.create name size false junk = some (true, fs') →
      ∃ (sector : ℤ) (f : OpenFile),
        (∀ junk', fs'.findPlain name junk' = some (some sector)) ∧
        OpenFile.new fs'.disk sector = some f ∧
        ∀ ws : List WriteCall,
          ((run f.perform fs'.disk ws).isSome ↔
            ∀ w ∈ ws, Representable size w.numBytes w.position) ∧
          ∀ disk'' : Disk, run f.perform fs'.disk ws = some disk'' →
            RemoveRestores fs { fs' with disk := disk'' } name) ∧
    ∀ fs' : FileSystem, fs.createDirectory name junk = some (true, fs') →
      RemoveRestores fs fs' name := by
  have hm := h.mounted
  constructor
  · intro size fs' hsize hcreate
    have hroom : false = true → DirectoryFileSize ≤ size := fun hdir => by cases hdir
    rcases create_spec hm name hsize hroom junk with
      ⟨hfail, -⟩ | ⟨-, disk', i, sector, l, d, b, hok, hchosen, hflush⟩
    · rw [hfail] at hcreate
      cases hcreate
    rw [hok] at hcreate
    cases hcreate
    obtain ⟨hnotin, -⟩ := List.nodup_cons.mp hchosen.nodup
    obtain ⟨hplain, f, hopen, hwrites⟩ :=
      (Installed.of_flushed hm hchosen hflush).open_write hchosen.new_name hnotin
        (hchosen.unmarked sector List.mem_cons_self).2
    refine ⟨sector, f, hplain, hopen, fun ws => ?_⟩
    obtain ⟨hreturns, hinstalled⟩ := hwrites ws
    refine ⟨hreturns, fun disk'' hrun => ?_⟩
    exact (hinstalled disk'' hrun).remove hm hchosen.free hchosen.new_name
      (fun x hx => (hchosen.unmarked x hx).1) fun _ _ => rfl
  · intro fs' hcreate
    have hroom : true = true → DirectoryFileSize ≤ DirectoryFileSize :=
      fun _ => Nat.le_refl _
    rcases create_spec hm name (show DirectoryFileSize ≤ MaxFileSize by decide) hroom junk with
      ⟨hfail, -⟩ | ⟨-, disk', i, sector, l, d, b, hok, hchosen, hflush⟩
    · rw [createDirectory, hfail] at hcreate
      cases hcreate
    rw [createDirectory, hok] at hcreate
    cases hcreate
    exact (Installed.of_flushed hm hchosen hflush).remove hm hchosen.free hchosen.new_name
      (fun x hx => (hchosen.unmarked x hx).1) fun junk₁ junk₂ =>
        isFull_new (hchosen.unmarked sector List.mem_cons_self).2 hflush.lists
          (hflush.links rfl) junk₁ junk₂

/-- A file of three sectors, written to across the border of two of them, and a
directory. -/
theorem remove_undoes_create_formatted : ∃ fs fs' : FileSystem,
    FileSystem.new true (fun _ => 0xff) (fun _ _ => 0xff) = some fs ∧
      fs.create nameA 300 false (fun _ _ => 0xff) = some (true, fs') ∧
      (∃ (sector : ℤ) (f : OpenFile) (disk'' : Disk),
        OpenFile.new fs'.disk sector = some f ∧
        run f.perform fs'.disk [⟨fun _ => 7, 10, 120, fun _ => 0xff⟩] = some disk'' ∧
        RemoveRestores fs { fs' with disk := disk'' } nameA) ∧
      ∃ fs'' : FileSystem, fs.createDirectory nameA (fun _ _ => 0xff) = some (true, fs'') ∧
        RemoveRestores fs fs'' nameA := by
  obtain ⟨fs, -, -, hnew, hsound, -⟩ := new_format (fun _ => 0xff) fun _ _ => 0xff
  obtain ⟨hfile, hdirectory⟩ :=
    remove_undoes_create hsound.intact nameA fun _ _ => 0xff
  have hcreate : ((FileSystem.new true (fun _ => 0xff) (fun _ _ => 0xff)).bind fun fs =>
      fs.create nameA 300 false fun _ _ => 0xff).map Prod.fst = some true := by
    decide +kernel
  have hcreateDir : ((FileSystem.new true (fun _ => 0xff) (fun _ _ => 0xff)).bind fun fs =>
      fs.createDirectory nameA fun _ _ => 0xff).map Prod.fst = some true := by
    decide +kernel
  rw [hnew, Option.bind_some] at hcreate hcreateDir
  obtain ⟨⟨_, fs'⟩, hfs', rfl⟩ := Option.map_eq_some_iff.mp hcreate
  obtain ⟨⟨_, fs''⟩, hfs'', rfl⟩ := Option.map_eq_some_iff.mp hcreateDir
  obtain ⟨sector, f, -, hopen, hwrites⟩ := hfile 300 fs' (by decide) hfs'
  obtain ⟨hreturns, hremove⟩ := hwrites [⟨fun _ => 7, 10, 120, fun _ => 0xff⟩]
  have hsum : Representable (300 : ℕ) 10 120 := fun _ => by decide
  obtain ⟨disk'', hrun⟩ := Option.isSome_iff_exists.mp
    (hreturns.mpr (by simpa using hsum))
  exact ⟨fs, fs', hnew, hfs', ⟨sector, f, disk'', hopen, hrun, hremove disk'' hrun⟩, fs'', hfs'',
    hdirectory fs'' hfs''⟩

end FileSystem

end OsAssignments.Filesys
