import OsAssignments.Filesys.FileWrites
import Mathlib.Algebra.GroupWithZero.Nat

/-!
# Reading and writing from the seek position

`Read` and `Write` of `OpenFile` start where the call before stopped. The code is a
run of such calls on one open file; the specification knows only the bytes of the
file and counts.

- `OpenFile.openFile_flat` — an open file is an array of bytes of fixed length, and a
  run of calls moves consecutive bytes of it.
-/

namespace OsAssignments.Filesys

/-! ## §1  The calls -/

/-- `OpenFile::Read`; with the buffer that comes back. -/
def OpenFile.read (disk : Disk) (f : OpenFile) (junk into : ByteMem) (numBytes : ℤ) :
    Option (ℕ × ByteMem × OpenFile) :=
  (f.readAt disk junk into 0 numBytes f.seekPosition.toNat).map fun (result, into) =>
    (result, into, { f with seekPosition := f.seekPosition + result })

/-- A call, with what the buffer on the kernel's heap held before. -/
inductive Transfer where
  | read (into : ByteMem) (numBytes : ℤ) (junk : ByteMem)
  | write (src : ByteMem) (numBytes : ℤ) (junk : ByteMem)

/-- The bytes that a call has moved, as many as it returned, and where in the file. -/
structure Moved where
  written : Bool
  start : ℤ
  bytes : List Byte

namespace Transfer

def numBytes : Transfer → ℤ
  | .read _ numBytes _ => numBytes
  | .write _ numBytes _ => numBytes

def perform (disk : Disk) (f : OpenFile) : Transfer → Option (Moved × Disk × OpenFile)
  | .read into numBytes junk =>
      (f.read disk junk into numBytes).map fun (result, into, f') =>
        (⟨false, f.seekPosition, into.read 0 result⟩, disk, f')
  | .write src numBytes junk =>
      (f.write disk junk src numBytes).map fun (result, disk', f') =>
        (⟨true, f.seekPosition, src.read 0 result⟩, disk', f')

def performAll (disk : Disk) (f : OpenFile) :
    List Transfer → Option (List Moved × Disk × OpenFile)
  | [] => some ([], disk, f)
  | t :: ts => do
      let (m, disk, f) ← t.perform disk f
      let (ms, disk, f) ← performAll disk f ts
      some (m :: ms, disk, f)

end Transfer

/-! ## §2  What the calls are to do -/

/-- Each call starts where the one before stopped. -/
def Consecutive : ℤ → List Moved → Prop
  | _, [] => True
  | pos, m :: ms => m.start = pos ∧ Consecutive (pos + m.bytes.length) ms

/-- The bytes of all calls, one after the other. -/
def stream (ms : List Moved) : List Byte := ms.flatMap Moved.bytes

/-- Byte `i` of the file was written. -/
def Overwritten (ms : List Moved) (i : ℤ) : Prop :=
  ∃ m ∈ ms, m.written = true ∧ m.start ≤ i ∧ i < m.start + m.bytes.length

namespace FileHeader

/-- As many different data sectors as the bytes need. -/
structure Flat (h : FileHeader) : Prop where
  numSectors : h.numSectors = intDivRoundUp h.numBytes SectorSize
  onDisk : ∀ i < h.numSectors.toNat, OnDisk (h.dataSectors i)
  inj : ∀ i j, i < h.numSectors.toNat → j < h.numSectors.toNat →
    h.dataSectors i = h.dataSectors j → i = j

variable {h : FileHeader}

theorem Flat.toNat_numSectors (hflat : h.Flat) (hn : 0 ≤ h.numBytes) :
    h.numSectors.toNat = divRoundUp h.numBytes.toNat SectorSize := by
  obtain ⟨len, hlen⟩ := Int.eq_ofNat_of_zero_le hn
  rw [hflat.numSectors, hlen, intDivRoundUp_natCast, Int.toNat_natCast, Int.toNat_natCast]

theorem Flat.fits (hflat : h.Flat) (hn : 0 ≤ h.numBytes) : h.Fits h.numBytes.toNat := by
  refine ⟨(Int.toNat_of_nonneg hn).symm, ?_, ?_⟩
  · rw [← hflat.toNat_numSectors hn]
    exact hflat.onDisk
  · rw [← hflat.toNat_numSectors hn]
    exact hflat.inj

end FileHeader

namespace OpenFile

/-- The number of bytes that `ReadAt` and `WriteAt` move. -/
def count (f : OpenFile) (numBytes : ℤ) (position : ℕ) : ℕ :=
  (min numBytes (f.hdr.fileLength - position)).toNat

theorem count_le (f : OpenFile) {numBytes : ℤ} {position : ℕ}
    (h : 0 < f.count numBytes position) :
    (position + f.count numBytes position : ℤ) ≤ f.hdr.fileLength := by
  unfold count at *
  omega

theorem count_eq_transferred {f : OpenFile} (hn : 0 ≤ f.hdr.numBytes) (numBytes : ℤ)
    (position : ℕ) :
    f.count numBytes position = transferred f.hdr.numBytes.toNat numBytes position := by
  rw [count, transferred, FileHeader.fileLength, Int.toNat_of_nonneg hn]

theorem count_of_neg {f : OpenFile} (hn : ¬ 0 ≤ f.hdr.numBytes) (numBytes : ℤ)
    (position : ℕ) : f.count numBytes position = 0 := by
  rw [count, FileHeader.fileLength]
  omega

variable {f : OpenFile}

theorem representable_toNat {numBytes : ℤ} {position : ℕ} (hn : 0 ≤ f.hdr.numBytes)
    (hsum : Representable f.hdr.fileLength numBytes position) :
    Representable f.hdr.numBytes.toNat numBytes position := by
  rwa [Int.toNat_of_nonneg hn]

theorem readAt_flat (hflat : f.hdr.Flat) (disk : Disk) (junk into : ByteMem) (off : ℕ)
    {numBytes : ℤ} {position : ℕ}
    (hsum : Representable f.hdr.fileLength numBytes position) :
    f.readAt disk junk into off numBytes position =
      some (f.count numBytes position,
        bcopy (contents disk f.hdr) position into off (f.count numBytes position)) := by
  by_cases hn : 0 ≤ f.hdr.numBytes
  · rw [count_eq_transferred hn]
    exact readAt_eq disk (hflat.fits hn) junk into off (representable_toNat hn hsum)
  · rw [count_of_neg hn, bcopy_none, readAt, if_pos (Or.inr _)]
    rw [FileHeader.fileLength]
    omega

theorem writeAt_flat (hflat : f.hdr.Flat) (disk : Disk) (junk src : ByteMem)
    {numBytes : ℤ} {position : ℕ}
    (hsum : Representable f.hdr.fileLength numBytes position) :
    ∃ disk', f.writeAt disk junk src numBytes position =
        some (f.count numBytes position, disk') ∧
      (∀ i : ℕ, (i : ℤ) < f.hdr.fileLength → contents disk' f.hdr i =
        bcopy src 0 (contents disk f.hdr) position (f.count numBytes position) i) ∧
      ∀ x, (∀ i < f.hdr.numSectors.toNat,
          (f.hdr.dataSectors i).toNat ≠ x / SectorSize) → disk' x = disk x := by
  by_cases hn : 0 ≤ f.hdr.numBytes
  · rw [count_eq_transferred hn, hflat.toNat_numSectors hn]
    obtain ⟨disk', hwrite, hcontents, hout⟩ :=
      writeAt_spec disk (hflat.fits hn) junk src (representable_toNat hn hsum)
    refine ⟨disk', hwrite, fun i hi => ?_, hout⟩
    rw [hcontents i (by rw [FileHeader.fileLength] at hi; omega), bcopy, Nat.zero_add]
  · refine ⟨disk, ?_, fun i hi => ?_, fun _ _ => rfl⟩
    · rw [count_of_neg hn, writeAt, if_pos (Or.inr _)]
      rw [FileHeader.fileLength]
      omega
    · rw [FileHeader.fileLength] at hi
      omega

/-! ## §3  One call -/

/-- `disk'` differs from `disk` in no sector but those of the file. -/
def SameSectors (h : FileHeader) (disk disk' : Disk) : Prop :=
  ∀ x, (∀ i < h.numSectors.toNat, (h.dataSectors i).toNat ≠ x / SectorSize) →
    disk' x = disk x

/-- What a call has done: `m` is where the call was to start, as long as it was to be,
and what is now in the file there. -/
structure Performed (f : OpenFile) (disk : Disk) (t : Transfer) (m : Moved)
    (disk' : Disk) : Prop where
  start : m.start = f.seekPosition
  length : m.bytes.length = f.count t.numBytes f.seekPosition.toNat
  bytes : m.bytes = (contents disk' f.hdr).read f.seekPosition.toNat m.bytes.length
  same : ∀ i : ℕ, (i : ℤ) < f.hdr.fileLength → ¬ Overwritten [m] i →
    contents disk' f.hdr i = contents disk f.hdr i
  sectors : SameSectors f.hdr disk disk'

/-- **The step lemma.** -/
theorem perform_spec (hflat : f.hdr.Flat) (hpos : 0 ≤ f.seekPosition) (disk : Disk)
    (t : Transfer)
    (hsum : Representable f.hdr.fileLength t.numBytes f.seekPosition.toNat) :
    ∃ m disk', t.perform disk f = some (m, disk',
        { f with seekPosition := f.seekPosition + m.bytes.length }) ∧
      Performed f disk t m disk' := by
  obtain ⟨pos, hseek⟩ := Int.eq_ofNat_of_zero_le hpos
  have htoNat : f.seekPosition.toNat = pos := by rw [hseek, Int.toNat_natCast]
  rw [htoNat] at hsum
  cases t with
  | read into numBytes junk =>
      change Representable f.hdr.fileLength numBytes pos at hsum
      refine ⟨⟨false, f.seekPosition, (bcopy (contents disk f.hdr) pos into 0
        (f.count numBytes pos)).read 0 (f.count numBytes pos)⟩, disk, ?_, rfl, ?_, ?_,
        fun _ _ _ => rfl, fun _ _ => rfl⟩
      · simp only [Transfer.perform, OpenFile.read, htoNat,
          readAt_flat hflat disk junk into 0 hsum, Option.map_some,
          ByteMem.length_read]
      · simp only [ByteMem.length_read, Transfer.numBytes, htoNat]
      · rw [ByteMem.length_read, htoNat]
        exact read_bcopy _ _ _ _ _
  | write src numBytes junk =>
      change Representable f.hdr.fileLength numBytes pos at hsum
      obtain ⟨disk', hwrite, hcontents, hout⟩ := writeAt_flat hflat disk junk src hsum
      refine ⟨⟨true, f.seekPosition, src.read 0 (f.count numBytes pos)⟩, disk', ?_, rfl, ?_, ?_,
        ?_, hout⟩
      · simp only [Transfer.perform, OpenFile.write, htoNat, hwrite, Option.map_some,
          ByteMem.length_read]
      · simp only [ByteMem.length_read, Transfer.numBytes, htoNat]
      · rw [ByteMem.length_read, htoNat]
        refine List.map_congr_left fun i hi => ?_
        have hi : i < f.count numBytes pos := by simpa using hi
        have hcount : 0 < f.count numBytes pos := by omega
        have hle := f.count_le hcount
        rw [hcontents (pos + i) (by omega), bcopy_inside _ _ _ (by omega) (by omega)]
        congr 1
        omega
      · intro i hi hnot
        rw [hcontents i hi]
        apply bcopy_outside
        by_contra hin
        refine hnot ⟨_, List.mem_singleton_self _, rfl, ?_, ?_⟩
        · change f.seekPosition ≤ i
          omega
        · change (i : ℤ) < f.seekPosition + (src.read 0 (f.count numBytes pos)).length
          rw [ByteMem.length_read]
          omega

/-! ## §4  A run of calls -/

/-- The sum of position and count is an `int` in each call, at the position where it is to
start. -/
def RepresentableAll : OpenFile → List Transfer → Prop
  | _, [] => True
  | f, t :: ts => Representable f.hdr.fileLength t.numBytes f.seekPosition.toNat ∧
      RepresentableAll { f with
        seekPosition := f.seekPosition + f.count t.numBytes f.seekPosition.toNat } ts

theorem SameSectors.trans {h : FileHeader} {d d' d'' : Disk} (h₁ : SameSectors h d d')
    (h₂ : SameSectors h d' d'') : SameSectors h d d'' :=
  fun x hx => (h₂ x hx).trans (h₁ x hx)

/-- What a run of calls has done. -/
structure PerformedAll (f : OpenFile) (disk : Disk) (ts : List Transfer) (ms : List Moved)
    (disk' : Disk) : Prop where
  /-- Each call returns what it is to return at the position where it starts. -/
  counts : List.Forall₂ (fun t m => m.bytes.length = f.count t.numBytes m.start.toNat) ts ms
  consecutive : Consecutive f.seekPosition ms
  /-- All calls together move one piece of the file. -/
  stream : stream ms =
    (contents disk' f.hdr).read f.seekPosition.toNat (stream ms).length
  length : (OsAssignments.Filesys.stream ms).length =
    min (ts.map fun t => t.numBytes.toNat).sum (f.hdr.fileLength - f.seekPosition).toNat
  same : ∀ i : ℕ, (i : ℤ) < f.hdr.fileLength → ¬ Overwritten ms i →
    contents disk' f.hdr i = contents disk f.hdr i
  sectors : SameSectors f.hdr disk disk'

theorem Consecutive.le_start : ∀ {ms : List Moved} {pos : ℤ}, Consecutive pos ms →
    ∀ m ∈ ms, pos ≤ m.start
  | [], _, _, _, hm => absurd hm List.not_mem_nil
  | m :: ms, pos, h, m', hm => by
      rcases List.mem_cons.mp hm with rfl | hm
      · exact h.1.ge
      · have := Consecutive.le_start h.2 m' hm
        omega

/-- **The run lemma**, by induction on the calls: a later call leaves alone what the
first one has moved. -/
theorem performAll_spec (ts : List Transfer) : ∀ {f : OpenFile} (disk : Disk), f.hdr.Flat →
    0 ≤ f.seekPosition → RepresentableAll f ts →
      ∃ ms disk', Transfer.performAll disk f ts = some (ms, disk',
        { f with seekPosition := f.seekPosition + (stream ms).length }) ∧
      PerformedAll f disk ts ms disk' := by
  induction ts with
  | nil =>
      intro f disk _ hpos _
      refine ⟨[], disk, ?_, .nil, trivial, rfl, ?_, fun _ _ _ => rfl, fun _ _ => rfl⟩
      · simp [Transfer.performAll, stream]
      · simp [stream]
  | cons t ts ih =>
      intro f disk hflat hpos hsums
      obtain ⟨m, disk₁, hfirst, hm⟩ := perform_spec hflat hpos disk t hsums.1
      obtain ⟨ms, disk', hrest, hms⟩ := @ih { f with
        seekPosition := f.seekPosition + m.bytes.length } disk₁ hflat (by simp only; omega)
          (hm.length ▸ hsums.2)
      have hlen : (stream (m :: ms)).length = m.bytes.length + (stream ms).length := by
        simp [stream]
      have hnext : (f.seekPosition + m.bytes.length).toNat =
          f.seekPosition.toNat + m.bytes.length := by omega
      have hend : 0 < m.bytes.length →
          f.seekPosition + m.bytes.length ≤ f.hdr.fileLength := by
        intro hlt
        rw [hm.length] at hlt ⊢
        have := f.count_le hlt
        omega
      -- the calls that follow start behind the bytes of this one
      have hbehind : ∀ i : ℕ, (i : ℤ) < f.seekPosition + m.bytes.length → ¬ Overwritten ms i := by
        rintro i hi ⟨m', hm', -, hle, -⟩
        have := Consecutive.le_start hms.consecutive m' hm'
        simp only at this
        omega
      refine ⟨m :: ms, disk', ?_, ?_, ⟨hm.start, hms.consecutive⟩, ?_, ?_, ?_,
        hm.sectors.trans hms.sectors⟩
      · rw [Transfer.performAll, hfirst]
        simp only [Option.bind_eq_bind, Option.bind_some, hrest, hlen, Int.natCast_add,
          Int.add_assoc]
      · exact List.Forall₂.cons (by rw [hm.length, hm.start]) hms.counts
      · rw [hlen, ByteMem.read_add, ← hnext]
        have hkept : (contents disk' f.hdr).read f.seekPosition.toNat m.bytes.length =
            m.bytes := by
          rw [hm.bytes, ByteMem.length_read]
          refine ByteMem.read_congr fun i hi => ?_
          have := hend (by omega)
          exact hms.same _ (by simp only; omega) (hbehind _ (by omega))
        rw [hkept]
        exact congrArg (m.bytes ++ ·) hms.stream
      · have hrestlen := hms.length
        have hcount := hm.length
        simp only [count] at hrestlen hcount
        rw [hlen, hrestlen, List.map_cons, List.sum_cons]
        omega
      · intro i hi hnot
        have hfirst' : ¬ Overwritten [m] i := by
          rintro ⟨m', hm', hin⟩
          rw [List.mem_singleton.mp hm'] at hin
          exact hnot ⟨m, List.mem_cons_self, hin⟩
        have hrest' : ¬ Overwritten ms i := by
          rintro ⟨m', hm', hin⟩
          exact hnot ⟨m', List.mem_cons_of_mem _ hm', hin⟩
        exact (hms.same i hi hrest').trans (hm.same i hi hfirst')

/-! ## §5  The array -/

/-- **An open file is an array of bytes of fixed length.** `ReadAt` and `WriteAt` move
as many bytes as were asked for and the file has; every later `ReadAt` sees the array
with the bytes written replaced; a run of `Read` and `Write` moves one piece of it, each
call the part that follows the one before. The sums of position and count are `int`s. -/
theorem openFile_flat (hflat : f.hdr.Flat) (disk : Disk) :
    (∀ junk into off numBytes position, Representable f.hdr.fileLength numBytes position →
      f.readAt disk junk into off numBytes position =
        some (f.count numBytes position,
          bcopy (contents disk f.hdr) position into off (f.count numBytes position))) ∧
    (∀ junk src numBytes position, Representable f.hdr.fileLength numBytes position → ∃ disk',
      f.writeAt disk junk src numBytes position =
        some (f.count numBytes position, disk') ∧
      (∀ junk' into off numBytes' position',
        Representable f.hdr.fileLength numBytes' position' →
        f.readAt disk' junk' into off numBytes' position' =
          some (f.count numBytes' position',
            bcopy (bcopy src 0 (contents disk f.hdr) position (f.count numBytes position))
              position' into off (f.count numBytes' position'))) ∧
      SameSectors f.hdr disk disk') ∧
    (0 ≤ f.seekPosition → ∀ ts, RepresentableAll f ts → ∃ ms disk',
      Transfer.performAll disk f ts = some (ms, disk',
        { f with seekPosition := f.seekPosition + (stream ms).length }) ∧
      PerformedAll f disk ts ms disk') := by
  refine ⟨fun junk into off numBytes position hsum => readAt_flat hflat disk junk into off hsum,
    ?_, fun hpos ts hsums => performAll_spec ts disk hflat hpos hsums⟩
  intro junk src numBytes position hsum
  obtain ⟨disk', hwrite, hcontents, hout⟩ := writeAt_flat hflat disk junk src hsum
  refine ⟨disk', hwrite, ?_, hout⟩
  intro junk' into off numBytes' position' hsum'
  rw [readAt_flat hflat disk' junk' into off hsum']
  congr 2
  funext x
  by_cases hx : off ≤ x ∧ x < off + f.count numBytes' position'
  · have hcount : 0 < f.count numBytes' position' := by omega
    have hle := f.count_le hcount
    rw [bcopy_inside _ _ _ hx.1 hx.2, bcopy_inside _ _ _ hx.1 hx.2]
    exact hcontents _ (by omega)
  · rw [bcopy_outside _ _ _ (by omega), bcopy_outside _ _ _ (by omega)]

/-- A file of 200 bytes in sectors 5 and 9, with the seek position at byte 100. -/
def twoSectors : OpenFile :=
  ⟨(((FileHeader.mk fun _ => 0).setNumBytes 200).setNumSectors 2).setDataSectors 0 5
    |>.setDataSectors 1 9, 100⟩

theorem twoSectors_flat : twoSectors.hdr.Flat := by
  have hinj : ∀ i < twoSectors.hdr.numSectors.toNat, ∀ j < twoSectors.hdr.numSectors.toNat,
      twoSectors.hdr.dataSectors i = twoSectors.hdr.dataSectors j → i = j := by decide
  exact ⟨by decide, by decide, fun i j hi hj => hinj i hi j hj⟩

/-- A read of 60 bytes and a write of 100 move the 100 bytes up to the end. -/
theorem openFile_flat_twoSectors : ∃ (ms : List Moved) (disk' : Disk),
    Transfer.performAll (fun _ => 0) twoSectors
      [.read (fun _ => 1) 60 (fun _ => 2), .write (fun _ => 3) 100 (fun _ => 4)] =
        some (ms, disk', { twoSectors with seekPosition := 100 + (stream ms).length }) ∧
      (stream ms).length = 100 := by
  obtain ⟨ms, disk', hrun, hms⟩ := (openFile_flat twoSectors_flat fun _ => 0).2.2 (by decide)
    [.read (fun _ => 1) 60 (fun _ => 2), .write (fun _ => 3) 100 (fun _ => 4)]
    ⟨fun _ => by decide, fun _ => by decide, trivial⟩
  exact ⟨ms, disk', hrun, hms.length⟩

end OpenFile

end OsAssignments.Filesys
