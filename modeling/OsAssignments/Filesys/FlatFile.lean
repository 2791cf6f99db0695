import OsAssignments.Filesys.OpenFile
import Mathlib.Data.Fintype.Card

/-!
# An open file is a flat array of bytes

`ReadAt` and `WriteAt` move whole sectors. Seen through the header they read
and write one array of bytes, `contents`, and touch no other sector.

- `readAt_eq` — what `ReadAt` returns.
- `writeAt_spec` — what `WriteAt` leaves.
-/

namespace OsAssignments.Filesys

/-! ## §1  The bytes of a file -/

/-- Byte `i` of the file with header `h`. -/
def contents (disk : Disk) (h : FileHeader) : ByteMem := fun i =>
  disk ((h.dataSectors (i / SectorSize)).toNat * SectorSize + i % SectorSize)

/-- `h` is a header for `len` bytes: its data sectors are on the disk and
different. -/
structure FileHeader.Fits (h : FileHeader) (len : ℕ) : Prop where
  numBytes : h.numBytes = len
  onDisk : ∀ i < divRoundUp len SectorSize, OnDisk (h.dataSectors i)
  inj : ∀ i j, i < divRoundUp len SectorSize → j < divRoundUp len SectorSize →
    h.dataSectors i = h.dataSectors j → i = j

/-- The number of bytes transferred. -/
def transferred (len : ℕ) (numBytes : ℤ) (position : ℕ) : ℕ :=
  (min numBytes (len - position)).toNat

/-- The sum of the test on the end of a file of `len` bytes, which is computed only
for a position inside the file, is an `int`. -/
def Representable (len numBytes : ℤ) (position : ℕ) : Prop :=
  position < len → position + numBytes < 0x80000000

theorem clampBytes_eq {len : ℕ} {numBytes : ℤ} {position : ℕ} (hpos : position < len)
    (hsum : Representable len numBytes position) :
    OpenFile.clampBytes len numBytes position = some (transferred len numBytes position) := by
  have hint := hsum (by omega)
  unfold OpenFile.clampBytes transferred
  rw [if_neg (by omega)]
  split <;> congr 2 <;> omega

/-- There is room for the data sectors on the disk. -/
theorem FileHeader.Fits.len_le {h : FileHeader} {len : ℕ} (hf : h.Fits len) :
    divRoundUp len SectorSize ≤ NumSectors := by
  have hcard := Fintype.card_le_of_injective
    (fun i : Fin (divRoundUp len SectorSize) =>
      (⟨(h.dataSectors i).toNat, by
        have := hf.onDisk i i.isLt
        exact (Int.toNat_lt this.1).mpr this.2⟩ : Fin NumSectors))
    (fun i j hij => by
      have hi := hf.onDisk i i.isLt
      have hj := hf.onDisk j j.isLt
      have hsame : (h.dataSectors i).toNat = (h.dataSectors j).toNat := congrArg Fin.val hij
      apply Fin.ext
      refine hf.inj i j i.isLt j.isLt ?_
      rw [← Int.toNat_of_nonneg hi.1, hsame, Int.toNat_of_nonneg hj.1])
  rwa [Fintype.card_fin, Fintype.card_fin] at hcard

/-- The length of a file is an `int`. -/
theorem FileHeader.Fits.len_lt {h : FileHeader} {len : ℕ} (hf : h.Fits len) :
    (len : ℤ) < 0x80000000 := by
  rw [← hf.numBytes]
  exact BitVec.toInt_lt

/-- A transfer inside the file is representable. -/
theorem FileHeader.Fits.representable_inside {h : FileHeader} {len position : ℕ}
    {numBytes : ℤ} (hf : h.Fits len) (hin : position + numBytes ≤ len) :
    Representable len numBytes position := by
  intro _
  have hlen := hf.len_lt
  omega

/-- A read of one of its sectors is representable. -/
theorem FileHeader.Fits.representable_sector {h : FileHeader} {len i : ℕ} (hf : h.Fits len) :
    Representable len SectorSize (i * SectorSize) := by
  intro hlt
  have hle := hf.len_le
  have hi : i * SectorSize / SectorSize < divRoundUp len SectorSize :=
    div_lt_divRoundUp (by decide) (by omega)
  simp only [SectorSize, NumSectors] at *
  omega

theorem byteToSector_mul (h : FileHeader) (i : ℕ) :
    h.byteToSector (i * SectorSize) = h.dataSectors i := by
  rw [FileHeader.byteToSector, Nat.mul_div_cancel i (by decide)]

/-- The address of byte `x` of the sectors from `first` on. -/
theorem contents_at (disk : Disk) (h : FileHeader) (first x : ℕ) :
    contents disk h (first * SectorSize + x) =
      disk ((h.dataSectors (first + x / SectorSize)).toNat * SectorSize +
        x % SectorSize) := by
  simp only [contents, SectorSize]
  rw [show (first * 128 + x) / 128 = first + x / 128 by omega,
    show (first * 128 + x) % 128 = x % 128 by omega]

theorem contents_congr {disk disk' : Disk} {h : FileHeader} {i : ℕ}
    (hd : ∀ x, x / SectorSize = (h.dataSectors (i / SectorSize)).toNat →
      disk' x = disk x) : contents disk' h i = contents disk h i := by
  refine hd _ ?_
  simp only [SectorSize]
  omega

/-! ## §2  The loops -/

namespace OpenFile

/-- After `n` turns the buffer holds the first `n` sectors. -/
theorem readSectors_range (disk : Disk) (h : FileHeader) (first : ℕ) (junk : ByteMem) :
    ∀ n : ℕ, (∀ i < n, OnDisk (h.dataSectors (first + i))) →
      ∃ buf, readSectors disk h first (List.range n) junk = some buf ∧
        ∀ x < n * SectorSize, buf x = contents disk h (first * SectorSize + x)
  | 0, _ => ⟨junk, rfl, by simp⟩
  | n + 1, hon => by
      obtain ⟨buf, hbuf, hin⟩ :=
        readSectors_range disk h first junk n fun i hi => hon i (by omega)
      refine ⟨bcopy disk ((h.dataSectors (first + n)).toNat * SectorSize) buf
        (n * SectorSize) SectorSize, ?_, fun x hx => ?_⟩
      · rw [readSectors, List.range_succ, List.foldlM_append]
        change (readSectors disk h first (List.range n) junk).bind _ = _
        rw [hbuf]
        simp only [Option.bind_some, List.foldlM_cons, List.foldlM_nil,
          byteToSector_mul, readSector, if_pos (hon n (by omega))]
        rfl
      · by_cases hlt : x < n * SectorSize
        · rw [bcopy_outside _ _ _ (Or.inl hlt), hin x hlt]
        · have hge : n * SectorSize ≤ x := Nat.le_of_not_lt hlt
          have hx' : x < n * SectorSize + SectorSize := by
            rwa [Nat.add_mul, Nat.one_mul] at hx
          rw [bcopy_inside _ _ _ hge hx', contents_at]
          simp only [SectorSize] at *
          rw [show x / 128 = n by omega, show x - n * 128 = x % 128 by omega]

/-- After `n` turns the first `n` sectors hold the buffer, and no other sector
has changed. -/
theorem writeSectors_range (disk : Disk) (h : FileHeader) (first : ℕ) (buf : ByteMem) :
    ∀ n : ℕ, (∀ i < n, OnDisk (h.dataSectors (first + i))) →
      (∀ i j, i < n → j < n →
        h.dataSectors (first + i) = h.dataSectors (first + j) → i = j) →
      ∃ disk', writeSectors disk h first (List.range n) buf = some disk' ∧
        (∀ x < n * SectorSize,
          contents disk' h (first * SectorSize + x) = buf x) ∧
        ∀ x, (∀ i < n, (h.dataSectors (first + i)).toNat ≠ x / SectorSize) →
          disk' x = disk x
  | 0, _, _ => ⟨disk, rfl, by simp, fun _ _ => rfl⟩
  | n + 1, hon, hinj => by
      obtain ⟨disk₁, hdisk₁, hin, hout⟩ := writeSectors_range disk h first buf n
        (fun i hi => hon i (by omega)) fun i j hi hj => hinj i j (by omega) (by omega)
      have hn := hon n (by omega)
      refine ⟨bcopy buf (n * SectorSize) disk₁
        ((h.dataSectors (first + n)).toNat * SectorSize) SectorSize,
        ?_, fun x hx => ?_, fun x hx => ?_⟩
      · rw [writeSectors, List.range_succ, List.foldlM_append]
        change (writeSectors disk h first (List.range n) buf).bind _ = _
        rw [hdisk₁]
        simp only [Option.bind_some, List.foldlM_cons, List.foldlM_nil,
          byteToSector_mul, writeSector, if_pos hn]
        rfl
      · rw [contents_at]
        by_cases hlt : x < n * SectorSize
        · -- an earlier sector is another sector
          have hdiv : x / SectorSize < n := Nat.div_lt_of_lt_mul (by
            rwa [Nat.mul_comm] at hlt)
          have hne : (h.dataSectors (first + x / SectorSize)).toNat ≠
              (h.dataSectors (first + n)).toNat := by
            intro heq
            have h₁ := hon (x / SectorSize) (by omega)
            have hsame := hinj (x / SectorSize) n (by omega) (by omega) (by
              have := h₁.1
              have := hn.1
              omega)
            omega
          have hx := hin x hlt
          rw [contents_at] at hx
          rw [bcopy_outside _ _ _ (by simp only [SectorSize] at *; omega), hx]
        · have hdiv : x / SectorSize = n := by
            simp only [SectorSize] at *
            omega
          rw [hdiv, bcopy_inside _ _ _ (by omega) (by simp only [SectorSize]; omega)]
          congr 1
          simp only [SectorSize] at *
          omega
      · have hxn := hx n (by omega)
        rw [bcopy_outside _ _ _ (by simp only [SectorSize] at *; omega)]
        exact hout x fun i hi => hx i (by omega)

/-! ## §3  `ReadAt` and `WriteAt` -/

theorem bcopy_none (src dst : ByteMem) (a b : ℕ) : bcopy src a dst b 0 = dst := by
  funext x
  exact bcopy_outside _ _ _ (by omega)

theorem lastSector_lt {len k pos : ℕ} (hk : 0 < k) (hle : pos + k ≤ len) :
    (pos + k - 1) / SectorSize < divRoundUp len SectorSize :=
  div_lt_divRoundUp (by decide) (by omega)

theorem transferred_le {len : ℕ} {numBytes : ℤ} {pos : ℕ} (hpos : pos ≤ len) :
    pos + transferred len numBytes pos ≤ len := by
  unfold transferred
  omega

/-- Bytes are transferred unless `ReadAt` and `WriteAt` return at once. -/
theorem transferred_pos_iff {len : ℕ} {numBytes : ℤ} {pos : ℕ} :
    0 < transferred len numBytes pos ↔ ¬ (numBytes ≤ 0 ∨ (pos : ℤ) ≥ len) := by
  unfold transferred
  omega

/-- **`ReadAt`** returns the bytes of the file from `position` on, as many as
were asked for and the file has. -/
theorem readAt_eq (disk : Disk) {f : OpenFile} {len : ℕ} (hf : f.hdr.Fits len)
    (junk into : ByteMem) (off : ℕ) {numBytes : ℤ} {position : ℕ}
    (hsum : Representable len numBytes position) :
    f.readAt disk junk into off numBytes position =
      some (transferred len numBytes position,
        bcopy (contents disk f.hdr) position into off
          (transferred len numBytes position)) := by
  unfold readAt
  simp only [FileHeader.fileLength, hf.numBytes]
  split
  · rename_i hno
    have hk : transferred len numBytes position = 0 :=
      Nat.eq_zero_of_not_pos fun hpos => transferred_pos_iff.mp hpos hno
    rw [hk, bcopy_none]
  · rename_i hok
    rw [clampBytes_eq (by omega) hsum, Option.bind_eq_bind, Option.bind_some]
    have hk : 0 < transferred len numBytes position := transferred_pos_iff.mpr hok
    have hle : position + transferred len numBytes position ≤ len :=
      transferred_le (by omega)
    generalize transferred len numBytes position = k at *
    have hlast := lastSector_lt hk hle
    obtain ⟨buf, hbuf, hin⟩ := readSectors_range disk f.hdr (position / SectorSize) junk
      (1 + (position + k - 1) / SectorSize - position / SectorSize)
      fun i hi => hf.onDisk _ (by omega)
    rw [hbuf, Option.map_some]
    congr 2
    funext x
    by_cases hx : off ≤ x ∧ x < off + k
    · rw [bcopy_inside _ _ _ hx.1 hx.2, bcopy_inside _ _ _ hx.1 hx.2, hin _ ?_]
      · congr 1
        simp only [SectorSize]
        omega
      · simp only [SectorSize] at *
        omega
    · rw [bcopy_outside _ _ _ (by omega), bcopy_outside _ _ _ (by omega)]

/-- The buffer of `WriteAt` before the bytes are copied in: what `position` cuts
off the first sector and what the end of the file leaves of the last one is
there. -/
def endsRead (disk : Disk) (h : FileHeader) (len position k : ℕ) (junk : ByteMem) :
    ByteMem :=
  let first := position / SectorSize
  let last := (position + k - 1) / SectorSize
  let buf :=
    if !decide (position = first * SectorSize) then
      bcopy (contents disk h) (first * SectorSize) junk 0
        (transferred len SectorSize (first * SectorSize))
    else junk
  if !decide (position + k = (last + 1) * SectorSize) &&
      (first != last || decide (position = first * SectorSize)) then
    bcopy (contents disk h) (last * SectorSize) buf ((last - first) * SectorSize)
      (transferred len SectorSize (last * SectorSize))
  else buf

theorem endsRead_low {disk : Disk} {h : FileHeader} {len position k y : ℕ}
    (junk : ByteMem) (hk : 0 < k) (hle : position + k ≤ len)
    (hy : position / SectorSize * SectorSize + y < position) :
    endsRead disk h len position k junk y =
      contents disk h (position / SectorSize * SectorSize + y) := by
  have hfa : ¬ position = position / SectorSize * SectorSize := by omega
  have hin : bcopy (contents disk h) (position / SectorSize * SectorSize) junk 0
      (transferred len SectorSize (position / SectorSize * SectorSize)) y =
      contents disk h (position / SectorSize * SectorSize + y) :=
    bcopy_zero _ _ _ (by simp only [transferred, SectorSize] at *; omega)
  simp only [endsRead, hfa, decide_false, Bool.not_false, if_true, Bool.or_false]
  split
  · -- the last sector is another one: its bytes lie behind
    rename_i hlast
    rw [bcopy_outside _ _ _ (Or.inl _), hin]
    simp only [Bool.and_eq_true, bne_iff_ne] at hlast
    have hlt := Nat.div_le_div_right (c := SectorSize) (show position ≤ position + k - 1 by omega)
    simp only [SectorSize] at *
    omega
  · exact hin

theorem endsRead_high {disk : Disk} {h : FileHeader} {len position k y : ℕ}
    (junk : ByteMem) (hk : 0 < k) (hlen : position / SectorSize * SectorSize + y < len)
    (hy : position + k ≤ position / SectorSize * SectorSize + y)
    (hlast : position / SectorSize * SectorSize + y <
      ((position + k - 1) / SectorSize + 1) * SectorSize) :
    endsRead disk h len position k junk y =
      contents disk h (position / SectorSize * SectorSize + y) := by
  have hla : ¬ position + k = ((position + k - 1) / SectorSize + 1) * SectorSize := by
    omega
  have hmono : position / SectorSize ≤ (position + k - 1) / SectorSize :=
    Nat.div_le_div_right (by omega)
  simp only [endsRead, hla, decide_false, Bool.not_false, Bool.true_and]
  split
  · rw [bcopy_inside _ _ _ _ _]
    · congr 1
      simp only [SectorSize] at *
      omega
    · simp only [SectorSize] at *
      omega
    · simp only [transferred, SectorSize] at *
      omega
  · -- one sector, read already for its beginning
    rename_i hone
    simp only [Bool.or_eq_true, bne_iff_ne, decide_eq_true_eq, not_or, not_not] at hone
    simp only [hone.2, decide_false, Bool.not_false, if_true]
    exact bcopy_zero _ _ _ (by simp only [transferred, SectorSize] at *; omega)

/-- **`WriteAt`** replaces the bytes from `position` on, as many as were given
and the file has; it changes nothing else of the file and no other sector. -/
theorem writeAt_spec (disk : Disk) {f : OpenFile} {len : ℕ} (hf : f.hdr.Fits len)
    (junk src : ByteMem) {numBytes : ℤ} {position : ℕ}
    (hsum : Representable len numBytes position) :
    ∃ disk', f.writeAt disk junk src numBytes position =
        some (transferred len numBytes position, disk') ∧
      (∀ i < len, contents disk' f.hdr i =
        if position ≤ i ∧ i < position + transferred len numBytes position then
          src (i - position)
        else contents disk f.hdr i) ∧
      ∀ x, (∀ i < divRoundUp len SectorSize,
          (f.hdr.dataSectors i).toNat ≠ x / SectorSize) → disk' x = disk x := by
  unfold writeAt
  simp only [FileHeader.fileLength, hf.numBytes]
  split
  · rename_i hno
    have hk : transferred len numBytes position = 0 :=
      Nat.eq_zero_of_not_pos fun hpos => transferred_pos_iff.mp hpos hno
    refine ⟨disk, by rw [hk], fun i _ => ?_, fun _ _ => rfl⟩
    rw [if_neg (by omega)]
  rename_i hok
  rw [clampBytes_eq (by omega) hsum, Option.bind_eq_bind, Option.bind_some]
  have hk : 0 < transferred len numBytes position := transferred_pos_iff.mpr hok
  have hle : position + transferred len numBytes position ≤ len :=
    transferred_le (by omega)
  generalize transferred len numBytes position = k at *
  have hlast := lastSector_lt hk hle
  have hmono : position / SectorSize ≤ (position + k - 1) / SectorSize :=
    Nat.div_le_div_right (by omega)
  obtain ⟨disk', hdisk', hin, hout⟩ := writeSectors_range disk f.hdr
    (position / SectorSize)
    (bcopy src 0 (endsRead disk f.hdr len position k junk)
      (position - position / SectorSize * SectorSize) k)
    (1 + (position + k - 1) / SectorSize - position / SectorSize)
    (fun i hi => hf.onDisk _ (by omega))
    (fun i j hi hj heq => by
      have := hf.inj _ _ (by omega) (by omega) heq
      omega)
  refine ⟨disk', ?_, fun i hi => ?_, fun x hx => hout x fun i hi => hx _ (by omega)⟩
  · simp only [readAt_eq _ hf _ _ _ hf.representable_sector, Option.map_some,
      Option.bind_eq_bind, Option.bind_some]
    simp only [endsRead] at hdisk'
    split at hdisk' <;> split at hdisk'
    all_goals
      rename_i h₁ h₂
      simp only [h₁, h₂, Bool.false_eq_true, if_true, if_false, hdisk', Option.bind_some]
  · by_cases hsec : position / SectorSize * SectorSize ≤ i ∧
      i < ((position + k - 1) / SectorSize + 1) * SectorSize
    · have hi' := hin (i - position / SectorSize * SectorSize) (by
        simp only [SectorSize] at *
        omega)
      rw [show position / SectorSize * SectorSize +
        (i - position / SectorSize * SectorSize) = i by omega] at hi'
      rw [hi']
      split
      · rw [bcopy_inside _ _ _ (by omega) (by simp only [SectorSize] at *; omega)]
        congr 1
        simp only [SectorSize] at *
        omega
      · rename_i hnot
        rw [bcopy_outside _ _ _ (by simp only [SectorSize] at *; omega)]
        by_cases hlow : i < position
        · rw [endsRead_low junk hk hle (by omega)]
          congr 1
          omega
        · rw [endsRead_high junk hk (by omega) (by omega) (by omega)]
          congr 1
          omega
    · -- a sector that is not written
      rw [if_neg (by simp only [SectorSize] at *; omega)]
      refine contents_congr fun x hx => hout x fun j hj heq => ?_
      have hdiv : i / SectorSize < divRoundUp len SectorSize :=
        div_lt_divRoundUp (by decide) hi
      have h₁ := hf.onDisk _ hdiv
      have h₂ := hf.onDisk (position / SectorSize + j) (by omega)
      have hsame := hf.inj (position / SectorSize + j) (i / SectorSize) (by omega) hdiv (by
        have := h₁.1
        have := h₂.1
        omega)
      simp only [SectorSize] at *
      omega

/-- `WriteAt` returns only where the sum can be represented. -/
theorem representable_of_writeAt {disk : Disk} {f : OpenFile} {len : ℕ} (hf : f.hdr.Fits len)
    {junk src : ByteMem} {numBytes : ℤ} {position : ℕ} {r : ℕ × Disk}
    (hwrite : f.writeAt disk junk src numBytes position = some r) :
    Representable len numBytes position := by
  intro hpos
  have hlen := hf.len_lt
  by_contra hge
  rw [writeAt, FileHeader.fileLength, hf.numBytes, if_neg (by omega), clampBytes,
    if_pos (by omega)] at hwrite
  cases hwrite

end OpenFile

end OsAssignments.Filesys
