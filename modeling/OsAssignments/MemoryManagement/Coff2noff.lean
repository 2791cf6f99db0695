import OsAssignments.Lib.CString
import OsAssignments.Lib.FailingLoops
import OsAssignments.MemoryManagement.AddrSpace

/-!
# `coff2noff`: the code

`bin/coff2noff.c`: from the object file that the linker writes to the one that the kernel
loads. The sections are copied one behind the other, and the header says where each went
and where in memory it belongs.

§1 the two formats, §2 the code, §3 what the object file says, §4 the headers, §5 one
section (`convert_eq_ok`). A field of the header that is never assigned holds what was on
the stack (`garbage`).
-/

namespace OsAssignments.MemoryManagement

/-! ## §1  The object file -/

def MIPSELMAGIC : BitVec 16 := 0x0162
def OMAGIC : BitVec 16 := 0o407

/-- The fields of a section header that the program reads. -/
structure Scnhdr where
  s_name : List Byte
  s_paddr : BitVec 32
  s_size : BitVec 32
  s_scnptr : BitVec 32
deriving DecidableEq, Repr

/-- The sizes of `struct filehdr`, `struct aouthdr` and `struct scnhdr`. -/
def FILHSZ : ℕ := 20
def AOUTHSZ : ℕ := 56
def SCNHSZ : ℕ := 40

/-- The section header that stands in these bytes. -/
def Scnhdr.ofBytes (bs : List Byte) : Scnhdr where
  s_name := bs.take 8
  s_paddr := bytesWord (bs.drop 8)
  s_size := bytesWord (bs.drop 16)
  s_scnptr := bytesWord (bs.drop 20)

/-- The section names the program knows: `.text`, `.data`, `.rdata`, `.bss`, `.sbss`. -/
def textName : CString := ⟨[46, 116, 101, 120, 116], by decide⟩
def dataName : CString := ⟨[46, 100, 97, 116, 97], by decide⟩
def rdataName : CString := ⟨[46, 114, 100, 97, 116, 97], by decide⟩
def bssName : CString := ⟨[46, 98, 115, 115], by decide⟩
def sbssName : CString := ⟨[46, 115, 98, 115, 115], by decide⟩

/-- `!strcmp(s_name, name)`. -/
def Scnhdr.named (s : Scnhdr) (name : CString) : Bool :=
  strcmp (fun i => s.s_name.getD i 0) 0 name = 0

/-! ## §2  The code -/

/-- What the program says before it removes the output and exits. -/
inductive ConvertError where
  /-- File is too short -/
  | tooShort
  /-- File is not a MIPSEL COFF file -/
  | notMipsel
  /-- File is not a OMAGIC file -/
  | notOmagic
  /-- Can't handle both data and rdata -/
  | dataAndRdata
  /-- Can't handle both bss and sbss -/
  | bssAndSbss
  /-- Unknown segment type -/
  | unknownSegment (s_name : List Byte)
deriving DecidableEq, Repr

/-- `read`: what there is of the bytes asked for, and how many they are; -1 where a negative
number is asked for. -/
def unixRead (file : RandomAccessFile) (position : ℕ) (nBytes : ℤ) : ℤ × List Byte :=
  if nBytes < 0 then (-1, [])
  else
    let buf := file.fread position nBytes.toNat
    (buf.length, buf)

/-- `Read`: as many bytes as asked for, at the position of the descriptor. The -1 of `read`
passes where -1 is asked for. -/
def readExactly (coff : RandomAccessFile) (position : ℕ) (nBytes : ℤ) :
    Except ConvertError (List Byte) :=
  let (count, buf) := unixRead coff position nBytes
  if count = nBytes then .ok buf else .error .tooShort

/-- `Write`, where there is room. Its -1 passes in the same way, and nothing is written. -/
def writeExactly (noff : RandomAccessFile) (position : ℕ) (buf : List Byte) (nBytes : ℤ) :
    RandomAccessFile :=
  if nBytes < 0 then noff else noff.fwrite position buf

/-- A position before the beginning of the file is refused, and the old one stays. -/
def lseek (position : ℕ) (offset : BitVec 32) : ℕ :=
  if offset.toInt < 0 then position else offset.toNat

/-- The locals of `main` in the loop over the sections, with the positions of the two
descriptors. -/
structure Conversion where
  noffH : NoffHeader
  inNoffFile : BitVec 32
  posIn : ℕ
  noff : RandomAccessFile
  posOut : ℕ

namespace Conversion

/-- Before the loop: room is left for the header. -/
def start (garbage : NoffHeader) (posIn : ℕ) : Conversion where
  noffH :=
    { noffMagic := NOFFMAGIC
      code := { garbage.code with size := 0 }
      initData := { garbage.initData with size := 0 }
      uninitData := { garbage.uninitData with size := 0 } }
  inNoffFile := 40
  posIn := posIn
  noff := RandomAccessFile.empty
  posOut := 40

/-- Copy the bytes of the section. -/
def copy (coff : RandomAccessFile) (s : Scnhdr) (c : Conversion) :
    Except ConvertError Conversion := do
  let posIn := lseek c.posIn s.s_scnptr
  let buffer ← readExactly coff posIn s.s_size.toInt
  .ok
    { c with
      posIn := posIn + buffer.length
      noff := writeExactly c.noff c.posOut buffer s.s_size.toInt
      posOut := c.posOut + buffer.length
      inNoffFile := c.inNoffFile + s.s_size }

/-- The body of the loop. -/
def convert (coff : RandomAccessFile) (c : Conversion) (s : Scnhdr) :
    Except ConvertError Conversion :=
  if s.s_size = 0 then .ok c
  else if s.named textName then
    copy coff s { c with noffH := { c.noffH with code := ⟨s.s_paddr, c.inNoffFile, s.s_size⟩ } }
  else if s.named dataName || s.named rdataName then
    if c.noffH.initData.size ≠ 0 then .error .dataAndRdata
    else
      copy coff s
        { c with noffH := { c.noffH with initData := ⟨s.s_paddr, c.inNoffFile, s.s_size⟩ } }
  else if s.named bssName || s.named sbssName then
    let uninitData := c.noffH.uninitData
    if uninitData.size ≠ 0 then
      if s.s_paddr = uninitData.virtualAddr + uninitData.size then .error .bssAndSbss
      else
        .ok
          { c with
            noffH :=
              { c.noffH with
                uninitData := { uninitData with size := uninitData.size + s.s_size } } }
    else
      .ok
        { c with
          noffH :=
            { c.noffH with
              uninitData := { uninitData with virtualAddr := s.s_paddr, size := s.s_size } } }
  else .error (.unknownSegment s.s_name)

end Conversion

/-- The bytes of a segment of the header, and of the header. -/
def Segment.bytes (segment : Segment) : List Byte :=
  wordBytes segment.virtualAddr ++ wordBytes segment.inFileAddr ++ wordBytes segment.size

def NoffHeader.bytes (noffH : NoffHeader) : List Byte :=
  wordBytes noffH.noffMagic ++ noffH.code.bytes ++ noffH.initData.bytes ++ noffH.uninitData.bytes

/-- The section headers, behind the two headers of the file. -/
def sectionHeaders (coff : RandomAccessFile) (numsections : ℕ) :
    Except ConvertError (List Scnhdr) := do
  let headers ← readExactly coff (FILHSZ + AOUTHSZ) (numsections * SCNHSZ : ℕ)
  .ok ((List.range numsections).map fun i =>
    Scnhdr.ofBytes ((headers.drop (i * SCNHSZ)).take SCNHSZ))

/-- `main`: the object file that is written, or what it complains of. -/
def coff2noff (garbage : NoffHeader) (coff : RandomAccessFile) :
    Except ConvertError RandomAccessFile := do
  let fileh ← readExactly coff 0 FILHSZ
  if bytesHalf fileh ≠ MIPSELMAGIC then .error .notMipsel
  else
    let systemh ← readExactly coff FILHSZ AOUTHSZ
    if bytesHalf systemh ≠ OMAGIC then .error .notOmagic
    else
      let numsections := (bytesHalf (fileh.drop 2)).toNat
      let sections ← sectionHeaders coff numsections
      let posIn := FILHSZ + AOUTHSZ + numsections * SCNHSZ
      let c ← sections.foldlM (Conversion.convert coff) (Conversion.start garbage posIn)
      .ok (c.noff.fwrite 0 c.noffH.bytes)

/-! ## §3  What the object file says -/

/-- What a section is for. -/
inductive SectionKind where
  | empty | text | initData | uninitData | unknown
deriving DecidableEq, Repr

namespace Scnhdr

def kind (s : Scnhdr) : SectionKind :=
  if s.s_size = 0 then .empty
  else if s.named textName then .text
  else if s.named dataName || s.named rdataName then .initData
  else if s.named bssName || s.named sbssName then .uninitData
  else .unknown

/-- The section has bytes in the file. -/
def IsLoaded (s : Scnhdr) : Prop := s.kind = .text ∨ s.kind = .initData

instance (s : Scnhdr) : Decidable s.IsLoaded := inferInstanceAs (Decidable (_ ∨ _))

/-- The file has the bytes of the section, or its size is the -1 that `Read` lets pass. -/
def InFile (coff : RandomAccessFile) (s : Scnhdr) : Prop :=
  s.s_size.toInt = -1 ∨
    0 ≤ s.s_size.toInt ∧ s.s_scnptr.toNat + s.s_size.toNat ≤ coff.size

theorem toNat_toInt {s : Scnhdr} (h : 0 ≤ s.s_size.toInt) :
    s.s_size.toInt.toNat = s.s_size.toNat := by
  have hlt := s.s_size.isLt
  rw [BitVec.toInt_eq_toNat_cond] at *
  split at h <;> omega

theorem size_ne_zero {s : Scnhdr} (h : s.kind ≠ .empty) : s.s_size ≠ 0 := by
  intro hz
  apply h
  rw [kind, if_pos hz]

theorem size_pos {s : Scnhdr} (h : s.kind ≠ .empty) : 0 < s.s_size.toNat := by
  have hne : s.s_size.toNat ≠ 0 := fun hz => size_ne_zero h (BitVec.eq_of_toNat_eq hz)
  omega

theorem IsLoaded.size_pos {s : Scnhdr} (h : s.IsLoaded) : 0 < s.s_size.toNat := by
  apply Scnhdr.size_pos
  rcases h with h | h <;> rw [h] <;> decide

end Scnhdr

/-- The number of sections, and their headers. -/
def numSections (coff : RandomAccessFile) : ℕ := (bytesHalf (coff.data.read 2 2)).toNat

def sections (coff : RandomAccessFile) : List Scnhdr :=
  (List.range (numSections coff)).map fun i =>
    Scnhdr.ofBytes (coff.data.read (FILHSZ + AOUTHSZ + i * SCNHSZ) SCNHSZ)

/-- The headers are those of a MIPS object file, and all there. -/
structure IsCoff (coff : RandomAccessFile) : Prop where
  mipsel : bytesHalf (coff.data.read 0 2) = MIPSELMAGIC
  omagic : bytesHalf (coff.data.read FILHSZ 2) = OMAGIC
  headers : FILHSZ + AOUTHSZ + numSections coff * SCNHSZ ≤ coff.size

/-- `lseek` goes to every section: its place in the file is not negative. -/
def Seekable (coff : RandomAccessFile) : Prop :=
  ∀ s ∈ sections coff, s.s_scnptr.toNat < 0x80000000

/-- No size of a section with bytes is -1. -/
def Sized (coff : RandomAccessFile) : Prop :=
  ∀ s ∈ sections coff, s.IsLoaded → s.s_size.toInt ≠ -1

/-- Byte `b` belongs at address `a` of the program, by the sections. -/
def CoffShows (coff : RandomAccessFile) (a : ℕ) (b : Byte) : Prop :=
  ∃ s ∈ sections coff, s.IsLoaded ∧ s.s_paddr.toNat ≤ a ∧
    a < s.s_paddr.toNat + s.s_size.toNat ∧
    b = coff.data (s.s_scnptr.toNat + (a - s.s_paddr.toNat))

/-- The same by the segments of the converted file. -/
def NoffShows (noff : RandomAccessFile) (a : ℕ) (b : Byte) : Prop :=
  ∃ seg ∈ [(readHeader noff).code, (readHeader noff).initData],
    seg.virtualAddr.toNat ≤ a ∧ a < seg.virtualAddr.toNat + seg.size.toNat ∧
    b = noff.data (seg.inFileAddr.toNat + (a - seg.virtualAddr.toNat))

/-! ## §4  The two headers -/

theorem readExactly_natCast {coff : RandomAccessFile} {position nBytes : ℕ} {buf : List Byte} :
    readExactly coff position nBytes = .ok buf ↔
      nBytes ≤ coff.size - position ∧ buf = coff.data.read position nBytes := by
  have hlen := RandomAccessFile.length_fread coff position nBytes
  simp only [readExactly, unixRead, if_neg (show ¬ (nBytes : ℤ) < 0 by omega), Int.toNat_natCast]
  by_cases h : nBytes ≤ coff.size - position
  · have hread : coff.fread position nBytes = coff.data.read position nBytes := by
      rw [RandomAccessFile.fread, Nat.min_eq_left h]
    rw [hread]
    simp [h, eq_comm]
  · rw [if_neg (by omega)]
    simp [h]

theorem readExactly_eq_ok {coff : RandomAccessFile} {position : ℕ} {nBytes : ℤ}
    {buf : List Byte} : readExactly coff position nBytes = .ok buf ↔
      (nBytes = -1 ∨ 0 ≤ nBytes ∧ nBytes.toNat ≤ coff.size - position) ∧
        buf = coff.data.read position nBytes.toNat := by
  by_cases h : nBytes < 0
  · have hnone : coff.data.read position nBytes.toNat = [] := by
      rw [Int.toNat_of_nonpos (by omega)]
      rfl
    have hnot : ¬ 0 ≤ nBytes := by omega
    simp only [readExactly, unixRead, if_pos h, hnone, hnot, false_and, or_false]
    by_cases hm : nBytes = -1
    · simp [hm, eq_comm]
    · rw [if_neg (fun heq => hm heq.symm)]
      simp [hm]
  · obtain ⟨n, rfl⟩ := Int.eq_ofNat_of_zero_le (show 0 ≤ nBytes by omega)
    rw [readExactly_natCast, Int.toNat_natCast]
    have hnot : ¬ (n : ℤ) = -1 := by omega
    simp [hnot]

theorem sectionHeaders_eq_ok {coff : RandomAccessFile} {l : List Scnhdr} :
    sectionHeaders coff (numSections coff) = .ok l ↔
      numSections coff * SCNHSZ ≤ coff.size - (FILHSZ + AOUTHSZ) ∧ l = sections coff := by
  rw [sectionHeaders, Except.bind_eq_ok_iff]
  simp only [readExactly_natCast, Except.ok.injEq]
  have hmap : ((List.range (numSections coff)).map fun i => Scnhdr.ofBytes
      (((coff.data.read (FILHSZ + AOUTHSZ) (numSections coff * SCNHSZ)).drop (i * SCNHSZ)).take
        SCNHSZ)) = sections coff := by
    refine List.map_congr_left fun i hi => ?_
    rw [List.mem_range] at hi
    rw [ByteMem.drop_read, ByteMem.take_read, ← Nat.sub_mul, Nat.min_eq_left]
    exact Nat.le_mul_of_pos_left _ (by omega)
  constructor
  · rintro ⟨_, ⟨hle, rfl⟩, rfl⟩
    exact ⟨hle, hmap⟩
  · rintro ⟨hle, rfl⟩
    exact ⟨_, ⟨hle, rfl⟩, hmap⟩

/-- Where the input stands when the loop begins. -/
def afterHeaders (coff : RandomAccessFile) : ℕ :=
  FILHSZ + AOUTHSZ + numSections coff * SCNHSZ

/-- **The program** checks the headers and goes through the sections. -/
theorem coff2noff_eq_ok {garbage : NoffHeader} {coff noff : RandomAccessFile} :
    coff2noff garbage coff = .ok noff ↔ IsCoff coff ∧
      ∃ c, (sections coff).foldlM (Conversion.convert coff)
          (Conversion.start garbage (afterHeaders coff)) = .ok c ∧
        noff = c.noff.fwrite 0 c.noffH.bytes := by
  have hnum : bytesHalf ((coff.data.read 0 FILHSZ).drop 2) = bytesHalf (coff.data.read 2 2) := by
    rw [ByteMem.drop_read]
    exact bytesHalf_read (by decide)
  rw [coff2noff, Except.bind_eq_ok_iff]
  constructor
  · rintro ⟨fileh, hfileh, h⟩
    obtain ⟨-, rfl⟩ := readExactly_natCast.mp hfileh
    split at h
    · cases h
    rename_i hmips
    obtain ⟨systemh, hsystemh, h⟩ := Except.bind_eq_ok_iff.mp h
    obtain ⟨hlong, rfl⟩ := readExactly_natCast.mp hsystemh
    split at h
    · cases h
    rename_i homagic
    obtain ⟨l, hl, h⟩ := Except.bind_eq_ok_iff.mp h
    rw [hnum] at hl h
    obtain ⟨hheaders, rfl⟩ := sectionHeaders_eq_ok.mp hl
    obtain ⟨c, hc, h⟩ := Except.bind_eq_ok_iff.mp h
    rw [not_not, bytesHalf_read (by decide)] at hmips homagic
    unfold AOUTHSZ FILHSZ at *
    refine ⟨⟨hmips, homagic, by unfold AOUTHSZ FILHSZ; omega⟩, c, hc, ?_⟩
    cases h
    rfl
  · rintro ⟨h, c, hc, rfl⟩
    have hlong := h.headers
    refine ⟨_, readExactly_natCast.mpr ⟨?_, rfl⟩, ?_⟩
    · omega
    rw [if_neg (not_not.mpr ((bytesHalf_read (by decide)).trans h.mipsel)),
      Except.bind_eq_ok_iff]
    refine ⟨_, readExactly_natCast.mpr ⟨?_, rfl⟩, ?_⟩
    · omega
    rw [if_neg (not_not.mpr ((bytesHalf_read (by decide)).trans h.omagic)),
      Except.bind_eq_ok_iff, hnum]
    refine ⟨_, sectionHeaders_eq_ok.mpr ⟨?_, rfl⟩, Except.bind_eq_ok_iff.mpr ⟨c, hc, rfl⟩⟩
    omega

/-! ## §5  One section -/

/-- The uninitialised data with one more section. -/
def Segment.grow (segment : Segment) (s : Scnhdr) : Segment :=
  if segment.size ≠ 0 then { segment with size := segment.size + s.s_size }
  else { segment with virtualAddr := s.s_paddr, size := s.s_size }

/-- The section begins where the uninitialised data of those before it ends. -/
def Segment.Meets (segment : Segment) (s : Scnhdr) : Prop :=
  segment.size ≠ 0 ∧ s.s_paddr = segment.virtualAddr + segment.size

namespace Conversion

variable {coff : RandomAccessFile} {s : Scnhdr} {c c' : Conversion}

/-- `Read` gives what the section asks for. -/
def Reads (coff : RandomAccessFile) (s : Scnhdr) (c : Conversion) : Prop :=
  s.s_size.toInt = -1 ∨
    0 ≤ s.s_size.toInt ∧ s.s_size.toInt.toNat ≤ coff.size - lseek c.posIn s.s_scnptr

/-- What `copy` leaves then. -/
def copied (coff : RandomAccessFile) (s : Scnhdr) (c : Conversion) : Conversion :=
  let posIn := lseek c.posIn s.s_scnptr
  let count := s.s_size.toInt.toNat
  { c with
    posIn := posIn + count
    noff := writeExactly c.noff c.posOut (coff.data.read posIn count) s.s_size.toInt
    posOut := c.posOut + count
    inNoffFile := c.inNoffFile + s.s_size }

theorem copy_eq_ok : copy coff s c = .ok c' ↔ c.Reads coff s ∧ c' = c.copied coff s := by
  rw [copy, Except.bind_eq_ok_iff]
  simp only [readExactly_eq_ok, Except.ok.injEq, Reads, copied]
  constructor
  · rintro ⟨_, ⟨hle, rfl⟩, rfl⟩
    exact ⟨hle, by rw [ByteMem.length_read]⟩
  · rintro ⟨hle, rfl⟩
    exact ⟨_, ⟨hle, rfl⟩, by rw [ByteMem.length_read]⟩

/-- The three things that the body of the loop does to the header. -/
def withCode (c : Conversion) (s : Scnhdr) : Conversion :=
  { c with noffH := { c.noffH with code := ⟨s.s_paddr, c.inNoffFile, s.s_size⟩ } }

def withInitData (c : Conversion) (s : Scnhdr) : Conversion :=
  { c with noffH := { c.noffH with initData := ⟨s.s_paddr, c.inNoffFile, s.s_size⟩ } }

def withUninitData (c : Conversion) (s : Scnhdr) : Conversion :=
  { c with noffH := { c.noffH with uninitData := c.noffH.uninitData.grow s } }

theorem convert_eq : convert coff c s =
    match s.kind with
    | .empty => .ok c
    | .text => copy coff s (c.withCode s)
    | .initData =>
        if c.noffH.initData.size ≠ 0 then .error .dataAndRdata
        else copy coff s (c.withInitData s)
    | .uninitData =>
        if c.noffH.uninitData.size ≠ 0 then
          if s.s_paddr = c.noffH.uninitData.virtualAddr + c.noffH.uninitData.size then
            .error .bssAndSbss
          else .ok (c.withUninitData s)
        else .ok (c.withUninitData s)
    | .unknown => .error (.unknownSegment s.s_name) := by
  unfold convert Scnhdr.kind withCode withInitData withUninitData Segment.grow
  dsimp only
  split_ifs <;> rfl

/-- **What one section does.** -/
theorem convert_eq_ok : convert coff c s = .ok c' ↔
    s.kind = .empty ∧ c' = c ∨
    s.kind = .text ∧ c.Reads coff s ∧ c' = (c.withCode s).copied coff s ∨
    s.kind = .initData ∧ c.noffH.initData.size = 0 ∧ c.Reads coff s ∧
      c' = (c.withInitData s).copied coff s ∨
    s.kind = .uninitData ∧ ¬ c.noffH.uninitData.Meets s ∧ c' = c.withUninitData s := by
  have hcode : (c.withCode s).Reads coff s ↔ c.Reads coff s := Iff.rfl
  have hdata : (c.withInitData s).Reads coff s ↔ c.Reads coff s := Iff.rfl
  have hdone (d : Conversion) :
      (Except.ok d : Except ConvertError Conversion) = .ok c' ↔ c' = d := by
    rw [Except.ok.injEq, eq_comm]
  rw [convert_eq]
  cases hkind : s.kind with
  | empty => simp [hdone]
  | text => simp [copy_eq_ok, hcode]
  | initData =>
      by_cases hone : c.noffH.initData.size = 0
      · rw [if_neg (not_not.mpr hone), copy_eq_ok, hdata]
        simp [hone]
      · rw [if_pos hone]
        simpa using fun h => absurd h hone
  | uninitData =>
      unfold Segment.Meets
      by_cases hz : c.noffH.uninitData.size = 0
      · rw [if_neg (not_not.mpr hz), hdone]
        simp [hz]
      · rw [if_pos hz]
        by_cases hmeets : s.s_paddr = c.noffH.uninitData.virtualAddr + c.noffH.uninitData.size
        · rw [if_pos hmeets]
          simpa [hmeets] using fun h => absurd h hz
        · rw [if_neg hmeets, hdone]
          simp [hmeets]
  | unknown => simp

end Conversion

end OsAssignments.MemoryManagement
