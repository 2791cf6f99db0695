import OsAssignments.MemoryManagement.Coff2noff
import OsAssignments.MemoryManagement.FirstLoad
import Mathlib.Data.BitVec

/-!
# `coff2noff`: what the output is

The loop over the sections has one invariant (`Converted`): for each of the two segments
with bytes, the last section of its kind stands in the output, at the place that the
sections before it leave.

- `coff2noff_shows` — the output puts the bytes at the addresses that the sections ask for.
- `coff2noff_image` — what the kernel loads of it is the program that the linker laid out.
- `coff2noff_accepts_iff` — which object files it converts.
-/

namespace OsAssignments.MemoryManagement

/-! ## §1  All sections -/

/-- Where the next section goes in the output. -/
def fileOffset (done : List Scnhdr) : ℕ :=
  40 + (done.map fun s => if s.IsLoaded then s.s_size.toNat else 0).sum

/-- The uninitialised data of the sections. -/
def uninitOf (done : List Scnhdr) : Segment :=
  (done.filter fun s => s.kind = .uninitData).foldl Segment.grow ⟨0, 0, 0⟩

/-- `s`, with `pre` before it, is the last section of its kind. -/
def Last (k : SectionKind) (pre : List Scnhdr) (s : Scnhdr) (done : List Scnhdr) : Prop :=
  s.kind = k ∧ ∃ post, done = pre ++ s :: post ∧ ∀ t ∈ post, t.kind ≠ k

/-- The segment is that section: its bytes stand in the output where the next section
went after `pre`. -/
structure Holds (coff noff : RandomAccessFile) (pre : List Scnhdr) (s : Scnhdr)
    (seg : Segment) : Prop where
  virtualAddr : seg.virtualAddr = s.s_paddr
  inFileAddr : seg.inFileAddr = BitVec.ofNat 32 (fileOffset pre)
  size : seg.size = s.s_size
  inFile : fileOffset pre + s.s_size.toNat ≤ noff.size
  bytes : ∀ i < s.s_size.toNat,
    noff.data (fileOffset pre + i) = coff.data (s.s_scnptr.toNat + i)

/-- The segment of the header that the sections of kind `k` go to. -/
structure Placed (coff : RandomAccessFile) (k : SectionKind) (done : List Scnhdr)
    (noff : RandomAccessFile) (seg : Segment) : Prop where
  absent : (∀ s ∈ done, s.kind ≠ k) → seg.size = 0
  present : ∀ pre s, Last k pre s done → Holds coff noff pre s seg

/-- The same size, and the same place if there is anything to place. -/
def Segment.Alike (seg seg' : Segment) : Prop :=
  seg.size = seg'.size ∧ (seg.size ≠ 0 → seg.virtualAddr = seg'.virtualAddr)

/-- What the header tells of the sections `done` when the next one is checked. -/
structure Checked (done : List Scnhdr) (c : Conversion) : Prop where
  noData : c.noffH.initData.size = 0 ↔ ∀ s ∈ done, s.kind ≠ .initData
  uninitData : c.noffH.uninitData.Alike (uninitOf done)

/-- The header and the output after the sections `done`, all of known sizes. -/
structure Converted (coff : RandomAccessFile) (done : List Scnhdr) (c : Conversion) : Prop
    extends Checked done c where
  magic : c.noffH.noffMagic = NOFFMAGIC
  posOut : c.posOut = fileOffset done
  inNoffFile : c.inNoffFile = BitVec.ofNat 32 (fileOffset done)
  code : Placed coff .text done c.noff c.noffH.code
  initData : Placed coff .initData done c.noff c.noffH.initData
  oneData : (done.filter fun s => s.kind = .initData).length ≤ 1
  known : ∀ s ∈ done, s.kind ≠ .unknown

variable {coff noff : RandomAccessFile} {done pre : List Scnhdr} {s x : Scnhdr}
  {k : SectionKind} {seg seg' : Segment} {c c' : Conversion}

theorem fileOffset_snoc (done : List Scnhdr) (x : Scnhdr) : fileOffset (done ++ [x]) =
    fileOffset done + if x.IsLoaded then x.s_size.toNat else 0 := by
  simp [fileOffset, Nat.add_assoc]

theorem fileOffset_append : fileOffset pre ≤ fileOffset (pre ++ done) := by
  simp [fileOffset]

theorem last_snoc : Last k pre s (done ++ [x]) ↔
    x.kind = k ∧ s = x ∧ pre = done ∨ x.kind ≠ k ∧ Last k pre s done := by
  constructor
  · rintro ⟨hk, post, hsplit, hpost⟩
    rcases List.eq_nil_or_concat post with rfl | ⟨post, y, rfl⟩
    · obtain ⟨rfl, heq⟩ := List.append_inj' hsplit rfl
      cases heq
      exact Or.inl ⟨hk, rfl, rfl⟩
    · rw [List.concat_eq_append, ← List.cons_append, ← List.append_assoc] at hsplit
      obtain ⟨rfl, heq⟩ := List.append_inj' hsplit rfl
      cases heq
      refine Or.inr ⟨hpost x (by simp), hk, post, rfl, fun t ht => hpost t ?_⟩
      simp [ht]
  · rintro (⟨hk, rfl, rfl⟩ | ⟨hk, hs, post, rfl, hpost⟩)
    · exact ⟨hk, [], rfl, fun t ht => absurd ht (List.not_mem_nil)⟩
    · refine ⟨hs, post ++ [x], by rw [List.append_assoc, List.cons_append], fun t ht => ?_⟩
      rcases List.mem_append.mp ht with ht | ht
      · exact hpost t ht
      · rw [List.mem_singleton.mp ht]
        exact hk

theorem exists_last (h : ∃ s ∈ done, s.kind = k) : ∃ pre s, Last k pre s done := by
  induction done using List.reverseRecOn with
  | nil =>
      obtain ⟨s, hs, -⟩ := h
      exact absurd hs (List.not_mem_nil)
  | append_singleton done x ih =>
      by_cases hx : x.kind = k
      · exact ⟨done, x, last_snoc.mpr (Or.inl ⟨hx, rfl, rfl⟩)⟩
      · obtain ⟨s, hs, hk⟩ := h
        rcases List.mem_append.mp hs with hs | hs
        · obtain ⟨pre, t, hlast⟩ := ih ⟨s, hs, hk⟩
          exact ⟨pre, t, last_snoc.mpr (Or.inr ⟨hx, hlast⟩)⟩
        · rw [List.mem_singleton.mp hs] at hk
          exact absurd hk hx

/-- A loaded section ends before the next one begins. -/
theorem Last.end_le (h : Last k pre s done) (hs : s.IsLoaded) :
    fileOffset pre + s.s_size.toNat ≤ fileOffset done := by
  obtain ⟨-, post, rfl, -⟩ := h
  have hle : fileOffset (pre ++ [s]) ≤ fileOffset (pre ++ [s] ++ post) := fileOffset_append
  rw [fileOffset_snoc, if_pos hs, List.append_assoc, List.singleton_append] at hle
  exact hle

/-- Writing behind a section does not change it. -/
theorem Holds.write {off : ℕ} {bs : List Byte} (h : Holds coff noff pre s seg)
    (hoff : fileOffset pre + s.s_size.toNat ≤ off ∨ off + bs.length ≤ fileOffset pre) :
    Holds coff (noff.fwrite off bs) pre s seg := by
  refine ⟨h.virtualAddr, h.inFileAddr, h.size, ?_, fun i hi => ?_⟩
  · rw [RandomAccessFile.size_fwrite]
    exact Nat.le_trans h.inFile (Nat.le_max_left _ _)
  · have hfile := h.inFile
    rw [RandomAccessFile.data_fwrite_outside (by omega) (by omega)]
    exact h.bytes i hi

theorem Placed.skip (h : Placed coff k done noff seg) (hx : x.kind ≠ k) :
    Placed coff k (done ++ [x]) noff seg := by
  constructor
  · exact fun hnone => h.absent fun s hs => hnone s (List.mem_append_left _ hs)
  · intro pre s hlast
    rcases last_snoc.mp hlast with ⟨hk, -⟩ | ⟨-, hlast⟩
    · exact absurd hk hx
    · exact h.present pre s hlast

theorem Placed.write {bs : List Byte} (h : Placed coff k done noff seg)
    (hk : k = .text ∨ k = .initData) :
    Placed coff k done (noff.fwrite (fileOffset done) bs) seg := by
  constructor
  · exact h.absent
  · intro pre s hlast
    have hs : s.IsLoaded := by rwa [Scnhdr.IsLoaded, hlast.1]
    exact (h.present pre s hlast).write (Or.inl (hlast.end_le hs))

/-- The section itself. -/
theorem Placed.put (hx : x.kind = k) :
    Placed coff k (done ++ [x])
      (noff.fwrite (fileOffset done) (coff.data.read x.s_scnptr.toNat x.s_size.toNat))
      ⟨x.s_paddr, BitVec.ofNat 32 (fileOffset done), x.s_size⟩ := by
  constructor
  · exact fun hnone => absurd hx (hnone x (by simp))
  · intro pre s hlast
    rcases last_snoc.mp hlast with ⟨-, rfl, rfl⟩ | ⟨hne, -⟩
    · refine ⟨rfl, rfl, rfl, ?_, fun i hi => ?_⟩
      · rw [RandomAccessFile.size_fwrite, ByteMem.length_read]
        exact Nat.le_max_right _ _
      · rw [RandomAccessFile.data_fwrite_inside _ _ _ _ (by simpa using hi),
          ByteMem.getD_read _ _ _ _ hi]
    · exact absurd hx hne

theorem Segment.Alike.grow (h : seg.Alike seg') : (seg.grow s).Alike (seg'.grow s) := by
  obtain ⟨hsize, haddr⟩ := h
  unfold Segment.grow
  rw [← hsize]
  by_cases hz : seg.size = 0
  · rw [if_neg (not_not.mpr hz), if_neg (not_not.mpr hz)]
    exact ⟨rfl, fun _ => rfl⟩
  · rw [if_pos hz, if_pos hz]
    exact ⟨rfl, fun _ => haddr hz⟩

theorem Segment.Alike.meets_iff (h : seg.Alike seg') : seg.Meets s ↔ seg'.Meets s := by
  obtain ⟨hsize, haddr⟩ := h
  unfold Segment.Meets
  rw [← hsize]
  constructor
  · rintro ⟨hz, hs⟩
    exact ⟨hz, by rw [hs, haddr hz]⟩
  · rintro ⟨hz, hs⟩
    exact ⟨hz, by rw [hs, haddr hz]⟩

theorem uninitOf_snoc (done : List Scnhdr) (x : Scnhdr) : uninitOf (done ++ [x]) =
    if x.kind = .uninitData then (uninitOf done).grow x else uninitOf done := by
  by_cases hx : x.kind = .uninitData <;> simp [uninitOf, hx]

theorem lseek_of_lt {position : ℕ} {offset : BitVec 32} (h : offset.toNat < 0x80000000) :
    lseek position offset = offset.toNat := by
  rw [lseek, BitVec.toInt_eq_toNat_of_lt (by omega), if_neg (by omega)]

theorem checked_start (garbage : NoffHeader) (position : ℕ) :
    Checked [] (Conversion.start garbage position) :=
  ⟨⟨fun _ _ hs => absurd hs (List.not_mem_nil), fun _ => rfl⟩, rfl, fun h => absurd rfl h⟩

/-- **One section** keeps what is checked of the next. -/
theorem Checked.step (h : Checked done c) (hx : c.convert coff x = .ok c') :
    Checked (done ++ [x]) c' := by
  have huninit := uninitOf_snoc done x
  have hnone (hk : x.kind ≠ .initData) :
      (∀ s ∈ done ++ [x], s.kind ≠ .initData) ↔ ∀ s ∈ done, s.kind ≠ .initData := by
    rw [List.forall_mem_append, List.forall_mem_singleton]
    exact and_iff_left hk
  rcases Conversion.convert_eq_ok.mp hx with
    ⟨hk, rfl⟩ | ⟨hk, -, rfl⟩ | ⟨hk, -, -, rfl⟩ | ⟨hk, -, rfl⟩
  · rw [if_neg (by simp [hk])] at huninit
    exact ⟨h.noData.trans (hnone (by simp [hk])).symm, huninit ▸ h.uninitData⟩
  · rw [if_neg (by simp [hk])] at huninit
    exact ⟨h.noData.trans (hnone (by simp [hk])).symm, huninit ▸ h.uninitData⟩
  · rw [if_neg (by simp [hk])] at huninit
    refine ⟨⟨fun hz => ?_, fun hno => absurd hk (hno x (by simp))⟩, huninit ▸ h.uninitData⟩
    exact absurd hz (Scnhdr.size_ne_zero (s := x) (by simp [hk]))
  · rw [if_pos hk] at huninit
    exact ⟨h.noData.trans (hnone (by simp [hk])).symm, huninit ▸ h.uninitData.grow⟩

theorem converted_start (garbage : NoffHeader) (position : ℕ) :
    Converted coff [] (Conversion.start garbage position) := by
  have hnone (seg : Segment) (h : seg.size = 0) (k : SectionKind) :
      Placed coff k [] RandomAccessFile.empty seg := by
    refine ⟨fun _ => h, ?_⟩
    rintro pre s ⟨-, post, hsplit, -⟩
    exact absurd hsplit (by simp)
  exact ⟨checked_start garbage position, rfl, rfl, rfl, hnone _ rfl _, hnone _ rfl _, by simp,
    fun s hs => absurd hs (List.not_mem_nil)⟩

/-- A section of a size that is not negative. -/
theorem Conversion.copied_of_nonneg (h : 0 ≤ x.s_size.toInt) :
    c.copied coff x =
      { c with
        posIn := lseek c.posIn x.s_scnptr + x.s_size.toNat
        noff := c.noff.fwrite c.posOut
          (coff.data.read (lseek c.posIn x.s_scnptr) x.s_size.toNat)
        posOut := c.posOut + x.s_size.toNat
        inNoffFile := c.inNoffFile + x.s_size } := by
  rw [Conversion.copied, Scnhdr.toNat_toInt h, writeExactly, if_neg (by omega)]

theorem Conversion.Reads.nonneg (h : c.Reads coff x) (hsize : x.s_size.toInt ≠ -1) :
    0 ≤ x.s_size.toInt := by
  rcases h with h | h
  · exact absurd h hsize
  · exact h.1

/-- The section that is copied. -/
theorem Converted.put (h : Converted coff done c) (hseek : x.s_scnptr.toNat < 0x80000000)
    (hsize : 0 ≤ x.s_size.toInt) (hk : x.kind = k) :
    Placed coff k (done ++ [x]) (c.copied coff x).noff ⟨x.s_paddr, c.inNoffFile, x.s_size⟩ := by
  rw [Conversion.copied_of_nonneg hsize, h.inNoffFile, h.posOut, lseek_of_lt hseek]
  exact Placed.put hk

/-- The sections copied before. -/
theorem Converted.keep (h : Converted coff done c) (hp : Placed coff k done c.noff seg)
    (hsize : 0 ≤ x.s_size.toInt) (hk : k = .text ∨ k = .initData) (hx : x.kind ≠ k) :
    Placed coff k (done ++ [x]) (c.copied coff x).noff seg := by
  rw [Conversion.copied_of_nonneg hsize, h.posOut]
  exact (hp.write hk).skip hx

theorem Converted.known_snoc (h : Converted coff done c) (hx : x.kind ≠ .unknown) :
    ∀ s ∈ done ++ [x], s.kind ≠ .unknown := by
  intro s hs
  rcases List.mem_append.mp hs with hs | hs
  · exact h.known s hs
  · rwa [List.mem_singleton.mp hs]

/-- **One section** keeps what is known. -/
theorem Converted.step (h : Converted coff done c) (hseek : x.s_scnptr.toNat < 0x80000000)
    (hsize : x.IsLoaded → x.s_size.toInt ≠ -1) (hx : c.convert coff x = .ok c') :
    Converted coff (done ++ [x]) c' := by
  have hoffset := fileOffset_snoc done x
  have hchecked := h.toChecked.step hx
  have hposOut := h.posOut
  have hinNoffFile := h.inNoffFile
  rcases Conversion.convert_eq_ok.mp hx with
    ⟨hk, rfl⟩ | ⟨hk, hreads, rfl⟩ | ⟨hk, hz, hreads, rfl⟩ | ⟨hk, -, rfl⟩
  · rw [if_neg (by simp [Scnhdr.IsLoaded, hk]), Nat.add_zero] at hoffset
    refine ⟨hchecked, h.magic, ?_, ?_, h.code.skip (by simp [hk]),
      h.initData.skip (by simp [hk]), ?_, h.known_snoc (by simp [hk])⟩
    · rw [hoffset, hposOut]
    · rw [hoffset, hinNoffFile]
    · simpa [hk] using h.oneData
  · rw [if_pos (show x.IsLoaded from Or.inl hk)] at hoffset
    have hnonneg := hreads.nonneg (hsize (Or.inl hk))
    refine ⟨hchecked, h.magic, ?_, ?_, h.put hseek hnonneg hk,
      h.keep h.initData hnonneg (Or.inr rfl) (by simp [hk]), ?_, h.known_snoc (by simp [hk])⟩
    · rw [hoffset, ← hposOut, Conversion.copied_of_nonneg hnonneg]
      rfl
    · rw [hoffset, BitVec.ofNat_add, ← hinNoffFile, BitVec.ofNat_toNat, BitVec.setWidth_eq]
      rfl
    · simpa [hk] using h.oneData
  · rw [if_pos (show x.IsLoaded from Or.inr hk)] at hoffset
    have hnonneg := hreads.nonneg (hsize (Or.inr hk))
    refine ⟨hchecked, h.magic, ?_, ?_, h.keep h.code hnonneg (Or.inl rfl) (by simp [hk]),
      h.put hseek hnonneg hk, ?_, h.known_snoc (by simp [hk])⟩
    · rw [hoffset, ← hposOut, Conversion.copied_of_nonneg hnonneg]
      rfl
    · rw [hoffset, BitVec.ofNat_add, ← hinNoffFile, BitVec.ofNat_toNat, BitVec.setWidth_eq]
      rfl
    · have hnil : (done.filter fun s => s.kind = .initData) = [] := by
        rw [List.filter_eq_nil_iff]
        intro s hs
        simpa using h.noData.mp hz s hs
      simp [hnil, hk]
  · rw [if_neg (by simp [Scnhdr.IsLoaded, hk]), Nat.add_zero] at hoffset
    refine ⟨hchecked, h.magic, ?_, ?_, h.code.skip (by simp [hk]),
      h.initData.skip (by simp [hk]), ?_, h.known_snoc (by simp [hk])⟩
    · rw [hoffset, ← hposOut]
      rfl
    · rw [hoffset, ← hinNoffFile]
      rfl
    · simpa [hk] using h.oneData

/-! ## §2  The converted file -/

theorem bytesWord_wordBytes_append (w : BitVec 32) (bs : List Byte) :
    bytesWord (wordBytes w ++ bs) = w := bytesWord_wordBytes w

/-- The header that was written is the header that is read. -/
theorem readHeader_fwrite (noff : RandomAccessFile) (noffH : NoffHeader) :
    readHeader (noff.fwrite 0 noffH.bytes) = noffH := by
  have hread : (noff.fwrite 0 noffH.bytes).fread 0 40 = noffH.bytes := by
    have hlen : noffH.bytes.length = 40 := rfl
    rw [RandomAccessFile.fread_eq_read, RandomAccessFile.data_fwrite, ← hlen, ByteMem.read_write]
    rw [RandomAccessFile.size_fwrite, hlen]
    exact Nat.le_max_right _ _
  obtain ⟨noffMagic, ⟨v₁, f₁, n₁⟩, ⟨v₂, f₂, n₂⟩, ⟨v₃, f₃, n₃⟩⟩ := noffH
  rw [readHeader, hread]
  congr 1
  · exact bytesWord_wordBytes_append noffMagic _
  · congr 1
    · exact bytesWord_wordBytes_append v₁ _
    · exact bytesWord_wordBytes_append f₁ _
    · exact bytesWord_wordBytes_append n₁ _
  · congr 1
    · exact bytesWord_wordBytes_append v₂ _
    · exact bytesWord_wordBytes_append f₂ _
    · exact bytesWord_wordBytes_append n₂ _
  · congr 1
    · exact bytesWord_wordBytes_append v₃ _
    · exact bytesWord_wordBytes_append f₃ _
    · exact bytesWord_wordBytes n₃

/-- What the converted file has of the sections. -/
structure IsNoffOf (coff noff : RandomAccessFile) : Prop where
  magic : (readHeader noff).noffMagic = NOFFMAGIC
  code : Placed coff .text (sections coff) noff (readHeader noff).code
  initData : Placed coff .initData (sections coff) noff (readHeader noff).initData
  uninitData : (readHeader noff).uninitData.size = (uninitOf (sections coff)).size
  oneData : ((sections coff).filter fun s => s.kind = .initData).length ≤ 1
  known : ∀ s ∈ sections coff, s.kind ≠ .unknown

variable {garbage : NoffHeader}

theorem converted_of_loop (hseek : Seekable coff) (hsized : Sized coff) {position : ℕ}
    (h : (sections coff).foldlM (Conversion.convert coff) (Conversion.start garbage position) =
      .ok c) : Converted coff (sections coff) c := by
  refine List.foldlM_ok_induction (converted_start garbage position) ?_ h
  intro done x t t' hpre hdone hx
  have hmem : x ∈ sections coff := hpre.subset (by simp)
  exact hdone.step (hseek x hmem) (hsized x hmem) hx

/-- **Every conversion.** -/
theorem isNoffOf (hseek : Seekable coff) (hsized : Sized coff)
    (h : coff2noff garbage coff = .ok noff) : IsNoffOf coff noff := by
  obtain ⟨-, c, hloop, rfl⟩ := coff2noff_eq_ok.mp h
  have hc := converted_of_loop hseek hsized hloop
  -- the header fits into the room that was left for it
  have hroom (pre : List Scnhdr) : 0 + c.noffH.bytes.length ≤ fileOffset pre :=
    Nat.le_add_right 40 _
  have hheader := readHeader_fwrite c.noff c.noffH
  refine ⟨?_, ⟨?_, fun pre s hlast => ?_⟩, ⟨?_, fun pre s hlast => ?_⟩, ?_, hc.oneData, hc.known⟩
  · rw [hheader]
    exact hc.magic
  · rw [hheader]
    exact hc.code.absent
  · rw [hheader]
    exact (hc.code.present pre s hlast).write (Or.inr (hroom pre))
  · rw [hheader]
    exact hc.initData.absent
  · rw [hheader]
    exact (hc.initData.present pre s hlast).write (Or.inr (hroom pre))
  · rw [hheader]
    exact hc.uninitData.1

theorem mem_ofKind : s ∈ (done.filter fun s => s.kind = k) ↔ s ∈ done ∧ s.kind = k := by
  rw [List.mem_filter, decide_eq_true_eq]

/-- The sections of a kind that the file has at most one of. -/
theorem none_or_one (hone : (done.filter fun s => s.kind = k).length ≤ 1) :
    (done.filter fun s => s.kind = k) = [] ∨
      ∃ s, (done.filter fun s => s.kind = k) = [s] ∧ s ∈ done ∧ s.kind = k := by
  rcases Nat.le_one_iff_eq_zero_or_eq_one.mp hone with h | h
  · exact Or.inl (List.length_eq_zero_iff.mp h)
  · obtain ⟨s, hs⟩ := List.length_eq_one_iff.mp h
    refine Or.inr ⟨s, hs, mem_ofKind.mp ?_⟩
    rw [hs]
    exact List.mem_singleton_self s

theorem eq_of_length_le_one {t : Scnhdr} (hone : (done.filter fun s => s.kind = k).length ≤ 1)
    (hs : s ∈ done ∧ s.kind = k) (ht : t ∈ done ∧ t.kind = k) : s = t := by
  have hs := mem_ofKind.mpr hs
  have ht := mem_ofKind.mpr ht
  rcases none_or_one hone with hl | ⟨u, hl, -⟩
  · rw [hl] at hs
    exact absurd hs (List.not_mem_nil)
  · rw [hl, List.mem_singleton] at hs ht
    rw [hs, ht]

theorem Last.mem (h : Last k pre s done) : s ∈ done ∧ s.kind = k := by
  obtain ⟨hk, post, rfl, -⟩ := h
  exact ⟨by simp, hk⟩

/-- The addresses in the file do not overflow. -/
theorem Holds.toNat_inFileAddr (h : Holds coff noff pre s seg) (hsize : noff.size < 0x100000000) :
    seg.inFileAddr.toNat = fileOffset pre := by
  have hfile := h.inFile
  rw [h.inFileAddr, BitVec.toNat_ofNat, Nat.mod_eq_of_lt (by omega)]

/-- **A segment** shows what the section of its kind asks for. -/
theorem Placed.shows_iff (h : Placed coff k done noff seg)
    (hone : (done.filter fun s => s.kind = k).length ≤ 1) (hsize : noff.size < 0x100000000)
    {a : ℕ} {b : Byte} :
    (seg.virtualAddr.toNat ≤ a ∧ a < seg.virtualAddr.toNat + seg.size.toNat ∧
      b = noff.data (seg.inFileAddr.toNat + (a - seg.virtualAddr.toNat))) ↔
    ∃ s ∈ done, s.kind = k ∧ s.s_paddr.toNat ≤ a ∧ a < s.s_paddr.toNat + s.s_size.toNat ∧
      b = coff.data (s.s_scnptr.toNat + (a - s.s_paddr.toNat)) := by
  by_cases hex : ∃ s ∈ done, s.kind = k
  · obtain ⟨pre, s, hlast⟩ := exists_last hex
    have hs := h.present pre s hlast
    rw [hs.toNat_inFileAddr hsize, hs.virtualAddr, hs.size]
    constructor
    · rintro ⟨hle, hlt, rfl⟩
      exact ⟨s, hlast.mem.1, hlast.mem.2, hle, hlt, hs.bytes _ (by omega)⟩
    · rintro ⟨t, ht, hk, hle, hlt, rfl⟩
      obtain rfl := eq_of_length_le_one hone hlast.mem ⟨ht, hk⟩
      exact ⟨hle, hlt, (hs.bytes _ (by omega)).symm⟩
  · rw [h.absent fun s hs hk => hex ⟨s, hs, hk⟩]
    constructor
    · rintro ⟨hle, hlt, -⟩
      exact absurd hlt (by simpa using hle)
    · rintro ⟨s, hs, hk, -⟩
      exact absurd ⟨s, hs, hk⟩ hex

/-! ## §3  The size of the program -/

/-- The size of the sections together, as an `int`. -/
def totalSize (l : List Scnhdr) : BitVec 32 := (l.map Scnhdr.s_size).sum

theorem totalSize_cons : totalSize (s :: done) = s.s_size + totalSize done := by
  simp [totalSize]

theorem size_grow : (seg.grow s).size = seg.size + s.s_size := by
  unfold Segment.grow
  split
  · rfl
  · rename_i hz
    rw [not_not.mp hz]
    simp

theorem size_uninitOf :
    (uninitOf done).size = totalSize (done.filter fun s => s.kind = .uninitData) := by
  have hfold : ∀ (l : List Scnhdr) (seg : Segment),
      (l.foldl Segment.grow seg).size = seg.size + totalSize l := by
    intro l
    induction l with
    | nil => simp [totalSize]
    | cons s l ih =>
        intro seg
        rw [List.foldl_cons, ih, size_grow, totalSize_cons, BitVec.add_assoc]
  rw [uninitOf, hfold]
  simp

/-- The pages of the program, with its stack. -/
def coffPages (coff : RandomAccessFile) : ℕ :=
  divRoundUp (totalSize (sections coff) + BitVec.ofNat 32 UserStackSize).toNat PageSize

theorem Placed.size_eq (h : Placed coff k done noff seg)
    (hone : (done.filter fun s => s.kind = k).length ≤ 1) :
    seg.size = totalSize (done.filter fun s => s.kind = k) := by
  rcases none_or_one hone with hl | ⟨s, hl, hs⟩
  · rw [hl]
    rw [List.filter_eq_nil_iff] at hl
    exact h.absent fun s hs => by simpa using hl s hs
  · obtain ⟨pre, t, hlast⟩ := exists_last ⟨s, hs⟩
    have heq : t = s := eq_of_length_le_one hone hlast.mem hs
    rw [(h.present pre t hlast).size, heq, hl]
    simp [totalSize]

/-- The sections by what they are for. -/
theorem totalSize_kinds (hknown : ∀ s ∈ done, s.kind ≠ .unknown) :
    totalSize done = totalSize (done.filter fun s => s.kind = .text) +
      totalSize (done.filter fun s => s.kind = .initData) +
      totalSize (done.filter fun s => s.kind = .uninitData) := by
  induction done with
  | nil => rfl
  | cons s done ih =>
      rw [totalSize_cons, ih fun t ht => hknown t (List.mem_cons_of_mem s ht)]
      cases hk : s.kind with
      | empty =>
          have hz : s.s_size = 0 := by
            by_contra hne
            unfold Scnhdr.kind at hk
            rw [if_neg hne] at hk
            split_ifs at hk
          simp [hk, hz]
      | text =>
          simp only [hk, List.filter_cons, decide_true, if_true, totalSize_cons, reduceCtorEq,
            decide_false, Bool.false_eq_true, if_false]
          ac_rfl
      | initData =>
          simp only [hk, List.filter_cons, decide_true, if_true, totalSize_cons, reduceCtorEq,
            decide_false, Bool.false_eq_true, if_false]
          ac_rfl
      | uninitData =>
          simp only [hk, List.filter_cons, decide_true, if_true, totalSize_cons, reduceCtorEq,
            decide_false, Bool.false_eq_true, if_false]
          ac_rfl
      | unknown => exact absurd hk (hknown s (List.mem_cons_self))

theorem IsNoffOf.numPages (h : IsNoffOf coff noff)
    (htext : ((sections coff).filter fun s => s.kind = .text).length ≤ 1) :
    (readHeader noff).numPages = coffPages coff := by
  rw [NoffHeader.numPages, h.code.size_eq htext, h.initData.size_eq h.oneData, h.uninitData,
    size_uninitOf, coffPages, totalSize_kinds h.known]

/-! ## §4  Three theorems -/

theorem IsNoffOf.shows_iff (h : IsNoffOf coff noff) (hsize : noff.size < 0x100000000)
    (htext : ((sections coff).filter fun s => s.kind = .text).length ≤ 1) {a : ℕ} {b : Byte} :
    NoffShows noff a b ↔ CoffShows coff a b := by
  have hcode := h.code.shows_iff htext hsize (a := a) (b := b)
  have hdata := h.initData.shows_iff h.oneData hsize (a := a) (b := b)
  unfold NoffShows CoffShows
  constructor
  · rintro ⟨seg, hseg, hshows⟩
    rcases List.mem_cons.mp hseg with rfl | hseg
    · obtain ⟨s, hs, hk, hrest⟩ := hcode.mp hshows
      exact ⟨s, hs, Or.inl hk, hrest⟩
    · rw [List.mem_singleton] at hseg
      subst hseg
      obtain ⟨s, hs, hk, hrest⟩ := hdata.mp hshows
      exact ⟨s, hs, Or.inr hk, hrest⟩
  · rintro ⟨s, hs, hk | hk, hrest⟩
    · exact ⟨_, List.mem_cons_self, hcode.mpr ⟨s, hs, hk, hrest⟩⟩
    · exact ⟨_, List.mem_cons_of_mem _ (List.mem_singleton_self _),
        hdata.mpr ⟨s, hs, hk, hrest⟩⟩

/-- **The conversion keeps the program**: the output has the magic number that the kernel
asks for, its two segments put the same bytes at the same addresses as the sections do,
and the kernel makes an address space that has room for all of them, by its 32-bit sum. (With
two sections `.text` that are not empty, the output would have the last one only; of a section
of size -1 it would have nothing.) -/
theorem coff2noff_shows (hseek : Seekable coff) (hsized : Sized coff)
    (hsize : noff.size < 0x100000000)
    (htext : ((sections coff).filter fun s => s.kind = .text).length ≤ 1)
    (h : coff2noff garbage coff = .ok noff) :
    (readHeader noff).noffMagic = NOFFMAGIC ∧
    (∀ a b, NoffShows noff a b ↔ CoffShows coff a b) ∧
    (readHeader noff).numPages =
      divRoundUp (totalSize (sections coff) + BitVec.ofNat 32 UserStackSize).toNat PageSize := by
  have hnoff := isNoffOf hseek hsized h
  exact ⟨hnoff.magic, fun a b => hnoff.shows_iff hsize htext, hnoff.numPages htext⟩

/-- The header of a section, and the object file that has these sections and then `raw`. -/
def Scnhdr.bytes (name : CString) (s_paddr s_size s_scnptr : BitVec 32) : List Byte :=
  (name.chars ++ List.replicate (8 - name.chars.length) 0) ++ wordBytes s_paddr ++
    wordBytes s_paddr ++ wordBytes s_size ++ wordBytes s_scnptr ++ List.replicate 16 0

def objectFile (headers : List (List Byte)) (raw : List Byte) : RandomAccessFile :=
  let bytes := [0x62, 0x01, BitVec.ofNat 8 headers.length, 0] ++ List.replicate 16 0 ++
    [0x07, 0x01] ++ List.replicate 54 0 ++ headers.flatten ++ raw
  ⟨bytes.length, fun i => bytes.getD i 0⟩

/-- Eight bytes of code, four of constants behind it, and sixteen bytes of zeros. -/
def smallProgram : RandomAccessFile :=
  objectFile
    [Scnhdr.bytes textName 0 8 236, Scnhdr.bytes rdataName 8 4 244,
      Scnhdr.bytes dataName 12 0 248, Scnhdr.bytes bssName 12 16 0]
    [1, 2, 3, 4, 5, 6, 7, 8, 9, 10, 11, 12]

/-- The script that the linker gets puts `.bss` right behind `.sbss`. -/
def smallData : RandomAccessFile :=
  objectFile
    [Scnhdr.bytes textName 0 4 196, Scnhdr.bytes sbssName 4 8 0, Scnhdr.bytes bssName 12 16 0]
    [1, 2, 3, 4]

def stackGarbage : NoffHeader := ⟨7, ⟨7, 7, 7⟩, ⟨7, 7, 7⟩, ⟨7, 7, 7⟩⟩

theorem convert_smallProgram :
    ∃ noff, coff2noff stackGarbage smallProgram = .ok noff ∧ noff.size = 52 := by
  have hsize : (match coff2noff stackGarbage smallProgram with
      | .ok noff => noff.size
      | .error _ => 0) = 52 := by decide +kernel
  split at hsize
  · rename_i noff h
    exact ⟨noff, h, hsize⟩
  · cases hsize

theorem seekable_smallProgram : Seekable smallProgram := by
  unfold Seekable
  decide +kernel

theorem sized_smallProgram : Sized smallProgram := by
  unfold Sized
  decide +kernel

theorem coff2noff_shows_smallProgram :
    ∃ noff, coff2noff stackGarbage smallProgram = .ok noff ∧
      (∀ a b, NoffShows noff a b ↔ CoffShows smallProgram a b) ∧
      (readHeader noff).numPages = 9 := by
  obtain ⟨noff, h, hsize⟩ := convert_smallProgram
  obtain ⟨-, hshows, hpages⟩ := coff2noff_shows seekable_smallProgram sized_smallProgram
    (by rw [hsize]; decide) (by decide +kernel) h
  refine ⟨noff, h, hshows, ?_⟩
  rw [hpages]
  decide +kernel

/-- Linked with `-N -T 0`: the code comes first and is at address 0; at most one section
of initialised data comes behind it, in memory as in the list. -/
def Linked (coff : RandomAccessFile) : Prop :=
  ∃ t ds, ((sections coff).filter fun s => s.IsLoaded) = t :: ds ∧
    t.kind = .text ∧ t.s_paddr = 0 ∧
    ds.length ≤ 1 ∧ ∀ d ∈ ds, d.kind = .initData ∧ d.s_paddr = t.s_size

theorem fileOffset_eq_filter :
    fileOffset done = 40 + ((done.filter fun s => s.IsLoaded).map (·.s_size.toNat)).sum := by
  rw [fileOffset]
  congr 1
  induction done with
  | nil => rfl
  | cons s done ih =>
      by_cases hs : s.IsLoaded
      · simp [hs, ih]
      · simp [hs, ih]

/-- The first loaded section stands behind the header, the second one behind the first. -/
theorem Last.fileOffset_eq {t : Scnhdr} {ds : List Scnhdr} (h : Last k pre s done)
    (hs : s.IsLoaded) (hdone : (done.filter fun s => s.IsLoaded) = t :: ds)
    (hds : ds.length ≤ 1) :
    s = t ∧ fileOffset pre = 40 ∨ s ∈ ds ∧ fileOffset pre = 40 + t.s_size.toNat := by
  obtain ⟨-, post, rfl, -⟩ := h
  rw [List.filter_append, List.filter_cons_of_pos (by simpa using hs)] at hdone
  rw [fileOffset_eq_filter]
  cases hpre : pre.filter fun s => s.IsLoaded with
  | nil =>
      rw [hpre] at hdone
      cases hdone
      exact Or.inl ⟨rfl, rfl⟩
  | cons u rest =>
      rw [hpre, List.cons_append] at hdone
      obtain ⟨rfl, rfl⟩ := List.cons.inj hdone
      have hlen : rest = [] := by
        rw [List.length_append, List.length_cons] at hds
        exact List.length_eq_zero_iff.mp (by omega)
      refine Or.inr ⟨by simp, ?_⟩
      rw [hlen]
      simp

theorem Linked.oneText (hl : Linked coff) :
    ((sections coff).filter fun s => s.kind = .text).length ≤ 1 := by
  obtain ⟨t, ds, hload, hk, -, -, hds⟩ := hl
  have hsub : ((sections coff).filter fun s => s.kind = .text) =
      ((sections coff).filter fun s => s.IsLoaded).filter fun s => s.kind = .text := by
    rw [List.filter_filter]
    refine List.filter_congr fun s _ => ?_
    by_cases hs : s.kind = .text <;> simp [Scnhdr.IsLoaded, hs]
  have hnil : (ds.filter fun s => s.kind = .text) = [] := by
    rw [List.filter_eq_nil_iff]
    intro d hd
    simp [(hds d hd).1]
  rw [hsub, hload, List.filter_cons_of_pos (by simpa using hk), hnil]
  rfl

/-- The code of a linked program, and the initialised data behind it. -/
theorem Linked.segments (hl : Linked coff) (h : IsNoffOf coff noff) :
    (readHeader noff).code.virtualAddr = 0 ∧ (readHeader noff).code.inFileAddr.toNat = 40 ∧
    ((readHeader noff).initData.size ≠ 0 →
      (readHeader noff).initData.virtualAddr = (readHeader noff).code.size ∧
      (readHeader noff).initData.inFileAddr =
        (readHeader noff).code.inFileAddr + (readHeader noff).code.size) ∧
    40 + ((readHeader noff).code.size.toNat + (readHeader noff).initData.size.toNat) ≤
      noff.size := by
  obtain ⟨t, ds, hload, hk, haddr, hlen, hds⟩ := hl
  have hmem : t ∈ sections coff := by
    have ht : t ∈ (sections coff).filter fun s => s.IsLoaded := by
      rw [hload]
      exact List.mem_cons_self
    exact (List.mem_filter.mp ht).1
  obtain ⟨pre, s, hlast⟩ := exists_last ⟨t, hmem, hk⟩
  have hs := h.code.present pre s hlast
  obtain ⟨rfl, hoff⟩ : s = t ∧ fileOffset pre = 40 := by
    rcases hlast.fileOffset_eq (Or.inl hlast.mem.2) hload hlen with hfirst | ⟨hsecond, -⟩
    · exact hfirst
    · have hkind := (hds s hsecond).1
      rw [hlast.mem.2] at hkind
      cases hkind
  have hfile := hs.inFile
  rw [hoff, ← hs.size] at hfile
  have hcode : (readHeader noff).code.inFileAddr = BitVec.ofNat 32 40 := by
    rw [← hoff, ← hs.inFileAddr]
  refine ⟨hs.virtualAddr.trans haddr, by rw [hcode]; rfl, ?_⟩
  by_cases hz : (readHeader noff).initData.size = 0
  · refine ⟨fun hne => absurd hz hne, ?_⟩
    rw [hz]
    exact hfile
  · have hex : ∃ d ∈ sections coff, d.kind = .initData := by
      by_contra hnone
      exact hz (h.initData.absent fun d hd hkd => hnone ⟨d, hd, hkd⟩)
    obtain ⟨pre', d, hlastd⟩ := exists_last hex
    have hd := h.initData.present pre' d hlastd
    rcases hlastd.fileOffset_eq (Or.inr hlastd.mem.2) hload hlen with ⟨rfl, -⟩ | ⟨hsecond, hoffd⟩
    · have hkind := hlastd.mem.2
      rw [hk] at hkind
      cases hkind
    · have hfiled := hd.inFile
      rw [hoffd, ← hs.size, ← hd.size] at hfiled
      refine ⟨fun _ => ⟨?_, ?_⟩, ?_⟩
      · exact hd.virtualAddr.trans ((hds d hsecond).2.trans hs.size.symm)
      · rw [hcode, hd.inFileAddr, hoffd, ← hs.size, BitVec.ofNat_add, BitVec.ofNat_toNat,
          BitVec.setWidth_eq]
      · omega

/-- The two segments of a linked program are one block of the file. -/
theorem Linked.noffShows_iff (hl : Linked coff) (h : IsNoffOf coff noff)
    (hsize : noff.size < 0x80000000) {a : ℕ} {b : Byte} :
    NoffShows noff a b ↔
      a < (readHeader noff).code.size.toNat + (readHeader noff).initData.size.toNat ∧
      b = noff.data (40 + a) := by
  obtain ⟨hcode, hfirst, hdata, hfile⟩ := hl.segments h
  have h0 : (0 : BitVec 32).toNat = 0 := rfl
  constructor
  · rintro ⟨seg, hseg, hle, hlt, rfl⟩
    rcases List.mem_cons.mp hseg with rfl | hseg
    · rw [hcode, h0, Nat.zero_add] at hlt
      rw [hcode, hfirst, h0, Nat.sub_zero]
      exact ⟨by omega, rfl⟩
    · rw [List.mem_singleton] at hseg
      subst hseg
      have hne : (readHeader noff).initData.size ≠ 0 := by
        intro hz
        rw [hz] at hlt
        exact absurd hlt (by simpa using hle)
      obtain ⟨haddr, hin⟩ := hdata hne
      rw [haddr] at hle hlt
      rw [haddr, hin, BitVec.toNat_add, hfirst, Nat.mod_eq_of_lt (by omega)]
      refine ⟨hlt, ?_⟩
      congr 1
      omega
  · rintro ⟨ha, rfl⟩
    by_cases hlt : a < (readHeader noff).code.size.toNat
    · refine ⟨_, List.mem_cons_self, ?_⟩
      rw [hcode, hfirst]
      simpa using hlt
    · refine ⟨_, List.mem_cons_of_mem _ (List.mem_singleton_self _), ?_⟩
      have hne : (readHeader noff).initData.size ≠ 0 := by
        intro hz
        rw [hz] at ha
        exact hlt ha
      obtain ⟨haddr, hin⟩ := hdata hne
      rw [haddr, hin, BitVec.toNat_add, hfirst, Nat.mod_eq_of_lt (by omega)]
      refine ⟨by omega, by omega, ?_⟩
      congr 1
      omega

/-- The address space that the kernel makes of it. -/
theorem Linked.loads (hseek : Seekable coff) (hsized : Sized coff) (hlinked : Linked coff)
    (hsize : noff.size < 0x80000000) (h : coff2noff garbage coff = .ok noff) :
    ∃ sp, AddrSpace.new noff = some sp ∧ sp.Laid ∧ sp.numPages = coffPages coff ∧
      sp.noffH.code.inFileAddr.toNat = 40 ∧ ∀ a b, CoffShows coff a b ↔ a < sp.imageSize ∧
        b = sp.executable.data (sp.noffH.code.inFileAddr.toNat + a) := by
  have hnoff := isNoffOf hseek hsized h
  obtain ⟨hcode, hfirst, hdata, hfile⟩ := hlinked.segments hnoff
  obtain ⟨sp, hsp, hpages, hnoffH, hexe⟩ : ∃ sp, AddrSpace.new noff = some sp ∧
      sp.numPages = (readHeader noff).numPages ∧ sp.noffH = readHeader noff ∧
      sp.executable = noff := by
    rw [AddrSpace.new, if_pos hnoff.magic]
    exact ⟨_, rfl, rfl, rfl, rfl⟩
  refine ⟨sp, hsp, ?_, hpages.trans (hnoff.numPages hlinked.oneText), by rwa [hnoffH],
    fun a b => ?_⟩
  · constructor
    · rw [hnoffH]
      exact hcode
    · rw [hnoffH]
      exact hdata
    · rw [AddrSpace.imageSize, hnoffH, hexe, hfirst]
      exact hfile
    · rw [hexe]
      exact hsize
  · rw [AddrSpace.imageSize, hnoffH, hexe, hfirst, ← hlinked.noffShows_iff hnoff hsize]
    exact (hnoff.shows_iff (by omega) hlinked.oneText).symm

/-- Page `p` as the object file has it: the bytes of the sections, or zeros where all of
these are on earlier pages. The bytes behind the sections in their last page are left open. -/
structure ShowsPage (coff : RandomAccessFile) (mem : ByteMem) (sp : AddrSpace) (p : ℕ) :
    Prop where
  placed : ∀ a b, a / PageSize = p → CoffShows coff a b → sp.view mem a = some b
  past : (∀ a b, CoffShows coff a b → a / PageSize < p) →
    ∀ a, a / PageSize = p → sp.view mem a = some 0

/-- **From the linker to the pages.** A program linked as the file says, converted to less
than 2 GiB: the kernel accepts it, the layout is the one that its loader relies on, and
whenever a page of it is loaded for the first time, that page is as the object file has it,
whatever else is in memory. -/
theorem coff2noff_image (hseek : Seekable coff) (hsized : Sized coff) (hlinked : Linked coff)
    (hsize : noff.size < 0x80000000) (h : coff2noff garbage coff = .ok noff) :
    ∃ sp, AddrSpace.new noff = some sp ∧ sp.Laid ∧ sp.numPages = coffPages coff ∧
      ∀ sp₁ sp₂ pm pm' p, AddrSpace.SameProgram sp sp₁ → sp₁.Wf → p < sp₁.numPages →
        (sp₁.pageTable p).physicalPage = -1 →
        sp₁.loadFromExecutable pm p = some (true, pm', sp₂) →
        ShowsPage coff pm'.mainMemory sp₂ p := by
  obtain ⟨sp, hsp, hlaid, hpages, haddr, hshows⟩ := hlinked.loads hseek hsized hsize h
  refine ⟨sp, hsp, hlaid, hpages, fun sp₁ sp₂ pm pm' p hsame hwf hp hnew hload => ?_⟩
  obtain ⟨hlaid₁, himage⟩ := hsame.laid hlaid
  obtain ⟨f, hm, hmem⟩ := AddrSpace.load_first hwf hp hnew hload
  have hview {a : ℕ} (ha : a / PageSize = p) : sp₂.view pm'.mainMemory a =
      some (pm'.mainMemory (f * PageSize + a % PageSize)) :=
    AddrSpace.view_of_maps (by rwa [ha])
  have hmod {a : ℕ} : a % PageSize < PageSize := Nat.mod_lt _ (by decide)
  constructor
  · intro a b ha hb
    obtain ⟨hlt, rfl⟩ := (hshows a b).mp hb
    have hdiv : p * PageSize + a % PageSize = a := by rw [← ha, Nat.div_add_mod']
    obtain ⟨hpast, hread, hin⟩ := hlaid₁.of_lt (p := p) (i := a % PageSize) (by omega)
    rw [hview ha, (AddrSpace.loadImage_at hmem hmod).2 hpast, if_pos hin, hread, hdiv,
      hsame.noffH, hsame.executable]
  · intro hbefore a ha
    have hread : ¬ sp₁.SeeksBefore p := by
      intro hseeks
      have hnone : sp₁.loadImage pm.mainMemory p f = none :=
        AddrSpace.loadImage_eq_none_iff.mpr hseeks
      rw [hmem] at hnone
      cases hnone
    -- the last byte of the image is on an earlier page
    have hend : sp₁.imageSize ≤ p * PageSize := by
      rw [himage]
      by_cases hz : sp.imageSize = 0
      · omega
      · have := hbefore (sp.imageSize - 1) _ ((hshows _ _).mpr ⟨by omega, rfl⟩)
        simp only [PageSize, SectorSize] at *
        omega
    have hint : sp₁.noffH.code.inFileAddr.toNat + p * PageSize < 0x100000000 := by
      have hle : coffPages coff ≤ 0x2000000 := by
        apply divRoundUp_le
        simp only [PageSize, SectorSize]
        omega
      rw [hsame.numPages, hpages] at hp
      rw [hsame.noffH, haddr]
      simp only [PageSize, SectorSize]
      omega
    rw [hview ha, (AddrSpace.loadImage_at hmem hmod).1 (hlaid₁.pastImage hread hint hend)]

theorem coff2noff_image_smallProgram : ∃ noff sp pm' sp₂,
    coff2noff stackGarbage smallProgram = .ok noff ∧ AddrSpace.new noff = some sp ∧
      sp.loadFromExecutable PhysMemory.init 0 = some (true, pm', sp₂) ∧
      ShowsPage smallProgram pm'.mainMemory sp₂ 0 ∧ sp₂.view pm'.mainMemory 9 = some 10 := by
  obtain ⟨noff, h, hsize⟩ := convert_smallProgram
  have hlinked : Linked smallProgram := by
    refine ⟨⟨[46, 116, 101, 120, 116, 0, 0, 0], 0, 8, 236⟩,
      [⟨[46, 114, 100, 97, 116, 97, 0, 0], 8, 4, 244⟩], ?_⟩
    decide +kernel
  obtain ⟨sp, hsp, hlaid, hpages, hload⟩ := coff2noff_image seekable_smallProgram
    sized_smallProgram hlinked (by rw [hsize]; decide) h
  have hwf := (AddrSpace.new_wf hsp).1
  have hnew : (sp.pageTable 0).physicalPage = -1 := AddrSpace.new_physicalPage hsp 0
  have hp : 0 < sp.numPages := by
    rw [hpages]
    decide +kernel
  have hread : ¬ sp.SeeksBefore 0 := AddrSpace.Laid.not_seeksBefore hlaid (by decide)
  obtain ⟨pm', sp₂, hok⟩ := AddrSpace.load_of_frame hwf hp hread (fun _ => 0)
    (BitMap.new NumPhysPages) (Or.inl ⟨0, by decide, by decide⟩)
  have hpage := hload sp sp₂ PhysMemory.init pm' 0 ⟨rfl, rfl, rfl⟩ hwf hp hnew hok
  refine ⟨noff, sp, pm', sp₂, h, hsp, hok, hpage, hpage.placed 9 10 (by decide) ?_⟩
  unfold CoffShows
  decide +kernel

/-- What the program checks of a section, given those before it. -/
def Accepts (coff : RandomAccessFile) (pre : List Scnhdr) (s : Scnhdr) : Prop :=
  match s.kind with
  | .empty => True
  | .text => s.InFile coff
  | .initData => s.InFile coff ∧ ∀ t ∈ pre, t.kind ≠ .initData
  | .uninitData => ¬ (uninitOf pre).Meets s
  | .unknown => False

theorem Checked.accepts_iff (h : Checked done c) (hseek : x.s_scnptr.toNat < 0x80000000) :
    (∃ c', c.convert coff x = .ok c') ↔ Accepts coff done x := by
  have hfile (hload : x.IsLoaded) : c.Reads coff x ↔ x.InFile coff := by
    have hpos := hload.size_pos
    unfold Conversion.Reads Scnhdr.InFile
    refine or_congr_right (and_congr_right fun hnonneg => ?_)
    rw [Scnhdr.toNat_toInt hnonneg, lseek_of_lt hseek]
    omega
  simp only [Conversion.convert_eq_ok]
  unfold Accepts
  cases hk : x.kind with
  | empty => simp
  | text => simp [hfile (Or.inl hk)]
  | initData =>
      rw [← h.noData, ← hfile (Or.inr hk)]
      simp [and_comm]
  | uninitData => simp [h.uninitData.meets_iff]
  | unknown => simp

/-- **What is converted**: an object file with the two magic numbers and all its section
headers, when every section is named as the program knows it, its bytes are in the file (or
its size is -1), no two hold initialised data, and none of uninitialised data begins where
those before it end (these are refused although the comment wants them contiguous). -/
theorem coff2noff_accepts_iff (garbage : NoffHeader) (hseek : Seekable coff) :
    (∃ noff, coff2noff garbage coff = .ok noff) ↔ IsCoff coff ∧
      ∀ pre s post, sections coff = pre ++ s :: post → Accepts coff pre s := by
  have hmem {done : List Scnhdr} {x : Scnhdr} (hpre : done ++ [x] <+: sections coff) :
      x.s_scnptr.toNat < 0x80000000 := hseek x (hpre.subset (by simp))
  have hstart : Checked [] (Conversion.start garbage (afterHeaders coff)) :=
    checked_start garbage _
  have hloop := List.foldlM_isOk_iff (f := Conversion.convert coff) hstart
    (fun done x t t' _ hdone hx => hdone.step hx)
    (fun done x t hpre hdone => hdone.accepts_iff (hmem hpre))
  rw [← hloop]
  simp only [coff2noff_eq_ok]
  constructor
  · rintro ⟨noff, hcoff, c, hc, -⟩
    exact ⟨hcoff, c, hc⟩
  · rintro ⟨hcoff, c, hc⟩
    exact ⟨_, hcoff, c, hc, rfl⟩

theorem coff2noff_accepts_iff_smallData :
    ¬ ∃ noff, coff2noff stackGarbage smallData = .ok noff := by
  rw [coff2noff_accepts_iff stackGarbage (show Seekable smallData by
    unfold Seekable
    decide +kernel)]
  rintro ⟨-, h⟩
  have hsplit : ∃ t u s, sections smallData = [t, u] ++ s :: [] ∧ s.kind = .uninitData ∧
      (uninitOf [t, u]).size = 8 ∧ (uninitOf [t, u]).virtualAddr = 4 ∧ s.s_paddr = 12 :=
    ⟨_, _, _, rfl, by decide +kernel⟩
  obtain ⟨t, u, s, hsplit, hk, hsize, haddr, hs⟩ := hsplit
  have haccepts := h _ _ _ hsplit
  rw [Accepts, hk, Segment.Meets, hsize, haddr, hs] at haccepts
  exact haccepts (by decide)

end OsAssignments.MemoryManagement
