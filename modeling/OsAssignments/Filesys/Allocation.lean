import OsAssignments.Filesys.DiskVolume

/-!
# Allocating and freeing the sectors of a file

`FileHeader::Allocate` and `FileHeader::Deallocate`: the loops over the data
sectors, with the bitmap as accumulator.

- `FileHeader.allocate_cases` — the sectors handed out were clear and are
  different, or there were too few.
- `FileHeader.deallocate_eq` — exactly the data sectors are cleared.
-/

namespace OsAssignments.Filesys

theorem toInt_ofInt_small {n : ℤ} (h : 0 ≤ n) (h' : n < 0x80000000) :
    (BitVec.ofInt 32 n).toInt = n :=
  BitVec.toInt_ofInt_eq_self (by decide) (by omega) (by omega)

theorem intDivRoundUp_natCast (n s : ℕ) : intDivRoundUp n s = (divRoundUp n s : ℕ) := by
  rw [intDivRoundUp, divRoundUp, Int.tdiv_eq_ediv_of_nonneg (Int.natCast_nonneg n),
    Int.tmod_eq_emod_of_nonneg (Int.natCast_nonneg n), ← Int.natCast_ediv,
    ← Int.natCast_emod]
  split <;> split <;> omega

namespace FileHeader

/-! ## §1  The fields of a header -/

@[simp] theorem dataSectors_setDataSectors (h : FileHeader) (i : ℕ) {n : ℤ} (hn : 0 ≤ n)
    (hn' : n < 0x80000000) : (h.setDataSectors i n).dataSectors i = n := by
  rw [dataSectors, setDataSectors, ByteMem.word_setWord, toInt_ofInt_small hn hn']

theorem dataSectors_setDataSectors_ne (h : FileHeader) {i j : ℕ} (n : ℤ) (hij : i ≠ j) :
    (h.setDataSectors i n).dataSectors j = h.dataSectors j := by
  rw [dataSectors, setDataSectors, ByteMem.word_setWord_disjoint _ _ (by omega),
    dataSectors]

@[simp] theorem numBytes_setDataSectors (h : FileHeader) (i : ℕ) (n : ℤ) :
    (h.setDataSectors i n).numBytes = h.numBytes := by
  rw [numBytes, setDataSectors, ByteMem.word_setWord_disjoint _ _ (by omega), numBytes]

@[simp] theorem numSectors_setDataSectors (h : FileHeader) (i : ℕ) (n : ℤ) :
    (h.setDataSectors i n).numSectors = h.numSectors := by
  rw [numSectors, setDataSectors, ByteMem.word_setWord_disjoint _ _ (by omega), numSectors]

/-- A header for `fileSize` bytes with the data sectors `l`. -/
structure Lists (h : FileHeader) (fileSize : ℕ) (l : List ℕ) : Prop where
  numBytes : h.numBytes = fileSize
  numSectors : h.numSectors = l.length
  dataSectors : ∀ i (hi : i < l.length), h.dataSectors i = l[i]
  length : l.length = divRoundUp fileSize SectorSize
  nodup : l.Nodup
  lt : ∀ x ∈ l, x < NumSectors

theorem Lists.blocksOf_eq {h : FileHeader} {fileSize : ℕ} {l : List ℕ}
    (hl : h.Lists fileSize l) : blocksOf h = l := by
  have hlen : (blocksOf h).length = l.length := by
    rw [length_blocksOf, hl.numSectors, Int.toNat_natCast]
  refine List.ext_getElem hlen fun i hi hi' => ?_
  simp only [blocksOf, List.getElem_map, List.getElem_range, hl.dataSectors i hi',
    Int.toNat_natCast]

theorem Lists.fits {h : FileHeader} {fileSize : ℕ} {l : List ℕ}
    (hl : h.Lists fileSize l) : h.Fits fileSize := by
  refine ⟨hl.numBytes, fun i hi => ?_, fun i j hi hj heq => ?_⟩
  · rw [← hl.length] at hi
    rw [hl.dataSectors i hi]
    exact ⟨Int.natCast_nonneg _, Int.ofNat_lt.mpr (hl.lt _ (List.getElem_mem hi))⟩
  · rw [← hl.length] at hi hj
    rw [hl.dataSectors i hi, hl.dataSectors j hj, Int.natCast_inj] at heq
    exact (List.Nodup.getElem_inj_iff hl.nodup).mp heq

theorem divRoundUp_le_numDirect {fileSize : ℕ} (h : fileSize ≤ MaxFileSize) :
    divRoundUp fileSize SectorSize ≤ NumDirect := divRoundUp_le h

/-- A header written to the disk lists the same sectors there. -/
theorem Lists.writeBack {h : FileHeader} {fileSize : ℕ} {l : List ℕ}
    (hl : h.Lists fileSize l) (hmax : fileSize ≤ MaxFileSize) (disk : Disk) {s : ℕ}
    (hs : s < NumSectors) :
    ∃ disk', h.writeBack disk s = some disk' ∧ (headerOf disk' s).Lists fileSize l ∧
      SameOff (· = s) disk disk' := by
  obtain ⟨disk', hwrite, hbytes, hnum, hdata, hsame⟩ := writeBack_spec h disk hs
  refine ⟨disk', hwrite, ⟨hbytes.trans hl.numBytes, hnum.trans hl.numSectors,
    fun i hi => ?_, hl.length, hl.nodup, hl.lt⟩, hsame⟩
  have := divRoundUp_le_numDirect hmax
  rw [hdata i (by have := hl.length; omega), hl.dataSectors i hi]

/-! ## §2  `Allocate` -/

/-- After `n` turns `n` sectors that were clear are marked and listed. -/
theorem allocateLoop_range (b : BitMap) (h : FileHeader) (hb : b.numBits = NumSectors) :
    ∀ n : ℕ, n ≤ b.numClear → ∃ (l : List ℕ) (b' : BitMap) (h' : FileHeader),
      allocateLoop (List.range n) b h = (b', h') ∧ l.length = n ∧ l.Nodup ∧
      (∀ x ∈ l, b.testBit x = false ∧ x < NumSectors) ∧ b'.numBits = NumSectors ∧
      (∀ x, b'.testBit x = true ↔ b.testBit x = true ∨ x ∈ l) ∧
      b'.numClear = b.numClear - n ∧ h'.numBytes = h.numBytes ∧
      h'.numSectors = h.numSectors ∧ ∀ i (hi : i < l.length), h'.dataSectors i = l[i]
  | 0, _ => ⟨[], b, h, rfl, rfl, List.nodup_nil, by simp, hb, by simp, rfl, rfl, rfl,
      by simp⟩
  | n + 1, hn => by
      obtain ⟨l, b₁, h₁, hloop, hlen, hnodup, hclear, hbits, htest, hnum, hbytes, hsec,
        hdata⟩ := allocateLoop_range b h hb n (by omega)
      obtain ⟨x, hfind, hx, hxclear, hxnum⟩ :=
        BitMap.find_of_numClear_pos (b := b₁) (by omega)
      rw [hbits] at hx
      have hxl : x ∉ l ∧ b.testBit x = false := by
        have hno : ¬ (b.testBit x = true ∨ x ∈ l) := by
          rw [← htest, hxclear]
          simp
        exact ⟨fun hmem => hno (Or.inr hmem), by simpa using fun ht => hno (Or.inl ht)⟩
      have hx31 : (x : ℤ) < 0x80000000 := by
        have : NumSectors = 1024 := rfl
        omega
      refine ⟨l ++ [x], b₁.setBit x, h₁.setDataSectors n x, ?_, by simp [hlen], ?_,
        fun y hy => ?_, hbits, fun y => ?_, by omega, by simp [hbytes], by simp [hsec],
        fun i hi => ?_⟩
      · rw [allocateLoop, List.range_succ, List.foldl_append]
        change (List.foldl _ (allocateLoop (List.range n) b h) _) = _
        simp only [hloop, List.foldl_cons, List.foldl_nil, hfind]
      · exact List.nodup_append.mpr ⟨hnodup, List.nodup_singleton x, fun y hy z hz => by
          rw [List.mem_singleton.mp hz]
          rintro rfl
          exact hxl.1 hy⟩
      · rcases List.mem_append.mp hy with hy | hy
        · exact hclear y hy
        · rw [List.mem_singleton.mp hy]
          exact ⟨hxl.2, hx⟩
      · rw [BitMap.testBit_setBit (by omega), Bool.or_eq_true, decide_eq_true_eq, htest,
          List.mem_append, List.mem_singleton]
        constructor
        · rintro (rfl | h | h)
          · exact Or.inr (Or.inr rfl)
          · exact Or.inl h
          · exact Or.inr (Or.inl h)
        · rintro (h | h | rfl)
          · exact Or.inr (Or.inl h)
          · exact Or.inr (Or.inr h)
          · exact Or.inl rfl
      · rw [List.length_append, List.length_singleton] at hi
        by_cases hlt : i < l.length
        · rw [List.getElem_append_left hlt,
            dataSectors_setDataSectors_ne _ _ (by omega), hdata i hlt]
        · have hin : i = n := by omega
          subst hin
          rw [dataSectors_setDataSectors _ _ (by omega) hx31,
            List.getElem_append_right (by omega)]
          simp [hlen]

/-- **`Allocate`** takes as many clear sectors as the file needs, or fails because
there are fewer. -/
theorem allocate_cases (h : FileHeader) {b : BitMap} (hb : b.numBits = NumSectors)
    {fileSize : ℕ} (hsize : fileSize ≤ MaxFileSize) :
    (b.numClear < divRoundUp fileSize SectorSize ∧
      ∃ b' h', h.allocate b fileSize = (false, b', h')) ∨
    (divRoundUp fileSize SectorSize ≤ b.numClear ∧
      ∃ (l : List ℕ) (b' : BitMap) (h' : FileHeader),
        h.allocate b fileSize = (true, b', h') ∧ h'.Lists fileSize l ∧
        (∀ x ∈ l, b.testBit x = false) ∧ b'.numBits = NumSectors ∧
        (∀ x, b'.testBit x = true ↔ b.testBit x = true ∨ x ∈ l) ∧
        b'.numClear = b.numClear - l.length) := by
  have hMax : MaxFileSize = 3840 := rfl
  have hle : divRoundUp fileSize SectorSize ≤ fileSize + 1 := by
    rw [divRoundUp]
    have := Nat.div_le_self fileSize SectorSize
    split <;> omega
  have hnum : ((h.setNumBytes fileSize).setNumSectors
      (divRoundUp fileSize SectorSize : ℕ)).numSectors =
      (divRoundUp fileSize SectorSize : ℕ) := by
    rw [numSectors, setNumSectors, ByteMem.word_setWord,
      toInt_ofInt_small (by omega) (by omega)]
  have hbytes : ((h.setNumBytes fileSize).setNumSectors
      (divRoundUp fileSize SectorSize : ℕ)).numBytes = fileSize := by
    rw [numBytes, setNumSectors, ByteMem.word_setWord_disjoint _ _ (by omega), setNumBytes,
      ByteMem.word_setWord, toInt_ofInt_small (by omega) (by omega)]
  simp only [allocate, intDivRoundUp_natCast]
  by_cases hclear : b.numClear < divRoundUp fileSize SectorSize
  · left
    refine ⟨hclear, b, _, if_pos (by exact_mod_cast hclear)⟩
  · right
    obtain ⟨l, b', h', hloop, hlen, hnodup, hl, hbits, htest, hcount, hb', hs', hdata⟩ :=
      allocateLoop_range b ((h.setNumBytes fileSize).setNumSectors
        (divRoundUp fileSize SectorSize : ℕ)) hb (divRoundUp fileSize SectorSize) (by omega)
    refine ⟨by omega, l, b', h', ?_, ⟨by rw [hb', hbytes], by rw [hs', hnum, hlen], hdata,
      hlen, hnodup, fun x hx => (hl x hx).2⟩, fun x hx => (hl x hx).1, hbits, htest,
      by omega⟩
    rw [if_neg (by exact_mod_cast hclear), Int.toNat_natCast, hloop]

/-! ## §3  `Deallocate` -/

/-- **`Deallocate`** clears the data sectors, if they are marked and different. -/
theorem deallocate_eq {h : FileHeader} {b : BitMap} (hb : b.numBits = NumSectors)
    (hsec : ∀ x ∈ blocksOf h, 0 < x ∧ x < NumSectors ∧ b.testBit x = true)
    (hnodup : (blocksOf h).Nodup) :
    ∃ b', h.deallocate b = some b' ∧ b'.numBits = NumSectors ∧
      ∀ x, b'.testBit x = true ↔ b.testBit x = true ∧ x ∉ blocksOf h := by
  have hloop : ∀ n ≤ h.numSectors.toNat, ∃ b',
      (List.range n).foldlM (fun freeMap i => do
        let marked ← freeMap.test (h.dataSectors i)
        if marked then freeMap.clear (h.dataSectors i) else none) b = some b' ∧
      b'.numBits = NumSectors ∧ ∀ x, b'.testBit x = true ↔
        b.testBit x = true ∧ x ∉ (List.range n).map fun i => (h.dataSectors i).toNat := by
    intro n
    induction n with
    | zero => exact fun _ => ⟨b, rfl, hb, by simp⟩
    | succ n ih =>
        intro hn
        obtain ⟨b₁, hfold, hbits, htest⟩ := ih (by omega)
        obtain ⟨hpos, hlt, hmarked⟩ := hsec (h.dataSectors n).toNat
          (List.mem_map_of_mem (List.mem_range.mpr hn))
        have hcast : h.dataSectors n = ((h.dataSectors n).toNat : ℕ) := by omega
        -- the sectors before this one are others, so its bit is still set
        have hnew : (h.dataSectors n).toNat ∉
            (List.range n).map fun i => (h.dataSectors i).toNat := by
          intro hmem
          obtain ⟨i, hi, heq⟩ := List.mem_map.mp hmem
          have hi' := List.mem_range.mp hi
          have := List.inj_on_of_nodup_map hnodup (List.mem_range.mpr (by omega))
            (List.mem_range.mpr (by omega)) heq
          omega
        have hset := (htest _).mpr ⟨hmarked, hnew⟩
        refine ⟨b₁.clearBit (h.dataSectors n).toNat, ?_, hbits, fun x => ?_⟩
        · rw [List.range_succ, List.foldlM_append, hfold]
          simp only [Option.bind_eq_bind, Option.bind_some, List.foldlM_cons,
            List.foldlM_nil]
          rw [hcast, BitMap.test_natCast (by omega), Int.toNat_natCast, Option.bind_some,
            hset, if_pos rfl, BitMap.clear_natCast (by omega)]
          rfl
        · rw [BitMap.testBit_clearBit (by omega), Bool.and_eq_true, Bool.not_eq_true',
            decide_eq_false_iff_not, htest, List.range_succ, List.map_append,
            List.mem_append, List.map_singleton, List.mem_singleton, not_or]
          constructor
          · rintro ⟨hne, hx, hout⟩
            exact ⟨hx, hout, fun heq => hne heq.symm⟩
          · rintro ⟨hx, hout, hne⟩
            exact ⟨fun heq => hne heq.symm, hx, hout⟩
  exact hloop _ (Nat.le_refl _)

end FileHeader

end OsAssignments.Filesys
