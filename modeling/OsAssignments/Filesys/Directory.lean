import Mathlib.Data.List.Find
import OsAssignments.Lib.CString
import OsAssignments.Filesys.FlatFile

/-!
# Directories

`filesys/directory.cc`: a table of ten entries of 20 bytes, read from and
written to a file as raw memory. An entry is decoded by `entryAt`; all that is
proved about the operations is said of decoded entries.

- `findIndex_cases`, `add_cases`, `remove_cases` — each operation is one of a
  few cases.
- `writeBack_file`, `fetchFrom_file` — the table in a file.
- `isEmpty_iff` — a directory counts as empty when its entries are links.
-/

namespace OsAssignments.Filesys

/-! ## §1  Entries -/

def FileNameMaxLen : ℕ := 9

/-- `sizeof(DirectoryEntry)`. -/
def entrySize : ℕ := 20

/-- `bool inUse; int sector; char name[FileNameMaxLen + 1]; bool isDirectory;` -/
structure DirectoryEntry where
  inUse : Bool
  sector : ℤ
  name : List Byte
  isDirectory : Bool
  deriving DecidableEq

/-- The addresses of the fields of `table[i]`. -/
def inUseAt (i : ℕ) : ℕ := entrySize * i
def sectorAt (i : ℕ) : ℕ := entrySize * i + 4
def nameAt (i : ℕ) : ℕ := entrySize * i + 8
def isDirectoryAt (i : ℕ) : ℕ := entrySize * i + 18

/-- `table[i]` as the comparisons see it: of the name, the first
`FileNameMaxLen` characters. -/
def entryAt (table : ByteMem) (i : ℕ) : DirectoryEntry where
  inUse := table (inUseAt i) != 0
  sector := (table.word (sectorAt i)).toInt
  name := cstr table (nameAt i) FileNameMaxLen
  isDirectory := table (isDirectoryAt i) != 0

theorem entryAt_congr {table table' : ByteMem} {i : ℕ}
    (h : ∀ k < entrySize, table (entrySize * i + k) = table' (entrySize * i + k)) :
    entryAt table i = entryAt table' i := by
  have hword : table.word (sectorAt i) = table'.word (sectorAt i) :=
    ByteMem.word_congr fun k hk => by
      have := h (4 + k) (by simp only [entrySize]; omega)
      rwa [← Nat.add_assoc] at this
  have hname : cstr table (nameAt i) FileNameMaxLen =
      cstr table' (nameAt i) FileNameMaxLen :=
    cstr_congr fun k hk => by
      have := h (8 + k) (by simp only [entrySize, FileNameMaxLen] at *; omega)
      rwa [← Nat.add_assoc] at this
  have h₀ : table (inUseAt i) = table' (inUseAt i) := h 0 (by decide)
  have h₁ : table (isDirectoryAt i) = table' (isDirectoryAt i) := h 18 (by decide)
  rw [entryAt, entryAt, hword, hname, h₀, h₁]

/-- The name under which an entry is found. -/
def key (name : CString) : List Byte := name.chars.take FileNameMaxLen

/-- `"."` and `".."`. -/
def dot : CString := ⟨[0x2e], by decide⟩
def dotDot : CString := ⟨[0x2e, 0x2e], by decide⟩

def IsDots (name : List Byte) : Prop := name = dot.chars ∨ name = dotDot.chars

instance (name : List Byte) : Decidable (IsDots name) :=
  inferInstanceAs (Decidable (_ ∨ _))

/-! ## §2  The operations -/

structure Directory where
  tableSize : ℕ
  table : ByteMem

namespace Directory

/-- The constructor clears `inUse`, nothing else. -/
def new (size : ℕ) (junk : ByteMem) : Directory where
  tableSize := size
  table := (List.range size).foldl (fun table i => table.write (inUseAt i) [0]) junk

def fetchFrom (d : Directory) (disk : Disk) (file : OpenFile) (junk : ByteMem) :
    Option Directory :=
  (file.readAt disk junk d.table 0 (d.tableSize * entrySize : ℕ) 0).map
    fun (_, table) => { d with table }

def writeBack (d : Directory) (disk : Disk) (file : OpenFile) (junk : ByteMem) :
    Option Disk :=
  (file.writeAt disk junk d.table (d.tableSize * entrySize : ℕ) 0).map Prod.snd

def findIndex (d : Directory) (name : CString) : ℤ :=
  match (List.range d.tableSize).find? fun i =>
    d.table (inUseAt i) != 0 &&
      strncmp d.table (nameAt i) name.mem 0 FileNameMaxLen = 0 with
  | some i => i
  | none => -1

def find (d : Directory) (name : CString) : ℤ :=
  let i := d.findIndex name
  if i ≠ -1 then (d.table.word (sectorAt i.toNat)).toInt else -1

def findDirectory (d : Directory) (name : CString) : ℤ :=
  let i := d.findIndex name
  if i ≠ -1 ∧ d.table (isDirectoryAt i.toNat) != 0 then
    (d.table.word (sectorAt i.toNat)).toInt
  else -1

/-- What `Add` writes to the entry it has found. -/
def setEntry (table : ByteMem) (i : ℕ) (name : CString) (newSector : ℤ)
    (isDirectory : Bool) : ByteMem :=
  let table := table.write (inUseAt i) [1]
  let table := strncpy table (nameAt i) name FileNameMaxLen
  let table := table.setWord (sectorAt i) (.ofInt 32 newSector)
  table.write (isDirectoryAt i) [if isDirectory then 1 else 0]

def add (d : Directory) (name : CString) (newSector : ℤ) (isDirectory : Bool) :
    Bool × Directory :=
  if d.findIndex name ≠ -1 then (false, d)
  else
    match (List.range d.tableSize).find? fun i => d.table (inUseAt i) == 0 with
    | some i => (true, { d with table := setEntry d.table i name newSector isDirectory })
    | none => (false, d)

def remove (d : Directory) (name : CString) : Bool × Directory :=
  let i := d.findIndex name
  if i = -1 then (false, d)
  else (true, { d with table := d.table.write (inUseAt i.toNat) [0] })

def isEmpty (d : Directory) : Bool :=
  (List.range d.tableSize).all fun i =>
    !(d.table (inUseAt i) != 0 && strcmp d.table (nameAt i) dot != 0 &&
      strcmp d.table (nameAt i) dotDot != 0)

/-! ## §3  The entries after each operation -/

def entry (d : Directory) (i : ℕ) : DirectoryEntry := entryAt d.table i

@[simp] theorem tableSize_new (size : ℕ) (junk : ByteMem) :
    (new size junk).tableSize = size := rfl

theorem inUse_new (size : ℕ) (junk : ByteMem) {i : ℕ} (h : i < size) :
    ((new size junk).entry i).inUse = false := by
  have hfold : ∀ (n : ℕ) (i : ℕ), i < n →
      (List.range n).foldl (fun table i => table.write (inUseAt i) [0]) junk
        (inUseAt i) = 0 := by
    intro n
    induction n with
    | zero => exact fun i hi => absurd hi (Nat.not_lt_zero i)
    | succ n ih =>
        intro i hi
        rw [List.range_succ, List.foldl_append, List.foldl_cons, List.foldl_nil]
        by_cases hin : i = n
        · subst hin
          exact ByteMem.write_inside _ (inUseAt i) 0 [0] (by decide)
        · rw [ByteMem.write_outside _ _ _ _
            (by simp only [inUseAt, entrySize, List.length_singleton]; omega)]
          exact ih i (by omega)
  simp only [entry, entryAt, new, hfold size i h, bne_self_eq_false]

/-- What `FindIndex` looks for. -/
theorem findIndex_pred (d : Directory) (name : CString) (i : ℕ) :
    (d.table (inUseAt i) != 0 &&
      decide (strncmp d.table (nameAt i) name.mem 0 FileNameMaxLen = 0)) = true ↔
      (d.entry i).inUse = true ∧ (d.entry i).name = key name := by
  rw [Bool.and_eq_true, decide_eq_true_eq, strncmp_eq_zero, CString.cstr_mem, List.drop_zero]
  rfl

/-- **`FindIndex`** is the first entry in use with the name. -/
theorem findIndex_cases (d : Directory) (name : CString) :
    (∃ i : ℕ, d.findIndex name = i ∧ i < d.tableSize ∧ (d.entry i).inUse = true ∧
      (d.entry i).name = key name) ∨
    (d.findIndex name = -1 ∧
      ∀ i < d.tableSize, (d.entry i).inUse = true → (d.entry i).name ≠ key name) := by
  unfold findIndex
  cases hfind : (List.range d.tableSize).find? fun i => d.table (inUseAt i) != 0 &&
      decide (strncmp d.table (nameAt i) name.mem 0 FileNameMaxLen = 0) with
  | some i =>
      have hi := List.find?_some hfind
      obtain ⟨huse, hname⟩ := (d.findIndex_pred name i).mp hi
      exact Or.inl ⟨i, rfl, List.mem_range.mp (List.mem_of_find?_eq_some hfind), huse,
        hname⟩
  | none =>
      refine Or.inr ⟨rfl, fun i hi huse hname => ?_⟩
      exact List.find?_eq_none.mp hfind i (List.mem_range.mpr hi)
        ((d.findIndex_pred name i).mpr ⟨huse, hname⟩)

/-- What `Find` and `FindDirectory` return, from what `FindIndex` found. -/
theorem find_eq {d : Directory} {name : CString} {i : ℕ} (h : d.findIndex name = i) :
    d.find name = (d.entry i).sector := by
  have hne : (i : ℤ) ≠ -1 := by omega
  simp only [find, h, if_pos hne, Int.toNat_natCast]
  rfl

theorem find_none {d : Directory} {name : CString} (h : d.findIndex name = -1) :
    d.find name = -1 := by
  simp [find, h]

theorem findDirectory_eq {d : Directory} {name : CString} {i : ℕ}
    (h : d.findIndex name = i) :
    d.findDirectory name =
      if (d.entry i).isDirectory then (d.entry i).sector else -1 := by
  have hne : (i : ℤ) ≠ -1 := by omega
  simp only [findDirectory, h, ne_eq, hne, not_false_eq_true, true_and,
    Int.toNat_natCast]
  rfl

theorem findDirectory_none {d : Directory} {name : CString}
    (h : d.findIndex name = -1) : d.findDirectory name = -1 := by
  simp [findDirectory, h]

/-- Two tables with the same entries in use: the same names lead to the same sectors. -/
theorem find_congr {d d' : Directory} (hsize : d'.tableSize = d.tableSize)
    (h : ∀ i < d.tableSize, d'.entry i = d.entry i ∨
      (d'.entry i).inUse = false ∧ (d.entry i).inUse = false) (name : CString) :
    d'.find name = d.find name ∧ d'.findDirectory name = d.findDirectory name := by
  have hpred : ∀ i ∈ List.range d.tableSize,
      (d'.table (inUseAt i) != 0 &&
        decide (strncmp d'.table (nameAt i) name.mem 0 FileNameMaxLen = 0)) =
      (d.table (inUseAt i) != 0 &&
        decide (strncmp d.table (nameAt i) name.mem 0 FileNameMaxLen = 0)) := by
    intro i hi
    rw [Bool.eq_iff_iff, findIndex_pred, findIndex_pred]
    rcases h i (List.mem_range.mp hi) with heq | ⟨hfree', hfree⟩
    · rw [heq]
    · simp [hfree', hfree]
  have hindex : d'.findIndex name = d.findIndex name := by
    unfold findIndex
    rw [hsize, List.find?_congr hpred]
  rcases d.findIndex_cases name with ⟨i, hi, hlt, huse, -⟩ | ⟨hnone, -⟩
  · have heq : d'.entry i = d.entry i := by
      rcases h i hlt with heq | ⟨-, hfree⟩
      · exact heq
      · rw [hfree] at huse
        cases huse
    rw [find_eq hi, findDirectory_eq hi, find_eq (hindex.trans hi),
      findDirectory_eq (hindex.trans hi), heq]
    exact ⟨rfl, rfl⟩
  · rw [find_none hnone, findDirectory_none hnone, find_none (hindex.trans hnone),
      findDirectory_none (hindex.trans hnone)]
    exact ⟨rfl, rfl⟩

theorem setEntry_other {table : ByteMem} {i x : ℕ} {name : CString} {newSector : ℤ}
    {isDirectory : Bool} (h : x < entrySize * i ∨ entrySize * i + entrySize ≤ x) :
    setEntry table i name newSector isDirectory x = table x := by
  simp only [entrySize] at h
  simp only [setEntry]
  rw [ByteMem.write_outside _ _ _ _
      (by simp only [isDirectoryAt, entrySize, List.length_singleton]; omega),
    ByteMem.setWord_outside _ _ (by simp only [sectorAt, entrySize]; omega), strncpy,
    bcopy_outside _ _ _ (by simp only [nameAt, entrySize, FileNameMaxLen]; omega),
    ByteMem.write_outside _ _ _ _
      (by simp only [inUseAt, entrySize, List.length_singleton]; omega)]

theorem entryAt_setEntry (table : ByteMem) (i : ℕ) (name : CString) (newSector : ℤ)
    (isDirectory : Bool) :
    entryAt (setEntry table i name newSector isDirectory) i =
      ⟨true, (BitVec.ofInt 32 newSector).toInt, key name, isDirectory⟩ := by
  have huse : setEntry table i name newSector isDirectory (inUseAt i) = 1 := by
    simp only [setEntry]
    rw [ByteMem.write_outside _ _ _ _ (by simp only [isDirectoryAt, inUseAt]; omega),
      ByteMem.setWord_outside _ _ (by simp only [sectorAt, inUseAt]; omega), strncpy,
      bcopy_outside _ _ _ (by simp only [nameAt, inUseAt]; omega)]
    exact ByteMem.write_inside _ (inUseAt i) 0 [1] (by decide)
  have hdir : setEntry table i name newSector isDirectory (isDirectoryAt i) =
      if isDirectory then 1 else 0 :=
    ByteMem.write_inside _ (isDirectoryAt i) 0 [if isDirectory then 1 else 0] (by simp)
  have hsector : (setEntry table i name newSector isDirectory).word (sectorAt i) =
      .ofInt 32 newSector := by
    simp only [setEntry]
    rw [ByteMem.word_congr fun k hk => ByteMem.write_outside
      (ByteMem.setWord _ (sectorAt i) (.ofInt 32 newSector)) _ _ _
        (by simp only [isDirectoryAt, sectorAt]; omega)]
    exact ByteMem.word_setWord _ _ _
  have hname : cstr (setEntry table i name newSector isDirectory) (nameAt i)
      FileNameMaxLen = key name := by
    rw [key, ← cstr_strncpy (table.write (inUseAt i) [1]) (nameAt i)]
    refine cstr_congr fun k hk => ?_
    simp only [setEntry]
    simp only [FileNameMaxLen] at hk
    rw [ByteMem.write_outside _ _ _ _ (by simp only [isDirectoryAt, nameAt]; omega),
      ByteMem.setWord_outside _ _ (by simp only [sectorAt, nameAt]; omega)]
  rw [entryAt, huse, hdir, hsector, hname]
  cases isDirectory <;> rfl

/-- What `Add` looks for. -/
theorem unused_iff (d : Directory) (i : ℕ) :
    (d.table (inUseAt i) == 0) = true ↔ (d.entry i).inUse = false := by
  simp [entry, entryAt]

/-- **`Add`** fills the first free entry, unless the name is there or no entry is
free. -/
theorem add_cases (d : Directory) (name : CString) (newSector : ℤ)
    (isDirectory : Bool) :
    (d.findIndex name ≠ -1 ∧ d.add name newSector isDirectory = (false, d)) ∨
    (d.findIndex name = -1 ∧ d.add name newSector isDirectory = (false, d) ∧
      ∀ i < d.tableSize, (d.entry i).inUse = true) ∨
    ∃ i d', d.findIndex name = -1 ∧ d.add name newSector isDirectory = (true, d') ∧
      i < d.tableSize ∧ (d.entry i).inUse = false ∧
      (∀ j < i, (d.entry j).inUse = true) ∧ d'.tableSize = d.tableSize ∧
      d'.entry i = ⟨true, (BitVec.ofInt 32 newSector).toInt, key name, isDirectory⟩ ∧
      ∀ j ≠ i, d'.entry j = d.entry j := by
  unfold add
  by_cases hname : d.findIndex name = -1
  · rw [if_neg (not_not.mpr hname)]
    cases hfind : (List.range d.tableSize).find? fun i => d.table (inUseAt i) == 0 with
    | none =>
        refine Or.inr (Or.inl ⟨hname, rfl, fun i hi => ?_⟩)
        have := List.find?_eq_none.mp hfind i (List.mem_range.mpr hi)
        rw [unused_iff] at this
        simpa using this
    | some i =>
        have hfree := List.find?_some hfind
        refine Or.inr (Or.inr ⟨i, _, hname, rfl,
          List.mem_range.mp (List.mem_of_find?_eq_some hfind),
          (d.unused_iff i).mp hfree, fun j hj => ?_, rfl,
          entryAt_setEntry _ _ _ _ _, fun j hj => ?_⟩)
        · have := List.find?_range_eq_some.mp hfind
          have hnot := this.2.2 j hj
          rw [Bool.not_eq_true', ← Bool.not_eq_true, unused_iff] at hnot
          simpa using hnot
        · refine entryAt_congr fun k hk => setEntry_other ?_
          simp only [entrySize] at *
          omega
  · exact Or.inl ⟨hname, by rw [if_pos hname]⟩

/-- `Add` writes to the first free entry only. -/
theorem add_other {d d' : Directory} {name : CString} {newSector : ℤ} {isDirectory : Bool}
    (h : d.add name newSector isDirectory = (true, d')) {i : ℕ} (hi : i < d.tableSize)
    (hfree : (d.entry i).inUse = false) (hfirst : ∀ j < i, (d.entry j).inUse = true) {x : ℕ}
    (hx : x < entrySize * i ∨ entrySize * i + entrySize ≤ x) : d'.table x = d.table x := by
  have hfind : ((List.range d.tableSize).find? fun j => d.table (inUseAt j) == 0) = some i := by
    refine List.find?_range_eq_some.mpr
      ⟨(d.unused_iff i).mpr hfree, List.mem_range.mpr hi, fun j hj => ?_⟩
    rw [Bool.not_eq_true', ← Bool.not_eq_true, unused_iff, hfirst j hj]
    exact Bool.noConfusion
  unfold add at h
  split at h
  · cases h
  · rw [hfind] at h
    cases h
    exact setEntry_other hx

/-- **`Remove`** frees the entry that `FindIndex` finds. -/
theorem remove_cases (d : Directory) (name : CString) :
    (d.findIndex name = -1 ∧ d.remove name = (false, d)) ∨
    ∃ (i : ℕ) (d' : Directory), d.findIndex name = i ∧ i < d.tableSize ∧
      d.remove name = (true, d') ∧ d'.tableSize = d.tableSize ∧
      d'.entry i = { d.entry i with inUse := false } ∧
      ∀ j ≠ i, d'.entry j = d.entry j := by
  rcases d.findIndex_cases name with ⟨i, hi, hlt, -, -⟩ | ⟨hnone, -⟩
  · refine Or.inr ⟨i, { d with table := d.table.write (inUseAt i) [0] }, hi, hlt, ?_, rfl,
      ?_, fun j hj => ?_⟩
    · rw [remove, hi]
      simp only [show ¬ (i : ℤ) = -1 by omega, if_false, Int.toNat_natCast]
    · have hword : (d.table.write (inUseAt i) [0]).word (sectorAt i) =
          d.table.word (sectorAt i) :=
        ByteMem.word_congr fun k hk => ByteMem.write_outside _ _ _ _
          (by simp only [sectorAt, inUseAt, List.length_singleton]; omega)
      have hname : cstr (d.table.write (inUseAt i) [0]) (nameAt i) FileNameMaxLen =
          cstr d.table (nameAt i) FileNameMaxLen :=
        cstr_congr fun k hk => ByteMem.write_outside _ _ _ _
          (by simp only [nameAt, inUseAt, List.length_singleton]; omega)
      have huse : d.table.write (inUseAt i) [0] (inUseAt i) = 0 :=
        ByteMem.write_inside _ (inUseAt i) 0 [0] (by decide)
      have hdir : d.table.write (inUseAt i) [0] (isDirectoryAt i) =
          d.table (isDirectoryAt i) :=
        ByteMem.write_outside _ _ _ _
          (by simp only [isDirectoryAt, inUseAt, List.length_singleton]; omega)
      simp only [entry, entryAt, hword, hname, huse, hdir, bne_self_eq_false]
    · refine entryAt_congr fun k hk => ByteMem.write_outside _ _ _ _ ?_
      simp only [inUseAt, entrySize, List.length_singleton] at *
      omega
  · exact Or.inl ⟨hnone, by simp [remove, hnone]⟩

/-- A directory is empty when every entry in use is named like a link. -/
theorem isEmpty_iff (d : Directory) :
    d.isEmpty = true ↔
      ∀ i < d.tableSize, (d.entry i).inUse = true → IsDots (d.entry i).name := by
  have hdot : ∀ (i : ℕ) (t : CString), t.chars.length < FileNameMaxLen →
      (strcmp d.table (nameAt i) t = 0 ↔ (d.entry i).name = t.chars) := by
    intro i t ht
    rw [strcmp_eq_zero]
    exact cstr_eq_of_length_lt (by omega) ht
  rw [isEmpty, List.all_eq_true]
  simp only [List.mem_range, Bool.not_eq_true', Bool.and_eq_false_iff, bne_eq_false_iff_eq]
  refine forall_congr' fun i => imp_congr_right fun _ => ?_
  rw [hdot i dot (by decide), hdot i dotDot (by decide), IsDots]
  have huse : (d.entry i).inUse = true ↔ ¬ d.table (inUseAt i) = 0 := by
    simp [entry, entryAt]
  rw [huse]
  tauto

/-! ## §4  In a file -/

section

variable {d : Directory} {file : OpenFile} {len : ℕ} (hfits : file.hdr.Fits len)
  (hlen : d.tableSize * entrySize ≤ len)

include hfits hlen

/-- The table written to a file with room for it; what the file has behind it, and the
other sectors, stay as they were. -/
theorem writeBack_file (disk : Disk) (junk : ByteMem) :
    ∃ disk', d.writeBack disk file junk = some disk' ∧
      (∀ x < len, contents disk' file.hdr x =
        if x < d.tableSize * entrySize then d.table x else contents disk file.hdr x) ∧
      ∀ x, (∀ i < divRoundUp len SectorSize,
        (file.hdr.dataSectors i).toNat ≠ x / SectorSize) → disk' x = disk x := by
  have hsum : Representable len (d.tableSize * entrySize : ℕ) 0 :=
    hfits.representable_inside (by omega)
  obtain ⟨disk', hwrite, hin, hout⟩ := OpenFile.writeAt_spec disk hfits junk d.table hsum
  have hk : transferred len (d.tableSize * entrySize : ℕ) 0 = d.tableSize * entrySize := by
    simp only [transferred]
    omega
  refine ⟨disk', by rw [writeBack, hwrite, Option.map_some], fun x hx => ?_, hout⟩
  rw [hin x hx, hk, Nat.sub_zero, Nat.zero_add]
  simp only [Nat.zero_le, true_and]

/-- The table read from a file that has it. -/
theorem fetchFrom_file (disk : Disk) (junk : ByteMem) :
    d.fetchFrom disk file junk = some { d with
      table := bcopy (contents disk file.hdr) 0 d.table 0 (d.tableSize * entrySize) } := by
  have hk : transferred len (d.tableSize * entrySize : ℕ) 0 = d.tableSize * entrySize := by
    simp only [transferred]
    omega
  rw [fetchFrom, OpenFile.readAt_eq disk hfits _ _ _
    (hfits.representable_inside (by omega)), hk]
  rfl

end

/-- Equal tables have equal entries. -/
theorem entry_congr {d d' : Directory}
    (h : ∀ x < d.tableSize * entrySize, d'.table x = d.table x) {i : ℕ}
    (hi : i < d.tableSize) : d'.entry i = d.entry i := by
  refine entryAt_congr fun k hk => h _ ?_
  have hmul := Nat.mul_le_mul_left entrySize hi
  rw [Nat.mul_succ, Nat.mul_comm entrySize d.tableSize] at hmul
  omega

end Directory

end OsAssignments.Filesys
