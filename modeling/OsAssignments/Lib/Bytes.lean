import Mathlib.Data.List.Basic
import Mathlib.Tactic.Common

/-!
# Byte-addressed memories and random-access files

A memory is a function from addresses to bytes; `read` and `write` move whole
blocks. A file is a length and a memory: writing past the end extends the file
with zeros, reading stops at the end. The lemmas are the frame rules of both:
a block read back is the block written, and a disjoint block is unchanged.
Words are stored least significant byte first.
-/

abbrev Byte : Type := BitVec 8

/-! ## Memories -/

abbrev ByteMem : Type := ℕ → Byte

namespace ByteMem

/-- The `n` bytes from address `a`. -/
def read (m : ByteMem) (a n : ℕ) : List Byte :=
  (List.range n).map fun i => m (a + i)

/-- Store a block of bytes from address `a`. -/
def write (m : ByteMem) (a : ℕ) (bs : List Byte) : ByteMem := fun x =>
  if a ≤ x ∧ x < a + bs.length then bs.getD (x - a) 0 else m x

@[simp] theorem length_read (m : ByteMem) (a n : ℕ) :
    (m.read a n).length = n := by simp [read]

theorem getD_read (m : ByteMem) (a n i : ℕ) (h : i < n) :
    (m.read a n).getD i 0 = m (a + i) := by
  simp [read, List.getD_eq_getElem?_getD, h]

theorem write_inside (m : ByteMem) (a i : ℕ) (bs : List Byte)
    (h : i < bs.length) : m.write a bs (a + i) = bs.getD i 0 := by
  simp [write, h]

theorem write_outside (m : ByteMem) (a x : ℕ) (bs : List Byte)
    (h : x < a ∨ a + bs.length ≤ x) : m.write a bs x = m x := by
  have : ¬ (a ≤ x ∧ x < a + bs.length) := by omega
  simp [write, this]

theorem read_congr {m m' : ByteMem} {a n : ℕ}
    (h : ∀ i < n, m (a + i) = m' (a + i)) : m.read a n = m'.read a n := by
  simp only [read, List.map_inj_left, List.mem_range]
  exact h

theorem read_add (m : ByteMem) (a n k : ℕ) :
    m.read a (n + k) = m.read a n ++ m.read (a + n) k := by
  simp only [read, List.range_add, List.map_append, List.map_map, Function.comp_def,
    Nat.add_assoc]

theorem drop_read (m : ByteMem) (a n k : ℕ) :
    (m.read a n).drop k = m.read (a + k) (n - k) := by
  apply List.ext_getElem
  · simp
  · intro i h₁ h₂
    simp [read, Nat.add_assoc]

theorem take_read (m : ByteMem) (a n k : ℕ) : (m.read a n).take k = m.read a (min k n) := by
  apply List.ext_getElem
  · simp
  · intro i h₁ h₂
    simp [read]

/-- A block read back is the block written. -/
@[simp] theorem read_write (m : ByteMem) (a : ℕ) (bs : List Byte) :
    (m.write a bs).read a bs.length = bs := by
  apply List.ext_getElem
  · simp
  · intro i hi _
    have hi' : i < bs.length := by simpa using hi
    simp [read, write_inside m a i bs hi', hi']

/-- A disjoint block is not changed by a write. -/
theorem read_write_disjoint (m : ByteMem) {a b n : ℕ} {bs : List Byte}
    (h : b + n ≤ a ∨ a + bs.length ≤ b) :
    (m.write a bs).read b n = m.read b n :=
  read_congr fun i hi => write_outside m a (b + i) bs (by omega)

end ByteMem

/-! ## Copying -/

/-- Copy `n` bytes of `src` from address `a` to address `b` of `dst`. -/
def bcopy (src : ByteMem) (a : ℕ) (dst : ByteMem) (b n : ℕ) : ByteMem := fun x =>
  if b ≤ x ∧ x < b + n then src (a + (x - b)) else dst x

theorem bcopy_inside (src dst : ByteMem) (a : ℕ) {b n x : ℕ} (h : b ≤ x)
    (h' : x < b + n) : bcopy src a dst b n x = src (a + (x - b)) := by
  simp [bcopy, h, h']

theorem bcopy_outside (src dst : ByteMem) (a : ℕ) {b n x : ℕ}
    (h : x < b ∨ b + n ≤ x) : bcopy src a dst b n x = dst x := by
  have : ¬ (b ≤ x ∧ x < b + n) := by omega
  simp [bcopy, this]

theorem bcopy_zero (src dst : ByteMem) (a : ℕ) {n x : ℕ} (h : x < n) :
    bcopy src a dst 0 n x = src (a + x) := by
  rw [bcopy_inside _ _ _ (Nat.zero_le x) (by omega), Nat.sub_zero]

/-- A copy reads as what was copied. -/
theorem read_bcopy (src dst : ByteMem) (a b n : ℕ) :
    (bcopy src a dst b n).read b n = src.read a n := by
  refine List.map_congr_left fun i hi => ?_
  rw [List.mem_range] at hi
  rw [bcopy_inside _ _ _ (Nat.le_add_right b i) (by omega), Nat.add_sub_cancel_left]

/-! ## Random-access files -/

/-- A file: its length and its bytes (only those below the length count). -/
structure RandomAccessFile where
  size : ℕ
  data : ByteMem

namespace RandomAccessFile

def empty : RandomAccessFile := ⟨0, fun _ => 0⟩

/-- Write a block at an offset; a gap before it is filled with zeros. -/
def fwrite (f : RandomAccessFile) (off : ℕ) (bs : List Byte) :
    RandomAccessFile where
  size := max f.size (off + bs.length)
  data := ByteMem.write (fun x => if x < f.size then f.data x else 0) off bs

/-- Read at most `n` bytes at an offset; the file may end before. -/
def fread (f : RandomAccessFile) (off n : ℕ) : List Byte :=
  f.data.read off (min n (f.size - off))

theorem length_fread (f : RandomAccessFile) (off n : ℕ) :
    (f.fread off n).length = min n (f.size - off) := by simp [fread]

theorem fread_eq_read {f : RandomAccessFile} {off n : ℕ}
    (h : off + n ≤ f.size) : f.fread off n = f.data.read off n := by
  rw [fread, Nat.min_eq_left (by omega)]

theorem size_fwrite (f : RandomAccessFile) (off : ℕ) (bs : List Byte) :
    (f.fwrite off bs).size = max f.size (off + bs.length) := rfl

theorem data_fwrite (f : RandomAccessFile) (off : ℕ) (bs : List Byte) :
    (f.fwrite off bs).data =
      ByteMem.write (fun x => if x < f.size then f.data x else 0) off bs := rfl

/-- A block of the file that the write does not touch is still there. -/
theorem data_fwrite_outside {f : RandomAccessFile} {off x : ℕ}
    {bs : List Byte} (hx : x < f.size)
    (h : x < off ∨ off + bs.length ≤ x) :
    (f.fwrite off bs).data x = f.data x := by
  rw [data_fwrite, ByteMem.write_outside _ off x bs h, if_pos hx]

theorem data_fwrite_inside (f : RandomAccessFile) (off i : ℕ)
    (bs : List Byte) (h : i < bs.length) :
    (f.fwrite off bs).data (off + i) = bs.getD i 0 := by
  rw [data_fwrite, ByteMem.write_inside _ off i bs h]

end RandomAccessFile

/-! ## Words, least significant byte first -/

/-- The four bytes of a word. -/
def wordBytes (w : BitVec 32) : List Byte :=
  [w.extractLsb' 0 8, w.extractLsb' 8 8, w.extractLsb' 16 8, w.extractLsb' 24 8]

@[simp] theorem length_wordBytes (w : BitVec 32) : (wordBytes w).length = 4 :=
  rfl

/-- The word of four bytes (missing ones count as zero). -/
def bytesWord (bs : List Byte) : BitVec 32 :=
  (bs.getD 3 0 ++ bs.getD 2 0 ++ bs.getD 1 0 ++ bs.getD 0 0 : BitVec (8 + 8 + 8 + 8))

/-- The half-word of two bytes. -/
def bytesHalf (bs : List Byte) : BitVec 16 :=
  (bs.getD 1 0 ++ bs.getD 0 0 : BitVec (8 + 8))

theorem bytesHalf_read {m : ByteMem} {a n : ℕ} (h : 2 ≤ n) :
    bytesHalf (m.read a n) = bytesHalf (m.read a 2) := by
  rw [bytesHalf, bytesHalf, ByteMem.getD_read _ _ _ _ (by omega),
    ByteMem.getD_read _ _ _ _ (by omega), ByteMem.getD_read _ _ _ _ (by omega),
    ByteMem.getD_read _ _ _ _ (by omega)]

theorem bytesWord_wordBytes (w : BitVec 32) : bytesWord (wordBytes w) = w := by
  apply BitVec.eq_of_getLsbD_eq
  intro i hi
  simp only [bytesWord, wordBytes, List.getD_cons_zero, List.getD_cons_succ,
    BitVec.getLsbD_append, BitVec.getLsbD_extractLsb']
  split
  · simp [*]
  · split
    · simp only [show i - 8 < 8 by omega, decide_true, Bool.true_and]
      congr 1
      omega
    · split
      · simp only [show i - 8 - 8 < 8 by omega, decide_true, Bool.true_and]
        congr 1
        omega
      · simp only [show i - 8 - 8 - 8 < 8 by omega, decide_true, Bool.true_and]
        congr 1
        omega

/-- Byte `i` of the word of four bytes. -/
theorem extractLsb'_bytesWord (bs : List Byte) {i : ℕ} (h : i < 4) :
    (bytesWord bs).extractLsb' (8 * i) 8 = bs.getD i 0 := by
  apply BitVec.eq_of_getLsbD_eq
  intro k hk
  simp only [bytesWord, BitVec.getLsbD_extractLsb', BitVec.getLsbD_append, hk,
    decide_true, Bool.true_and]
  match i, h with
  | 0, _ => simp [hk]
  | 1, _ => simp [show ¬ 8 + k < 8 by omega, hk]
  | 2, _ =>
      simp [show ¬ 16 + k < 8 by omega, show ¬ 16 + k - 8 < 8 by omega,
        show 16 + k - 8 - 8 = k by omega, hk]
  | 3, _ =>
      simp [show ¬ 24 + k < 8 by omega, show ¬ 24 + k - 8 < 8 by omega,
        show ¬ 24 + k - 8 - 8 < 8 by omega, show 24 + k - 8 - 8 - 8 = k by omega]

namespace ByteMem

/-- The word at address `a`. -/
def word (m : ByteMem) (a : ℕ) : BitVec 32 := bytesWord (m.read a 4)

def setWord (m : ByteMem) (a : ℕ) (w : BitVec 32) : ByteMem := m.write a (wordBytes w)

@[simp] theorem word_setWord (m : ByteMem) (a : ℕ) (w : BitVec 32) :
    (m.setWord a w).word a = w := by
  have h := read_write m a (wordBytes w)
  rw [length_wordBytes] at h
  rw [word, setWord, h, bytesWord_wordBytes]

theorem word_setWord_disjoint (m : ByteMem) {a b : ℕ} (w : BitVec 32)
    (h : b + 4 ≤ a ∨ a + 4 ≤ b) : (m.setWord a w).word b = m.word b := by
  rw [word, setWord, read_write_disjoint m (by simpa using h), word]

theorem setWord_outside (m : ByteMem) {a x : ℕ} (w : BitVec 32)
    (h : x < a ∨ a + 4 ≤ x) : m.setWord a w x = m x :=
  write_outside m a x _ (by simpa using h)

theorem word_congr {m m' : ByteMem} {a : ℕ} (h : ∀ i < 4, m (a + i) = m' (a + i)) :
    m.word a = m'.word a := by
  rw [word, word, read_congr h]

end ByteMem
