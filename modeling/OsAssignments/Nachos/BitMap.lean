import Mathlib.Data.Finset.Card
import Mathlib.Tactic.Common

/-!
# The Nachos bitmap

`userprog/bitmap.cc`, the same file in the three Nachos trees: an array of
32-bit words, one bit per frame or per disk sector. `mark`, `clear` and `test`
are partial because their `ASSERT` aborts on an index out of range; `find`
never leaves the range.

Everything above this file sees a bitmap through `testBit` only: the words
enter in `testBit_setBit` and `testBit_clearBit` and nowhere else.
-/

namespace OsAssignments

/-- The macro of `threads/utility.h`, on naturals. -/
def divRoundUp (n s : ℕ) : ℕ := n / s + if n % s > 0 then 1 else 0

theorem le_divRoundUp_mul {n s : ℕ} (hs : 0 < s) : n ≤ divRoundUp n s * s := by
  have h := Nat.div_add_mod n s
  have hlt := Nat.mod_lt n hs
  rw [divRoundUp, Nat.add_mul, Nat.mul_comm (n / s) s]
  split <;> omega

theorem div_lt_divRoundUp {n s i : ℕ} (hs : 0 < s) (h : i < n) :
    i / s < divRoundUp n s :=
  Nat.div_lt_of_lt_mul (by
    rw [Nat.mul_comm]
    exact Nat.lt_of_lt_of_le h (le_divRoundUp_mul hs))

theorem divRoundUp_le {n s k : ℕ} (h : n ≤ k * s) : divRoundUp n s ≤ k := by
  rw [divRoundUp]
  split
  · rename_i hmod
    have hne : n ≠ k * s := by
      rintro rfl
      rw [Nat.mul_mod_left] at hmod
      exact Nat.lt_irrefl 0 hmod
    exact Nat.div_lt_of_lt_mul (by rw [Nat.mul_comm]; omega)
  · exact Nat.div_le_of_le_mul (by rwa [Nat.mul_comm])

theorem divRoundUp_mono {n n' s : ℕ} (hs : 0 < s) (h : n ≤ n') :
    divRoundUp n s ≤ divRoundUp n' s :=
  divRoundUp_le (Nat.le_trans h (le_divRoundUp_mul hs))

def BitsInWord : ℕ := 32

structure BitMap where
  numBits : ℕ
  map : List (BitVec 32)
  length_map : map.length = divRoundUp numBits BitsInWord

namespace BitMap

/-! ## The operations -/

/-- All bits clear. (The padding bits of the last word, which the constructor
leaves alone, are never looked at.) -/
def new (nitems : ℕ) : BitMap where
  numBits := nitems
  map := List.replicate (divRoundUp nitems BitsInWord) 0
  length_map := List.length_replicate

/-- Mask of one bit inside its word: `1 << (which % BitsInWord)`. -/
def mask (which : ℕ) : BitVec 32 := 1#32 <<< (which % BitsInWord)

def testBit (b : BitMap) (which : ℕ) : Bool :=
  b.map.getD (which / BitsInWord) 0 &&& mask which != 0

def setBit (b : BitMap) (which : ℕ) : BitMap where
  numBits := b.numBits
  map := b.map.modify (which / BitsInWord) fun w => w ||| mask which
  length_map := by rw [List.length_modify, b.length_map]

def clearBit (b : BitMap) (which : ℕ) : BitMap where
  numBits := b.numBits
  map := b.map.modify (which / BitsInWord) fun w => w &&& ~~~ mask which
  length_map := by rw [List.length_modify, b.length_map]

/-- The `ASSERT` of `Mark`, `Clear` and `Test`. -/
def InRange (b : BitMap) (which : ℤ) : Prop := 0 ≤ which ∧ which < b.numBits

instance (b : BitMap) (which : ℤ) : Decidable (b.InRange which) :=
  inferInstanceAs (Decidable (_ ∧ _))

def mark (b : BitMap) (which : ℤ) : Option BitMap :=
  if b.InRange which then some (b.setBit which.toNat) else none

def clear (b : BitMap) (which : ℤ) : Option BitMap :=
  if b.InRange which then some (b.clearBit which.toNat) else none

def test (b : BitMap) (which : ℤ) : Option Bool :=
  if b.InRange which then some (b.testBit which.toNat) else none

/-- First clear bit, marked on the way; `none` is the source's `-1`. -/
def find (b : BitMap) : Option ℕ × BitMap :=
  match (List.range b.numBits).find? fun i => !b.testBit i with
  | some i => (some i, b.setBit i)
  | none => (none, b)

def numClear (b : BitMap) : ℕ :=
  (List.range b.numBits).countP fun i => !b.testBit i

/-! ## Bits of the words -/

theorem getLsbD_mask (which k : ℕ) :
    (mask which).getLsbD k = decide (k = which % BitsInWord) := by
  have hw : which % BitsInWord < 32 := Nat.mod_lt _ (by decide)
  by_cases h : k = which % BitsInWord
  · subst h
    simp [mask, hw]
  · simp only [mask, BitVec.getLsbD_shiftLeft, BitVec.getLsbD_one, h, decide_false]
    by_cases hk : k < which % BitsInWord
    · simp [hk]
    · have : k - which % BitsInWord ≠ 0 := by omega
      simp [this]

theorem testBit_eq_getLsbD (b : BitMap) (which : ℕ) :
    b.testBit which =
      (b.map.getD (which / BitsInWord) 0).getLsbD (which % BitsInWord) := by
  have hw : which % BitsInWord < 32 := Nat.mod_lt _ (by decide)
  rw [testBit, Bool.eq_iff_iff, bne_iff_ne]
  constructor
  · intro h
    by_contra hz
    apply h
    apply BitVec.eq_of_getLsbD_eq
    intro k _
    rw [BitVec.getLsbD_and, getLsbD_mask]
    by_cases hk : k = which % BitsInWord
    · subst hk
      simpa using hz
    · simp [hk]
  · intro h hz
    have hbit := congrArg (fun w => w.getLsbD (which % BitsInWord)) hz
    rw [BitVec.getLsbD_and, h, getLsbD_mask] at hbit
    simp at hbit

/-- Two indices name the same bit only if they agree on word and position. -/
theorem word_bit_inj {i j : ℕ} (hw : i / BitsInWord = j / BitsInWord)
    (hb : i % BitsInWord = j % BitsInWord) : i = j := by
  rw [← Nat.div_add_mod i BitsInWord, hw, hb, Nat.div_add_mod]

theorem getD_modify {α : Type*} (l : List α) (i j : ℕ) (f : α → α) (d : α)
    (h : i < l.length) :
    (l.modify i f).getD j d = if i = j then f (l.getD j d) else l.getD j d := by
  rw [List.getD_eq_getElem?_getD, List.getElem?_modify,
    List.getD_eq_getElem?_getD]
  by_cases hij : i = j
  · subst hij
    simp [h]
  · simp [hij]

theorem word_lt_length {b : BitMap} {i : ℕ} (h : i < b.numBits) :
    i / BitsInWord < b.map.length := by
  rw [b.length_map]
  exact div_lt_divRoundUp (by decide) h

/-- A word is replaced by one that differs from it at bit `i` only. -/
theorem getLsbD_modify {l : List (BitVec 32)} {i : ℕ} (h : i / BitsInWord < l.length)
    {f : BitVec 32 → BitVec 32}
    (hf : ∀ w k, k < 32 → k ≠ i % BitsInWord → (f w).getLsbD k = w.getLsbD k) (j : ℕ) :
    ((l.modify (i / BitsInWord) f).getD (j / BitsInWord) 0).getLsbD (j % BitsInWord) =
      if i = j then (f (l.getD (j / BitsInWord) 0)).getLsbD (j % BitsInWord)
      else (l.getD (j / BitsInWord) 0).getLsbD (j % BitsInWord) := by
  rw [getD_modify _ _ _ _ _ h]
  by_cases hij : i = j
  · rw [if_pos hij, if_pos (by rw [hij])]
  · rw [if_neg hij]
    split
    · rename_i hword
      exact hf _ _ (Nat.mod_lt _ (by decide)) fun hbit => hij (word_bit_inj hword hbit.symm)
    · rfl

theorem testBit_setBit {b : BitMap} {i : ℕ} (h : i < b.numBits) (j : ℕ) :
    (b.setBit i).testBit j = (decide (i = j) || b.testBit j) := by
  have hmask : ∀ (w : BitVec 32) k, k < 32 → k ≠ i % BitsInWord →
      (w ||| mask i).getLsbD k = w.getLsbD k := by
    intro w k _ hk
    simp [getLsbD_mask, hk]
  rw [testBit_eq_getLsbD, testBit_eq_getLsbD, setBit, getLsbD_modify (word_lt_length h) hmask]
  by_cases hij : i = j
  · subst hij
    simp [getLsbD_mask]
  · simp [hij]

theorem testBit_clearBit {b : BitMap} {i : ℕ} (h : i < b.numBits) (j : ℕ) :
    (b.clearBit i).testBit j = (!decide (i = j) && b.testBit j) := by
  have hmask : ∀ (w : BitVec 32) k, k < 32 → k ≠ i % BitsInWord →
      (w &&& ~~~ mask i).getLsbD k = w.getLsbD k := by
    intro w k hlt hk
    rw [BitVec.getLsbD_and, BitVec.getLsbD_not, getLsbD_mask]
    simp [hk, hlt]
  rw [testBit_eq_getLsbD, testBit_eq_getLsbD, clearBit, getLsbD_modify (word_lt_length h) hmask]
  by_cases hij : i = j
  · subst hij
    simp [getLsbD_mask]
  · simp [hij]

@[simp] theorem testBit_new (n i : ℕ) : (new n).testBit i = false := by
  rw [testBit_eq_getLsbD]
  simp only [new, List.getD_eq_getElem?_getD, List.getElem?_replicate]
  split <;> simp

@[simp] theorem numBits_new (n : ℕ) : (new n).numBits = n := rfl

@[simp] theorem numBits_setBit (b : BitMap) (i : ℕ) :
    (b.setBit i).numBits = b.numBits := rfl

@[simp] theorem numBits_clearBit (b : BitMap) (i : ℕ) :
    (b.clearBit i).numBits = b.numBits := rfl

/-! ## The partial operations, inside the range -/

theorem mark_natCast {b : BitMap} {i : ℕ} (h : i < b.numBits) :
    b.mark i = some (b.setBit i) := by
  rw [mark, if_pos ⟨by omega, by omega⟩, Int.toNat_natCast]

theorem clear_natCast {b : BitMap} {i : ℕ} (h : i < b.numBits) :
    b.clear i = some (b.clearBit i) := by
  rw [clear, if_pos ⟨by omega, by omega⟩, Int.toNat_natCast]

theorem test_natCast {b : BitMap} {i : ℕ} (h : i < b.numBits) :
    b.test i = some (b.testBit i) := by
  rw [test, if_pos ⟨by omega, by omega⟩, Int.toNat_natCast]

/-! ## Finding a clear bit -/

/-- **What `Find` can do**: hand out the first clear bit and mark it, or find
every bit marked and change nothing. -/
theorem find_cases (b : BitMap) :
    (∃ i, b.find = (some i, b.setBit i) ∧ i < b.numBits ∧
      b.testBit i = false ∧ ∀ j < i, b.testBit j = true) ∨
    (b.find = (none, b) ∧ ∀ i < b.numBits, b.testBit i = true) := by
  unfold find
  cases h : (List.range b.numBits).find? fun i => !b.testBit i with
  | none =>
      right
      refine ⟨rfl, fun i hi => ?_⟩
      have := List.find?_eq_none.mp h i (List.mem_range.mpr hi)
      simpa using this
  | some i =>
      left
      have hmem := List.mem_range.mp (List.mem_of_find?_eq_some h)
      have hclear := List.find?_some h
      refine ⟨i, rfl, hmem, by simpa using hclear, fun j hj => ?_⟩
      have := List.find?_range_eq_some.mp h
      simpa using this.2.2 j hj

/-! ## Counting the clear bits -/

/-- The clear bits, as a set: what `NumClear` counts. -/
def clearSet (b : BitMap) : Finset ℕ :=
  (Finset.range b.numBits).filter fun i => b.testBit i = false

theorem mem_clearSet {b : BitMap} {i : ℕ} :
    i ∈ b.clearSet ↔ i < b.numBits ∧ b.testBit i = false := by
  simp [clearSet]

theorem numClear_eq_card (b : BitMap) : b.numClear = b.clearSet.card := by
  rw [numClear, List.countP_eq_length_filter, clearSet, Finset.card_def,
    Finset.filter_val, Finset.range_val]
  simp [Multiset.range, Multiset.filter_coe]

theorem clearSet_setBit {b : BitMap} {i : ℕ} (h : i < b.numBits) :
    (b.setBit i).clearSet = b.clearSet.erase i := by
  ext j
  rw [mem_clearSet, Finset.mem_erase, mem_clearSet, testBit_setBit h]
  simp only [numBits_setBit, Bool.or_eq_false_iff, decide_eq_false_iff_not]
  tauto

/-- As long as one bit is clear `Find` succeeds and leaves one clear bit less. -/
theorem find_of_numClear_pos {b : BitMap} (h : 0 < b.numClear) :
    ∃ i, b.find = (some i, b.setBit i) ∧ i < b.numBits ∧
      b.testBit i = false ∧ (b.setBit i).numClear = b.numClear - 1 := by
  rcases find_cases b with ⟨i, hfind, hi, hclear, -⟩ | ⟨-, hall⟩
  · refine ⟨i, hfind, hi, hclear, ?_⟩
    rw [numClear_eq_card, clearSet_setBit hi,
      Finset.card_erase_of_mem (mem_clearSet.mpr ⟨hi, hclear⟩), numClear_eq_card]
  · rw [numClear_eq_card, Finset.card_pos] at h
    obtain ⟨i, hi⟩ := h
    obtain ⟨hlt, hclear⟩ := mem_clearSet.mp hi
    rw [hall i hlt] at hclear
    exact Bool.noConfusion hclear

end BitMap

end OsAssignments
