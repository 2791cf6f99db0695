import Mathlib.Data.Int.Notation
import Mathlib.Data.List.GetD
import OsAssignments.Lib.Bytes

/-!
# C strings in a memory

A C string is a list of bytes none of which is NUL; in memory the NUL after the
last one ends it. `cstr` reads the string that starts at an address, looking at
`n` bytes at most. The comparisons of `string.h` compare what `cstr` reads.

- `strncmp_eq_zero` — what `strncmp` compares.
- `cstr_strncpy` — what `strncpy` leaves.
-/

/-- The bytes of a string, without the NUL that ends it. -/
structure CString where
  chars : List Byte
  nul_free : 0#8 ∉ chars
  deriving DecidableEq

/-- The string at address `a`, read no further than `n` bytes. -/
def cstr (m : ByteMem) (a : ℕ) : ℕ → List Byte
  | 0 => []
  | n + 1 => if m a = 0 then [] else m a :: cstr m (a + 1) n

/-- The difference of the first two characters that differ. -/
def strncmp (s : ByteMem) (a : ℕ) (t : ByteMem) (b : ℕ) : ℕ → ℤ
  | 0 => 0
  | n + 1 =>
    if s a ≠ t b then (s a).toNat - (t b).toNat
    else if s a = 0 then 0
    else strncmp s (a + 1) t (b + 1) n

theorem cstr_congr {m m' : ByteMem} {a : ℕ} :
    ∀ {n : ℕ}, (∀ i < n, m (a + i) = m' (a + i)) → cstr m a n = cstr m' a n := by
  intro n
  induction n generalizing a with
  | zero => exact fun _ => rfl
  | succ n ih =>
      intro h
      have h₀ : m a = m' a := h 0 (by omega)
      rw [cstr, cstr, h₀, ih fun i hi => ?_]
      have := h (i + 1) (by omega)
      rwa [show a + (i + 1) = a + 1 + i by omega] at this

/-- **`strncmp`** tells whether the two strings are the same. -/
theorem strncmp_eq_zero {s t : ByteMem} {a b n : ℕ} :
    strncmp s a t b n = 0 ↔ cstr s a n = cstr t b n := by
  induction n generalizing a b with
  | zero => simp [strncmp, cstr]
  | succ n ih =>
      rw [strncmp, cstr, cstr]
      by_cases hne : s a = t b
      · rw [if_neg (not_not.mpr hne), ← hne]
        by_cases h0 : s a = 0
        · simp [h0]
        · rw [if_neg h0, if_neg h0, if_neg h0, ih]
          simp
      · have hnat : ((s a).toNat : ℤ) - (t b).toNat ≠ 0 := by
          intro hz
          exact hne (BitVec.eq_of_toNat_eq (by omega))
        rw [if_pos hne]
        refine ⟨fun h => absurd h hnat, fun h => ?_⟩
        -- two strings that are the same begin with the same character
        split at h <;> split at h
        · rename_i h₁ h₂
          exact absurd (h₁.trans h₂.symm) hne
        · exact absurd h (by simp)
        · exact absurd h (by simp)
        · exact absurd (List.cons.inj h).1 hne

namespace CString

/-- The string as the memory that a `char *` points to. -/
def mem (name : CString) : ByteMem := fun i => name.chars.getD i 0

theorem mem_ne_zero {name : CString} {i : ℕ} (h : i < name.chars.length) :
    name.mem i ≠ 0 := by
  intro hz
  apply name.nul_free
  rw [mem, List.getD_eq_getElem _ _ h] at hz
  have hmem := List.getElem_mem h
  rwa [hz] at hmem

theorem cstr_mem (name : CString) (i n : ℕ) :
    cstr name.mem i n = (name.chars.drop i).take n := by
  induction n generalizing i with
  | zero => simp [cstr]
  | succ n ih =>
      rw [cstr]
      by_cases hi : i < name.chars.length
      · rw [if_neg (mem_ne_zero hi), ih, List.drop_eq_getElem_cons hi,
          List.take_succ_cons, mem, List.getD_eq_getElem _ _ hi]
      · have hz : name.mem i = 0 := by
          rw [mem, List.getD_eq_default _ _ (by omega)]
        rw [if_pos hz, List.drop_eq_nil_of_le (by omega), List.take_nil]

end CString

/-- The comparison ends at the NUL of the second string at the latest. -/
def strcmp (s : ByteMem) (a : ℕ) (t : CString) : ℤ :=
  strncmp s a t.mem 0 (t.chars.length + 1)

theorem strcmp_eq_zero {s : ByteMem} {a : ℕ} {t : CString} :
    strcmp s a t = 0 ↔ cstr s a (t.chars.length + 1) = t.chars := by
  rw [strcmp, strncmp_eq_zero, CString.cstr_mem, List.drop_zero,
    List.take_of_length_le (by omega)]

/-- Looking further does not change a string that has ended. -/
theorem cstr_eq_of_length_lt {m : ByteMem} {a n n' : ℕ} {l : List Byte}
    (h : l.length < n) (h' : l.length < n') : cstr m a n = l ↔ cstr m a n' = l := by
  induction l generalizing a n n' with
  | nil =>
      obtain ⟨n, rfl⟩ := Nat.exists_eq_add_of_lt h
      obtain ⟨n', rfl⟩ := Nat.exists_eq_add_of_lt h'
      rw [List.length_nil, Nat.zero_add, Nat.zero_add, cstr, cstr]
      by_cases h0 : m a = 0
      · simp [h0]
      · rw [if_neg h0, if_neg h0]
        simp
  | cons c l ih =>
      obtain ⟨n, rfl⟩ : ∃ k, n = k + 1 := ⟨n - 1, by omega⟩
      obtain ⟨n', rfl⟩ : ∃ k, n' = k + 1 := ⟨n' - 1, by omega⟩
      rw [List.length_cons] at h h'
      rw [cstr, cstr]
      by_cases h0 : m a = 0
      · simp [h0]
      · rw [if_neg h0, if_neg h0, List.cons.injEq, List.cons.injEq,
          ih (show l.length < n by omega) (show l.length < n' by omega)]

/-- `strncpy`: at most `n` characters, and NULs up to `n`. -/
def strncpy (m : ByteMem) (a : ℕ) (name : CString) (n : ℕ) : ByteMem :=
  bcopy name.mem 0 m a n

theorem cstr_strncpy (m : ByteMem) (a : ℕ) (name : CString) (n : ℕ) :
    cstr (strncpy m a name n) a n = name.chars.take n := by
  rw [← List.drop_zero (l := name.chars), ← CString.cstr_mem]
  have hshift : ∀ (k i : ℕ), i + k = n →
      cstr (strncpy m a name n) (a + i) k = cstr name.mem i k := by
    intro k
    induction k with
    | zero => exact fun _ _ => rfl
    | succ k ih =>
        intro i hi
        have hbyte : strncpy m a name n (a + i) = name.mem i := by
          rw [strncpy, bcopy_inside _ _ _ (by omega) (by omega)]
          congr 1
          omega
        rw [cstr, cstr, hbyte, Nat.add_assoc, ih (i + 1) (by omega)]
  exact hshift n 0 (by omega)
