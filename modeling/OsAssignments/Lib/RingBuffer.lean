import Mathlib.Data.List.Basic
import Mathlib.Logic.Function.Basic
import Mathlib.Tactic.Common

/-!
# Ring buffers

A ring of `size` slots between two indices: elements go in at `head` and out at
`tail`, and one slot stays free, so that `head = tail` means empty.

- `contents` — what is in the ring, oldest first.
- `contents_push`, `contents_pop` — what moving one of the indices does to it.
- `contents_update_head`, `contents_update_tail` — the slots outside the ring do
  not matter.
-/

namespace RingBuffer

variable {α : Type*} {size head tail : ℕ}

def next (size i : ℕ) : ℕ := (i + 1) % size

/-- How many elements are in the ring. -/
def count (size head tail : ℕ) : ℕ := (head + size - tail) % size

/-- Oldest first. -/
def contents (size : ℕ) (slots : ℕ → α) (head tail : ℕ) : List α :=
  (List.range (count size head tail)).map fun i => slots ((tail + i) % size)

/-! ## §1  The indices -/

theorem add_mod_eq {i : ℕ} (htail : tail < size) (hi : i < size) :
    (tail + i) % size = if tail + i < size then tail + i else tail + i - size := by
  split
  · rename_i hlt
    exact Nat.mod_eq_of_lt hlt
  · rename_i hge
    rw [Nat.mod_eq_sub_mod (Nat.le_of_not_lt hge), Nat.mod_eq_of_lt (by omega)]

theorem next_eq (h : tail < size) :
    next size tail = if tail + 1 < size then tail + 1 else 0 := by
  unfold next
  split
  · rename_i hlt
    exact Nat.mod_eq_of_lt hlt
  · obtain rfl : tail + 1 = size := by omega
    exact Nat.mod_self _

theorem next_lt (h : tail < size) : next size tail < size := Nat.mod_lt _ (by omega)

theorem count_eq (hhead : head < size) (htail : tail < size) :
    count size head tail = if tail ≤ head then head - tail else head + size - tail := by
  unfold count
  split
  · rename_i hle
    rw [Nat.mod_eq_sub_mod (by omega), Nat.mod_eq_of_lt (by omega)]
    omega
  · rw [Nat.mod_eq_of_lt (by omega)]

theorem count_lt (hhead : head < size) (htail : tail < size) : count size head tail < size := by
  rw [count_eq hhead htail]
  split <;> omega

theorem count_eq_zero_iff (hhead : head < size) (htail : tail < size) :
    count size head tail = 0 ↔ head = tail := by
  rw [count_eq hhead htail]
  split <;> omega

theorem full_iff (hhead : head < size) (htail : tail < size) :
    next size head = tail ↔ count size head tail = size - 1 := by
  rw [count_eq hhead htail, next_eq hhead]
  split_ifs <;> omega

theorem count_next_head (hhead : head < size) (htail : tail < size)
    (hfull : next size head ≠ tail) :
    count size (next size head) tail = count size head tail + 1 := by
  rw [count_eq (next_lt hhead) htail, count_eq hhead htail]
  rw [next_eq hhead] at hfull ⊢
  split_ifs at hfull ⊢ <;> omega

theorem count_next_tail (hhead : head < size) (htail : tail < size) (hempty : head ≠ tail) :
    count size head tail = count size head (next size tail) + 1 := by
  rw [count_eq hhead (next_lt htail), count_eq hhead htail, next_eq htail]
  split_ifs <;> omega

/-- The slots in use are not the one at `head`. -/
theorem index_ne_head (hhead : head < size) (htail : tail < size) {i : ℕ}
    (hi : i < count size head tail) : (tail + i) % size ≠ head := by
  have hlt := count_lt hhead htail
  rw [count_eq hhead htail] at hi hlt
  rw [add_mod_eq htail (by omega)]
  split_ifs at hi ⊢ <;> omega

theorem next_add_mod (htail : tail < size) {i : ℕ} (hi : i + 1 < size) :
    (next size tail + i) % size = (tail + (i + 1)) % size := by
  rw [add_mod_eq (next_lt htail) (by omega), add_mod_eq htail hi, next_eq htail]
  split_ifs <;> omega

/-! ## §2  The contents -/

@[simp] theorem length_contents (size : ℕ) (slots : ℕ → α) (head tail : ℕ) :
    (contents size slots head tail).length = count size head tail := by simp [contents]

theorem contents_eq_nil_iff (slots : ℕ → α) (hhead : head < size) (htail : tail < size) :
    contents size slots head tail = [] ↔ head = tail := by
  rw [← List.length_eq_zero_iff, length_contents, count_eq_zero_iff hhead htail]

theorem contents_congr {slots slots' : ℕ → α}
    (h : ∀ i < count size head tail,
      slots ((tail + i) % size) = slots' ((tail + i) % size)) :
    contents size slots head tail = contents size slots' head tail := by
  simp only [contents, List.map_inj_left, List.mem_range]
  exact h

/-- The slot that is filled next is not in use. -/
theorem contents_update_head (slots : ℕ → α) (hhead : head < size) (htail : tail < size)
    (a : α) : contents size (Function.update slots head a) head tail =
      contents size slots head tail :=
  contents_congr fun _ hi =>
    Function.update_of_ne (index_ne_head hhead htail hi) _ _

/-- **Moving `head`** takes the slot that it stood on into the ring. -/
theorem contents_push (slots : ℕ → α) (hhead : head < size) (htail : tail < size)
    (hfull : next size head ≠ tail) :
    contents size slots (next size head) tail =
      contents size slots head tail ++ [slots head] := by
  have hlast : (tail + count size head tail) % size = head := by
    have hlt := count_lt hhead htail
    rw [add_mod_eq htail hlt, count_eq hhead htail]
    split_ifs <;> omega
  unfold contents
  rw [count_next_head hhead htail hfull, List.range_succ, List.map_append, List.map_singleton,
    hlast]

/-- **Moving `tail`** takes the oldest element out. -/
theorem contents_pop (slots : ℕ → α) (hhead : head < size) (htail : tail < size)
    (hempty : head ≠ tail) :
    contents size slots head tail = slots tail :: contents size slots head (next size tail) := by
  have hlt := count_lt hhead htail
  unfold contents
  rw [count_next_tail hhead htail hempty] at hlt ⊢
  rw [List.range_succ_eq_map, List.map_cons, Nat.add_zero, Nat.mod_eq_of_lt htail, List.map_map]
  congr 1
  refine List.map_congr_left fun i hi => ?_
  have hi' : i < count size head (next size tail) := List.mem_range.mp hi
  show slots ((tail + (i + 1)) % size) = slots ((next size tail + i) % size)
  rw [next_add_mod htail (by omega)]

/-- The slot that was emptied last is not in use. -/
theorem contents_update_tail (slots : ℕ → α) (hhead : head < size) (htail : tail < size)
    (hempty : head ≠ tail) (a : α) :
    contents size (Function.update slots tail a) head (next size tail) =
      contents size slots head (next size tail) := by
  have hlt := count_lt hhead htail
  have hcount := count_next_tail hhead htail hempty
  refine contents_congr fun i hi => Function.update_of_ne ?_ _ _
  rw [next_add_mod htail (by omega), add_mod_eq htail (by omega)]
  split <;> omega

end RingBuffer
