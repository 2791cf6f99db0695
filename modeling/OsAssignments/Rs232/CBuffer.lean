import OsAssignments.Lib.Bytes
import OsAssignments.Lib.RingBuffer

/-!
# Circular buffers

`driver/cbuffer.c`. An enqueue and a dequeue are written as their tests and their
statements, since an interrupt can come between any two of them; the functions
are put together from these.

The second argument of `cbuffer_dequeue` is a pointer: to a variable of the
caller, or to wherever the caller says.
-/

namespace OsAssignments.Rs232

structure CBuffer where
  cbuff : ℕ → Byte
  size : ℕ
  head : ℕ
  tail : ℕ

/-- What a `u8 *` is. -/
inductive Pointer where
  /-- The address of a variable. -/
  | variable
  /-- A character that is taken for an address: it lies in the first page, which is
  not mapped. -/
  | char (c : Byte)
deriving DecidableEq, Repr

namespace CBuffer

/-! ## §1  The code -/

/-- `cbuffer_init`. -/
def init (size : ℕ) : CBuffer := ⟨fun _ => 0x20, size, 0, 0⟩

def isEmpty (cb : CBuffer) : Bool := cb.head == cb.tail

def nextToHead (cb : CBuffer) : ℕ := (cb.head + 1) % cb.size

def isFull (cb : CBuffer) : Bool := cb.nextToHead == cb.tail

/-- `cb->cbuff[cb->head] = data`. -/
def put (cb : CBuffer) (data : Byte) : CBuffer :=
  { cb with cbuff := Function.update cb.cbuff cb.head data }

def moveHead (cb : CBuffer) : CBuffer := { cb with head := (cb.head + 1) % cb.size }

/-- `cb->cbuff[cb->tail] = 0xFF`. -/
def erase (cb : CBuffer) : CBuffer := { cb with cbuff := Function.update cb.cbuff cb.tail 0xFF }

def moveTail (cb : CBuffer) : CBuffer := { cb with tail := (cb.tail + 1) % cb.size }

/-- `cbuffer_enqueue`; the status is `1` if the buffer is full. -/
def enqueue (cb : CBuffer) (data : Byte) : ℕ × CBuffer :=
  if cb.isFull then (1, cb) else (0, (cb.put data).moveHead)

/-- `cbuffer_dequeue`: the byte that it stores through `data`, if its status is `0`.
`none` is a store that faults. -/
def dequeue (cb : CBuffer) (data : Pointer) : Option (Option Byte × CBuffer) :=
  if cb.isEmpty then some (none, cb)
  else
    match data with
    | .variable => some (some (cb.cbuff cb.tail), cb.erase.moveTail)
    | .char _ => none

/-! ## §2  The contents -/

/-- The unread bytes, oldest first. -/
def contents (cb : CBuffer) : List Byte :=
  RingBuffer.contents cb.size cb.cbuff cb.head cb.tail

structure Wf (cb : CBuffer) : Prop where
  head_lt : cb.head < cb.size
  tail_lt : cb.tail < cb.size

theorem wf_init {size : ℕ} (h : 0 < size) : (init size).Wf := ⟨h, h⟩

@[simp] theorem contents_init (size : ℕ) : (init size).contents = [] := by
  have hcount : RingBuffer.count size 0 0 = 0 := by simp [RingBuffer.count]
  show RingBuffer.contents size _ 0 0 = []
  rw [RingBuffer.contents, hcount]
  rfl

@[simp] theorem size_erase (cb : CBuffer) : cb.erase.size = cb.size := rfl
@[simp] theorem size_moveTail (cb : CBuffer) : cb.moveTail.size = cb.size := rfl

variable {cb : CBuffer}

theorem Wf.put (h : cb.Wf) (c : Byte) : (cb.put c).Wf := ⟨h.head_lt, h.tail_lt⟩
theorem Wf.erase (h : cb.Wf) : cb.erase.Wf := ⟨h.head_lt, h.tail_lt⟩

theorem Wf.moveHead (h : cb.Wf) : cb.moveHead.Wf :=
  ⟨Nat.mod_lt _ (Nat.zero_lt_of_lt h.head_lt), h.tail_lt⟩

theorem Wf.moveTail (h : cb.Wf) : cb.moveTail.Wf :=
  ⟨h.head_lt, Nat.mod_lt _ (Nat.zero_lt_of_lt h.tail_lt)⟩

theorem Wf.isEmpty_iff (h : cb.Wf) : cb.isEmpty = true ↔ cb.contents = [] := by
  rw [isEmpty, beq_iff_eq, contents, RingBuffer.contents_eq_nil_iff _ h.head_lt h.tail_lt]

theorem Wf.isEmpty_eq_false (h : cb.Wf) {c : Byte} {rest : List Byte}
    (hcontents : cb.contents = c :: rest) : cb.isEmpty = false := by
  rw [← Bool.not_eq_true, h.isEmpty_iff, hcontents]
  exact List.cons_ne_nil c rest

/-- The buffer is full with one slot free. -/
theorem Wf.isFull_iff (h : cb.Wf) :
    cb.isFull = true ↔ cb.contents.length = cb.size - 1 := by
  rw [isFull, beq_iff_eq, contents, RingBuffer.length_contents]
  exact RingBuffer.full_iff h.head_lt h.tail_lt

theorem Wf.length_contents_lt (h : cb.Wf) : cb.contents.length < cb.size := by
  rw [contents, RingBuffer.length_contents]
  exact RingBuffer.count_lt h.head_lt h.tail_lt

theorem Wf.contents_put (h : cb.Wf) (c : Byte) : (cb.put c).contents = cb.contents :=
  RingBuffer.contents_update_head cb.cbuff h.head_lt h.tail_lt c

theorem Wf.contents_moveHead (h : cb.Wf) (hfull : cb.isFull = false) :
    cb.moveHead.contents = cb.contents ++ [cb.cbuff cb.head] := by
  have hne : RingBuffer.next cb.size cb.head ≠ cb.tail := by
    simpa [isFull, nextToHead, RingBuffer.next] using hfull
  exact RingBuffer.contents_push cb.cbuff h.head_lt h.tail_lt hne

theorem Wf.contents_moveTail (h : cb.Wf) (hempty : cb.isEmpty = false) :
    cb.contents = cb.cbuff cb.tail :: cb.moveTail.contents := by
  have hne : cb.head ≠ cb.tail := by simpa [isEmpty] using hempty
  exact RingBuffer.contents_pop cb.cbuff h.head_lt h.tail_lt hne

theorem Wf.contents_erase_moveTail (h : cb.Wf) (hempty : cb.isEmpty = false) :
    cb.erase.moveTail.contents = cb.moveTail.contents := by
  have hne : cb.head ≠ cb.tail := by simpa [isEmpty] using hempty
  exact RingBuffer.contents_update_tail cb.cbuff h.head_lt h.tail_lt hne 0xFF

/-- The oldest byte, and what is left behind it. -/
theorem Wf.contents_eq_cons (h : cb.Wf) (hempty : cb.isEmpty = false) :
    cb.contents = cb.cbuff cb.tail :: cb.erase.moveTail.contents := by
  rw [h.contents_erase_moveTail hempty]
  exact h.contents_moveTail hempty

/-- Taking a byte out makes room. -/
theorem Wf.isFull_erase_moveTail (h : cb.Wf) (hempty : cb.isEmpty = false) :
    cb.erase.moveTail.isFull = false := by
  have hlen := congrArg List.length (h.contents_eq_cons hempty)
  have hlt := h.length_contents_lt
  rw [List.length_cons] at hlen
  rw [← Bool.not_eq_true, h.erase.moveTail.isFull_iff, size_moveTail, size_erase]
  omega

/-- **`cbuffer_enqueue`** adds the byte, where there is room. -/
theorem Wf.enqueue (h : cb.Wf) (c : Byte) (hfull : cb.isFull = false) :
    (cb.enqueue c).1 = 0 ∧ (cb.enqueue c).2.Wf ∧ (cb.enqueue c).2.size = cb.size ∧
      (cb.enqueue c).2.contents = cb.contents ++ [c] := by
  have heq : cb.enqueue c = (0, (cb.put c).moveHead) := by simp [CBuffer.enqueue, hfull]
  have hslot : (cb.put c).cbuff (cb.put c).head = c := Function.update_self ..
  rw [heq]
  refine ⟨rfl, (h.put c).moveHead, rfl, ?_⟩
  rw [(h.put c).contents_moveHead hfull, h.contents_put, hslot]

/-- **`cbuffer_dequeue`** into a variable takes the oldest byte. -/
theorem Wf.dequeue (h : cb.Wf) {c : Byte} {rest : List Byte} (hcontents : cb.contents = c :: rest) :
    cb.dequeue .variable = some (some c, cb.erase.moveTail) ∧ cb.erase.moveTail.Wf ∧
      cb.erase.moveTail.contents = rest := by
  have hempty := h.isEmpty_eq_false hcontents
  obtain ⟨hc, hrest⟩ := List.cons.inj (hcontents.symm.trans (h.contents_eq_cons hempty))
  exact ⟨by simp [CBuffer.dequeue, hempty, hc], h.erase.moveTail, hrest.symm⟩

end CBuffer

end OsAssignments.Rs232
