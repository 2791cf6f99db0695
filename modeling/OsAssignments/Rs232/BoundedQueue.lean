import Mathlib.Algebra.Group.Int.Defs
import Mathlib.Algebra.Group.Nat.Defs
import OsAssignments.Rs232.CBuffer

/-!
# A circular buffer is a bounded queue

`cbuffer_current_size` and `cbuffer_space_left` of `driver/cbuffer.c`, and sequences
of calls against a plain queue that holds `size - 1` bytes. The indices stay below
`size`, so nothing wraps there; `head - tail + size` may come to `2 * size - 1`.

- `runCalls_eq` — every sequence of calls gives what the queue gives.
- `boundedQueue_iff` — and the two counts are right, exactly up to a size of 2³⁰.
- `size_wraps` — a buffer that is larger.
-/

namespace OsAssignments.Rs232

/-! ## §1  The code -/

/-- `int` arithmetic. -/
def int32 (n : ℤ) : ℤ := n.bmod (2 ^ 32)

namespace CBuffer

/-- `cbuffer_current_size`. -/
def currentSize (cb : CBuffer) : ℤ := (int32 (cb.head - cb.tail + cb.size)).tmod cb.size

/-- `cbuffer_space_left`. -/
def spaceLeft (cb : CBuffer) : ℤ :=
  if cb.isEmpty then cb.size - 1
  else if cb.isFull then 0
  else int32 (cb.size - cb.currentSize - 1)

inductive Call where
  | enqueue (data : Byte)
  | dequeue
deriving DecidableEq, Repr

/-- What a call returns, and the byte that it stores through `data`. -/
abbrev Result := ℕ × Option Byte

/-- The buffer after a call; `data` points to a variable. -/
def call (cb : CBuffer) : Call → Result × CBuffer
  | .enqueue data => (((cb.enqueue data).1, none), (cb.enqueue data).2)
  | .dequeue =>
      match cb.dequeue .variable with
      | some (some data, cb) => ((0, some data), cb)
      | some (none, cb) => ((1, none), cb)
      | none => ((1, none), cb)

end CBuffer

open CBuffer (Call Result)

/-- `f` on one call after the other, with the results. -/
def runCalls {σ : Type} (f : σ → Call → Result × σ) : List Call → σ → List Result × σ
  | [], s => ([], s)
  | c :: calls, s =>
      let (result, s) := f s c
      let (results, s) := runCalls f calls s
      (result :: results, s)

/-! ## §2  The queue -/

/-- A queue that holds `capacity` bytes, oldest first. -/
def queueCall (capacity : ℕ) (q : List Byte) : Call → Result × List Byte
  | .enqueue data => if q.length = capacity then ((1, none), q) else ((0, none), q ++ [data])
  | .dequeue =>
      match q with
      | [] => ((1, none), [])
      | data :: rest => ((0, some data), rest)

/-! ## §3  One call -/

namespace CBuffer

variable {cb : CBuffer}

/-- **One call** does to the contents what the queue does. -/
theorem Wf.call (h : cb.Wf) (c : Call) :
    (cb.call c).2.Wf ∧ (cb.call c).2.size = cb.size ∧
      queueCall (cb.size - 1) cb.contents c = ((cb.call c).1, (cb.call c).2.contents) := by
  cases c with
  | enqueue data =>
      cases hfull : cb.isFull with
      | true =>
          have hlen := h.isFull_iff.mp hfull
          have heq : cb.enqueue data = (1, cb) := by simp [CBuffer.enqueue, hfull]
          simp only [CBuffer.call, heq, queueCall, if_pos hlen]
          exact ⟨h, trivial, trivial⟩
      | false =>
          obtain ⟨hstatus, hwf, hsize, hcontents⟩ := h.enqueue data hfull
          have hlen : cb.contents.length ≠ cb.size - 1 := by
            rw [Ne, ← h.isFull_iff, hfull]
            exact Bool.false_ne_true
          refine ⟨hwf, hsize, ?_⟩
          simp only [CBuffer.call, queueCall, if_neg hlen, hstatus, hcontents]
  | dequeue =>
      cases hcontents : cb.contents with
      | nil =>
          have hempty := h.isEmpty_iff.mpr hcontents
          have heq : cb.dequeue .variable = some (none, cb) := by
            simp [CBuffer.dequeue, hempty]
          simp only [CBuffer.call, heq, queueCall, hcontents]
          exact ⟨h, trivial, trivial⟩
      | cons data rest =>
          obtain ⟨heq, hwf, hrest⟩ := h.dequeue hcontents
          simp only [CBuffer.call, heq, queueCall, hrest]
          exact ⟨hwf, rfl, trivial⟩

/-- A call that returns 1 changes nothing. -/
theorem call_unchanged (cb : CBuffer) (c : Call) (h : (cb.call c).1.1 = 1) :
    (cb.call c).2 = cb := by
  cases c with
  | enqueue data =>
      simp only [call, enqueue] at h ⊢
      split
      · rfl
      · rename_i hfull
        rw [if_neg hfull] at h
        cases h
  | dequeue =>
      cases hempty : cb.isEmpty with
      | true => simp [call, dequeue, hempty]
      | false =>
          simp only [call, dequeue, hempty, Bool.false_eq_true, if_false] at h
          cases h

end CBuffer

/-- **A sequence of calls.** -/
theorem runCalls_eq {cb : CBuffer} (h : cb.Wf) (calls : List Call) :
    (runCalls CBuffer.call calls cb).2.Wf ∧
      (runCalls CBuffer.call calls cb).2.size = cb.size ∧
      runCalls (queueCall (cb.size - 1)) calls cb.contents =
        ((runCalls CBuffer.call calls cb).1, (runCalls CBuffer.call calls cb).2.contents) := by
  induction calls generalizing cb with
  | nil => exact ⟨h, rfl, rfl⟩
  | cons c calls ih =>
      obtain ⟨hwf, hsize, hcall⟩ := h.call c
      obtain ⟨hwf', hsize', hrun⟩ := ih hwf
      refine ⟨hwf', hsize'.trans hsize, ?_⟩
      rw [hsize] at hrun
      simp only [runCalls, hcall, hrun]

/-! ## §4  The counts -/

theorem int32_eq_self {n : ℤ} (h : 0 ≤ n) (h' : n < 2 ^ 31) : int32 n = n :=
  Int.bmod_eq_of_le (by omega) (by omega)

namespace CBuffer

variable {cb : CBuffer}

theorem Wf.length_contents (h : cb.Wf) : (cb.contents.length : ℤ) =
    if cb.tail ≤ cb.head then (cb.head : ℤ) - cb.tail else cb.head + cb.size - cb.tail := by
  have htail := h.tail_lt
  rw [contents, RingBuffer.length_contents, RingBuffer.count_eq h.head_lt h.tail_lt]
  split
  · omega
  · omega

/-- **`cbuffer_current_size`**, where its sum does not wrap. -/
theorem Wf.currentSize_eq (h : cb.Wf) (hsize : cb.size ≤ 2 ^ 30) :
    cb.currentSize = cb.contents.length := by
  have hhead := h.head_lt
  have htail := h.tail_lt
  rw [currentSize, int32_eq_self (by omega) (by omega),
    Int.tmod_eq_emod_of_nonneg (by omega), h.length_contents]
  split
  · rw [Int.add_emod_right, Int.emod_eq_of_lt (by omega) (by omega)]
  · rw [Int.emod_eq_of_lt (by omega) (by omega)]
    omega

theorem Wf.spaceLeft_eq (h : cb.Wf) (hsize : cb.size ≤ 2 ^ 30) :
    cb.currentSize + cb.spaceLeft = cb.size - 1 := by
  have hlt := h.length_contents_lt
  have hcount := h.currentSize_eq hsize
  unfold spaceLeft
  split
  · rename_i hempty
    rw [hcount, h.isEmpty_iff.mp hempty, List.length_nil]
    omega
  · split
    · rename_i hfull
      rw [hcount, h.isFull_iff.mp hfull]
      omega
    · rw [hcount, int32_eq_self (by omega) (by omega)]
      omega

/-- With `tail` at 0 and the sum at 2³¹ the count comes out negative, or 0. -/
theorem currentSize_wraps (htail : cb.tail = 0) (hsum : cb.head + cb.size = 2 ^ 31) :
    cb.currentSize ≤ 0 := by
  have hbmod : int32 (cb.head - cb.tail + cb.size) = -(2 ^ 31) := by
    rw [htail, show (cb.head - (0 : ℕ) + cb.size : ℤ) = 2 ^ 31 by omega]
    rfl
  rw [currentSize, hbmod, Int.neg_tmod]
  have := Int.tmod_nonneg (a := 2 ^ 31) (cb.size : ℤ) (by decide)
  omega

end CBuffer

/-! ## §5  Every sequence of calls -/

section Sequences

variable (size : ℕ) (calls : List Call)

/-- The buffer after the calls, from `cbuffer_init`. -/
def bufferAfter : CBuffer := (runCalls CBuffer.call calls (CBuffer.init size)).2

/-- What the queue holds after the calls. -/
def queueAfter : List Byte := (runCalls (queueCall (size - 1)) calls []).2

/-- The calls, and the one that comes next, do what they do on a queue of `size - 1`
bytes, and the counts are those of the queue. -/
structure BoundedQueue : Prop where
  results : (runCalls CBuffer.call calls (CBuffer.init size)).1 =
    (runCalls (queueCall (size - 1)) calls []).1
  head_lt : (bufferAfter size calls).head < size
  tail_lt : (bufferAfter size calls).tail < size
  enqueue_full : ∀ data, ((bufferAfter size calls).call (.enqueue data)).1.1 = 1 ↔
    (queueAfter size calls).length = size - 1
  dequeue_empty : ((bufferAfter size calls).call .dequeue).1.1 = 1 ↔ queueAfter size calls = []
  unchanged : ∀ c, ((bufferAfter size calls).call c).1.1 = 1 →
    ((bufferAfter size calls).call c).2 = bufferAfter size calls
  currentSize : (bufferAfter size calls).currentSize = (queueAfter size calls).length
  spaceLeft : (bufferAfter size calls).currentSize + (bufferAfter size calls).spaceLeft = size - 1

variable {size}

theorem bufferAfter_spec (hsize : 0 < size) :
    (bufferAfter size calls).Wf ∧ (bufferAfter size calls).size = size ∧
      (bufferAfter size calls).contents = queueAfter size calls ∧
      (runCalls CBuffer.call calls (CBuffer.init size)).1 =
        (runCalls (queueCall (size - 1)) calls []).1 := by
  obtain ⟨hwf, hsize', hrun⟩ := runCalls_eq (CBuffer.wf_init hsize) calls
  rw [CBuffer.contents_init] at hrun
  have hrun' : runCalls (queueCall (size - 1)) calls [] = _ := hrun
  refine ⟨hwf, hsize', ?_, ?_⟩
  · rw [queueAfter, hrun']
    rfl
  · rw [hrun']

/-- A queue's call fails exactly when there is no room, or nothing to take. -/
theorem queueCall_status (capacity : ℕ) (q : List Byte) :
    (∀ data, (queueCall capacity q (.enqueue data)).1.1 = 1 ↔ q.length = capacity) ∧
      ((queueCall capacity q .dequeue).1.1 = 1 ↔ q = []) := by
  constructor
  · intro data
    by_cases hfull : q.length = capacity
    · simp [queueCall, hfull]
    · simp [queueCall, hfull]
  · cases q with
    | nil => simp [queueCall]
    | cons data rest => simp [queueCall]

theorem boundedQueue_of_le (hsize : 0 < size) (hle : size ≤ 2 ^ 30) :
    BoundedQueue size calls := by
  obtain ⟨hwf, hsize', hcontents, hresults⟩ := bufferAfter_spec calls hsize
  have hstatus : ∀ c, ((bufferAfter size calls).call c).1 =
      (queueCall (size - 1) (queueAfter size calls) c).1 := by
    intro c
    obtain ⟨-, -, hcall⟩ := hwf.call c
    rw [hsize', hcontents] at hcall
    rw [hcall]
  obtain ⟨hfull, hempty⟩ := queueCall_status (size - 1) (queueAfter size calls)
  refine ⟨hresults, ?_, ?_, fun data => ?_, ?_, fun c => CBuffer.call_unchanged _ c, ?_, ?_⟩
  · exact lt_of_lt_of_eq hwf.head_lt hsize'
  · exact lt_of_lt_of_eq hwf.tail_lt hsize'
  · rw [hstatus]
    exact hfull data
  · rw [hstatus]
    exact hempty
  · rw [hwf.currentSize_eq (le_of_eq_of_le hsize' hle), hcontents]
  · rw [hwf.spaceLeft_eq (le_of_eq_of_le hsize' hle), hsize']

/-- So many bytes are enqueued into a buffer with room for them. -/
theorem runCalls_replicate (data : Byte) (n : ℕ) (cb : CBuffer) (htail : cb.tail = 0)
    (hroom : cb.head + n < cb.size) :
    (runCalls CBuffer.call (List.replicate n (.enqueue data)) cb).2.head = cb.head + n ∧
      (runCalls CBuffer.call (List.replicate n (.enqueue data)) cb).2.tail = 0 ∧
      (runCalls CBuffer.call (List.replicate n (.enqueue data)) cb).2.size = cb.size := by
  induction n generalizing cb with
  | zero => exact ⟨rfl, htail, rfl⟩
  | succ n ih =>
      have hnext : (cb.head + 1) % cb.size = cb.head + 1 := Nat.mod_eq_of_lt (by omega)
      have hfull : cb.isFull = false := by
        simp [CBuffer.isFull, CBuffer.nextToHead, hnext, htail]
      have hcall : (cb.call (.enqueue data)).2 = (cb.put data).moveHead := by
        simp [CBuffer.call, CBuffer.enqueue, hfull]
      have hhead : (cb.put data).moveHead.head = cb.head + 1 := hnext
      obtain ⟨h₁, h₂, h₃⟩ := ih (cb.put data).moveHead htail (by
        rw [hhead]
        show cb.head + 1 + n < cb.size
        omega)
      rw [List.replicate_succ]
      simp only [runCalls, hcall]
      refine ⟨?_, h₂, h₃⟩
      rw [h₁, hhead]
      omega

end Sequences

/-- Enqueues that bring the sum of `cbuffer_current_size` to 2³¹. -/
def untilItWraps (size : ℕ) : List Call := List.replicate (2 ^ 31 - size) (.enqueue 7)

theorem untilItWraps_spec {size : ℕ} (hgt : 2 ^ 30 < size) (hint : size < 2 ^ 31) :
    (bufferAfter size (untilItWraps size)).currentSize ≤ 0 ∧
      (bufferAfter size (untilItWraps size)).contents.length = 2 ^ 31 - size := by
  obtain ⟨hhead, htail, hsize⟩ := runCalls_replicate 7 (2 ^ 31 - size) (CBuffer.init size) rfl (by
    show 0 + (2 ^ 31 - size) < size
    omega)
  obtain ⟨hwf, -⟩ := bufferAfter_spec (untilItWraps size) (show 0 < size by omega)
  have hhead' : (bufferAfter size (untilItWraps size)).head = 2 ^ 31 - size :=
    hhead.trans (Nat.zero_add _)
  have htail' : (bufferAfter size (untilItWraps size)).tail = 0 := htail
  have hsize' : (bufferAfter size (untilItWraps size)).size = size := hsize
  refine ⟨CBuffer.currentSize_wraps htail' (by omega), ?_⟩
  have hlen := hwf.length_contents
  rw [hhead', htail', if_pos (Nat.zero_le _)] at hlen
  omega

/-- **When a circular buffer is a bounded queue**: exactly when its size is at most
2³⁰. A larger one is a queue too, but for its counts. -/
theorem boundedQueue_iff (size : ℕ) (hsize : 0 < size) (hint : size < 2 ^ 31) :
    (∀ calls, BoundedQueue size calls) ↔ size ≤ 2 ^ 30 := by
  refine ⟨fun hall => ?_, fun hle calls => boundedQueue_of_le calls hsize hle⟩
  by_contra hgt
  obtain ⟨hcount, hlen⟩ := untilItWraps_spec (Nat.lt_of_not_le hgt) hint
  have hright := (hall (untilItWraps size)).currentSize
  rw [← (bufferAfter_spec (untilItWraps size) hsize).2.2.1, hlen] at hright
  omega

/-- The buffer of `cbuf_out`. -/
theorem boundedQueue_iff_forty : 0 < 40 ∧ 40 < 2 ^ 31 ∧
    ((∀ calls, BoundedQueue 40 calls) ↔ 40 ≤ 2 ^ 30) :=
  ⟨by decide, by decide, boundedQueue_iff 40 (by decide) (by decide)⟩

/-- **A buffer of 2³⁰ + 1 bytes** that holds 2³⁰ - 1: the count comes out negative, or 0. -/
theorem size_wraps :
    (bufferAfter (2 ^ 30 + 1) (untilItWraps (2 ^ 30 + 1))).contents.length = 2 ^ 30 - 1 ∧
      (bufferAfter (2 ^ 30 + 1) (untilItWraps (2 ^ 30 + 1))).currentSize ≤ 0 ∧
      ¬ BoundedQueue (2 ^ 30 + 1) (untilItWraps (2 ^ 30 + 1)) := by
  have hgt : 2 ^ 30 < 2 ^ 30 + 1 := by decide
  obtain ⟨hcount, hlen⟩ := untilItWraps_spec hgt (by decide)
  refine ⟨hlen, hcount, fun hqueue => ?_⟩
  have hright := hqueue.currentSize
  rw [← (bufferAfter_spec (untilItWraps (2 ^ 30 + 1)) (by decide)).2.2.1, hlen] at hright
  omega

end OsAssignments.Rs232
