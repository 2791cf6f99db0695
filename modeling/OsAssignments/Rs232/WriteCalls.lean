import Mathlib.Data.Int.Notation
import OsAssignments.Rs232.Transmit

/-!
# What `rs232_tut_write` returns

`size` counts the bytes of the call that were enqueued. Where the flag says that it is
the writer's turn and `cbuffer_dequeue` then finds nothing to push, the call returns
-1 instead, whatever it has enqueued: the interrupt routine has sent it all.

- `reports_iff` — every call reports what it enqueued, exactly in the runs in which the
  writer's `cbuffer_dequeue` always finds a byte.
- `sent_and_refused` — a call that returns -1 when its byte is on the line.
-/

namespace OsAssignments.Rs232

open PartialMachine

/-! ## §1  The code -/

/-- A call that has returned. -/
structure WriteCall where
  userbuffer : List Byte
  /-- What it enqueued. -/
  accepted : List Byte
  /-- `copy_from_user` has failed, or a signal has ended a wait. -/
  disturbed : Bool
  value : ℤ
deriving DecidableEq, Repr

/-- The driver with the variables of the call in progress. -/
structure Writer where
  driver : Driver
  size : ℕ
  /-- Ghost: the argument of the call. -/
  userbuffer : List Byte
  /-- Ghost: how much had been enqueued before the call. -/
  before : ℕ
  /-- Ghost: `copy_from_user` has failed, or a signal has ended a wait. -/
  disturbed : Bool
  /-- Ghost: the calls that have returned. -/
  returned : List WriteCall

namespace Writer

def init (thr : Option Byte) : Writer where
  driver := Driver.init thr
  size := 0
  userbuffer := []
  before := 0
  disturbed := false
  returned := []

/-- No call is in progress: after any `rs232_tut_open`, whatever the flag and the buffers,
and between two calls. -/
def start (d : Driver) : Writer :=
  { init d.uart.thr with driver := d, before := d.enqueued.length }

/-- What this call has enqueued. -/
def accepted (w : Writer) : List Byte := w.driver.enqueued.drop w.before

/-- The statement fails to copy, or leaves the wait with the buffer full. -/
def disturbs (d : Driver) (ok : Bool) : Bool :=
  match d.pc with
  | .loop (_ :: _) => !ok
  | .compare .wait _ _ nextToHead => (nextToHead == d.cbufOut.tail) && !ok
  | _ => false

/-- `size++`, at the end of a turn of the loop. -/
def nextSize (size : ℕ) : Pc → ℕ
  | .moveHead _ _ => size + 1
  | _ => size

/-- What a statement that is the last one of the call returns. -/
def value (size : ℕ) : Pc → ℤ
  | .dequeue _ => -1
  | _ => size

/-- A statement of the writer, after which the driver is `d`. -/
def advance (w : Writer) (ok : Bool) (d : Driver) : Writer :=
  { w with
    driver := d
    size := nextSize w.size w.driver.pc
    disturbed := w.disturbed || disturbs w.driver ok }

/-- The same, with the call noted if it has returned. -/
def writer (w : Writer) (ok : Bool) (d : Driver) : Writer :=
  let w' := w.advance ok d
  if d.pc = .idle then
    { w' with returned := w.returned ++
        [⟨w.userbuffer, w'.accepted, w'.disturbed, value w.size w.driver.pc⟩] }
  else w'

def step (w : Writer) (a : Act) : Option Writer :=
  (w.driver.step a).map fun d =>
    match a with
    | .write userbuffer =>
        { w with
          driver := d
          size := 0
          userbuffer := userbuffer
          before := d.enqueued.length
          disturbed := false }
    | .writer ok => w.writer ok d
    | _ => { w with driver := d }

end Writer

/-! ## §2  The property -/

/-- The call returns how many bytes it has enqueued, the first ones of its buffer, and
all of them if nothing went wrong. -/
structure WriteCall.Reports (c : WriteCall) : Prop where
  prefix_userbuffer : c.accepted <+: c.userbuffer
  value : c.value = c.accepted.length
  all : c.disturbed = false → c.accepted = c.userbuffer

namespace Writer

/-- Every call so far. -/
def Reports (w : Writer) : Prop := ∀ c ∈ w.returned, c.Reports

/-- The writer's `cbuffer_dequeue` finds a byte. -/
def FindsData (w : Writer) : Act → Prop
  | .writer _ => ∀ site, w.driver.pc = .dequeue site → w.driver.cbufOut.isEmpty = false
  | _ => True

/-! ## §3  The invariant -/

/-- What is still to be enqueued; `none` after the loop. -/
def pending : Pc → Option (List Byte)
  | .idle => none
  | .loop rest => some rest
  | .isFull _ c rest => some (c :: rest)
  | .compare _ c rest _ => some (c :: rest)
  | .testFlag c rest => some (c :: rest)
  | .clearFlag c rest => some (c :: rest)
  | .dequeue (.full c rest) => some (c :: rest)
  | .takeData (.full c rest) => some (c :: rest)
  | .eraseData (.full c rest) _ => some (c :: rest)
  | .moveTail (.full c rest) _ => some (c :: rest)
  | .outb (.full c rest) _ => some (c :: rest)
  | .enqueueData c rest => some (c :: rest)
  | .moveHead c rest => some (c :: rest)
  | _ => none

/-- The writer is about to test for room that there must be. -/
def Enqueuing : Pc → Prop
  | .isFull .enqueue _ _ => True
  | .compare .enqueue _ _ _ => True
  | _ => False

/-- What the call has enqueued when the loop is over. -/
structure Ended (w : Writer) : Prop where
  prefix_userbuffer : w.accepted <+: w.userbuffer
  all : w.disturbed = false → w.accepted = w.userbuffer

structure CallInv (w : Writer) : Prop where
  wf : w.driver.cbufOut.Wf
  before : w.before ≤ w.driver.enqueued.length
  size : w.size = w.accepted.length
  pending : ∀ rest, pending w.driver.pc = some rest → w.userbuffer = w.accepted ++ rest
  ended : Writer.pending w.driver.pc = none → w.driver.pc ≠ .idle → Ended w
  compare : ∀ site c rest n, w.driver.pc = .compare site c rest n →
    n = w.driver.cbufOut.nextToHead
  room : Enqueuing w.driver.pc → w.disturbed = false → w.driver.cbufOut.isFull = false

/-! ## §4  The interrupt routine and the other actions -/

/-- The step does not touch the call, and makes no byte of room go away. -/
structure SameCall (d d' : Driver) : Prop where
  pc : d'.pc = d.pc
  enqueued : d'.enqueued = d.enqueued
  nextToHead : d'.cbufOut.nextToHead = d.cbufOut.nextToHead
  wf : d.cbufOut.Wf → d'.cbufOut.Wf
  room : d.cbufOut.Wf → d.cbufOut.isFull = false → d'.cbufOut.isFull = false

theorem sameCall_of_cbufOut {d d' : Driver} (hpc : d'.pc = d.pc)
    (henqueued : d'.enqueued = d.enqueued) (hcbufOut : d'.cbufOut = d.cbufOut) :
    SameCall d d' := by
  refine ⟨hpc, henqueued, ?_, ?_, ?_⟩ <;> rw [hcbufOut]
  · exact id
  · exact fun _ => id

theorem emptyThr_sameCall (d : Driver) (uart : Uart) :
    SameCall d ({ d with uart := uart } : Driver).emptyThr := by
  unfold Driver.emptyThr
  dsimp only
  split
  · exact sameCall_of_cbufOut rfl rfl rfl
  · rename_i hempty
    rw [Bool.not_eq_true] at hempty
    have hdequeue : d.cbufOut.dequeue .variable =
        some (some (d.cbufOut.cbuff d.cbufOut.tail), d.cbufOut.erase.moveTail) := by
      simp [CBuffer.dequeue, hempty]
    rw [hdequeue]
    exact ⟨rfl, rfl, rfl, fun h => h.erase.moveTail,
      fun h _ => h.isFull_erase_moveTail hempty⟩

theorem dataAvail_sameCall (d : Driver) (c discarded : Byte) :
    SameCall d (d.dataAvail c discarded) := by
  unfold Driver.dataAvail
  dsimp only
  split
  · split
    · exact sameCall_of_cbufOut rfl rfl rfl
    · exact sameCall_of_cbufOut rfl rfl rfl
  · exact sameCall_of_cbufOut rfl rfl rfl

/-- Every step but a call and a statement of the writer. -/
theorem step_sameCall {d d' : Driver} {a : Act} (hwrite : ∀ b, a ≠ .write b)
    (hwriter : ∀ ok, a ≠ .writer ok) (hstep : d.step a = some d') : SameCall d d' := by
  obtain ⟨-, h⟩ := Option.ite_none_left_eq_some.mp hstep
  cases a with
  | write userbuffer => exact absurd rfl (hwrite userbuffer)
  | writer ok => exact absurd rfl (hwriter ok)
  | read n =>
      obtain ⟨-, h⟩ := Option.ite_none_left_eq_some.mp h
      cases h
      exact sameCall_of_cbufOut rfl rfl rfl
  | interrupt =>
      obtain ⟨-, h⟩ := Option.ite_none_right_eq_some.mp h
      cases h
      exact sameCall_of_cbufOut rfl rfl rfl
  | isr discarded =>
      obtain ⟨-, h⟩ := Option.ite_none_right_eq_some.mp h
      cases h
      unfold Driver.isrTurn
      split
      · exact sameCall_of_cbufOut rfl rfl rfl
      · exact emptyThr_sameCall d _
      · exact dataAvail_sameCall d _ _
      · exact sameCall_of_cbufOut rfl rfl rfl
  | drain =>
      obtain ⟨-, h⟩ := Option.ite_none_right_eq_some.mp h
      cases h
      exact sameCall_of_cbufOut rfl rfl rfl
  | arrive c =>
      cases h
      exact sameCall_of_cbufOut rfl rfl rfl
  | lineError =>
      cases h
      exact sameCall_of_cbufOut rfl rfl rfl

variable {w : Writer} {d : Driver}

theorem SameCall.inv (h : SameCall w.driver d) (hi : CallInv w) :
    CallInv { w with driver := d } := by
  have haccepted : ({ w with driver := d } : Writer).accepted = w.accepted := by
    rw [accepted, accepted, h.enqueued]
  refine ⟨h.wf hi.wf, h.enqueued ▸ hi.before, haccepted ▸ hi.size, ?_, ?_, ?_, ?_⟩
  · intro rest hrest
    rw [haccepted]
    exact hi.pending rest (h.pc ▸ hrest)
  · intro hnone hidle
    have hended := hi.ended (h.pc ▸ hnone) (h.pc ▸ hidle)
    exact ⟨haccepted ▸ hended.prefix_userbuffer, haccepted ▸ hended.all⟩
  · intro site c rest n hpc
    rw [show n = _ from hi.compare site c rest n (h.pc ▸ hpc)]
    exact h.nextToHead.symm
  · intro henqueuing hdisturbed
    exact h.room hi.wf (hi.room (h.pc ▸ henqueuing) hdisturbed)

/-! ## §5  The writer -/

theorem accepted_advance (ok : Bool) (h : d.enqueued = w.driver.enqueued) :
    (w.advance ok d).accepted = w.accepted := by
  rw [accepted, accepted, advance, h]

/-- A statement that enqueues nothing and stays where it is in the loop, or behind it. -/
theorem CallInv.next (hi : CallInv w) (ok : Bool) (hbusy : w.driver.pc ≠ .idle)
    (hsize : nextSize w.size w.driver.pc = w.size) (hwf : d.cbufOut.Wf)
    (henqueued : d.enqueued = w.driver.enqueued)
    (hpending : Writer.pending d.pc = Writer.pending w.driver.pc)
    (hcompare : ∀ site c rest n, d.pc = .compare site c rest n → n = d.cbufOut.nextToHead)
    (hroom : Enqueuing d.pc → (w.advance ok d).disturbed = false → d.cbufOut.isFull = false) :
    CallInv (w.advance ok d) := by
  have haccepted := accepted_advance (w := w) ok henqueued
  refine ⟨hwf, henqueued ▸ hi.before, ?_, ?_, ?_, hcompare, hroom⟩
  · rw [haccepted]
    exact hsize.trans hi.size
  · intro rest hrest
    rw [haccepted]
    exact hi.pending rest (hpending ▸ hrest)
  · intro hnone _
    have hended := hi.ended (hpending ▸ hnone) hbusy
    refine ⟨haccepted ▸ hended.prefix_userbuffer, fun hdisturbed => ?_⟩
    rw [haccepted]
    exact hended.all (Bool.or_eq_false_iff.mp hdisturbed).1

/-- The same, where it neither compares nor enqueues next. -/
theorem CallInv.goes (hi : CallInv w) (ok : Bool) {pc : Pc} (hpc : w.driver.pc = pc)
    (hbusy : pc ≠ .idle) (hsize : nextSize w.size pc = w.size) (hwf : d.cbufOut.Wf)
    (henqueued : d.enqueued = w.driver.enqueued)
    (hpending : Writer.pending d.pc = Writer.pending pc)
    (hcompare : ∀ site c rest n, d.pc ≠ .compare site c rest n)
    (henqueuing : ¬ Enqueuing d.pc) : CallInv (w.advance ok d) := by
  subst hpc
  exact hi.next ok hbusy hsize hwf henqueued hpending
    (fun site c rest n h => absurd h (hcompare site c rest n)) fun h => absurd h henqueuing

/-- A statement that leaves the loop. -/
theorem CallInv.leave (hi : CallInv w) (ok : Bool) {rest : List Byte}
    (hpending : Writer.pending w.driver.pc = some rest)
    (hsize : nextSize w.size w.driver.pc = w.size)
    (hd : d = { w.driver with pc := .lastTest })
    (hrest : (w.advance ok d).disturbed = false → rest = []) : CallInv (w.advance ok d) := by
  subst hd
  have hbuffer : w.userbuffer = w.accepted ++ rest := hi.pending rest hpending
  refine ⟨hi.wf, hi.before, hsize.trans hi.size, (fun _ h => by cases h), fun _ _ => ⟨?_, ?_⟩,
    (fun _ _ _ _ h => by cases h), fun h => h.elim⟩
  · show w.accepted <+: w.userbuffer
    rw [hbuffer]
    exact List.prefix_append _ _
  · intro hdisturbed
    show w.accepted = w.userbuffer
    rw [hbuffer, hrest hdisturbed, List.append_nil]

/-- A statement that returns. -/
theorem CallInv.ends (hi : CallInv w) (ok : Bool)
    (hsize : nextSize w.size w.driver.pc = w.size) (hwf : d.cbufOut.Wf)
    (henqueued : d.enqueued = w.driver.enqueued) (hidle : d.pc = .idle) :
    CallInv (w.advance ok d) := by
  refine ⟨hwf, henqueued ▸ hi.before, ?_, ?_, fun _ h => absurd hidle h, ?_, ?_⟩
  · rw [accepted_advance ok henqueued]
    exact hsize.trans hi.size
  · intro rest hrest
    rw [show (w.advance ok d).driver.pc = .idle from hidle] at hrest
    cases hrest
  · intro _ _ _ _ h
    rw [show (w.advance ok d).driver.pc = .idle from hidle] at h
    cases h
  · intro h
    rw [show (w.advance ok d).driver.pc = .idle from hidle] at h
    exact h.elim

/-- `head` moves over the byte that was put there. -/
theorem CallInv.moveHead (hi : CallInv w) (ok : Bool) {c : Byte} {rest : List Byte}
    (hpc : w.driver.pc = .moveHead c rest) :
    CallInv (w.advance ok { w.driver with
      cbufOut := w.driver.cbufOut.moveHead
      enqueued := w.driver.enqueued ++ [c]
      pc := .loop rest }) := by
  have haccepted : (w.driver.enqueued ++ [c]).drop w.before = w.accepted ++ [c] :=
    List.drop_append_of_le_length hi.before
  refine ⟨hi.wf.moveHead, ?_, ?_, ?_, (fun h => by cases h), (fun _ _ _ _ h => by cases h),
    fun h => h.elim⟩
  · show w.before ≤ (w.driver.enqueued ++ [c]).length
    rw [List.length_append]
    exact Nat.le_add_right_of_le hi.before
  · show nextSize w.size w.driver.pc = ((w.driver.enqueued ++ [c]).drop w.before).length
    rw [haccepted, hpc, List.length_append, ← hi.size]
    rfl
  · intro rest' hrest'
    obtain rfl : rest = rest' := Option.some.inj hrest'
    show w.userbuffer = (w.driver.enqueued ++ [c]).drop w.before ++ rest
    rw [haccepted, List.append_assoc]
    exact hi.pending (c :: rest) (by rw [hpc]; rfl)

/-- **What follows on `cbuffer_is_full`.** A wait that was not interrupted ends with room. -/
theorem CallInv.afterFull (hi : CallInv w) (ok : Bool) {site : FullSite} {c : Byte}
    {rest : List Byte} {n : ℕ} (hpc : w.driver.pc = .compare site c rest n) :
    CallInv (w.advance ok { w.driver with
      pc := Driver.afterFull site c rest (n == w.driver.cbufOut.tail) ok }) := by
  have hfull : (n == w.driver.cbufOut.tail) = w.driver.cbufOut.isFull := by
    rw [hi.compare site c rest n hpc]
    rfl
  have hbusy : w.driver.pc ≠ .idle := by simp [hpc]
  have hsize : nextSize w.size w.driver.pc = w.size := by rw [hpc]; rfl
  have stay : ∀ pc, Writer.pending pc = some (c :: rest) → (∀ s c r m, pc ≠ .compare s c r m) →
      (Enqueuing pc → (w.advance ok { w.driver with pc := pc }).disturbed = false →
        w.driver.cbufOut.isFull = false) →
      CallInv (w.advance ok { w.driver with pc := pc }) := by
    intro pc hpending hno hroom
    exact hi.next ok hbusy hsize hi.wf rfl (by rw [hpc]; exact hpending)
      (fun s c r m h => absurd h (hno s c r m)) hroom
  rw [hfull]
  unfold Driver.afterFull
  cases site with
  | test =>
      cases hf : w.driver.cbufOut.isFull with
      | true => exact stay (.testFlag c rest) rfl (fun _ _ _ _ h => by cases h) fun h => h.elim
      | false =>
          exact stay (.isFull .enqueue c rest) rfl (fun _ _ _ _ h => by cases h) fun _ _ => hf
  | wait =>
      cases hf : w.driver.cbufOut.isFull with
      | false =>
          exact stay (.isFull .enqueue c rest) rfl (fun _ _ _ _ h => by cases h) fun _ _ => hf
      | true =>
          cases ok with
          | true =>
              exact stay (.isFull .wait c rest) rfl (fun _ _ _ _ h => by cases h) fun h => h.elim
          | false =>
              -- a signal: the buffer is still full, and the call knows
              refine stay (.isFull .enqueue c rest) rfl (fun _ _ _ _ h => by cases h)
                fun _ hdisturbed => ?_
              have hd := (Bool.or_eq_false_iff.mp hdisturbed).2
              simp [disturbs, hpc, hfull, hf] at hd
  | enqueue =>
      cases hf : w.driver.cbufOut.isFull with
      | false =>
          exact stay (.enqueueData c rest) rfl (fun _ _ _ _ h => by cases h) fun h => h.elim
      | true =>
          have hpending : Writer.pending w.driver.pc = some (c :: rest) := by rw [hpc]; rfl
          refine hi.leave ok hpending hsize rfl fun hdisturbed => ?_
          have hroom := hi.room (by rw [hpc]; trivial) (Bool.or_eq_false_iff.mp hdisturbed).1
          rw [hf] at hroom
          cases hroom

/-- **A statement of `rs232_tut_write`**, by program point. -/
theorem CallInv.writer (hi : CallInv w) {ok : Bool} (h : w.driver.writer ok = some d) :
    CallInv (w.advance ok d) := by
  unfold Driver.writer at h
  cases hpc : w.driver.pc with
  | idle =>
      rw [hpc] at h
      cases h
  | loop rest =>
      rw [hpc] at h
      have hpending : Writer.pending w.driver.pc = some rest := by rw [hpc]; rfl
      have hsize : nextSize w.size w.driver.pc = w.size := by rw [hpc]; rfl
      cases rest with
      | nil =>
          cases h
          exact hi.leave ok hpending hsize rfl fun _ => rfl
      | cons c rest =>
          cases h
          cases ok with
          | true =>
              exact hi.goes true hpc (by simp) rfl hi.wf rfl rfl (by simp) id
          | false =>
              refine hi.leave false hpending hsize rfl fun hdisturbed => ?_
              have hd := (Bool.or_eq_false_iff.mp hdisturbed).2
              simp [disturbs, hpc] at hd
  | isFull site c rest =>
      rw [hpc] at h
      cases h
      refine hi.next ok (by simp [hpc]) (by rw [hpc]; rfl) hi.wf rfl (by rw [hpc]; rfl) ?_ ?_
      · intro _ _ _ n hn
        cases hn
        rfl
      · intro henqueuing hdisturbed
        refine hi.room ?_ (Bool.or_eq_false_iff.mp hdisturbed).1
        rw [hpc]
        cases site <;> exact henqueuing
  | compare site c rest n =>
      rw [hpc] at h
      cases h
      exact hi.afterFull ok hpc
  | testFlag c rest =>
      rw [hpc] at h
      cases h
      split
      · exact hi.goes ok hpc (by simp) rfl hi.wf rfl rfl (by simp) id
      · exact hi.goes ok hpc (by simp) rfl hi.wf rfl rfl (by simp) id
  | clearFlag c rest =>
      rw [hpc] at h
      cases h
      exact hi.goes ok hpc (by simp) rfl hi.wf rfl rfl (by simp) id
  | dequeue site =>
      rw [hpc] at h
      cases h
      split
      · exact hi.ends ok (by rw [hpc]; rfl) hi.wf rfl rfl
      · exact hi.goes ok hpc (by simp) rfl hi.wf rfl (by cases site <;> rfl) (by simp) id
  | takeData site =>
      rw [hpc] at h
      cases h
      exact hi.goes ok hpc (by simp) rfl hi.wf rfl (by cases site <;> rfl) (by simp) id
  | eraseData site data =>
      rw [hpc] at h
      cases h
      exact hi.goes ok hpc (by simp) rfl hi.wf.erase rfl (by cases site <;> rfl) (by simp) id
  | moveTail site data =>
      rw [hpc] at h
      cases h
      cases site with
      | full c rest =>
          exact hi.goes ok hpc (by simp) rfl hi.wf.moveTail rfl rfl (by simp) id
      | last =>
          exact hi.goes ok hpc (by simp) rfl hi.wf.moveTail rfl rfl (by simp) id
  | outb site data =>
      rw [hpc] at h
      cases h
      cases site with
      | full c rest =>
          exact hi.goes ok hpc (by simp) rfl hi.wf rfl rfl (by simp) id
      | last => exact hi.ends ok (by rw [hpc]; rfl) hi.wf rfl rfl
  | enqueueData c rest =>
      rw [hpc] at h
      cases h
      exact hi.goes ok hpc (by simp) rfl (hi.wf.put c) rfl rfl (by simp) id
  | moveHead c rest =>
      rw [hpc] at h
      cases h
      exact hi.moveHead ok hpc
  | lastTest =>
      rw [hpc] at h
      cases h
      split
      · exact hi.goes ok hpc (by simp) rfl hi.wf rfl rfl (by simp) id
      · exact hi.ends ok (by rw [hpc]; rfl) hi.wf rfl rfl
  | lastClear data =>
      rw [hpc] at h
      cases h
      exact hi.goes ok hpc (by simp) rfl hi.wf rfl rfl (by simp) id

/-! ## §6  Each step -/

theorem callInv_step {a : Act} {w' : Writer} (hi : CallInv w) (hstep : w.step a = some w') :
    CallInv w' := by
  obtain ⟨d, hd, rfl⟩ := Option.map_eq_some_iff.mp hstep
  have other : (∀ b, a ≠ .write b) → (∀ ok, a ≠ .writer ok) →
      CallInv { w with driver := d } :=
    fun hwrite hwriter => (step_sameCall hwrite hwriter hd).inv hi
  cases a with
  | write userbuffer =>
      obtain ⟨-, h⟩ := Option.ite_none_left_eq_some.mp hd
      obtain ⟨-, h⟩ := Option.ite_none_right_eq_some.mp h
      cases h
      have hnone : w.driver.enqueued.drop w.driver.enqueued.length = [] := List.drop_length
      refine ⟨hi.wf, Nat.le_refl _, ?_, ?_, (fun h => by cases h), (fun _ _ _ _ h => by cases h),
        fun h => h.elim⟩
      · show 0 = (w.driver.enqueued.drop w.driver.enqueued.length).length
        rw [hnone]
        rfl
      · intro rest hrest
        obtain rfl : userbuffer = rest := Option.some.inj hrest
        show userbuffer = w.driver.enqueued.drop w.driver.enqueued.length ++ userbuffer
        rw [hnone, List.nil_append]
  | writer ok =>
      obtain ⟨-, h⟩ := Option.ite_none_left_eq_some.mp hd
      obtain ⟨-, h⟩ := Option.ite_none_left_eq_some.mp h
      have hadvance := hi.writer h
      simp only [Writer.writer]
      split
      · exact ⟨hadvance.wf, hadvance.before, hadvance.size, hadvance.pending,
          fun hnone hidle => ⟨(hadvance.ended hnone hidle).1, (hadvance.ended hnone hidle).2⟩,
          hadvance.compare, hadvance.room⟩
      · exact hadvance
  | read n => exact other (fun _ h => by cases h) (fun _ h => by cases h)
  | interrupt => exact other (fun _ h => by cases h) (fun _ h => by cases h)
  | isr c => exact other (fun _ h => by cases h) (fun _ h => by cases h)
  | drain => exact other (fun _ h => by cases h) (fun _ h => by cases h)
  | arrive c => exact other (fun _ h => by cases h) (fun _ h => by cases h)
  | lineError => exact other (fun _ h => by cases h) (fun _ h => by cases h)

/-- **A statement that returns**: nothing was found to push, or the loop was over before. -/
theorem returns_cases {ok : Bool} (h : w.driver.writer ok = some d) (hidle : d.pc = .idle) :
    (∃ site, w.driver.pc = .dequeue site ∧ w.driver.cbufOut.isEmpty = true) ∨
      (Writer.pending w.driver.pc = none ∧ w.driver.pc ≠ .idle ∧
        (∀ site, w.driver.pc ≠ .dequeue site) ∧ value w.size w.driver.pc = w.size ∧
        d.enqueued = w.driver.enqueued ∧ disturbs w.driver ok = false) := by
  unfold Driver.writer at h
  cases hpc : w.driver.pc with
  | dequeue site =>
      rw [hpc] at h
      cases h
      cases hempty : w.driver.cbufOut.isEmpty with
      | true => exact Or.inl ⟨site, rfl, rfl⟩
      | false => simp [hempty] at hidle
  | outb site data =>
      rw [hpc] at h
      cases h
      cases site with
      | full c rest => cases hidle
      | last => exact Or.inr ⟨rfl, by simp, by simp, rfl, rfl, by simp [disturbs, hpc]⟩
  | lastTest =>
      rw [hpc] at h
      cases h
      exact Or.inr ⟨rfl, by simp, by simp, rfl, rfl, by simp [disturbs, hpc]⟩
  | loop rest =>
      rw [hpc] at h
      cases rest with
      | nil =>
          cases h
          cases hidle
      | cons c rest =>
          cases h
          cases ok <;> cases hidle
  | compare site c rest n =>
      rw [hpc] at h
      cases h
      cases site with
      | test => cases hf : n == w.driver.cbufOut.tail <;> simp [Driver.afterFull, hf] at hidle
      | wait =>
          cases hf : n == w.driver.cbufOut.tail <;> cases ok <;>
            simp [Driver.afterFull, hf] at hidle
      | enqueue => cases hf : n == w.driver.cbufOut.tail <;> simp [Driver.afterFull, hf] at hidle
  | testFlag c rest =>
      rw [hpc] at h
      cases h
      cases hflag : w.driver.emptyThrFromIsr <;> simp [hflag] at hidle
  | moveTail site data =>
      rw [hpc] at h
      cases h
      cases site <;> cases hidle
  | _ =>
      rw [hpc] at h
      cases h
      try cases hidle

/-- The call that returns does not report right if it had nothing to push, and only
then. -/
theorem reports_step {a : Act} {w' : Writer} (hi : CallInv w) (hr : Reports w)
    (hstep : w.step a = some w') : Reports w' ↔ FindsData w a := by
  obtain ⟨d, hd, rfl⟩ := Option.map_eq_some_iff.mp hstep
  cases a with
  | writer ok =>
      obtain ⟨-, h⟩ := Option.ite_none_left_eq_some.mp hd
      obtain ⟨-, h⟩ := Option.ite_none_left_eq_some.mp h
      simp only [Writer.writer]
      split
      · rename_i hidle
        rcases returns_cases h hidle with ⟨site, hpc, hempty⟩ |
          ⟨hnone, hbusy, hsite, hvalue, henqueued, hdisturbs⟩
        · -- `return -1`
          refine ⟨fun hall => ?_, fun hfinds => ?_⟩
          · have hbad := (hall _ (List.mem_append_right _ (List.mem_singleton_self _))).value
            simp only [value, hpc] at hbad
            omega
          · rw [hfinds site hpc] at hempty
            cases hempty
        · refine ⟨fun _ site hpc => absurd hpc (hsite site), fun _ c hc => ?_⟩
          rcases List.mem_append.mp hc with hc | hc
          · exact hr c hc
          obtain rfl := List.mem_singleton.mp hc
          have hended := hi.ended hnone hbusy
          have haccepted := accepted_advance (w := w) ok henqueued
          refine ⟨?_, ?_, fun hdisturbed => ?_⟩
          · simpa only [haccepted] using hended.prefix_userbuffer
          · show value w.size w.driver.pc = ((w.advance ok d).accepted.length : ℤ)
            rw [haccepted, hvalue, hi.size]
          · simp only [advance, hdisturbs, Bool.or_false] at hdisturbed
            simpa only [haccepted] using hended.all hdisturbed
      · rename_i hbusy
        refine ⟨fun _ site hpc => ?_, fun _ => hr⟩
        rw [Driver.writer, hpc] at h
        cases h
        cases hempty : w.driver.cbufOut.isEmpty with
        | false => rfl
        | true => exact absurd (by simp [hempty]) hbusy
  | write userbuffer => exact ⟨fun _ => trivial, fun _ => hr⟩
  | read n => exact ⟨fun _ => trivial, fun _ => hr⟩
  | interrupt => exact ⟨fun _ => trivial, fun _ => hr⟩
  | isr c => exact ⟨fun _ => trivial, fun _ => hr⟩
  | drain => exact ⟨fun _ => trivial, fun _ => hr⟩
  | arrive c => exact ⟨fun _ => trivial, fun _ => hr⟩
  | lineError => exact ⟨fun _ => trivial, fun _ => hr⟩

/-! ## §7  Runs -/

theorem callInv_start (hidle : d.pc = .idle) (hwf : d.cbufOut.Wf) : CallInv (start d) := by
  refine ⟨hwf, Nat.le_refl _, ?_, ?_, fun _ h => absurd hidle h, ?_, ?_⟩
  · show 0 = (d.enqueued.drop d.enqueued.length).length
    rw [List.drop_length]
    rfl
  · intro rest hrest
    rw [show (start d).driver.pc = .idle from hidle] at hrest
    cases hrest
  · intro _ _ _ _ h
    rw [show (start d).driver.pc = .idle from hidle] at h
    cases h
  · intro h
    rw [show (start d).driver.pc = .idle from hidle] at h
    exact h.elim

/-- **When the calls report what they enqueued**: exactly in the runs in which the
`cbuffer_dequeue` of `rs232_tut_write` always finds a byte. The run begins in any state in
which no call is in progress, so in any session, whatever the last one has left in the
flag. -/
theorem reports_iff (d : Driver) (hidle : d.pc = .idle) (hwf : d.cbufOut.Wf) (as : List Act)
    (w : Writer) (hrun : PartialMachine.run step (start d) as = some w) :
    Always step Reports (start d) as ↔ StepsMeet step FindsData (start d) as :=
  always_iff_stepsMeet (callInv_start hidle hwf) (fun _ h => by cases h)
    (fun _ _ _ => callInv_step) (fun _ _ _ => reports_step) as w hrun

/-- The driver of a session that found the flag up. -/
def flagUp : Driver := { Driver.init none with emptyThrFromIsr := true }

theorem reports_iff_twoBytes : ∃ w,
    PartialMachine.run step (start flagUp) Driver.twoBytes = some w ∧
      w.returned = [⟨[1, 2], [1, 2], false, 2⟩] ∧
      (Always step Reports (start flagUp) Driver.twoBytes ↔
        StepsMeet step FindsData (start flagUp) Driver.twoBytes) := by
  have hend : (PartialMachine.run step (start flagUp) Driver.twoBytes).map (fun w =>
      decide (w.returned = [⟨[1, 2], [1, 2], false, 2⟩])) = some true := by decide +kernel
  obtain ⟨w, hrun, hend⟩ := Option.map_eq_some_iff.mp hend
  exact ⟨w, hrun, of_decide_eq_true hend,
    reports_iff flagUp rfl (CBuffer.wf_init (by decide)) Driver.twoBytes w hrun⟩

/-- The byte is enqueued; before the last test the interrupt routine sends it, and then
finds nothing more to send. -/
def sentBefore : List Act :=
  Driver.call [1] 8 ++ Driver.serve ++ .drain :: Driver.serve ++ List.replicate 2 (.writer true)

theorem sent_and_refused : ∃ w,
    PartialMachine.run step (init none) sentBefore = some w ∧ w.driver.written = [1] ∧
      w.returned = [⟨[1], [1], false, -1⟩] ∧ ¬ Always step Reports (init none) sentBefore := by
  have hend : (PartialMachine.run step (init none) sentBefore).map (fun w =>
      decide (w.driver.written = [1] ∧ w.returned = [⟨[1], [1], false, -1⟩])) =
        some true := by decide +kernel
  obtain ⟨w, hrun, hend⟩ := Option.map_eq_some_iff.mp hend
  obtain ⟨hwritten, hreturned⟩ := of_decide_eq_true hend
  refine ⟨w, hrun, hwritten, hreturned, fun halways => ?_⟩
  have hvalue := (halways.last hrun ⟨[1], [1], false, -1⟩ (by rw [hreturned]; simp)).value
  simp at hvalue

end Writer

end OsAssignments.Rs232
