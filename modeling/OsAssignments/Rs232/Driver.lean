import OsAssignments.Lib.PartialMachine
import OsAssignments.Rs232.CBuffer

/-!
# The driver of the serial port

`driver/rs232_tp.c`, in a session that a first `open` has set up. One process
writes; `rs232_tut_write` is cut into its statements, and the interrupt routine
into the turns of its loop, which the writer does not get between. A call of
`rs232_tut_read` is one step; where it would wait on an empty buffer, it is put
where its wait ends.

The UART has no FIFO. It names the most urgent source in `IIR`; reading `IIR`
clears the interrupt of an empty THR if that is the source, and so does writing
THR. It raises that interrupt each time THR drains.

`enqueued`, `written`, `overwritten`, `history` and `delivered` are ghosts.
-/

namespace OsAssignments.Rs232

/-! ## §1  The data -/

/-- The source in the bits of `RS232_IIR_MASK`. -/
inductive Iir where
  /-- `RS232_INT_PENDING` is set: there is none. -/
  | none
  | EMPTY_THR
  | DATA_AVAIL
  | ERROR
deriving DecidableEq, Repr

structure Uart where
  /-- The byte in RBR that was not read. -/
  rbr : Option Byte
  error : Bool
  thr : Option Byte
  /-- The interrupt of an empty THR is pending. -/
  emptyThr : Bool
deriving DecidableEq, Repr

/-- Where `cbuffer_is_full` was called in `rs232_tut_write`. -/
inductive FullSite where
  | test
  /-- The condition of `wait_event_interruptible`. -/
  | wait
  /-- Inside `cbuffer_enqueue`. -/
  | enqueue
deriving DecidableEq, Repr

/-- Which of the two pushes to THR it is. -/
inductive PushSite where
  /-- The buffer was full; `c` is still to be enqueued, and then `rest`. -/
  | full (c : Byte) (rest : List Byte)
  | last
deriving DecidableEq, Repr

/-- What `rs232_tut_write` does next. -/
inductive Pc where
  /-- No call is in progress. -/
  | idle
  /-- The test of the `for` loop, and `copy_from_user`. -/
  | loop (rest : List Byte)
  /-- `next_to_head = (cb->head + 1) % cb->size`. -/
  | isFull (site : FullSite) (c : Byte) (rest : List Byte)
  /-- `next_to_head == cb->tail`. -/
  | compare (site : FullSite) (c : Byte) (rest : List Byte) (nextToHead : ℕ)
  /-- `empty_thr_from_isr == 1`, with the buffer found full. -/
  | testFlag (c : Byte) (rest : List Byte)
  | clearFlag (c : Byte) (rest : List Byte)
  /-- The test of `cbuffer_dequeue`. -/
  | dequeue (site : PushSite)
  | takeData (site : PushSite)
  | eraseData (site : PushSite) (data : Byte)
  | moveTail (site : PushSite) (data : Byte)
  | outb (site : PushSite) (data : Byte)
  | enqueueData (c : Byte) (rest : List Byte)
  | moveHead (c : Byte) (rest : List Byte)
  /-- `empty_thr_from_isr == 1`, after the loop. -/
  | lastTest
  | lastClear (data : Byte)
deriving DecidableEq, Repr

/-- What the receiving side has seen. -/
inductive InEvent where
  | received (c : Byte)
  | read (maximumSize : ℕ)
deriving DecidableEq, Repr

structure Driver where
  uart : Uart
  cbufIn : CBuffer
  cbufOut : CBuffer
  emptyThrFromIsr : Bool
  /-- `rs232_tut_isr` is running. -/
  isr : Bool
  pc : Pc
  /-- A store has faulted; nothing runs any more. -/
  faulted : Bool
  /-- What was enqueued into `cbuf_out`. -/
  enqueued : List Byte
  /-- What was written to THR. -/
  written : List Byte
  /-- THR was written while it was occupied. -/
  overwritten : Bool
  history : List InEvent
  /-- What the reads have copied to the user. -/
  delivered : List Byte

inductive Act where
  /-- A call of `rs232_tut_write`, of these bytes. -/
  | write (userbuffer : List Byte)
  /-- Its next statement. `copy_from_user` may fail, and a signal may end the wait. -/
  | writer (ok : Bool)
  | read (maximumSize : ℕ)
  /-- The processor enters `rs232_tut_isr`. -/
  | interrupt
  /-- A turn of its loop; `discardedCharacter` is what an uninitialised variable
  holds. -/
  | isr (discardedCharacter : Byte)
  /-- The byte in THR has been sent. -/
  | drain
  /-- A byte has come in. -/
  | arrive (c : Byte)
  | lineError
deriving DecidableEq, Repr

/-! ## §2  The UART -/

namespace Uart

/-- The most urgent source. -/
def iir (u : Uart) : Iir :=
  if u.error then .ERROR
  else if u.rbr.isSome then .DATA_AVAIL
  else if u.emptyThr then .EMPTY_THR
  else .none

theorem emptyThr_of_iir {u : Uart} (h : u.iir = .EMPTY_THR) : u.emptyThr = true := by
  unfold iir at h
  split at h
  · cases h
  · split at h
    · cases h
    · split at h
      · assumption
      · cases h

/-- The byte in THR is gone. -/
def drain (u : Uart) : Uart := { u with thr := none, emptyThr := true }

/-- An unread byte is lost, and that is an error. -/
def arrive (u : Uart) (c : Byte) : Uart :=
  { u with rbr := some c, error := u.error || u.rbr.isSome }

end Uart

namespace Driver

/-- `outb(c, RS232_THR(base_port))`. -/
def outbThr (d : Driver) (c : Byte) : Driver :=
  { d with
    uart := { d.uart with thr := some c, emptyThr := false }
    written := d.written ++ [c]
    overwritten := d.overwritten || d.uart.thr.isSome }

/-- What `open` leaves: the buffers are new, RBR was read, and interrupts are on. -/
def init (thr : Option Byte) : Driver where
  uart := { rbr := none, error := false, thr := thr, emptyThr := thr.isNone }
  cbufIn := CBuffer.init 80
  cbufOut := CBuffer.init 40
  emptyThrFromIsr := false
  isr := false
  pc := .idle
  faulted := false
  enqueued := []
  written := []
  overwritten := false
  history := []
  delivered := []

/-! ## §3  `rs232_tut_isr` -/

/-- The `RS232_DATA_AVAIL` case. -/
def dataAvail (d : Driver) (receivedCharacter discardedCharacter : Byte) : Driver :=
  let d : Driver := { d with
    uart.rbr := none
    history := d.history ++ [.received receivedCharacter] }
  if d.cbufIn.isFull then
    -- the variable itself is passed, not its address
    match d.cbufIn.dequeue (.char discardedCharacter) with
    | none => { d with faulted := true }
    | some (_, cb) => { d with cbufIn := (cb.enqueue receivedCharacter).2 }
  else { d with cbufIn := (d.cbufIn.enqueue receivedCharacter).2 }

/-- The `RS232_EMPTY_THR` case. -/
def emptyThr (d : Driver) : Driver :=
  if d.cbufOut.isEmpty then { d with emptyThrFromIsr := true }
  else
    match d.cbufOut.dequeue .variable with
    | some (some characterToSend, cb) => { d with cbufOut := cb }.outbThr characterToSend
    | _ => d

/-- A turn of the loop; with no interrupt pending the routine returns. -/
def isrTurn (d : Driver) (discardedCharacter : Byte) : Driver :=
  match d.uart.iir with
  | .none => { d with isr := false }
  | .EMPTY_THR => { d with uart.emptyThr := false }.emptyThr
  | .DATA_AVAIL => d.dataAvail (d.uart.rbr.getD 0) discardedCharacter
  | .ERROR => { d with uart.error := false }

/-! ## §4  `rs232_tut_read` -/

/-- The `for` loop, with `copy_to_user` that succeeds. -/
def readLoop : ℕ → CBuffer → List Byte × CBuffer
  | 0, cb => ([], cb)
  | n + 1, cb =>
      if cb.isEmpty then ([], cb)
      else
        match cb.dequeue .variable with
        | some (some receivedCharacter, cb) =>
            let (rest, cb) := readLoop n cb
            (receivedCharacter :: rest, cb)
        | _ => ([], cb)

def read (d : Driver) (maximumSize : ℕ) : Driver :=
  let (bytes, cb) := readLoop maximumSize d.cbufIn
  { d with
    cbufIn := cb
    history := d.history ++ [.read maximumSize]
    delivered := d.delivered ++ bytes }

/-! ## §5  `rs232_tut_write` -/

/-- What follows on `cbuffer_is_full`. -/
def afterFull (site : FullSite) (c : Byte) (rest : List Byte) (full ok : Bool) : Pc :=
  match site with
  | .test => if full then .testFlag c rest else .isFull .enqueue c rest
  | .wait => if full && ok then .isFull .wait c rest else .isFull .enqueue c rest
  | .enqueue => if full then .lastTest else .enqueueData c rest

/-- One statement. -/
def writer (d : Driver) (ok : Bool) : Option Driver :=
  match d.pc with
  | .idle => none
  | .loop [] => some { d with pc := .lastTest }
  | .loop (c :: rest) => some { d with pc := if ok then .isFull .test c rest else .lastTest }
  | .isFull site c rest => some { d with pc := .compare site c rest d.cbufOut.nextToHead }
  | .compare site c rest nextToHead =>
      some { d with pc := afterFull site c rest (nextToHead == d.cbufOut.tail) ok }
  | .testFlag c rest =>
      some { d with
        pc := if d.emptyThrFromIsr then .clearFlag c rest else .isFull .wait c rest }
  | .clearFlag c rest =>
      some { d with emptyThrFromIsr := false, pc := .dequeue (.full c rest) }
  | .dequeue site =>
      -- `return -1`, if there is nothing to push
      some { d with pc := if d.cbufOut.isEmpty then .idle else .takeData site }
  | .takeData site => some { d with pc := .eraseData site (d.cbufOut.cbuff d.cbufOut.tail) }
  | .eraseData site data =>
      some { d with cbufOut := d.cbufOut.erase, pc := .moveTail site data }
  | .moveTail site data =>
      some { d with
        cbufOut := d.cbufOut.moveTail
        pc := match site with
          | .full _ _ => .outb site data
          | .last => .lastClear data }
  | .outb site data =>
      some { d.outbThr data with
        pc := match site with
          | .full c rest => .isFull .wait c rest
          | .last => .idle }
  | .enqueueData c rest => some { d with cbufOut := d.cbufOut.put c, pc := .moveHead c rest }
  | .moveHead c rest =>
      some { d with
        cbufOut := d.cbufOut.moveHead
        enqueued := d.enqueued ++ [c]
        pc := .loop rest }
  | .lastTest =>
      some { d with pc := if d.emptyThrFromIsr then .dequeue .last else .idle }
  | .lastClear data => some { d with emptyThrFromIsr := false, pc := .outb .last data }

/-! ## §6  Steps -/

def step (d : Driver) (a : Act) : Option Driver :=
  if d.faulted then none
  else
    match a with
    | .write userbuffer =>
        if d.isr = false ∧ d.pc = .idle then some { d with pc := .loop userbuffer } else none
    | .writer ok => if d.isr then none else d.writer ok
    | .read maximumSize => if d.isr then none else some (d.read maximumSize)
    | .interrupt =>
        if d.isr = false ∧ d.uart.iir ≠ .none then some { d with isr := true } else none
    | .isr discardedCharacter =>
        if d.isr then some (d.isrTurn discardedCharacter) else none
    | .drain => if d.uart.thr.isSome then some { d with uart := d.uart.drain } else none
    | .arrive c => some { d with uart := d.uart.arrive c }
    | .lineError => some { d with uart.error := true }

end Driver

end OsAssignments.Rs232
