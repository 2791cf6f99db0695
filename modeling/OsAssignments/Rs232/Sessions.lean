import OsAssignments.Rs232.WriteCalls

/-!
# Sessions

`rs232_tut_release` frees the buffers and `rs232_tut_open` makes new ones, but
`empty_thr_from_isr` is a global that neither of them touches: a session starts with
the flag as the last one left it. In the first session it is down until the interrupt
routine has found nothing to send.

Two runs are compared, of the new session and of the first one, under one schedule.
Up to the first test of the flag they only differ in the flag, and the interrupt
routine makes the flags equal.

- `sameAsFirst_of_stepsMeet` — the sessions look the same in every run in which the
  writer never finds the flag up before the interrupt routine has raised it.
- `not_sameAsFirst_overwrites` — a session that pushes a byte over another one.
-/

namespace OsAssignments.Rs232

open PartialMachine

/-! ## §1  The code -/

namespace Driver

/-- `rs232_tut_release`, and the next `rs232_tut_open`. -/
def reopen (d : Driver) : Driver :=
  { init d.uart.thr with emptyThrFromIsr := d.emptyThrFromIsr }

/-- The session can be closed: every byte was sent. -/
structure SentAll (d : Driver) : Prop where
  pc : d.pc = .idle
  isr : d.isr = false
  faulted : d.faulted = false
  cbufOut : d.cbufOut.isEmpty = true
  thr : d.uart.thr = none

/-- What `rs232_tut_open` leaves, after sessions that sent everything. -/
inductive Opened : Driver → Prop
  | first (thr : Option Byte) : Opened (init thr)
  | next {d d' : Driver} (as : List Act) : Opened d → run step d as = some d' → SentAll d' →
      Opened d'.reopen

end Driver

/-- A session, from `rs232_tut_open` on. -/
structure Session where
  writer : Writer
  /-- Ghost: the interrupt routine has raised the flag in this session. -/
  raised : Bool

/-- The interrupt routine finds nothing to send. -/
def Driver.raises (d : Driver) : Act → Bool
  | .isr _ => d.isr && d.uart.iir == .EMPTY_THR && d.cbufOut.isEmpty
  | _ => false

namespace Session

def start (d : Driver) : Session := ⟨{ Writer.init d.uart.thr with driver := d }, false⟩

def step (s : Session) (a : Act) : Option Session :=
  (s.writer.step a).map fun w => ⟨w, s.raised || s.writer.driver.raises a⟩

/-- What a schedule does with an action: it is skipped if it cannot be taken. -/
def turn (s : Session) (a : Act) : Option Session := some ((s.step a).getD s)

end Session

def Writer.turn (w : Writer) (a : Act) : Option Writer := some ((w.step a).getD w)

/-! ## §2  The property -/

/-- What can be seen of a session. -/
structure Observation where
  /-- The bytes that were written to THR. -/
  written : List Byte
  overwritten : Bool
  /-- What the calls of `rs232_tut_write` have returned. -/
  returned : List ℤ
deriving DecidableEq, Repr

def Writer.observe (w : Writer) : Observation :=
  ⟨w.driver.written, w.driver.overwritten, w.returned.map WriteCall.value⟩

namespace Session

/-- At every point of the schedule, the session looks as the first one after the module
was loaded would. -/
def SameAsFirst (d : Driver) (as : List Act) : Prop :=
  ∀ pre post, as = pre ++ post →
    (run turn (start d) pre).map (fun s => s.writer.observe) =
      (run Writer.turn (Writer.init d.uart.thr) pre).map Writer.observe

end Session

/-- The flag is tested. -/
def Pc.readsFlag : Pc → Bool
  | .testFlag _ _ => true
  | .lastTest => true
  | _ => false

/-- The writer does not find the flag up before the interrupt routine has raised it. -/
def Session.FindsRaised (s : Session) : Act → Prop
  | .writer _ => s.writer.driver.isr = false → s.writer.driver.pc.readsFlag = true →
      s.writer.driver.emptyThrFromIsr = true → s.raised = true
  | _ => True

/-! ## §3  Another flag -/

/-- The writer takes the flag down. -/
def Pc.lowersFlag : Pc → Bool
  | .clearFlag _ _ => true
  | .lastClear _ => true
  | _ => false

namespace Driver

/-- The driver, had the flag been `flag`. -/
def withFlag (flag : Bool) (d : Driver) : Driver := { d with emptyThrFromIsr := flag }

/-- What a step makes of the flag. -/
def nextFlag (d : Driver) (flag : Bool) : Act → Bool
  | .isr c => flag || d.raises (.isr c)
  | .writer _ => flag && !d.pc.lowersFlag
  | _ => flag

/-- The step reads the flag. -/
def ReadsFlag (d : Driver) : Act → Prop
  | .writer _ => d.isr = false ∧ d.pc.readsFlag = true
  | _ => False

theorem emptyThr_withFlag (d : Driver) (flag : Bool) :
    (d.withFlag flag).emptyThr = d.emptyThr.withFlag (flag || d.cbufOut.isEmpty) := by
  have hcbufOut : (d.withFlag flag).cbufOut = d.cbufOut := rfl
  unfold emptyThr
  rw [hcbufOut]
  cases hempty : d.cbufOut.isEmpty with
  | true => simp [withFlag]
  | false =>
      rw [if_neg Bool.false_ne_true, if_neg Bool.false_ne_true, Bool.or_false]
      cases d.cbufOut.dequeue .variable with
      | none => rfl
      | some r =>
          obtain ⟨data, cb⟩ := r
          cases data <;> rfl

theorem dataAvail_withFlag (d : Driver) (flag : Bool) (c discarded : Byte) :
    (d.withFlag flag).dataAvail c discarded = (d.dataAvail c discarded).withFlag flag := by
  have hcbufIn : (d.withFlag flag).cbufIn = d.cbufIn := rfl
  unfold dataAvail
  dsimp only
  rw [hcbufIn]
  split
  · cases d.cbufIn.dequeue (.char discarded) with
    | none => rfl
    | some r => rfl
  · rfl

theorem isrTurn_withFlag (d : Driver) (flag : Bool) (discarded : Byte) (hisr : d.isr = true) :
    (d.withFlag flag).isrTurn discarded =
      (d.isrTurn discarded).withFlag (d.nextFlag flag (.isr discarded)) := by
  have huart : (d.withFlag flag).uart = d.uart := rfl
  have hnext : d.nextFlag flag (.isr discarded) =
      (flag || (d.uart.iir == .EMPTY_THR && d.cbufOut.isEmpty)) := by
    simp [nextFlag, raises, hisr]
  rw [hnext]
  unfold isrTurn
  rw [huart]
  cases d.uart.iir with
  | none => exact congrArg (withFlag · { d with isr := false }) (Bool.or_false flag).symm
  | EMPTY_THR => exact emptyThr_withFlag { d with uart.emptyThr := false } flag
  | DATA_AVAIL =>
      exact (dataAvail_withFlag d flag _ discarded).trans
        (congrArg (withFlag · (d.dataAvail (d.uart.rbr.getD 0) discarded))
          (Bool.or_false flag).symm)
  | ERROR => exact congrArg (withFlag · { d with uart.error := false }) (Bool.or_false flag).symm

/-- A statement of the writer, by program point. -/
theorem writer_withFlag (d : Driver) (flag ok : Bool)
    (hreads : d.pc.readsFlag = true → flag = d.emptyThrFromIsr) :
    (d.withFlag flag).writer ok =
      (d.writer ok).map (withFlag (d.nextFlag flag (.writer ok))) := by
  have hpc : (d.withFlag flag).pc = d.pc := rfl
  unfold writer nextFlag
  rw [hpc]
  cases h : d.pc with
  | loop rest =>
      simp only [Pc.lowersFlag, Bool.not_false, Bool.and_true]
      cases rest <;> rfl
  | testFlag c rest =>
      obtain rfl := hreads (by rw [h]; rfl)
      simp only [Pc.lowersFlag, Bool.not_false, Bool.and_true]
      rfl
  | lastTest =>
      obtain rfl := hreads (by rw [h]; rfl)
      simp only [Pc.lowersFlag, Bool.not_false, Bool.and_true]
      rfl
  | clearFlag c rest =>
      simp only [Pc.lowersFlag, Bool.not_true, Bool.and_false]
      rfl
  | lastClear data =>
      simp only [Pc.lowersFlag, Bool.not_true, Bool.and_false]
      rfl
  | _ =>
      simp only [Pc.lowersFlag, Bool.not_false, Bool.and_true]
      rfl

/-- **One step, with another flag.** Unless it reads the flag, it does the same. -/
theorem step_withFlag (d : Driver) (flag : Bool) (a : Act)
    (hreads : d.ReadsFlag a → flag = d.emptyThrFromIsr) :
    (d.withFlag flag).step a = (d.step a).map (withFlag (d.nextFlag flag a)) := by
  have hfaulted : (d.withFlag flag).faulted = d.faulted := rfl
  have hisr : (d.withFlag flag).isr = d.isr := rfl
  unfold step
  rw [hfaulted]
  cases d.faulted with
  | true => rfl
  | false =>
      cases a with
      | writer ok =>
          simp only [hisr, Bool.false_eq_true, if_false]
          cases h : d.isr with
          | true => rfl
          | false => exact writer_withFlag d flag ok fun hpc => hreads ⟨h, hpc⟩
      | isr discarded =>
          simp only [hisr, Bool.false_eq_true, if_false]
          cases h : d.isr with
          | true => simpa using isrTurn_withFlag d flag discarded h
          | false => rfl
      | write userbuffer =>
          have hpc : (d.withFlag flag).pc = d.pc := rfl
          simp only [hisr, hpc, Bool.false_eq_true, if_false]
          split <;> rfl
      | read n =>
          simp only [hisr, Bool.false_eq_true, if_false]
          split <;> rfl
      | interrupt =>
          have huart : (d.withFlag flag).uart = d.uart := rfl
          simp only [hisr, huart, Bool.false_eq_true, if_false]
          split <;> rfl
      | drain =>
          have huart : (d.withFlag flag).uart = d.uart := rfl
          simp only [huart, Bool.false_eq_true, if_false]
          split <;> rfl
      | arrive c => rfl
      | lineError => rfl

variable {d : Driver} {a : Act}

theorem nextFlag_of_step {d' : Driver} (h : d.step a = some d') :
    d'.emptyThrFromIsr = d.nextFlag d.emptyThrFromIsr a := by
  have hsame := step_withFlag d d.emptyThrFromIsr a fun _ => rfl
  rw [show d.withFlag d.emptyThrFromIsr = d from rfl, h] at hsame
  exact congrArg emptyThrFromIsr (Option.some.inj hsame)

theorem nextFlag_of_raises (flag : Bool) (h : d.raises a = true) : d.nextFlag flag a = true := by
  cases a with
  | isr discarded =>
      show (flag || d.raises (.isr discarded)) = true
      rw [h, Bool.or_true]
  | _ => cases h

theorem nextFlag_false (h : d.raises a = false) : d.nextFlag false a = false := by
  cases a with
  | isr discarded => exact h
  | _ => rfl

end Driver

/-! ## §4  The two sessions -/

namespace Writer

def withFlag (flag : Bool) (w : Writer) : Writer := { w with driver := w.driver.withFlag flag }

theorem writer_withFlag (w : Writer) (d : Driver) (ok flag next : Bool) :
    (w.withFlag flag).writer ok (d.withFlag next) = (w.writer ok d).withFlag next := by
  have hpc : (d.withFlag next).pc = d.pc := rfl
  unfold writer
  dsimp only
  rw [hpc]
  split <;> rfl

theorem step_withFlag (w : Writer) (flag : Bool) (a : Act)
    (hreads : w.driver.ReadsFlag a → flag = w.driver.emptyThrFromIsr) :
    (w.withFlag flag).step a = (w.step a).map (withFlag (w.driver.nextFlag flag a)) := by
  unfold step
  rw [show (w.withFlag flag).driver = w.driver.withFlag flag from rfl,
    Driver.step_withFlag w.driver flag a hreads, Option.map_map, Option.map_map]
  refine congrArg (Option.map · (w.driver.step a)) (funext fun d => ?_)
  cases a with
  | writer ok =>
      exact writer_withFlag w d ok flag _
  | _ => rfl

theorem driver_of_step {w w' : Writer} {a : Act} (h : w.step a = some w') :
    w.driver.step a = some w'.driver := by
  obtain ⟨d, hd, rfl⟩ := Option.map_eq_some_iff.mp h
  rw [hd]
  cases a with
  | writer ok =>
      show some d = some (w.writer ok d).driver
      unfold writer
      split <;> rfl
  | _ => rfl

end Writer

/-- The session and the first one, under one schedule: they differ in the flag at most,
and not any more once the interrupt routine has raised it. -/
structure Follows (s : Session) (w : Writer) : Prop where
  writer : s.writer = w.withFlag s.writer.driver.emptyThrFromIsr
  raised : s.raised = true → s.writer.driver.emptyThrFromIsr = w.driver.emptyThrFromIsr
  down : s.raised = false → w.driver.emptyThrFromIsr = false

theorem Follows.reads {s : Session} {w : Writer} {a : Act} (h : Follows s w)
    (hfinds : s.FindsRaised a) (hreads : w.driver.ReadsFlag a) :
    s.writer.driver.emptyThrFromIsr = w.driver.emptyThrFromIsr := by
  cases hraised : s.raised with
  | true => exact h.raised hraised
  | false =>
      rw [h.down hraised]
      by_contra hup
      cases a with
      | writer ok =>
          have hisr : s.writer.driver.isr = w.driver.isr := by rw [h.writer]; rfl
          have hpc : s.writer.driver.pc = w.driver.pc := by rw [h.writer]; rfl
          have hyes := hfinds (hisr ▸ hreads.1) (hpc ▸ hreads.2) (by simpa using hup)
          rw [hraised] at hyes
          cases hyes
      | _ => exact hreads

/-- **One turn of the schedule.** -/
theorem follows_turn {s : Session} {w : Writer} {a : Act} (h : Follows s w)
    (hfinds : s.FindsRaised a) : Option.Rel Follows (s.turn a) (w.turn a) := by
  have hstep : s.writer.step a =
      (w.step a).map (Writer.withFlag (w.driver.nextFlag s.writer.driver.emptyThrFromIsr a)) := by
    conv_lhs => rw [h.writer]
    exact w.step_withFlag _ a (h.reads hfinds)
  have hraises : s.writer.driver.raises a = w.driver.raises a := by
    rw [h.writer]
    cases a <;> rfl
  unfold Session.turn Session.step Writer.turn
  rw [hstep, hraises]
  cases hw : w.step a with
  | none => exact .some h
  | some w' =>
      have hflag := Driver.nextFlag_of_step (Writer.driver_of_step hw)
      refine .some ⟨rfl, fun hraised => ?_, fun hraised => ?_⟩
      · show w.driver.nextFlag s.writer.driver.emptyThrFromIsr a = w'.driver.emptyThrFromIsr
        rcases Bool.or_eq_true_iff.mp hraised with hraised | hraised
        · rw [hflag, h.raised hraised]
        · rw [hflag, Driver.nextFlag_of_raises _ hraised, Driver.nextFlag_of_raises _ hraised]
      · obtain ⟨hdown, hquiet⟩ := Bool.or_eq_false_iff.mp hraised
        show w'.driver.emptyThrFromIsr = false
        rw [hflag, h.down hdown, Driver.nextFlag_false hquiet]

namespace Session

open Driver (Opened)

/-- **What a session finds** is what the first one does, but for the flag. -/
theorem opened_eq {d : Driver} (h : Opened d) :
    d = (Driver.init d.uart.thr).withFlag d.emptyThrFromIsr := by
  cases h <;> rfl

theorem follows_start {d : Driver} (h : Opened d) :
    Follows (start d) (Writer.init d.uart.thr) := by
  refine ⟨?_, (fun h => by cases h), fun _ => rfl⟩
  show ({ Writer.init d.uart.thr with driver := d } : Writer) =
    { Writer.init d.uart.thr with
      driver := (Driver.init d.uart.thr).withFlag d.emptyThrFromIsr }
  rw [← opened_eq h]

/-! ## §5  Runs -/

/-- **Sessions are independent**, under every schedule in which the writer does not find
the flag up before the interrupt routine of the session has raised it. -/
theorem sameAsFirst_of_stepsMeet (d : Driver) (hopened : Opened d) (as : List Act)
    (hmeet : StepsMeet turn FindsRaised (start d) as) : SameAsFirst d as := by
  rintro pre post rfl
  have hrel := run_rel_of_stepsMeet (fun _ _ a h hfinds => follows_turn (a := a) h hfinds) pre
    (start d) (Writer.init d.uart.thr) (follows_start hopened) hmeet.of_append
  revert hrel
  generalize run turn (start d) pre = s, run Writer.turn (Writer.init d.uart.thr) pre = w
  intro hrel
  cases hrel with
  | none => rfl
  | @some s w hfollows =>
      show some s.writer.observe = some w.observe
      rw [hfollows.writer]
      rfl

instance (s : Session) : ∀ a, Decidable (FindsRaised s a)
  | .writer _ => inferInstanceAs (Decidable (_ → _ → _ → _))
  | .write _ => isTrue trivial
  | .read _ => isTrue trivial
  | .interrupt => isTrue trivial
  | .isr _ => isTrue trivial
  | .drain => isTrue trivial
  | .arrive _ => isTrue trivial
  | .lineError => isTrue trivial

/-- What the second session finds, after one in which two bytes were sent. -/
theorem exists_opened_twoBytes : ∃ d, Opened d ∧ d = (Driver.init none).withFlag true := by
  have hend : (PartialMachine.run Driver.step (Driver.init none) Driver.twoBytes).map (fun d =>
      decide (d.pc = .idle ∧ d.isr = false ∧ d.faulted = false ∧ d.cbufOut.isEmpty = true ∧
        d.uart.thr = none ∧ d.emptyThrFromIsr = true)) = some true := by decide +kernel
  obtain ⟨d, hrun, hend⟩ := Option.map_eq_some_iff.mp hend
  obtain ⟨hpc, hisr, hfaulted, hcbufOut, hthr, hflag⟩ := of_decide_eq_true hend
  refine ⟨d.reopen, .next Driver.twoBytes (.first none) hrun ⟨hpc, hisr, hfaulted, hcbufOut, hthr⟩,
    ?_⟩
  unfold Driver.reopen Driver.withFlag
  rw [hthr, hflag]

/-- A second session, whose first interrupt is served before its first write. -/
theorem sameAsFirst_of_stepsMeet_second : ∃ d, Opened d ∧ d.emptyThrFromIsr = true ∧
    SameAsFirst d (Driver.serve ++ Driver.call [3] 15) := by
  obtain ⟨d, hopened, hd⟩ := exists_opened_twoBytes
  refine ⟨d, hopened, by rw [hd]; rfl, sameAsFirst_of_stepsMeet d hopened _ ?_⟩
  rw [hd]
  exact (stepsMeet_iff _ _).mp (by decide +kernel)

/-- The first interrupt of the session is served during the first write. -/
def servedLate : List Act :=
  Driver.call [5, 6] 15 ++ Driver.serve ++ List.replicate 7 (.writer true)

theorem not_sameAsFirst_overwrites : ∃ d s w, Opened d ∧
    run turn (start d) servedLate = some s ∧
    run Writer.turn (Writer.init d.uart.thr) servedLate = some w ∧
    s.writer.observe = ⟨[5, 6], true, [2]⟩ ∧ w.observe = ⟨[5], false, [2]⟩ ∧
    ¬ SameAsFirst d servedLate := by
  obtain ⟨d, hopened, hd⟩ := exists_opened_twoBytes
  have hsecond : (run turn (start d) servedLate).map (fun s => s.writer.observe) =
      some ⟨[5, 6], true, [2]⟩ := by
    rw [hd]
    decide +kernel
  have hfirst : (run Writer.turn (Writer.init d.uart.thr) servedLate).map Writer.observe =
      some ⟨[5], false, [2]⟩ := by
    rw [hd]
    decide +kernel
  obtain ⟨s, hs, hsobserve⟩ := Option.map_eq_some_iff.mp hsecond
  obtain ⟨w, hw, hwobserve⟩ := Option.map_eq_some_iff.mp hfirst
  refine ⟨d, s, w, hopened, hs, hw, hsobserve, hwobserve, fun hsame => ?_⟩
  have heq := hsame servedLate [] (List.append_nil _).symm
  rw [hsecond, hfirst] at heq
  cases heq

end Session

end OsAssignments.Rs232
