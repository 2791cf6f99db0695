import Mathlib.Logic.Function.Basic
import OsAssignments.Rs232.Receive
import OsAssignments.Rs232.Transmit

/-!
# Two machines on one line

The ports of two machines, each with the driver, are joined by a cable: a byte that has
left THR at one end comes into RBR at the other, some time later and in order. Both ends
write and read, in any interleaving with both interrupt routines.

- `Line.delivers` — **from the writes at one end to the reads at the other** no byte is
  lost, doubled or reordered, while every byte is taken from RBR before the next one comes.
-/

namespace OsAssignments.Rs232

open PartialMachine

/-! ## §1  The line -/

inductive End where
  | left
  | right
deriving DecidableEq, Repr

def End.other : End → End
  | .left => .right
  | .right => .left

/-- `wire e` is on its way to `e`. -/
structure Line where
  driver : End → Driver
  wire : End → List Byte

namespace Line

def init (thr : End → Option Byte) : Line := ⟨fun e => Driver.init (thr e), fun _ => []⟩

/-- What the cable carries after an action of `e`: a byte comes out of it, or goes in. -/
def wireAfter (l : Line) (e : End) : Act → Option (End → List Byte)
  | .arrive c =>
      match l.wire e with
      | [] => none
      | c' :: wire => if c' = c then some (Function.update l.wire e wire) else none
  | .drain => some (Function.update l.wire e.other
      (l.wire e.other ++ (l.driver e).uart.thr.toList))
  | _ => some l.wire

def step (l : Line) (a : End × Act) : Option Line := do
  let d ← (l.driver a.1).step a.2
  let wire ← l.wireAfter a.1 a.2
  some ⟨Function.update l.driver a.1 d, wire⟩

end Line

/-- A byte only comes in while RBR is free. -/
def Driver.HasRoom (d : Driver) : Act → Prop
  | .arrive _ => d.uart.rbr = none
  | _ => True

/-- The conditions on the two halves of the driver, and on the UART. -/
def Line.Prompt (l : Line) (a : End × Act) : Prop :=
  (l.driver a.1).FindsByte a.2 ∧ (l.driver a.1).KeepsUp a.2 ∧ (l.driver a.1).HasRoom a.2

/-! ## §2  One end -/

namespace Driver

variable {d d' : Driver}

/-- The bytes that have come to this end. -/
def heard (d : Driver) : List Byte := Recent.arrivals d.history ++ d.uart.rbr.toList

/-- What goes to THR stays there, and no byte comes in. -/
structure Flows (d d' : Driver) : Prop where
  pushed : ∃ bs, d'.written = d.written ++ bs ∧ d'.uart.thr.toList = d.uart.thr.toList ++ bs
  heard : d'.heard = d.heard

theorem flows_of_same (hwritten : d'.written = d.written) (hthr : d'.uart.thr = d.uart.thr)
    (hheard : d'.heard = d.heard) : Flows d d' := by
  refine ⟨⟨[], ?_, ?_⟩, hheard⟩
  · rw [hwritten, List.append_nil]
  · rw [hthr, List.append_nil]

theorem flows_of_outb {c : Byte} (hover : d'.overwritten = false)
    (hoverwritten : d'.overwritten = (d.overwritten || d.uart.thr.isSome))
    (hwritten : d'.written = d.written ++ [c]) (hthr : d'.uart.thr = some c)
    (hheard : d'.heard = d.heard) : Flows d d' := by
  rw [hoverwritten, Bool.or_eq_false_iff, Option.isSome_eq_false_iff,
    Option.isNone_iff_eq_none] at hover
  refine ⟨⟨[c], hwritten, ?_⟩, hheard⟩
  rw [hthr, hover.2]
  rfl

theorem writer_flows {ok : Bool} (h : d.writer ok = some d') (hover : d'.overwritten = false) :
    Flows d d' := by
  unfold writer at h
  cases hpc : d.pc with
  | idle =>
      rw [hpc] at h
      cases h
  | outb site data =>
      rw [hpc] at h
      cases h
      exact flows_of_outb hover rfl rfl rfl rfl
  | loop rest =>
      rw [hpc] at h
      cases rest with
      | nil =>
          cases h
          exact flows_of_same rfl rfl rfl
      | cons c rest =>
          cases h
          exact flows_of_same rfl rfl rfl
  | _ =>
      rw [hpc] at h
      cases h
      exact flows_of_same rfl rfl rfl

theorem idle_of_writer_eq_none {ok : Bool} (h : d.writer ok = none) : d.pc = .idle := by
  unfold writer at h
  cases hpc : d.pc with
  | idle => rfl
  | loop rest =>
      rw [hpc] at h
      cases rest <;> cases h
  | _ =>
      rw [hpc] at h
      cases h

/-- The byte in RBR is taken, into the buffer or not. -/
theorem dataAvail_flows {c : Byte} (hrbr : d.uart.rbr = some c) (discarded : Byte) :
    Flows d (d.dataAvail c discarded) := by
  have hsame := dataAvail_sameOutput d c discarded
  refine flows_of_same hsame.written hsame.thr ?_
  have htaken : Recent.arrivals (d.history ++ [.received c]) ++ [] = d.heard := by
    rw [heard, hrbr]
    simp [Recent.arrivals]
  unfold dataAvail
  dsimp only
  split
  · split
    · exact htaken
    · exact htaken
  · exact htaken

theorem isrTurn_flows {discarded : Byte} (hover : (d.isrTurn discarded).overwritten = false) :
    Flows d (d.isrTurn discarded) := by
  unfold isrTurn at hover ⊢
  cases hiir : d.uart.iir with
  | none => exact flows_of_same rfl rfl rfl
  | EMPTY_THR =>
      rw [hiir] at hover
      dsimp only at hover ⊢
      unfold emptyThr at hover ⊢
      split
      · exact flows_of_same rfl rfl rfl
      · rename_i hempty
        rw [if_neg hempty] at hover
        split at hover
        · exact flows_of_outb hover rfl rfl rfl rfl
        · exact flows_of_same rfl rfl rfl
  | DATA_AVAIL =>
      have hsome : d.uart.rbr.isSome = true := by
        by_contra hnone
        unfold Uart.iir at hiir
        rw [if_neg hnone] at hiir
        split_ifs at hiir
      obtain ⟨c, hc⟩ := Option.isSome_iff_exists.mp hsome
      rw [hc]
      exact dataAvail_flows hc discarded
  | ERROR => exact flows_of_same rfl rfl rfl

/-- **A step of one end**, but for the two that the line takes part in. -/
theorem step_flows {a : Act} (h : d.step a = some d') (hover : d'.overwritten = false)
    (hdrain : a ≠ .drain) (harrive : ∀ c, a ≠ .arrive c) : Flows d d' := by
  obtain ⟨-, h⟩ := Option.ite_none_left_eq_some.mp h
  cases a with
  | write userbuffer =>
      obtain ⟨-, h⟩ := Option.ite_none_right_eq_some.mp h
      cases h
      exact flows_of_same rfl rfl rfl
  | writer ok =>
      obtain ⟨-, h⟩ := Option.ite_none_left_eq_some.mp h
      exact writer_flows h hover
  | read n =>
      obtain ⟨-, h⟩ := Option.ite_none_left_eq_some.mp h
      cases h
      refine flows_of_same rfl rfl ?_
      simp [heard, read, Recent.arrivals]
  | interrupt =>
      obtain ⟨-, h⟩ := Option.ite_none_right_eq_some.mp h
      cases h
      exact flows_of_same rfl rfl rfl
  | isr discarded =>
      obtain ⟨-, h⟩ := Option.ite_none_right_eq_some.mp h
      cases h
      exact isrTurn_flows hover
  | drain => exact absurd rfl hdrain
  | arrive c => exact absurd rfl (harrive c)
  | lineError =>
      cases h
      exact flows_of_same rfl rfl rfl

/-- Every byte that was taken from RBR is in the buffer, or was read. -/
structure HasAll (d : Driver) : Prop where
  input : InputInv d
  ok : d.faulted = false
  received : Recent.arrivals d.history = d.delivered ++ d.cbufIn.contents

theorem HasAll.step {a : Act} (h : d.HasAll) (hkeeps : KeepsUp d a) (hstep : d.step a = some d') :
    d'.HasAll := by
  rcases step_input hstep with ⟨hsame, -⟩ | ⟨n, rfl, rfl⟩ | ⟨htakes, discarded, rfl, rfl⟩
  · refine ⟨hsame.inv h.input, hsame.faulted.trans h.ok, ?_⟩
    rw [hsame.history, hsame.delivered, hsame.cbufIn]
    exact h.received
  · obtain ⟨htake, hwf, hsize, hdrop⟩ := readLoop_spec h.input.wf n
    refine ⟨⟨hwf, hsize.trans h.input.size⟩, h.ok, ?_⟩
    have harrivals : Recent.arrivals (d.read n).history = Recent.arrivals d.history := by
      simp [read, Recent.arrivals]
    rw [harrivals, h.received]
    show _ = (d.delivered ++ (readLoop n d.cbufIn).1) ++ (readLoop n d.cbufIn).2.contents
    rw [htake, hdrop, List.append_assoc, List.take_append_drop]
  · have hroom := hkeeps htakes.1 htakes.2
    have hfull : d.cbufIn.isFull = false := by
      rw [← Bool.not_eq_true, h.input.wf.isFull_iff]
      omega
    obtain ⟨-, hwf, hsize, hcontents⟩ := h.input.wf.enqueue (d.uart.rbr.getD 0) hfull
    rw [dataAvail_eq h.input, hfull]
    refine ⟨⟨hwf, hsize.trans h.input.size⟩, h.ok, ?_⟩
    show Recent.arrivals (d.history ++ [.received (d.uart.rbr.getD 0)]) =
      d.delivered ++ (d.cbufIn.enqueue (d.uart.rbr.getD 0)).2.contents
    rw [hcontents, ← List.append_assoc, ← h.received]
    simp [Recent.arrivals]

end Driver

/-! ## §3  Both ends -/

theorem End.other_other (e : End) : e.other.other = e := by cases e <;> rfl

theorem End.other_ne (e : End) : e.other ≠ e := by cases e <;> decide

theorem End.eq_or_eq_other (e e' : End) : e' = e ∨ e' = e.other := by
  cases e <;> cases e' <;> simp [other]

namespace Line

variable {l l' : Line} {thr : End → Option Byte}

/-- **A step of end `e`** moves bytes along: out of the cable into RBR, or from THR into
the cable, or from the driver into THR. -/
theorem step_moves {e : End} {a : Act} {d : Driver} {wire : End → List Byte}
    (hover : d.overwritten = false) (hprompt : l.Prompt (e, a))
    (hd : (l.driver e).step a = some d) (hwire : l.wireAfter e a = some wire) :
    d.heard ++ wire e = (l.driver e).heard ++ l.wire e ∧
      ∃ bs, d.written = (l.driver e).written ++ bs ∧
        wire e.other ++ d.uart.thr.toList =
          l.wire e.other ++ (l.driver e).uart.thr.toList ++ bs := by
  by_cases hdrain : a = .drain
  · subst hdrain
    cases hwire
    obtain ⟨-, hd⟩ := Option.ite_none_left_eq_some.mp hd
    obtain ⟨-, hd⟩ := Option.ite_none_right_eq_some.mp hd
    cases hd
    refine ⟨?_, [], (List.append_nil _).symm, ?_⟩
    · rw [Function.update_of_ne (End.other_ne e).symm]
      rfl
    · rw [Function.update_self]
      rfl
  by_cases harrive : ∃ c, a = .arrive c
  · obtain ⟨c, rfl⟩ := harrive
    obtain ⟨-, hd⟩ := Option.ite_none_left_eq_some.mp hd
    cases hd
    have hnone : (l.driver e).uart.rbr = none := hprompt.2.2
    simp only [wireAfter] at hwire
    split at hwire
    · cases hwire
    · rename_i c' rest hcable
      split at hwire
      case isFalse => cases hwire
      rename_i hc
      cases hwire
      subst hc
      refine ⟨?_, [], (List.append_nil _).symm, ?_⟩
      · rw [Function.update_self, hcable, Driver.heard, Driver.heard, hnone]
        simp [Uart.arrive]
      · rw [Function.update_of_ne (End.other_ne e), List.append_nil]
        rfl
  · have hflows := Driver.step_flows hd hover hdrain fun c hc => harrive ⟨c, hc⟩
    have hsame : wire = l.wire := by
      cases a with
      | drain => exact absurd rfl hdrain
      | arrive c => exact absurd ⟨c, rfl⟩ harrive
      | _ =>
          cases hwire
          rfl
    obtain ⟨bs, hwritten, hthr⟩ := hflows.pushed
    refine ⟨by rw [hsame, hflows.heard], bs, hwritten, ?_⟩
    rw [hsame, hthr, List.append_assoc]

/-- On its way to `e`. -/
def underWay (l : Line) (e : End) : List Byte :=
  l.wire e ++ (l.driver e.other).uart.thr.toList

structure Inv (thr : End → Option Byte) (l : Line) : Prop where
  transmit : ∀ e, (l.driver e).TransmitInv
  hasAll : ∀ e, (l.driver e).HasAll
  carried : ∀ e, (l.driver e).heard ++ l.underWay e =
    (thr e.other).toList ++ (l.driver e.other).written

theorem inv_init (thr : End → Option Byte) : Inv thr (init thr) := by
  refine ⟨fun e => Driver.transmitInv_init (thr e), fun e => ?_, fun e => ?_⟩
  · refine ⟨⟨CBuffer.wf_init (by decide), rfl⟩, rfl, ?_⟩
    show [] = [] ++ (CBuffer.init 80).contents
    rw [CBuffer.contents_init]
    rfl
  · show ([] ++ []) ++ ([] ++ (thr e.other).toList) = (thr e.other).toList ++ []
    simp

theorem Inv.next (h : Inv thr l) {a : End × Act} (hprompt : l.Prompt a)
    (hstep : l.step a = some l') : Inv thr l' := by
  obtain ⟨e, a⟩ := a
  obtain ⟨d, hd, hrest⟩ := Option.bind_eq_some_iff.mp hstep
  obtain ⟨wire, hwire, heq⟩ := Option.bind_eq_some_iff.mp hrest
  cases heq
  have htransmit := Driver.transmitInv_step (h.transmit e) hprompt.1 hd
  obtain ⟨hheard, bs, hwritten, hthr⟩ := step_moves htransmit.overwritten hprompt hd hwire
  have hother (e' : End) (hne : e' ≠ e) :
      Function.update l.driver e d e' = l.driver e' := Function.update_of_ne hne d l.driver
  refine ⟨fun e' => ?_, fun e' => ?_, fun e' => ?_⟩
  · by_cases he : e' = e
    · subst he
      simpa using htransmit
    · simpa [hother e' he] using h.transmit e'
  · by_cases he : e' = e
    · subst he
      simpa using (h.hasAll e').step hprompt.2.1 hd
    · simpa [hother e' he] using h.hasAll e'
  · have hcarried := h.carried e'
    unfold underWay at hcarried ⊢
    dsimp only
    rcases End.eq_or_eq_other e e' with rfl | rfl
    · -- the receiver has moved
      rw [hother _ (End.other_ne e'), Function.update_self, ← List.append_assoc, hheard,
        List.append_assoc]
      exact hcarried
    · -- the sender has moved
      rw [End.other_other] at hcarried ⊢
      rw [hother _ (End.other_ne e), Function.update_self, hthr, hwritten, ← List.append_assoc,
        ← List.append_assoc, ← List.append_assoc, ← hcarried]
      simp only [List.append_assoc]

/-! ## §4  Every run -/

/-- What goes on without a new call: `rs232_tut_write` and the interrupt routine run on, and
bytes leave THR and come into RBR. -/
def Internal : Act → Prop
  | .writer _ => True
  | .interrupt => True
  | .isr _ => True
  | .drain => True
  | .arrive _ => True
  | _ => False

/-- Nothing goes on. -/
def Quiet (l : Line) : Prop := ∀ e a, Internal a → l.step (e, a) = none

theorem Quiet.driver_step (h : l.Quiet) {e : End} {a : Act} (ha : Internal a)
    (hwire : (l.wireAfter e a).isSome = true) : (l.driver e).step a = none := by
  obtain ⟨wire, hwire⟩ := Option.isSome_iff_exists.mp hwire
  have hnone := h e a ha
  cases hd : (l.driver e).step a with
  | none => rfl
  | some d =>
      simp only [step, hd, hwire, Option.bind_eq_bind, Option.bind_some] at hnone
      cases hnone

/-- What it means for one end that nothing goes on. -/
theorem Quiet.driver (h : l.Quiet) {e : End} (hok : (l.driver e).faulted = false) :
    (l.driver e).pc = .idle ∧ (l.driver e).uart.thr = none ∧
      (l.driver e).uart.emptyThr = false ∧ (l.driver e).uart.rbr = none := by
  have hisr : (l.driver e).isr = false := by
    have hnone := h.driver_step (e := e) (a := .isr 0) trivial rfl
    by_contra hisr
    simp [Driver.step, hok, hisr] at hnone
  have hthr : (l.driver e).uart.thr = none := by
    have hnone := h.driver_step (e := e) (a := .drain) trivial rfl
    simpa [Driver.step, hok] using hnone
  have hiir : (l.driver e).uart.iir = .none := by
    have hnone := h.driver_step (e := e) (a := .interrupt) trivial rfl
    simpa [Driver.step, hok, hisr] using hnone
  have hidle : (l.driver e).pc = .idle := by
    have hnone := h.driver_step (e := e) (a := .writer true) trivial rfl
    simp only [Driver.step, hok, hisr, Bool.false_eq_true, if_false] at hnone
    exact Driver.idle_of_writer_eq_none hnone
  unfold Uart.iir at hiir
  split_ifs at hiir with herror hrbr hempty
  exact ⟨hidle, hthr, by simpa using hempty, by simpa using hrbr⟩

theorem Quiet.wire (h : l.Quiet) {e : End} (hok : (l.driver e).faulted = false) :
    l.wire e = [] := by
  cases hwire : l.wire e with
  | nil => rfl
  | cons c rest =>
      have hnone := h.driver_step (e := e) (a := .arrive c) trivial (by simp [wireAfter, hwire])
      simp [Driver.step, hok] at hnone

/-- **From the writes at one end to the reads at the other.** In every run of the two
machines in which each end keeps up (and the writer finds a byte where it goes for one, as
in `transmits_of_stepsMeet`), no store faults, and what was enqueued at one end is, in this
order: what the reads at the other end have delivered, what is in its buffer and in RBR,
what is on the line, and what was not sent yet. When nothing goes on any more, all of it has
come. -/
theorem line_delivers (thr : End → Option Byte) (as : List (End × Act)) (l : Line)
    (hmeet : StepsMeet step Prompt (init thr) as) (hrun : run step (init thr) as = some l)
    (e : End) :
    (l.driver e).faulted = false ∧
    (thr e.other).toList ++ (l.driver e.other).enqueued =
      (l.driver e).delivered ++ ((l.driver e).cbufIn.contents ++ (l.driver e).uart.rbr.toList ++
        l.underWay e ++ Driver.unsent (l.driver e.other).pc (l.driver e.other).cbufOut.contents) ∧
    (l.Quiet → (thr e.other).toList ++ (l.driver e.other).enqueued =
      (l.driver e).delivered ++ (l.driver e).cbufIn.contents) := by
  have h : Inv thr l := run_invariant_of_stepsMeet (inv_init thr)
    (fun _ _ _ hi hprompt hstep => hi.next hprompt hstep) as l hmeet hrun
  have hledger : (thr e.other).toList ++ (l.driver e.other).enqueued =
      (l.driver e).delivered ++ ((l.driver e).cbufIn.contents ++ (l.driver e).uart.rbr.toList ++
        l.underWay e ++
        Driver.unsent (l.driver e.other).pc (l.driver e.other).cbufOut.contents) := by
    rw [(h.transmit e.other).ledger, ← List.append_assoc, ← h.carried e, Driver.heard,
      (h.hasAll e).received]
    simp only [List.append_assoc]
  refine ⟨(h.hasAll e).ok, hledger, fun hquiet => ?_⟩
  obtain ⟨-, -, -, hrbr⟩ := hquiet.driver (h.hasAll e).ok
  obtain ⟨hidle, hthr, hempty, -⟩ := hquiet.driver (h.hasAll e.other).ok
  have hsent := (h.transmit e.other).transmits.stranded hidle hthr hempty
  rw [hledger, underWay, hquiet.wire (h.hasAll e).ok, hrbr, hthr, hidle, hsent]
  simp [Driver.unsent]

instance (d : Driver) : ∀ a, Decidable (d.KeepsUp a)
  | .isr _ => inferInstanceAs (Decidable (_ → _ → _))
  | .write _ => isTrue trivial
  | .writer _ => isTrue trivial
  | .read _ => isTrue trivial
  | .interrupt => isTrue trivial
  | .drain => isTrue trivial
  | .arrive _ => isTrue trivial
  | .lineError => isTrue trivial

instance (d : Driver) : ∀ a, Decidable (d.HasRoom a)
  | .arrive _ => inferInstanceAs (Decidable (_ = _))
  | .write _ => isTrue trivial
  | .writer _ => isTrue trivial
  | .read _ => isTrue trivial
  | .interrupt => isTrue trivial
  | .isr _ => isTrue trivial
  | .drain => isTrue trivial
  | .lineError => isTrue trivial

instance (l : Line) (a : End × Act) : Decidable (l.Prompt a) :=
  inferInstanceAs (Decidable (_ ∧ _ ∧ _))

/-- What one end does. -/
def onEnd (e : End) (as : List Act) : List (End × Act) := as.map (Prod.mk e)

/-- The left end writes two bytes and the right end one, which crosses them. -/
def crossing : List (End × Act) :=
  onEnd .left (Driver.serve ++ Driver.call [72, 105] 22 ++ [.drain]) ++
    onEnd .right (Driver.serve ++ Driver.call [33] 15 ++ Driver.receive 72 ++ [.drain]) ++
    onEnd .left (Driver.serve ++ .drain :: Driver.receive 33 ++ [.isr 0]) ++
    onEnd .right (Driver.receive 105 ++ [.isr 0, .read 80]) ++ onEnd .left [.read 80]

theorem line_delivers_crossing : ∃ l, run step (init fun _ => none) crossing = some l ∧
    (l.driver .right).delivered = [72, 105] ∧ (l.driver .left).delivered = [33] ∧
    ∀ e, (l.driver e).faulted = false ∧
      (l.driver e.other).enqueued = (l.driver e).delivered ++
        ((l.driver e).cbufIn.contents ++ (l.driver e).uart.rbr.toList ++ l.underWay e ++
          Driver.unsent (l.driver e.other).pc (l.driver e.other).cbufOut.contents) := by
  have hend : (run step (init fun _ => none) crossing).map (fun l =>
      decide ((l.driver .right).delivered = [72, 105] ∧ (l.driver .left).delivered = [33])) =
        some true := by
    decide +kernel
  obtain ⟨l, hrun, hend⟩ := Option.map_eq_some_iff.mp hend
  obtain ⟨hright, hleft⟩ := of_decide_eq_true hend
  have hmeet : StepsMeet step Prompt (init fun _ => none) crossing :=
    (stepsMeet_iff _ _).mp (by decide +kernel)
  refine ⟨l, hrun, hright, hleft, fun e => ?_⟩
  obtain ⟨hok, hledger, -⟩ := line_delivers (fun _ => none) crossing l hmeet hrun e
  exact ⟨hok, hledger⟩

end Line

end OsAssignments.Rs232
