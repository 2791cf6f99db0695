import OsAssignments.Rs232.Driver

/-!
# Receiving

The buffer is meant to keep the bytes that came last: when it is full, the oldest
unread one makes room. §1 says this of a queue, without the driver. In the
driver, that case passes a character to `cbuffer_dequeue` where a pointer is
expected, and the store through it faults.

- `Recent.delivered_append_sublist` — the queue reorders nothing.
- `receives_iff` — **the condition under which the driver is such a queue**, at
  every moment of a run.
- `not_receives_eightyBytes` — a run in which it is not.
-/

namespace OsAssignments.Rs232

open PartialMachine

/-! ## §1  A queue that keeps what came last -/

/-- What is unread, oldest first, and what was read. -/
structure Recent where
  unread : List Byte
  delivered : List Byte
deriving DecidableEq, Repr

namespace Recent

/-- At most `capacity` bytes stay unread. -/
def step (capacity : ℕ) (q : Recent) : InEvent → Recent
  | .received c => { q with unread := (q.unread ++ [c]).drop (q.unread.length + 1 - capacity) }
  | .read n => ⟨q.unread.drop n, q.delivered ++ q.unread.take n⟩

def replay (capacity : ℕ) (history : List InEvent) : Recent :=
  history.foldl (step capacity) ⟨[], []⟩

theorem replay_snoc (capacity : ℕ) (history : List InEvent) (e : InEvent) :
    replay capacity (history ++ [e]) = step capacity (replay capacity history) e := by
  simp [replay]

/-- The bytes received, in the order of their arrival. -/
def arrivals (history : List InEvent) : List Byte :=
  history.filterMap fun
    | .received c => some c
    | .read _ => none

/-- Reading delivers the arrivals in order, with those missing that made room. -/
theorem delivered_append_sublist (capacity : ℕ) (history : List InEvent) :
    ((replay capacity history).delivered ++ (replay capacity history).unread).Sublist
      (arrivals history) := by
  induction history using List.reverseRecOn with
  | nil => exact List.Sublist.refl _
  | append_singleton history e ih =>
      rw [replay_snoc]
      cases e with
      | received c =>
          have harrivals : arrivals (history ++ [.received c]) = arrivals history ++ [c] := by
            simp [arrivals]
          have hdrop := List.drop_sublist
            ((replay capacity history).unread.length + 1 - capacity)
            ((replay capacity history).unread ++ [c])
          rw [harrivals]
          refine (hdrop.append_left (replay capacity history).delivered).trans ?_
          rw [← List.append_assoc]
          exact ih.append_right [c]
      | read n =>
          have harrivals : arrivals (history ++ [.read n]) = arrivals history := by
            simp [arrivals]
          rw [harrivals]
          show ((replay capacity history).delivered ++ (replay capacity history).unread.take n ++
            (replay capacity history).unread.drop n).Sublist (arrivals history)
          rw [List.append_assoc, List.take_append_drop]
          exact ih

end Recent

/-! ## §2  The driver and the queue -/

namespace Driver

/-- No store has faulted, `cbuf_in` holds what the queue holds, and the reads have
delivered what it delivered. -/
def Receives (d : Driver) : Prop :=
  d.faulted = false ∧
    Recent.replay (d.cbufIn.size - 1) d.history = ⟨d.cbufIn.contents, d.delivered⟩

/-- A byte is taken from RBR only while fewer than `size - 1` are unread. -/
def KeepsUp (d : Driver) : Act → Prop
  | .isr _ => d.isr = true → d.uart.iir = .DATA_AVAIL →
      d.cbufIn.contents.length < d.cbufIn.size - 1
  | _ => True

/-- The step is the turn of the interrupt routine that reads RBR. -/
def TakesByte (d : Driver) : Act → Prop
  | .isr _ => d.isr = true ∧ d.uart.iir = .DATA_AVAIL
  | _ => False

structure InputInv (d : Driver) : Prop where
  wf : d.cbufIn.Wf
  size : d.cbufIn.size = 80

/-- The step does nothing on the receiving side. -/
structure SameInput (d d' : Driver) : Prop where
  cbufIn : d'.cbufIn = d.cbufIn
  history : d'.history = d.history
  delivered : d'.delivered = d.delivered
  faulted : d'.faulted = d.faulted

variable {d d' : Driver}

theorem keepsUp_of_not_takesByte {a : Act} (h : ¬ TakesByte d a) : KeepsUp d a := by
  cases a with
  | isr _ => exact fun hisr hiir => absurd ⟨hisr, hiir⟩ h
  | _ => trivial

theorem SameInput.inv (h : SameInput d d') (hi : InputInv d) : InputInv d' :=
  ⟨h.cbufIn ▸ hi.wf, h.cbufIn ▸ hi.size⟩

theorem SameInput.receives_congr (h : SameInput d d') : Receives d' ↔ Receives d := by
  rw [Receives, Receives, h.cbufIn, h.history, h.delivered, h.faulted]

theorem emptyThr_sameInput (d : Driver) : SameInput d d.emptyThr := by
  unfold emptyThr
  split
  · exact ⟨rfl, rfl, rfl, rfl⟩
  · split
    · exact ⟨rfl, rfl, rfl, rfl⟩
    · exact ⟨rfl, rfl, rfl, rfl⟩

theorem writer_sameInput {ok : Bool} (h : d.writer ok = some d') : SameInput d d' := by
  unfold writer at h
  split at h <;> cases h <;> exact ⟨rfl, rfl, rfl, rfl⟩

/-- The `RS232_DATA_AVAIL` case, with room for the byte and without. -/
theorem dataAvail_eq (hi : InputInv d) (c discarded : Byte) :
    d.dataAvail c discarded =
      if d.cbufIn.isFull then { d with
        uart.rbr := none
        history := d.history ++ [.received c]
        faulted := true }
      else { d with
        uart.rbr := none
        history := d.history ++ [.received c]
        cbufIn := (d.cbufIn.enqueue c).2 } := by
  unfold dataAvail
  dsimp only
  split
  · rename_i hfull
    have hlen := hi.wf.isFull_iff.mp hfull
    have hne : d.cbufIn.isEmpty = false := by
      rw [← Bool.not_eq_true, hi.wf.isEmpty_iff, ← List.length_eq_zero_iff, hlen, hi.size]
      decide
    simp [CBuffer.dequeue, hne]
  · rfl

/-- **A byte that finds room** is added; one that does not makes the routine
fault. -/
theorem dataAvail_cases (hi : InputInv d) (hp : Receives d) (c discarded : Byte) :
    (d.cbufIn.contents.length < d.cbufIn.size - 1 ∧ InputInv (d.dataAvail c discarded) ∧
      Receives (d.dataAvail c discarded)) ∨
    (¬ d.cbufIn.contents.length < d.cbufIn.size - 1 ∧
      d.dataAvail c discarded = { d with
        uart.rbr := none
        history := d.history ++ [.received c]
        faulted := true }) := by
  have hlt := hi.wf.length_contents_lt
  rw [dataAvail_eq hi]
  split
  · rename_i hfull
    have hlen := hi.wf.isFull_iff.mp hfull
    exact Or.inr ⟨by omega, rfl⟩
  · rename_i hroom
    rw [Bool.not_eq_true] at hroom
    obtain ⟨-, hwf, hsize, hcontents⟩ := hi.wf.enqueue c hroom
    have hnot : d.cbufIn.contents.length ≠ d.cbufIn.size - 1 := by
      rw [ne_eq, ← hi.wf.isFull_iff, hroom]
      decide
    refine Or.inl ⟨by omega, ⟨hwf, hsize.trans hi.size⟩, hp.1, ?_⟩
    show Recent.replay ((d.cbufIn.enqueue c).2.size - 1) (d.history ++ [.received c]) =
      ⟨(d.cbufIn.enqueue c).2.contents, d.delivered⟩
    have hdrop : d.cbufIn.contents.length + 1 - (d.cbufIn.size - 1) = 0 := by omega
    rw [hsize, Recent.replay_snoc, hp.2, hcontents]
    simp [Recent.step, hdrop]

/-- **The loop of `rs232_tut_read`** takes bytes out until the user's buffer is full
or the ring is empty. -/
theorem readLoop_spec {cb : CBuffer} (h : cb.Wf) (n : ℕ) :
    (readLoop n cb).1 = cb.contents.take n ∧ (readLoop n cb).2.Wf ∧
      (readLoop n cb).2.size = cb.size ∧ (readLoop n cb).2.contents = cb.contents.drop n := by
  induction n generalizing cb with
  | zero => exact ⟨rfl, h, rfl, rfl⟩
  | succ n ih =>
      cases hcontents : cb.contents with
      | nil =>
          have heq : readLoop (n + 1) cb = ([], cb) := by
            simp [readLoop, h.isEmpty_iff.mpr hcontents]
          rw [heq]
          exact ⟨rfl, h, rfl, hcontents⟩
      | cons c rest =>
          obtain ⟨hdequeue, hwf, hrest⟩ := h.dequeue hcontents
          have hempty := h.isEmpty_eq_false hcontents
          have heq : readLoop (n + 1) cb =
              (c :: (readLoop n cb.erase.moveTail).1, (readLoop n cb.erase.moveTail).2) := by
            simp [readLoop, hempty, hdequeue]
          obtain ⟨htake, hwf', hsize, hdrop⟩ := ih hwf
          rw [heq]
          refine ⟨?_, hwf', hsize, ?_⟩
          · rw [htake, hrest, List.take_succ_cons]
          · rw [hdrop, hrest, List.drop_succ_cons]

theorem read_receives (hi : InputInv d) (hp : Receives d) (n : ℕ) :
    InputInv (d.read n) ∧ Receives (d.read n) := by
  obtain ⟨htake, hwf, hsize, hdrop⟩ := readLoop_spec hi.wf n
  refine ⟨⟨hwf, hsize.trans hi.size⟩, hp.1, ?_⟩
  show Recent.replay ((readLoop n d.cbufIn).2.size - 1) (d.history ++ [.read n]) =
    ⟨(readLoop n d.cbufIn).2.contents, d.delivered ++ (readLoop n d.cbufIn).1⟩
  rw [hsize, Recent.replay_snoc, hp.2, htake, hdrop]
  rfl

/-- **A step**, as the receiving side sees it. -/
theorem step_input {a : Act} (h : d.step a = some d') :
    (SameInput d d' ∧ ¬ TakesByte d a) ∨ (∃ n, a = .read n ∧ d' = d.read n) ∨
      TakesByte d a ∧ ∃ discarded, a = .isr discarded ∧
        d' = d.dataAvail (d.uart.rbr.getD 0) discarded := by
  obtain ⟨-, h⟩ := Option.ite_none_left_eq_some.mp h
  cases a with
  | write userbuffer =>
      obtain ⟨-, h⟩ := Option.ite_none_right_eq_some.mp h
      cases h
      exact Or.inl ⟨⟨rfl, rfl, rfl, rfl⟩, id⟩
  | writer ok =>
      obtain ⟨-, h⟩ := Option.ite_none_left_eq_some.mp h
      exact Or.inl ⟨writer_sameInput h, id⟩
  | read n =>
      obtain ⟨-, h⟩ := Option.ite_none_left_eq_some.mp h
      exact Or.inr (Or.inl ⟨n, rfl, (Option.some.inj h).symm⟩)
  | interrupt =>
      obtain ⟨-, h⟩ := Option.ite_none_right_eq_some.mp h
      cases h
      exact Or.inl ⟨⟨rfl, rfl, rfl, rfl⟩, id⟩
  | isr discarded =>
      obtain ⟨hisr, h⟩ := Option.ite_none_right_eq_some.mp h
      cases h
      cases hiir : d.uart.iir with
      | none =>
          refine Or.inl ⟨?_, fun htakes => by rw [TakesByte, hiir] at htakes; cases htakes.2⟩
          simp only [isrTurn, hiir]
          exact ⟨rfl, rfl, rfl, rfl⟩
      | EMPTY_THR =>
          refine Or.inl ⟨?_, fun htakes => by rw [TakesByte, hiir] at htakes; cases htakes.2⟩
          simp only [isrTurn, hiir]
          have hsame := emptyThr_sameInput { d with uart.emptyThr := false }
          exact ⟨hsame.cbufIn, hsame.history, hsame.delivered, hsame.faulted⟩
      | DATA_AVAIL =>
          refine Or.inr (Or.inr ⟨⟨hisr, hiir⟩, discarded, rfl, ?_⟩)
          simp only [isrTurn, hiir]
      | ERROR =>
          refine Or.inl ⟨?_, fun htakes => by rw [TakesByte, hiir] at htakes; cases htakes.2⟩
          simp only [isrTurn, hiir]
          exact ⟨rfl, rfl, rfl, rfl⟩
  | drain =>
      obtain ⟨-, h⟩ := Option.ite_none_right_eq_some.mp h
      cases h
      exact Or.inl ⟨⟨rfl, rfl, rfl, rfl⟩, id⟩
  | arrive c =>
      cases h
      exact Or.inl ⟨⟨rfl, rfl, rfl, rfl⟩, id⟩
  | lineError =>
      cases h
      exact Or.inl ⟨⟨rfl, rfl, rfl, rfl⟩, id⟩

/-- **The step lemma.** -/
theorem receives_step {a : Act} (hi : InputInv d) (hp : Receives d)
    (hstep : d.step a = some d') : InputInv d' ∧ (Receives d' ↔ KeepsUp d a) := by
  rcases step_input hstep with ⟨hsame, hnot⟩ | ⟨n, rfl, rfl⟩ | ⟨htakes, discarded, rfl, rfl⟩
  · exact ⟨hsame.inv hi,
      iff_of_true (hsame.receives_congr.mpr hp) (keepsUp_of_not_takesByte hnot)⟩
  · obtain ⟨hi', hp'⟩ := read_receives hi hp n
    exact ⟨hi', iff_of_true hp' trivial⟩
  · rcases dataAvail_cases hi hp (d.uart.rbr.getD 0) discarded with
      ⟨hroom, hi', hp'⟩ | ⟨hfull, heq⟩
    · exact ⟨hi', iff_of_true hp' fun _ _ => hroom⟩
    · rw [heq]
      refine ⟨⟨hi.wf, hi.size⟩, iff_of_false ?_ fun hkeeps => hfull (hkeeps htakes.1 htakes.2)⟩
      rintro ⟨hfaulted, -⟩
      cases hfaulted

/-! ## §3  Runs -/

/-- **When the driver keeps what came last.** A run never faults, and the buffer and
the reads are at every moment as they should be, exactly if no byte is taken from
RBR while `size - 1` bytes are unread. -/
theorem receives_iff (thr : Option Byte) (as : List Act) (d : Driver)
    (hrun : PartialMachine.run step (init thr) as = some d) :
    Always step Receives (init thr) as ↔ StepsMeet step KeepsUp (init thr) as := by
  have hinit : Receives (init thr) := by
    refine ⟨rfl, ?_⟩
    show Recent.replay 79 [] = ⟨(CBuffer.init 80).contents, []⟩
    rw [CBuffer.contents_init]
    rfl
  refine always_iff_stepsMeet
    (I := fun d => InputInv d ∧ (d.faulted = false → Receives d))
    ⟨⟨CBuffer.wf_init (by decide), rfl⟩, fun _ => hinit⟩ hinit ?_ ?_ as d hrun
  · -- a faulted driver makes no step
    rintro d a d' ⟨hi, hp⟩ hstep
    have hok : d.faulted = false := by
      obtain ⟨hok, -⟩ := Option.ite_none_left_eq_some.mp hstep
      simpa using hok
    obtain ⟨hi', hiff⟩ := receives_step hi (hp hok) hstep
    refine ⟨hi', fun hok' => ?_⟩
    rcases step_input hstep with ⟨hsame, -⟩ | ⟨n, rfl, rfl⟩ | ⟨-, discarded, rfl, rfl⟩
    · exact hsame.receives_congr.mpr (hp hok)
    · exact (read_receives hi (hp hok) n).2
    · rcases dataAvail_cases hi (hp hok) (d.uart.rbr.getD 0) discarded with
        ⟨-, -, hp'⟩ | ⟨-, heq⟩
      · exact hp'
      · rw [heq] at hok'
        cases hok'
  · rintro d a d' ⟨hi, -⟩ hp hstep
    exact (receives_step hi hp hstep).2

/-- A byte comes in, and the interrupt routine runs. -/
def receive (c : Byte) : List Act := [.arrive c, .interrupt, .isr 0, .isr 0]

theorem receives_iff_readInBetween : ∃ d,
    PartialMachine.run step (init none)
      ([.interrupt, .isr 0, .isr 0] ++ receive 1 ++ receive 2 ++ [.read 1] ++ receive 3) =
        some d ∧
    d.cbufIn.contents = [2, 3] ∧ d.delivered = [1] ∧
    (Always step Receives (init none)
        ([.interrupt, .isr 0, .isr 0] ++ receive 1 ++ receive 2 ++ [.read 1] ++ receive 3) ↔
      StepsMeet step KeepsUp (init none)
        ([.interrupt, .isr 0, .isr 0] ++ receive 1 ++ receive 2 ++ [.read 1] ++ receive 3)) := by
  have hend : (PartialMachine.run step (init none)
      ([.interrupt, .isr 0, .isr 0] ++ receive 1 ++ receive 2 ++ [.read 1] ++ receive 3)).map
        (fun d => decide (d.cbufIn.contents = [2, 3] ∧ d.delivered = [1])) = some true := by
    decide +kernel
  obtain ⟨d, hrun, hend⟩ := Option.map_eq_some_iff.mp hend
  obtain ⟨hcontents, hdelivered⟩ := of_decide_eq_true hend
  exact ⟨d, hrun, hcontents, hdelivered, receives_iff none _ d hrun⟩

/-- Nobody reads. -/
def eightyBytes : List Act := [.interrupt, .isr 0, .isr 0] ++
  (List.replicate 79 (receive 7)).flatten ++ [.arrive 8, .interrupt, .isr 0]

theorem not_receives_eightyBytes : ∃ d,
    PartialMachine.run step (init none) eightyBytes = some d ∧ d.faulted = true ∧
      ¬ Always step Receives (init none) eightyBytes := by
  have hend : (PartialMachine.run step (init none) eightyBytes).map Driver.faulted =
      some true := by decide +kernel
  obtain ⟨d, hrun, hfaulted⟩ := Option.map_eq_some_iff.mp hend
  refine ⟨d, hrun, hfaulted, fun halways => ?_⟩
  have hok := (halways.last hrun).1
  rw [hfaulted] at hok
  cases hok

end Driver

end OsAssignments.Rs232
