import OsAssignments.Rs232.Receive

/-!
# Reads that cannot copy

`rs232_tut_read` takes a byte out of `cbuf_in` and then copies it to the user. Where
`copy_to_user` fails the loop ends; the byte is not counted, and it is in the ring no
more.

- `rs232TutRead_cases` — where the loop stops, and what it has done.
- `nothingLost_iff` — **no byte is lost exactly if no copy fails**, in a call and in a run.
- `not_nothingLost_secondByte` — a byte that nobody gets.
-/

namespace OsAssignments.Rs232

open PartialMachine

/-! ## §1  The code -/

/-- `copy_to_user` of one byte. It writes to the byte it was given at most, and has
written it if it says that nothing was left out. -/
structure CopyToUser where
  /-- How many of the bytes were not copied. -/
  status : ℕ → ℕ
  copy : ByteMem → ℕ → Byte → ByteMem
  copied : ∀ {user : ByteMem} {a : ℕ} {c : Byte}, status a = 0 → copy user a c a = c
  frame : ∀ {user : ByteMem} {a : ℕ} {c : Byte} {x : ℕ}, x ≠ a → copy user a c x = user x

/-- What a call returns, and what it leaves. -/
structure ReadResult where
  size : ℕ
  cbufIn : CBuffer
  user : ByteMem

/-- The `for` loop of `rs232_tut_read`, with so many turns left. -/
def readTurns (k : CopyToUser) (userbuffer : ℕ) : ℕ → ReadResult → ReadResult
  | 0, r => r
  | n + 1, r =>
      if r.cbufIn.isEmpty then r
      else
        match r.cbufIn.dequeue .variable with
        | some (some receivedCharacter, cb) =>
            let user := k.copy r.user (userbuffer + r.size) receivedCharacter
            if k.status (userbuffer + r.size) ≠ 0 then ⟨r.size, cb, user⟩
            else readTurns k userbuffer n ⟨r.size + 1, cb, user⟩
        -- `dequeue_status != 0`
        | _ => r

/-- `rs232_tut_read`. -/
def rs232TutRead (k : CopyToUser) (cbufIn : CBuffer) (user : ByteMem)
    (userbuffer maximumSize : ℕ) : ReadResult :=
  readTurns k userbuffer maximumSize ⟨0, cbufIn, user⟩

/-! ## §2  The loop -/

/-- The loop has copied `i` bytes: it is through, or the copy of the next byte has
failed. -/
structure Stops (k : CopyToUser) (userbuffer n : ℕ) (r r' : ReadResult) (i : ℕ) : Prop where
  le : i ≤ min n r.cbufIn.contents.length
  size : r'.size = r.size + i
  user : r'.user.read (userbuffer + r.size) i = r.cbufIn.contents.take i
  before : ∀ x < userbuffer + r.size, r'.user x = r.user x
  wf : r'.cbufIn.Wf
  capacity : r'.cbufIn.size = r.cbufIn.size
  status : ∀ j < i, k.status (userbuffer + r.size + j) = 0
  exit :
    (i = min n r.cbufIn.contents.length ∧ r'.cbufIn.contents = r.cbufIn.contents.drop i) ∨
    (i < min n r.cbufIn.contents.length ∧ k.status (userbuffer + r.size + i) ≠ 0 ∧
      r'.cbufIn.contents = r.cbufIn.contents.drop (i + 1))

section

variable {k : CopyToUser} {userbuffer n : ℕ} {r : ReadResult}

/-- A turn that goes on: the byte is with the user. -/
theorem Stops.cons {r' : ReadResult} {c : Byte} {rest : List Byte} {i : ℕ} {cb : CBuffer}
    (hcontents : r.cbufIn.contents = c :: rest) (hrest : cb.contents = rest)
    (hsize : cb.size = r.cbufIn.size) (hok : k.status (userbuffer + r.size) = 0)
    (h : Stops k userbuffer n ⟨r.size + 1, cb, k.copy r.user (userbuffer + r.size) c⟩ r' i) :
    Stops k userbuffer (n + 1) r r' (i + 1) := by
  have hlen : r.cbufIn.contents.length = cb.contents.length + 1 := by
    rw [hcontents, hrest, List.length_cons]
  have hat (j : ℕ) : userbuffer + (r.size + 1) + j = userbuffer + r.size + (j + 1) := by omega
  have hle := h.le
  dsimp only at hle
  refine ⟨by omega, by rw [h.size]; dsimp only; omega, ?_, fun x hx => ?_, h.wf,
    h.capacity.trans hsize, fun j hj => ?_, ?_⟩
  · have hfirst : r'.user (userbuffer + r.size) = c := by
      rw [h.before _ (by dsimp only; omega)]
      exact k.copied hok
    rw [Nat.add_comm i 1, ByteMem.read_add, hcontents, Nat.add_comm 1 i, List.take_succ_cons,
      ← hrest, ← h.user, ← Nat.add_assoc]
    simp [ByteMem.read, hfirst]
  · rw [h.before x (by dsimp only; omega)]
    exact k.frame (by omega)
  · cases j with
    | zero => exact hok
    | succ j =>
        rw [← hat]
        exact h.status j (by omega)
  · rcases h.exit with ⟨hall, hdrop⟩ | ⟨hlt, hfail, hdrop⟩
    · dsimp only at hall hdrop
      refine Or.inl ⟨by omega, ?_⟩
      rw [hdrop, hcontents, hrest, List.drop_succ_cons]
    · dsimp only at hlt hfail hdrop
      refine Or.inr ⟨by omega, hat i ▸ hfail, ?_⟩
      rw [hdrop, hcontents, hrest, List.drop_succ_cons]

/-- **Where the loop stops.** -/
theorem readTurns_stops (k : CopyToUser) (userbuffer n : ℕ) (r : ReadResult)
    (h : r.cbufIn.Wf) : ∃ i, Stops k userbuffer n r (readTurns k userbuffer n r) i := by
  induction n generalizing r with
  | zero =>
      exact ⟨0, by simp, rfl, rfl, fun _ _ => rfl, h, rfl, by simp, Or.inl ⟨by simp, rfl⟩⟩
  | succ n ih =>
      cases hcontents : r.cbufIn.contents with
      | nil =>
          have heq : readTurns k userbuffer (n + 1) r = r := by
            simp [readTurns, h.isEmpty_iff.mpr hcontents]
          rw [heq]
          exact ⟨0, by simp, rfl, rfl, fun _ _ => rfl, h, rfl, by simp,
            Or.inl ⟨by simp [hcontents], rfl⟩⟩
      | cons c rest =>
          obtain ⟨hdequeue, hwf, hrest⟩ := h.dequeue hcontents
          have hempty := h.isEmpty_eq_false hcontents
          by_cases hok : k.status (userbuffer + r.size) = 0
          · have heq : readTurns k userbuffer (n + 1) r = readTurns k userbuffer n
                ⟨r.size + 1, r.cbufIn.erase.moveTail,
                  k.copy r.user (userbuffer + r.size) c⟩ := by
              simp [readTurns, hempty, hdequeue, hok]
            obtain ⟨i, hstops⟩ := ih ⟨r.size + 1, r.cbufIn.erase.moveTail,
              k.copy r.user (userbuffer + r.size) c⟩ hwf
            rw [heq]
            exact ⟨i + 1, hstops.cons hcontents hrest rfl hok⟩
          · -- the byte is out of the ring, and the count stays as it was
            have heq : readTurns k userbuffer (n + 1) r =
                ⟨r.size, r.cbufIn.erase.moveTail, k.copy r.user (userbuffer + r.size) c⟩ := by
              simp [readTurns, hempty, hdequeue, hok]
            rw [heq]
            refine ⟨0, Nat.zero_le _, rfl, rfl, fun x hx => k.frame (by omega), hwf, rfl,
              by simp, Or.inr ⟨?_, hok, ?_⟩⟩
            · rw [hcontents, List.length_cons]
              omega
            · rw [hrest, hcontents]
              rfl

end

/-! ## §3  A call -/

/-- The user has the first bytes of the queue, as many as the call counts, and the rest
is still in the queue. -/
structure NothingLost (cb : CBuffer) (userbuffer : ℕ) (r : ReadResult) : Prop where
  delivered : r.user.read userbuffer r.size = cb.contents.take r.size
  queue : r.cbufIn.contents = cb.contents.drop r.size

/-- The copies that the loop comes to succeed. -/
def CopiesAll (k : CopyToUser) (cb : CBuffer) (userbuffer maximumSize : ℕ) : Prop :=
  ∀ i < min maximumSize cb.contents.length, k.status (userbuffer + i) = 0

instance (k : CopyToUser) (cb : CBuffer) (userbuffer maximumSize : ℕ) :
    Decidable (CopiesAll k cb userbuffer maximumSize) :=
  inferInstanceAs (Decidable (∀ i < min maximumSize cb.contents.length, _))

section

variable {cb : CBuffer}

/-- **`rs232_tut_read`**: the byte whose copy fails is gone. -/
theorem rs232TutRead_cases (h : cb.Wf) (k : CopyToUser) (user : ByteMem)
    (userbuffer maximumSize : ℕ) :
    let r := rs232TutRead k cb user userbuffer maximumSize
    r.cbufIn.Wf ∧ r.cbufIn.size = cb.size ∧
      r.user.read userbuffer r.size = cb.contents.take r.size ∧
      ((CopiesAll k cb userbuffer maximumSize ∧ r.size = min maximumSize cb.contents.length ∧
          r.cbufIn.contents = cb.contents.drop r.size) ∨
        (¬ CopiesAll k cb userbuffer maximumSize ∧ r.size < cb.contents.length ∧
          r.cbufIn.contents = cb.contents.drop (r.size + 1))) := by
  intro r
  obtain ⟨i, hstops⟩ := readTurns_stops k userbuffer maximumSize ⟨0, cb, user⟩ h
  have hsize : r.size = i := hstops.size.trans (Nat.zero_add i)
  refine ⟨hstops.wf, hstops.capacity, hsize ▸ hstops.user, ?_⟩
  rw [hsize]
  rcases hstops.exit with ⟨hall, hdrop⟩ | ⟨hlt, hfail, hdrop⟩
  · exact Or.inl ⟨fun j hj => hstops.status j (lt_of_lt_of_eq hj hall.symm), hall, hdrop⟩
  · exact Or.inr ⟨fun hall => hfail (hall i hlt), (Nat.lt_min.mp hlt).2, hdrop⟩

/-- A byte is missing in the list without its element at `n`. -/
theorem drop_succ_ne_drop {l : List Byte} {n : ℕ} (h : n < l.length) :
    l.drop (n + 1) ≠ l.drop n := by
  intro heq
  have hlen := congrArg List.length heq
  rw [List.length_drop, List.length_drop] at hlen
  omega

theorem nothingLost_read_iff (h : cb.Wf) (k : CopyToUser) (user : ByteMem)
    (userbuffer maximumSize : ℕ) :
    NothingLost cb userbuffer (rs232TutRead k cb user userbuffer maximumSize) ↔
      CopiesAll k cb userbuffer maximumSize := by
  obtain ⟨-, -, htake, ⟨hall, -, hdrop⟩ | ⟨hnot, hlt, hdrop⟩⟩ :=
    rs232TutRead_cases h k user userbuffer maximumSize
  · exact iff_of_true ⟨htake, hdrop⟩ hall
  · exact iff_of_false (fun hlost => drop_succ_ne_drop hlt (hdrop.symm.trans hlost.queue)) hnot

/-- What the user gets, and behind it what is left, are the queue. -/
theorem read_append_contents_iff (h : cb.Wf) (k : CopyToUser) (user : ByteMem)
    (userbuffer maximumSize : ℕ) :
    let r := rs232TutRead k cb user userbuffer maximumSize
    r.user.read userbuffer r.size ++ r.cbufIn.contents = cb.contents ↔
      CopiesAll k cb userbuffer maximumSize := by
  intro r
  obtain ⟨-, -, htake, ⟨hall, -, hdrop⟩ | ⟨hnot, hlt, hdrop⟩⟩ :=
    rs232TutRead_cases h k user userbuffer maximumSize
  · refine iff_of_true ?_ hall
    rw [htake, hdrop, List.take_append_drop]
  · refine iff_of_false (fun heq => drop_succ_ne_drop hlt ?_) hnot
    rw [htake, hdrop] at heq
    exact List.append_cancel_left (heq.trans (List.take_append_drop _ _).symm)

/-- With no copy failing, the loop is the one of `Driver.read`. -/
theorem cbufIn_readTurns (h : cb.Wf) (k : CopyToUser) (userbuffer n size : ℕ)
    (user : ByteMem)
    (hall : ∀ i < min n cb.contents.length, k.status (userbuffer + size + i) = 0) :
    (readTurns k userbuffer n ⟨size, cb, user⟩).cbufIn = (Driver.readLoop n cb).2 := by
  induction n generalizing cb size user with
  | zero => rfl
  | succ n ih =>
      cases hcontents : cb.contents with
      | nil => simp [readTurns, Driver.readLoop, h.isEmpty_iff.mpr hcontents]
      | cons c rest =>
          obtain ⟨hdequeue, hwf, hrest⟩ := h.dequeue hcontents
          have hempty := h.isEmpty_eq_false hcontents
          have hlen : cb.contents.length = rest.length + 1 := by
            rw [hcontents, List.length_cons]
          have hok : k.status (userbuffer + size) = 0 := hall 0 (by omega)
          simp only [readTurns, Driver.readLoop, hempty, hdequeue, hok, Bool.false_eq_true,
            if_false, ne_eq, not_true_eq_false]
          refine ih hwf (size + 1) _ fun i hi => ?_
          rw [hrest] at hi
          rw [show userbuffer + (size + 1) + i = userbuffer + size + (i + 1) by omega]
          exact hall (i + 1) (by omega)

end

/-! ## §4  Runs -/

/-- What happens to the driver, with calls of `rs232_tut_read` that may fail to copy. -/
inductive ReadAct where
  | driver (a : Act)
  | read (k : CopyToUser) (user : ByteMem) (userbuffer maximumSize : ℕ)

namespace Driver

/-- `rs232_tut_read`; what it counts is delivered. -/
def userRead (d : Driver) (k : CopyToUser) (user : ByteMem) (userbuffer maximumSize : ℕ) :
    Driver :=
  let r := rs232TutRead k d.cbufIn user userbuffer maximumSize
  { d with
    cbufIn := r.cbufIn
    history := d.history ++ [.read maximumSize]
    delivered := d.delivered ++ r.user.read userbuffer r.size }

def userStep (d : Driver) : ReadAct → Option Driver
  | .driver a => d.step a
  | .read k user userbuffer maximumSize =>
      if d.faulted || d.isr then none else some (d.userRead k user userbuffer maximumSize)

/-- The byte that the interrupt routine puts into `cbuf_in`. -/
def enqueuedIn (d : Driver) : ReadAct → List Byte
  | .driver (.isr _) =>
      if d.isr && d.uart.iir == .DATA_AVAIL && !d.cbufIn.isFull then [d.uart.rbr.getD 0]
      else []
  | _ => []

/-- What was delivered, and behind it what is unread, is what came into `cbuf_in`. -/
def Gapless (c : Driver × List Byte) : Prop :=
  c.1.delivered ++ c.1.cbufIn.contents = c.2

/-- A call copies every byte that it takes. -/
def Copies (d : Driver) : ReadAct → Prop
  | .driver _ => True
  | .read k _ userbuffer maximumSize => CopiesAll k d.cbufIn userbuffer maximumSize

instance (d : Driver) (a : ReadAct) : Decidable (Copies d a) :=
  match a with
  | .driver _ => inferInstanceAs (Decidable True)
  | .read k _ userbuffer maximumSize =>
      inferInstanceAs (Decidable (CopiesAll k d.cbufIn userbuffer maximumSize))

variable {d d' : Driver}

/-- `Driver.read` is a call that copies every byte. -/
theorem userRead_eq_read (h : d.cbufIn.Wf) {k : CopyToUser} (user : ByteMem)
    {userbuffer maximumSize : ℕ} (hall : CopiesAll k d.cbufIn userbuffer maximumSize) :
    d.userRead k user userbuffer maximumSize = d.read maximumSize := by
  obtain ⟨-, -, htake, ⟨-, hsize, -⟩ | ⟨hnot, -⟩⟩ :=
    rs232TutRead_cases h k user userbuffer maximumSize
  · have hcbuf := cbufIn_readTurns h k userbuffer maximumSize 0 user hall
    obtain ⟨hbytes, -⟩ := readLoop_spec h maximumSize
    rw [hsize, ← List.take_eq_take_min, ← hbytes, ← hsize] at htake
    simp only [userRead, read, htake, ← hcbuf]
    rfl
  · exact absurd hall hnot

theorem enqueuedIn_of_not_takesByte {a : Act} (h : ¬ TakesByte d a) :
    d.enqueuedIn (.driver a) = [] := by
  cases a with
  | isr _ =>
      refine if_neg fun hboth => h ?_
      simp only [Bool.and_eq_true, beq_iff_eq] at hboth
      exact hboth.1
  | _ => rfl

/-- **A step of the driver** moves bytes to the user and adds the one that came in. -/
theorem step_bytes (hi : InputInv d) {a : Act} (h : d.step a = some d') :
    InputInv d' ∧ d'.delivered ++ d'.cbufIn.contents =
      d.delivered ++ d.cbufIn.contents ++ d.enqueuedIn (.driver a) := by
  rcases step_input h with ⟨hsame, hnot⟩ | ⟨n, rfl, rfl⟩ | ⟨htakes, discarded, rfl, rfl⟩
  · rw [enqueuedIn_of_not_takesByte hnot, hsame.delivered, hsame.cbufIn, List.append_nil]
    exact ⟨hsame.inv hi, rfl⟩
  · obtain ⟨htake, hwf, hsize, hdrop⟩ := readLoop_spec hi.wf n
    refine ⟨⟨hwf, hsize.trans hi.size⟩, ?_⟩
    show d.delivered ++ (readLoop n d.cbufIn).1 ++ (readLoop n d.cbufIn).2.contents = _
    rw [enqueuedIn_of_not_takesByte id, htake, hdrop, List.append_assoc,
      List.take_append_drop, List.append_nil]
  · rw [dataAvail_eq hi]
    cases hfull : d.cbufIn.isFull with
    | true =>
        have hnone : d.enqueuedIn (.driver (.isr discarded)) = [] := by simp [enqueuedIn, hfull]
        rw [hnone, List.append_nil]
        exact ⟨⟨hi.wf, hi.size⟩, rfl⟩
    | false =>
        obtain ⟨-, hwf, hsize, hcontents⟩ := hi.wf.enqueue (d.uart.rbr.getD 0) hfull
        have hone : d.enqueuedIn (.driver (.isr discarded)) = [d.uart.rbr.getD 0] := by
          simp [enqueuedIn, hfull, htakes.1, htakes.2]
        refine ⟨⟨hwf, hsize.trans hi.size⟩, ?_⟩
        rw [hone, List.append_assoc]
        exact congrArg (d.delivered ++ ·) hcontents

/-- **The step lemma.** -/
theorem gapless_step {c c' : Driver × List Byte} {a : ReadAct} (hi : InputInv c.1)
    (h : logged userStep enqueuedIn c a = some c') :
    InputInv c'.1 ∧ (Gapless c → (Gapless c' ↔ Copies c.1 a)) := by
  obtain ⟨hstep, hlog⟩ := logged_eq_some.mp h
  cases a with
  | driver a =>
      obtain ⟨hi', hbytes⟩ := step_bytes hi hstep
      refine ⟨hi', fun hp => iff_of_true ?_ trivial⟩
      rw [Gapless, hbytes, hlog, hp]
  | read k user userbuffer maximumSize =>
      obtain ⟨-, heq⟩ := Option.ite_none_left_eq_some.mp hstep
      obtain ⟨hwf, hsize, -⟩ := rs232TutRead_cases hi.wf k user userbuffer maximumSize
      have hiff := read_append_contents_iff hi.wf k user userbuffer maximumSize
      obtain ⟨d', l'⟩ := c'
      obtain rfl : l' = c.2 := hlog.trans (List.append_nil _)
      obtain rfl : c.1.userRead k user userbuffer maximumSize = d' := Option.some.inj heq
      refine ⟨⟨hwf, hsize.trans hi.size⟩, fun hp => Iff.trans ?_ hiff⟩
      show c.1.delivered ++ _ ++ _ = c.2 ↔ _
      rw [← hp, List.append_assoc, List.append_cancel_left_eq]
      exact Iff.rfl

theorem gapless_run_iff (thr : Option Byte) (as : List ReadAct) (c : Driver × List Byte)
    (hrun : PartialMachine.run (logged userStep enqueuedIn) (init thr, []) as = some c) :
    Always (logged userStep enqueuedIn) Gapless (init thr, []) as ↔
      StepsMeet (logged userStep enqueuedIn) (fun c => Copies c.1) (init thr, []) as := by
  have hinit : Gapless (init thr, []) := by
    show [] ++ (CBuffer.init 80).contents = []
    rw [CBuffer.contents_init]
    rfl
  refine always_iff_stepsMeet (I := fun c : Driver × List Byte => InputInv c.1)
    ⟨CBuffer.wf_init (by decide), rfl⟩ hinit ?_ ?_ as c hrun
  · exact fun c a c' hi hstep => (gapless_step hi hstep).1
  · exact fun c a c' hi hp hstep => (gapless_step hi hstep).2 hp

end Driver

/-- **When reading loses nothing.** A call loses no byte, and at every moment of a run
the user has what came in but for what is unread, exactly if no copy fails. -/
theorem nothingLost_iff (k : CopyToUser) (cb : CBuffer) (h : cb.Wf) (user : ByteMem)
    (userbuffer maximumSize : ℕ) (thr : Option Byte) (as : List ReadAct)
    (c : Driver × List Byte)
    (hrun : PartialMachine.run (logged Driver.userStep Driver.enqueuedIn)
      (Driver.init thr, []) as = some c) :
    (NothingLost cb userbuffer (rs232TutRead k cb user userbuffer maximumSize) ↔
      CopiesAll k cb userbuffer maximumSize) ∧
    (Always (logged Driver.userStep Driver.enqueuedIn) Driver.Gapless (Driver.init thr, []) as ↔
      StepsMeet (logged Driver.userStep Driver.enqueuedIn) (fun c => Driver.Copies c.1)
        (Driver.init thr, []) as) :=
  ⟨nothingLost_read_iff h k user userbuffer maximumSize, Driver.gapless_run_iff thr as c hrun⟩

/-- A user whose buffer is mapped up to `limit`. -/
def CopyToUser.upTo (limit : ℕ) : CopyToUser where
  status a := if a < limit then 0 else 1
  copy user a c := if a < limit then user.write a [c] else user
  copied := fun {user a c} h => by
    have hlt : a < limit := by
      by_contra hge
      rw [if_neg hge] at h
      cases h
    rw [if_pos hlt]
    exact ByteMem.write_inside user a 0 [c] (Nat.lt_add_one 0)
  frame := fun {user a c x} hx => by
    split
    · exact ByteMem.write_outside user a x [c] (by rw [List.length_singleton]; omega)
    · rfl

/-- Two bytes come in. -/
def twoBytes : List Act :=
  [.interrupt, .isr 0, .isr 0] ++ Driver.receive 65 ++ Driver.receive 66

/-- `cbuf_in` with the two bytes. -/
def cbufOfTwo : CBuffer := (((CBuffer.init 80).enqueue 65).2.enqueue 66).2

theorem wf_cbufOfTwo : cbufOfTwo.Wf := ⟨by decide, by decide⟩

/-- A call for eight bytes, to a buffer that is mapped up to `limit`. -/
def readUpTo (limit : ℕ) : ReadAct := .read (.upTo limit) (fun _ => 0) 0 8

/-- Both bytes are there, and the buffer is mapped as far as they go. -/
theorem nothingLost_iff_twoBytes :
    NothingLost cbufOfTwo 0 (rs232TutRead (.upTo 2) cbufOfTwo (fun _ => 0) 0 8) ∧
      ∃ c, PartialMachine.run (logged Driver.userStep Driver.enqueuedIn) (Driver.init none, [])
          (twoBytes.map .driver ++ [readUpTo 2]) = some c ∧ c.1.delivered = [65, 66] ∧
        Always (logged Driver.userStep Driver.enqueuedIn) Driver.Gapless
          (Driver.init none, []) (twoBytes.map .driver ++ [readUpTo 2]) := by
  have hend : (PartialMachine.run (logged Driver.userStep Driver.enqueuedIn)
      (Driver.init none, []) (twoBytes.map .driver ++ [readUpTo 2])).map
        (fun c => decide (c.1.delivered = [65, 66])) = some true := by
    decide +kernel
  obtain ⟨c, hrun, hdelivered⟩ := Option.map_eq_some_iff.mp hend
  obtain ⟨hcall, halways⟩ :=
    nothingLost_iff (.upTo 2) cbufOfTwo wf_cbufOfTwo (fun _ => 0) 0 8 none _ c hrun
  refine ⟨hcall.mpr ?_, c, hrun, of_decide_eq_true hdelivered, halways.mpr ?_⟩
  · show CopiesAll _ _ _ _
    decide +kernel
  · exact (stepsMeet_iff _ _).mp (by decide +kernel)

/-- Only one byte of the user's buffer is mapped: the call counts one, and the other is
nowhere. The next call gives the user the byte behind it. -/
theorem not_nothingLost_secondByte :
    (rs232TutRead (.upTo 1) cbufOfTwo (fun _ => 0) 0 8).size = 1 ∧
      (rs232TutRead (.upTo 1) cbufOfTwo (fun _ => 0) 0 8).cbufIn.contents = [] ∧
      ¬ NothingLost cbufOfTwo 0 (rs232TutRead (.upTo 1) cbufOfTwo (fun _ => 0) 0 8) ∧
      ∃ c, PartialMachine.run (logged Driver.userStep Driver.enqueuedIn) (Driver.init none, [])
          ((twoBytes.map .driver ++ [readUpTo 1]) ++
            ((Driver.receive 67).map .driver ++ [readUpTo 8])) = some c ∧
        c.1.delivered = [65, 67] ∧ c.2 = [65, 66, 67] ∧ ¬ Driver.Gapless c := by
  have hsize : (rs232TutRead (.upTo 1) cbufOfTwo (fun _ => 0) 0 8).size = 1 := by decide +kernel
  have hempty : (rs232TutRead (.upTo 1) cbufOfTwo (fun _ => 0) 0 8).cbufIn.contents = [] := by
    decide +kernel
  have hend : (PartialMachine.run (logged Driver.userStep Driver.enqueuedIn)
      (Driver.init none, []) ((twoBytes.map .driver ++ [readUpTo 1]) ++
        ((Driver.receive 67).map .driver ++ [readUpTo 8]))).map
        (fun c => decide (c.1.delivered = [65, 67] ∧ c.2 = [65, 66, 67] ∧
          c.1.cbufIn.contents = [])) = some true := by
    decide +kernel
  obtain ⟨c, hrun, hdecide⟩ := Option.map_eq_some_iff.mp hend
  obtain ⟨hdelivered, hreceived, hcontents⟩ := of_decide_eq_true hdecide
  refine ⟨hsize, hempty, fun hlost => ?_, c, hrun, hdelivered, hreceived, fun hgapless => ?_⟩
  · have hqueue := hlost.queue
    rw [hsize, hempty] at hqueue
    exact absurd hqueue (by decide)
  · rw [Driver.Gapless, hdelivered, hreceived, hcontents] at hgapless
    exact absurd hgapless (by decide)

end OsAssignments.Rs232
