import OsAssignments.Rs232.Driver

/-!
# Transmitting

`empty_thr_from_isr` is how the interrupt routine tells the writer that THR is
empty and that there was nothing to send: the writer then has to send the next
byte itself. `PcInv` says for every point of `rs232_tut_write` what the writer
may rely on there, whatever the interrupt routine does.

The writer takes the flag down in two places. After the loop it does so once it
has a byte. Inside the loop it does so first; if the interrupt routine has emptied
the buffer since the writer found it full, there is no byte, and nobody will ever
send again.

- `transmits_of_stepsMeet` — **every run in which that does not happen** sends what
  was enqueued, in order, and leaves nothing behind.
- `not_transmits_drainedBuffer` — a run in which it does.
-/

namespace OsAssignments.Rs232

open PartialMachine

/-- The flag is tested inside the loop. -/
def Pc.testsFlag : Pc → Bool
  | .testFlag _ _ => true
  | _ => false

namespace Driver

/-! ## §1  The property -/

/-- THR was only written while it was empty, and with the bytes that were enqueued,
in order; and between calls, with THR empty and nothing pending, none is left. -/
structure Transmits (d : Driver) : Prop where
  prefix_enqueued : d.written <+: d.enqueued
  overwritten : d.overwritten = false
  stranded : d.pc = .idle → d.uart.thr = none → d.uart.emptyThr = false →
    d.cbufOut.contents = []
  lost : d.pc = .idle → d.enqueued = d.written ++ d.cbufOut.contents

/-- A writer that has found the buffer full, and now finds the flag up, finds a byte
in the buffer. -/
def FindsByte (d : Driver) : Act → Prop
  | .writer _ => d.pc.testsFlag = true → d.emptyThrFromIsr = true → d.cbufOut.contents ≠ []
  | _ => True

/-! ## §2  The invariant -/

/-- Somebody will send: THR is occupied, or its interrupt is pending, or the flag says
that it is the writer's turn. -/
def Linked (d : Driver) : Prop :=
  d.emptyThrFromIsr = false → d.uart.thr.isSome = true ∨ d.uart.emptyThr = true

/-- THR is the writer's. -/
def Ready (d : Driver) : Prop := d.uart.thr = none ∧ d.uart.emptyThr = false

/-- The flag stays up until the writer has a byte, after the loop. -/
def flagAt : PushSite → Bool
  | .full _ _ => false
  | .last => true

/-- **What the writer may rely on**, by program point. -/
def PcInv (d : Driver) : Pc → Prop
  | .idle => Linked d ∧ (d.emptyThrFromIsr = true → d.cbufOut.contents = [])
  | .loop _ => Linked d
  | .isFull _ _ _ => Linked d
  | .compare _ _ _ nextToHead => Linked d ∧ nextToHead = d.cbufOut.nextToHead
  | .testFlag _ _ => Linked d
  | .clearFlag _ _ => Ready d ∧ d.cbufOut.contents ≠ []
  | .dequeue site => Ready d ∧ d.emptyThrFromIsr = flagAt site ∧
      (flagAt site = false → d.cbufOut.contents ≠ [])
  | .takeData site => Ready d ∧ d.emptyThrFromIsr = flagAt site ∧ d.cbufOut.contents ≠ []
  | .eraseData site data => Ready d ∧ d.emptyThrFromIsr = flagAt site ∧
      d.cbufOut.contents ≠ [] ∧ d.cbufOut.cbuff d.cbufOut.tail = data
  | .moveTail site _ => Ready d ∧ d.emptyThrFromIsr = flagAt site ∧ d.cbufOut.contents ≠ []
  | .outb _ _ => Ready d ∧ d.emptyThrFromIsr = false
  | .enqueueData _ _ => Linked d ∧ d.cbufOut.isFull = false
  | .moveHead c _ => Linked d ∧ d.cbufOut.isFull = false ∧ d.cbufOut.cbuff d.cbufOut.head = c
  | .lastTest => Linked d
  | .lastClear _ => Ready d

/-- The bytes that were enqueued and not yet written to THR, one of them perhaps in
the writer's hand. -/
def unsent : Pc → List Byte → List Byte
  | .moveTail _ data, contents => data :: contents.tail
  | .outb _ data, contents => data :: contents
  | .lastClear data, contents => data :: contents
  | _, contents => contents

structure TransmitInv (d : Driver) : Prop where
  wf : d.cbufOut.Wf
  overwritten : d.overwritten = false
  emptyThr : d.uart.emptyThr = true → d.uart.thr = none
  flag : d.emptyThrFromIsr = true → Ready d
  ledger : d.enqueued = d.written ++ unsent d.pc d.cbufOut.contents
  pc : PcInv d d.pc

variable {d d' : Driver}

theorem TransmitInv.transmits (h : TransmitInv d) : Transmits d := by
  refine ⟨⟨_, h.ledger.symm⟩, h.overwritten, ?_, ?_⟩
  · intro hidle hthr hpending
    have hpc := h.pc
    rw [hidle] at hpc
    obtain ⟨hlinked, hnil⟩ := hpc
    refine hnil ?_
    by_contra hflag
    rcases hlinked (by simpa using hflag) with hsome | hempty
    · rw [hthr] at hsome
      cases hsome
    · rw [hpending] at hempty
      cases hempty
  · intro hidle
    have hledger := h.ledger
    rwa [hidle] at hledger

theorem transmitInv_init (thr : Option Byte) : TransmitInv (init thr) := by
  have hcontents : (init thr).cbufOut.contents = [] := CBuffer.contents_init 40
  refine ⟨CBuffer.wf_init (by decide), rfl, ?_, (fun h => by cases h), ?_, ?_, fun _ => hcontents⟩
  · intro h
    exact Option.isNone_iff_eq_none.mp h
  · show ([] : List Byte) = [] ++ (init thr).cbufOut.contents
    rw [hcontents]
    rfl
  · intro _
    cases thr with
    | none => exact Or.inr rfl
    | some c => exact Or.inl rfl

/-! ## §3  The interrupt routine and the UART -/

/-- The step does nothing on the transmitting side. -/
structure SameOutput (d d' : Driver) : Prop where
  cbufOut : d'.cbufOut = d.cbufOut
  flag : d'.emptyThrFromIsr = d.emptyThrFromIsr
  thr : d'.uart.thr = d.uart.thr
  emptyThr : d'.uart.emptyThr = d.uart.emptyThr
  pc : d'.pc = d.pc
  enqueued : d'.enqueued = d.enqueued
  written : d'.written = d.written
  overwritten : d'.overwritten = d.overwritten

theorem SameOutput.inv (h : SameOutput d d') (hi : TransmitInv d) : TransmitInv d' := by
  have hlinked : Linked d' ↔ Linked d := by rw [Linked, Linked, h.flag, h.thr, h.emptyThr]
  have hready : Ready d' ↔ Ready d := by rw [Ready, Ready, h.thr, h.emptyThr]
  have hpc : ∀ pc, PcInv d' pc ↔ PcInv d pc := by
    intro pc
    cases pc <;> simp only [PcInv, hlinked, hready, h.flag, h.cbufOut]
  refine ⟨h.cbufOut ▸ hi.wf, h.overwritten.trans hi.overwritten, ?_, ?_, ?_, ?_⟩
  · rw [h.emptyThr, h.thr]
    exact hi.emptyThr
  · rw [h.flag, hready]
    exact hi.flag
  · rw [h.enqueued, h.written, h.pc, h.cbufOut]
    exact hi.ledger
  · rw [h.pc, hpc]
    exact hi.pc

/-- Between its turn and its `outb`, the writer has THR for itself. -/
def Pushing : Pc → Prop
  | .clearFlag _ _ => True
  | .dequeue _ => True
  | .takeData _ => True
  | .eraseData _ _ => True
  | .moveTail _ _ => True
  | .outb _ _ => True
  | .lastClear _ => True
  | _ => False

theorem PcInv.ready {pc : Pc} (h : PcInv d pc) (hpushing : Pushing pc) : Ready d := by
  cases pc with
  | clearFlag => exact h.1
  | dequeue => exact h.1
  | takeData => exact h.1
  | eraseData => exact h.1
  | moveTail => exact h.1
  | outb => exact h.1
  | lastClear => exact h
  | _ => exact absurd hpushing id

/-- Elsewhere the writer only relies on what the other side keeps. -/
theorem PcInv.interfere {pc : Pc} (h : PcInv d pc) (hpushing : ¬ Pushing pc)
    (hlinked : Linked d') (hnext : d'.cbufOut.nextToHead = d.cbufOut.nextToHead)
    (hfull : d.cbufOut.isFull = false → d'.cbufOut.isFull = false)
    (hslot : d'.cbufOut.cbuff d'.cbufOut.head = d.cbufOut.cbuff d.cbufOut.head)
    (hnil : d'.emptyThrFromIsr = true → d'.cbufOut.contents = []) : PcInv d' pc := by
  cases pc with
  | idle => exact ⟨hlinked, hnil⟩
  | loop => exact hlinked
  | isFull => exact hlinked
  | compare site c rest n => exact ⟨hlinked, h.2.trans hnext.symm⟩
  | testFlag => exact hlinked
  | enqueueData => exact ⟨hlinked, hfull h.2⟩
  | moveHead => exact ⟨hlinked, hfull h.2.1, hslot.trans h.2.2⟩
  | lastTest => exact hlinked
  | _ => exact absurd trivial hpushing

theorem unsent_of_not_pushing {pc : Pc} (hpushing : ¬ Pushing pc) (contents : List Byte) :
    unsent pc contents = contents := by
  cases pc with
  | moveTail => exact absurd trivial hpushing
  | outb => exact absurd trivial hpushing
  | lastClear => exact absurd trivial hpushing
  | _ => rfl

/-- **The `RS232_EMPTY_THR` case.** -/
theorem emptyThr_inv (hi : TransmitInv d) (hpending : d.uart.emptyThr = true) :
    TransmitInv { d with uart.emptyThr := false }.emptyThr := by
  have hthr := hi.emptyThr hpending
  have hnotReady : ¬ Ready d := by
    rintro ⟨-, hempty⟩
    rw [hpending] at hempty
    cases hempty
  have hflag : d.emptyThrFromIsr = false := by
    rw [← Bool.not_eq_true]
    exact fun hflag => hnotReady (hi.flag hflag)
  have hpushing : ¬ Pushing d.pc := fun hpushing => hnotReady (hi.pc.ready hpushing)
  have hledger := hi.ledger
  rw [unsent_of_not_pushing hpushing] at hledger
  unfold emptyThr
  dsimp only
  split
  · -- nothing to send: it is the writer's turn
    rename_i hempty
    have hnil := hi.wf.isEmpty_iff.mp hempty
    refine ⟨hi.wf, hi.overwritten, (fun h => by cases h), fun _ => ⟨hthr, rfl⟩, ?_, ?_⟩
    · show d.enqueued = d.written ++ unsent d.pc d.cbufOut.contents
      rw [unsent_of_not_pushing hpushing]
      exact hledger
    · exact hi.pc.interfere hpushing (fun h => by cases h) rfl id rfl fun _ => hnil
  · rename_i hempty
    rw [Bool.not_eq_true] at hempty
    have hcons := hi.wf.contents_eq_cons hempty
    have hne : d.cbufOut.head ≠ d.cbufOut.tail := by simpa [CBuffer.isEmpty] using hempty
    rw [(hi.wf.dequeue hcons).1]
    dsimp only
    refine ⟨hi.wf.erase.moveTail, ?_, (fun h => by cases h), ?_, ?_, ?_⟩
    · show (d.overwritten || d.uart.thr.isSome) = false
      rw [hi.overwritten, hthr]
      rfl
    · intro hup
      rw [show d.emptyThrFromIsr = true from hup] at hflag
      cases hflag
    · show d.enqueued = (d.written ++ [d.cbufOut.cbuff d.cbufOut.tail]) ++
        unsent d.pc d.cbufOut.erase.moveTail.contents
      rw [unsent_of_not_pushing hpushing, hledger, List.append_assoc, List.singleton_append,
        ← hcons]
    · refine hi.pc.interfere hpushing (fun _ => Or.inl rfl) rfl
        (fun _ => hi.wf.isFull_erase_moveTail hempty) (Function.update_of_ne hne _ _) ?_
      intro hup
      rw [show d.emptyThrFromIsr = true from hup] at hflag
      cases hflag

theorem dataAvail_sameOutput (d : Driver) (c discarded : Byte) :
    SameOutput d (d.dataAvail c discarded) := by
  unfold dataAvail
  dsimp only
  split
  · split
    · exact ⟨rfl, rfl, rfl, rfl, rfl, rfl, rfl, rfl⟩
    · exact ⟨rfl, rfl, rfl, rfl, rfl, rfl, rfl, rfl⟩
  · exact ⟨rfl, rfl, rfl, rfl, rfl, rfl, rfl, rfl⟩

/-- **THR drains.** -/
theorem drain_inv (hi : TransmitInv d) (hthr : d.uart.thr.isSome = true) :
    TransmitInv { d with uart := d.uart.drain } := by
  have hnotReady : ¬ Ready d := by
    rintro ⟨hnone, -⟩
    rw [hnone] at hthr
    cases hthr
  have hflag : d.emptyThrFromIsr = false := by
    rw [← Bool.not_eq_true]
    exact fun hflag => hnotReady (hi.flag hflag)
  have hpushing : ¬ Pushing d.pc := fun hpushing => hnotReady (hi.pc.ready hpushing)
  have hdown : ∀ {P : Prop}, d.emptyThrFromIsr = true → P := by
    intro P hup
    rw [hflag] at hup
    cases hup
  refine ⟨hi.wf, hi.overwritten, fun _ => rfl, hdown, hi.ledger, ?_⟩
  exact hi.pc.interfere hpushing (fun _ => Or.inr rfl) rfl id rfl hdown

/-! ## §4  The writer -/

/-- A statement that only moves on. -/
theorem TransmitInv.goto (hi : TransmitInv d) (pc : Pc) (hpc : PcInv d pc)
    (hunsent : unsent pc d.cbufOut.contents = unsent d.pc d.cbufOut.contents) :
    TransmitInv { d with pc := pc } :=
  ⟨hi.wf, hi.overwritten, hi.emptyThr, hi.flag, hunsent ▸ hi.ledger, hpc⟩

theorem afterFull_inv (site : FullSite) (c : Byte) (rest : List Byte) {full : Bool} (ok : Bool)
    (hlinked : Linked d) (hfull : full = d.cbufOut.isFull) :
    PcInv d (afterFull site c rest full ok) ∧ ¬ Pushing (afterFull site c rest full ok) := by
  unfold afterFull
  cases site with
  | test =>
      dsimp only
      split
      · exact ⟨hlinked, id⟩
      · exact ⟨hlinked, id⟩
  | wait =>
      dsimp only
      split
      · exact ⟨hlinked, id⟩
      · exact ⟨hlinked, id⟩
  | enqueue =>
      dsimp only
      split
      · exact ⟨hlinked, id⟩
      · rename_i hroom
        rw [Bool.not_eq_true, hfull] at hroom
        exact ⟨⟨hlinked, hroom⟩, id⟩

/-- The flag is down, or goes down: the byte that the writer has goes to THR next. -/
theorem TransmitInv.lower (hi : TransmitInv d) (pc : Pc) (hready : Ready d)
    (hpc : PcInv { d with emptyThrFromIsr := false } pc)
    (hunsent : unsent pc d.cbufOut.contents = unsent d.pc d.cbufOut.contents) :
    TransmitInv { d with emptyThrFromIsr := false, pc := pc } :=
  ⟨hi.wf, hi.overwritten, hi.emptyThr, (fun _ => hready), hunsent ▸ hi.ledger, hpc⟩

/-- `outb` by the writer. -/
theorem TransmitInv.outb (hi : TransmitInv d) {data : Byte} (pc : Pc) (hready : Ready d)
    (hflag : d.emptyThrFromIsr = false) (hpushing : ¬ Pushing pc)
    (hhand : unsent d.pc d.cbufOut.contents = data :: d.cbufOut.contents)
    (hpc : PcInv (d.outbThr data) pc) : TransmitInv { d.outbThr data with pc := pc } := by
  have hdown : ∀ {P : Prop}, d.emptyThrFromIsr = true → P := by
    intro P hup
    rw [hflag] at hup
    cases hup
  refine ⟨hi.wf, ?_, (fun h => by cases h), hdown, ?_, hpc⟩
  · show (d.overwritten || d.uart.thr.isSome) = false
    rw [hi.overwritten, hready.1]
    rfl
  · show d.enqueued = (d.written ++ [data]) ++ unsent pc d.cbufOut.contents
    rw [unsent_of_not_pushing hpushing, hi.ledger, hhand, List.append_assoc,
      List.singleton_append]

theorem isEmpty_of_ne_nil (hi : TransmitInv d) (hne : d.cbufOut.contents ≠ []) :
    d.cbufOut.isEmpty = false := by
  rw [← Bool.not_eq_true, hi.wf.isEmpty_iff]
  exact hne

/-- The byte that is erased is the one in the writer's hand. -/
theorem TransmitInv.eraseData (hi : TransmitInv d) {site : PushSite} {data : Byte}
    (hpc : d.pc = .eraseData site data) :
    TransmitInv { d with cbufOut := d.cbufOut.erase, pc := .moveTail site data } := by
  have hat := hi.pc
  have hledger := hi.ledger
  rw [hpc] at hat hledger
  obtain ⟨hready, hflag, hne, hdata⟩ := hat
  have hnonempty := isEmpty_of_ne_nil hi hne
  have herase : d.cbufOut.erase.contents =
      d.cbufOut.erase.cbuff d.cbufOut.tail :: d.cbufOut.erase.moveTail.contents :=
    hi.wf.erase.contents_moveTail hnonempty
  refine ⟨hi.wf.erase, hi.overwritten, hi.emptyThr, hi.flag, ?_, hready, hflag, ?_⟩
  · show d.enqueued = d.written ++ data :: d.cbufOut.erase.contents.tail
    rw [herase, List.tail_cons, ← hdata, ← hi.wf.contents_eq_cons hnonempty]
    exact hledger
  · show d.cbufOut.erase.contents ≠ []
    rw [herase]
    exact List.cons_ne_nil _ _

theorem TransmitInv.moveTail (hi : TransmitInv d) {site : PushSite} {data : Byte} :
    d.pc = .moveTail site data → TransmitInv { d with
      cbufOut := d.cbufOut.moveTail
      pc := match site with
        | .full _ _ => .outb site data
        | .last => .lastClear data } := by
  intro hpc
  have hat := hi.pc
  have hledger := hi.ledger
  rw [hpc] at hat hledger
  obtain ⟨hready, hflag, hne⟩ := hat
  have htail : d.cbufOut.contents.tail = d.cbufOut.moveTail.contents := by
    rw [hi.wf.contents_moveTail (isEmpty_of_ne_nil hi hne), List.tail_cons]
  have hledger' : d.enqueued = d.written ++ data :: d.cbufOut.moveTail.contents := by
    rw [← htail]
    exact hledger
  cases site with
  | full c rest =>
      exact ⟨hi.wf.moveTail, hi.overwritten, hi.emptyThr, hi.flag, hledger', hready, hflag⟩
  | last =>
      exact ⟨hi.wf.moveTail, hi.overwritten, hi.emptyThr, hi.flag, hledger', hready⟩

theorem TransmitInv.enqueueData (hi : TransmitInv d) {c : Byte} {rest : List Byte}
    (hpc : d.pc = .enqueueData c rest) :
    TransmitInv { d with cbufOut := d.cbufOut.put c, pc := .moveHead c rest } := by
  have hat := hi.pc
  have hledger := hi.ledger
  rw [hpc] at hat hledger
  obtain ⟨hlinked, hroom⟩ := hat
  refine ⟨hi.wf.put c, hi.overwritten, hi.emptyThr, hi.flag, ?_, hlinked, hroom,
    Function.update_self ..⟩
  show d.enqueued = d.written ++ (d.cbufOut.put c).contents
  rw [hi.wf.contents_put]
  exact hledger

/-- The byte in the slot at the head is enqueued now. -/
theorem TransmitInv.moveHead (hi : TransmitInv d) {c : Byte} {rest : List Byte}
    (hpc : d.pc = .moveHead c rest) :
    TransmitInv { d with
      cbufOut := d.cbufOut.moveHead
      enqueued := d.enqueued ++ [c]
      pc := .loop rest } := by
  have hat := hi.pc
  have hledger := hi.ledger
  rw [hpc] at hat hledger
  obtain ⟨hlinked, hroom, hslot⟩ := hat
  refine ⟨hi.wf.moveHead, hi.overwritten, hi.emptyThr, hi.flag, ?_, hlinked⟩
  show d.enqueued ++ [c] = d.written ++ d.cbufOut.moveHead.contents
  rw [hi.wf.contents_moveHead hroom, hslot, ← List.append_assoc]
  exact congrArg (· ++ [c]) hledger

/-- **A statement of `rs232_tut_write`**, by program point. -/
theorem writer_inv (hi : TransmitInv d) {ok : Bool} (hfinds : FindsByte d (.writer ok))
    (h : d.writer ok = some d') : TransmitInv d' := by
  have hat := hi.pc
  unfold writer at h
  cases hpc : d.pc with
  | idle =>
      rw [hpc] at h
      cases h
  | loop rest =>
      rw [hpc] at h hat
      have hsame : ∀ pc, ¬ Pushing pc →
          unsent pc d.cbufOut.contents = unsent d.pc d.cbufOut.contents := by
        intro pc hpushing
        rw [unsent_of_not_pushing hpushing, hpc]
        rfl
      cases rest with
      | nil =>
          cases h
          exact hi.goto _ hat (hsame _ id)
      | cons c rest =>
          cases h
          cases ok with
          | true => exact hi.goto _ hat (hsame _ id)
          | false => exact hi.goto _ hat (hsame _ id)
  | isFull site c rest =>
      rw [hpc] at h hat
      cases h
      exact hi.goto _ ⟨hat, rfl⟩ (by rw [hpc]; rfl)
  | compare site c rest nextToHead =>
      rw [hpc] at h hat
      cases h
      obtain ⟨hlinked, hnext⟩ := hat
      subst hnext
      obtain ⟨hpc', hpushing⟩ := afterFull_inv site c rest ok hlinked rfl
      refine hi.goto _ hpc' ((unsent_of_not_pushing hpushing _).trans ?_)
      rw [hpc]
      rfl
  | testFlag c rest =>
      rw [hpc] at h hat
      cases h
      split
      · rename_i hflag
        exact hi.goto (.clearFlag c rest) ⟨hi.flag hflag, hfinds (by rw [hpc]; rfl) hflag⟩
          (by rw [hpc]; rfl)
      · exact hi.goto (.isFull .wait c rest) hat (by rw [hpc]; rfl)
  | clearFlag c rest =>
      rw [hpc] at h hat
      cases h
      exact hi.lower _ hat.1 ⟨hat.1, rfl, fun _ => hat.2⟩ (by rw [hpc]; rfl)
  | dequeue site =>
      rw [hpc] at h hat
      cases h
      obtain ⟨hready, hflag, hbyte⟩ := hat
      split
      · rename_i hempty
        have hnil := hi.wf.isEmpty_iff.mp hempty
        have hup : flagAt site = true := by
          by_contra hdown
          exact hbyte (by simpa using hdown) hnil
        refine hi.goto .idle ⟨?_, fun _ => hnil⟩ (by rw [hpc]; rfl)
        intro hdown
        rw [hflag, hup] at hdown
        cases hdown
      · rename_i hempty
        have hne : d.cbufOut.contents ≠ [] := fun hnil =>
          hempty (hi.wf.isEmpty_iff.mpr hnil)
        exact hi.goto (.takeData site) ⟨hready, hflag, hne⟩ (by rw [hpc]; rfl)
  | takeData site =>
      rw [hpc] at h hat
      cases h
      exact hi.goto _ ⟨hat.1, hat.2.1, hat.2.2, rfl⟩ (by rw [hpc]; rfl)
  | eraseData site data =>
      rw [hpc] at h
      cases h
      exact hi.eraseData hpc
  | moveTail site data =>
      rw [hpc] at h
      cases h
      exact hi.moveTail hpc
  | outb site data =>
      rw [hpc] at h hat
      cases h
      obtain ⟨hready, hflag⟩ := hat
      have hhand : unsent d.pc d.cbufOut.contents = data :: d.cbufOut.contents := by
        rw [hpc]
        rfl
      cases site with
      | full c rest =>
          exact hi.outb (.isFull .wait c rest) hready hflag id hhand fun _ => Or.inl rfl
      | last =>
          refine hi.outb .idle hready hflag id hhand ⟨fun _ => Or.inl rfl, fun hup => ?_⟩
          rw [show d.emptyThrFromIsr = true from hup] at hflag
          cases hflag
  | enqueueData c rest =>
      rw [hpc] at h
      cases h
      exact hi.enqueueData hpc
  | moveHead c rest =>
      rw [hpc] at h
      cases h
      exact hi.moveHead hpc
  | lastTest =>
      rw [hpc] at h hat
      cases h
      split
      · rename_i hflag
        exact hi.goto (.dequeue .last) ⟨hi.flag hflag, hflag, fun h => by cases h⟩
          (by rw [hpc]; rfl)
      · rename_i hflag
        exact hi.goto .idle ⟨hat, fun hup => absurd hup hflag⟩ (by rw [hpc]; rfl)
  | lastClear data =>
      rw [hpc] at h hat
      cases h
      exact hi.lower _ hat ⟨hat, rfl⟩ (by rw [hpc]; rfl)

/-! ## §5  Each step -/

/-- **The step lemma.** -/
theorem transmitInv_step {a : Act} (hi : TransmitInv d) (hfinds : FindsByte d a)
    (hstep : d.step a = some d') : TransmitInv d' := by
  obtain ⟨-, h⟩ := Option.ite_none_left_eq_some.mp hstep
  have same : SameOutput d d' → TransmitInv d' := fun hsame => hsame.inv hi
  cases a with
  | write userbuffer =>
      obtain ⟨⟨-, hidle⟩, h⟩ := Option.ite_none_right_eq_some.mp h
      cases h
      have hat := hi.pc
      rw [hidle] at hat
      exact hi.goto (.loop userbuffer) hat.1 (by rw [hidle]; rfl)
  | writer ok =>
      obtain ⟨-, h⟩ := Option.ite_none_left_eq_some.mp h
      exact writer_inv hi hfinds h
  | read n =>
      obtain ⟨-, h⟩ := Option.ite_none_left_eq_some.mp h
      cases h
      exact same ⟨rfl, rfl, rfl, rfl, rfl, rfl, rfl, rfl⟩
  | interrupt =>
      obtain ⟨-, h⟩ := Option.ite_none_right_eq_some.mp h
      cases h
      exact same ⟨rfl, rfl, rfl, rfl, rfl, rfl, rfl, rfl⟩
  | isr discarded =>
      obtain ⟨-, h⟩ := Option.ite_none_right_eq_some.mp h
      cases h
      cases hiir : d.uart.iir with
      | none =>
          refine same ?_
          simp only [isrTurn, hiir]
          exact ⟨rfl, rfl, rfl, rfl, rfl, rfl, rfl, rfl⟩
      | EMPTY_THR =>
          simp only [isrTurn, hiir]
          exact emptyThr_inv hi (Uart.emptyThr_of_iir hiir)
      | DATA_AVAIL =>
          refine same ?_
          simp only [isrTurn, hiir]
          exact dataAvail_sameOutput d _ _
      | ERROR =>
          refine same ?_
          simp only [isrTurn, hiir]
          exact ⟨rfl, rfl, rfl, rfl, rfl, rfl, rfl, rfl⟩
  | drain =>
      obtain ⟨hthr, h⟩ := Option.ite_none_right_eq_some.mp h
      cases h
      exact drain_inv hi hthr
  | arrive c =>
      cases h
      exact same ⟨rfl, rfl, rfl, rfl, rfl, rfl, rfl, rfl⟩
  | lineError =>
      cases h
      exact same ⟨rfl, rfl, rfl, rfl, rfl, rfl, rfl, rfl⟩

/-! ## §6  Runs -/

/-- **What is enqueued is sent**, in every run in which the writer, inside its loop,
never finds the flag up with the buffer emptied. -/
theorem transmits_of_stepsMeet (thr : Option Byte) (as : List Act)
    (hmeet : StepsMeet step FindsByte (init thr) as) :
    Always step Transmits (init thr) as := by
  rintro pre post rfl d hd
  exact (run_invariant_of_stepsMeet (transmitInv_init thr)
    (fun _ _ _ hi hfinds hstep => transmitInv_step hi hfinds hstep) pre d hmeet.of_append
    hd).transmits

instance (d : Driver) : ∀ a, Decidable (FindsByte d a)
  | .writer _ => inferInstanceAs (Decidable (_ → _ → _))
  | .write _ => isTrue trivial
  | .read _ => isTrue trivial
  | .interrupt => isTrue trivial
  | .isr _ => isTrue trivial
  | .drain => isTrue trivial
  | .arrive _ => isTrue trivial
  | .lineError => isTrue trivial

/-- The interrupt routine runs, with one source pending. -/
def serve : List Act := [.interrupt, .isr 0, .isr 0]

/-- A call of `rs232_tut_write`, and so many of its statements. -/
def call (userbuffer : List Byte) (statements : ℕ) : List Act :=
  .write userbuffer :: List.replicate statements (.writer true)

/-- Two bytes are written; the first goes to THR from the writer, the second from the
interrupt routine. -/
def twoBytes : List Act := serve ++ call [1, 2] 22 ++ .drain :: serve ++ .drain :: serve

theorem transmits_of_stepsMeet_twoBytes : ∃ d,
    PartialMachine.run step (init none) twoBytes = some d ∧ d.written = [1, 2] ∧
      d.pc = .idle ∧ Always step Transmits (init none) twoBytes := by
  have hend : (PartialMachine.run step (init none) twoBytes).map (fun d =>
      decide (d.written = [1, 2] ∧ d.pc = .idle)) = some true := by decide +kernel
  obtain ⟨d, hrun, hend⟩ := Option.map_eq_some_iff.mp hend
  obtain ⟨hwritten, hidle⟩ := of_decide_eq_true hend
  exact ⟨d, hrun, hwritten, hidle, transmits_of_stepsMeet none twoBytes
    ((stepsMeet_iff _ _).mp (by decide +kernel))⟩

/-- While THR is occupied, a call finds the buffer full; it comes to the flag when
everything has been sent, and returns. The next call enqueues a byte. -/
def drainedBuffer : List Act :=
  serve ++ call [7] 15 ++ call (List.replicate 40 8) 276 ++
    (List.replicate 40 (.drain :: serve)).flatten ++ List.replicate 3 (.writer true) ++
    call [9] 9

theorem not_transmits_drainedBuffer : ∃ d,
    PartialMachine.run step (init none) drainedBuffer = some d ∧ d.pc = .idle ∧
      d.uart.thr = none ∧ d.uart.emptyThr = false ∧ d.cbufOut.contents = [9] ∧
      ¬ Always step Transmits (init none) drainedBuffer := by
  have hend : (PartialMachine.run step (init none) drainedBuffer).map (fun d =>
      decide (d.pc = .idle ∧ d.uart.thr = none ∧ d.uart.emptyThr = false ∧
        d.cbufOut.contents = [9])) = some true := by decide +kernel
  obtain ⟨d, hrun, hend⟩ := Option.map_eq_some_iff.mp hend
  obtain ⟨hidle, hthr, hpending, hcontents⟩ := of_decide_eq_true hend
  refine ⟨d, hrun, hidle, hthr, hpending, hcontents, fun halways => ?_⟩
  have hnil := (halways.last hrun).stranded hidle hthr hpending
  rw [hcontents] at hnil
  cases hnil

end Driver

end OsAssignments.Rs232
