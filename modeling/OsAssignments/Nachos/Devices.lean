import OsAssignments.Nachos.Interrupt
import Mathlib.Tactic.Ring

/-!
# The disk and the timer

`machine/disk.cc` as far as its times and its interrupt go, and `machine/timer.cc` with
the handlers that the kernel gives to them (`TimerInterruptHandler`, `DiskRequestDone`),
on top of `Interrupt.lean`.

- `latency_passes` — a request ends when the head has passed its sector, or when the
  sector has been sent from the track buffer, which holds it; `request_ends` is the same
  for every request of a run.
- `requests_complete` — **the result**, for every run: a request that the disk has
  accepted ends once, at the time that `ComputeLatency` gives, and the machine does not
  give up before.
-/

namespace OsAssignments.Interrupts

open ArrivalOrder PartialMachine

/-! ## §1  Disk times -/

def RotationTime : ℤ := 500

def SeekTime : ℤ := 500

def SectorsPerTrack : ℤ := 32

def NumSectors : ℤ := 1024

structure Disk where
  active : Bool
  lastSector : ℤ
  bufferInit : ℤ
deriving DecidableEq, Repr

namespace Disk

def new : Disk := ⟨false, 0, 0⟩

/-- The seek, and the rest of the sector that the head then is in. -/
def timeToSeek (d : Disk) (now newSector : ℤ) : ℤ × ℤ :=
  let newTrack := newSector / SectorsPerTrack
  let oldTrack := d.lastSector / SectorsPerTrack
  let seek := ((newTrack - oldTrack).natAbs : ℤ) * SeekTime
  let overlap := (now + seek) % RotationTime
  (seek, if 0 < overlap then RotationTime - overlap else 0)

def moduloDiff (target current : ℤ) : ℤ :=
  (target % SectorsPerTrack - current % SectorsPerTrack + SectorsPerTrack) % SectorsPerTrack

/-- The sector is in the track buffer. -/
def Buffered (d : Disk) (now newSector : ℤ) : Prop :=
  let (seek, rotation) := d.timeToSeek now newSector
  seek = 0 ∧ moduloDiff newSector (d.bufferInit / RotationTime) <
    (now + seek + rotation - d.bufferInit) / RotationTime

instance (d : Disk) (now newSector : ℤ) : Decidable (d.Buffered now newSector) :=
  inferInstanceAs (Decidable (_ ∧ _))

def computeLatency (d : Disk) (now newSector : ℤ) (writing : Bool) : ℤ :=
  let (seek, rotation) := d.timeToSeek now newSector
  let timeAfter := now + seek + rotation
  if writing = false ∧ d.Buffered now newSector then RotationTime
  else
    seek + (rotation + moduloDiff newSector (timeAfter / RotationTime) * RotationTime) +
      RotationTime

def updateLast (d : Disk) (now newSector : ℤ) : Disk :=
  let (seek, rotate) := d.timeToSeek now newSector
  { d with
    bufferInit := if seek ≠ 0 then now + seek + rotate else d.bufferInit
    lastSector := newSector }

/-! ## §2  Where the head is -/

/-- At time `t` the head is at the beginning of the sector, on whatever track. -/
def HeadAt (t sector : ℤ) : Prop :=
  t % RotationTime = 0 ∧ t / RotationTime % SectorsPerTrack = sector % SectorsPerTrack

variable {d : Disk} {now sector : ℤ}

/-- Seek and rotation end where a sector begins, the first one after the seek. -/
theorem timeToSeek_boundary (d : Disk) (now sector : ℤ) {seek rotation : ℤ}
    (h : d.timeToSeek now sector = (seek, rotation)) :
    (now + seek + rotation) % RotationTime = 0 ∧ 0 ≤ seek ∧ 0 ≤ rotation ∧
      rotation < RotationTime := by
  simp only [timeToSeek, Prod.mk.injEq] at h
  obtain ⟨hseek, hrotation⟩ := h
  rw [hseek] at hrotation
  have hnonneg : 0 ≤ seek := by
    simp only [SeekTime] at hseek
    omega
  by_cases hover : 0 < (now + seek) % RotationTime
  · rw [if_pos hover] at hrotation
    simp only [RotationTime] at *
    omega
  · rw [if_neg hover] at hrotation
    simp only [RotationTime] at *
    omega

theorem moduloDiff_spec (target current : ℤ) :
    0 ≤ moduloDiff target current ∧ moduloDiff target current < SectorsPerTrack ∧
      (current + moduloDiff target current) % SectorsPerTrack = target % SectorsPerTrack := by
  simp only [moduloDiff, SectorsPerTrack]
  omega

/-- The first time from the boundary `t` on at which the head is at the sector. -/
theorem headAt_first {t : ℤ} (ht : t % RotationTime = 0) (sector : ℤ) :
    HeadAt (t + moduloDiff sector (t / RotationTime) * RotationTime) sector ∧
      ∀ s, t ≤ s → HeadAt s sector →
        t + moduloDiff sector (t / RotationTime) * RotationTime ≤ s := by
  obtain ⟨hpos, hlt, hmod⟩ := moduloDiff_spec sector (t / RotationTime)
  simp only [HeadAt, RotationTime, SectorsPerTrack] at *
  generalize moduloDiff sector (t / 500) = turns at *
  refine ⟨⟨by omega, ?_⟩, ?_⟩
  · have hdiv : (t + turns * 500) / 500 = t / 500 + turns := by omega
    rw [hdiv, hmod]
  · rintro s hs ⟨hs0, hsmod⟩
    omega

/-- **A sector is in the track buffer** iff the head has passed over it since the buffer
began to be loaded, on the same track. -/
theorem buffered_iff {seek rotation : ℤ} (h : d.timeToSeek now sector = (seek, rotation))
    (hinit : d.bufferInit % RotationTime = 0) :
    d.Buffered now sector ↔ seek = 0 ∧ ∃ s, d.bufferInit ≤ s ∧ HeadAt s sector ∧
      s + RotationTime ≤ now + seek + rotation := by
  obtain ⟨hboundary, -⟩ := timeToSeek_boundary d now sector h
  obtain ⟨hhead, hfirst⟩ := headAt_first hinit sector
  obtain ⟨hpos, -⟩ := moduloDiff_spec sector (d.bufferInit / RotationTime)
  simp only [Buffered, h]
  generalize moduloDiff sector (d.bufferInit / RotationTime) = turns at *
  refine and_congr_right fun _ => ?_
  constructor
  · intro hlt
    refine ⟨_, ?_, hhead, ?_⟩ <;> simp only [RotationTime] at * <;> omega
  · rintro ⟨s, hs, hs', hle⟩
    have hge := hfirst s hs hs'
    simp only [RotationTime] at *
    omega

/-- **When a request ends.** One that is in the track buffer is sent from there; for any
other one, the sector that the head passes over last is the one of the request, and the
first such one after the seek. -/
theorem latency_passes {seek rotation : ℤ} (h : d.timeToSeek now sector = (seek, rotation))
    (writing : Bool) :
    (writing = false ∧ d.Buffered now sector →
      d.computeLatency now sector writing = RotationTime) ∧
    (¬ (writing = false ∧ d.Buffered now sector) →
      HeadAt (now + d.computeLatency now sector writing - RotationTime) sector ∧
        now + seek ≤ now + d.computeLatency now sector writing - RotationTime ∧
        ∀ s, now + seek ≤ s → HeadAt s sector →
          now + d.computeLatency now sector writing - RotationTime ≤ s) := by
  obtain ⟨hboundary, hseek, hrotation, hlt⟩ := timeToSeek_boundary d now sector h
  obtain ⟨hhead, hfirst⟩ := headAt_first hboundary sector
  obtain ⟨hpos, -⟩ := moduloDiff_spec sector ((now + seek + rotation) / RotationTime)
  simp only [computeLatency, h]
  constructor
  · intro hbuf
    rw [if_pos hbuf]
  · intro hbuf
    rw [if_neg hbuf]
    generalize moduloDiff sector ((now + seek + rotation) / RotationTime) = turns at *
    have hstart : now + (seek + (rotation + turns * RotationTime) + RotationTime) - RotationTime =
        now + seek + rotation + turns * RotationTime := by ring
    rw [hstart]
    refine ⟨hhead, ?_, fun s hs hs' => ?_⟩
    · simp only [RotationTime] at *
      omega
    · apply hfirst s _ hs'
      have hs0 := hs'.1
      simp only [RotationTime] at *
      omega

theorem rotationTime_le_computeLatency (d : Disk) (now sector : ℤ) (writing : Bool) :
    RotationTime ≤ d.computeLatency now sector writing := by
  obtain ⟨seek, rotation, h⟩ : ∃ seek rotation, d.timeToSeek now sector = (seek, rotation) :=
    ⟨_, _, rfl⟩
  obtain ⟨-, hseek, hrotation, -⟩ := timeToSeek_boundary d now sector h
  obtain ⟨hpos, -⟩ := moduloDiff_spec sector ((now + seek + rotation) / RotationTime)
  simp only [computeLatency, h]
  split
  · exact le_refl _
  · simp only [RotationTime] at *
    omega

/-- The buffer begins to be loaded at the beginning of a sector, and before the request
ends. -/
theorem bufferInit_updateLast (sector : ℤ) (writing : Bool)
    (hinit : d.bufferInit % RotationTime = 0) (hloaded : d.bufferInit ≤ now) :
    (d.updateLast now sector).bufferInit % RotationTime = 0 ∧
      (d.updateLast now sector).bufferInit ≤ now + d.computeLatency now sector writing := by
  obtain ⟨seek, rotation, h⟩ : ∃ seek rotation, d.timeToSeek now sector = (seek, rotation) :=
    ⟨_, _, rfl⟩
  obtain ⟨hboundary, hseek, hrotation, -⟩ := timeToSeek_boundary d now sector h
  have hlatency := rotationTime_le_computeLatency d now sector writing
  have hrot : RotationTime = 500 := rfl
  simp only [updateLast, h]
  by_cases hzero : seek = 0
  · rw [if_neg (by simpa using hzero)]
    exact ⟨hinit, by omega⟩
  · rw [if_pos hzero]
    refine ⟨hboundary, ?_⟩
    obtain ⟨-, hpasses⟩ := latency_passes h writing
    have hbuf : ¬ (writing = false ∧ d.Buffered now sector) := by
      rintro ⟨-, hb⟩
      simp only [Buffered, h] at hb
      exact hzero hb.1
    obtain ⟨hhead, hle, -⟩ := hpasses hbuf
    have hhead0 := hhead.1
    obtain ⟨-, -, -, hlt⟩ := timeToSeek_boundary d now sector h
    omega

end Disk

/-! ## §3  The devices -/

def TimerTicks : ℤ := 100

inductive Handler where
  /-- `TimerHandler`. -/
  | timer
  /-- `DiskDone`. -/
  | diskDone
deriving DecidableEq, Repr

/-- The disk, the timer and `Random`. The last three fields are for the statements: how
many requests the disk has accepted, how many times it has called `DiskRequestDone`, and
when the last request ends. -/
structure Devices where
  disk : Disk
  randomize : Bool
  random : ℕ → ℕ
  drawn : ℕ
  accepted : ℕ
  completed : ℕ
  finish : ℤ

namespace Devices

def timeOfNextInterrupt (w : Devices) : ℤ × Devices :=
  if w.randomize then
    (1 + (w.random w.drawn : ℤ) % (TimerTicks * 2), { w with drawn := w.drawn + 1 })
  else (TimerTicks, w)

/-- `Timer::TimerExpired` with `TimerInterruptHandler`. -/
def timerExpired (status : MachineStatus) (w : Devices) : List (HandlerCall Handler) × Devices :=
  let (ticks, w) := w.timeOfNextInterrupt
  (.schedule .timer ticks .TimerInt ::
    (if status ≠ .IdleMode then [.yieldOnReturn] else []), w)

/-- `Disk::HandleInterrupt`; `DiskRequestDone` does not touch the interrupts. -/
def handleInterrupt (w : Devices) : List (HandlerCall Handler) × Devices :=
  ([], { w with disk := { w.disk with active := false }, completed := w.completed + 1 })

def handlers : Handlers Handler Devices := fun handler status _ w =>
  match handler with
  | .timer => w.timerExpired status
  | .diskDone => w.handleInterrupt

end Devices

inductive DeviceAct where
  | processor (a : Act Handler Devices)
  /-- `Disk::ReadRequest` or `Disk::WriteRequest`. -/
  | request (writing : Bool) (sectorNumber : ℤ)

namespace Devices

abbrev Nachos := Machine Handler Devices

def request (m : Nachos) (writing : Bool) (sectorNumber : ℤ) : Option Nachos :=
  let now := m.interrupt.totalTicks
  let ticks := m.world.disk.computeLatency now sectorNumber writing
  if m.world.disk.active = false ∧ 0 ≤ sectorNumber ∧ sectorNumber < NumSectors then
    (m.interrupt.schedule .diskDone ticks .DiskInt).map fun interrupt =>
      { m with
        interrupt := interrupt
        world :=
          { m.world with
            disk := { m.world.disk.updateLast now sectorNumber with active := true }
            accepted := m.world.accepted + 1
            finish := now + ticks } }
  else none

def step (m : Nachos) : DeviceAct → Option Nachos
  | .processor a => if Machine.Act.hardware a then m.step handlers a else none
  | .request writing sectorNumber => if m.halted then none else request m writing sectorNumber

/-- `Initialize`: the timer is started if there is one. -/
def init (randomYield : Bool) (random : ℕ → ℕ) : Nachos :=
  let w : Devices := ⟨.new, randomYield, random, 0, 0, 0, 0⟩
  let (ticks, w') := w.timeOfNextInterrupt
  if randomYield then
    ⟨(Interrupt.new.schedule .timer ticks .TimerInt).getD .new, w', false⟩
  else .init w

/-! ## §4  Every run -/

/-- What the interrupts keep: the disk has one pending, at the time when the request
ends, iff it is active. -/
structure Sound (q : List (PendingInterrupt Handler)) (now : ℤ) (w : Devices) : Prop where
  disk : q.filter (·.handler = .diskDone) =
    if w.disk.active then [⟨.diskDone, w.finish, .DiskInt⟩] else []
  timer : ∀ p ∈ q, p.handler = .timer → p.type = .TimerInt
  count : w.accepted = w.completed + if w.disk.active then 1 else 0
  bufferInit : w.disk.bufferInit % RotationTime = 0
  loaded : w.disk.bufferInit ≤ if w.disk.active then w.finish else now

/-- Drawing a number changes nothing of it. -/
theorem timeOfNextInterrupt_spec (w : Devices) : 0 < w.timeOfNextInterrupt.1 ∧
    w.timeOfNextInterrupt.2.disk = w.disk ∧ w.timeOfNextInterrupt.2.finish = w.finish ∧
    w.timeOfNextInterrupt.2.accepted = w.accepted ∧
    w.timeOfNextInterrupt.2.completed = w.completed := by
  unfold timeOfNextInterrupt
  split
  · refine ⟨?_, rfl, rfl, rfl, rfl⟩
    simp only [TimerTicks]
    omega
  · have hpos : 0 < TimerTicks := by decide
    exact ⟨hpos, rfl, rfl, rfl, rfl⟩

/-- The completion interrupt of a busy disk. -/
theorem Sound.busy {q : List (PendingInterrupt Handler)} {now : ℤ} {w : Devices}
    (h : Sound q now w) (hactive : w.disk.active = true) :
    ⟨.diskDone, w.finish, .DiskInt⟩ ∈ q := by
  have hdisk := h.disk
  rw [if_pos hactive] at hdisk
  have hmem : (⟨.diskDone, w.finish, .DiskInt⟩ : PendingInterrupt Handler) ∈
      q.filter (·.handler = .diskDone) := by
    rw [hdisk]
    exact List.mem_singleton_self _
  exact List.mem_of_mem_filter hmem

theorem Sound.timer_fires {p : PendingInterrupt Handler} {q : List (PendingInterrupt Handler)}
    {now : ℤ} {w : Devices} (h : Sound (p :: q) now w) (hp : p.handler = .timer) :
    Sound ((w.timerExpired .SystemMode).1.filterMap (HandlerCall.pending? now) ++ q) now
      (w.timerExpired .SystemMode).2 := by
  obtain ⟨-, hdisk, hfinish, haccepted, hcompleted⟩ := timeOfNextInterrupt_spec w
  have hq : (p :: q).filter (·.handler = .diskDone) = q.filter (·.handler = .diskDone) := by
    rw [List.filter_cons_of_neg (by simp [hp])]
  refine ⟨?_, ?_, ?_, ?_, ?_⟩
  · have hold := h.disk
    rw [hq] at hold
    change (⟨.timer, now + w.timeOfNextInterrupt.1, .TimerInt⟩ :: q).filter _ = _
    rw [List.filter_cons_of_neg (by simp), hold]
    simp only [timerExpired, hdisk, hfinish]
  · intro p' hp' htimer
    rcases List.mem_cons.mp hp' with rfl | hp'
    · rfl
    · exact h.timer p' (List.mem_cons_of_mem p hp') htimer
  · simp only [timerExpired, hdisk, haccepted, hcompleted]
    exact h.count
  · simp only [timerExpired, hdisk]
    exact h.bufferInit
  · simp only [timerExpired, hdisk, hfinish]
    exact h.loaded

theorem Sound.disk_fires {p : PendingInterrupt Handler} {q : List (PendingInterrupt Handler)}
    {now : ℤ} {w : Devices} (h : Sound (p :: q) now w) (hp : p.handler = .diskDone)
    (hdue : p.when ≤ now) : Sound q now w.handleInterrupt.2 := by
  have hold := h.disk
  rw [List.filter_cons_of_pos (by simp [hp])] at hold
  split at hold
  · rename_i hactive
    obtain ⟨rfl, hnone⟩ := List.cons.inj hold
    have hcount := h.count
    have hloaded := h.loaded
    rw [if_pos hactive] at hcount hloaded
    refine ⟨hnone, fun p' hp' => h.timer p' (List.mem_cons_of_mem _ hp'), ?_, h.bufferInit, ?_⟩
    · simpa [handleInterrupt] using hcount
    · exact hloaded.trans hdue
  · cases hold

theorem kept : Kept handlers Sound := by
  refine ⟨?_, ?_, ?_⟩
  · intro q q' now w hperm h
    refine ⟨?_, fun p hp => h.timer p (hperm.mem_iff.mpr hp), h.count, h.bufferInit, h.loaded⟩
    have hfilter := hperm.filter (·.handler = .diskDone)
    rw [h.disk] at hfilter
    split at hfilter
    · rename_i hactive
      rw [if_pos hactive]
      exact List.perm_singleton.mp hfilter.symm
    · rename_i hactive
      rw [if_neg hactive]
      exact List.nil_perm.mp hfilter
  · intro q now now' w hle h
    refine ⟨h.disk, h.timer, h.count, h.bufferInit, h.loaded.trans ?_⟩
    split
    · exact le_refl _
    · exact hle
  · intro p q now w hdue h
    cases hp : p.handler with
    | timer => exact h.timer_fires hp
    | diskDone => exact h.disk_fires hp hdue

theorem prompt : Interrupt.Prompt handlers := by
  intro h status now w handler fromNow type hc
  cases h with
  | diskDone => cases hc
  | timer =>
      rcases List.mem_cons.mp hc with heq | hc
      · cases heq
        exact (timeOfNextInterrupt_spec w).1
      · split at hc <;> simp at hc

structure Inv (m : Nachos) : Prop where
  machine : m.Inv
  sound : m.interrupt.Satisfies Sound m.world

variable {m m' : Nachos}

theorem Inv.request (h : Inv m) {writing : Bool} {sectorNumber : ℤ}
    (hstep : request m writing sectorNumber = some m') : Inv m' := by
  obtain ⟨⟨hidle, -, -⟩, hstep⟩ := Option.ite_none_right_eq_some.mp hstep
  obtain ⟨i, hi, rfl⟩ := Option.map_eq_some_iff.mp hstep
  have htime := h.machine.time.schedule hi
  obtain ⟨hpos, rfl⟩ := Interrupt.schedule_eq_some.mp hi
  refine ⟨⟨htime, h.machine.inHandler, h.machine.status⟩, ?_⟩
  have hs := h.sound
  have hdisk := hs.disk
  have hcount := hs.count
  have hloaded := hs.loaded
  rw [hidle] at hdisk hcount hloaded
  obtain ⟨hinit, hle⟩ := Disk.bufferInit_updateLast sectorNumber writing
    hs.bufferInit hloaded
  refine kept.perm ((List.perm_orderedInsert Before _ m.interrupt.pending).map Prod.snd).symm ?_
  refine ⟨?_, ?_, ?_, ?_, ?_⟩
  · change (⟨.diskDone, _, .DiskInt⟩ :: m.interrupt.pending.map Prod.snd).filter _ = _
    rw [List.filter_cons_of_pos (by simp), hdisk]
    rfl
  · intro p hp htimer
    rcases List.mem_cons.mp hp with rfl | hp
    · cases htimer
    · exact hs.timer p hp htimer
  · change m.world.accepted + 1 = m.world.completed + 1
    rw [hcount]
    rfl
  · exact hinit
  · exact hle

theorem Inv.step {a : DeviceAct} (h : Inv m) (hstep : step m a = some m') : Inv m' := by
  cases a with
  | processor a =>
      obtain ⟨ha, hstep⟩ := Option.ite_none_right_eq_some.mp hstep
      exact ⟨h.machine.step hstep, Machine.satisfies_step kept h.machine ha h.sound hstep⟩
  | request writing sectorNumber =>
      simp only [Devices.step] at hstep
      split at hstep
      · cases hstep
      · exact h.request hstep

theorem inv_init (randomYield : Bool) (random : ℕ → ℕ) : Inv (init randomYield random) := by
  have hsound : Sound [] 0 ⟨.new, randomYield, random, 0, 0, 0, 0⟩ :=
    ⟨rfl, by simp, rfl, rfl, le_refl _⟩
  cases randomYield with
  | false => exact ⟨Machine.inv_init _, hsound⟩
  | true =>
      have hpos := (timeOfNextInterrupt_spec ⟨.new, true, random, 0, 0, 0, 0⟩).1
      have hsome := Interrupt.schedule_of_pos .new Handler.timer .TimerInt hpos
      have hinit : init true random = ⟨_, _, false⟩ :=
        congrArg (fun o : Option (Interrupt Handler) => (⟨o.getD .new, _, false⟩ : Nachos)) hsome
      rw [hinit]
      refine ⟨⟨Interrupt.timeInv_new.schedule hsome, rfl, fun _ => by simp [Interrupt.new]⟩, ?_⟩
      -- the constructor of the timer does what an interrupt of it does
      have hexpired : Sound [⟨.timer, 0, .TimerInt⟩] 0 ⟨.new, true, random, 0, 0, 0, 0⟩ :=
        ⟨rfl, by simp, rfl, rfl, le_refl _⟩
      exact hexpired.timer_fires rfl

theorem inv_run {randomYield : Bool} {random : ℕ → ℕ} {as : List DeviceAct}
    (hrun : run step (init randomYield random) as = some m) : Inv m :=
  run_invariant (inv_init randomYield random) (fun _ _ _ => Inv.step) as m hrun

/-- **The interrupts of the timer and the disk are on time**: neither schedules one for the
past, so a tick comes to its end, and then those have fired whose time has come. -/
theorem tick_on_time (randomYield : Bool) (random : ℕ → ℕ) (as : List DeviceAct) (m : Nachos)
    (hrun : run step (init randomYield random) as = some m) (hgo : m.halted = false)
    (a : Act Handler Devices) (ha : m.IsTick a) : ∃ m', step m (.processor a) = some m' ∧
      (m'.interrupt.fired.map Prod.fst).Perm
        (m'.interrupt.scheduled.filter (·.when ≤ m'.interrupt.totalTicks)) := by
  obtain ⟨m', hstep, hperm⟩ := (inv_run hrun).machine.tick_on_time prompt hgo ha
  refine ⟨m', ?_, hperm⟩
  have hhardware : Machine.Act.hardware a = true := by
    rcases ha with rfl | ⟨rfl, -⟩ <;> rfl
  rw [Devices.step, if_pos hhardware]
  exact hstep

/-- **Every request ends.** In every run of the processor, the disk and the timer: the
disk has completed the requests that it has accepted, each once, but for the one it is
busy with; that one has one interrupt pending, at the time when it ends. The machine does
not give up before, and when a tick is over at that time or later, it has ended. -/
theorem requests_complete (randomYield : Bool) (random : ℕ → ℕ) (as : List DeviceAct)
    (m : Nachos) (hrun : run step (init randomYield random) as = some m) :
    m.world.accepted = m.world.completed + (if m.world.disk.active then 1 else 0) ∧
    (m.interrupt.pending.map Prod.snd).filter (·.handler = .diskDone) =
      (if m.world.disk.active then [⟨.diskDone, m.world.finish, .DiskInt⟩] else []) ∧
    (∀ m', step m (.processor .idle) = some m' → m'.halted = true →
      m.world.disk.active = false) ∧
    ∀ a m', m.IsTick a → step m (.processor a) = some m' →
      m'.world.disk.active = true → m'.interrupt.totalTicks < m'.world.finish := by
  have h := inv_run hrun
  refine ⟨h.sound.count, h.sound.disk, ?_, ?_⟩
  · intro m' hidle hhalted
    have hhalts := (h.machine.idles hidle).halts_iff.mp hhalted
    by_contra hactive
    rw [Bool.not_eq_false] at hactive
    have hbusy := h.sound.busy hactive
    rcases hhalts with hnil | ⟨e, hone, htype⟩
    · rw [hnil] at hbusy
      cases hbusy
    · rw [hone] at hbusy
      have heq : _ = e.2 := List.mem_singleton.mp hbusy
      rw [← heq] at htype
      cases htype
  · intro a m' ha hstep hactive
    have h' := h.step hstep
    obtain ⟨-, hstep⟩ := Option.ite_none_right_eq_some.mp hstep
    have hdue := h.machine.due_tick ha hstep
    obtain ⟨e, he, heq⟩ := List.mem_map.mp (h'.sound.busy hactive)
    have hlate := List.filter_eq_nil_iff.mp hdue e he
    have hfinish : e.1 = m'.world.finish := by rw [h'.machine.time.current e he, heq]
    rw [decide_eq_true_eq, hfinish] at hlate
    omega

/-- A write to sector 40, one track away: the idle processor waits for it, and the timer
has come many times before. -/
def writeForty : List DeviceAct :=
  [.processor (.setLevel .IntOn), .request true 40, .processor (.setLevel .IntOff),
    .processor .idle, .processor .idle]

theorem requests_complete_writeForty : ∃ m,
    run step (init true fun n => n * 37) writeForty = some m ∧
    m.world.disk.active = true ∧ m.world.finish = 4500 ∧
    m.world.accepted = m.world.completed + (if m.world.disk.active then 1 else 0) ∧
    (m.interrupt.pending.map Prod.snd).filter (·.handler = .diskDone) =
      (if m.world.disk.active then [⟨.diskDone, m.world.finish, .DiskInt⟩] else []) ∧
    (∀ m', step m (.processor .idle) = some m' → m'.halted = true →
      m.world.disk.active = false) ∧
    ∀ a m', m.IsTick a → step m (.processor a) = some m' →
      m'.world.disk.active = true → m'.interrupt.totalTicks < m'.world.finish := by
  refine ⟨_, rfl, by decide, by decide, ?_⟩
  exact requests_complete true (fun n => n * 37) writeForty _ rfl

theorem request_accepted (hidle : m.world.disk.active = false) (writing : Bool)
    {sectorNumber : ℤ} (hsector : 0 ≤ sectorNumber ∧ sectorNumber < NumSectors) :
    ∃ m', request m writing sectorNumber = some m' ∧ m'.world.finish =
      m.interrupt.totalTicks +
        m.world.disk.computeLatency m.interrupt.totalTicks sectorNumber writing := by
  have hlatency := Disk.rotationTime_le_computeLatency m.world.disk m.interrupt.totalTicks
    sectorNumber writing
  have hpos : 0 < m.world.disk.computeLatency m.interrupt.totalTicks sectorNumber writing := by
    simp only [RotationTime] at hlatency
    omega
  have hschedule := Interrupt.schedule_of_pos m.interrupt Handler.diskDone .DiskInt hpos
  unfold request
  dsimp only
  rw [if_pos ⟨hidle, hsector⟩, hschedule]
  exact ⟨_, rfl, rfl⟩

/-- **When a request ends.** In every run, a request for a sector of the disk is accepted
when the disk is not busy. Read from the track buffer, which the head has loaded since
`bufferInit`, if it has passed over the whole sector by then and need not seek, it takes
the time of one sector; any other request ends when the head has passed over its sector, the
first time after the seek. -/
theorem request_ends (randomYield : Bool) (random : ℕ → ℕ) (as : List DeviceAct) (m : Nachos)
    (hrun : run step (init randomYield random) as = some m) (hgo : m.halted = false)
    (hidle : m.world.disk.active = false) (writing : Bool) (sectorNumber : ℤ)
    (hsector : 0 ≤ sectorNumber ∧ sectorNumber < NumSectors) (seek rotation : ℤ)
    (hseek : m.world.disk.timeToSeek m.interrupt.totalTicks sectorNumber = (seek, rotation)) :
    ∃ m', step m (.request writing sectorNumber) = some m' ∧
      ((writing = false ∧ seek = 0 ∧ ∃ s, m.world.disk.bufferInit ≤ s ∧
          Disk.HeadAt s sectorNumber ∧
          s + RotationTime ≤ m.interrupt.totalTicks + seek + rotation) →
        m'.world.finish = m.interrupt.totalTicks + RotationTime) ∧
      (¬ (writing = false ∧ seek = 0 ∧ ∃ s, m.world.disk.bufferInit ≤ s ∧
          Disk.HeadAt s sectorNumber ∧
          s + RotationTime ≤ m.interrupt.totalTicks + seek + rotation) →
        Disk.HeadAt (m'.world.finish - RotationTime) sectorNumber ∧
        m.interrupt.totalTicks + seek ≤ m'.world.finish - RotationTime ∧
        ∀ s, m.interrupt.totalTicks + seek ≤ s → Disk.HeadAt s sectorNumber →
          m'.world.finish - RotationTime ≤ s) := by
  have h := inv_run hrun
  have hbuffered := Disk.buffered_iff hseek h.sound.bufferInit
  obtain ⟨hhit, hmiss⟩ := Disk.latency_passes hseek writing
  obtain ⟨m', hstep, hfinish⟩ := request_accepted hidle writing hsector
  refine ⟨m', by rw [Devices.step, hgo]; exact hstep, ?_, ?_⟩
  · rw [← hbuffered, hfinish]
    intro hbuf
    rw [hhit hbuf]
  · rw [← hbuffered, hfinish]
    exact hmiss

/-- The write to sector 40, and the head over it. -/
theorem request_ends_forty : ∃ m m',
    run step (init false fun _ => 0) [.processor (.setLevel .IntOn)] = some m ∧
    step m (.request true 40) = some m' ∧ m'.world.finish = 4500 ∧
      Disk.HeadAt (m'.world.finish - RotationTime) 40 := by
  obtain ⟨m', hstep, -, hends⟩ := request_ends false (fun _ => 0)
    [.processor (.setLevel .IntOn)] _ rfl rfl rfl true 40 (by decide) 500 490 rfl
  refine ⟨_, m', rfl, hstep, ?_, (hends (by simp)).1⟩
  cases hstep
  decide

end Devices

end OsAssignments.Interrupts
