import OsAssignments.Lib.ArrivalOrder
import OsAssignments.Lib.PartialMachine
import Mathlib.Data.Int.Notation
import Mathlib.Algebra.Order.Group.Int

/-!
# Simulated interrupts

`machine/interrupt.cc`: devices schedule interrupts for a later time, and `OneTick` and
`Idle` advance the clock and call the handlers of those that are due. What a handler does
is a parameter. The times are `int`s, here without bounds: what is said holds as long as none
overflows.

- `TimeInv` — what holds between two calls: every interrupt that was scheduled is pending
  or has fired, once, not before its time, in the order of their times.
- `fired_on_time` — **the result**, for every run: when a tick is over, those have fired
  whose time has come, and no others.
- `idle_halts_iff` — when the machine gives up.
-/

namespace OsAssignments.Interrupts

open ArrivalOrder PartialMachine

/-! ## §1  The code -/

inductive IntStatus where
  | IntOff
  | IntOn
deriving DecidableEq, Repr

inductive MachineStatus where
  | IdleMode
  | SystemMode
  | UserMode
deriving DecidableEq, Repr

inductive IntType where
  | TimerInt
  | DiskInt
  | ConsoleWriteInt
  | ConsoleReadInt
  | NetworkSendInt
  | NetworkRecvInt
deriving DecidableEq, Repr

def SystemTick : ℤ := 10

def UserTick : ℤ := 1

structure Statistics where
  totalTicks : ℤ
  idleTicks : ℤ
  systemTicks : ℤ
  userTicks : ℤ
deriving DecidableEq, Repr

/-- `handler` is the procedure with its argument. -/
structure PendingInterrupt (H : Type) where
  handler : H
  when : ℤ
  type : IntType
deriving DecidableEq, Repr

/-- `interrupt` and `stats`. The last two fields are for the statements only: what
`Schedule` was called for, and which handlers were called at what time. -/
structure Interrupt (H : Type) where
  level : IntStatus
  /-- The items of the `List` with their keys. -/
  pending : List (ℤ × PendingInterrupt H)
  inHandler : Bool
  yieldOnReturn : Bool
  status : MachineStatus
  stats : Statistics
  scheduled : List (PendingInterrupt H)
  fired : List (PendingInterrupt H × ℤ)

/-- What a handler does with `interrupt`. -/
inductive HandlerCall (H : Type) where
  | schedule (handler : H) (fromNow : ℤ) (type : IntType)
  | yieldOnReturn

/-- What the handlers do, with a state `W` of their own; they may look at `getStatus` and
at the time. -/
abbrev Handlers (H W : Type) := H → MachineStatus → ℤ → W → List (HandlerCall H) × W

namespace Interrupt

variable {H W : Type}

/-- The constructor, and that of `Statistics`. -/
def new : Interrupt H where
  level := .IntOff
  pending := []
  inHandler := false
  yieldOnReturn := false
  status := .SystemMode
  stats := ⟨0, 0, 0, 0⟩
  scheduled := []
  fired := []

def totalTicks (m : Interrupt H) : ℤ := m.stats.totalTicks

/-- `int when = stats->totalTicks + fromNow`, where that is an `int`. -/
def schedule (m : Interrupt H) (handler : H) (fromNow : ℤ) (type : IntType) :
    Option (Interrupt H) :=
  let when := m.totalTicks + fromNow
  let toOccur := ⟨handler, when, type⟩
  if 0 < fromNow then
    some { m with
      pending := m.pending.orderedInsert Before (when, toOccur)
      scheduled := m.scheduled ++ [toOccur] }
  else none

def setYieldOnReturn (m : Interrupt H) : Option (Interrupt H) :=
  if m.inHandler then some { m with yieldOnReturn := true } else none

def handle (m : Interrupt H) : HandlerCall H → Option (Interrupt H)
  | .schedule handler fromNow type => m.schedule handler fromNow type
  | .yieldOnReturn => m.setYieldOnReturn

/-- The call of the handler of `toOccur`. -/
def fire (handlers : Handlers H W) (m : Interrupt H) (w : W)
    (toOccur : PendingInterrupt H) : Option (Interrupt H × W) :=
  let old := m.status
  let (calls, w) := handlers toOccur.handler .SystemMode m.totalTicks w
  (run handle { m with
      inHandler := true
      status := .SystemMode
      fired := m.fired ++ [(toOccur, m.totalTicks)] } calls).map fun m =>
    ({ m with status := old, inHandler := false }, w)

/-- The clock when nothing runs. -/
def advance (m : Interrupt H) (when : ℤ) : Interrupt H :=
  if m.totalTicks < when then
    { m with stats :=
      { m.stats with
        idleTicks := m.stats.idleTicks + (when - m.totalTicks)
        totalTicks := when } }
  else m

def putBack (m : Interrupt H) (when : ℤ) (toOccur : PendingInterrupt H) : Interrupt H :=
  { m with pending := m.pending.orderedInsert Before (when, toOccur) }

/-- `toOccur` is due. If there is nothing more to do but that, the machine quits. -/
def occur (handlers : Handlers H W) (m : Interrupt H) (w : W) (when : ℤ)
    (toOccur : PendingInterrupt H) : Option (Bool × Interrupt H × W) :=
  if m.status = .IdleMode ∧ toOccur.type = .TimerInt ∧ m.pending = [] then
    some (false, m.putBack when toOccur, w)
  else (m.fire handlers w toOccur).map fun s => (true, s)

def checkIfDue (handlers : Handlers H W) (advanceClock : Bool) (m : Interrupt H) (w : W) :
    Option (Bool × Interrupt H × W) :=
  if m.level = .IntOff then
    match m.pending with
    | [] => some (false, m, w)
    | (when, toOccur) :: rest =>
        let m := { m with pending := rest }
        if advanceClock = false ∧ m.totalTicks < when then
          some (false, m.putBack when toOccur, w)
        else (m.advance when).occur handlers w when toOccur
  else none

/-- `while (CheckIfDue(FALSE));`, for so many turns. -/
def checkWhileDue (handlers : Handlers H W) : ℕ → Interrupt H → W →
    Option (Interrupt H × W)
  | 0, _, _ => none
  | turns + 1, m, w => do
      let (due, m, w) ← m.checkIfDue handlers false w
      if due then m.checkWhileDue handlers turns w else some (m, w)

/-- `OneTick` up to `Yield`, and whether it calls it; behind `Yield` it sets the status
again. -/
def oneTick (handlers : Handlers H W) (m : Interrupt H) (w : W) :
    Option (Bool × Interrupt H × W) := do
  let stats :=
    if m.status = .SystemMode then
      { m.stats with
        totalTicks := m.stats.totalTicks + SystemTick
        systemTicks := m.stats.systemTicks + SystemTick }
    else
      { m.stats with
        totalTicks := m.stats.totalTicks + UserTick
        userTicks := m.stats.userTicks + UserTick }
  let m := { m with stats := stats, level := .IntOff }
  let (m, w) ← m.checkWhileDue handlers (m.pending.length + 1) w
  let m := { m with level := .IntOn }
  if m.yieldOnReturn then
    some (true, { m with yieldOnReturn := false, status := .SystemMode }, w)
  else some (false, m, w)

def setLevel (handlers : Handlers H W) (now : IntStatus) (m : Interrupt H) (w : W) :
    Option (Bool × Interrupt H × W) :=
  if now = .IntOff ∨ m.inHandler = false then
    let old := m.level
    let m := { m with level := now }
    if now = .IntOn ∧ old = .IntOff then m.oneTick handlers w else some (false, m, w)
  else none

/-- `true` if it comes to `Halt`. -/
def idle (handlers : Handlers H W) (m : Interrupt H) (w : W) :
    Option (Bool × Interrupt H × W) := do
  let (due, m, w) ← { m with status := .IdleMode }.checkIfDue handlers true w
  if due then
    let (m, w) ← m.checkWhileDue handlers (m.pending.length + 1) w
    some (false, { m with yieldOnReturn := false, status := .SystemMode }, w)
  else some (true, m, w)

end Interrupt

/-- What the kernel, the user programs and the devices outside their handlers do. -/
inductive Act (H W : Type) where
  | setLevel (now : IntStatus)
  /-- `Machine::Run`, behind an instruction. -/
  | oneTick
  /-- A device is given something to do. -/
  | schedule (handler : H) (fromNow : ℤ) (type : IntType)
  /-- To `UserMode` and back to `SystemMode`. -/
  | setStatus (user : Bool)
  | idle
  /-- The state of the devices changes. -/
  | device (w : W)

structure Machine (H W : Type) where
  interrupt : Interrupt H
  world : W
  /-- `Halt` does not return. -/
  halted : Bool

namespace Machine

variable {H W : Type}

def init (w : W) : Machine H W := ⟨.new, w, false⟩

def step (handlers : Handlers H W) (m : Machine H W) (a : Act H W) : Option (Machine H W) :=
  if m.halted then none
  else match a with
    | .setLevel now =>
        (m.interrupt.setLevel handlers now m.world).map fun r => ⟨r.2.1, r.2.2, false⟩
    | .oneTick => (m.interrupt.oneTick handlers m.world).map fun r => ⟨r.2.1, r.2.2, false⟩
    | .schedule handler fromNow type =>
        (m.interrupt.schedule handler fromNow type).map fun i => { m with interrupt := i }
    | .setStatus user =>
        some { m with
          interrupt :=
            { m.interrupt with status := if user then .UserMode else .SystemMode } }
    | .idle => (m.interrupt.idle handlers m.world).map fun r => ⟨r.2.1, r.2.2, r.1⟩
    | .device w => some { m with world := w }

end Machine

/-! ## §2  What a handler does to the queue -/

namespace Interrupt

variable {H W : Type} {handlers : Handlers H W} {m m' : Interrupt H} {w w' : W}

/-- Every interrupt that was scheduled is pending or has fired, once, not before its time,
and in the order of their times; and the clock is accounted for. -/
structure TimeInv (m : Interrupt H) : Prop where
  sorted : m.pending.Pairwise (·.1 ≤ ·.1)
  current : ∀ e ∈ m.pending, e.1 = e.2.when
  once : (m.fired.map Prod.fst ++ m.pending.map Prod.snd).Perm m.scheduled
  onTime : ∀ f ∈ m.fired, f.1.when ≤ f.2 ∧ f.2 ≤ m.totalTicks
  inOrder : m.fired.Pairwise fun f g => f.1.when ≤ g.1.when ∧ f.2 ≤ g.2
  later : ∀ f ∈ m.fired, ∀ e ∈ m.pending, f.1.when ≤ e.1
  ticks : m.totalTicks = m.stats.idleTicks + m.stats.systemTicks + m.stats.userTicks

/-- Those whose time has come. -/
def due (m : Interrupt H) : List (ℤ × PendingInterrupt H) :=
  m.pending.filter (·.1 ≤ m.totalTicks)

theorem timeInv_new : TimeInv (new : Interrupt H) :=
  ⟨.nil, by simp [new], .refl _, by simp [new], .nil, by simp [new], rfl⟩

theorem schedule_eq_some {handler : H} {fromNow : ℤ} {type : IntType} :
    m.schedule handler fromNow type = some m' ↔
      0 < fromNow ∧ m' = { m with
        pending := m.pending.orderedInsert Before
          (m.totalTicks + fromNow, ⟨handler, m.totalTicks + fromNow, type⟩)
        scheduled := m.scheduled ++ [⟨handler, m.totalTicks + fromNow, type⟩] } := by
  simp only [schedule, Option.ite_none_right_eq_some, Option.some.injEq, eq_comm (a := m')]

theorem schedule_of_pos (m : Interrupt H) (handler : H) (type : IntType) {fromNow : ℤ}
    (hpos : 0 < fromNow) : m.schedule handler fromNow type = some { m with
      pending := m.pending.orderedInsert Before
        (m.totalTicks + fromNow, ⟨handler, m.totalTicks + fromNow, type⟩)
      scheduled := m.scheduled ++ [⟨handler, m.totalTicks + fromNow, type⟩] } :=
  if_pos hpos

/-- One that is not due, put into the queue. -/
theorem filter_due_insert {now : ℤ} {e : ℤ × PendingInterrupt H} (hlate : now < e.1)
    (q : List (ℤ × PendingInterrupt H)) :
    (q.orderedInsert Before e).filter (·.1 ≤ now) = q.filter (·.1 ≤ now) := by
  have hout : ¬ e.1 ≤ now := by omega
  induction q with
  | nil => simp [hout]
  | cons e' q ih =>
      rw [List.orderedInsert_cons]
      split
      · simp [hout]
      · rw [List.filter_cons, ih, List.filter_cons]

theorem TimeInv.schedule (h : TimeInv m) {handler : H} {fromNow : ℤ} {type : IntType}
    (hs : m.schedule handler fromNow type = some m') : TimeInv m' := by
  obtain ⟨hpos, rfl⟩ := schedule_eq_some.mp hs
  refine ⟨sorted_orderedInsert h.sorted _, ?_, ?_, h.onTime, h.inOrder, ?_, h.ticks⟩
  · intro e he
    rcases (List.mem_orderedInsert _).mp he with rfl | he
    · rfl
    · exact h.current e he
  · have hperm := (List.perm_orderedInsert Before (m.totalTicks + fromNow,
      (⟨handler, m.totalTicks + fromNow, type⟩ : PendingInterrupt H)) m.pending).map Prod.snd
    refine (hperm.append_left _).trans (List.perm_middle.trans ?_)
    exact (h.once.cons _).trans (List.perm_append_singleton _ _).symm
  · intro f hf e he
    rcases (List.mem_orderedInsert _).mp he with rfl | he
    · have := h.onTime f hf
      change f.1.when ≤ m.totalTicks + fromNow
      omega
    · exact h.later f hf e he

/-- What the calls of a handler keep. -/
structure Handled (m m' : Interrupt H) : Prop where
  inv : TimeInv m → TimeInv m'
  level : m'.level = m.level
  status : m'.status = m.status
  stats : m'.stats = m.stats
  fired : m'.fired = m.fired
  due : m'.due = m.due

theorem Handled.refl (m : Interrupt H) : Handled m m := ⟨id, rfl, rfl, rfl, rfl, rfl⟩

theorem Handled.trans {m₁ : Interrupt H} (h : Handled m m₁) (h' : Handled m₁ m') :
    Handled m m' :=
  ⟨fun hi => h'.inv (h.inv hi), h'.level.trans h.level, h'.status.trans h.status,
    h'.stats.trans h.stats, h'.fired.trans h.fired, h'.due.trans h.due⟩

/-- What is scheduled comes later. -/
theorem handled_schedule {handler : H} {fromNow : ℤ} {type : IntType}
    (hs : m.schedule handler fromNow type = some m') : Handled m m' := by
  refine ⟨fun hi => hi.schedule hs, ?_, ?_, ?_, ?_, ?_⟩ <;>
    obtain ⟨hpos, rfl⟩ := schedule_eq_some.mp hs
  · rfl
  · rfl
  · rfl
  · rfl
  · apply filter_due_insert
    change m.totalTicks < m.totalTicks + fromNow
    omega

theorem handled_handle {call : HandlerCall H} (h : m.handle call = some m') :
    Handled m m' := by
  cases call with
  | schedule handler fromNow type => exact handled_schedule h
  | yieldOnReturn =>
      obtain ⟨-, heq⟩ := Option.ite_none_right_eq_some.mp h
      cases heq
      exact ⟨fun hi => ⟨hi.sorted, hi.current, hi.once, hi.onTime, hi.inOrder, hi.later,
        hi.ticks⟩, rfl, rfl, rfl, rfl, rfl⟩

theorem handled_run {calls : List (HandlerCall H)} (h : run handle m calls = some m') :
    Handled m m' :=
  run_invariant (I := fun m' => Handled m m') (Handled.refl m)
    (fun _ _ _ hm hstep => hm.trans (handled_handle hstep)) calls m' h

/-! ## §3  One interrupt -/

/-- The first interrupt fires: the rest is what the handler leaves. -/
structure Fires (m m' : Interrupt H) (e : ℤ × PendingInterrupt H) : Prop where
  inv : TimeInv m → TimeInv m'
  level : m'.level = m.level
  status : m'.status = m.status
  stats : m'.stats = m.stats
  fired : m'.fired = m.fired ++ [(e.2, m.totalTicks)]
  due : m.due = e :: m'.due
  inHandler : m'.inHandler = false

theorem TimeInv.remove {e : ℤ × PendingInterrupt H} {rest : List (ℤ × PendingInterrupt H)}
    (h : TimeInv m) (hp : m.pending = e :: rest) (hdue : e.1 ≤ m.totalTicks) :
    TimeInv { m with
      pending := rest
      inHandler := true
      status := .SystemMode
      fired := m.fired ++ [(e.2, m.totalTicks)] } := by
  have hsorted := h.sorted
  rw [hp, List.pairwise_cons] at hsorted
  have hmem : ∀ e' ∈ rest, e' ∈ m.pending := fun e' he' => hp ▸ List.mem_cons_of_mem e he'
  have hfirst : e ∈ m.pending := hp ▸ List.mem_cons_self
  have hwhen : e.2.when ≤ m.totalTicks := h.current e hfirst ▸ hdue
  refine ⟨hsorted.2, fun e' he' => h.current e' (hmem e' he'), ?_, ?_, ?_, ?_, h.ticks⟩
  · have honce := h.once
    rw [hp] at honce
    simpa using honce
  · intro f hf
    rcases List.mem_append.mp hf with hf | hf
    · exact h.onTime f hf
    · obtain rfl := List.mem_singleton.mp hf
      exact ⟨hwhen, le_refl _⟩
  · refine List.pairwise_append.mpr ⟨h.inOrder, List.pairwise_singleton _ _, ?_⟩
    intro f hf g hg
    obtain rfl := List.mem_singleton.mp hg
    refine ⟨?_, (h.onTime f hf).2⟩
    rw [← h.current e hfirst]
    exact h.later f hf e hfirst
  · intro f hf e' he'
    rcases List.mem_append.mp hf with hf | hf
    · exact h.later f hf e' (hmem e' he')
    · obtain rfl := List.mem_singleton.mp hf
      rw [← h.current e hfirst]
      exact hsorted.1 e' he'

theorem fires {e : ℤ × PendingInterrupt H} {rest : List (ℤ × PendingInterrupt H)}
    (hp : m.pending = e :: rest) (hdue : e.1 ≤ m.totalTicks)
    (h : fire handlers { m with pending := rest } w e.2 = some (m', w')) : Fires m m' e := by
  obtain ⟨m₁, hrun, heq⟩ := Option.map_eq_some_iff.mp h
  cases heq
  have hh := handled_run hrun
  refine ⟨fun hi => ?_, hh.level, rfl, hh.stats, hh.fired, ?_, rfl⟩
  · have hi₁ := hh.inv (hi.remove hp hdue)
    exact ⟨hi₁.sorted, hi₁.current, hi₁.once, hi₁.onTime, hi₁.inOrder, hi₁.later, hi₁.ticks⟩
  · have hrest : m₁.due = rest.filter (·.1 ≤ m.totalTicks) := hh.due
    change m.due = e :: m₁.due
    rw [hrest, due, hp, List.filter_cons_of_pos (by simpa using hdue)]

/-- The first interrupt is taken from the queue and put back. -/
theorem TimeInv.putBack {e : ℤ × PendingInterrupt H} {rest : List (ℤ × PendingInterrupt H)}
    (h : TimeInv m) (hp : m.pending = e :: rest) :
    TimeInv ({ m with pending := rest }.putBack e.1 e.2) := by
  have hsorted := h.sorted
  rw [hp, List.pairwise_cons] at hsorted
  have hperm : (rest.orderedInsert Before e).Perm m.pending := by
    rw [hp]
    exact List.perm_orderedInsert Before e rest
  refine ⟨sorted_orderedInsert hsorted.2 e, ?_, ?_, h.onTime, h.inOrder, ?_, h.ticks⟩
  · exact fun e' he' => h.current e' (hperm.mem_iff.mp he')
  · exact ((hperm.map Prod.snd).append_left _).trans h.once
  · exact fun f hf e' he' => h.later f hf e' (hperm.mem_iff.mp he')

/-- `CheckIfDue` calls no handler: nothing is due, or only the timer when the machine is
idle. -/
structure Waits (m m' : Interrupt H) : Prop where
  inv : TimeInv m → TimeInv m'
  level : m'.level = m.level
  status : m'.status = m.status
  stats : m'.stats = m.stats
  fired : m'.fired = m.fired
  inHandler : m'.inHandler = m.inHandler
  due : TimeInv m → m.due = [] ∧ m'.due = [] ∨
    m' = m ∧ m.status = .IdleMode ∧ ∃ e, m.pending = [e] ∧ e.2.type = .TimerInt

/-- The queue is sorted. -/
theorem TimeInv.due_nil {e : ℤ × PendingInterrupt H} {rest : List (ℤ × PendingInterrupt H)}
    (h : TimeInv m) (hp : m.pending = e :: rest) (hlate : m.totalTicks < e.1) :
    m.due = [] := by
  have hsorted := h.sorted
  rw [hp, List.pairwise_cons] at hsorted
  apply List.filter_eq_nil_iff.mpr
  intro e' he'
  have hle : e.1 ≤ e'.1 := by
    rw [hp] at he'
    rcases List.mem_cons.mp he' with rfl | he'
    · exact le_refl _
    · exact hsorted.1 e' he'
  have hgt : ¬ e'.1 ≤ m.totalTicks := by omega
  simpa using hgt

/-- **The two ways `CheckIfDue(FALSE)` ends.** -/
theorem checkIfDue_cases {b : Bool} (h : m.checkIfDue handlers false w = some (b, m', w')) :
    (b = false ∧ w' = w ∧ Waits m m') ∨ (b = true ∧ ∃ e, Fires m m' e) := by
  unfold checkIfDue at h
  obtain ⟨-, h⟩ := Option.ite_none_right_eq_some.mp h
  cases hp : m.pending with
  | nil =>
      simp only [hp, Option.some.injEq, Prod.mk.injEq] at h
      obtain ⟨rfl, rfl, rfl⟩ := h
      exact Or.inl ⟨rfl, rfl, id, rfl, rfl, rfl, rfl, rfl, fun _ =>
        Or.inl ⟨by simp [due, hp], by simp [due, hp]⟩⟩
  | cons e rest =>
      simp only [hp, true_and] at h
      by_cases hlate : m.totalTicks < e.1
      · have hlate' : totalTicks { m with pending := rest } < e.1 := hlate
        rw [if_pos hlate', Option.some.injEq, Prod.mk.injEq, Prod.mk.injEq] at h
        obtain ⟨rfl, rfl, rfl⟩ := h
        refine Or.inl ⟨rfl, rfl, fun hi => hi.putBack hp, rfl, rfl, rfl, rfl, rfl, fun hi => ?_⟩
        refine Or.inl ⟨hi.due_nil hp hlate, ?_⟩
        have hnil := hi.due_nil hp hlate
        have hgt : ¬ e.1 ≤ m.totalTicks := by omega
        rw [due, hp, List.filter_cons_of_neg (by simpa using hgt)] at hnil
        exact (filter_due_insert hlate rest).trans hnil
      · have hlate' : ¬ totalTicks { m with pending := rest } < e.1 := hlate
        have hadvance : advance { m with pending := rest } e.1 = { m with pending := rest } :=
          if_neg hlate'
        rw [if_neg hlate', hadvance, occur] at h
        split at h
        · rename_i hidle
          obtain ⟨hstatus, htype, hrest⟩ := hidle
          change rest = [] at hrest
          subst hrest
          simp only [Option.some.injEq, Prod.mk.injEq] at h
          obtain ⟨rfl, rfl, rfl⟩ := h
          have hsame : putBack { m with pending := [] } e.1 e.2 = m := by
            rw [Interrupt.putBack]
            change { m with pending := [e] } = m
            rw [← hp]
          rw [hsame]
          exact Or.inl ⟨rfl, rfl, id, rfl, rfl, rfl, rfl, rfl, fun _ =>
            Or.inr ⟨rfl, hstatus, e, hp, htype⟩⟩
        · obtain ⟨⟨m₁, w₁⟩, hfire, heq⟩ := Option.map_eq_some_iff.mp h
          cases heq
          exact Or.inr ⟨rfl, e, fires hp (by omega) hfire⟩

/-! ## §4  A tick -/

/-- What the loop has done. -/
structure Caught (m m' : Interrupt H) : Prop where
  inv : TimeInv m'
  level : m'.level = m.level
  status : m'.status = m.status
  stats : m'.stats = m.stats
  inHandler : m.inHandler = false → m'.inHandler = false
  fired : ∃ l, m.due = l ++ m'.due ∧ m'.fired = m.fired ++ l.map fun e => (e.2, m.totalTicks)
  due : m'.due = [] ∨
    m.status = .IdleMode ∧ ∃ e, m'.pending = [e] ∧ e.2.type = .TimerInt

/-- **The loop calls the handlers of those that are due**, in the order of the queue. -/
theorem checkWhileDue_caught {turns : ℕ} (hi : TimeInv m)
    (h : m.checkWhileDue handlers turns w = some (m', w')) : Caught m m' := by
  induction turns generalizing m w with
  | zero => cases h
  | succ turns ih =>
      obtain ⟨⟨b, m₁, w₁⟩, hcheck, h⟩ := Option.bind_eq_some_iff.mp h
      rcases checkIfDue_cases hcheck with ⟨rfl, -, hwait⟩ | ⟨rfl, e, hfire⟩
      · cases h
        refine ⟨hwait.inv hi, hwait.level, hwait.status, hwait.stats, ?_, ⟨[], ?_, ?_⟩, ?_⟩
        · intro hin
          rw [hwait.inHandler, hin]
        · rcases hwait.due hi with ⟨hnil, hnil'⟩ | ⟨rfl, -⟩
          · rw [hnil, hnil']
            rfl
          · rfl
        · rw [hwait.fired]
          exact (List.append_nil _).symm
        · rcases hwait.due hi with ⟨-, hnil'⟩ | ⟨rfl, hidle⟩
          · exact Or.inl hnil'
          · exact Or.inr hidle
      · have hrest := ih (hfire.inv hi) h
        obtain ⟨l, hl, hfired⟩ := hrest.fired
        have htime : m₁.totalTicks = m.totalTicks := congrArg Statistics.totalTicks hfire.stats
        refine ⟨hrest.inv, hrest.level.trans hfire.level, hrest.status.trans hfire.status,
          hrest.stats.trans hfire.stats, fun _ => hrest.inHandler hfire.inHandler,
          ⟨e :: l, ?_, ?_⟩, ?_⟩
        · rw [hfire.due, hl]
          rfl
        · rw [hfired, hfire.fired, htime, List.append_assoc]
          rfl
        · rw [← hfire.status]
          exact hrest.due

/-- The handlers schedule nothing for the present. -/
def Prompt (handlers : Handlers H W) : Prop :=
  ∀ h status now w handler fromNow type,
    HandlerCall.schedule handler fromNow type ∈ (handlers h status now w).1 → 0 < fromNow

/-- Then no `ASSERT` fails in a handler. -/
theorem run_handle_isSome (hin : m.inHandler = true) : ∀ {calls : List (HandlerCall H)},
    (∀ handler fromNow type, HandlerCall.schedule handler fromNow type ∈ calls →
      0 < fromNow) → ∃ m', run handle m calls = some m' := by
  intro calls
  induction calls generalizing m with
  | nil => exact fun _ => ⟨m, rfl⟩
  | cons call calls ih =>
      intro hpos
      obtain ⟨m₁, hcall, hin₁⟩ : ∃ m₁, m.handle call = some m₁ ∧ m₁.inHandler = true := by
        cases call with
        | schedule handler fromNow type =>
            refine ⟨_, if_pos (hpos handler fromNow type List.mem_cons_self), hin⟩
        | yieldOnReturn => exact ⟨_, if_pos hin, hin⟩
      obtain ⟨m', hm'⟩ := ih hin₁ fun handler fromNow type hc =>
        hpos handler fromNow type (List.mem_cons_of_mem call hc)
      refine ⟨m', ?_⟩
      rw [run_cons, hcall]
      exact hm'

theorem fire_isSome (hprompt : Prompt handlers) (m : Interrupt H) (w : W)
    (toOccur : PendingInterrupt H) : ∃ r, m.fire handlers w toOccur = some r := by
  obtain ⟨m', hm'⟩ := run_handle_isSome (m := { m with
      inHandler := true
      status := .SystemMode
      fired := m.fired ++ [(toOccur, m.totalTicks)] }) rfl
    (hprompt toOccur.handler .SystemMode m.totalTicks w)
  exact ⟨_, Option.map_eq_some_iff.mpr ⟨m', hm', rfl⟩⟩

theorem checkIfDue_isSome (hprompt : Prompt handlers) (hlevel : m.level = .IntOff)
    (advanceClock : Bool) (w : W) : ∃ r, m.checkIfDue handlers advanceClock w = some r := by
  unfold checkIfDue
  rw [if_pos hlevel]
  split
  · exact ⟨_, rfl⟩
  · rename_i when toOccur rest hp
    dsimp only
    split
    · exact ⟨_, rfl⟩
    · unfold occur
      split
      · exact ⟨_, rfl⟩
      · obtain ⟨r, hr⟩ := fire_isSome hprompt (advance { m with pending := rest } when) w toOccur
        exact ⟨_, Option.map_eq_some_iff.mpr ⟨r, hr, rfl⟩⟩

/-- **The loop ends**: each turn leaves one less that is due. -/
theorem checkWhileDue_isSome (hprompt : Prompt handlers) {turns : ℕ}
    (hlevel : m.level = .IntOff) (hturns : m.due.length < turns) (w : W) :
    ∃ r, m.checkWhileDue handlers turns w = some r := by
  induction turns generalizing m w with
  | zero => omega
  | succ turns ih =>
      obtain ⟨⟨b, m₁, w₁⟩, hcheck⟩ := checkIfDue_isSome hprompt hlevel false w
      rcases checkIfDue_cases hcheck with ⟨rfl, -, -⟩ | ⟨rfl, e, hfire⟩
      · exact ⟨(m₁, w₁), by simp [checkWhileDue, hcheck]⟩
      · rw [hfire.due, List.length_cons] at hturns
        obtain ⟨r, hr⟩ := ih (hfire.level.trans hlevel) (by omega) w₁
        exact ⟨r, by simp [checkWhileDue, hcheck, hr]⟩

/-- The clock goes on, and the account with it. -/
theorem TimeInv.clock (h : TimeInv m) {stats : Statistics} (level : IntStatus)
    (status : MachineStatus) (hle : m.totalTicks ≤ stats.totalTicks)
    (hticks : stats.totalTicks = stats.idleTicks + stats.systemTicks + stats.userTicks) :
    TimeInv { m with stats := stats, level := level, status := status } :=
  ⟨h.sorted, h.current, h.once, fun f hf => ⟨(h.onTime f hf).1, (h.onTime f hf).2.trans hle⟩,
    h.inOrder, h.later, hticks⟩

/-- How far a tick advances the clock. -/
def tickLength : MachineStatus → ℤ
  | .SystemMode => SystemTick
  | _ => UserTick

/-- `m` when the clock has been advanced by a tick. -/
def ticked (m : Interrupt H) : Interrupt H :=
  { m with
    stats :=
      if m.status = .SystemMode then
        { m.stats with
          totalTicks := m.stats.totalTicks + SystemTick
          systemTicks := m.stats.systemTicks + SystemTick }
      else
        { m.stats with
          totalTicks := m.stats.totalTicks + UserTick
          userTicks := m.stats.userTicks + UserTick }
    level := .IntOff }

theorem totalTicks_ticked (m : Interrupt H) :
    m.ticked.totalTicks = m.totalTicks + tickLength m.status := by
  unfold ticked totalTicks tickLength
  cases m.status <;> rfl

theorem TimeInv.ticked (h : TimeInv m) : TimeInv m.ticked := by
  have hticks := h.ticks
  have htotal := totalTicks_ticked m
  refine h.clock _ m.status ?_ ?_
  · have hpos : 0 ≤ tickLength m.status := by cases m.status <;> decide
    change m.totalTicks ≤ m.ticked.totalTicks
    omega
  · unfold totalTicks at hticks
    split <;> simp only [SystemTick, UserTick] <;> omega

/-- **A tick** fires those that have become due, in the order of the queue. -/
structure Ticks (m m' : Interrupt H) : Prop where
  inv : TimeInv m'
  clock : m'.totalTicks = m.totalTicks + tickLength m.status
  due : m'.due = []
  fired : m'.fired =
    m.fired ++ m.ticked.due.map fun e => (e.2, m.totalTicks + tickLength m.status)
  status : m'.status ≠ .IdleMode
  level : m'.level = .IntOn
  inHandler : m'.inHandler = false

theorem oneTick_ticks {b : Bool} (hi : TimeInv m) (hin : m.inHandler = false)
    (hstatus : m.status ≠ .IdleMode)
    (h : m.oneTick handlers w = some (b, m', w')) : Ticks m m' := by
  obtain ⟨⟨m₁, w₁⟩, hloop, h⟩ := Option.bind_eq_some_iff.mp h
  have hcaught : Caught m.ticked m₁ := checkWhileDue_caught hi.ticked hloop
  have hclock : m₁.totalTicks = m.totalTicks + tickLength m.status := by
    rw [← totalTicks_ticked]
    exact congrArg Statistics.totalTicks hcaught.stats
  have hdue : m₁.due = [] :=
    hcaught.due.resolve_right fun hidle => hstatus hidle.1
  have hfired : m₁.fired =
      m.fired ++ m.ticked.due.map fun e => (e.2, m.totalTicks + tickLength m.status) := by
    obtain ⟨l, hl, hf⟩ := hcaught.fired
    rw [hdue, List.append_nil] at hl
    rw [hf, hl, totalTicks_ticked]
    rfl
  have hinv := hcaught.inv
  have hstatus₁ : m₁.status = m.status := hcaught.status
  simp only at h
  split at h
  · cases h
    exact ⟨⟨hinv.sorted, hinv.current, hinv.once, hinv.onTime, hinv.inOrder, hinv.later,
      hinv.ticks⟩, hclock, hdue, hfired, by simp, rfl, hcaught.inHandler hin⟩
  · cases h
    exact ⟨⟨hinv.sorted, hinv.current, hinv.once, hinv.onTime, hinv.inOrder, hinv.later,
      hinv.ticks⟩, hclock, hdue, hfired, by rwa [← hstatus₁] at hstatus, rfl,
      hcaught.inHandler hin⟩

theorem oneTick_isSome (hprompt : Prompt handlers) (m : Interrupt H) (w : W) :
    ∃ r, m.oneTick handlers w = some r := by
  have hlen : m.ticked.due.length < m.pending.length + 1 := by
    have hle : m.ticked.due.length ≤ m.ticked.pending.length := List.length_filter_le _ _
    change m.ticked.due.length ≤ m.pending.length at hle
    omega
  obtain ⟨⟨m₁, w₁⟩, hloop⟩ := checkWhileDue_isSome hprompt (m := m.ticked) rfl hlen w
  have htick : m.oneTick handlers w =
      (m.ticked.checkWhileDue handlers (m.pending.length + 1) w).bind _ := rfl
  rw [htick, hloop]
  simp only [Option.bind_some]
  split <;> exact ⟨_, rfl⟩

/-! ## §5  An idle machine -/

/-- Only the timer is left. -/
def OnlyTimer (m : Interrupt H) : Prop := ∃ e, m.pending = [e] ∧ e.2.type = .TimerInt

theorem advance_eq (m : Interrupt H) (when : ℤ) :
    m.advance when = { m with stats := (m.advance when).stats } := by
  unfold advance
  split <;> rfl

theorem totalTicks_advance (m : Interrupt H) (when : ℤ) :
    (m.advance when).totalTicks = max m.totalTicks when := by
  unfold advance
  split
  · rename_i hlt
    exact (max_eq_right hlt.le).symm
  · rename_i hle
    exact (max_eq_left (by omega)).symm

theorem TimeInv.advance (h : TimeInv m) (when : ℤ) : TimeInv (m.advance when) := by
  have hticks := h.ticks
  have htotal := totalTicks_advance m when
  rw [advance_eq]
  refine h.clock m.level m.status ?_ ?_
  · change m.totalTicks ≤ (m.advance when).totalTicks
    omega
  · unfold totalTicks at hticks
    unfold Interrupt.advance totalTicks
    split
    · change when = m.stats.idleTicks + (when - m.stats.totalTicks) + m.stats.systemTicks +
        m.stats.userTicks
      omega
    · exact hticks

theorem checkIfDue_cons {e : ℤ × PendingInterrupt H} {rest : List (ℤ × PendingInterrupt H)}
    {advanceClock : Bool} (hp : m.pending = e :: rest)
    (hdue : advanceClock = true ∨ e.1 ≤ m.totalTicks) :
    m.checkIfDue handlers advanceClock w =
      if m.level = .IntOff then
        (advance { m with pending := rest } e.1).occur handlers w e.1 e.2
      else none := by
  have hgo : ¬ (advanceClock = false ∧ m.totalTicks < e.1) := by
    rintro ⟨rfl, hlt⟩
    rcases hdue with hdue | hdue
    · cases hdue
    · omega
  rw [checkIfDue, hp]
  congr 1
  exact if_neg hgo

/-- `CheckIfDue(TRUE)` is `CheckIfDue(FALSE)` at the time of the first interrupt. -/
theorem checkIfDue_advance {e : ℤ × PendingInterrupt H} {rest : List (ℤ × PendingInterrupt H)}
    (hp : m.pending = e :: rest) :
    m.checkIfDue handlers true w = (m.advance e.1).checkIfDue handlers false w := by
  obtain ⟨m₁, hm₁⟩ : ∃ m₁, m₁ = m.advance e.1 := ⟨_, rfl⟩
  have hnow := totalTicks_advance m e.1
  rw [← hm₁] at hnow ⊢
  have hadv : m₁.pending = e :: rest := by rw [hm₁, advance_eq, hp]
  have hlevel : m₁.level = m.level := by rw [hm₁, advance_eq]
  have hrest : advance { m₁ with pending := rest } e.1 =
      advance { m with pending := rest } e.1 := by
    have hlate : ¬ m₁.totalTicks < e.1 := by omega
    have hone : advance { m with pending := rest } e.1 = { m₁ with pending := rest } := by
      rw [hm₁]
      unfold advance totalTicks
      split <;> rfl
    rw [hone]
    exact if_neg hlate
  rw [checkIfDue_cons hp (Or.inl rfl), checkIfDue_cons hadv (Or.inr (by omega)), hrest, hlevel]

/-- **When the machine gives up**, and what it does otherwise. -/
structure Idles (m m' : Interrupt H) (halts : Bool) : Prop where
  halts_iff : halts = true ↔ m.pending = [] ∨ m.OnlyTimer
  inv : TimeInv m'
  inHandler : m'.inHandler = false
  status : halts = false → m'.status = .SystemMode
  /-- The clock stands at the time of the first interrupt, unless that has passed. -/
  clock : halts = false → ∃ e ∈ m.pending.head?, m'.totalTicks = max m.totalTicks e.1
  due : halts = false → m'.due = [] ∨ m'.OnlyTimer

theorem occur_onlyTimer {when : ℤ} {toOccur : PendingInterrupt H}
    {r : Bool × Interrupt H × W} (hidle : m.status = .IdleMode)
    (h : m.occur handlers w when toOccur = some r) :
    r.1 = false ↔ toOccur.type = .TimerInt ∧ m.pending = [] := by
  unfold occur at h
  split at h
  · rename_i hquit
    cases h
    exact ⟨fun _ => hquit.2, fun _ => rfl⟩
  · rename_i hgo
    obtain ⟨s, -, rfl⟩ := Option.map_eq_some_iff.mp h
    exact ⟨nofun, fun hquit => absurd ⟨hidle, hquit⟩ hgo⟩

theorem idle_idles {b : Bool} (hi : TimeInv m) (hin : m.inHandler = false)
    (h : m.idle handlers w = some (b, m', w')) : Idles m m' b := by
  obtain ⟨m₀, hm₀⟩ : ∃ m₀ : Interrupt H, m₀ = { m with status := .IdleMode } := ⟨_, rfl⟩
  have hi₀ : TimeInv m₀ := by
    rw [hm₀]
    exact hi.clock m.level _ (le_refl _) hi.ticks
  have hidle : m₀.status = .IdleMode := by rw [hm₀]
  have htotal : m₀.totalTicks = m.totalTicks := by rw [hm₀]; rfl
  have hin₀ : m₀.inHandler = false := by rw [hm₀]; exact hin
  have hpending : m₀.pending = m.pending := by rw [hm₀]
  unfold idle at h
  rw [← hm₀] at h
  obtain ⟨⟨due, m₁, w₁⟩, hcheck, h⟩ := Option.bind_eq_some_iff.mp h
  cases hp : m.pending with
  | nil =>
      rw [hp] at hpending
      unfold checkIfDue at hcheck
      obtain ⟨-, hcheck⟩ := Option.ite_none_right_eq_some.mp hcheck
      simp only [hpending, Option.some.injEq, Prod.mk.injEq] at hcheck
      obtain ⟨rfl, rfl, rfl⟩ := hcheck
      cases h
      exact ⟨by simp [hp], hi₀, hin₀, nofun, nofun, nofun⟩
  | cons e rest =>
      rw [hp] at hpending
      have hclock := totalTicks_advance m₀ e.1
      have hi₁ := hi₀.advance e.1
      have hstatus₁ : (m₀.advance e.1).status = .IdleMode := by rw [advance_eq, hidle]
      have hlone : due = false ↔ m.OnlyTimer := by
        rw [checkIfDue_cons hpending (Or.inl rfl)] at hcheck
        have hoccur := occur_onlyTimer (by rw [advance_eq]; exact hidle)
          (Option.ite_none_right_eq_some.mp hcheck).2
        rw [hoccur, advance_eq]
        constructor
        · rintro ⟨htype, rfl⟩
          exact ⟨e, hp, htype⟩
        · rintro ⟨e', hp', htype⟩
          obtain ⟨rfl, rfl⟩ := List.cons.inj (hp.symm.trans hp')
          exact ⟨htype, rfl⟩
      rw [checkIfDue_advance hpending] at hcheck
      rcases checkIfDue_cases hcheck with ⟨rfl, -, hwait⟩ | ⟨rfl, e', hfire⟩
      · cases h
        refine ⟨by simpa [hp] using hlone, hwait.inv hi₁, ?_, nofun, nofun, nofun⟩
        rw [hwait.inHandler, advance_eq]
        exact hin₀
      · obtain ⟨⟨m₂, w₂⟩, hloop, heq⟩ := Option.bind_eq_some_iff.mp h
        cases heq
        have hcaught := checkWhileDue_caught (hfire.inv hi₁) hloop
        have hinv := hcaught.inv
        have htotal₂ : m₂.totalTicks = max m.totalTicks e.1 := by
          rw [← htotal, ← hclock]
          exact congrArg Statistics.totalTicks (hcaught.stats.trans hfire.stats)
        refine ⟨by simpa [hp] using hlone, ?_, hcaught.inHandler hfire.inHandler, fun _ => rfl,
          fun _ => ⟨e, by simp [hp], htotal₂⟩, fun _ => ?_⟩
        · exact ⟨hinv.sorted, hinv.current, hinv.once, hinv.onTime, hinv.inOrder, hinv.later,
            hinv.ticks⟩
        · rcases hcaught.due with hnil | ⟨-, hlone'⟩
          · exact Or.inl hnil
          · exact Or.inr hlone'

end Interrupt

/-! ## §6  Invariants of the devices -/

/-- What the call puts into the queue at time `now`. -/
def HandlerCall.pending? {H : Type} (now : ℤ) : HandlerCall H → Option (PendingInterrupt H)
  | .schedule handler fromNow type => some ⟨handler, now + fromNow, type⟩
  | .yieldOnReturn => none

/-- A property of the pending interrupts, the time and the devices that an interrupt
keeps. -/
structure Kept {H W : Type} (handlers : Handlers H W)
    (J : List (PendingInterrupt H) → ℤ → W → Prop) : Prop where
  perm : ∀ {q q' now w}, q.Perm q' → J q now w → J q' now w
  clock : ∀ {q now now' w}, now ≤ now' → J q now w → J q now' w
  handler : ∀ {p q now w}, p.when ≤ now → J (p :: q) now w →
    J ((handlers p.handler .SystemMode now w).1.filterMap (HandlerCall.pending? now) ++ q) now
      (handlers p.handler .SystemMode now w).2

namespace Interrupt

variable {H W : Type} {handlers : Handlers H W} {m m' : Interrupt H} {w w' : W}
  {J : List (PendingInterrupt H) → ℤ → W → Prop}

/-- `J` of the queue of `m`. -/
def Satisfies (J : List (PendingInterrupt H) → ℤ → W → Prop) (m : Interrupt H) (w : W) : Prop :=
  J (m.pending.map Prod.snd) m.totalTicks w

theorem run_handle_perm {calls : List (HandlerCall H)} (h : run handle m calls = some m') :
    (m'.pending.map Prod.snd).Perm
      (calls.filterMap (HandlerCall.pending? m.totalTicks) ++ m.pending.map Prod.snd) ∧
      m'.totalTicks = m.totalTicks := by
  induction calls generalizing m with
  | nil =>
      cases h
      exact ⟨.refl _, rfl⟩
  | cons call calls ih =>
      obtain ⟨m₁, hcall, hrun⟩ := Option.bind_eq_some_iff.mp (run_cons m call calls ▸ h)
      obtain ⟨hperm, htime⟩ := ih hrun
      have htime₁ : m₁.totalTicks = m.totalTicks :=
        congrArg Statistics.totalTicks (handled_handle hcall).stats
      rw [htime₁] at hperm htime
      refine ⟨hperm.trans ?_, htime⟩
      cases call with
      | schedule handler fromNow type =>
          obtain ⟨-, rfl⟩ := schedule_eq_some.mp hcall
          have hinsert := (List.perm_orderedInsert Before (m.totalTicks + fromNow,
            (⟨handler, m.totalTicks + fromNow, type⟩ : PendingInterrupt H)) m.pending).map Prod.snd
          exact (hinsert.append_left _).trans List.perm_middle
      | yieldOnReturn =>
          obtain ⟨-, heq⟩ := Option.ite_none_right_eq_some.mp hcall
          cases heq
          exact .refl _

theorem satisfies_occur (hJ : Kept handlers J) {e : ℤ × PendingInterrupt H}
    {rest : List (ℤ × PendingInterrupt H)} {b : Bool} (hcurrent : e.1 = e.2.when)
    (hdue : e.1 ≤ m.totalTicks) (hrest : m.pending = rest)
    (hm : J (e.2 :: rest.map Prod.snd) m.totalTicks w)
    (h : m.occur handlers w e.1 e.2 = some (b, m', w')) : Satisfies J m' w' := by
  unfold Interrupt.occur at h
  split at h
  · cases h
    have hperm := (List.perm_orderedInsert Before e m.pending).map Prod.snd
    rw [hrest] at hperm
    apply hJ.perm _ hm
    rw [← hrest] at hperm ⊢
    exact hperm.symm
  · obtain ⟨⟨m₁, w₁⟩, hfire, heq⟩ := Option.map_eq_some_iff.mp h
    cases heq
    obtain ⟨m₂, hrun, heq⟩ := Option.map_eq_some_iff.mp hfire
    cases heq
    obtain ⟨hperm, htime⟩ := run_handle_perm hrun
    have hhandler := hJ.handler (hcurrent ▸ hdue) hm
    rw [← hrest] at hhandler
    change J (m₂.pending.map Prod.snd) m₂.totalTicks _
    rw [htime]
    exact hJ.perm hperm.symm hhandler

theorem satisfies_checkIfDue (hJ : Kept handlers J) {advanceClock b : Bool} (hi : TimeInv m)
    (hm : Satisfies J m w)
    (h : m.checkIfDue handlers advanceClock w = some (b, m', w')) : Satisfies J m' w' := by
  have hall := h
  unfold Interrupt.checkIfDue at h
  obtain ⟨-, h⟩ := Option.ite_none_right_eq_some.mp h
  cases hp : m.pending with
  | nil =>
      simp only [hp, Option.some.injEq, Prod.mk.injEq] at h
      obtain ⟨rfl, rfl, rfl⟩ := h
      exact hm
  | cons e rest =>
      have hcurrent := hi.current e (hp ▸ List.mem_cons_self)
      have hclock : (advance { m with pending := rest } e.1).totalTicks =
          max m.totalTicks e.1 := totalTicks_advance _ e.1
      unfold Satisfies at hm
      rw [hp] at hm
      simp only [hp] at h
      split at h
      · cases h
        exact hJ.perm ((List.perm_orderedInsert Before e rest).map Prod.snd).symm hm
      · exact satisfies_occur hJ hcurrent (by omega) (by rw [advance_eq])
          (hJ.clock (by omega) hm) h

theorem satisfies_checkWhileDue (hJ : Kept handlers J) {turns : ℕ} (hi : TimeInv m)
    (hm : Satisfies J m w) (h : m.checkWhileDue handlers turns w = some (m', w')) :
    Satisfies J m' w' := by
  induction turns generalizing m w with
  | zero => cases h
  | succ turns ih =>
      obtain ⟨⟨b, m₁, w₁⟩, hcheck, h⟩ := Option.bind_eq_some_iff.mp h
      have hm₁ := satisfies_checkIfDue hJ hi hm hcheck
      rcases checkIfDue_cases hcheck with ⟨rfl, -, -⟩ | ⟨rfl, e, hfire⟩
      · cases h
        exact hm₁
      · exact ih (hfire.inv hi) hm₁ h

theorem satisfies_oneTick (hJ : Kept handlers J) {b : Bool} (hi : TimeInv m)
    (hm : Satisfies J m w) (h : m.oneTick handlers w = some (b, m', w')) :
    Satisfies J m' w' := by
  obtain ⟨⟨m₁, w₁⟩, hloop, h⟩ := Option.bind_eq_some_iff.mp h
  have hticked : Satisfies J m.ticked w := by
    have htotal := totalTicks_ticked m
    have hpos : 0 ≤ tickLength m.status := by cases m.status <;> decide
    exact hJ.clock (by omega) hm
  have hm₁ := satisfies_checkWhileDue hJ (m := m.ticked) hi.ticked hticked hloop
  simp only at h
  split at h <;>
    · cases h
      exact hm₁

theorem satisfies_idle (hJ : Kept handlers J) {b : Bool} (hi : TimeInv m)
    (hm : Satisfies J m w) (h : m.idle handlers w = some (b, m', w')) :
    Satisfies J m' w' := by
  obtain ⟨m₀, hm₀⟩ : ∃ m₀ : Interrupt H, m₀ = { m with status := .IdleMode } := ⟨_, rfl⟩
  have hi₀ : TimeInv m₀ := by
    rw [hm₀]
    exact hi.clock m.level _ (le_refl _) hi.ticks
  have hsat₀ : Satisfies J m₀ w := by
    rw [hm₀]
    exact hm
  unfold idle at h
  rw [← hm₀] at h
  obtain ⟨⟨due, m₁, w₁⟩, hcheck, h⟩ := Option.bind_eq_some_iff.mp h
  have hm₁ := satisfies_checkIfDue hJ hi₀ hsat₀ hcheck
  cases due with
  | false =>
      cases h
      exact hm₁
  | true =>
      obtain ⟨⟨m₂, w₂⟩, hloop, heq⟩ := Option.bind_eq_some_iff.mp h
      cases heq
      have hi₁ : TimeInv m₁ := by
        cases hp : m₀.pending with
        | nil => simp [Interrupt.checkIfDue, hp] at hcheck
        | cons e rest =>
            rw [checkIfDue_advance hp] at hcheck
            rcases checkIfDue_cases hcheck with ⟨hfalse, -⟩ | ⟨-, e', hfire⟩
            · cases hfalse
            · exact hfire.inv (hi₀.advance e.1)
      have hm₂ := satisfies_checkWhileDue hJ hi₁ hm₁ hloop
      exact hm₂

end Interrupt

/-! ## §7  Every run -/

namespace Machine

open Interrupt

variable {H W : Type} {handlers : Handlers H W} {m m' : Machine H W}

structure Inv (m : Machine H W) : Prop where
  time : TimeInv m.interrupt
  inHandler : m.interrupt.inHandler = false
  status : m.halted = false → m.interrupt.status ≠ .IdleMode

theorem Inv.tick (h : Inv m) (hgo : m.halted = false) {i : Interrupt H}
    {r : Bool × Interrupt H × W} (hi : TimeInv i) (hin : i.inHandler = m.interrupt.inHandler)
    (hstatus : i.status = m.interrupt.status)
    (hstep : i.oneTick handlers m.world = some r) : Inv ⟨r.2.1, r.2.2, false⟩ := by
  have ht := oneTick_ticks hi (hin.trans h.inHandler) (by rw [hstatus]; exact h.status hgo) hstep
  exact ⟨ht.inv, ht.inHandler, fun _ => ht.status⟩

/-- **The step lemma.** -/
theorem Inv.step {a : Act H W} (h : Inv m) (hstep : m.step handlers a = some m') : Inv m' := by
  unfold Machine.step at hstep
  split at hstep
  · cases hstep
  rename_i hgo
  rw [Bool.not_eq_true] at hgo
  cases a with
  | setLevel now =>
      obtain ⟨r, hr, rfl⟩ := Option.map_eq_some_iff.mp hstep
      obtain ⟨-, hr⟩ := Option.ite_none_right_eq_some.mp hr
      have hlevel : TimeInv { m.interrupt with level := now } :=
        h.time.clock _ m.interrupt.status (le_refl _) h.time.ticks
      dsimp only at hr
      split at hr
      · exact h.tick hgo hlevel rfl rfl hr
      · cases hr
        exact ⟨hlevel, h.inHandler, fun _ => h.status hgo⟩
  | oneTick =>
      obtain ⟨r, hr, rfl⟩ := Option.map_eq_some_iff.mp hstep
      exact h.tick hgo h.time rfl rfl hr
  | schedule handler fromNow type =>
      obtain ⟨i, hi, rfl⟩ := Option.map_eq_some_iff.mp hstep
      refine ⟨h.time.schedule hi, ?_, fun _ => ?_⟩ <;>
        obtain ⟨-, rfl⟩ := schedule_eq_some.mp hi
      · exact h.inHandler
      · exact h.status hgo
  | setStatus user =>
      cases hstep
      refine ⟨h.time.clock m.interrupt.level _ (le_refl _) h.time.ticks,
        h.inHandler, fun _ => ?_⟩
      cases user <;> simp
  | idle =>
      obtain ⟨⟨halts, i, w⟩, hr, rfl⟩ := Option.map_eq_some_iff.mp hstep
      have hidles := idle_idles h.time h.inHandler hr
      refine ⟨hidles.inv, hidles.inHandler, fun hhalts => ?_⟩
      rw [hidles.status hhalts]
      simp
  | device w =>
      cases hstep
      exact ⟨h.time, h.inHandler, fun _ => h.status hgo⟩

theorem inv_init (w : W) : Inv (init w : Machine H W) :=
  ⟨timeInv_new, rfl, fun _ => by simp [init, new]⟩

theorem inv_run {w : W} {as : List (Act H W)}
    (hrun : run (step handlers) (init w) as = some m) : Inv m :=
  run_invariant (inv_init w) (fun _ _ _ => Inv.step) as m hrun

/-- What has fired when nothing is due: those whose time has come. -/
theorem fired_perm {i : Interrupt H} (hi : TimeInv i) (hdue : i.due = []) :
    (i.fired.map Prod.fst).Perm (i.scheduled.filter (·.when ≤ i.totalTicks)) := by
  have hfired : (i.fired.map Prod.fst).filter (·.when ≤ i.totalTicks) =
      i.fired.map Prod.fst := by
    apply List.filter_eq_self.mpr
    intro p hp
    obtain ⟨f, hf, rfl⟩ := List.mem_map.mp hp
    obtain ⟨hle, hle'⟩ := hi.onTime f hf
    exact decide_eq_true (hle.trans hle')
  have hpending : (i.pending.map Prod.snd).filter (·.when ≤ i.totalTicks) = [] := by
    apply List.filter_eq_nil_iff.mpr
    intro p hp
    obtain ⟨e, he, rfl⟩ := List.mem_map.mp hp
    have hnot := List.filter_eq_nil_iff.mp hdue e he
    rwa [hi.current e he] at hnot
  have hperm := hi.once.filter (·.when ≤ i.totalTicks)
  rwa [List.filter_append, hfired, hpending, List.append_nil] at hperm

/-- An instruction has been executed, or interrupts are enabled again. -/
def IsTick (m : Machine H W) (a : Act H W) : Prop :=
  a = .oneTick ∨ a = .setLevel .IntOn ∧ m.interrupt.level = .IntOff

theorem Inv.ticks {a : Act H W} (h : Inv m) (handlers : Handlers H W) (hgo : m.halted = false)
    (ha : m.IsTick a) :
    ∃ i : Interrupt H, TimeInv i ∧ i.inHandler = false ∧ i.status ≠ .IdleMode ∧
      m.step handlers a = (i.oneTick handlers m.world).map fun r => ⟨r.2.1, r.2.2, false⟩ := by
  rcases ha with rfl | ⟨rfl, hlevel⟩
  · exact ⟨m.interrupt, h.time, h.inHandler, h.status hgo, by simp [Machine.step, hgo]⟩
  · refine ⟨{ m.interrupt with level := .IntOn },
      h.time.clock _ m.interrupt.status (le_refl _) h.time.ticks, h.inHandler,
      h.status hgo, ?_⟩
    simp [Machine.step, hgo, setLevel, h.inHandler, hlevel]

/-- When a tick is over, nothing is due. -/
theorem Inv.due_tick {a : Act H W} (h : Inv m) (ha : m.IsTick a)
    (hstep : m.step handlers a = some m') : m'.interrupt.due = [] := by
  have hgo : m.halted = false := by
    by_contra hhalted
    rw [Bool.not_eq_false] at hhalted
    simp [Machine.step, hhalted] at hstep
  obtain ⟨i, hi, hin, hstatus, heq⟩ := h.ticks handlers hgo ha
  rw [heq] at hstep
  obtain ⟨r, hr, rfl⟩ := Option.map_eq_some_iff.mp hstep
  exact (oneTick_ticks hi hin hstatus hr).due

/-- A tick comes to its end, and then those have fired whose time has come. -/
theorem Inv.tick_on_time {a : Act H W} (h : Inv m) (hprompt : Prompt handlers)
    (hgo : m.halted = false) (ha : m.IsTick a) : ∃ m', m.step handlers a = some m' ∧
      (m'.interrupt.fired.map Prod.fst).Perm
        (m'.interrupt.scheduled.filter (·.when ≤ m'.interrupt.totalTicks)) := by
  obtain ⟨i, hi, hin, hstatus, hstep⟩ := h.ticks handlers hgo ha
  obtain ⟨r, hr⟩ := oneTick_isSome hprompt i m.world
  have ht := oneTick_ticks hi hin hstatus hr
  refine ⟨⟨r.2.1, r.2.2, false⟩, ?_, fired_perm ht.inv ht.due⟩
  rw [hstep, hr]
  rfl

theorem Inv.idles (h : Inv m) (hidle : m.step handlers .idle = some m') :
    Idles m.interrupt m'.interrupt m'.halted := by
  unfold Machine.step at hidle
  split at hidle
  · cases hidle
  obtain ⟨⟨halts, i, w'⟩, hr, rfl⟩ := Option.map_eq_some_iff.mp hidle
  exact idle_idles h.time h.inHandler hr

/-- The steps that the processor takes. -/
def Act.hardware : Act H W → Bool
  | .setLevel _ | .oneTick | .setStatus _ | .idle => true
  | _ => false

/-- **A step of the processor keeps what every interrupt keeps.** -/
theorem satisfies_step {J : List (PendingInterrupt H) → ℤ → W → Prop} (hJ : Kept handlers J)
    {a : Act H W} (h : Inv m) (ha : Act.hardware a = true)
    (hm : Satisfies J m.interrupt m.world) (hstep : m.step handlers a = some m') :
    Satisfies J m'.interrupt m'.world := by
  unfold Machine.step at hstep
  split at hstep
  · cases hstep
  cases a with
  | setLevel now =>
      obtain ⟨r, hr, rfl⟩ := Option.map_eq_some_iff.mp hstep
      obtain ⟨-, hr⟩ := Option.ite_none_right_eq_some.mp hr
      have hlevel : TimeInv { m.interrupt with level := now } :=
        h.time.clock _ m.interrupt.status (le_refl _) h.time.ticks
      dsimp only at hr
      split at hr
      · exact satisfies_oneTick hJ hlevel hm hr
      · cases hr
        exact hm
  | oneTick =>
      obtain ⟨r, hr, rfl⟩ := Option.map_eq_some_iff.mp hstep
      exact satisfies_oneTick hJ h.time hm hr
  | setStatus user =>
      cases hstep
      exact hm
  | idle =>
      obtain ⟨⟨halts, i, w⟩, hr, rfl⟩ := Option.map_eq_some_iff.mp hstep
      exact satisfies_idle hJ h.time hm hr
  | schedule | device => cases ha

/-- **Interrupts are on time.** In every run, whatever the devices schedule and the
handlers do: every interrupt that was scheduled is pending or has fired, once, not before
its time, and in the order of their times, and the ticks add up. A tick comes to its end,
no `ASSERT` fails in it, and when it is over those interrupts have fired whose time has
come, and no others. -/
theorem fired_on_time (handlers : Handlers H W) (hprompt : Prompt handlers) (w : W)
    (as : List (Act H W)) (m : Machine H W)
    (hrun : run (step handlers) (init w) as = some m) (hgo : m.halted = false) :
    TimeInv m.interrupt ∧ ∀ a, m.IsTick a → ∃ m', m.step handlers a = some m' ∧
      (m'.interrupt.fired.map Prod.fst).Perm
        (m'.interrupt.scheduled.filter (·.when ≤ m'.interrupt.totalTicks)) := by
  have h := inv_run hrun
  exact ⟨h.time, fun a ha => h.tick_on_time hprompt hgo ha⟩

/-- A timer that starts itself again. -/
def ticker : Handlers Unit Unit := fun _ _ _ w =>
  ([.schedule () 100 .TimerInt, .yieldOnReturn], w)

theorem prompt_ticker : Prompt ticker := by
  intro h status now w handler fromNow type hc
  simp [ticker] at hc
  omega

/-- It has fired once, in the second of ten ticks. -/
theorem fired_on_time_ticker : ∃ m,
    run (step ticker) (init ()) (.schedule () 15 .TimerInt :: .setLevel .IntOn ::
      List.replicate 9 .oneTick) = some m ∧
    m.interrupt.fired = [(⟨(), 15, .TimerInt⟩, 20)] ∧ m.interrupt.totalTicks = 100 ∧
    TimeInv m.interrupt ∧ ∀ a, m.IsTick a → ∃ m', m.step ticker a = some m' ∧
      (m'.interrupt.fired.map Prod.fst).Perm
        (m'.interrupt.scheduled.filter (·.when ≤ m'.interrupt.totalTicks)) := by
  refine ⟨_, rfl, by decide, by decide, ?_⟩
  exact fired_on_time ticker prompt_ticker () (.schedule () 15 .TimerInt :: .setLevel .IntOn ::
    List.replicate 9 .oneTick) _ rfl rfl

/-- **When the machine gives up.** In every run: `Idle` comes to `Halt` iff nothing is
pending, or only the timer. Otherwise the clock then stands at the time of the first
interrupt, or where it was if that has passed, and nothing that is due has been left
pending but the timer, if it is the last. -/
theorem idle_halts_iff (handlers : Handlers H W) (w : W) (as : List (Act H W))
    (m m' : Machine H W) (hrun : run (step handlers) (init w) as = some m)
    (hidle : m.step handlers .idle = some m') :
    (m'.halted = true ↔ m.interrupt.pending = [] ∨ m.interrupt.OnlyTimer) ∧
      (m'.halted = false → (∃ e ∈ m.interrupt.pending.head?,
          m'.interrupt.totalTicks = max m.interrupt.totalTicks e.1) ∧
        (m'.interrupt.due = [] ∨ m'.interrupt.OnlyTimer)) := by
  have h := (inv_run hrun).idles hidle
  exact ⟨h.halts_iff, fun hhalts => ⟨h.clock hhalts, h.due hhalts⟩⟩

/-- A timer and a disk: the clock goes to the disk's time, and then only the timer is left. -/
theorem idle_halts_iff_ticker : ∃ m m',
    run (step ticker) (init ()) [.schedule () 15 .TimerInt, .schedule () 40 .DiskInt] = some m ∧
    m.step ticker .idle = some m' ∧ m'.interrupt.totalTicks = 15 ∧
    (m'.halted = true ↔ m.interrupt.pending = [] ∨ m.interrupt.OnlyTimer) ∧
      (m'.halted = false → (∃ e ∈ m.interrupt.pending.head?,
          m'.interrupt.totalTicks = max m.interrupt.totalTicks e.1) ∧
        (m'.interrupt.due = [] ∨ m'.interrupt.OnlyTimer)) := by
  refine ⟨_, _, rfl, rfl, by decide, ?_⟩
  exact idle_halts_iff ticker () [.schedule () 15 .TimerInt, .schedule () 40 .DiskInt] _ _ rfl rfl

end Machine

end OsAssignments.Interrupts
