import OsAssignments.Lib.MemoryLog
import OsAssignments.MemoryManagement.Frames
import OsAssignments.MemoryManagement.Processes

/-!
# The kernel

Threads and address spaces together: `StartProcess`, `SC_Exit`, the dispatcher
with its `RestoreState`, the running program's loads and stores, and
`ExceptionHandler`. The machine translates with whatever page table was
installed last, while the handler works on `currentThread->space`.

- `Kernel.step` — one action of the running program, of the timer or of the
  dispatcher.
- `Effect` — everything a step can do to threads and memory; `step_effect`
  reads it off the code once, and later proofs never unfold `Kernel.step`.
- `Inv` — the running process's own page table is the one installed, the frames
  have one owner each, and a process that has not started has no address space.
- `run_sys`, `run_vm` — a run of the kernel is one of the threads and one of the
  memory.
-/

namespace OsAssignments.MemoryManagement

/-! ## §1  The data -/

structure Kernel where
  sys : Sys
  /-- `space` of every thread, by the thread's identity. -/
  vm : Vm
  /-- The process whose page table `machine->pageTable` points to. -/
  pageTable : Option ℕ

namespace Kernel

def init (algorithm : Algorithm) (main : SpaceId) : Kernel :=
  ⟨Sys.init algorithm main, Vm.init, none⟩

inductive Act where
  | tick
  | yield
  | dispatch
  /-- `StartProcess`, with the file that it opens. -/
  | start (executable : RandomAccessFile)
  | exec (tmp : SpaceId) (prio : BitVec 32)
  | exit (code : BitVec 32)
  | join (id : SpaceId) (stale : BitVec 32)
  | resume
  | load (addr : BitVec 32) (size : Width)
  | store (addr : BitVec 32) (size : Width) (value : BitVec 32)
  /-- An instruction that raises an exception without accessing memory. -/
  | exception (which : ExceptionType) (badVaddr : BitVec 32)

/-! ## §2  The code -/

/-- An action of the threads alone. -/
def sysStep (k : Kernel) (a : Sys.Act) : Option Kernel :=
  (k.sys.step a).map fun sys => { k with sys := sys }

/-- The end of `Scheduler::Run`, in the thread that comes back from `SWITCH`:
`RestoreState` if it has an address space. -/
def restore (k : Kernel) : Kernel :=
  match k.sys.heap k.sys.currentThread with
  | none => k
  | some t =>
      if t.cont = .fresh ∨ t.cont = .starting then k
      else { k with pageTable := some t.tid }

/-- `badVaddr / PageSize`, in `int`; a negative number is no page. -/
def pageNumber (badVaddr : BitVec 32) : Option ℕ :=
  let page := badVaddr.toInt.tdiv PageSize
  if 0 ≤ page then some page.toNat else none

/-- `ExceptionHandler`, but for the system calls, which are actions of their
own. It is `none` at the `ASSERT`s and for a fault outside the pages of the
process. -/
def exceptionHandler (k : Kernel) (which : ExceptionType) (badVaddr : BitVec 32) :
    Option Kernel :=
  match which with
  | .PageFaultException => do
      let t ← k.sys.heap k.sys.currentThread
      let page ← pageNumber badVaddr
      let (loaded, vm) ← k.vm.fault t.tid page
      let k := { k with vm := vm }
      if loaded then some k else k.sysStep .kill
  | .ReadOnlyException => k.sysStep .kill
  | .BusErrorException => k.sysStep .kill
  | .AddressErrorException => k.sysStep .kill
  | .IllegalInstrException => k.sysStep .kill
  | .OverflowException => some k
  | .NoException => none
  | .SyscallException => none

/-- `StartProcess`: the new address space, and its page table installed. -/
def startProcess (k : Kernel) (executable : RandomAccessFile) : Option Kernel := do
  let t ← k.sys.heap k.sys.currentThread
  let k ← k.sysStep .start
  let vm ← k.vm.construct t.tid executable
  some { k with vm := vm, pageTable := some t.tid }

/-- `SC_Exit`: `delete space`, then the rest. -/
def exit (k : Kernel) (code : BitVec 32) : Option Kernel := do
  let t ← k.sys.heap k.sys.currentThread
  let vm ← k.vm.destroy t.tid
  { k with vm := vm }.sysStep (.exit code)

/-- `ReadMem` by the running program; a failed translation raises its
exception. -/
def load (k : Kernel) (addr : BitVec 32) (size : Width) : Option Kernel := do
  let p ← k.pageTable
  match ← k.vm.readMem p addr size with
  | .ok (_, vm) => some { k with vm := vm }
  | .error which => k.exceptionHandler which addr

def store (k : Kernel) (addr : BitVec 32) (size : Width) (value : BitVec 32) :
    Option Kernel := do
  let p ← k.pageTable
  match ← k.vm.writeMem p addr size value with
  | .ok vm => some { k with vm := vm }
  | .error which => k.exceptionHandler which addr

def step (k : Kernel) : Act → Option Kernel
  | .tick => k.sysStep .tick
  | .yield => (k.sysStep .yield).map restore
  | .dispatch => (k.sysStep .dispatch).map restore
  | .start executable => k.startProcess executable
  | .exec tmp prio => k.sysStep (.exec tmp prio)
  | .exit code => k.exit code
  | .join id stale => k.sysStep (.join id stale)
  | .resume => k.sysStep .resume
  | .load addr size => if k.sys.At .user then k.load addr size else none
  | .store addr size value =>
      if k.sys.At .user then k.store addr size value else none
  | .exception which badVaddr =>
      if k.sys.At .user then k.exceptionHandler which badVaddr else none

/-! ## §3  Events -/

/-- The bytes of a register that an access moves. -/
def accessBytes (size : Width) (value : BitVec 32) : List Byte :=
  (wordBytes value).take size.size

abbrev Event := MemoryLog.Access ℕ Byte

/-- The completed accesses of the running program. -/
def event (k : Kernel) (a : Act) : List Event :=
  match k.sys.heap k.sys.currentThread, k.pageTable with
  | some t, some p =>
      match a with
      | .load addr size =>
          match k.vm.readMem p addr size with
          | some (.ok (value, _)) =>
              [.load t.tid addr.toNat (accessBytes size value)]
          | _ => []
      | .store addr size value =>
          match k.vm.writeMem p addr size value with
          | some (.ok _) => [.store t.tid addr.toNat (accessBytes size value)]
          | _ => []
      | _ => []
  | _, _ => []

/-- The exception that the action raises. -/
def raises (k : Kernel) : Act → Option ExceptionType
  | .load addr size =>
      match k.pageTable.bind fun p => k.vm.readMem p addr size with
      | some (.error which) => some which
      | _ => none
  | .store addr size value =>
      match k.pageTable.bind fun p => k.vm.writeMem p addr size value with
      | some (.error which) => some which
      | _ => none
  | .exception which _ => some which
  | _ => none

/-- The exceptions whose case in `ExceptionHandler` goes straight to `Finish`. -/
def fatal : ExceptionType → Bool
  | .ReadOnlyException => true
  | .BusErrorException => true
  | .AddressErrorException => true
  | .IllegalInstrException => true
  | _ => false

/-! ## §4  What a step can do -/

/-- The effect of one action on threads and memory. -/
inductive Effect (k : Kernel) (a : Act) : Kernel → Prop where
  /-- The threads move on; nobody starts or ends. -/
  | schedule (b : Sys.Act) (sys : Sys) (pageTable : Option ℕ)
      (hb : b.ends = false) (hstep : k.sys.step b = some sys)
      (hevent : k.event a = []) : Effect k a ⟨sys, k.vm, pageTable⟩
  | start (t : Thread) (executable : RandomAccessFile) (sys : Sys) (vm : Vm)
      (ht : k.sys.heap k.sys.currentThread = some t)
      (hstep : k.sys.step .start = some sys)
      (hvm : k.vm.construct t.tid executable = some vm)
      (hevent : k.event a = []) : Effect k a ⟨sys, vm, some t.tid⟩
  | exit (t : Thread) (code : BitVec 32) (sys : Sys) (vm : Vm)
      (ht : k.sys.heap k.sys.currentThread = some t)
      (hvm : k.vm.destroy t.tid = some vm)
      (hstep : k.sys.step (.exit code) = some sys)
      (hevent : k.event a = []) : Effect k a ⟨sys, vm, k.pageTable⟩
  | load (t : Thread) (p : ℕ) (addr : BitVec 32) (size : Width)
      (value : BitVec 32) (vm : Vm) (hat : k.sys.At .user)
      (ht : k.sys.heap k.sys.currentThread = some t) (hp : k.pageTable = some p)
      (hvm : k.vm.readMem p addr size = some (.ok (value, vm)))
      (hevent : k.event a = [.load t.tid addr.toNat (accessBytes size value)]) :
      Effect k a ⟨k.sys, vm, k.pageTable⟩
  | store (t : Thread) (p : ℕ) (addr : BitVec 32) (size : Width)
      (value : BitVec 32) (vm : Vm) (hat : k.sys.At .user)
      (ht : k.sys.heap k.sys.currentThread = some t) (hp : k.pageTable = some p)
      (hvm : k.vm.writeMem p addr size value = some (.ok vm))
      (hevent : k.event a = [.store t.tid addr.toNat (accessBytes size value)]) :
      Effect k a ⟨k.sys, vm, k.pageTable⟩
  /-- The page fault is served. -/
  | fault (t : Thread) (page : ℕ) (vm : Vm) (hat : k.sys.At .user)
      (ht : k.sys.heap k.sys.currentThread = some t)
      (hvm : k.vm.fault t.tid page = some (true, vm))
      (hevent : k.event a = []) (hpage : ∃ badVaddr, pageNumber badVaddr = some page) :
      Effect k a ⟨k.sys, vm, k.pageTable⟩
  /-- There is no frame for the page, and the process is finished. -/
  | noFrame (t : Thread) (page : ℕ) (vm : Vm) (sys : Sys)
      (ht : k.sys.heap k.sys.currentThread = some t)
      (hvm : k.vm.fault t.tid page = some (false, vm))
      (hstep : k.sys.step .kill = some sys)
      (hevent : k.event a = []) (hpage : ∃ badVaddr, pageNumber badVaddr = some page) :
      Effect k a ⟨sys, vm, k.pageTable⟩
  /-- A fatal exception finishes the process. -/
  | killed (which : ExceptionType) (sys : Sys) (hraise : k.raises a = some which)
      (hfatal : fatal which = true) (hstep : k.sys.step .kill = some sys)
      (hevent : k.event a = []) : Effect k a ⟨sys, k.vm, k.pageTable⟩
  | overflow (hevent : k.event a = []) : Effect k a k

theorem sysStep_eq_some {k k' : Kernel} {b : Sys.Act} :
    k.sysStep b = some k' ↔
      ∃ sys, k.sys.step b = some sys ∧ k' = ⟨sys, k.vm, k.pageTable⟩ := by
  simp only [sysStep, Option.map_eq_some_iff, eq_comm (a := k')]

theorem restore_eq (k : Kernel) : ∃ pt, k.restore = ⟨k.sys, k.vm, pt⟩ := by
  unfold restore
  split
  · exact ⟨k.pageTable, rfl⟩
  · split
    · exact ⟨k.pageTable, rfl⟩
    · exact ⟨_, rfl⟩

/-- The handler's cases. -/
theorem exceptionHandler_effect {k k' : Kernel} {a : Act} {which : ExceptionType}
    {badVaddr : BitVec 32} (hat : k.sys.At .user) (hraise : k.raises a = some which)
    (hevent : k.event a = [])
    (h : k.exceptionHandler which badVaddr = some k') : Effect k a k' := by
  have hkill : fatal which = true → k.sysStep .kill = some k' → Effect k a k' := by
    intro hfatal hkill
    obtain ⟨sys, hstep, rfl⟩ := sysStep_eq_some.mp hkill
    exact .killed which sys hraise hfatal hstep hevent
  cases which with
  | PageFaultException =>
      simp only [exceptionHandler, Option.bind_eq_bind, Option.bind_eq_some_iff] at h
      obtain ⟨t, ht, page, hpage, ⟨loaded, vm⟩, hvm, h⟩ := h
      cases loaded with
      | true =>
          cases h
          exact .fault t page vm hat ht hvm hevent ⟨badVaddr, hpage⟩
      | false =>
          obtain ⟨sys, hstep, rfl⟩ := sysStep_eq_some.mp h
          exact .noFrame t page vm sys ht hvm hstep hevent ⟨badVaddr, hpage⟩
  | ReadOnlyException => exact hkill rfl h
  | BusErrorException => exact hkill rfl h
  | AddressErrorException => exact hkill rfl h
  | IllegalInstrException => exact hkill rfl h
  | OverflowException =>
      cases h
      exact .overflow hevent
  | NoException => cases h
  | SyscallException => cases h

/-- **Every step has one of these effects.** -/
theorem step_effect {k k' : Kernel} {a : Act} (h : k.step a = some k') :
    Effect k a k' := by
  have hquiet : ∀ {b : Sys.Act}, b.ends = false → k.event a = [] →
      k.sysStep b = some k' → Effect k a k' := by
    intro b hb hevent hk'
    obtain ⟨sys, hstep, rfl⟩ := sysStep_eq_some.mp hk'
    exact .schedule b sys _ hb hstep hevent
  have hswitch : ∀ {b : Sys.Act}, b.ends = false → k.event a = [] →
      (k.sysStep b).map restore = some k' → Effect k a k' := by
    intro b hb hevent hk'
    obtain ⟨k₁, hk₁, rfl⟩ := Option.map_eq_some_iff.mp hk'
    obtain ⟨sys, hstep, rfl⟩ := sysStep_eq_some.mp hk₁
    obtain ⟨pt, hpt⟩ := restore_eq ⟨sys, k.vm, k.pageTable⟩
    rw [hpt]
    exact .schedule b sys pt hb hstep hevent
  -- only loads and stores leave an event
  have hnone : (∀ addr size, a ≠ .load addr size) →
      (∀ addr size value, a ≠ .store addr size value) → k.event a = [] := by
    intro hl hs
    unfold event
    split
    · cases a with
      | load addr size => exact absurd rfl (hl addr size)
      | store addr size value => exact absurd rfl (hs addr size value)
      | _ => rfl
    · rfl
  cases a with
  | tick => exact hquiet rfl (hnone (by simp) (by simp)) h
  | yield => exact hswitch rfl (hnone (by simp) (by simp)) h
  | dispatch => exact hswitch rfl (hnone (by simp) (by simp)) h
  | start executable =>
      simp only [step, startProcess, Option.bind_eq_bind, Option.bind_eq_some_iff] at h
      obtain ⟨t, ht, k₁, hk₁, vm, hvm, heq⟩ := h
      obtain ⟨sys, hstep, rfl⟩ := sysStep_eq_some.mp hk₁
      cases heq
      exact .start t executable sys vm ht hstep hvm (hnone (by simp) (by simp))
  | exec tmp prio => exact hquiet rfl (hnone (by simp) (by simp)) h
  | exit code =>
      simp only [step, exit, Option.bind_eq_bind, Option.bind_eq_some_iff] at h
      obtain ⟨t, ht, vm, hvm, h⟩ := h
      obtain ⟨sys, hstep, rfl⟩ := sysStep_eq_some.mp h
      exact .exit t code sys vm ht hvm hstep (hnone (by simp) (by simp))
  | join id stale => exact hquiet rfl (hnone (by simp) (by simp)) h
  | resume => exact hquiet rfl (hnone (by simp) (by simp)) h
  | load addr size =>
      simp only [step, Option.ite_none_right_eq_some] at h
      obtain ⟨hat, h⟩ := h
      have ⟨t, ht, _⟩ := hat
      simp only [load, Option.bind_eq_bind, Option.bind_eq_some_iff] at h
      obtain ⟨p, hp, r, hr, h⟩ := h
      cases r with
      | ok r =>
          cases h
          exact .load t p addr size r.1 r.2 hat ht hp hr (by simp [event, ht, hp, hr])
      | error which =>
          exact exceptionHandler_effect hat (by simp [raises, hp, hr])
            (by simp [event, ht, hp, hr]) h
  | store addr size value =>
      simp only [step, Option.ite_none_right_eq_some] at h
      obtain ⟨hat, h⟩ := h
      have ⟨t, ht, _⟩ := hat
      simp only [store, Option.bind_eq_bind, Option.bind_eq_some_iff] at h
      obtain ⟨p, hp, r, hr, h⟩ := h
      cases r with
      | ok vm =>
          cases h
          exact .store t p addr size value vm hat ht hp hr (by simp [event, ht, hp, hr])
      | error which =>
          exact exceptionHandler_effect hat (by simp [raises, hp, hr])
            (by simp [event, ht, hp, hr]) h
  | exception which badVaddr =>
      simp only [step, Option.ite_none_right_eq_some] at h
      exact exceptionHandler_effect h.1 rfl (hnone (by simp) (by simp)) h.2

/-! ## §5  The invariant -/

/-- The running program uses its own page table. -/
def Installed (k : Kernel) : Prop :=
  ∀ t, k.sys.heap k.sys.currentThread = some t → Sys.InUser t →
    k.pageTable = some t.tid

structure Inv (k : Kernel) : Prop where
  sys : ∃ log, Sys.Inv k.sys log
  frames : FrameInv k.vm
  installed : k.Installed
  unborn : ∀ p, k.sys.Unborn p → k.vm.spaces p = none

theorem installed_restore (k : Kernel) : k.restore.Installed := by
  intro t ht hu
  obtain ⟨pt, hpt⟩ := restore_eq k
  have ht' : k.sys.heap k.sys.currentThread = some t := by rwa [hpt] at ht
  have hc : ¬ (t.cont = .fresh ∨ t.cont = .starting) := by
    rintro (hc | hc) <;> simp [Sys.InUser, hc] at hu
  simp [restore, ht', hc]

/-- The exception handler does not switch to another process. -/
theorem exceptionHandler_same {k k' : Kernel} {which : ExceptionType}
    {badVaddr : BitVec 32} (h : k.exceptionHandler which badVaddr = some k') :
    k'.pageTable = k.pageTable ∧
      (k'.sys = k.sys ∨ k.sys.step .kill = some k'.sys) := by
  have hkill : ∀ {vm}, (Kernel.sysStep ⟨k.sys, vm, k.pageTable⟩ .kill) = some k' →
      k'.pageTable = k.pageTable ∧
        (k'.sys = k.sys ∨ k.sys.step .kill = some k'.sys) := by
    intro vm hk
    obtain ⟨sys, hstep, rfl⟩ := sysStep_eq_some.mp hk
    exact ⟨rfl, Or.inr hstep⟩
  cases which with
  | PageFaultException =>
      simp only [exceptionHandler, Option.bind_eq_bind, Option.bind_eq_some_iff] at h
      obtain ⟨t, ht, page, -, ⟨loaded, vm⟩, hvm, h⟩ := h
      cases loaded with
      | true =>
          cases h
          exact ⟨rfl, Or.inl rfl⟩
      | false => exact hkill h
  | ReadOnlyException => exact hkill h
  | BusErrorException => exact hkill h
  | AddressErrorException => exact hkill h
  | IllegalInstrException => exact hkill h
  | OverflowException =>
      cases h
      exact ⟨rfl, Or.inl rfl⟩
  | NoException => cases h
  | SyscallException => cases h

/-- **Every switch installs the page table of the process that runs next.** -/
theorem Inv.installed_step {k k' : Kernel} {a : Act} (h : Inv k)
    (hstep : k.step a = some k') : k'.Installed := by
  have hkeep : ∀ {b : Sys.Act} {k₁ : Kernel}, k.sys.step b = some k₁.sys →
      k₁.pageTable = k.pageTable → b ≠ .yield → b ≠ .dispatch → b ≠ .start →
      k₁.Installed := by
    intro b k₁ hb hpt hy hd hs t' ht' hu
    obtain ⟨t, ht, htid, hut⟩ := Sys.step_same_thread hb hy hd hs ht' hu
    rw [hpt, htid, h.installed t ht hut]
  have hhandler : ∀ {which badVaddr}, k.exceptionHandler which badVaddr = some k' →
      k'.Installed := by
    intro which badVaddr hk
    obtain ⟨hpt, heq | hkill⟩ := exceptionHandler_same hk
    · rw [Installed, hpt, heq]
      exact h.installed
    · exact hkeep hkill hpt (by simp) (by simp) (by simp)
  cases a with
  | tick =>
      obtain ⟨sys, hb, rfl⟩ := sysStep_eq_some.mp hstep
      exact hkeep hb rfl (by simp) (by simp) (by simp)
  | yield =>
      obtain ⟨k₁, -, rfl⟩ := Option.map_eq_some_iff.mp hstep
      exact installed_restore k₁
  | dispatch =>
      obtain ⟨k₁, -, rfl⟩ := Option.map_eq_some_iff.mp hstep
      exact installed_restore k₁
  | start executable =>
      simp only [step, startProcess, Option.bind_eq_bind,
        Option.bind_eq_some_iff] at hstep
      obtain ⟨t, ht, k₁, hk₁, vm, -, heq⟩ := hstep
      obtain ⟨sys, hb, rfl⟩ := sysStep_eq_some.mp hk₁
      cases heq
      simp only [Sys.step, ht, Option.bind_eq_bind, Option.bind_some,
        Option.ite_none_right_eq_some, Option.some.injEq] at hb
      obtain ⟨-, rfl⟩ := hb
      intro t' ht' hu
      obtain rfl : { t with cont := .user } = t' := by simpa using ht'
      rfl
  | exec tmp prio =>
      obtain ⟨sys, hb, rfl⟩ := sysStep_eq_some.mp hstep
      exact hkeep hb rfl (by simp) (by simp) (by simp)
  | exit code =>
      simp only [step, exit, Option.bind_eq_bind, Option.bind_eq_some_iff] at hstep
      obtain ⟨t, -, vm, -, hk⟩ := hstep
      obtain ⟨sys, hb, rfl⟩ := sysStep_eq_some.mp hk
      exact hkeep hb rfl (by simp) (by simp) (by simp)
  | join id stale =>
      obtain ⟨sys, hb, rfl⟩ := sysStep_eq_some.mp hstep
      exact hkeep hb rfl (by simp) (by simp) (by simp)
  | resume =>
      obtain ⟨sys, hb, rfl⟩ := sysStep_eq_some.mp hstep
      exact hkeep hb rfl (by simp) (by simp) (by simp)
  | load addr size =>
      simp only [step, load, Option.ite_none_right_eq_some, Option.bind_eq_bind,
        Option.bind_eq_some_iff] at hstep
      obtain ⟨-, p, -, r, -, hk⟩ := hstep
      cases r with
      | ok r =>
          cases hk
          exact h.installed
      | error which => exact hhandler hk
  | store addr size value =>
      simp only [step, store, Option.ite_none_right_eq_some, Option.bind_eq_bind,
        Option.bind_eq_some_iff] at hstep
      obtain ⟨-, p, -, r, -, hk⟩ := hstep
      cases r with
      | ok vm =>
          cases hk
          exact h.installed
      | error which => exact hhandler hk
  | exception which badVaddr =>
      simp only [step, Option.ite_none_right_eq_some] at hstep
      exact hhandler hstep.2

theorem inUser_of_at {s : Sys} (h : s.At .user) {t : Thread}
    (ht : s.heap s.currentThread = some t) : Sys.InUser t := by
  obtain ⟨u, hu, -, hc⟩ := h
  obtain rfl : u = t := Option.some.inj (hu.symm.trans ht)
  exact Or.inl hc

/-- A running process has an address space only of its own, and has started. -/
theorem Inv.born {k : Kernel} (h : Inv k) (hat : k.sys.At .user) {t : Thread}
    (ht : k.sys.heap k.sys.currentThread = some t) : ¬ k.sys.Unborn t.tid := by
  obtain ⟨log, hs⟩ := h.sys
  exact hat.not_unborn hs ht

theorem Inv.own_table {k : Kernel} (h : Inv k) (hat : k.sys.At .user) {t : Thread}
    (ht : k.sys.heap k.sys.currentThread = some t) {p : ℕ}
    (hp : k.pageTable = some p) : p = t.tid :=
  Option.some.inj (hp.symm.trans (h.installed t ht (inUser_of_at hat ht)))

/-- The process that `SC_Exit` or an exception ends was in user code. -/
theorem at_user_of_ends {s s' : Sys} {b : Sys.Act} (hb : b.ends = true)
    (hstep : s.step b = some s') : s.At .user := by
  cases b with
  | exit code =>
      simp only [Sys.step, Option.ite_none_right_eq_some] at hstep
      exact hstep.1
  | kill =>
      simp only [Sys.step, Option.ite_none_right_eq_some] at hstep
      exact hstep.1
  | _ => cases hb

/-- The process that has just started is running its program. -/
theorem at_user_of_start {s s' : Sys} (hstep : s.step .start = some s') {t : Thread}
    (ht : s.heap s.currentThread = some t) :
    s'.At .user ∧ ∃ t', s'.heap s'.currentThread = some t' ∧ t'.tid = t.tid := by
  simp only [Sys.step, ht, Option.bind_eq_bind, Option.bind_some,
    Option.ite_none_right_eq_some, Option.some.injEq] at hstep
  obtain ⟨⟨hst, -⟩, rfl⟩ := hstep
  exact ⟨⟨{ t with cont := .user }, by simp, hst, rfl⟩,
    { t with cont := .user }, by simp, rfl⟩

theorem Inv.step {k k' : Kernel} {a : Act} (h : Inv k) (hstep : k.step a = some k') :
    Inv k' := by
  obtain ⟨log, hsys⟩ := h.sys
  have hinstalled := h.installed_step hstep
  -- an address space of process `p` is replaced or removed
  have hupdate : ∀ {p : ℕ} {x : Option AddrSpace}, ¬ k.sys.Unborn p →
      ∀ q, k.sys.Unborn q → Function.update k.vm.spaces p x q = none := by
    intro p x hp q hq
    have hne : q ≠ p := by
      rintro rfl
      exact hp hq
    rw [Function.update_of_ne hne]
    exact h.unborn q hq
  have hload : ∀ {p page : ℕ} {ok : Bool} {vm : Vm}, ¬ k.sys.Unborn p →
      k.vm.fault p page = some (ok, vm) →
      ∀ q, k.sys.Unborn q → vm.spaces q = none := by
    intro p page ok vm hp hvm
    obtain ⟨sp, -, -, -, rfl, -⟩ := fault_inv hvm
    exact hupdate hp
  cases step_effect hstep with
  | schedule b sys pt hb hs =>
      exact ⟨⟨_, (Sys.inv_step hsys hs).1⟩, h.frames, hinstalled,
        fun p hp => h.unborn p (Sys.step_unborn hs hp)⟩
  | start t executable sys vm ht hs hvm =>
      have hi' := (Sys.inv_step hsys hs).1
      refine ⟨⟨_, hi'⟩, h.frames.construct hvm, hinstalled, fun p hp => ?_⟩
      obtain ⟨hat, t', ht', htid⟩ := at_user_of_start hs ht
      have hne : p ≠ t.tid := by
        rintro rfl
        exact hat.not_unborn hi' ht' (htid ▸ hp)
      obtain ⟨sp, -, -, rfl⟩ := construct_inv hvm
      exact (Function.update_of_ne hne _ _).trans (h.unborn p (Sys.step_unborn hs hp))
  | exit t code sys vm ht hvm hs =>
      refine ⟨⟨_, (Sys.inv_step hsys hs).1⟩, h.frames.destroy hvm, hinstalled,
        fun p hp => ?_⟩
      have hborn := h.born (at_user_of_ends rfl hs) ht
      obtain ⟨sp, b, -, -, rfl⟩ := destroy_inv hvm
      exact hupdate hborn p (Sys.step_unborn hs hp)
  | load t p addr size value vm hat ht hp hvm =>
      refine ⟨h.sys, h.frames.readMem hvm, hinstalled, ?_⟩
      obtain rfl := h.own_table hat ht hp
      obtain ⟨sp, sp', -, -, rfl⟩ := readMem_ok_inv hvm
      exact hupdate (h.born hat ht)
  | store t p addr size value vm hat ht hp hvm =>
      refine ⟨h.sys, h.frames.writeMem hvm, hinstalled, ?_⟩
      obtain rfl := h.own_table hat ht hp
      obtain ⟨sp, sp', mem, -, -, rfl⟩ := writeMem_ok_inv hvm
      exact hupdate (h.born hat ht)
  | fault t page vm hat ht hvm =>
      exact ⟨h.sys, h.frames.fault hvm, hinstalled, hload (h.born hat ht) hvm⟩
  | noFrame t page vm sys ht hvm hs =>
      refine ⟨⟨_, (Sys.inv_step hsys hs).1⟩, h.frames.fault hvm, hinstalled,
        fun p hp => ?_⟩
      exact hload (h.born (at_user_of_ends rfl hs) ht) hvm p (Sys.step_unborn hs hp)
  | killed which sys hraise hfatal hs =>
      exact ⟨⟨_, (Sys.inv_step hsys hs).1⟩, h.frames, hinstalled,
        fun p hp => h.unborn p (Sys.step_unborn hs hp)⟩
  | overflow => exact h

theorem inv_init (algorithm : Algorithm) {main : SpaceId} (hmain : main ≠ NULL) :
    Inv (init algorithm main) := by
  refine ⟨⟨[], Sys.inv_init algorithm hmain⟩, frameInv_init, ?_, fun _ _ => rfl⟩
  intro t ht hu
  rw [(Sys.heap_init ht).2] at hu
  simp [Sys.InUser] at hu

/-! ## §6  Its two halves -/

/-- What the threads do in one step of the kernel is nothing or one step of
theirs. -/
theorem step_sys {k k' : Kernel} {a : Act} (hstep : k.step a = some k') :
    k'.sys = k.sys ∨ ∃ b, k.sys.step b = some k'.sys := by
  cases step_effect hstep with
  | schedule b sys pt hb hs => exact Or.inr ⟨b, hs⟩
  | start t executable sys vm ht hs hvm => exact Or.inr ⟨.start, hs⟩
  | exit t code sys vm ht hvm hs => exact Or.inr ⟨.exit code, hs⟩
  | noFrame t page vm sys ht hvm hs => exact Or.inr ⟨.kill, hs⟩
  | killed which sys hraise hfatal hs => exact Or.inr ⟨.kill, hs⟩
  | load | store | fault | overflow => exact Or.inl rfl

/-- The page of a fault is one that the exception handler asks for. -/
def FromHandler (a : VmAct) : Prop :=
  ∀ id page, a = .fault id page → ∃ badVaddr, pageNumber badVaddr = some page

theorem step_vm {k k' : Kernel} {a : Act} (hstep : k.step a = some k') :
    k'.vm = k.vm ∨ ∃ v, FromHandler v ∧ k.vm.step v = some k'.vm := by
  cases step_effect hstep with
  | start t executable sys vm ht hs hvm =>
      exact Or.inr ⟨.construct t.tid executable, nofun, hvm⟩
  | exit t code sys vm ht hvm hs => exact Or.inr ⟨.destroy t.tid, nofun, hvm⟩
  | load t p addr size value vm hat ht hp hvm =>
      exact Or.inr ⟨.readMem p addr size, nofun, by simp [Vm.step, hvm]⟩
  | store t p addr size value vm hat ht hp hvm =>
      exact Or.inr ⟨.writeMem p addr size value, nofun, by simp [Vm.step, hvm]⟩
  | fault t page vm hat ht hvm hevent hpage =>
      refine Or.inr ⟨.fault t.tid page, ?_, by simp [Vm.step, hvm]⟩
      rintro _ _ ⟨⟩
      exact hpage
  | noFrame t page vm sys ht hvm hs hevent hpage =>
      refine Or.inr ⟨.fault t.tid page, ?_, by simp [Vm.step, hvm]⟩
      rintro _ _ ⟨⟩
      exact hpage
  | schedule | killed | overflow => exact Or.inl rfl

/-- **The threads of a run of the kernel make a run of the threads**, so that what
`JoinSafety.lean` and `JoinLiveness.lean` prove holds of the kernel. -/
theorem run_sys (algorithm : Algorithm) (main : SpaceId) :
    ∀ as k, PartialMachine.run step (init algorithm main) as = some k →
      ∃ bs log, PartialMachine.run (PartialMachine.logged Sys.step Sys.event)
        (Sys.init algorithm main, []) bs = some (k.sys, log) := by
  refine PartialMachine.run_invariant ⟨[], [], rfl⟩ ?_
  rintro k a k' ⟨bs, log, hrun⟩ hstep
  rcases step_sys hstep with heq | ⟨b, hb⟩
  · exact ⟨bs, log, by rw [heq, hrun]⟩
  · exact ⟨bs ++ [b], log ++ k.sys.event b, PartialMachine.run_snoc_eq_some.mpr
      ⟨_, hrun, PartialMachine.logged_eq_some.mpr ⟨hb, rfl⟩⟩⟩

/-- **The memory of a run of the kernel makes a run of the memory**, so that what
`Frames.lean` proves holds of the kernel. -/
theorem run_vm (algorithm : Algorithm) (main : SpaceId) :
    ∀ as k, PartialMachine.run step (init algorithm main) as = some k →
      ∃ vs, PartialMachine.StepsMeet Vm.step (fun _ a => FromHandler a) Vm.init vs ∧
        PartialMachine.run Vm.step Vm.init vs = some k.vm := by
  refine PartialMachine.run_invariant ⟨[], PartialMachine.stepsMeet_nil _ _, rfl⟩ ?_
  rintro k a k' ⟨vs, hmeet, hrun⟩ hstep
  rcases step_vm hstep with heq | ⟨v, hfrom, hv⟩
  · exact ⟨vs, hmeet, by rw [heq, hrun]⟩
  · refine ⟨vs ++ [v], PartialMachine.stepsMeet_snoc.mpr ⟨hmeet, fun _ _ => hfrom⟩, ?_⟩
    exact PartialMachine.run_snoc_eq_some.mpr ⟨_, hrun, hv⟩

end Kernel

end OsAssignments.MemoryManagement
