import OsAssignments.MemoryManagement.ProgramMemory

/-!
# User programs on the whole machine

The processor of `Mips.lean` on top of the kernel: `Machine::Run` executes instructions
of whatever program is current, interrupts come between them, a failed access goes to
`ExceptionHandler`, and `Scheduler::Run` saves and restores the registers.

§1 is the code. §2 is one instruction as steps of the kernel, §3 the registers of the
programs that are not running.

- `switch_registersOf` — a thread finds its registers as it left them.
- `registers_sane` — **the result**, for every run: whichever program is current,
  `DelayedLoad` finds the number of a general register, and `R0` is zero.
-/

namespace OsAssignments.MemoryManagement

open PartialMachine

/-! ## §1  The code -/

structure Computer where
  kernel : Kernel
  /-- `machine->registers`. -/
  registers : Registers
  /-- The field of each `Thread`. -/
  userRegisters : SpaceId → Registers

inductive ComputerAct where
  /-- One turn of `Machine::Run`, unless the instruction is a system call. -/
  | instruction
  /-- An interrupt handler is called (`CheckIfDue`). -/
  | interrupt
  | tick
  | yield
  | dispatch
  | start (executable : RandomAccessFile)
  /-- The instruction is a system call; its handler takes these actions, and if it
  returns, leaves the result in `r2`. `SC_Yield` is one without actions, then `yield`. -/
  | sysCall (acts : List Kernel.Act) (result : Option (BitVec 32))
  /-- The handler of `SC_Join` goes on. -/
  | resume (result : Option (BitVec 32))

/-- The actions of a system call. -/
def Kernel.Act.inSysCall : Kernel.Act → Bool
  | .exec _ _ | .exit _ | .join _ _ | .load _ _ | .store _ _ _ | .exception _ _ => true
  | _ => false

namespace Computer

/-- After the constructor of `Machine`. -/
def init (algorithm : Algorithm) (main : SpaceId) (userRegisters : SpaceId → Registers) :
    Computer where
  kernel := Kernel.init algorithm main
  registers := fun _ => 0
  userRegisters := userRegisters

/-- The thread has come so far that its `space` is not `NULL`. -/
def Spaced (s : Sys) (x : SpaceId) : Prop :=
  ∃ t, s.heap x = some t ∧ t.cont ≠ .fresh ∧ t.cont ≠ .starting

instance (s : Sys) (x : SpaceId) : Decidable (Spaced s x) :=
  match h : s.heap x with
  | none => isFalse (by rintro ⟨t, ht, -⟩; rw [h] at ht; cases ht)
  | some t =>
      if hc : t.cont ≠ .fresh ∧ t.cont ≠ .starting then isTrue ⟨t, h, hc⟩
      else isFalse (by
        rintro ⟨t', ht', hc'⟩
        rw [h] at ht'
        cases ht'
        exact hc hc')

def saveUserState (c : Computer) : Computer :=
  if Spaced c.kernel.sys c.kernel.sys.currentThread then
    { c with
      userRegisters :=
        Function.update c.userRegisters c.kernel.sys.currentThread c.registers }
  else c

def restoreUserState (c : Computer) : Computer :=
  if Spaced c.kernel.sys c.kernel.sys.currentThread then
    { c with registers := c.userRegisters c.kernel.sys.currentThread }
  else c

/-- `Scheduler::Run`, around the kernel's part of it. A `Yield` that finds no other thread
skips it, and then storing and fetching the same registers comes to the same. -/
def switch (c : Computer) (a : Kernel.Act) : Option Computer :=
  (c.kernel.step a).map fun k => { c.saveUserState with kernel := k }.restoreUserState

/-- `OneInstruction` on the memory of the running program. -/
def turn (c : Computer) : Option (Turn Vm) := do
  let p ← c.kernel.pageTable
  Machine.oneInstruction (Vm.userMemory p) c.registers c.kernel.vm

def instruction (c : Computer) : Option Computer := do
  match ← c.turn with
  | .done r vm => some { c with registers := r, kernel := { c.kernel with vm := vm } }
  | .trap r vm which badVAddr =>
      ({ c.kernel with vm := vm }.exceptionHandler which badVAddr).map fun k =>
        { c with registers := r, kernel := k }

/-- The end of the `SyscallException` case: `r2` and the program counters. -/
def sysCallReturn (result : Option (BitVec 32)) (r : Registers) : Registers :=
  let r := match result with
    | some code => r.set (gpr 2) code
    | none => r
  advancePCs (r NextPCReg + 4) r

/-- The handler has run; it returns if the process is not blocked or at its end. -/
def handled (c : Computer) (k : Kernel) (result : Option (BitVec 32)) (r : Registers) :
    Computer :=
  { c with kernel := k, registers := if k.sys.At .user then sysCallReturn result r else r }

/-- The trap of a system call, and its handler. -/
def sysCall (c : Computer) (acts : List Kernel.Act) (result : Option (BitVec 32)) :
    Option Computer := do
  match ← c.turn with
  | .trap r vm .SyscallException _ =>
      if acts.all Kernel.Act.inSysCall then
        (run Kernel.step { c.kernel with vm := vm } acts).map fun k => c.handled k result r
      else none
  | _ => none

def step (c : Computer) : ComputerAct → Option Computer
  | .instruction => if c.kernel.sys.At .user then c.instruction else none
  | .interrupt => (Machine.delayedLoad 0 0 c.registers).map fun r => { c with registers := r }
  | .tick => (c.kernel.step .tick).map fun k => { c with kernel := k }
  | .yield => c.switch .yield
  | .dispatch => c.switch .dispatch
  | .start executable =>
      (c.kernel.step (.start executable)).map fun k =>
        { c with
          registers := initRegisters (BitVec.ofNat 32 (readHeader executable).numPages)
          kernel := k }
  | .sysCall acts result => if c.kernel.sys.At .user then c.sysCall acts result else none
  | .resume result =>
      (c.kernel.step .resume).map fun k => c.handled k result c.registers

end Computer

/-! ## §2  One turn -/

def Turn.memory {M : Type} : Turn M → M
  | .done _ m => m
  | .trap _ m _ _ => m

/-- What every access keeps. -/
theorem Executes.memory_inv {M : Type} {memory : UserMemory M} {r : Registers} {m : M}
    {t : Turn M} {I : M → Prop} (h : Executes memory r m t) (hm : I m)
    (hread : ∀ {m m' addr size value}, I m → memory.readMem m addr size = .ok (value, m') →
      I m')
    (hwrite : ∀ {m m' addr size value}, I m →
      memory.writeMem m addr size value = .ok m' → I m') : I t.memory := by
  cases h with
  | fetchFault which hfetch => exact hm
  | next raw m₁ assigned pcAfter hfetch hbody => exact hread hm hfetch
  | raise raw m₁ which badVAddr hfetch hbody => exact hread hm hfetch
  | load raw m₁ addr size f value m₂ hfetch hbody hr => exact hread (hread hm hfetch) hr
  | loadFault raw m₁ addr size f which hfetch hbody hr => exact hread hm hfetch
  | store raw m₁ addr size value m₂ hfetch hbody hw => exact hwrite (hread hm hfetch) hw
  | storeFault raw m₁ addr size value which hfetch hbody hw => exact hread hm hfetch
  | replace raw m₁ addr f value m₂ m₃ hfetch hbody hr hw =>
      exact hwrite (hread (hread hm hfetch) hr) hw
  | replaceReadFault raw m₁ addr f which hfetch hbody hr => exact hread hm hfetch
  | replaceWriteFault raw m₁ addr f value m₂ which hfetch hbody hr hw =>
      exact hread (hread hm hfetch) hr

namespace Kernel

variable {k k' : Kernel} {p : ℕ}

/-- The accesses of an instruction are steps of the kernel. -/
theorem Inv.accesses (hi : Inv k) (hat : k.sys.At .user) (hp : k.pageTable = some p)
    {r : Registers} {t : Turn Vm} (h : Executes (Vm.userMemory p) r k.vm t) :
    Inv { k with vm := t.memory } := by
  refine h.memory_inv (I := fun vm => Inv { k with vm := vm }) hi ?_ ?_
  · intro vm vm' addr size value hi hread
    rw [Vm.userMemory_readMem] at hread
    apply hi.step (a := .load addr size)
    rw [Kernel.step, if_pos hat]
    simp only [Kernel.load, hp, hread, Option.bind_eq_bind, Option.bind_some]
  · intro vm vm' addr size value hi hwrite
    rw [Vm.userMemory_writeMem] at hwrite
    apply hi.step (a := .store addr size value)
    rw [Kernel.step, if_pos hat]
    simp only [Kernel.store, hp, hwrite, Option.bind_eq_bind, Option.bind_some]

theorem Inv.handler (hi : Inv k) (hat : k.sys.At .user) {which : ExceptionType}
    {badVAddr : BitVec 32} (h : k.exceptionHandler which badVAddr = some k') : Inv k' := by
  apply hi.step (a := .exception which badVAddr)
  rw [Kernel.step, if_pos hat]
  exact h

theorem Inv.step_run (hi : Inv k) {acts : List Act} (h : run Kernel.step k acts = some k') :
    Inv k' :=
  run_invariant hi (fun _ _ _ => Inv.step) acts k' h

/-- No `SWITCH`, and no thread that starts. -/
def Act.stays : Act → Bool
  | .yield | .dispatch | .start _ => false
  | _ => true

theorem Act.stays_of_inSysCall {a : Act} (h : a.inSysCall = true) : a.stays = true := by
  cases a with
  | yield | dispatch | start => cases h
  | _ => rfl

/-- What a step does to the threads when the same one goes on. -/
def Stays (s s' : Sys) : Prop :=
  s' = s ∨ ∃ b, s.step b = some s' ∧ b ≠ .yield ∧ b ≠ .dispatch ∧ b ≠ .start

theorem handler_stays {which : ExceptionType} {badVAddr : BitVec 32}
    (h : k.exceptionHandler which badVAddr = some k') : Stays k.sys k'.sys := by
  obtain ⟨-, heq | hkill⟩ := exceptionHandler_same h
  · exact Or.inl heq
  · exact Or.inr ⟨.kill, hkill, by simp, by simp, by simp⟩

theorem step_stays {a : Act} (ha : a.stays = true) (hstep : k.step a = some k') :
    Stays k.sys k'.sys := by
  have hsys : ∀ {b : Sys.Act} {vm : Vm}, Kernel.sysStep ⟨k.sys, vm, k.pageTable⟩ b = some k' →
      b ≠ .yield → b ≠ .dispatch → b ≠ .start → Stays k.sys k'.sys := by
    intro b vm hb hy hd hs
    obtain ⟨sys, hsys, rfl⟩ := sysStep_eq_some.mp hb
    exact Or.inr ⟨b, hsys, hy, hd, hs⟩
  cases a with
  | yield | dispatch | start => cases ha
  | tick => exact hsys hstep (by simp) (by simp) (by simp)
  | exec tmp prio => exact hsys hstep (by simp) (by simp) (by simp)
  | join id stale => exact hsys hstep (by simp) (by simp) (by simp)
  | resume => exact hsys hstep (by simp) (by simp) (by simp)
  | exit code =>
      simp only [step, exit, Option.bind_eq_bind, Option.bind_eq_some_iff] at hstep
      obtain ⟨t, -, vm, -, hstep⟩ := hstep
      exact hsys hstep (by simp) (by simp) (by simp)
  | load addr size =>
      simp only [step, load, Option.ite_none_right_eq_some, Option.bind_eq_bind,
        Option.bind_eq_some_iff] at hstep
      obtain ⟨-, p, -, r, -, hk⟩ := hstep
      cases r with
      | ok r =>
          cases hk
          exact Or.inl rfl
      | error which => exact handler_stays hk
  | store addr size value =>
      simp only [step, store, Option.ite_none_right_eq_some, Option.bind_eq_bind,
        Option.bind_eq_some_iff] at hstep
      obtain ⟨-, p, -, r, -, hk⟩ := hstep
      cases r with
      | ok vm =>
          cases hk
          exact Or.inl rfl
      | error which => exact handler_stays hk
  | exception which badVAddr =>
      simp only [step, Option.ite_none_right_eq_some] at hstep
      exact handler_stays hstep.2

theorem Stays.currentThread {s s' : Sys} (h : Stays s s') :
    s'.currentThread = s.currentThread := by
  rcases h with rfl | ⟨b, hb, hy, hd, -⟩
  · rfl
  · exact Sys.schedStep_currentThread (a := .act b) (by simpa using hy) (by simpa using hd) hb

/-- A `SWITCH` of the kernel is one of the threads. -/
theorem switch_sys {a : Act} (ha : a = .yield ∨ a = .dispatch)
    (hstep : k.step a = some k') : ∃ b, k.sys.step b = some k'.sys ∧ b ≠ .start := by
  rcases ha with rfl | rfl
  · obtain ⟨k₁, hk₁, rfl⟩ := Option.map_eq_some_iff.mp hstep
    obtain ⟨sys, hs, rfl⟩ := sysStep_eq_some.mp hk₁
    obtain ⟨pt, hpt⟩ := restore_eq ⟨sys, k.vm, k.pageTable⟩
    exact ⟨.yield, by rw [hpt]; exact hs, by simp⟩
  · obtain ⟨k₁, hk₁, rfl⟩ := Option.map_eq_some_iff.mp hstep
    obtain ⟨sys, hs, rfl⟩ := sysStep_eq_some.mp hk₁
    obtain ⟨pt, hpt⟩ := restore_eq ⟨sys, k.vm, k.pageTable⟩
    exact ⟨.dispatch, by rw [hpt]; exact hs, by simp⟩

theorem start_sys {executable : RandomAccessFile}
    (hstep : k.step (.start executable) = some k') : k.sys.step .start = some k'.sys := by
  simp only [step, startProcess, Option.bind_eq_bind, Option.bind_eq_some_iff] at hstep
  obtain ⟨t, -, k₁, hk₁, vm, -, heq⟩ := hstep
  obtain ⟨sys, hb, rfl⟩ := sysStep_eq_some.mp hk₁
  cases heq
  exact hb

end Kernel

/-! ## §3  Saved registers -/

namespace Computer

section

variable {s s' : Sys} {log log' : List Sys.Event} {a : Sys.Act} {x : SpaceId}

/-- A finished thread was finished before, unless it is the one that ends. -/
theorem finished_back (hi : Sys.Inv s log) (hi' : Sys.Inv s' log')
    (hstep : s.step a = some s') {t' : Thread} (ht' : s'.heap x = some t')
    (hfin : t'.cont = .finished) :
    (∃ t, s.heap x = some t ∧ t.cont = .finished) ∨
      a.ends = true ∧ x = s.currentThread := by
  obtain ⟨-, hfresh⟩ | ⟨t, ht, hdesc⟩ := Sys.schedStep_descends (a := .act a) hstep ht'
  · rw [hfin] at hfresh
    cases hfresh
  by_cases hc : t.cont = .finished
  · exact Or.inl ⟨t, ht, hc⟩
  right
  have hun : s.Unfinished t.tid := ⟨x, _, Sys.cores_of_heap ht, rfl, t.not_done hc⟩
  have hno : ¬ s'.Unfinished t.tid := by
    rintro ⟨b, c, hb, htid, hdone⟩
    have heq : b = x :=
      hi'.cores_inj b x _ _ hb (Sys.cores_of_heap ht') (htid.trans hdesc.tid.symm)
    subst heq
    rw [Sys.cores_of_heap ht'] at hb
    cases hb
    simp [Thread.core, hfin] at hdone
  rw [Sys.step_unfinished hi hstep] at hno
  have hends : a.ends = true ∧ s.runningTid = some t.tid := by
    by_contra hne
    exact hno (Or.inl ⟨hun, hne⟩)
  refine ⟨hends.1, ?_⟩
  obtain ⟨u, hu, htid⟩ := Option.map_eq_some_iff.mp hends.2
  exact (Sys.tid_inj hi hu ht htid).1.symm

/-- A thread that has a space had one before, unless it has just started. -/
theorem spaced_back (hi : Sys.Inv s log) (hi' : Sys.Inv s' log')
    (hstep : s.step a = some s') (h : Spaced s' x) :
    Spaced s x ∨ a = .start ∧ x = s.currentThread := by
  obtain ⟨t', ht', hfresh, hstart⟩ := h
  by_cases hfin : t'.cont = .finished
  · rcases finished_back hi hi' hstep ht' hfin with ⟨t, ht, hc⟩ | ⟨hends, rfl⟩
    · exact Or.inl ⟨t, ht, by simp [hc], by simp [hc]⟩
    · obtain ⟨t, ht, -, hc⟩ := Kernel.at_user_of_ends hends hstep
      exact Or.inl ⟨t, ht, by simp [hc], by simp [hc]⟩
  · obtain ⟨-, hf⟩ | ⟨t, ht, hdesc⟩ := Sys.schedStep_descends (a := .act a) hstep ht'
    · exact absurd hf hfresh
    have hin : t'.cont.InProcess := by
      cases hc : t'.cont with
      | fresh => exact absurd hc hfresh
      | starting => exact absurd hc hstart
      | user => trivial
      | joining => trivial
      | finished => exact absurd hc hfin
    rcases hdesc.inProcess hin with hin | ⟨ha, hx⟩
    · refine Or.inl ⟨t, ht, ?_, ?_⟩ <;>
        · intro hc
          rw [hc] at hin
          exact hin
    · exact Or.inr ⟨by cases ha; rfl, hx⟩

end

/-- The registers of thread `x`, wherever they are. -/
def registersOf (c : Computer) (x : SpaceId) : Registers :=
  if c.kernel.sys.currentThread = x then c.registers else c.userRegisters x

/-- `DelayedLoad` finds a register number whenever it is called. -/
structure Inv (c : Computer) : Prop where
  kernel : c.kernel.Inv
  registers : c.registers.Sane
  saved : ∀ x, x ≠ c.kernel.sys.currentThread → Spaced c.kernel.sys x →
    (c.userRegisters x).Sane

theorem Inv.sane {c : Computer} (hi : Inv c) {x : SpaceId} (hx : Spaced c.kernel.sys x) :
    (c.registersOf x).Sane := by
  unfold registersOf
  split
  · exact hi.registers
  · rename_i hcur
    exact hi.saved x (Ne.symm hcur) hx

/-- The same thread goes on, and no other one gets a space. -/
structure Continues (s s' : Sys) : Prop where
  currentThread : s'.currentThread = s.currentThread
  spaced : ∀ x, Spaced s' x → Spaced s x

theorem Continues.refl (s : Sys) : Continues s s := ⟨rfl, fun _ => id⟩

theorem Continues.trans {s s' s'' : Sys} (h : Continues s s') (h' : Continues s' s'') :
    Continues s s'' :=
  ⟨h'.currentThread.trans h.currentThread, fun x hx => h.spaced x (h'.spaced x hx)⟩

theorem continues_of_stays {k k' : Kernel} (hi : k.Inv) (hi' : k'.Inv)
    (h : Kernel.Stays k.sys k'.sys) : Continues k.sys k'.sys := by
  refine ⟨h.currentThread, fun x hx => ?_⟩
  rcases h with heq | ⟨b, hb, -, -, hs⟩
  · rwa [heq] at hx
  · obtain ⟨log, hl⟩ := hi.sys
    obtain ⟨log', hl'⟩ := hi'.sys
    rcases spaced_back hl hl' hb hx with hx | ⟨rfl, -⟩
    · exact hx
    · exact absurd rfl hs

/-- What the actions of a system call keep. -/
theorem continues_run {k k' : Kernel} (hi : k.Inv) :
    ∀ {acts : List Kernel.Act}, acts.all Kernel.Act.inSysCall = true →
      run Kernel.step k acts = some k' → k'.Inv ∧ Continues k.sys k'.sys := by
  intro acts
  induction acts generalizing k with
  | nil =>
      intro _ h
      cases h
      exact ⟨hi, Continues.refl _⟩
  | cons a acts ih =>
      intro hall h
      rw [List.all_cons, Bool.and_eq_true] at hall
      obtain ⟨k₁, hk₁, hrest⟩ := Option.bind_eq_some_iff.mp (run_cons k a acts ▸ h)
      have hi₁ := hi.step hk₁
      have hone := continues_of_stays hi hi₁
        (Kernel.step_stays (Kernel.Act.stays_of_inSysCall hall.1) hk₁)
      obtain ⟨hi', hcont⟩ := ih hi₁ hall.2 hrest
      exact ⟨hi', hone.trans hcont⟩

theorem Inv.continues {c : Computer} {k : Kernel} {r : Registers} (h : Inv c) (hk : k.Inv)
    (hs : Continues c.kernel.sys k.sys) (hr : r.Sane) :
    Inv { c with kernel := k, registers := r } := by
  refine ⟨hk, hr, fun x hx hspaced => ?_⟩
  rw [hs.currentThread] at hx
  exact h.saved x hx (hs.spaced x hspaced)

/-- What `Scheduler::Run` does to the registers of any thread that has a space: nothing. -/
theorem switch_registersOf {c c' : Computer} {a : Kernel.Act} (hi : c.kernel.Inv)
    (ha : a = .yield ∨ a = .dispatch) (hstep : c.switch a = some c') {x : SpaceId}
    (hx : Spaced c'.kernel.sys x) :
    c'.registersOf x = c.registersOf x ∧ Spaced c.kernel.sys x ∧
      c'.userRegisters x = c.registersOf x := by
  obtain ⟨k, hk, rfl⟩ := Option.map_eq_some_iff.mp hstep
  have hkernel : ∀ d : Computer, d.restoreUserState.kernel = d.kernel := by
    intro d
    unfold restoreUserState
    split <;> rfl
  have huser : ∀ d : Computer, d.restoreUserState.userRegisters = d.userRegisters := by
    intro d
    unfold restoreUserState
    split <;> rfl
  rw [hkernel] at hx
  change Spaced k.sys x at hx
  obtain ⟨b, hb, hne⟩ := Kernel.switch_sys ha hk
  have hspaced : Spaced c.kernel.sys x := by
    obtain ⟨log, hl⟩ := hi.sys
    obtain ⟨log', hl'⟩ := (hi.step hk).sys
    rcases spaced_back hl hl' hb hx with h | ⟨rfl, -⟩
    · exact h
    · exact absurd rfl hne
  have hsaved : c.saveUserState.userRegisters x = c.registersOf x := by
    unfold saveUserState registersOf
    by_cases hcur : c.kernel.sys.currentThread = x
    · subst hcur
      simp [hspaced]
    · rw [if_neg hcur]
      split
      · exact Function.update_of_ne (Ne.symm hcur) _ _
      · rfl
  refine ⟨?_, hspaced, by rw [huser]; exact hsaved⟩
  rw [← hsaved]
  unfold registersOf
  rw [hkernel, huser]
  split
  · rename_i hcur
    change k.sys.currentThread = x at hcur
    subst hcur
    unfold restoreUserState
    rw [if_pos hx]
  · rfl

theorem turn_eq_some {c : Computer} {t : Turn Vm} (hr : c.registers.Sane)
    (h : c.turn = some t) :
    ∃ p, c.kernel.pageTable = some p ∧
      Executes (Vm.userMemory p) c.registers c.kernel.vm t := by
  obtain ⟨p, hp, h⟩ := Option.bind_eq_some_iff.mp h
  exact ⟨p, hp, executes_of_some hr.load h⟩

/-- The two ways an instruction ends. -/
theorem instruction_cases {c c' : Computer} (h : c.instruction = some c') :
    (∃ r vm, c.turn = some (.done r vm) ∧
      c' = { c with registers := r, kernel := { c.kernel with vm := vm } }) ∨
    ∃ r vm which badVAddr k, c.turn = some (.trap r vm which badVAddr) ∧
      Kernel.exceptionHandler { c.kernel with vm := vm } which badVAddr = some k ∧
      c' = { c with registers := r, kernel := k } := by
  obtain ⟨t, ht, h⟩ := Option.bind_eq_some_iff.mp h
  cases t with
  | done r vm =>
      cases h
      exact Or.inl ⟨r, vm, ht, rfl⟩
  | trap r vm which badVAddr =>
      obtain ⟨k, hk, rfl⟩ := Option.map_eq_some_iff.mp h
      exact Or.inr ⟨r, vm, which, badVAddr, k, ht, hk, rfl⟩

theorem sysCall_cases {c c' : Computer} {acts : List Kernel.Act}
    {result : Option (BitVec 32)} (h : c.sysCall acts result = some c') :
    ∃ r vm badVAddr k, c.turn = some (.trap r vm .SyscallException badVAddr) ∧
      acts.all Kernel.Act.inSysCall = true ∧
      run Kernel.step { c.kernel with vm := vm } acts = some k ∧
      c' = c.handled k result r := by
  obtain ⟨t, ht, h⟩ := Option.bind_eq_some_iff.mp h
  cases t with
  | done r vm => cases h
  | trap r vm which badVAddr =>
      cases which with
      | SyscallException =>
          obtain ⟨hall, h⟩ := Option.ite_none_right_eq_some.mp h
          obtain ⟨k, hk, rfl⟩ := Option.map_eq_some_iff.mp h
          exact ⟨r, vm, badVAddr, k, ht, hall, hk, rfl⟩
      | _ => cases h

theorem sane_sysCallReturn {r : Registers} (h : r.Sane) (result : Option (BitVec 32)) :
    (sysCallReturn result r).Sane := by
  unfold sysCallReturn
  cases result with
  | none => exact h.advancePCs
  | some code => exact (h.set (by decide) (by decide)).advancePCs

theorem sane_initRegisters (numPages : BitVec 32) : (initRegisters numPages).Sane := by
  constructor
  · rfl
  · change BitVec.toNat (0 : BitVec 32) < 32
    decide

theorem Inv.handled {c : Computer} {k : Kernel} {r : Registers} (h : Inv c) (hk : k.Inv)
    (hs : Continues c.kernel.sys k.sys) (hr : r.Sane) (result : Option (BitVec 32)) :
    Inv (c.handled k result r) := by
  apply h.continues hk hs
  split
  · exact sane_sysCallReturn hr result
  · exact hr

theorem Inv.step {c c' : Computer} {a : ComputerAct} (h : Inv c) (hstep : c.step a = some c') :
    Inv c' := by
  have hswitch : ∀ {b : Kernel.Act}, b = .yield ∨ b = .dispatch → c.switch b = some c' →
      Inv c' := by
    intro b hb hswitch
    have hk : c'.kernel.Inv := by
      obtain ⟨k, hk, rfl⟩ := Option.map_eq_some_iff.mp hswitch
      unfold restoreUserState
      split <;> exact h.kernel.step hk
    refine ⟨hk, ?_, fun x _ hx => ?_⟩
    · by_cases hx : Spaced c'.kernel.sys c'.kernel.sys.currentThread
      · obtain ⟨heq, hspaced, -⟩ := switch_registersOf h.kernel hb hswitch hx
        rw [registersOf, if_pos rfl] at heq
        rw [heq]
        exact h.sane hspaced
      · obtain ⟨k, hk, rfl⟩ := Option.map_eq_some_iff.mp hswitch
        unfold restoreUserState at hx ⊢
        split
        · rename_i hx'
          rw [if_pos hx'] at hx
          exact absurd hx' hx
        · unfold saveUserState
          split <;> exact h.registers
    · obtain ⟨-, hspaced, heq⟩ := switch_registersOf h.kernel hb hswitch hx
      rw [heq]
      exact h.sane hspaced
  cases a with
  | instruction =>
      obtain ⟨hat, hstep⟩ := Option.ite_none_right_eq_some.mp hstep
      rcases instruction_cases hstep with ⟨r, vm, ht, rfl⟩ |
        ⟨r, vm, which, badVAddr, k, ht, hk, rfl⟩
      · obtain ⟨p, hp, hex⟩ := turn_eq_some h.registers ht
        exact h.continues (h.kernel.accesses hat hp hex) (Continues.refl _) hex.sane
      · obtain ⟨p, hp, hex⟩ := turn_eq_some h.registers ht
        have hvm := h.kernel.accesses hat hp hex
        have hk' := hvm.handler hat hk
        have hcont := continues_of_stays (k := { c.kernel with vm := vm }) hvm hk'
          (Kernel.handler_stays hk)
        exact h.continues hk' hcont hex.sane
  | interrupt =>
      obtain ⟨r, hr, rfl⟩ := Option.map_eq_some_iff.mp hstep
      rw [Registers.delayedLoad_eq 0 0 h.registers.load, Option.some.injEq] at hr
      subst hr
      exact h.continues h.kernel (Continues.refl _) (Registers.sane_settle 0 (by decide))
  | tick =>
      rw [Computer.step] at hstep
      obtain ⟨k, hk, rfl⟩ := Option.map_eq_some_iff.mp hstep
      have hk' := h.kernel.step hk
      exact h.continues hk' (continues_of_stays h.kernel hk' (Kernel.step_stays rfl hk))
        h.registers
  | yield => exact hswitch (Or.inl rfl) hstep
  | dispatch => exact hswitch (Or.inr rfl) hstep
  | start executable =>
      obtain ⟨k, hk, rfl⟩ := Option.map_eq_some_iff.mp hstep
      have hk' := h.kernel.step hk
      have hb := Kernel.start_sys hk
      have hcur : k.sys.currentThread = c.kernel.sys.currentThread :=
        Sys.schedStep_currentThread (a := .act .start) (by simp) (by simp) hb
      refine ⟨hk', sane_initRegisters _, fun x hx hspaced => ?_⟩
      obtain ⟨log, hl⟩ := h.kernel.sys
      obtain ⟨log', hl'⟩ := hk'.sys
      rcases spaced_back hl hl' hb hspaced with hold | ⟨-, hx'⟩
      · exact h.saved x (by rwa [hcur] at hx) hold
      · rw [hcur] at hx
        exact absurd hx' hx
  | sysCall acts result =>
      obtain ⟨hat, hstep⟩ := Option.ite_none_right_eq_some.mp hstep
      obtain ⟨r, vm, badVAddr, k, ht, hall, hk, rfl⟩ := sysCall_cases hstep
      obtain ⟨p, hp, hex⟩ := turn_eq_some h.registers ht
      have hvm := h.kernel.accesses hat hp hex
      obtain ⟨hk', hcont⟩ := continues_run hvm hall hk
      exact h.handled hk' hcont hex.sane result
  | resume result =>
      obtain ⟨k, hk, rfl⟩ := Option.map_eq_some_iff.mp hstep
      have hk' := h.kernel.step hk
      exact h.handled hk' (continues_of_stays h.kernel hk' (Kernel.step_stays rfl hk))
        h.registers result

theorem inv_init (algorithm : Algorithm) {main : SpaceId} (hmain : main ≠ NULL)
    (userRegisters : SpaceId → Registers) : Inv (init algorithm main userRegisters) := by
  refine ⟨Kernel.inv_init algorithm hmain, ⟨rfl, by simp [init]⟩, fun x hx hspaced => ?_⟩
  obtain ⟨t, ht, -⟩ := hspaced
  exact absurd (Sys.heap_init ht).1 hx

theorem inv_run {c c' : Computer} {as : List ComputerAct} (h : Inv c)
    (hrun : PartialMachine.run step c as = some c') : Inv c' :=
  run_invariant h (fun _ _ _ => Inv.step) as c' hrun

/-! ## §4  Every run -/

/-- **The registers are never written out of bounds.** In every run of the machine,
whatever the programs, the interrupts, the page faults and the switches: `R0` is zero,
and `LoadReg`, which `DelayedLoad` takes as an index without looking at it, is the number
of a general register; likewise for every program that is not running, in the registers
that `RestoreUserState` will give back to it. -/
theorem registers_sane (algorithm : Algorithm) (main : SpaceId) (hmain : main ≠ NULL)
    (userRegisters : SpaceId → Registers) (as : List ComputerAct) (c : Computer)
    (hrun : PartialMachine.run step (init algorithm main userRegisters) as = some c) :
    c.registers.Sane ∧ ∀ x, x ≠ c.kernel.sys.currentThread → Spaced c.kernel.sys x →
      (c.userRegisters x).Sane := by
  have h := inv_run (inv_init algorithm hmain userRegisters) hrun
  exact ⟨h.registers, h.saved⟩

/-- A page of code: these instructions, then zeros. -/
def wordProgram (words : List (BitVec 32)) : RandomAccessFile where
  size := 168
  data := fun a =>
    if a < 40 then
      ((ByteMem.write (fun _ => 0) 0 (wordBytes NOFFMAGIC)).write 8 (wordBytes 40)).write 12
        (wordBytes 128) a
    else (words.flatMap wordBytes).getD (a - 40) 0

/-- The first program calls `Exec`, and the new thread is dispatched. -/
def execSum : List ComputerAct :=
  [.start (wordProgram [0x0000000c]), .instruction, .sysCall [.exec 2 10] (some 2), .yield]

theorem registers_sane_execSum : ∃ c, run step (init .a1 1 fun _ _ => 0) execSum = some c ∧
    c.registers.Sane ∧ ∀ x, x ≠ c.kernel.sys.currentThread → Spaced c.kernel.sys x →
      (c.userRegisters x).Sane := by
  have hsome : (run step (init .a1 1 fun _ _ => 0) execSum).isSome = true := by decide +kernel
  obtain ⟨c, hrun⟩ := Option.isSome_iff_exists.mp hsome
  exact ⟨c, hrun, registers_sane .a1 1 (by decide) (fun _ _ => 0) execSum c hrun⟩

end Computer

end OsAssignments.MemoryManagement
