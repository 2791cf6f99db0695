import OsAssignments.MemoryManagement.AddrSpace
import OsAssignments.MemoryManagement.Carcass

/-!
# What a process sees of a context switch

The machine has one set of user registers and one page table pointer.
`Scheduler::Run` saves and restores them, but only for a thread whose `space` is
not `NULL`, and a new thread starts in `ThreadRoot` without coming back through
`Run`; until `StartProcess` has set everything up, a thread leaves whatever it
finds in the machine.

§1 is the code: `SaveUserState`, `RestoreUserState`, `RestoreState` and the
steps of `StartProcess`, on top of the scheduler of `Scheduling.lean`. §2 is
what the scheduler does to the threads as far as this is concerned, §3 the
invariant.

- `user_state_transparent` — **the result**, for every run.
-/

namespace OsAssignments.MemoryManagement

open PartialMachine

/-! ## §1  The code -/

def NumTotalRegs : ℕ := 40
def StackReg : Fin NumTotalRegs := ⟨29, by decide⟩
def PCReg : Fin NumTotalRegs := ⟨34, by decide⟩
def NextPCReg : Fin NumTotalRegs := ⟨35, by decide⟩

abbrev Registers : Type := Fin NumTotalRegs → BitVec 32

/-- `pageTable` and `pageTableSize` of the machine; `pageTable` and `numPages` of
an `AddrSpace`. -/
structure Translation where
  pageTable : BitVec 32
  size : BitVec 32
deriving DecidableEq, Repr

/-- `AddrSpace::InitRegisters`. -/
def initRegisters (numPages : BitVec 32) : Registers :=
  Function.update
    (Function.update (Function.update (fun _ => 0) PCReg 0) NextPCReg 4)
    StackReg (numPages * BitVec.ofNat 32 PageSize - 16)

/-- How far `StartProcess` has come. -/
inductive Stage where
  /-- Before the constructor of `AddrSpace` has called `RestoreState`. -/
  | opening
  | constructed (space : Translation)
  /-- `currentThread->space` is set. -/
  | assigned
  | initialized
  | restored
deriving DecidableEq, Repr

structure UserSys where
  sys : Sys
  registers : Registers
  translation : Translation
  /-- The field of `Thread`. -/
  userRegisters : SpaceId → Registers
  /-- What `Thread::space` points to, if it is not `NULL`. -/
  space : SpaceId → Option Translation
  /-- Ghost: the address space that the thread has made. -/
  own : SpaceId → Option Translation
  stage : SpaceId → Stage

inductive UserAct where
  /-- A step of the scheduler; `freed` is what the memory of a deleted address
  space holds. -/
  | sched (a : Sys.SchedAct) (freed : Translation)
  /-- The constructor of `AddrSpace`. -/
  | newAddrSpace (space : Translation)
  | setSpace
  | initRegisters
  | restoreState
  /-- The process runs: an instruction, or what a system call leaves in its
  registers. -/
  | user (registers : Registers)

/-- The thread that the step makes. -/
def Sys.SchedAct.creates : Sys.SchedAct → Option SpaceId
  | .act (.exec tmp _) => some tmp
  | .fork tmp _ => some tmp
  | _ => none

namespace UserSys

/-- The main thread is about to call `StartProcess`. -/
def init (algorithm : Algorithm) (main : SpaceId) (registers : Registers)
    (translation : Translation) (userRegisters : SpaceId → Registers) : UserSys where
  sys := Sys.init algorithm main
  registers := registers
  translation := translation
  userRegisters := userRegisters
  space := fun _ => none
  own := fun _ => none
  stage := fun _ => .opening

def saveUserState (m : UserSys) : UserSys :=
  match m.space m.sys.currentThread with
  | none => m
  | some _ =>
      { m with
        userRegisters := Function.update m.userRegisters m.sys.currentThread m.registers }

def restoreUserState (m : UserSys) : UserSys :=
  match m.space m.sys.currentThread with
  | none => m
  | some space =>
      { m with registers := m.userRegisters m.sys.currentThread, translation := space }

/-- `Scheduler::Run` around `SWITCH`, at which the scheduler's state is `s`. -/
def switch (m : UserSys) (s : Sys) : Option UserSys :=
  match s.heap s.currentThread with
  | none => none
  | some t =>
      s.afterSwitch.map fun s =>
        let m := { m.saveUserState with sys := s }
        if t.cont = .fresh then m else m.restoreUserState

/-- A new `Thread`, if the step makes one, and a deleted address space, if the
step is `SC_Exit`. -/
def sched (m : UserSys) (a : Sys.SchedAct) (freed : Translation) (s : Sys) : UserSys :=
  match a with
  | .act (.exec tmp _) | .fork tmp _ =>
      { m with
        sys := s
        space := Function.update m.space tmp none
        own := Function.update m.own tmp none
        stage := Function.update m.stage tmp .opening }
  | .act (.exit _) =>
      { m with
        sys := s
        space := Function.update m.space m.sys.currentThread (some freed) }
  | _ => { m with sys := s }

def step (m : UserSys) : UserAct → Option UserSys
  | .sched (.act .yield) _ => (m.sys.atSwitch (.act .yield)).bind m.switch
  | .sched (.act .dispatch) _ => (m.sys.atSwitch (.act .dispatch)).bind m.switch
  | .sched (.act .start) freed =>
      -- `machine->Run` comes last in `StartProcess`
      if m.stage m.sys.currentThread = .restored then
        (m.sys.schedStep (.act .start)).map (m.sched (.act .start) freed)
      else none
  | .sched a freed => (m.sys.schedStep a).map (m.sched a freed)
  | .newAddrSpace space =>
      if m.sys.At .starting ∧ m.stage m.sys.currentThread = .opening then
        some { m with
          translation := space
          own := Function.update m.own m.sys.currentThread (some space)
          stage := Function.update m.stage m.sys.currentThread (.constructed space) }
      else none
  | .setSpace =>
      match m.stage m.sys.currentThread with
      | .constructed space =>
          if m.sys.At .starting then
            some { m with
              space := Function.update m.space m.sys.currentThread (some space)
              stage := Function.update m.stage m.sys.currentThread .assigned }
          else none
      | _ => none
  | .initRegisters =>
      match m.space m.sys.currentThread with
      | none => none
      | some space =>
          if m.sys.At .starting ∧ m.stage m.sys.currentThread = .assigned then
            some { m with
              registers := MemoryManagement.initRegisters space.size
              stage := Function.update m.stage m.sys.currentThread .initialized }
          else none
  | .restoreState =>
      match m.space m.sys.currentThread with
      | none => none
      | some space =>
          if m.sys.At .starting ∧ m.stage m.sys.currentThread = .initialized then
            some { m with
              translation := space
              stage := Function.update m.stage m.sys.currentThread .restored }
          else none
  | .user registers =>
      if m.sys.At .user then some { m with registers := registers } else none

/-- By ghost identity. -/
inductive UserEvent where
  /-- The thread leaves the processor in `Run`. -/
  | out (tid : Option ℕ) (registers : Registers)
  /-- `Run` is over, in a thread that has an address space. -/
  | back (tid : Option ℕ) (registers : Registers) (translation : Translation)
      (own : Option Translation)

def backEvents (m : UserSys) : List UserEvent :=
  match m.space m.sys.currentThread with
  | none => []
  | some _ =>
      [.back (m.sys.tidOf m.sys.currentThread) m.registers m.translation
        (m.own m.sys.currentThread)]

def switchEvents (m : UserSys) (a : UserAct) : List UserEvent :=
  match m.step a with
  | none => []
  | some m' => .out (m.sys.tidOf m.sys.currentThread) m.registers :: m'.backEvents

def event (m : UserSys) (a : UserAct) : List UserEvent :=
  match a with
  | .sched (.act .yield) _ => m.switchEvents a
  | .sched (.act .dispatch) _ => m.switchEvents a
  | _ => []

end UserSys

/-! ## §2  What the scheduler does to a thread -/

/-- In user code or in a system call. -/
def Cont.InProcess : Cont → Prop
  | .user => True
  | .joining _ _ => True
  | _ => False

/-- What a step leaves of a thread that was there; `started` says whether it may
have come to user code. -/
structure Descends (started : Prop) (t t' : Thread) : Prop where
  tid : t'.tid = t.tid
  unfinished : t'.cont ≠ .finished → t.cont ≠ .finished
  fresh : t'.cont = .fresh → t.cont = .fresh
  inProcess : t'.cont.InProcess → t.cont.InProcess ∨ started

theorem Descends.refl (started : Prop) (t : Thread) : Descends started t t :=
  ⟨rfl, id, id, Or.inl⟩

theorem Descends.mono {started started' : Prop} {t t' : Thread} (h : Descends started t t')
    (himp : started → started') : Descends started' t t' :=
  ⟨h.tid, h.unfinished, h.fresh, fun hin => (h.inProcess hin).imp_right himp⟩

theorem Sys.Evolves.descends {t t' : Thread} (h : Sys.Evolves t t') (started : Prop) :
    Descends started t t' := by
  refine ⟨h.tid, ?_, ?_, ?_⟩
  · intro hc'
    rcases h.cont with hc | ⟨hf, -⟩ | hc
    · rwa [← hc]
    · simp [hf]
    · exact absurd hc hc'
  · intro hc'
    rcases h.cont with hc | ⟨hf, -⟩ | hc
    · exact hc.symm.trans hc'
    · exact hf
    · rw [hc'] at hc
      cases hc
  · intro hc'
    rcases h.cont with hc | ⟨-, hs⟩ | hc
    · left
      rwa [← hc]
    · rw [hs] at hc'
      cases hc'
    · rw [hc] at hc'
      cases hc'

namespace Sys

variable {s s' : Sys}

/-- **The threads after a step** that is no `SWITCH`: a new one, or one that was
there. -/
theorem schedStep_descends {a : SchedAct} (hstep : s.schedStep a = some s') {x : SpaceId}
    {t' : Thread} (ht' : s'.heap x = some t') :
    (a.creates = some x ∧ t'.cont = .fresh) ∨ ∃ t, s.heap x = some t ∧
      Descends (a = .act .start ∧ x = s.currentThread) t t' := by
  have evolved : Evolved s s' → ∃ t, s.heap x = some t ∧
      Descends (a = .act .start ∧ x = s.currentThread) t t' := by
    intro hev
    obtain ⟨t, ht, hevol⟩ := hev x t' ht'
    exact ⟨t, ht, hevol.descends _⟩
  -- one thread is replaced by one that descends from it
  have hset : ∀ {t u}, s.heap s.currentThread = some t → s' = s.set s.currentThread u →
      Descends (a = .act .start) t u → ∃ t, s.heap x = some t ∧
        Descends (a = .act .start ∧ x = s.currentThread) t t' := by
    rintro t u ht rfl hdesc
    by_cases hx : x = s.currentThread
    · subst hx
      rw [heap_set_self] at ht'
      cases ht'
      exact ⟨t, ht, hdesc.mono fun hstart => ⟨hstart, rfl⟩⟩
    · exact ⟨t', by simpa [Sys.set, hx] using ht', Descends.refl _ t'⟩
  have hjoin : ∀ {t id spid}, s.heap s.currentThread = some t → t.cont.InProcess →
      s.joinLoop id spid = some s' → ∃ t, s.heap x = some t ∧
        Descends (a = .act .start ∧ x = s.currentThread) t t' := by
    intro t id spid ht hin hjoin
    have hnofin : t.cont ≠ .finished := by
      intro hc
      rw [hc] at hin
      exact hin
    obtain ⟨pos, -, ⟨-, -, hs'⟩ | ⟨-, -, hs'⟩⟩ := joinLoop_steps hjoin ht
    · exact hset ht hs' ⟨rfl, fun _ => hnofin, (fun hc => by cases hc), fun _ => Or.inl hin⟩
    · exact hset ht hs' ⟨rfl, fun _ => hnofin, (fun hc => by cases hc), fun _ => Or.inl hin⟩
  cases schedStep_cases hstep with
  | act a s' h =>
      cases h with
      | tick => exact Or.inr ⟨t', ht', Descends.refl _ t'⟩
      | yield t s' ht h =>
          obtain ⟨u, s₁, hu, hready, hrun⟩ := yield_steps h
          have hev : Evolved s (s.set s.currentThread { u with cpu := u.cpu + s.quantum }) :=
            evolved_set hu ⟨rfl, Or.inl rfl, Or.inl⟩
          exact Or.inr (evolved ((hev.trans (readyToRun_evolved hready).1).trans
            (runNext_evolved hrun)))
      | dispatch t s' ht h => exact Or.inr (evolved (runNext_evolved h))
      | start t ht hc =>
          refine Or.inr (hset ht rfl ⟨rfl, fun _ => ?_, (fun h => by cases h), fun _ => Or.inr rfl⟩)
          simp [hc]
      | exec tmp prio t s' ht hst hc hnull hfree h =>
          simp only [Sys.exec, ht, Option.bind_eq_bind, Option.bind_some,
            Option.bind_eq_some_iff] at h
          obtain ⟨jt, -, hready⟩ := h
          rcases heap_of_ready_new (s := s.set s.currentThread { t with jtable := jt })
            hready rfl ht' with ⟨rfl, rfl⟩ | ht₁
          · exact Or.inl ⟨rfl, rfl⟩
          · right
            by_cases hxc : x = s.currentThread
            · subst hxc
              rw [heap_set_self] at ht₁
              cases ht₁
              exact ⟨t, ht, rfl, id, id, Or.inl⟩
            · exact ⟨t', by simpa [Sys.set, hxc] using ht₁, Descends.refl _ t'⟩
      | exit code t s' ht hc h =>
          rcases exit_steps h ht with ⟨-, hfin⟩ | ⟨-, p, pos, s₁, -, -, -, hcur, -, -, hev, -, hfin⟩
          · exact Or.inr (evolved (finish_cores hfin ht).2.2.1)
          · obtain ⟨t₁, -, -, ht₁, -⟩ := finish_steps hfin
            exact Or.inr (evolved (hev.trans (finish_cores hfin ht₁).2.2.1))
      | join id stale t s' ht hc h => exact Or.inr (hjoin ht (by rw [hc]; trivial) h)
      | resume id spid t s' ht hc h => exact Or.inr (hjoin ht (by rw [hc]; trivial) h)
      | kill t s' ht hc h => exact Or.inr (evolved (finish_cores h ht).2.2.1)
  | fork tmp prio s' hawake hnull hfree h =>
      rcases heap_of_ready_new (s := s) h rfl ht' with ⟨rfl, rfl⟩ | ht₁
      · exact Or.inl ⟨rfl, rfl⟩
      · exact Or.inr ⟨t', ht₁, Descends.refl _ t'⟩
  | sleep t ht hst hc => exact Or.inr (hset ht rfl ⟨rfl, id, id, Or.inl⟩)
  | finish t s' ht hst hc h => exact Or.inr (evolved (finish_cores h ht).2.2.1)

theorem finish_currentThread (h : s.finish = some s') :
    s'.currentThread = s.currentThread ∧
      ∃ t, s'.heap s.currentThread = some t ∧ t.cont = .finished := by
  obtain ⟨t, s₁, t₁, ht, hdel, ht₁, rfl⟩ := finish_steps h
  have hcur : s₁.currentThread = s.currentThread := (deleteCarcass_cases hdel).1
  refine ⟨hcur, { t₁ with jtable := t₁.jtable.clear, status := .BLOCKED, cont := .finished },
    ?_, rfl⟩
  rw [← hcur]
  exact heap_set_self ..

theorem exit_currentThread {code : BitVec 32} (h : s.exit code = some s') {t : Thread}
    (ht : s.heap s.currentThread = some t) : s'.currentThread = s.currentThread ∧
      ∃ t, s'.heap s.currentThread = some t ∧ t.cont = .finished := by
  rcases exit_steps h ht with ⟨-, hfin⟩ | ⟨-, p, pos, s₁, -, -, -, hcur, -, -, -, -, hfin⟩
  · exact finish_currentThread hfin
  · rw [← hcur]
    exact finish_currentThread hfin

/-- Only a `SWITCH` changes the current thread. -/
theorem schedStep_currentThread {a : SchedAct} (hyield : a ≠ .act .yield)
    (hdispatch : a ≠ .act .dispatch) (hstep : s.schedStep a = some s') :
    s'.currentThread = s.currentThread := by
  have hjoin : ∀ {t id spid}, s.heap s.currentThread = some t →
      s.joinLoop id spid = some s' → s'.currentThread = s.currentThread := by
    intro t id spid ht h
    obtain ⟨pos, -, ⟨-, -, rfl⟩ | ⟨-, -, rfl⟩⟩ := joinLoop_steps h ht
    · rfl
    · rfl
  cases schedStep_cases hstep with
  | act a s' h =>
      cases h with
      | tick => rfl
      | yield t s' ht h => exact absurd rfl hyield
      | dispatch t s' ht h => exact absurd rfl hdispatch
      | start t ht hc => rfl
      | exec tmp prio t s' ht hst hc hnull hfree h =>
          obtain ⟨-, -, -, -, -, -, hcur, -⟩ := exec_steps h ht
          exact hcur
      | exit code t s' ht hc h => exact (exit_currentThread h ht).1
      | join id stale t s' ht hc h => exact hjoin ht h
      | resume id spid t s' ht hc h => exact hjoin ht h
      | kill t s' ht hc h => exact (finish_currentThread h).1
  | fork tmp prio s' hawake hnull hfree h => exact (fork_steps h).2.2.2
  | sleep t ht hst hc => rfl
  | finish t s' ht hst hc h => exact (finish_currentThread h).1

theorem atSwitch_act {a : SchedAct} {s₁ : Sys} (h : s.atSwitch a = some s₁) :
    a = .act .yield ∨ a = .act .dispatch := by
  unfold atSwitch at h
  split at h
  · exact Or.inl rfl
  · exact Or.inr rfl
  · cases h

/-- **A step that switches**, taken apart at its `SWITCH`. -/
theorem schedStep_of_atSwitch {a : SchedAct} {s₁ : Sys} (h : s.atSwitch a = some s₁)
    (hback : s₁.afterSwitch = some s') :
    s.schedStep a = some s' ∧ Evolved s s₁ ∧ s'.currentThread = s₁.currentThread ∧
      ∃ t, s.heap s.currentThread = some t := by
  have hcur : s'.currentThread = s₁.currentThread := by
    unfold afterSwitch at hback
    split at hback
    · cases hback
    · split at hback
      · cases hback
        rfl
      · exact (deleteCarcass_cases hback).1
  -- the thread that is switched to stands where it stood
  have hnext : ∀ {r : Sys}, r.nextSwitch = some s₁ → Evolved r s₁ ∧ r.runNext = some s' := by
    intro r hr
    have hrun : r.runNext = some s' := by rw [runNext_eq, hr, Option.bind_some, hback]
    obtain ⟨key, b, l, t, -, ht, rfl⟩ := nextSwitch_eq_some hr
    refine ⟨?_, hrun⟩
    exact evolved_set (s := { r with readyList := l, quantum := 0, currentThread := b }) ht
      ⟨rfl, Or.inl rfl, fun hst => by cases hst⟩
  unfold atSwitch at h
  split at h
  · simp only [Option.bind_eq_bind, Option.bind_eq_some_iff,
      Option.ite_none_right_eq_some] at h
    obtain ⟨t, ht, hguard, s₂, hready, hs₁⟩ := h
    obtain ⟨hev, hrun⟩ := hnext hs₁
    have hset : Evolved s (s.set s.currentThread { t with cpu := t.cpu + s.quantum }) :=
      evolved_set ht ⟨rfl, Or.inl rfl, Or.inl⟩
    have hyield : s.yield = some s' := by
      simp only [yield, ht, Option.bind_eq_bind, Option.bind_some, currentThread_set]
      rw [hready, Option.bind_some, hrun]
    refine ⟨?_, (hset.trans (readyToRun_evolved hready).1).trans hev, hcur, t, ht⟩
    simp only [schedStep, step, ht, Option.bind_eq_bind, Option.bind_some]
    rw [if_pos hguard, hyield]
  · simp only [Option.bind_eq_bind, Option.bind_eq_some_iff,
      Option.ite_none_right_eq_some] at h
    obtain ⟨t, ht, hst, hs₁⟩ := h
    obtain ⟨hev, hrun⟩ := hnext hs₁
    refine ⟨?_, hev, hcur, t, ht⟩
    simp only [schedStep, step, ht, Option.bind_eq_bind, Option.bind_some]
    rw [if_pos hst, hrun]
  · cases h

end Sys

/-! ## §3  The invariant -/

/-- `currentThread->space` was set. -/
def Stage.Assigned : Stage → Prop
  | .assigned => True
  | .initialized => True
  | .restored => True
  | _ => False

namespace UserSys

variable {m m' : UserSys} {log : List UserEvent}

/-- The registers with which the thread last left the processor. -/
def LastOut (log : List UserEvent) (k : ℕ) (registers : Registers) : Prop :=
  Since (fun e => ∃ r, e = .out (some k) r) (.out (some k) registers) log

structure UserInv (m : UserSys) (log : List UserEvent) : Prop where
  sched : ∃ log, Sys.SchedInv m.sys log
  saved : ∀ a t, m.sys.heap a = some t → a ≠ m.sys.currentThread → m.space a ≠ none →
    LastOut log t.tid (m.userRegisters a)
  fresh : ∀ a t, m.sys.heap a = some t → t.cont = .fresh → m.stage a = .opening
  unassigned : ∀ a t, m.sys.heap a = some t → ¬ (m.stage a).Assigned → m.space a = none
  constructed : ∀ a space, m.stage a = .constructed space → m.own a = some space
  assigned : ∀ a t, m.sys.heap a = some t → t.cont ≠ .finished → (m.stage a).Assigned →
    ∃ space, m.space a = some space ∧ m.own a = some space
  inProcess : ∀ a t, m.sys.heap a = some t → t.cont.InProcess → m.stage a = .restored
  installed : ∀ t, m.sys.heap m.sys.currentThread = some t → t.cont ≠ .finished →
    m.stage m.sys.currentThread = .restored →
    m.own m.sys.currentThread = some m.translation

/-- A step of the scheduler that leaves the user state alone: the threads are new,
and then nothing of theirs is set up, or they were there. -/
theorem UserInv.sched_keep (h : UserInv m log) {s' : Sys} (hsched : ∃ log, Sys.SchedInv s' log)
    (hcur : s'.currentThread = m.sys.currentThread)
    (hdesc : ∀ x t', s'.heap x = some t' →
      (t'.cont = .fresh ∧ m.stage x = .opening ∧ m.space x = none) ∨
        ∃ t, m.sys.heap x = some t ∧ Descends (m.stage x = .restored) t t') :
    UserInv { m with sys := s' } log := by
  refine ⟨hsched, ?_, ?_, ?_, h.constructed, ?_, ?_, ?_⟩
  · intro x t' ht' hx hspace
    rcases hdesc x t' ht' with ⟨-, -, hnone⟩ | ⟨t, ht, hd⟩
    · exact absurd hnone hspace
    · rw [hd.tid]
      exact h.saved x t ht (hcur ▸ hx) hspace
  · intro x t' ht' hc
    rcases hdesc x t' ht' with ⟨-, hstage, -⟩ | ⟨t, ht, hd⟩
    · exact hstage
    · exact h.fresh x t ht (hd.fresh hc)
  · intro x t' ht' hstage
    rcases hdesc x t' ht' with ⟨-, -, hnone⟩ | ⟨t, ht, -⟩
    · exact hnone
    · exact h.unassigned x t ht hstage
  · intro x t' ht' hc hstage
    rcases hdesc x t' ht' with ⟨-, hopen, -⟩ | ⟨t, ht, hd⟩
    · exact absurd hstage (by rw [show m.stage x = .opening from hopen]; exact id)
    · exact h.assigned x t ht (hd.unfinished hc) hstage
  · intro x t' ht' hin
    rcases hdesc x t' ht' with ⟨hfresh, -, -⟩ | ⟨t, ht, hd⟩
    · rw [hfresh] at hin
      exact absurd hin id
    · rcases hd.inProcess hin with hin | hrestored
      · exact h.inProcess x t ht hin
      · exact hrestored
  · intro t' ht' hc hstage
    simp only [hcur] at ht' hstage ⊢
    rcases hdesc _ t' ht' with ⟨-, hopen, -⟩ | ⟨t, ht, hd⟩
    · rw [hopen] at hstage
      cases hstage
    · exact h.installed t ht (hd.unfinished hc) hstage

/-- Nothing is known about an address where no thread lives. -/
theorem UserInv.reset (h : UserInv m log) {tmp : SpaceId} (hfree : m.sys.heap tmp = none)
    (hcur : tmp ≠ m.sys.currentThread) :
    UserInv { m with
      space := Function.update m.space tmp none
      own := Function.update m.own tmp none
      stage := Function.update m.stage tmp .opening } log := by
  have hne : ∀ {a t}, m.sys.heap a = some t → a ≠ tmp := by
    rintro a t ht rfl
    rw [hfree] at ht
    cases ht
  refine ⟨h.sched, ?_, ?_, ?_, ?_, ?_, ?_, ?_⟩
  · intro a t ht ha hspace
    exact h.saved a t ht ha (by simpa [hne ht] using hspace)
  · intro a t ht hc
    simpa [hne ht] using h.fresh a t ht hc
  · intro a t ht hstage
    have hstage' : ¬ (m.stage a).Assigned := by simpa [hne ht] using hstage
    simpa [hne ht] using h.unassigned a t ht hstage'
  · intro a space hstage
    by_cases ha : a = tmp
    · subst ha
      simp at hstage
    · simp only [Function.update_of_ne ha] at hstage ⊢
      exact h.constructed a space hstage
  · intro a t ht hc hstage
    simp only [Function.update_of_ne (hne ht)] at hstage ⊢
    exact h.assigned a t ht hc hstage
  · intro a t ht hin
    simpa [hne ht] using h.inProcess a t ht hin
  · intro t ht hc hstage
    simp only [Function.update_of_ne hcur.symm] at hstage ⊢
    exact h.installed t ht hc hstage

/-- The address space of a thread that is over is gone. -/
theorem UserInv.free (h : UserInv m log) {t : Thread}
    (ht : m.sys.heap m.sys.currentThread = some t) (hc : t.cont = .finished)
    (hstage : m.stage m.sys.currentThread = .restored) (freed : Translation) :
    UserInv { m with space := Function.update m.space m.sys.currentThread (some freed) } log := by
  refine ⟨h.sched, ?_, h.fresh, ?_, h.constructed, ?_, h.inProcess, h.installed⟩
  · intro a u hu ha hspace
    exact h.saved a u hu ha (by simpa [show a ≠ m.sys.currentThread from ha] using hspace)
  · intro a u hu hna
    by_cases ha : a = m.sys.currentThread
    · subst ha
      exact absurd (by rw [show m.stage _ = _ from hstage]; trivial) hna
    · simpa [ha] using h.unassigned a u hu hna
  · intro a u hu hnf hassigned
    by_cases ha : a = m.sys.currentThread
    · subst ha
      rw [ht] at hu
      cases hu
      exact absurd hc hnf
    · simpa [ha] using h.assigned a u hu hnf hassigned

/-! ## §4  Each step -/

theorem LastOut.snoc {k : ℕ} {r : Registers} (h : LastOut log k r) {e : UserEvent}
    (he : ∀ r', e ≠ .out (some k) r') : LastOut (log ++ [e]) k r :=
  Since.snoc h fun ⟨r', hr'⟩ => he r' hr'

/-- **Saving**: every thread that has an address space has its registers saved as
it left the processor, the one that leaves it now too. -/
theorem UserInv.save (h : UserInv m log) {t c : Thread} {x : SpaceId}
    (hc : m.sys.heap m.sys.currentThread = some c) (ht : m.sys.heap x = some t)
    (hspace : m.space x ≠ none) :
    LastOut (log ++ [.out (m.sys.tidOf m.sys.currentThread) m.registers]) t.tid
      (m.saveUserState.userRegisters x) := by
  obtain ⟨slog, hsched⟩ := h.sched
  obtain ⟨jlog, hjoin⟩ := hsched.join
  have hout : m.sys.tidOf m.sys.currentThread = some c.tid := by simp [Sys.tidOf, hc]
  rw [hout]
  by_cases hx : x = m.sys.currentThread
  · subst hx
    obtain rfl : c = t := Option.some.inj (hc.symm.trans ht)
    obtain ⟨space, hspace⟩ := Option.ne_none_iff_exists'.mp hspace
    have hsaved : m.saveUserState.userRegisters m.sys.currentThread = m.registers := by
      simp [saveUserState, hspace]
    rw [hsaved]
    exact since_snoc_self _ _ _
  · have hsaved : m.saveUserState.userRegisters x = m.userRegisters x := by
      unfold saveUserState
      split
      · rfl
      · simp [hx]
    rw [hsaved]
    refine (h.saved x t ht hx hspace).snoc fun r heq => hx ?_
    obtain ⟨htid, -⟩ := UserEvent.out.inj heq
    exact hjoin.tids.tid_inj _ _ _ _ (Sys.cores_of_heap ht) (Sys.cores_of_heap hc)
      (Option.some.inj htid).symm

/-- A `Run` that is over has put back what the thread had when it left. -/
def EventTransparent (pre : List UserEvent) : UserEvent → Prop
  | .back tid registers translation own =>
      own = some translation ∧ ∃ k, tid = some k ∧ LastOut pre k registers
  | .out _ _ => True

theorem saveUserState_frame (m : UserSys) : m.saveUserState.space = m.space ∧
    m.saveUserState.own = m.own ∧ m.saveUserState.stage = m.stage := by
  unfold saveUserState
  split
  · exact ⟨rfl, rfl, rfl⟩
  · exact ⟨rfl, rfl, rfl⟩

/-- The state after a `SWITCH`, of which every thread that has an address space
has its registers saved. -/
theorem UserInv.switched (h : UserInv m log) {n : UserSys} {log' : List UserEvent} {t : Thread}
    (hsched : ∃ log, Sys.SchedInv n.sys log) (hspace : n.space = m.space)
    (hown : n.own = m.own) (hstage : n.stage = m.stage)
    (hdesc : ∀ x t', n.sys.heap x = some t' →
      ∃ t, m.sys.heap x = some t ∧ Descends False t t')
    (hsaved : ∀ x u, m.sys.heap x = some u → m.space x ≠ none →
      LastOut log' u.tid (n.userRegisters x))
    (ht : m.sys.heap n.sys.currentThread = some t) (hc : t.cont ≠ .finished)
    (hinst : ∀ space, m.space n.sys.currentThread = some space → n.translation = space) :
    UserInv n log' := by
  refine ⟨hsched, ?_, ?_, ?_, ?_, ?_, ?_, ?_⟩
  · intro x t' ht' _ hne
    obtain ⟨u, hu, hd⟩ := hdesc x t' ht'
    rw [hd.tid]
    exact hsaved x u hu (hspace ▸ hne)
  · intro x t' ht' hfresh
    obtain ⟨u, hu, hd⟩ := hdesc x t' ht'
    rw [hstage]
    exact h.fresh x u hu (hd.fresh hfresh)
  · intro x t' ht' hna
    obtain ⟨u, hu, -⟩ := hdesc x t' ht'
    rw [hspace]
    exact h.unassigned x u hu (hstage ▸ hna)
  · rw [hstage, hown]
    exact h.constructed
  · intro x t' ht' hnf has
    obtain ⟨u, hu, hd⟩ := hdesc x t' ht'
    rw [hspace, hown]
    exact h.assigned x u hu (hd.unfinished hnf) (hstage ▸ has)
  · intro x t' ht' hin
    obtain ⟨u, hu, hd⟩ := hdesc x t' ht'
    rw [hstage]
    exact h.inProcess x u hu ((hd.inProcess hin).resolve_right id)
  · intro t' _ _ hrestored
    rw [hstage] at hrestored
    obtain ⟨space, hsp, hownsp⟩ := h.assigned _ t ht hc (by rw [hrestored]; trivial)
    rw [hown, hownsp, hinst space hsp]

/-- **`Scheduler::Run`**, from one thread to another one or to itself. -/
theorem UserInv.switch (h : UserInv m log) {a : Sys.SchedAct} {s₁ : Sys}
    (hs₁ : m.sys.atSwitch a = some s₁) (hm : m.switch s₁ = some m') :
    UserInv m' (log ++ (.out (m.sys.tidOf m.sys.currentThread) m.registers :: m'.backEvents)) ∧
      LogExtends EventTransparent log
        (.out (m.sys.tidOf m.sys.currentThread) m.registers :: m'.backEvents) := by
  unfold UserSys.switch at hm
  split at hm
  · cases hm
  rename_i t₁ ht₁
  obtain ⟨s', hback, hm'⟩ := Option.map_eq_some_iff.mp hm
  obtain ⟨slog, hsched⟩ := h.sched
  obtain ⟨hstep, hev, hcur', c, hc⟩ := Sys.schedStep_of_atSwitch hs₁ hback
  have hsched' : ∃ log, Sys.SchedInv s' log := ⟨_, (Sys.schedInv_step hsched hstep).1⟩
  have hdesc : ∀ x t', s'.heap x = some t' →
      ∃ t, m.sys.heap x = some t ∧ Descends False t t' := by
    intro x t' ht'
    obtain ⟨hnone, hstart⟩ : a.creates = none ∧ a ≠ .act .start := by
      rcases Sys.atSwitch_act hs₁ with rfl | rfl <;> simp [Sys.SchedAct.creates]
    rcases Sys.schedStep_descends hstep ht' with ⟨hcreates, -⟩ | ⟨u, hu, hd⟩
    · rw [hnone] at hcreates
      cases hcreates
    · exact ⟨u, hu, hd.mono fun hst => hstart hst.1⟩
  -- the thread that is switched to, as it was before
  obtain ⟨t, ht, hevol⟩ := hev _ t₁ ht₁
  have hd₁ := hevol.descends False
  have hnofin : t.cont ≠ .finished :=
    hd₁.unfinished ((hsched.atSwitch hs₁).1.next_not_finished ht₁)
  obtain ⟨hspace, hown, hstage⟩ := saveUserState_frame m
  let out : UserEvent := .out (m.sys.tidOf m.sys.currentThread) m.registers
  have hsave : ∀ x u, m.sys.heap x = some u → m.space x ≠ none →
      LastOut (log ++ [out]) u.tid (m.saveUserState.userRegisters x) :=
    fun x u hu hne => h.save hc hu hne
  have hcur : ∀ (n : UserSys), n.sys = s' → m.sys.heap n.sys.currentThread = some t := by
    rintro n rfl
    rw [hcur']
    exact ht
  cases hsp : m.space s₁.currentThread with
  | none =>
      -- nothing to put back
      have hm₁ : m' = { m.saveUserState with sys := s' } := by
        rw [← hm']
        dsimp only
        split
        · rfl
        · simp [restoreUserState, hspace, hcur', hsp]
      have hev' : m'.backEvents = [] := by
        simp [hm₁, backEvents, hspace, hcur', hsp]
      rw [hev']
      refine ⟨?_, ?_⟩
      · rw [hm₁]
        refine h.switched hsched' hspace hown hstage hdesc hsave (hcur _ rfl) hnofin ?_
        intro space hsome
        rw [show m.space s'.currentThread = none from hcur' ▸ hsp] at hsome
        cases hsome
      · exact logExtends_cons trivial (logExtends_nil _ _)
  | some space =>
      have hnofresh : t₁.cont ≠ .fresh := by
        intro hfresh
        have hopen := h.fresh _ t ht (hd₁.fresh hfresh)
        have hnone := h.unassigned _ t ht (by rw [hopen]; exact id)
        rw [hsp] at hnone
        cases hnone
      have hm₁ : m' = { m.saveUserState with
          sys := s'
          registers := m.saveUserState.userRegisters s₁.currentThread
          translation := space } := by
        rw [← hm']
        simp [hnofresh, restoreUserState, hspace, hcur', hsp]
      obtain ⟨u, hu⟩ : ∃ u, s'.heap s₁.currentThread = some u := by
        obtain ⟨slog', hsched''⟩ := hsched'
        rw [← hcur']
        exact hsched''.list.current
      obtain ⟨u₀, hu₀, hdu⟩ := hdesc _ u hu
      obtain rfl : t = u₀ := Option.some.inj (ht.symm.trans hu₀)
      have hlast := hsave _ t ht (by simp [hsp])
      have hown₁ : m.own s₁.currentThread = some space := by
        have has : (m.stage s₁.currentThread).Assigned := by
          by_contra hna
          rw [h.unassigned _ t ht hna] at hsp
          cases hsp
        obtain ⟨space', hspace', hown'⟩ := h.assigned _ t ht hnofin has
        rw [hsp] at hspace'
        cases hspace'
        exact hown'
      have hev' : m'.backEvents = [.back (some t.tid)
          (m.saveUserState.userRegisters s₁.currentThread) space (some space)] := by
        simp [hm₁, backEvents, hspace, hcur', hsp, hown, hown₁, Sys.tidOf, hu, hdu.tid]
      rw [hev']
      refine ⟨?_, ?_⟩
      · rw [hm₁]
        refine h.switched hsched' hspace hown hstage hdesc ?_ (hcur _ rfl) hnofin ?_
        · intro x v hv hne
          have hout : LastOut (log ++ [out]) v.tid (m.saveUserState.userRegisters x) :=
            hsave x v hv hne
          have hgrown := hout.snoc (e := .back (some t.tid)
            (m.saveUserState.userRegisters s₁.currentThread) space (some space)) (by simp)
          rwa [List.append_assoc] at hgrown
        · intro space' hsome
          rw [show m.space s'.currentThread = some space from hcur' ▸ hsp] at hsome
          exact Option.some.inj hsome
      · exact logExtends_cons trivial
          (logExtends_cons ⟨rfl, t.tid, rfl, hlast⟩ (logExtends_nil _ _))

/-- **A step of `StartProcess`**: the running thread sets up its own fields. -/
theorem UserInv.advance (h : UserInv m log) (hat : m.sys.At .starting) (registers : Registers)
    (translation : Translation) (space own : Option Translation) (stage : Stage)
    (hunassigned : ¬ stage.Assigned → space = none)
    (hconstructed : ∀ sp, stage = .constructed sp → own = some sp)
    (hassigned : stage.Assigned → ∃ sp, space = some sp ∧ own = some sp)
    (hinstalled : stage = .restored → own = some translation) :
    UserInv { m with
      registers := registers
      translation := translation
      space := Function.update m.space m.sys.currentThread space
      own := Function.update m.own m.sys.currentThread own
      stage := Function.update m.stage m.sys.currentThread stage } log := by
  obtain ⟨c, hc, -, hcont⟩ := hat
  have hself : ∀ {t}, m.sys.heap m.sys.currentThread = some t → t.cont = .starting := by
    intro t ht
    obtain rfl : c = t := Option.some.inj (hc.symm.trans ht)
    exact hcont
  refine ⟨h.sched, ?_, ?_, ?_, ?_, ?_, ?_, ?_⟩
  · intro a t ht ha hne
    exact h.saved a t ht ha (by simpa [show a ≠ m.sys.currentThread from ha] using hne)
  · intro a t ht hfresh
    by_cases ha : a = m.sys.currentThread
    · subst ha
      rw [hself ht] at hfresh
      cases hfresh
    · simpa [ha] using h.fresh a t ht hfresh
  · intro a t ht hna
    by_cases ha : a = m.sys.currentThread
    · subst ha
      simp only [Function.update_self] at hna ⊢
      exact hunassigned hna
    · simp only [Function.update_of_ne ha] at hna ⊢
      exact h.unassigned a t ht hna
  · intro a sp hst
    by_cases ha : a = m.sys.currentThread
    · subst ha
      simp only [Function.update_self] at hst ⊢
      exact hconstructed sp hst
    · simp only [Function.update_of_ne ha] at hst ⊢
      exact h.constructed a sp hst
  · intro a t ht hnf has
    by_cases ha : a = m.sys.currentThread
    · subst ha
      simp only [Function.update_self] at has ⊢
      exact hassigned has
    · simp only [Function.update_of_ne ha] at has ⊢
      exact h.assigned a t ht hnf has
  · intro a t ht hin
    by_cases ha : a = m.sys.currentThread
    · subst ha
      rw [hself ht] at hin
      exact absurd hin id
    · simpa [ha] using h.inProcess a t ht hin
  · intro t ht hnf hrestored
    simp only [Function.update_self] at hrestored ⊢
    exact hinstalled hrestored

/-- **A step of the scheduler** that is no `SWITCH`. -/
theorem UserInv.sched_step (h : UserInv m log) {a : Sys.SchedAct} {s' : Sys}
    (freed : Translation) (hyield : a ≠ .act .yield) (hdispatch : a ≠ .act .dispatch)
    (hstart : a = .act .start → m.stage m.sys.currentThread = .restored)
    (hstep : m.sys.schedStep a = some s') : UserInv (m.sched a freed s') log := by
  have hcur := Sys.schedStep_currentThread hyield hdispatch hstep
  obtain ⟨slog, hsched⟩ := h.sched
  have hsched' : ∃ log, Sys.SchedInv s' log := ⟨_, (Sys.schedInv_step hsched hstep).1⟩
  have hdesc : ∀ x t', s'.heap x = some t' → (a.creates = some x ∧ t'.cont = .fresh) ∨
      ∃ t, m.sys.heap x = some t ∧ Descends (m.stage x = .restored) t t' := by
    intro x t' ht'
    rcases Sys.schedStep_descends hstep ht' with hnew | ⟨t, ht, hd⟩
    · exact Or.inl hnew
    · refine Or.inr ⟨t, ht, hd.mono ?_⟩
      rintro ⟨hst, rfl⟩
      exact hstart hst
  have keep : a.creates = none → UserInv { m with sys := s' } log := by
    intro hnone
    refine h.sched_keep hsched' hcur fun x t' ht' => ?_
    rcases hdesc x t' ht' with ⟨hcreates, -⟩ | hold
    · rw [hnone] at hcreates
      cases hcreates
    · exact Or.inr hold
  -- a new thread starts with nothing
  have create : ∀ tmp, a.creates = some tmp → m.sys.heap tmp = none →
      tmp ≠ m.sys.currentThread → UserInv { m with
        sys := s'
        space := Function.update m.space tmp none
        own := Function.update m.own tmp none
        stage := Function.update m.stage tmp .opening } log := by
    intro tmp hcreates hfree hne
    refine (h.reset hfree hne).sched_keep hsched' hcur fun x t' ht' => ?_
    rcases hdesc x t' ht' with ⟨hx, hfresh⟩ | ⟨t, ht, hd⟩
    · obtain rfl : tmp = x := Option.some.inj (hcreates.symm.trans hx)
      exact Or.inl ⟨hfresh, by simp, by simp⟩
    · have hx : x ≠ tmp := by
        rintro rfl
        rw [hfree] at ht
        cases ht
      refine Or.inr ⟨t, ht, ?_⟩
      simpa [hx] using hd
  cases Sys.schedStep_cases hstep with
  | act a s' hact =>
      cases hact with
      | exec tmp prio t s' ht hst hc hnull hfree _ =>
          refine create tmp rfl hfree ?_
          rintro rfl
          rw [ht] at hfree
          cases hfree
      | exit code t s' ht hc hexit =>
          have hkeep := keep rfl
          obtain ⟨-, t', ht', hfin⟩ := Sys.exit_currentThread hexit ht
          have hrestored : m.stage m.sys.currentThread = .restored :=
            h.inProcess _ t ht (by rw [hc]; trivial)
          have hfreed := hkeep.free (t := t') (by simpa only [hcur] using ht') hfin
            (by simpa only [hcur] using hrestored) freed
          rw [hcur] at hfreed
          exact hfreed
      | tick => exact keep rfl
      | yield t s' ht _ => exact absurd rfl hyield
      | dispatch t s' ht _ => exact absurd rfl hdispatch
      | start t ht hc => exact keep rfl
      | join id stale t s' ht hc _ => exact keep rfl
      | resume id spid t s' ht hc _ => exact keep rfl
      | kill t s' ht hc _ => exact keep rfl
  | fork tmp prio s' hawake hnull hfree _ =>
      obtain ⟨t, ht, -⟩ := hawake
      refine create tmp rfl hfree ?_
      rintro rfl
      rw [ht] at hfree
      cases hfree
  | sleep t ht hst hc => exact keep rfl
  | finish t s' ht hst hc _ => exact keep rfl

/-- A thread that is setting itself up has the address space it made. -/
theorem UserInv.own_of_assigned (h : UserInv m log) (hat : m.sys.At .starting)
    (has : (m.stage m.sys.currentThread).Assigned) {space : Translation}
    (hsp : m.space m.sys.currentThread = some space) :
    m.own m.sys.currentThread = some space := by
  obtain ⟨t, ht, -, hcont⟩ := hat
  obtain ⟨space', hsp', hown⟩ := h.assigned _ t ht (by simp [hcont]) has
  rw [hsp] at hsp'
  cases hsp'
  exact hown

theorem step_sched {a : Sys.SchedAct} {freed : Translation} (hyield : a ≠ .act .yield)
    (hdispatch : a ≠ .act .dispatch) (hstart : a ≠ .act .start) :
    m.step (.sched a freed) = (m.sys.schedStep a).map (m.sched a freed) := by
  unfold step
  split <;> simp_all

theorem event_sched {a : Sys.SchedAct} {freed : Translation} (hyield : a ≠ .act .yield)
    (hdispatch : a ≠ .act .dispatch) : m.event (.sched a freed) = [] := by
  unfold event
  split <;> simp_all

/-- **The step lemma.** -/
theorem userInv_step {a : UserAct} (h : UserInv m log) (hstep : m.step a = some m') :
    UserInv m' (log ++ m.event a) ∧ LogExtends EventTransparent log (m.event a) := by
  have quiet : m.event a = [] → UserInv m' log →
      UserInv m' (log ++ m.event a) ∧ LogExtends EventTransparent log (m.event a) := by
    intro hev hi
    rw [hev, List.append_nil]
    exact ⟨hi, logExtends_nil _ _⟩
  have hswitch : m.switchEvents a =
      .out (m.sys.tidOf m.sys.currentThread) m.registers :: m'.backEvents := by
    simp [switchEvents, hstep]
  have hsame : ∀ (f : SpaceId → Option Translation),
      Function.update f m.sys.currentThread (f m.sys.currentThread) = f :=
    fun f => Function.update_eq_self _ f
  cases a with
  | sched a freed =>
      by_cases hyield : a = .act .yield
      · subst hyield
        obtain ⟨s₁, hs₁, hm⟩ := Option.bind_eq_some_iff.mp hstep
        rw [show m.event (.sched (.act .yield) freed) = _ from hswitch]
        exact h.switch hs₁ hm
      by_cases hdispatch : a = .act .dispatch
      · subst hdispatch
        obtain ⟨s₁, hs₁, hm⟩ := Option.bind_eq_some_iff.mp hstep
        rw [show m.event (.sched (.act .dispatch) freed) = _ from hswitch]
        exact h.switch hs₁ hm
      obtain ⟨s', hstart, hsched, rfl⟩ : ∃ s',
          (a = .act .start → m.stage m.sys.currentThread = .restored) ∧
            m.sys.schedStep a = some s' ∧ m.sched a freed s' = m' := by
        by_cases hst : a = .act .start
        · subst hst
          obtain ⟨hrestored, hm⟩ := Option.ite_none_right_eq_some.mp hstep
          obtain ⟨s', hs', hm⟩ := Option.map_eq_some_iff.mp hm
          exact ⟨s', fun _ => hrestored, hs', hm⟩
        · rw [step_sched hyield hdispatch hst] at hstep
          obtain ⟨s', hs', hm⟩ := Option.map_eq_some_iff.mp hstep
          exact ⟨s', fun heq => absurd heq hst, hs', hm⟩
      exact quiet (event_sched hyield hdispatch)
        (h.sched_step freed hyield hdispatch hstart hsched)
  | newAddrSpace space =>
      obtain ⟨⟨hat, hopen⟩, hm⟩ := Option.ite_none_right_eq_some.mp hstep
      cases hm
      have hnone : m.space m.sys.currentThread = none := by
        obtain ⟨t, ht, -⟩ := hat
        exact h.unassigned _ t ht (by rw [hopen]; exact id)
      have hadv := h.advance hat m.registers space (m.space m.sys.currentThread) (some space)
        (.constructed space) (fun _ => hnone)
        (fun sp hsp => by cases hsp; rfl) (fun has => absurd has id)
        (fun hst => by cases hst)
      rw [hsame] at hadv
      exact quiet rfl hadv
  | setSpace =>
      simp only [step] at hstep
      split at hstep
      · rename_i space hst
        obtain ⟨hat, hm⟩ := Option.ite_none_right_eq_some.mp hstep
        cases hm
        have hown := h.constructed _ _ hst
        have hadv := h.advance hat m.registers m.translation (some space)
          (m.own m.sys.currentThread) .assigned (fun hna => absurd trivial hna)
          (fun sp hsp => by cases hsp) (fun _ => ⟨space, rfl, hown⟩) (fun hst => by cases hst)
        rw [hsame] at hadv
        exact quiet rfl hadv
      · cases hstep
  | initRegisters =>
      simp only [step] at hstep
      split at hstep
      · cases hstep
      · rename_i space hsp
        obtain ⟨⟨hat, hst⟩, hm⟩ := Option.ite_none_right_eq_some.mp hstep
        cases hm
        have hown := h.own_of_assigned hat (by rw [hst]; trivial) hsp
        have hadv := h.advance hat (MemoryManagement.initRegisters space.size) m.translation
          (m.space m.sys.currentThread) (m.own m.sys.currentThread) .initialized
          (fun hna => absurd trivial hna) (fun sp hsp => by cases hsp)
          (fun _ => ⟨space, hsp, hown⟩) (fun hst => by cases hst)
        rw [hsame, hsame] at hadv
        exact quiet rfl hadv
  | restoreState =>
      simp only [step] at hstep
      split at hstep
      · cases hstep
      · rename_i space hsp
        obtain ⟨⟨hat, hst⟩, hm⟩ := Option.ite_none_right_eq_some.mp hstep
        cases hm
        have hown := h.own_of_assigned hat (by rw [hst]; trivial) hsp
        have hadv := h.advance hat m.registers space (m.space m.sys.currentThread)
          (m.own m.sys.currentThread) .restored (fun hna => absurd trivial hna)
          (fun sp hsp => by cases hsp) (fun _ => ⟨space, hsp, hown⟩) (fun _ => hown)
        rw [hsame, hsame] at hadv
        exact quiet rfl hadv
  | user registers =>
      obtain ⟨-, hm⟩ := Option.ite_none_right_eq_some.mp hstep
      cases hm
      exact quiet rfl ⟨h.sched, h.saved, h.fresh, h.unassigned, h.constructed, h.assigned,
        h.inProcess, h.installed⟩

/-! ## §5  Runs -/

theorem userInv_init (algorithm : Algorithm) {main : SpaceId} (hmain : main ≠ NULL)
    (registers : Registers) (translation : Translation) (userRegisters : SpaceId → Registers) :
    UserInv (init algorithm main registers translation userRegisters) [] where
  sched := ⟨[], Sys.schedInv_init algorithm hmain⟩
  saved := fun _ _ _ _ hspace => absurd rfl hspace
  fresh := fun _ _ _ _ => rfl
  unassigned := fun _ _ _ _ => rfl
  constructed := fun _ _ hst => by cases hst
  assigned := fun _ _ _ _ has => absurd has id
  inProcess := by
    intro a t ht hin
    by_cases ha : a = main
    · subst ha
      simp only [init, Sys.init, Function.update_self] at ht
      cases ht
      exact absurd hin id
    · simp [init, Sys.init, ha] at ht
  installed := fun _ _ _ hst => by cases hst

theorem userInv_run (algorithm : Algorithm) {main : SpaceId} (hmain : main ≠ NULL)
    (registers : Registers) (translation : Translation) (userRegisters : SpaceId → Registers)
    {as : List UserAct} {m : UserSys} {log : List UserEvent}
    (hrun : PartialMachine.run (logged step event)
      (init algorithm main registers translation userRegisters, []) as = some (m, log)) :
    UserInv m log ∧ LogAll EventTransparent log := by
  refine run_induction (motive := fun _ c => UserInv c.1 c.2 ∧ LogAll EventTransparent c.2)
    ⟨userInv_init algorithm hmain registers translation userRegisters, logAll_nil _⟩ ?_ as
    (m, log) hrun
  rintro as ⟨m, log⟩ a ⟨m', log'⟩ - ⟨hi, hlog⟩ hstep
  obtain ⟨hstep, rfl⟩ := logged_eq_some.mp hstep
  obtain ⟨hi', hok⟩ := userInv_step hi hstep
  exact ⟨hi', logAll_append.mpr ⟨hlog, hok⟩⟩

/-- A process has its address space, and its translation is in the machine while
it executes user code. -/
def OwnTranslation (m : UserSys) : Prop :=
  (∀ a t, m.sys.heap a = some t → t.cont.InProcess →
    ∃ space, m.space a = some space ∧ m.own a = some space) ∧
  (m.sys.At .user → m.own m.sys.currentThread = some m.translation)

theorem UserInv.ownTranslation (h : UserInv m log) : OwnTranslation m := by
  constructor
  · intro a t ht hin
    refine h.assigned a t ht ?_ (by rw [h.inProcess a t ht hin]; trivial)
    intro hc
    rw [hc] at hin
    exact hin
  · rintro ⟨t, ht, -, hc⟩
    exact h.installed t ht (by simp [hc]) (h.inProcess _ t ht (by rw [hc]; trivial))

/-- **A context switch is transparent to the user registers**, in every run: a
`Run` that is over in a thread that has an address space leaves in the machine the
registers with which this thread last left the processor, and the page table of
the address space it made. -/
theorem user_state_transparent (algorithm : Algorithm) (main : SpaceId) (hmain : main ≠ NULL)
    (registers : Registers) (translation : Translation) (userRegisters : SpaceId → Registers)
    (as : List UserAct) (m : UserSys) (log : List UserEvent)
    (hrun : PartialMachine.run (logged step event)
      (init algorithm main registers translation userRegisters, []) as = some (m, log)) :
    LogAll EventTransparent log ∧ OwnTranslation m := by
  obtain ⟨hi, hlog⟩ := userInv_run algorithm hmain registers translation userRegisters hrun
  exact ⟨hlog, hi.ownTranslation⟩

/-- The main thread starts its process, is switched to itself, and starts a child
at 2. This one leaves the processor in the middle of `StartProcess`, twice, and
then as a process. -/
def switchInStartProcess : List UserAct :=
  let mainSpace : Translation := ⟨100, 12⟩
  let childSpace : Translation := ⟨200, 20⟩
  let yield : UserAct := .sched (.act .yield) ⟨0, 0⟩
  [.newAddrSpace mainSpace, .setSpace, .initRegisters, .restoreState,
    .sched (.act .start) ⟨0, 0⟩, .user fun i => i.val, yield,
    .sched (.act (.exec 2 0)) ⟨0, 0⟩, yield, .newAddrSpace childSpace, yield, yield,
    .setSpace, yield, .user fun i => 2 * i.val, yield, .initRegisters, .restoreState,
    .sched (.act .start) ⟨0, 0⟩, .user fun i => 3 * i.val, yield]

theorem user_state_transparent_switchInStartProcess : ∃ m log,
    PartialMachine.run (logged step event)
      (init .a1 1 (fun _ => 0) ⟨0, 0⟩ fun _ _ => 0, []) switchInStartProcess = some (m, log) ∧
    m.sys.At .user ∧ m.registers PCReg = 68 ∧ m.translation = ⟨100, 12⟩ ∧
    LogAll EventTransparent log ∧ OwnTranslation m := by
  have hend : (PartialMachine.run (logged step event)
      (init .a1 1 (fun _ => 0) ⟨0, 0⟩ fun _ _ => 0, []) switchInStartProcess).map
        (fun c => decide (c.1.sys.At .user ∧ c.1.registers PCReg = 68 ∧
          c.1.translation = ⟨100, 12⟩)) = some true := by decide +kernel
  obtain ⟨⟨m, log⟩, hrun, hend⟩ := Option.map_eq_some_iff.mp hend
  obtain ⟨hat, hpc, htr⟩ := of_decide_eq_true hend
  exact ⟨m, log, hrun, hat, hpc, htr, user_state_transparent .a1 1 (by decide) (fun _ => 0)
    ⟨0, 0⟩ (fun _ _ => 0) _ m log hrun⟩

end UserSys

end OsAssignments.MemoryManagement
