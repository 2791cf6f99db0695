import OsAssignments.MemoryManagement.Multiprogramming

/-!
# What a program computes

A program that shares the machine computes what it would compute alone, on a processor
with all of its memory there and without traps, interrupts and switches.

- `flatRun` — that processor.
- `Simulated` — some steps of the machine, seen by one process, are instructions of
  `flatRun`; each step is none or one, and `Simulated.trans` puts them together.
- `simulated_run` — so is every run in which the process makes no system call.
-/

namespace OsAssignments.MemoryManagement

open PartialMachine

/-! ## §1  The flat processor -/

/-- An instruction that does not trap. -/
def flatStep (numPages : ℕ) (s : Registers × ByteMem) : Option (Registers × ByteMem) :=
  match Machine.oneInstruction (flatMemory numPages) s.1 s.2 with
  | some (.done registers memory) => some (registers, memory)
  | _ => none

def flatRun (numPages : ℕ) : ℕ → Registers × ByteMem → Option (Registers × ByteMem)
  | 0, s => some s
  | n + 1, s => (flatStep numPages s).bind (flatRun numPages n)

/-- None of the first `n` instructions meets a hazard. -/
def HazardFreeRun (numPages n : ℕ) (s : Registers × ByteMem) : Prop :=
  ∀ i < n, ∀ s' ∈ flatRun numPages i s, HazardFree (flatMemory numPages) s'.1 s'.2

instance (numPages n : ℕ) (s : Registers × ByteMem) :
    Decidable (HazardFreeRun numPages n s) :=
  inferInstanceAs (Decidable (∀ i < n, ∀ s' ∈ flatRun numPages i s, _))

section

variable {numPages n m : ℕ} {s s' : Registers × ByteMem}

theorem flatRun_add : flatRun numPages (n + m) s =
    (flatRun numPages n s).bind (flatRun numPages m) := by
  induction n generalizing s with
  | zero =>
      rw [Nat.zero_add]
      rfl
  | succ n ih =>
      rw [Nat.succ_add]
      change (flatStep numPages s).bind (flatRun numPages (n + m)) =
        ((flatStep numPages s).bind (flatRun numPages n)).bind _
      rw [Option.bind_assoc]
      congr 1
      funext s'
      exact ih

theorem HazardFreeRun.left (h : HazardFreeRun numPages (n + m) s) :
    HazardFreeRun numPages n s :=
  fun i hi => h i (by omega)

theorem HazardFreeRun.right (h : HazardFreeRun numPages (n + m) s)
    (hrun : flatRun numPages n s = some s') : HazardFreeRun numPages m s' := by
  intro i hi s'' hs''
  apply h (n + i) (by omega)
  rw [flatRun_add, hrun]
  exact hs''

theorem flatStep_eq_some (hs : s.1.Sane) :
    flatStep numPages s = some s' ↔
      Executes (flatMemory numPages) s.1 s.2 (.done s'.1 s'.2) := by
  constructor
  · intro h
    apply executes_of_some hs.load
    unfold flatStep at h
    split at h
    · rename_i hone
      cases h
      exact hone
    · cases h
  · intro h
    unfold flatStep
    rw [some_of_executes hs.load h]

end

/-! ## §2  Whose step it is -/

namespace Sys

variable {s s' : Sys} {log : List Event} {x : SpaceId} {p : ℕ}

/-- Process `p` is thread `x`, and has begun. -/
def Begun (s : Sys) (x : SpaceId) (p : ℕ) : Prop :=
  ∃ t, s.heap x = some t ∧ t.tid = p ∧ t.cont.InProcess

theorem begun_back {a : Act} (hstep : s.step a = some s') (ha : a ≠ .start)
    (h : s'.Begun x p) : s.Begun x p := by
  obtain ⟨t', ht', rfl, hin⟩ := h
  rcases schedStep_descends (a := .act a) hstep ht' with ⟨-, hfresh⟩ | ⟨t, ht, hdesc⟩
  · rw [hfresh] at hin
    exact hin.elim
  · refine ⟨t, ht, hdesc.tid.symm, ?_⟩
    rcases hdesc.inProcess hin with hin | ⟨hstart, -⟩
    · exact hin
    · exact absurd (SchedAct.act.inj hstart) ha

theorem Begun.other (hi : Inv s log) (h : s.Begun x p) (hne : s.currentThread ≠ x)
    {t : Thread} (ht : s.heap s.currentThread = some t) : p ≠ t.tid := by
  rintro rfl
  obtain ⟨u, hu, htid, -⟩ := h
  exact hne (tid_inj hi ht hu htid.symm).1

end Sys

namespace Kernel

variable {k k' : Kernel} {x : SpaceId} {p n : ℕ}

/-- **A step of another process.** -/
theorem step_leavesAlone {a : Act} (hi : Inv k) (h : k.sys.Begun x p)
    (hne : k.sys.currentThread ≠ x) (hstep : k.step a = some k') :
    Vm.LeavesAlone p k.vm k'.vm := by
  have hother : ∀ {t}, k.sys.heap k.sys.currentThread = some t → p ≠ t.tid := by
    obtain ⟨log, hl⟩ := hi.sys
    exact h.other hl hne
  cases step_effect hstep with
  | schedule | killed | overflow => exact Vm.LeavesAlone.refl p k.vm
  | start t executable sys vm ht hs hvm => exact Vm.construct_leavesAlone hi.frames hvm
  | exit t code sys vm ht hvm hs => exact Vm.destroy_leavesAlone hi.frames (hother ht) hvm
  | load t q addr size value vm hat ht hq hvm =>
      obtain rfl := hi.own_table hat ht hq
      exact Vm.readMem_leavesAlone hi.frames (hother ht) hvm
  | store t q addr size value vm hat ht hq hvm =>
      obtain rfl := hi.own_table hat ht hq
      exact Vm.writeMem_leavesAlone hi.frames (hother ht) hvm
  | fault t page vm hat ht hvm => exact Vm.fault_leavesAlone hi.frames (hother ht) hvm
  | noFrame t page vm sys ht hvm hs =>
      exact Vm.fault_leavesAlone hi.frames (hother ht) hvm

/-- Its system calls. -/
theorem run_leavesAlone (hi : Inv k) : ∀ {acts : List Act},
    acts.all Act.inSysCall = true → run Kernel.step k acts = some k' →
      k'.sys.Begun x p → k.sys.currentThread ≠ x →
      k.sys.Begun x p ∧ Vm.LeavesAlone p k.vm k'.vm := by
  intro acts
  induction acts generalizing k with
  | nil =>
      intro _ hrun h _
      cases hrun
      exact ⟨h, Vm.LeavesAlone.refl p _⟩
  | cons a acts ih =>
      intro hall hrun h hne
      rw [List.all_cons, Bool.and_eq_true] at hall
      obtain ⟨k₁, hk₁, hrest⟩ := Option.bind_eq_some_iff.mp (run_cons k a acts ▸ hrun)
      have hstays := step_stays (Act.stays_of_inSysCall hall.1) hk₁
      obtain ⟨hbegun, hlater⟩ :=
        ih (hi.step hk₁) hall.2 hrest h (by rwa [hstays.currentThread])
      have hback : k.sys.Begun x p := by
        rcases hstays with heq | ⟨b, hb, -, -, hs⟩
        · rwa [← heq]
        · exact Sys.begun_back hb hs hbegun
      exact ⟨hback, (step_leavesAlone hi hback hne hk₁).trans hlater⟩

/-- Its accesses. -/
theorem accesses_leavesAlone {q : ℕ} (hi : FrameInv k.vm) (hne : p ≠ q) {r : Registers}
    {t : Turn Vm} (h : Executes (Vm.userMemory q) r k.vm t) :
    Vm.LeavesAlone p k.vm t.memory := by
  have hboth : FrameInv t.memory ∧ Vm.LeavesAlone p k.vm t.memory := by
    refine h.memory_inv (I := fun vm => FrameInv vm ∧ Vm.LeavesAlone p k.vm vm)
      ⟨hi, Vm.LeavesAlone.refl p k.vm⟩ ?_ ?_
    · rintro vm vm' addr size value ⟨hi, halone⟩ hread
      rw [Vm.userMemory_readMem] at hread
      exact ⟨hi.readMem hread, halone.trans (Vm.readMem_leavesAlone hi hne hread)⟩
    · rintro vm vm' addr size value ⟨hi, halone⟩ hwrite
      rw [Vm.userMemory_writeMem] at hwrite
      exact ⟨hi.writeMem hwrite, halone.trans (Vm.writeMem_leavesAlone hi hne hwrite)⟩
  exact hboth.2

theorem switch_vm {a : Act} (ha : a = .yield ∨ a = .dispatch) (hstep : k.step a = some k') :
    k'.vm = k.vm := by
  have hrestore : ∀ {b : Sys.Act}, (k.sysStep b).map restore = some k' → k'.vm = k.vm := by
    intro b h
    obtain ⟨k₁, hk₁, rfl⟩ := Option.map_eq_some_iff.mp h
    obtain ⟨sys, -, rfl⟩ := sysStep_eq_some.mp hk₁
    obtain ⟨pt, hpt⟩ := restore_eq ⟨sys, k.vm, k.pageTable⟩
    rw [hpt]
  rcases ha with rfl | rfl <;> exact hrestore hstep

/-- **The handler of a process's own trap** changes its memory by page faults only. -/
theorem handler_own {which : ExceptionType} {badVAddr : BitVec 32} {t : Thread}
    (ht : k.sys.heap k.sys.currentThread = some t) (hp : HasPages t.tid n k.vm)
    (h : k.exceptionHandler which badVAddr = some k') :
    HasPages t.tid n k'.vm ∧ ∀ M, Shows t.tid k'.vm M → Shows t.tid k.vm M := by
  obtain ⟨hi, hpages⟩ := hp
  have hkill : k.sysStep .kill = some k' →
      HasPages t.tid n k'.vm ∧ ∀ M, Shows t.tid k'.vm M → Shows t.tid k.vm M := by
    intro hk
    obtain ⟨sys, -, rfl⟩ := sysStep_eq_some.mp hk
    exact ⟨⟨hi, hpages⟩, fun M hM => hM⟩
  cases which with
  | PageFaultException =>
      simp only [exceptionHandler, Option.bind_eq_bind, Option.bind_eq_some_iff] at h
      obtain ⟨u, hu, page, -, ⟨loaded, vm⟩, hvm, h⟩ := h
      obtain rfl : u = t := Option.some.inj (hu.symm.trans ht)
      have hkvm : k'.vm = vm := by
        cases loaded with
        | true =>
            cases h
            rfl
        | false =>
            obtain ⟨sys, -, rfl⟩ := sysStep_eq_some.mp h
            rfl
      rw [hkvm]
      refine ⟨⟨hi.fault hvm, ?_⟩, fun M => Shows.fault hi hvm⟩
      obtain ⟨sp, hsp, hpage, -, rfl, -⟩ := fault_inv hvm
      obtain ⟨sp', hsp', hn⟩ := hpages
      obtain rfl : sp' = sp := Option.some.inj (hsp'.symm.trans hsp)
      refine ⟨_, Function.update_self .., ?_⟩
      rw [AddrSpace.numPages_load (hi.wf _ _ hsp) hpage, hn]
  | ReadOnlyException => exact hkill h
  | BusErrorException => exact hkill h
  | AddressErrorException => exact hkill h
  | IllegalInstrException => exact hkill h
  | OverflowException =>
      cases h
      exact ⟨⟨hi, hpages⟩, fun M hM => hM⟩
  | NoException => cases h
  | SyscallException => cases h

end Kernel

/-! ## §3  One process -/

def ComputerAct.isSysCall : ComputerAct → Bool
  | .sysCall _ _ => true
  | _ => false

namespace Computer

/-- Thread `x` is in the program of process `p`. -/
def Computing (x : SpaceId) (p : ℕ) (c : Computer) : Prop :=
  ∃ t, c.kernel.sys.heap x = some t ∧ t.tid = p ∧ t.cont = .user

/-- The process goes on with its program, and makes no system call. -/
def NoSysCall (x : SpaceId) (p : ℕ) (c : Computer) (a : ComputerAct) : Prop :=
  c.Computing x p ∧
    (c.kernel.sys.currentThread = x → a.isSysCall = false)

instance (x : SpaceId) (p : ℕ) (c : Computer) : Decidable (c.Computing x p) :=
  match h : c.kernel.sys.heap x with
  | none => isFalse (by
      rintro ⟨t, ht, -⟩
      rw [h] at ht
      cases ht)
  | some t =>
      if hc : t.tid = p ∧ t.cont = .user then isTrue ⟨t, h, hc⟩
      else isFalse (by
        rintro ⟨t', ht', hc'⟩
        rw [h] at ht'
        cases ht'
        exact hc hc')

instance (x : SpaceId) (p : ℕ) (c : Computer) (a : ComputerAct) :
    Decidable (NoSysCall x p c a) := inferInstanceAs (Decidable (_ ∧ _))

/-- How many instructions of thread `x` the step completes. -/
def retires (x : SpaceId) (c : Computer) (a : ComputerAct) : ℕ :=
  match a with
  | .instruction =>
      if c.kernel.sys.currentThread = x then
        match c.turn with
        | some (.done _ _) => 1
        | _ => 0
      else 0
  | _ => 0

def retired (x : SpaceId) : Computer → List ComputerAct → ℕ
  | _, [] => 0
  | c, a :: as =>
      match c.step a with
      | some c' => c.retires x a + retired x c' as
      | none => 0

/-- What process `p` sees of the way from `c` to `c'` is `n` instructions of the flat
processor. -/
def Simulated (x : SpaceId) (p numPages n : ℕ) (c c' : Computer) : Prop :=
  ∀ M', Shows p c'.kernel.vm M' → ∃ M, Shows p c.kernel.vm M ∧
    ∀ R : Registers, R.Settles (c.registersOf x) → R.Sane →
      HazardFreeRun numPages n (R, M) →
      ∃ R', flatRun numPages n (R, M) = some (R', M') ∧
        R'.Settles (c'.registersOf x) ∧ R'.Sane

variable {c c' c'' : Computer} {x : SpaceId} {p numPages n m : ℕ}

theorem Simulated.trans (h : Simulated x p numPages n c c')
    (h' : Simulated x p numPages m c' c'') : Simulated x p numPages (n + m) c c'' := by
  intro M'' hM''
  obtain ⟨M', hM', hrun'⟩ := h' M'' hM''
  obtain ⟨M, hM, hrun⟩ := h M' hM'
  refine ⟨M, hM, fun R hs hR hfree => ?_⟩
  obtain ⟨R', hR', hs', hsane'⟩ := hrun R hs hR hfree.left
  obtain ⟨R'', hR'', hs'', hsane''⟩ := hrun' R' hs' hsane' (hfree.right hR')
  refine ⟨R'', ?_, hs'', hsane''⟩
  rw [flatRun_add, hR']
  exact hR''

/-- A step that completes no instruction of the process. -/
theorem simulated_zero (hmem : ∀ M, Shows p c'.kernel.vm M → Shows p c.kernel.vm M)
    (hregs : ∀ R : Registers, R.Settles (c.registersOf x) → R.Settles (c'.registersOf x)) :
    Simulated x p numPages 0 c c' :=
  fun M hM => ⟨M, hmem M hM, fun R hs hR _ => ⟨R, rfl, hregs R hs, hR⟩⟩

theorem Computing.begun (h : c.Computing x p) : c.kernel.sys.Begun x p := by
  obtain ⟨t, ht, htid, hc⟩ := h
  exact ⟨t, ht, htid, by rw [hc]; trivial⟩

theorem Computing.spaced (h : c.Computing x p) : Spaced c.kernel.sys x := by
  obtain ⟨t, ht, -, hc⟩ := h
  exact ⟨t, ht, by simp [hc], by simp [hc]⟩

/-- **An instruction of the process**, completed or not. -/
theorem simulated_instruction (hi : Inv c) (hc : c.Computing x p)
    (hcur : c.kernel.sys.currentThread = x) (hat : c.kernel.sys.At .user)
    (hpages : HasPages p numPages c.kernel.vm) (hstep : c.instruction = some c') :
    HasPages p numPages c'.kernel.vm ∧
      Simulated x p numPages (c.retires x .instruction) c c' := by
  obtain ⟨t, ht, rfl, -⟩ := hc
  rw [← hcur] at ht
  have hb := backed t.tid numPages
  have hregs : c.registersOf x = c.registers := if_pos hcur
  rcases instruction_cases hstep with ⟨r, vm, hturn, rfl⟩ |
    ⟨r, vm, which, badVAddr, k, hturn, hk, rfl⟩
  · obtain ⟨q, hq, hex⟩ := turn_eq_some hi.registers hturn
    obtain rfl := hi.kernel.own_table hat ht hq
    have hone : c.retires x .instruction = 1 := by
      simp only [retires, if_pos hcur, hturn]
    have hvm : HasPages t.tid numPages vm :=
      hex.memory_inv hpages (fun hm hread => (hb.readMem hm hread).1)
        fun hm hwrite => (hb.writeMem hm hwrite).1
    refine ⟨hvm, ?_⟩
    rw [hone]
    intro M' hM'
    obtain ⟨-, M, hM, hrun⟩ := hex.retires hb hpages hM'
    refine ⟨M, hM, fun R hs hR hfree => ?_⟩
    rw [hregs] at hs
    obtain ⟨R', hR', hs'⟩ := hrun R hs hR (hfree 0 (by decide) (R, M) rfl)
    refine ⟨R', ?_, by rwa [registersOf, if_pos hcur], hR'.sane⟩
    have hflat : flatStep numPages (R, M) = some (R', M') := (flatStep_eq_some hR).mpr hR'
    change (flatStep numPages (R, M)).bind _ = _
    rw [hflat]
    rfl
  · obtain ⟨q, hq, hex⟩ := turn_eq_some hi.registers hturn
    obtain rfl := hi.kernel.own_table hat ht hq
    have hzero : c.retires x .instruction = 0 := by
      simp only [retires, if_pos hcur, hturn]
    have hvm : HasPages t.tid numPages vm :=
      hex.memory_inv hpages (fun hm hread => (hb.readMem hm hread).1)
        fun hm hwrite => (hb.writeMem hm hwrite).1
    obtain ⟨hpages', hback⟩ := Kernel.handler_own (k := { c.kernel with vm := vm }) ht hvm hk
    refine ⟨hpages', ?_⟩
    rw [hzero]
    apply simulated_zero
    · intro M hM
      exact (hex.trapped hb hpages (Registers.Same.refl c.registers |> Or.inl)).2.2 M
        (hback M hM)
    · intro R hs
      rw [hregs] at hs
      have hcur' : k.sys.currentThread = x := by
        rw [(Kernel.handler_stays hk).currentThread]
        exact hcur
      rw [registersOf, if_pos hcur']
      exact (hex.trapped hb hpages hs).1

/-- **A switch.** -/
theorem simulated_switch {a : Kernel.Act} (hi : Inv c) (ha : a = .yield ∨ a = .dispatch)
    (hc' : c'.Computing x p) (hstep : c.switch a = some c') :
    c'.kernel.vm = c.kernel.vm ∧ Simulated x p numPages 0 c c' := by
  have hvm : c'.kernel.vm = c.kernel.vm := by
    obtain ⟨k, hk, rfl⟩ := Option.map_eq_some_iff.mp hstep
    have hk' : k.vm = c.kernel.vm := Kernel.switch_vm ha hk
    unfold restoreUserState
    split <;> exact hk'
  refine ⟨hvm, simulated_zero ?_ ?_⟩
  · intro M hM
    rwa [hvm] at hM
  · intro R hs
    rwa [(switch_registersOf hi.kernel ha hstep hc'.spaced).1]

/-- What leaves the process and its registers alone. -/
theorem simulated_other (hi' : Inv c') (hpages : HasPages p numPages c.kernel.vm)
    (hvm : Vm.LeavesAlone p c.kernel.vm c'.kernel.vm)
    (hregs : c'.registersOf x = c.registersOf x) :
    HasPages p numPages c'.kernel.vm ∧ Simulated x p numPages 0 c c' := by
  obtain ⟨sp, hsp, hn⟩ := hpages.2
  obtain ⟨hsp', hshows⟩ := hvm sp hsp
  refine ⟨⟨hi'.kernel.frames, sp, hsp', hn⟩, simulated_zero hshows ?_⟩
  rw [hregs]
  exact fun _ => id

/-- Another thread runs, and goes on. -/
theorem registersOf_of_ne (hcur : c.kernel.sys.currentThread ≠ x)
    (hcur' : c'.kernel.sys.currentThread = c.kernel.sys.currentThread)
    (hsaved : c'.userRegisters = c.userRegisters) : c'.registersOf x = c.registersOf x := by
  rw [registersOf, registersOf, if_neg hcur, if_neg (by rwa [hcur']), hsaved]

/-- **A step while another thread runs.** -/
theorem simulated_step_other {a : ComputerAct} (hi : Inv c) (hc : c.Computing x p)
    (hcur : c.kernel.sys.currentThread ≠ x) (hc' : c'.Computing x p)
    (hpages : HasPages p numPages c.kernel.vm) (hstep : c.step a = some c') :
    HasPages p numPages c'.kernel.vm ∧ Simulated x p numPages 0 c c' := by
  have hi' := hi.step hstep
  have hother : ∀ {t}, c.kernel.sys.heap c.kernel.sys.currentThread = some t → p ≠ t.tid := by
    obtain ⟨log, hl⟩ := hi.kernel.sys
    exact hc.begun.other hl hcur
  -- the accesses of an instruction, whatever becomes of it
  have hturn : ∀ {t : Turn Vm}, c.kernel.sys.At .user → c.turn = some t →
      Kernel.Inv { c.kernel with vm := t.memory } ∧
        Vm.LeavesAlone p c.kernel.vm t.memory := by
    intro t hat ht
    obtain ⟨q, hq, hex⟩ := turn_eq_some hi.registers ht
    obtain ⟨u, hu, -⟩ := id hat
    obtain rfl := hi.kernel.own_table hat hu hq
    exact ⟨hi.kernel.accesses hat hq hex,
      Kernel.accesses_leavesAlone hi.kernel.frames (hother hu) hex⟩
  -- a step of the kernel in which the same thread goes on
  have hkernel : ∀ {b : Kernel.Act} {k : Kernel}, b.stays = true → c.kernel.step b = some k →
      k.sys.currentThread = c.kernel.sys.currentThread ∧
        Vm.LeavesAlone p c.kernel.vm k.vm := by
    intro b k hb hk
    exact ⟨(Kernel.step_stays hb hk).currentThread,
      Kernel.step_leavesAlone hi.kernel hc.begun hcur hk⟩
  cases a with
  | instruction =>
      obtain ⟨hat, hstep⟩ := Option.ite_none_right_eq_some.mp hstep
      rcases instruction_cases hstep with ⟨r, vm, ht, rfl⟩ |
        ⟨r, vm, which, badVAddr, k, ht, hk, rfl⟩
      · exact simulated_other hi' hpages (hturn hat ht).2 (registersOf_of_ne hcur rfl rfl)
      · obtain ⟨hvm, halone⟩ := hturn hat ht
        have hexc : Kernel.step { c.kernel with vm := vm } (.exception which badVAddr) =
            some k := by
          rw [Kernel.step, if_pos hat]
          exact hk
        exact simulated_other hi' hpages
          (halone.trans (Kernel.step_leavesAlone hvm hc.begun hcur hexc))
          (registersOf_of_ne hcur (Kernel.handler_stays hk).currentThread rfl)
  | interrupt =>
      obtain ⟨r, -, rfl⟩ := Option.map_eq_some_iff.mp hstep
      exact simulated_other hi' hpages (Vm.LeavesAlone.refl p _)
        (registersOf_of_ne hcur rfl rfl)
  | tick =>
      rw [Computer.step] at hstep
      obtain ⟨k, hk, rfl⟩ := Option.map_eq_some_iff.mp hstep
      obtain ⟨hcur', halone⟩ := hkernel rfl hk
      exact simulated_other hi' hpages halone (registersOf_of_ne hcur hcur' rfl)
  | yield =>
      obtain ⟨hvm, hsim⟩ := simulated_switch hi (Or.inl rfl) hc' hstep
      exact ⟨by rwa [hvm], hsim⟩
  | dispatch =>
      obtain ⟨hvm, hsim⟩ := simulated_switch hi (Or.inr rfl) hc' hstep
      exact ⟨by rwa [hvm], hsim⟩
  | start executable =>
      obtain ⟨k, hk, rfl⟩ := Option.map_eq_some_iff.mp hstep
      have hcur' : k.sys.currentThread = c.kernel.sys.currentThread :=
        Sys.schedStep_currentThread (a := .act .start) (by simp) (by simp)
          (Kernel.start_sys hk)
      exact simulated_other hi' hpages
        (Kernel.step_leavesAlone hi.kernel hc.begun hcur hk)
        (registersOf_of_ne hcur hcur' rfl)
  | sysCall acts result =>
      obtain ⟨hat, hstep⟩ := Option.ite_none_right_eq_some.mp hstep
      obtain ⟨r, vm, badVAddr, k, ht, hall, hk, rfl⟩ := sysCall_cases hstep
      obtain ⟨hvm, halone⟩ := hturn hat ht
      obtain ⟨-, hrun⟩ := Kernel.run_leavesAlone hvm hall hk hc'.begun hcur
      exact simulated_other hi' hpages (halone.trans hrun)
        (registersOf_of_ne hcur (continues_run hvm hall hk).2.currentThread rfl)
  | resume result =>
      obtain ⟨k, hk, rfl⟩ := Option.map_eq_some_iff.mp hstep
      obtain ⟨hcur', halone⟩ := hkernel rfl hk
      exact simulated_other hi' hpages halone (registersOf_of_ne hcur hcur' rfl)

/-- **The step lemma.** -/
theorem simulated_step {a : ComputerAct} (hi : Inv c) (hmeet : NoSysCall x p c a)
    (hc' : c'.Computing x p) (hpages : HasPages p numPages c.kernel.vm)
    (hstep : c.step a = some c') :
    HasPages p numPages c'.kernel.vm ∧ Simulated x p numPages (c.retires x a) c c' := by
  obtain ⟨hc, hcall⟩ := hmeet
  by_cases hcur : c.kernel.sys.currentThread = x
  · obtain ⟨t, ht, htid, hcont⟩ := id hc
    rw [← hcur] at ht
    have hregs : c.registersOf x = c.registers := if_pos hcur
    cases a with
    | instruction =>
        obtain ⟨hat, hstep⟩ := Option.ite_none_right_eq_some.mp hstep
        exact simulated_instruction hi hc hcur hat hpages hstep
    | interrupt =>
        obtain ⟨r, hr, rfl⟩ := Option.map_eq_some_iff.mp hstep
        rw [Registers.delayedLoad_eq 0 0 hi.registers.load, Option.some.injEq] at hr
        subst hr
        refine ⟨hpages, simulated_zero (fun _ => id) fun R hs => ?_⟩
        rw [hregs] at hs
        rw [registersOf, if_pos hcur]
        exact hs.settle
    | tick =>
        rw [Computer.step] at hstep
        obtain ⟨k, hk, rfl⟩ := Option.map_eq_some_iff.mp hstep
        have hcur' := (Kernel.step_stays (a := .tick) rfl hk).currentThread
        obtain ⟨sys, -, rfl⟩ := Kernel.sysStep_eq_some.mp hk
        refine ⟨hpages, simulated_zero (fun _ => id) fun R hs => ?_⟩
        rw [registersOf, if_pos (hcur'.trans hcur)]
        rwa [hregs] at hs
    | yield =>
        obtain ⟨hvm, hsim⟩ := simulated_switch hi (Or.inl rfl) hc' hstep
        exact ⟨by rwa [hvm], hsim⟩
    | dispatch =>
        obtain ⟨hvm, hsim⟩ := simulated_switch hi (Or.inr rfl) hc' hstep
        exact ⟨by rwa [hvm], hsim⟩
    | start executable =>
        -- a program starts only once
        obtain ⟨k, hk, rfl⟩ := Option.map_eq_some_iff.mp hstep
        have hstart := Kernel.start_sys hk
        simp [Sys.step, ht, hcont] at hstart
    | sysCall acts result => cases hcall hcur
    | resume result =>
        -- it is not in `Join`
        obtain ⟨k, hk, rfl⟩ := Option.map_eq_some_iff.mp hstep
        obtain ⟨sys, hsys, rfl⟩ := Kernel.sysStep_eq_some.mp hk
        cases hst : t.status <;> simp [Sys.step, ht, hcont, hst] at hsys
  · have hzero : c.retires x a = 0 := by
      cases a with
      | instruction => exact if_neg hcur
      | _ => rfl
    rw [hzero]
    exact simulated_step_other hi hc hcur hc' hpages hstep

/-! ## §4  Every run -/

/-- The states of a run in which the process goes on. -/
theorem simulated_run : ∀ {as : List ComputerAct} {c : Computer}, Inv c →
    HasPages p numPages c.kernel.vm → StepsMeet step (NoSysCall x p) c as →
    run step c as = some c' → c'.Computing x p →
    HasPages p numPages c'.kernel.vm ∧ Simulated x p numPages (retired x c as) c c' := by
  intro as
  induction as with
  | nil =>
      intro c _ hpages _ hrun _
      cases hrun
      exact ⟨hpages, simulated_zero (fun _ => id) fun _ => id⟩
  | cons a as ih =>
      intro c hi hpages hmeet hrun hc'
      obtain ⟨hfirst, hrest⟩ := stepsMeet_cons.mp hmeet
      obtain ⟨c₁, hstep, hrun₁⟩ := Option.bind_eq_some_iff.mp (run_cons c a as ▸ hrun)
      have hc₁ : c₁.Computing x p := by
        cases as with
        | nil =>
            cases hrun₁
            exact hc'
        | cons b bs => exact (stepsMeet_cons.mp (hrest c₁ hstep)).1.1
      obtain ⟨hpages₁, hsim⟩ := simulated_step hi hfirst hc₁ hpages hstep
      obtain ⟨hpages', hlater⟩ := ih (hi.step hstep) hpages₁ (hrest c₁ hstep) hrun₁ hc'
      simp only [retired, hstep]
      exact ⟨hpages', hsim.trans hlater⟩

end Computer

end OsAssignments.MemoryManagement
