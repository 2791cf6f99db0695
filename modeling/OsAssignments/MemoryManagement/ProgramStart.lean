import OsAssignments.MemoryManagement.ProgramRuns

/-!
# From the executable to the computation

The program that `StartProcess` starts computes what the flat processor computes from the
image of its executable, although at the start none of its pages is in memory.

- `flatRun_agree` — the flat processor of `n` pages never sees what lies behind them.
- `program_flat` — **the first result**, for every run between two system calls of a
  program.
- `program_from_image` — **the second**, for every run from the start of a program to its
  first system call.
-/

namespace OsAssignments.MemoryManagement

open PartialMachine

/-! ## §1  Memories that agree on their pages -/

/-- The two memories have the same first `n` pages. -/
def Agree (n : ℕ) (M M' : ByteMem) : Prop := ∀ a, a / PageSize < n → M a = M' a

variable {n : ℕ} {M M' : ByteMem} {R : Registers}

theorem Agree.symm (h : Agree n M M') : Agree n M' M := fun a ha => (h a ha).symm

/-- An aligned access stays in its page. -/
theorem aligned_inside {addr : BitVec 32} {size : Width} (h : addr.toNat % size.size = 0) :
    addr.toNat % PageSize + size.size ≤ PageSize := by
  cases size <;> simp only [Width.size, PageSize, SectorSize] at * <;> omega

theorem Agree.readMem (h : Agree n M M') {addr value : BitVec 32} {size : Width}
    {M₁ : ByteMem} (hread : (flatMemory n).readMem M addr size = .ok (value, M₁)) :
    M₁ = M ∧ (flatMemory n).readMem M' addr size = .ok (value, M') := by
  simp only [flatMemory] at hread ⊢
  split at hread
  · cases hread
  · rename_i hok
    cases hread
    refine ⟨rfl, ?_⟩
    rw [if_neg hok]
    have hbytes : M'.read addr.toNat size.size = M.read addr.toNat size.size := by
      apply List.map_congr_left
      intro i hi
      rw [List.mem_range] at hi
      apply h.symm
      rw [(access_page (aligned_inside (by omega)) hi).1]
      omega
    rw [hbytes]

theorem Agree.writeMem (h : Agree n M M') {addr value : BitVec 32} {size : Width}
    {M₁ : ByteMem} (hwrite : (flatMemory n).writeMem M addr size value = .ok M₁) :
    ∃ M₁', (flatMemory n).writeMem M' addr size value = .ok M₁' ∧ Agree n M₁ M₁' := by
  simp only [flatMemory] at hwrite ⊢
  split at hwrite
  · cases hwrite
  · rename_i hok
    cases hwrite
    rw [if_neg hok]
    refine ⟨_, rfl, fun a ha => ?_⟩
    unfold ByteMem.write
    split
    · rfl
    · exact h a ha

/-- A memory of the other one's pages in place of it. -/
theorem Agree.executes (h : Agree n M M') {R₁ : Registers} {M₁ : ByteMem}
    (hex : Executes (flatMemory n) R M (.done R₁ M₁)) :
    ∃ M₁', Executes (flatMemory n) R M' (.done R₁ M₁') ∧ Agree n M₁ M₁' := by
  cases hex with
  | next raw m assigned pcAfter hfetch hbody =>
      obtain ⟨rfl, hfetch'⟩ := h.readMem hfetch
      exact ⟨M', .next raw M' assigned pcAfter hfetch' hbody, h⟩
  | load raw m addr size f value m₂ hfetch hbody hread =>
      obtain ⟨rfl, hfetch'⟩ := h.readMem hfetch
      obtain ⟨rfl, hread'⟩ := h.readMem hread
      exact ⟨M', .load raw M' addr size f value M' hfetch' hbody hread', h⟩
  | store raw m addr size value m₂ hfetch hbody hwrite =>
      obtain ⟨rfl, hfetch'⟩ := h.readMem hfetch
      obtain ⟨M₁', hwrite', h'⟩ := h.writeMem hwrite
      exact ⟨M₁', .store raw M' addr size value M₁' hfetch' hbody hwrite', h'⟩
  | replace raw m addr f value m₂ m₃ hfetch hbody hread hwrite =>
      obtain ⟨rfl, hfetch'⟩ := h.readMem hfetch
      obtain ⟨rfl, hread'⟩ := h.readMem hread
      obtain ⟨M₁', hwrite', h'⟩ := h.writeMem hwrite
      exact ⟨M₁', .replace raw M' addr f value M' M₁' hfetch' hbody hread' hwrite', h'⟩

theorem flatRun_agree {i : ℕ} (hR : R.Sane) (h : Agree n M M') {R₁ : Registers} {M₁ : ByteMem}
    (hrun : flatRun n i (R, M) = some (R₁, M₁)) :
    ∃ M₁', flatRun n i (R, M') = some (R₁, M₁') ∧ Agree n M₁ M₁' := by
  induction i generalizing R M M' with
  | zero =>
      cases hrun
      exact ⟨M', rfl, h⟩
  | succ i ih =>
      obtain ⟨⟨R₂, M₂⟩, hstep, hrest⟩ := Option.bind_eq_some_iff.mp hrun
      have hex := (flatStep_eq_some hR).mp hstep
      obtain ⟨M₂', hex', h₂⟩ := h.executes hex
      obtain ⟨M₁', hrun', h₁⟩ := ih hex.sane h₂ hrest
      refine ⟨M₁', ?_, h₁⟩
      have hstep' : flatStep n (R, M') = some (R₂, M₂') := (flatStep_eq_some hR).mpr hex'
      change (flatStep n (R, M')).bind _ = _
      rw [hstep']
      exact hrun'

theorem HazardFreeRun.agree {i : ℕ} (hR : R.Sane) (h : Agree n M M')
    (hfree : HazardFreeRun n i (R, M')) : HazardFreeRun n i (R, M) := by
  rintro j hj ⟨R₁, M₁⟩ hrun raw M₂ hfetch
  obtain ⟨M₁', hrun', h₁⟩ := flatRun_agree hR h hrun
  exact hfree j hj (R₁, M₁') hrun' raw M₁' (h₁.readMem hfetch).2

theorem Shows.agree {p : ℕ} {vm : Vm} {sp : AddrSpace} (hsp : vm.spaces p = some sp)
    (h : Agree sp.numPages M M') (hM : Shows p vm M) : Shows p vm M' := by
  obtain ⟨sp₁, hsp₁, hbytes⟩ := hM
  obtain rfl : sp₁ = sp := Option.some.inj (hsp₁.symm.trans hsp)
  refine ⟨sp₁, hsp, fun a ha => ?_⟩
  rw [← h a ha]
  exact hbytes a ha

/-! ## §2  The start of a program -/

/-- After the constructor no page is anywhere. -/
theorem AddrSpace.new_nowhere {executable : RandomAccessFile} {sp : AddrSpace}
    (h : AddrSpace.new executable = some sp) :
    sp.numPages = (readHeader executable).numPages ∧ ∀ mem a, view mem sp a = none := by
  simp only [AddrSpace.new] at h
  split at h
  · cases h
    exact ⟨rfl, fun mem a => view_eq_none_iff.mpr ⟨rfl, by simp [IN_SWAP_FILE]⟩⟩
  · cases h

/-- **Before its first load**, what a program shows of its image, and past it. -/
theorem Shows.unloaded {p : ℕ} {vm : Vm} {sp : AddrSpace} (hsp : vm.spaces p = some sp)
    (hnone : ∀ a, sp.view vm.phys.mainMemory a = none) (hlaid : sp.Laid) (hM : Shows p vm M)
    {a : ℕ} (ha : a / PageSize < sp.numPages) :
    (a < sp.imageSize → M a = sp.executable.data (sp.noffH.code.inFileAddr.toNat + a)) ∧
    (sp.PastImage (a / PageSize) → M a = 0) ∧
    (¬ sp.PastImage (a / PageSize) →
      sp.readAddr (a / PageSize) + a % PageSize < sp.executable.size →
        M a = sp.executable.data (sp.readAddr (a / PageSize) + a % PageSize)) := by
  obtain ⟨sp₁, hsp₁, hbytes⟩ := hM
  obtain rfl : sp₁ = sp := Option.some.inj (hsp₁.symm.trans hsp)
  obtain ⟨hpast, hfile⟩ := (hbytes a ha).2 (hnone a)
  refine ⟨fun hin => ?_, hpast, hfile⟩
  obtain ⟨hnpast, hread, hlt⟩ := hlaid.of_lt (p := a / PageSize) (i := a % PageSize)
    (by rwa [Nat.div_add_mod'])
  rw [hfile hnpast hlt, hread, Nat.div_add_mod']

/-- A program that fills its pages shows its image, and only that. -/
theorem Shows.image {p : ℕ} {vm : Vm} {sp : AddrSpace} (hsp : vm.spaces p = some sp)
    (hnone : ∀ a, sp.view vm.phys.mainMemory a = none) (hlaid : sp.Laid)
    (hfilled : ∀ q < sp.numPages, sp.Filled q) (hM : Shows p vm M) :
    Agree sp.numPages M sp.image := by
  intro a ha
  obtain ⟨hin, hpast, hfile⟩ := hM.unloaded hsp hnone hlaid ha
  have haddr : a / PageSize * PageSize + a % PageSize = a := Nat.div_add_mod' a PageSize
  have hmod : a % PageSize < PageSize := Nat.mod_lt _ (by decide)
  unfold AddrSpace.image
  by_cases hlt : a < sp.imageSize
  · rw [if_pos hlt, hin hlt]
  · rw [if_neg hlt]
    by_cases hpast' : sp.PastImage (a / PageSize)
    · exact hpast hpast'
    · obtain ⟨hfit, hzero⟩ := ((hfilled _ ha).resolve_left hpast') _ hmod (by omega)
      rw [hfile hpast' hfit, hzero]

namespace Computer

/-- What `StartProcess` leaves. -/
theorem step_start {c c' : Computer} {executable : RandomAccessFile} {sp : AddrSpace}
    (hstep : c.step (.start executable) = some c') (hnew : AddrSpace.new executable = some sp)
    {x : SpaceId} (hx : c.kernel.sys.currentThread = x) {p : ℕ} (hp : c'.Computing x p) :
    c'.kernel.vm.spaces p = some sp ∧
      c'.registersOf x = initRegisters (BitVec.ofNat 32 sp.numPages) := by
  subst hx
  obtain ⟨k, hk, rfl⟩ := Option.map_eq_some_iff.mp hstep
  have hstart := Kernel.start_sys hk
  have hcur : k.sys.currentThread = c.kernel.sys.currentThread :=
    Sys.schedStep_currentThread (a := .act .start) (by simp) (by simp) hstart
  simp only [Kernel.step, Kernel.startProcess, Option.bind_eq_bind,
    Option.bind_eq_some_iff] at hk
  obtain ⟨t, ht, k₁, hk₁, vm, hvm, heq⟩ := hk
  cases heq
  obtain ⟨sys, hsys, rfl⟩ := Kernel.sysStep_eq_some.mp hk₁
  obtain ⟨sp', -, hnew', rfl⟩ := construct_inv hvm
  obtain rfl : sp' = sp := Option.some.inj (hnew'.symm.trans hnew)
  obtain ⟨-, u, hu, htid⟩ := Kernel.at_user_of_start hsys ht
  obtain ⟨v, hv, hvp, -⟩ := hp
  rw [← hcur] at hv
  obtain rfl : u = v := Option.some.inj (hu.symm.trans hv)
  rw [← hvp, htid]
  refine ⟨Function.update_self .., ?_⟩
  rw [(AddrSpace.new_nowhere hnew).1]
  exact if_pos hcur

/-- `addiu $1, $0, 64`, `sw $1, 64($0)`, `lw $2, 64($0)`, `nop`, `addu $3, $2, $1`. -/
def sumProgram : RandomAccessFile :=
  wordProgram [0x24010040, 0xac010040, 0x8c020040, 0, 0x00411821]

/-- It faults once, is switched away once, and interrupted right behind its `lw`. -/
def runSum : List ComputerAct :=
  [.instruction, .instruction, .yield, .instruction, .yield, .instruction, .instruction,
    .interrupt, .instruction, .instruction]

/-- What is evaluated of the run of an executable with that program. -/
def sumComputed (executable : RandomAccessFile) : Bool :=
  match run step (init .a1 1 fun _ _ => 0) execSum with
  | some c₁ =>
      match c₁.step (.start executable) with
      | some c₀ =>
          match run step c₀ runSum with
          | some c =>
              decide (c₁.kernel.sys.currentThread = 2) &&
                stepsMeet step (NoSysCall 2 1) c₀ runSum &&
                decide (retired 2 c₀ runSum = 5 ∧ c.Computing 2 1 ∧
                  c.registersOf 2 (gpr 3) = 128)
          | none => false
      | none => false
  | none => false

theorem run_of_sumComputed {executable : RandomAccessFile} (h : sumComputed executable = true) :
    ∃ c₁ c₀ c, run step (init .a1 1 fun _ _ => 0) execSum = some c₁ ∧
      c₁.kernel.sys.currentThread = 2 ∧ c₁.step (.start executable) = some c₀ ∧
      StepsMeet step (NoSysCall 2 1) c₀ runSum ∧ retired 2 c₀ runSum = 5 ∧
      run step c₀ runSum = some c ∧ c.Computing 2 1 ∧ c.registersOf 2 (gpr 3) = 128 := by
  unfold sumComputed at h
  split at h
  · rename_i c₁ h₁
    split at h
    · rename_i c₀ h₀
      split at h
      · rename_i c hc
        rw [Bool.and_eq_true, Bool.and_eq_true, decide_eq_true_eq, decide_eq_true_eq,
          stepsMeet_iff] at h
        obtain ⟨⟨hcur, hmeet⟩, hretired, hcomp, hsum⟩ := h
        exact ⟨c₁, c₀, c, h₁, hcur, h₀, hmeet, hretired, hc, hcomp, hsum⟩
      · cases h
    · cases h
  · cases h

theorem run_sum : sumComputed sumProgram = true := by decide +kernel

/-- Its address space. -/
theorem new_sumProgram : ∃ sp, AddrSpace.new sumProgram = some sp ∧ sp.Laid ∧
    sp.numPages = 9 ∧ (∀ q < sp.numPages, sp.Filled q) ∧
    HazardFreeRun 9 5 (initRegisters 9, sp.image) := by
  refine ⟨_, rfl, ⟨by decide, by decide, by decide, by decide⟩, by decide, ?_, ?_⟩
  · intro q hq
    by_cases h0 : q = 0
    · subst h0
      right
      intro i hi hle
      change 128 ≤ _ at hle
      simp only [PageSize, SectorSize] at *
      omega
    · left
      have hpast : ∀ q < 9, q ≠ 0 →
          (128#32).toInt ≤ (BitVec.ofNat 32 (q * PageSize)).toInt := by decide
      exact hpast q hq h0
  · decide +kernel

/-- What is on the way from one point of a program to another, without system calls. -/
theorem flat_between {c₀ c : Computer} (hi : Inv c₀) {x : SpaceId} {p : ℕ} {sp : AddrSpace}
    (hc₀ : c₀.Computing x p) (hsp : c₀.kernel.vm.spaces p = some sp) {as : List ComputerAct}
    (hmeet : StepsMeet step (NoSysCall x p) c₀ as) (hrun : run step c₀ as = some c)
    (hc : c.Computing x p) :
    (∃ M, Shows p c.kernel.vm M) ∧
    ∀ M, Shows p c.kernel.vm M → ∃ M₀, Shows p c₀.kernel.vm M₀ ∧
      (HazardFreeRun sp.numPages (retired x c₀ as) (c₀.registersOf x, M₀) →
        ∃ R, flatRun sp.numPages (retired x c₀ as) (c₀.registersOf x, M₀) = some (R, M) ∧
          R.Settles (c.registersOf x)) := by
  have hpages : HasPages p sp.numPages c₀.kernel.vm := ⟨hi.kernel.frames, sp, hsp, rfl⟩
  obtain ⟨⟨-, sp', hsp', -⟩, hsim⟩ := simulated_run hi hpages hmeet hrun hc
  refine ⟨exists_shows hsp', fun M hM => ?_⟩
  obtain ⟨M₀, hM₀, hflat⟩ := hsim M hM
  refine ⟨M₀, hM₀, fun hfree => ?_⟩
  have hregs : (c₀.registersOf x).Settles (c₀.registersOf x) := Or.inl (Registers.Same.refl _)
  obtain ⟨R, hR, hs, -⟩ := hflat _ hregs (hi.sane hc₀.spaced) hfree
  exact ⟨R, hR, hs⟩

/-- The first step of such a way starts in the program. -/
theorem computing_of_meets {c₀ c : Computer} {x : SpaceId} {p : ℕ} {as : List ComputerAct}
    (hmeet : StepsMeet step (NoSysCall x p) c₀ as) (hrun : run step c₀ as = some c)
    (hc : c.Computing x p) : c₀.Computing x p := by
  cases as with
  | nil =>
      cases hrun
      exact hc
  | cons a as => exact (stepsMeet_cons.mp hmeet).1.1

/-- **A program runs as if it were alone.** In every run of the machine, whatever the
other programs do, however often the process is interrupted, faults, loses its frames or is
switched away: as long as it makes no system call, its memory and registers are those of a
processor that has all of its memory, and neither traps nor interrupts nor switches, after
as many instructions as it has completed. The registers may differ by a delayed load that a
trap has done early, and the program must not have instructions that see the difference. -/
theorem program_flat (algorithm : Algorithm) (main : SpaceId) (hmain : main ≠ NULL)
    (userRegisters : SpaceId → Registers) (as bs : List ComputerAct) (c₀ c : Computer)
    (hreach : run step (init algorithm main userRegisters) bs = some c₀)
    (x : SpaceId) (p : ℕ) (hc₀ : c₀.Computing x p) (sp : AddrSpace)
    (hsp : c₀.kernel.vm.spaces p = some sp)
    (hmeet : StepsMeet step (NoSysCall x p) c₀ as) (hrun : run step c₀ as = some c)
    (hc : c.Computing x p) :
    (∃ M, Shows p c.kernel.vm M) ∧
    ∀ M, Shows p c.kernel.vm M → ∃ M₀, Shows p c₀.kernel.vm M₀ ∧
      (HazardFreeRun sp.numPages (retired x c₀ as) (c₀.registersOf x, M₀) →
        ∃ R, flatRun sp.numPages (retired x c₀ as) (c₀.registersOf x, M₀) = some (R, M) ∧
          R.Settles (c.registersOf x)) := by
  exact flat_between (inv_run (inv_init algorithm hmain userRegisters) hreach) hc₀ hsp hmeet hrun hc

/-- `sumProgram`, on a machine that it shares with its parent. -/
theorem program_flat_sum : ∃ c₁ c₀ c, run step (init .a1 1 fun _ _ => 0) execSum = some c₁ ∧
    c₁.step (.start sumProgram) = some c₀ ∧ run step c₀ runSum = some c ∧
    (∃ M, Shows 1 c.kernel.vm M) ∧ ∀ M, Shows 1 c.kernel.vm M →
      ∃ M₀ R, Shows 1 c₀.kernel.vm M₀ ∧
        flatRun 9 5 (initRegisters 9, M₀) = some (R, M) ∧ R.Settles (c.registersOf 2) := by
  obtain ⟨c₁, c₀, c, h₁, hcur, h₀, hmeet, hretired, hrun, hc, -⟩ := run_of_sumComputed run_sum
  obtain ⟨sp, hnew, hlaid, hpages, hfilled, hfree⟩ := new_sumProgram
  have hc₀ : c₀.Computing 2 1 := (stepsMeet_cons.mp hmeet).1.1
  obtain ⟨hsp, hregs⟩ := step_start h₀ hnew hcur hc₀
  obtain ⟨hM, hflat⟩ := program_flat .a1 1 (by decide) (fun _ _ => 0) runSum
    (execSum ++ [.start sumProgram]) c₀ c (run_snoc_eq_some.mpr ⟨c₁, h₁, h₀⟩) 2 1 hc₀ sp hsp
    hmeet hrun hc
  refine ⟨c₁, c₀, c, h₁, h₀, hrun, hM, fun M hM => ?_⟩
  obtain ⟨M₀, hM₀, hrun'⟩ := hflat M hM
  have hagree := hM₀.image hsp ((AddrSpace.new_nowhere hnew).2 _) hlaid hfilled
  rw [hretired, hregs, hpages] at hrun'
  rw [hpages] at hagree
  obtain ⟨R, hR, hs⟩ := hrun' (hfree.agree (sane_initRegisters 9) hagree)
  exact ⟨M₀, R, hM₀, hR, hs⟩

/-- **A program computes what its executable says.** In every run of the machine, from
the start of a program to any point before its first system call, whatever the other
programs do and however often it is interrupted, faults or is switched away: its registers
and memory are those of the flat processor that began with the image of the executable, and
has done as many instructions. The executable is laid out as `coff2noff` does it, its image
fills its pages, and the program has no instruction that sees when a delayed load is done. -/
theorem program_from_image (algorithm : Algorithm) (main : SpaceId) (hmain : main ≠ NULL)
    (userRegisters : SpaceId → Registers) (as bs : List ComputerAct) (c₁ c₀ c : Computer)
    (hreach : run step (init algorithm main userRegisters) bs = some c₁)
    (executable : RandomAccessFile) (sp : AddrSpace) (hnew : AddrSpace.new executable = some sp)
    (hlaid : sp.Laid) (hfilled : ∀ q < sp.numPages, sp.Filled q)
    (x : SpaceId) (hx : c₁.kernel.sys.currentThread = x)
    (hstart : c₁.step (.start executable) = some c₀) (p : ℕ)
    (hmeet : StepsMeet step (NoSysCall x p) c₀ as) (hrun : run step c₀ as = some c)
    (hc : c.Computing x p)
    (hfree : HazardFreeRun sp.numPages (retired x c₀ as)
      (initRegisters (BitVec.ofNat 32 sp.numPages), sp.image)) :
    ∃ R M, flatRun sp.numPages (retired x c₀ as)
        (initRegisters (BitVec.ofNat 32 sp.numPages), sp.image) = some (R, M) ∧
      Shows p c.kernel.vm M ∧ R.Settles (c.registersOf x) := by
  have hi := (inv_run (inv_init algorithm hmain userRegisters) hreach).step hstart
  have hc₀ := computing_of_meets hmeet hrun hc
  obtain ⟨hsp, hregs⟩ := step_start hstart hnew hx hc₀
  have hsane := hi.sane hc₀.spaced
  obtain ⟨⟨-, sp₁, hsp₁, hn⟩, hsim⟩ :=
    simulated_run hi ⟨hi.kernel.frames, sp, hsp, rfl⟩ hmeet hrun hc
  obtain ⟨M, hM⟩ := exists_shows hsp₁
  obtain ⟨M₀, hM₀, hflat⟩ := hsim M hM
  have hagree := hM₀.image hsp ((AddrSpace.new_nowhere hnew).2 _) hlaid hfilled
  rw [hregs] at hflat hsane
  obtain ⟨R, hR, hs, -⟩ := hflat _ (Or.inl (Registers.Same.refl _)) hsane
    (hfree.agree hsane hagree)
  obtain ⟨M', hR', hM'⟩ := flatRun_agree hsane hagree hR
  rw [← hn] at hM'
  exact ⟨R, M', hR', hM.agree hsp₁ hM', hs⟩

theorem program_from_image_sum : ∃ c₁ c₀ c sp R M,
    run step (init .a1 1 fun _ _ => 0) execSum = some c₁ ∧
    c₁.step (.start sumProgram) = some c₀ ∧ run step c₀ runSum = some c ∧
    AddrSpace.new sumProgram = some sp ∧
    flatRun 9 5 (initRegisters 9, sp.image) = some (R, M) ∧
    Shows 1 c.kernel.vm M ∧ R.Settles (c.registersOf 2) ∧ c.registersOf 2 (gpr 3) = 128 := by
  obtain ⟨c₁, c₀, c, h₁, hcur, h₀, hmeet, hretired, hrun, hc, hsum⟩ := run_of_sumComputed run_sum
  obtain ⟨sp, hnew, hlaid, hpages, hfilled, hfree⟩ := new_sumProgram
  obtain ⟨R, M, hflat, hM, hs⟩ := program_from_image .a1 1 (by decide) (fun _ _ => 0) runSum
    execSum c₁ c₀ c h₁ sumProgram sp hnew hlaid hfilled 2 hcur h₀ 1 hmeet hrun hc
    (by rwa [hretired, hpages])
  rw [hretired, hpages] at hflat
  exact ⟨c₁, c₀, c, sp, R, M, h₁, h₀, hrun, hnew, hflat, hM, hs, hsum⟩

end Computer

end OsAssignments.MemoryManagement
