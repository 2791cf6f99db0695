import OsAssignments.MemoryManagement.Mips

/-!
# What an instruction does to the registers

- `Registers.Sane` — `R0` is zero and the delayed load goes to a general register;
  `Executes.sane`: every instruction and every trap keeps it, so `DelayedLoad` never
  writes outside the array.
- `Instruction.reads`, `Instruction.writes` — the general registers of the `switch`;
  `execute_congr` and `execute_assigned` say that there are no others.
-/

namespace OsAssignments.MemoryManagement

/-! ## §1  Assignments -/

namespace Registers

variable {r R : Registers} {assigned : List (Fin NumTotalRegs × BitVec 32)}

theorem assign_congr {x : Fin NumTotalRegs} : ∀ {r R : Registers}, r x = R x →
    (r.assign assigned) x = (R.assign assigned) x := by
  induction assigned with
  | nil => exact id
  | cons a assigned ih =>
      intro r R h
      apply ih
      by_cases hx : x = a.1
      · subst hx
        simp
      · simpa [hx] using h

theorem assign_of_not_mem {x : Fin NumTotalRegs} : ∀ {r : Registers},
    (∀ a ∈ assigned, a.1 ≠ x) → (r.assign assigned) x = r x := by
  induction assigned with
  | nil => exact fun _ => rfl
  | cons a assigned ih =>
      intro r h
      have hhead : x ≠ a.1 := Ne.symm (h a (List.mem_cons_self ..))
      have htail := ih (r := r.set a.1 a.2) fun b hb => h b (List.mem_cons_of_mem _ hb)
      exact htail.trans (Function.update_of_ne hhead _ _)

end Registers

/-! ## §2  Which registers -/

namespace Instruction

/-- The general registers that the `switch` reads. `LWL` and `LWR` merge into `rt` what
is there once the delayed load is done, so it is not one of them. -/
def reads (i : Instruction) : List (BitVec 5) :=
  match i.opCode with
  | .OP_ADD | .OP_ADDU | .OP_AND | .OP_BEQ | .OP_BNE | .OP_DIV | .OP_DIVU | .OP_MULT
  | .OP_MULTU | .OP_NOR | .OP_SB | .OP_SH | .OP_SLLV | .OP_SLT | .OP_SLTU | .OP_SRAV
  | .OP_SRLV | .OP_SUB | .OP_SUBU | .OP_SW | .OP_SWL | .OP_SWR | .OP_XOR => [i.rs, i.rt]
  | .OP_ADDI | .OP_ADDIU | .OP_ANDI | .OP_BGEZAL | .OP_BGEZ | .OP_BGTZ | .OP_BLEZ
  | .OP_BLTZAL | .OP_BLTZ | .OP_JALR | .OP_JR | .OP_LB | .OP_LBU | .OP_LH | .OP_LHU
  | .OP_LW | .OP_LWL | .OP_LWR | .OP_MTHI | .OP_MTLO | .OP_OR | .OP_ORI | .OP_SLTI
  | .OP_SLTIU | .OP_XORI => [i.rs]
  | .OP_SLL | .OP_SRA | .OP_SRL => [i.rt]
  | _ => []

/-- The general registers that the `switch` assigns; loads are not among them. -/
def writes (i : Instruction) : List (BitVec 5) :=
  match i.opCode with
  | .OP_ADD | .OP_ADDU | .OP_AND | .OP_JALR | .OP_MFHI | .OP_MFLO | .OP_NOR | .OP_OR
  | .OP_SLL | .OP_SLLV | .OP_SLT | .OP_SLTU | .OP_SRA | .OP_SRAV | .OP_SRL | .OP_SRLV
  | .OP_SUB | .OP_SUBU | .OP_XOR => [i.rd]
  | .OP_ADDI | .OP_ADDIU | .OP_ANDI | .OP_LUI | .OP_ORI | .OP_SLTI | .OP_SLTIU
  | .OP_XORI => [i.rt]
  | .OP_BGEZAL | .OP_BLTZAL | .OP_JAL => [31]
  | _ => []

/-- What `LWL` and `LWR` merge into. -/
def merged (i : Instruction) (r : Registers) : BitVec 32 :=
  if (r LoadReg).toNat = gpr i.rt then r LoadValueReg else r (gpr i.rt)

/-- The registers that matter to the `switch` are the same. -/
structure Alike (i : Instruction) (r R : Registers) : Prop where
  reads : ∀ n ∈ i.reads, r (gpr n) = R (gpr n)
  nextPC : r NextPCReg = R NextPCReg
  hi : r HiReg = R HiReg
  lo : r LoReg = R LoReg
  merged : i.rt ≠ 0 → i.merged r = i.merged R

theorem link_congr {r R : Registers} {x : Fin NumTotalRegs} (y : Fin NumTotalRegs)
    (link : BitVec 32) (h : r x = R x) : r.set y link x = R.set y link x := by
  by_cases hxy : x = y
  · subst hxy
    simp
  · simpa [hxy] using h

/-- **The `switch` reads no other registers**; a load into `R0` may merge what it likes. -/
theorem execute_congr {i : Instruction} {r R : Registers} (h : i.Alike r R) :
    i.execute r = i.execute R ∨ i.rt = 0 ∧ ∃ addr f g,
      i.execute r = .load addr .word f ∧ i.execute R = .load addr .word g := by
  obtain ⟨hreads, hpc, hhi, hlo, hmerged⟩ := h
  unfold merged at hmerged
  cases hop : i.opCode <;>
    simp only [Instruction.reads, hop, List.forall_mem_cons, List.not_mem_nil, false_imp_iff,
      implies_true, and_true] at hreads
  -- the loads that merge
  case OP_LWL | OP_LWR =>
    by_cases halign : (R (gpr i.rs) + i.extra) &&& 3 ≠ 0
    · left
      simp only [execute, hop, hreads, if_pos halign]
    · by_cases hrt : i.rt = 0
      · right
        have hload : ∀ r : Registers, r (gpr i.rs) = R (gpr i.rs) →
            ∃ f, i.execute r = .load (R (gpr i.rs) + i.extra) .word f := by
          intro r hr
          simp only [execute, hop, hr, if_neg halign]
          exact ⟨_, rfl⟩
        obtain ⟨f, hf⟩ := hload r hreads
        obtain ⟨g, hg⟩ := hload R rfl
        exact ⟨hrt, _, f, g, hf, hg⟩
      · left
        simp only [execute, hop, hreads, if_neg halign, hmerged hrt]
  -- the branches that assign the link before they read `rs`
  case OP_BGEZAL | OP_BLTZAL =>
    left
    have hrs := link_congr R31 (R NextPCReg + 4) hreads
    simp only [execute, hop, hpc, hrs]
  case OP_JALR =>
    left
    have hrs := link_congr (gpr i.rd) (R NextPCReg + 4) hreads
    simp only [execute, hop, hpc, hrs]
  all_goals
    left
    simp only [execute, hop, hpc, hhi, hlo, hreads]

/-- **It assigns no other registers.** -/
theorem execute_assigned {i : Instruction} {r : Registers} {pcAfter : BitVec 32}
    {assigned : List (Fin NumTotalRegs × BitVec 32)}
    (h : i.execute r = .next assigned pcAfter) :
    ∀ a ∈ assigned, a.1 = HiReg ∨ a.1 = LoReg ∨ ∃ n ∈ i.writes, a.1 = gpr n := by
  unfold execute at h
  cases hop : i.opCode <;> simp only [hop] at h
  all_goals
    repeat' split at h
    all_goals
      cases h
      try simp [writes, hop, R31, gpr]

end Instruction

/-! ## §3  Delayed loads -/

namespace Registers

/-- `R0` is zero, and the delayed load is for a general register. -/
structure Sane (r : Registers) : Prop where
  zero : r R0 = 0
  load : (r LoadReg).toNat < 32

/-- What `DelayedLoad` leaves. -/
def settle (nextReg nextValue : BitVec 32) (r : Registers) : Registers := fun x =>
  if x = R0 then 0
  else if x = LoadValueReg then nextValue
  else if x = LoadReg then nextReg
  else if x.val = (r LoadReg).toNat then r LoadValueReg
  else r x

variable {r R : Registers}

theorem delayedLoad_eq (nextReg nextValue : BitVec 32) (h : (r LoadReg).toNat < 32) :
    Machine.delayedLoad nextReg nextValue r = some (r.settle nextReg nextValue) := by
  have hlt : (r LoadReg).toNat < NumTotalRegs := by
    simp only [NumTotalRegs]
    omega
  rw [Machine.delayedLoad, dif_pos hlt]
  congr 1
  funext x
  by_cases h0 : x = R0
  · subst h0
    simp [settle]
  by_cases hv : x = LoadValueReg
  · subst hv
    simp [settle, h0]
  by_cases hl : x = LoadReg
  · subst hl
    simp [settle, h0, hv]
  have hx : x = ⟨(r LoadReg).toNat, hlt⟩ ↔ x.val = (r LoadReg).toNat := Fin.ext_iff
  simp [settle, h0, hv, hl, Function.update_apply, hx]

@[simp] theorem settle_R0 (n v : BitVec 32) (r : Registers) : r.settle n v R0 = 0 := rfl

@[simp] theorem settle_LoadReg (n v : BitVec 32) (r : Registers) :
    r.settle n v LoadReg = n := rfl

@[simp] theorem settle_LoadValueReg (n v : BitVec 32) (r : Registers) :
    r.settle n v LoadValueReg = v := rfl

theorem sane_settle {n : BitVec 32} (v : BitVec 32) (h : n.toNat < 32) :
    (r.settle n v).Sane := ⟨rfl, h⟩

theorem Sane.set {x : Fin NumTotalRegs} {v : BitVec 32} (h : r.Sane) (h0 : x ≠ R0)
    (hl : x ≠ LoadReg) : (r.set x v).Sane := by
  constructor
  · rw [Registers.set, Function.update_of_ne h0.symm, h.zero]
  · rw [Registers.set, Function.update_of_ne hl.symm]
    exact h.load

theorem Sane.advancePCs {pcAfter : BitVec 32} (h : r.Sane) : (advancePCs pcAfter r).Sane :=
  ((h.set (by decide) (by decide)).set (by decide) (by decide)).set (by decide) (by decide)

end Registers

theorem gpr_lt (n : BitVec 5) : (gpr n).val < 32 := n.isLt

/-- An assignment of the `switch` goes below the registers of the delayed load. -/
theorem Instruction.assigned_lt {i : Instruction} {r : Registers} {pcAfter : BitVec 32}
    {assigned : List (Fin NumTotalRegs × BitVec 32)}
    (h : i.execute r = .next assigned pcAfter) : ∀ a ∈ assigned, a.1.val < 34 := by
  intro a ha
  rcases Instruction.execute_assigned h a ha with heq | heq | ⟨n, -, heq⟩
  · rw [heq]
    decide
  · rw [heq]
    decide
  · rw [heq]
    have := gpr_lt n
    omega

/-- After the assignments of the `switch`, the delayed load is what it was. -/
theorem Instruction.assigned_LoadReg {i : Instruction} {r : Registers} {pcAfter : BitVec 32}
    {assigned : List (Fin NumTotalRegs × BitVec 32)}
    (h : i.execute r = .next assigned pcAfter) (R : Registers) {x : Fin NumTotalRegs}
    (hx : 34 ≤ x.val) : (R.assign assigned) x = R x := by
  apply Registers.assign_of_not_mem
  rintro a ha rfl
  have := Instruction.assigned_lt h a ha
  omega

namespace Turn

variable {M : Type} {r : Registers} {m : M}

theorem finish_eq (n v pcAfter : BitVec 32) (h : (r LoadReg).toNat < 32) :
    finish r m n v pcAfter = some (.done (advancePCs pcAfter (r.settle n v)) m) := by
  rw [finish, Registers.delayedLoad_eq n v h, Option.map_some]

theorem raise_eq (which : ExceptionType) (badVAddr : BitVec 32)
    (h : (r LoadReg).toNat < 32) :
    raise r m which badVAddr =
      some (.trap ((r.set BadVAddrReg badVAddr).settle 0 0) m which badVAddr) := by
  have hset : ((r.set BadVAddrReg badVAddr) LoadReg).toNat < 32 := by
    rw [Registers.set, Function.update_of_ne (by decide)]
    exact h
  rw [raise, Machine.raiseException, Registers.delayedLoad_eq 0 0 hset, Option.map_some]

def registers : Turn M → Registers
  | .done r _ => r
  | .trap r _ _ _ => r

end Turn

/-! ## §4  One instruction -/

/-- The registers at the call of `ExceptionHandler`. -/
def Registers.trapped (badVAddr : BitVec 32) (r : Registers) : Registers :=
  (r.set BadVAddrReg badVAddr).settle 0 0

/-- The registers after an instruction that is done. -/
def Registers.retired (nextLoadReg nextLoadValue pcAfter : BitVec 32) (r : Registers) :
    Registers :=
  advancePCs pcAfter (r.settle nextLoadReg nextLoadValue)

/-- **What one instruction can do.** -/
inductive Executes {M : Type} (memory : UserMemory M) (r : Registers) (m : M) :
    Turn M → Prop where
  | fetchFault (which : ExceptionType)
      (hfetch : memory.readMem m (r PCReg) .word = .error which) :
      Executes memory r m (.trap (r.trapped (r PCReg)) m which (r PCReg))
  | next (raw : BitVec 32) (m₁ : M) (assigned : List (Fin NumTotalRegs × BitVec 32))
      (pcAfter : BitVec 32)
      (hfetch : memory.readMem m (r PCReg) .word = .ok (raw, m₁))
      (hbody : (Instruction.decode raw).execute r = .next assigned pcAfter) :
      Executes memory r m (.done ((r.assign assigned).retired 0 0 pcAfter) m₁)
  | raise (raw : BitVec 32) (m₁ : M) (which : ExceptionType) (badVAddr : BitVec 32)
      (hfetch : memory.readMem m (r PCReg) .word = .ok (raw, m₁))
      (hbody : (Instruction.decode raw).execute r = .raise which badVAddr) :
      Executes memory r m (.trap (r.trapped badVAddr) m₁ which badVAddr)
  | load (raw : BitVec 32) (m₁ : M) (addr : BitVec 32) (size : Width)
      (nextLoadValue : BitVec 32 → BitVec 32) (value : BitVec 32) (m₂ : M)
      (hfetch : memory.readMem m (r PCReg) .word = .ok (raw, m₁))
      (hbody : (Instruction.decode raw).execute r = .load addr size nextLoadValue)
      (hread : memory.readMem m₁ addr size = .ok (value, m₂)) :
      Executes memory r m (.done (r.retired ((Instruction.decode raw).rt.setWidth 32)
        (nextLoadValue value) (r NextPCReg + 4)) m₂)
  | loadFault (raw : BitVec 32) (m₁ : M) (addr : BitVec 32) (size : Width)
      (nextLoadValue : BitVec 32 → BitVec 32) (which : ExceptionType)
      (hfetch : memory.readMem m (r PCReg) .word = .ok (raw, m₁))
      (hbody : (Instruction.decode raw).execute r = .load addr size nextLoadValue)
      (hread : memory.readMem m₁ addr size = .error which) :
      Executes memory r m (.trap (r.trapped addr) m₁ which addr)
  | store (raw : BitVec 32) (m₁ : M) (addr : BitVec 32) (size : Width)
      (value : BitVec 32) (m₂ : M)
      (hfetch : memory.readMem m (r PCReg) .word = .ok (raw, m₁))
      (hbody : (Instruction.decode raw).execute r = .store addr size value)
      (hwrite : memory.writeMem m₁ addr size value = .ok m₂) :
      Executes memory r m (.done (r.retired 0 0 (r NextPCReg + 4)) m₂)
  | storeFault (raw : BitVec 32) (m₁ : M) (addr : BitVec 32) (size : Width)
      (value : BitVec 32) (which : ExceptionType)
      (hfetch : memory.readMem m (r PCReg) .word = .ok (raw, m₁))
      (hbody : (Instruction.decode raw).execute r = .store addr size value)
      (hwrite : memory.writeMem m₁ addr size value = .error which) :
      Executes memory r m (.trap (r.trapped addr) m₁ which addr)
  | replace (raw : BitVec 32) (m₁ : M) (addr : BitVec 32)
      (newValue : BitVec 32 → BitVec 32) (value : BitVec 32) (m₂ m₃ : M)
      (hfetch : memory.readMem m (r PCReg) .word = .ok (raw, m₁))
      (hbody : (Instruction.decode raw).execute r = .replace addr newValue)
      (hread : memory.readMem m₁ addr .word = .ok (value, m₂))
      (hwrite : memory.writeMem m₂ addr .word (newValue value) = .ok m₃) :
      Executes memory r m (.done (r.retired 0 0 (r NextPCReg + 4)) m₃)
  | replaceReadFault (raw : BitVec 32) (m₁ : M) (addr : BitVec 32)
      (newValue : BitVec 32 → BitVec 32) (which : ExceptionType)
      (hfetch : memory.readMem m (r PCReg) .word = .ok (raw, m₁))
      (hbody : (Instruction.decode raw).execute r = .replace addr newValue)
      (hread : memory.readMem m₁ addr .word = .error which) :
      Executes memory r m (.trap (r.trapped addr) m₁ which addr)
  | replaceWriteFault (raw : BitVec 32) (m₁ : M) (addr : BitVec 32)
      (newValue : BitVec 32 → BitVec 32) (value : BitVec 32) (m₂ : M)
      (which : ExceptionType)
      (hfetch : memory.readMem m (r PCReg) .word = .ok (raw, m₁))
      (hbody : (Instruction.decode raw).execute r = .replace addr newValue)
      (hread : memory.readMem m₁ addr .word = .ok (value, m₂))
      (hwrite : memory.writeMem m₂ addr .word (newValue value) = .error which) :
      Executes memory r m (.trap (r.trapped addr) m₂ which addr)

variable {M : Type} {memory : UserMemory M} {r : Registers} {m : M}

theorem finish_assigned {i : Instruction} {pcAfter : BitVec 32}
    {assigned : List (Fin NumTotalRegs × BitVec 32)} (hr : (r LoadReg).toNat < 32)
    (h : i.execute r = .next assigned pcAfter) :
    Turn.finish (r.assign assigned) m 0 0 pcAfter =
      some (.done ((r.assign assigned).retired 0 0 pcAfter) m) := by
  apply Turn.finish_eq
  rwa [Instruction.assigned_LoadReg h r (by decide)]

theorem executes_of_some (hr : (r LoadReg).toNat < 32) {t : Turn M}
    (h : Machine.oneInstruction memory r m = some t) : Executes memory r m t := by
  unfold Machine.oneInstruction at h
  cases hfetch : memory.readMem m (r PCReg) .word with
  | error which =>
      simp only [hfetch, Turn.raise_eq _ _ hr, Option.some.injEq] at h
      subst h
      exact .fetchFault which hfetch
  | ok p =>
      obtain ⟨raw, m₁⟩ := p
      simp only [hfetch] at h
      cases hbody : (Instruction.decode raw).execute r with
      | next assigned pcAfter =>
          simp only [hbody, finish_assigned hr hbody, Option.some.injEq] at h
          subst h
          exact .next raw m₁ assigned pcAfter hfetch hbody
      | load addr size nextLoadValue =>
          simp only [hbody] at h
          cases hread : memory.readMem m₁ addr size with
          | error which =>
              simp only [hread, Turn.raise_eq _ _ hr, Option.some.injEq] at h
              subst h
              exact .loadFault raw m₁ addr size nextLoadValue which hfetch hbody hread
          | ok p =>
              simp only [hread, Turn.finish_eq _ _ _ hr, Option.some.injEq] at h
              subst h
              exact .load raw m₁ addr size nextLoadValue p.1 p.2 hfetch hbody hread
      | store addr size value =>
          simp only [hbody] at h
          cases hwrite : memory.writeMem m₁ addr size value with
          | error which =>
              simp only [hwrite, Turn.raise_eq _ _ hr, Option.some.injEq] at h
              subst h
              exact .storeFault raw m₁ addr size value which hfetch hbody hwrite
          | ok m₂ =>
              simp only [hwrite, Turn.finish_eq _ _ _ hr, Option.some.injEq] at h
              subst h
              exact .store raw m₁ addr size value m₂ hfetch hbody hwrite
      | replace addr newValue =>
          simp only [hbody] at h
          cases hread : memory.readMem m₁ addr .word with
          | error which =>
              simp only [hread, Turn.raise_eq _ _ hr, Option.some.injEq] at h
              subst h
              exact .replaceReadFault raw m₁ addr newValue which hfetch hbody hread
          | ok p =>
              obtain ⟨value, m₂⟩ := p
              simp only [hread] at h
              cases hwrite : memory.writeMem m₂ addr .word (newValue value) with
              | error which =>
                  simp only [hwrite, Turn.raise_eq _ _ hr, Option.some.injEq] at h
                  subst h
                  exact .replaceWriteFault raw m₁ addr newValue value m₂ which hfetch hbody
                    hread hwrite
              | ok m₃ =>
                  simp only [hwrite, Turn.finish_eq _ _ _ hr, Option.some.injEq] at h
                  subst h
                  exact .replace raw m₁ addr newValue value m₂ m₃ hfetch hbody hread hwrite
      | raise which badVAddr =>
          simp only [hbody, Turn.raise_eq _ _ hr, Option.some.injEq] at h
          subst h
          exact .raise raw m₁ which badVAddr hfetch hbody
      | undefined =>
          simp only [hbody] at h
          cases h

theorem some_of_executes (hr : (r LoadReg).toNat < 32) {t : Turn M}
    (h : Executes memory r m t) : Machine.oneInstruction memory r m = some t := by
  unfold Machine.oneInstruction
  cases h with
  | fetchFault which hfetch => simp only [hfetch, Turn.raise_eq _ _ hr, Registers.trapped]
  | next raw m₁ assigned pcAfter hfetch hbody =>
      simp only [hfetch, hbody, finish_assigned hr hbody]
  | raise raw m₁ which badVAddr hfetch hbody =>
      simp only [hfetch, hbody, Turn.raise_eq _ _ hr, Registers.trapped]
  | load raw m₁ addr size f value m₂ hfetch hbody hread =>
      simp only [hfetch, hbody, hread, Turn.finish_eq _ _ _ hr, Registers.retired]
  | loadFault raw m₁ addr size f which hfetch hbody hread =>
      simp only [hfetch, hbody, hread, Turn.raise_eq _ _ hr, Registers.trapped]
  | store raw m₁ addr size value m₂ hfetch hbody hwrite =>
      simp only [hfetch, hbody, hwrite, Turn.finish_eq _ _ _ hr, Registers.retired]
  | storeFault raw m₁ addr size value which hfetch hbody hwrite =>
      simp only [hfetch, hbody, hwrite, Turn.raise_eq _ _ hr, Registers.trapped]
  | replace raw m₁ addr f value m₂ m₃ hfetch hbody hread hwrite =>
      simp only [hfetch, hbody, hread, hwrite, Turn.finish_eq _ _ _ hr, Registers.retired]
  | replaceReadFault raw m₁ addr f which hfetch hbody hread =>
      simp only [hfetch, hbody, hread, Turn.raise_eq _ _ hr, Registers.trapped]
  | replaceWriteFault raw m₁ addr f value m₂ which hfetch hbody hread hwrite =>
      simp only [hfetch, hbody, hread, hwrite, Turn.raise_eq _ _ hr, Registers.trapped]

theorem Executes.sane {t : Turn M} (h : Executes memory r m t) : t.registers.Sane := by
  have hrt : ∀ n : BitVec 5, (n.setWidth 32).toNat < 32 := by
    intro n
    rw [BitVec.toNat_setWidth_of_le (by decide)]
    exact n.isLt
  cases h with
  | load => exact (Registers.sane_settle _ (hrt _)).advancePCs
  | next => exact (Registers.sane_settle _ (by decide)).advancePCs
  | store => exact (Registers.sane_settle _ (by decide)).advancePCs
  | replace => exact (Registers.sane_settle _ (by decide)).advancePCs
  | _ => exact Registers.sane_settle _ (by decide)

end OsAssignments.MemoryManagement
