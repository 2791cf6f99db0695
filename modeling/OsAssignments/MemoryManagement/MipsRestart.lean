import OsAssignments.MemoryManagement.MipsRegisters

/-!
# Restarting an instruction

A page fault, like every trap and every interrupt, does the delayed load early
(`RaiseException` and `CheckIfDue` call `DelayedLoad(0, 0)`), and the faulting
instruction is executed again from its fetch. An instruction in the delay slot of a
load then sees the loaded value, which without the fault it would not.

- `Hazard` — the instruction reads or assigns the register of the delayed load.
- `Settles` — the registers of the real machine are those of a machine without traps,
  or those once its delayed load is done.
- `Executes.retires` — without hazards, an instruction that is done at last has done
  what it does without traps; `Executes.trapped` — a trap changes nothing.
-/

namespace OsAssignments.MemoryManagement

/-! ## §1  Registers up to a delayed load -/

namespace Registers

/-- The same but for `BadVAddrReg`, and for the value of a delayed load into `R0`. -/
structure Same (r R : Registers) : Prop where
  regs : ∀ x, x ≠ BadVAddrReg → x ≠ LoadValueReg → r x = R x
  value : R LoadReg ≠ 0 → r LoadValueReg = R LoadValueReg

/-- `r` is `R`, or `R` with its delayed load done. -/
def Settles (R r : Registers) : Prop := r.Same R ∨ r.Same (R.settle 0 0)

variable {r R : Registers}

theorem Same.refl (r : Registers) : r.Same r := ⟨fun _ _ _ => rfl, fun _ => rfl⟩

theorem Same.load (h : r.Same R) : r LoadReg = R LoadReg :=
  h.regs LoadReg (by decide) (by decide)

theorem Same.gpr (h : r.Same R) (n : BitVec 5) : r (gpr n) = R (gpr n) := by
  have hlt := gpr_lt n
  apply h.regs <;> apply Fin.ne_of_val_ne <;> simp only [BadVAddrReg, LoadValueReg] <;> omega

theorem Same.sane (h : r.Same R) (hR : R.Sane) : r.Sane := by
  constructor
  · rw [h.regs R0 (by decide) (by decide), hR.zero]
  · rw [h.load]
    exact hR.load

/-- A delayed load of the same value. -/
theorem Same.settle {n v w : BitVec 32} (h : r.Same R) (hvw : n ≠ 0 → v = w) :
    (r.settle n v).Same (R.settle n w) := by
  constructor
  · intro x hbad hval
    unfold Registers.settle
    by_cases h0 : x = R0
    · rw [if_pos h0, if_pos h0]
    by_cases hl : x = LoadReg
    · subst hl
      rfl
    rw [if_neg h0, if_neg hval, if_neg hl, if_neg h0, if_neg hval, if_neg hl, h.load]
    split
    · rename_i hx
      apply h.value
      intro hzero
      rw [hzero] at hx
      exact h0 (Fin.ext hx)
    · exact h.regs x hbad hval
  · exact hvw

theorem Same.set {x : Fin NumTotalRegs} {v : BitVec 32} (h : r.Same R)
    (hx : x ≠ LoadReg) : (r.set x v).Same (R.set x v) := by
  constructor
  · intro y hbad hval
    by_cases hyx : y = x
    · subst hyx
      simp
    · simpa [hyx] using h.regs y hbad hval
  · intro hne
    rw [Registers.set, Function.update_of_ne hx.symm] at hne
    by_cases hval : LoadValueReg = x
    · subst hval
      simp
    · simpa [hval] using h.value hne

theorem Same.assign {assigned : List (Fin NumTotalRegs × BitVec 32)}
    (h : r.Same R) (hlt : ∀ a ∈ assigned, a.1.val < 34) :
    (r.assign assigned).Same (R.assign assigned) := by
  have hne : ∀ x : Fin NumTotalRegs, 34 ≤ x.val → ∀ a ∈ assigned, a.1 ≠ x := by
    rintro x hx a ha rfl
    have := hlt a ha
    omega
  constructor
  · exact fun x hbad hval => assign_congr (h.regs x hbad hval)
  · rw [assign_of_not_mem (hne LoadReg (by decide)),
      assign_of_not_mem (hne LoadValueReg (by decide)),
      assign_of_not_mem (hne LoadValueReg (by decide))]
    exact h.value

theorem Same.advancePCs {pcAfter : BitVec 32} (h : r.Same R) :
    (advancePCs pcAfter r).Same (advancePCs pcAfter R) := by
  unfold MemoryManagement.advancePCs
  rw [h.regs PCReg (by decide) (by decide), h.regs NextPCReg (by decide) (by decide)]
  exact ((h.set (by decide)).set (by decide)).set (by decide)

/-- Doing a delayed load that is not there. -/
theorem settle_same (h : r.Sane) (hload : r LoadReg = 0) : (r.settle 0 0).Same r := by
  constructor
  · intro x _ hval
    unfold Registers.settle
    by_cases h0 : x = R0
    · rw [if_pos h0, h0, h.zero]
    rw [if_neg h0, if_neg hval]
    split
    · rename_i hl
      rw [hl, hload]
    · rw [if_neg]
      intro hx
      rw [hload] at hx
      exact h0 (Fin.ext hx)
  · exact fun hne => absurd hload hne

theorem Settles.sane (h : R.Settles r) (hR : R.Sane) : r.Sane := by
  rcases h with h | h
  · exact h.sane hR
  · exact h.sane (sane_settle 0 (by decide))

theorem Same.trans {q : Registers} (h : q.Same r) (h' : r.Same R) : q.Same R := by
  constructor
  · exact fun x hbad hval => (h.regs x hbad hval).trans (h'.regs x hbad hval)
  · intro hne
    rw [h.value (by rwa [h'.load]), h'.value hne]

/-- **An interrupt** does the delayed load early. -/
theorem Settles.settle (h : R.Settles r) : R.Settles (r.settle 0 0) := by
  right
  rcases h with h | h
  · exact h.settle fun _ => rfl
  · have hsane : r.Sane := h.sane (sane_settle 0 (by decide))
    exact (settle_same hsane (by rw [h.load]; rfl)).trans h

/-- **A trap** does so too, and sets `BadVAddrReg`. -/
theorem Settles.trapped (h : R.Settles r) (badVAddr : BitVec 32) :
    R.Settles (r.trapped badVAddr) := by
  have hset : R.Settles (r.set BadVAddrReg badVAddr) := by
    have hsame : (r.set BadVAddrReg badVAddr).Same r := by
      constructor
      · intro x hbad _
        simp [hbad]
      · intro _
        simp [LoadValueReg, BadVAddrReg]
    exact h.imp hsame.trans hsame.trans
  exact hset.settle

theorem settle_apply {x : Fin NumTotalRegs} {n v : BitVec 32} (h0 : x ≠ R0)
    (hval : x ≠ LoadValueReg) (hl : x ≠ LoadReg) :
    r.settle n v x = if x.val = (r LoadReg).toNat then r LoadValueReg else r x := by
  simp only [Registers.settle, if_neg h0, if_neg hval, if_neg hl]

theorem Settles.reg {x : Fin NumTotalRegs} (h : R.Settles r) (hR : R.Sane) (hx : 32 ≤ x.val)
    (hbad : x ≠ BadVAddrReg) (hval : x ≠ LoadValueReg) (hl : x ≠ LoadReg) : r x = R x := by
  rcases h with h | h
  · exact h.regs x hbad hval
  · have h0 : x ≠ R0 := by
      rintro rfl
      simp [R0] at hx
    rw [h.regs x hbad hval, settle_apply h0 hval hl, if_neg]
    have := hR.load
    omega

/-- The delayed load comes after the assignments of the `switch`; it may as well have come
before them, unless they assign its register. -/
theorem Same.settle_assign {assigned : List (Fin NumTotalRegs × BitVec 32)}
    {n v w : BitVec 32} (h : r.Same (R.settle 0 0))
    (hlt : ∀ a ∈ assigned, a.1.val < 34)
    (hfree : R LoadReg ≠ 0 → ∀ a ∈ assigned, a.1.val ≠ (R LoadReg).toNat)
    (hvw : n ≠ 0 → v = w) :
    ((r.assign assigned).settle n v).Same ((R.assign assigned).settle n w) := by
  have hne : ∀ x : Fin NumTotalRegs, 34 ≤ x.val → ∀ a ∈ assigned, a.1 ≠ x := by
    rintro x hx a ha rfl
    have := hlt a ha
    omega
  have hzero : r LoadReg = 0 := h.load
  constructor
  · intro x hbad hval
    by_cases h0 : x = R0
    · subst h0
      rfl
    by_cases hl : x = LoadReg
    · subst hl
      rfl
    have hnil : ∀ {b : BitVec 32}, b = 0 → x.val ≠ b.toNat := by
      rintro b rfl hx
      exact h0 (Fin.ext hx)
    rw [settle_apply h0 hval hl, settle_apply h0 hval hl,
      assign_of_not_mem (hne LoadReg (by decide)), assign_of_not_mem (hne LoadReg (by decide)),
      assign_of_not_mem (r := R) (hne LoadValueReg (by decide)), if_neg (hnil hzero)]
    have hx := (h.regs x hbad hval).trans (settle_apply h0 hval hl)
    split
    · rename_i hload
      rw [if_pos hload] at hx
      rw [assign_of_not_mem, hx]
      rintro a ha rfl
      exact hfree (fun hnone => hnil hnone hload) a ha hload
    · rename_i hload
      rw [if_neg hload] at hx
      exact assign_congr hx
  · exact hvw

end Registers

/-! ## §2  Hazards -/

/-- The instruction reads or assigns the register of the delayed load. -/
def Hazard (R : Registers) (i : Instruction) : Prop :=
  R LoadReg ≠ 0 ∧ ∃ n ∈ i.reads ++ i.writes, (gpr n).val = (R LoadReg).toNat

instance (R : Registers) (i : Instruction) : Decidable (Hazard R i) :=
  inferInstanceAs (Decidable (_ ∧ _))

namespace Registers

variable {r R : Registers} {i : Instruction}

/-- A general register that is not that of the delayed load. -/
theorem Same.gpr_of_ne {n : BitVec 5} (h : r.Same (R.settle 0 0)) (hR : R.Sane)
    (hne : R LoadReg ≠ 0 → (MemoryManagement.gpr n).val ≠ (R LoadReg).toNat) :
    r (MemoryManagement.gpr n) = R (MemoryManagement.gpr n) := by
  have hlt := gpr_lt n
  rw [h.gpr n]
  by_cases h0 : MemoryManagement.gpr n = R0
  · rw [h0, hR.zero]
    rfl
  · rw [settle_apply h0 (Fin.ne_of_val_ne (by simp only [LoadValueReg]; omega))
      (Fin.ne_of_val_ne (by simp only [LoadReg]; omega)), if_neg]
    intro hx
    apply hne _ hx
    intro hnone
    rw [hnone] at hx
    exact h0 (Fin.ext hx)

theorem Settles.alike (h : R.Settles r) (hR : R.Sane) (hfree : ¬ Hazard R i) :
    i.Alike r R := by
  constructor
  · intro n hn
    rcases h with h | h
    · exact h.gpr n
    · apply h.gpr_of_ne hR
      intro hload hx
      exact hfree ⟨hload, n, List.mem_append_left _ hn, hx⟩
  · exact h.reg hR (by decide) (by decide) (by decide) (by decide)
  · exact h.reg hR (by decide) (by decide) (by decide) (by decide)
  · exact h.reg hR (by decide) (by decide) (by decide) (by decide)
  · intro hrt
    have hval : (MemoryManagement.gpr i.rt).val ≠ 0 := by
      intro hzero
      exact hrt (BitVec.eq_of_toNat_eq hzero)
    unfold Instruction.merged
    rcases h with h | h
    · rw [h.load, h.gpr]
      split
      · rename_i hload
        apply h.value
        intro hnone
        rw [hnone] at hload
        exact hval hload.symm
      · rfl
    · have hzero : r LoadReg = 0 := h.load
      have hlt := gpr_lt i.rt
      rw [if_neg (by rw [hzero]; exact Ne.symm hval), h.gpr,
        settle_apply (fun h0 => hval (congrArg Fin.val h0))
          (Fin.ne_of_val_ne (by simp only [LoadValueReg]; omega))
          (Fin.ne_of_val_ne (by simp only [LoadReg]; omega))]
      simp only [eq_comm]

/-- The registers after an instruction that has not met a hazard. -/
theorem Settles.retired {assigned : List (Fin NumTotalRegs × BitVec 32)}
    {n v w pcAfter : BitVec 32} (h : R.Settles r)
    (hlt : ∀ a ∈ assigned, a.1.val < 34)
    (hfree : R LoadReg ≠ 0 → ∀ a ∈ assigned, a.1.val ≠ (R LoadReg).toNat)
    (hvw : n ≠ 0 → v = w) :
    ((R.assign assigned).retired n w pcAfter).Settles
      ((r.assign assigned).retired n v pcAfter) := by
  left
  apply Same.advancePCs
  rcases h with h | h
  · exact (h.assign hlt).settle hvw
  · exact h.settle_assign hlt hfree hvw

end Registers

/-! ## §3  One instruction on two memories -/

/-- `flat` does what `memory` does, as far as `Shows` says. What `flat` was before an
access is found from what it is afterwards, so that bytes may be left open until they
are seen. -/
structure Backed {M F : Type} (memory : UserMemory M) (flat : UserMemory F)
    (Good : M → Prop) (Shows : M → F → Prop) : Prop where
  readMem : ∀ {m m' : M} {addr value : BitVec 32} {size : Width}, Good m →
    memory.readMem m addr size = .ok (value, m') →
    Good m' ∧ ∀ f, Shows m' f → Shows m f ∧ flat.readMem f addr size = .ok (value, f)
  writeMem : ∀ {m m' : M} {addr value : BitVec 32} {size : Width}, Good m →
    memory.writeMem m addr size value = .ok m' →
    Good m' ∧ ∀ f', Shows m' f' → ∃ f, Shows m f ∧ flat.writeMem f addr size value = .ok f'

/-- The instruction that is executed next meets no hazard. -/
def HazardFree {F : Type} (flat : UserMemory F) (R : Registers) (f : F) : Prop :=
  ∀ raw f', flat.readMem f (R PCReg) .word = .ok (raw, f') → ¬ Hazard R (.decode raw)

instance {F : Type} (flat : UserMemory F) (R : Registers) (f : F) :
    Decidable (HazardFree flat R f) :=
  match h : flat.readMem f (R PCReg) .word with
  | .error _ => isTrue fun raw f' hfetch => by
      rw [h] at hfetch
      cases hfetch
  | .ok (raw, f') =>
      if hfree : ¬ Hazard R (.decode raw) then isTrue fun raw' f₁ hfetch => by
        rw [h] at hfetch
        cases hfetch
        exact hfree
      else isFalse fun hall => hfree (hall raw f' h)

namespace Executes

variable {M F : Type} {memory : UserMemory M} {flat : UserMemory F}
  {Good : M → Prop} {Shows : M → F → Prop} {r R : Registers} {m : M}

/-- **A trap** leaves the instruction as it was, to be executed again. -/
theorem trapped (hb : Backed memory flat Good Shows) (hm : Good m) (hs : R.Settles r)
    {r' : Registers} {m' : M} {which : ExceptionType} {badVAddr : BitVec 32}
    (h : Executes memory r m (.trap r' m' which badVAddr)) :
    R.Settles r' ∧ Good m' ∧ ∀ f, Shows m' f → Shows m f := by
  cases h with
  | fetchFault which hfetch => exact ⟨hs.trapped _, hm, fun _ => id⟩
  | raise raw m₁ which badVAddr hfetch hbody =>
      obtain ⟨hm', hback⟩ := hb.readMem hm hfetch
      exact ⟨hs.trapped _, hm', fun f hf => (hback f hf).1⟩
  | loadFault raw m₁ addr size f which hfetch hbody hread =>
      obtain ⟨hm', hback⟩ := hb.readMem hm hfetch
      exact ⟨hs.trapped _, hm', fun f hf => (hback f hf).1⟩
  | storeFault raw m₁ addr size value which hfetch hbody hwrite =>
      obtain ⟨hm', hback⟩ := hb.readMem hm hfetch
      exact ⟨hs.trapped _, hm', fun f hf => (hback f hf).1⟩
  | replaceReadFault raw m₁ addr f which hfetch hbody hread =>
      obtain ⟨hm', hback⟩ := hb.readMem hm hfetch
      exact ⟨hs.trapped _, hm', fun f hf => (hback f hf).1⟩
  | replaceWriteFault raw m₁ addr f value m₂ which hfetch hbody hread hwrite =>
      obtain ⟨hm₁, hback₁⟩ := hb.readMem hm hfetch
      obtain ⟨hm', hback⟩ := hb.readMem hm₁ hread
      exact ⟨hs.trapped _, hm', fun f hf => (hback₁ f (hback f hf).1).1⟩

/-- What the `switch` does on the flat machine. -/
theorem body_eq {i : Instruction} (hs : R.Settles r) (hR : R.Sane) (hfree : ¬ Hazard R i) :
    i.execute R = i.execute r ∨ i.rt = 0 ∧ ∃ addr f g,
      i.execute r = .load addr .word f ∧ i.execute R = .load addr .word g :=
  (Instruction.execute_congr (hs.alike hR hfree)).imp_left Eq.symm

theorem assigned_free {i : Instruction} {pcAfter : BitVec 32}
    {assigned : List (Fin NumTotalRegs × BitVec 32)} (hR : R.Sane) (hfree : ¬ Hazard R i)
    (h : i.execute r = .next assigned pcAfter) :
    R LoadReg ≠ 0 → ∀ a ∈ assigned, a.1.val ≠ (R LoadReg).toNat := by
  intro hload a ha hx
  have hlt := hR.load
  rcases Instruction.execute_assigned h a ha with heq | heq | ⟨n, hn, heq⟩
  · rw [← hx, heq] at hlt
    exact absurd hlt (by decide)
  · rw [← hx, heq] at hlt
    exact absurd hlt (by decide)
  · rw [heq] at hx
    exact hfree ⟨hload, n, List.mem_append_right _ hn, hx⟩

/-- **An instruction that is done** has done what it does on the flat machine, which has
neither faults nor interrupts. -/
theorem retires (hb : Backed memory flat Good Shows) (hm : Good m) {r' : Registers} {m' : M}
    {f' : F} (h : Executes memory r m (.done r' m')) (hf' : Shows m' f') :
    Good m' ∧ ∃ f, Shows m f ∧ ∀ R : Registers, R.Settles r → R.Sane → HazardFree flat R f →
      ∃ R', Executes flat R f (.done R' f') ∧ R'.Settles r' := by
  have hpc : ∀ {R : Registers}, R.Settles r → R.Sane → r PCReg = R PCReg :=
    fun hs hR => hs.reg hR (by decide) (by decide) (by decide) (by decide)
  have hnext : ∀ {R : Registers}, R.Settles r → R.Sane → r NextPCReg = R NextPCReg :=
    fun hs hR => hs.reg hR (by decide) (by decide) (by decide) (by decide)
  have hnil : ∀ a ∈ ([] : List (Fin NumTotalRegs × BitVec 32)), a.1.val < 34 := by simp
  have hnone : ∀ R : Registers, R LoadReg ≠ 0 →
      ∀ a ∈ ([] : List (Fin NumTotalRegs × BitVec 32)),
        a.1.val ≠ (R LoadReg).toNat := by simp
  cases h with
  | next raw m₁ assigned pcAfter hfetch hbody =>
      obtain ⟨hm', hback⟩ := hb.readMem hm hfetch
      obtain ⟨hf, hflat⟩ := hback f' hf'
      refine ⟨hm', f', hf, fun R hs hR hhaz => ?_⟩
      rw [hpc hs hR] at hflat
      have hfree := hhaz raw f' hflat
      rcases body_eq hs hR hfree with heq | ⟨-, _, _, _, heq, -⟩
      · exact ⟨_, .next raw f' assigned pcAfter hflat (heq.trans hbody),
          hs.retired (Instruction.assigned_lt hbody) (assigned_free hR hfree hbody)
            fun _ => rfl⟩
      · rw [hbody] at heq
        cases heq
  | load raw m₁ addr size g value m₂ hfetch hbody hread =>
      obtain ⟨hm₁, hback₁⟩ := hb.readMem hm hfetch
      obtain ⟨hm', hback⟩ := hb.readMem hm₁ hread
      obtain ⟨hf₁, hread'⟩ := hback f' hf'
      obtain ⟨hf, hflat⟩ := hback₁ f' hf₁
      refine ⟨hm', f', hf, fun R hs hR hhaz => ?_⟩
      rw [hpc hs hR] at hflat
      rw [hnext hs hR]
      have hfree := hhaz raw f' hflat
      rcases body_eq hs hR hfree with heq | ⟨hrt, addr', _, g', heq, heq'⟩
      · exact ⟨_, .load raw f' addr size g value f' hflat (heq.trans hbody) hread',
          hs.retired hnil (hnone R) fun _ => rfl⟩
      · rw [hbody] at heq
        cases heq
        refine ⟨_, .load raw f' addr .word g' value f' hflat heq' hread', ?_⟩
        rw [hrt]
        exact hs.retired hnil (hnone R) fun hne => absurd rfl hne
  | store raw m₁ addr size value m₂ hfetch hbody hwrite =>
      obtain ⟨hm₁, hback₁⟩ := hb.readMem hm hfetch
      obtain ⟨hm', hback⟩ := hb.writeMem hm₁ hwrite
      obtain ⟨f, hf₁, hwrite'⟩ := hback f' hf'
      obtain ⟨hf, hflat⟩ := hback₁ f hf₁
      refine ⟨hm', f, hf, fun R hs hR hhaz => ?_⟩
      rw [hpc hs hR] at hflat
      rw [hnext hs hR]
      have hfree := hhaz raw f hflat
      rcases body_eq hs hR hfree with heq | ⟨-, _, _, _, heq, -⟩
      · exact ⟨_, .store raw f addr size value f' hflat (heq.trans hbody) hwrite',
          hs.retired hnil (hnone R) fun _ => rfl⟩
      · rw [hbody] at heq
        cases heq
  | replace raw m₁ addr g value m₂ m₃ hfetch hbody hread hwrite =>
      obtain ⟨hm₁, hback₁⟩ := hb.readMem hm hfetch
      obtain ⟨hm₂, hback₂⟩ := hb.readMem hm₁ hread
      obtain ⟨hm', hback⟩ := hb.writeMem hm₂ hwrite
      obtain ⟨f, hf₂, hwrite'⟩ := hback f' hf'
      obtain ⟨hf₁, hread'⟩ := hback₂ f hf₂
      obtain ⟨hf, hflat⟩ := hback₁ f hf₁
      refine ⟨hm', f, hf, fun R hs hR hhaz => ?_⟩
      rw [hpc hs hR] at hflat
      rw [hnext hs hR]
      have hfree := hhaz raw f hflat
      rcases body_eq hs hR hfree with heq | ⟨-, _, _, _, heq, -⟩
      · exact ⟨_, .replace raw f addr g value f f' hflat (heq.trans hbody) hread' hwrite',
          hs.retired hnil (hnone R) fun _ => rfl⟩
      · rw [hbody] at heq
        cases heq

end Executes

end OsAssignments.MemoryManagement
