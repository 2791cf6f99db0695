import OsAssignments.ProcessManagement.CopyFromUser

/-!
# The program counters in `ExceptionHandler`

Every system call that returns advances the counters itself, behind everything that can
fail. Two ways back to the program leave them alone: an overflow, of which the handler only
prints a warning, and `Open` of a file that is not there.

- `exceptionHandler_ok` — where the handler comes to, and with which counters.
-/

namespace OsAssignments.ProcessManagement

open FilesysStub
open MemoryManagement (ExceptionType)

/-! ## §1  The counters -/

/-- The counters are those of the trap. -/
structure SamePCs (trap r : Registers) : Prop where
  prevPC : r PrevPCReg = trap PrevPCReg
  pc : r PCReg = trap PCReg
  nextPC : r NextPCReg = trap NextPCReg

/-- They have been advanced once. -/
structure Advanced (trap r : Registers) : Prop where
  prevPC : r PrevPCReg = trap PCReg
  pc : r PCReg = trap NextPCReg
  nextPC : r NextPCReg = trap NextPCReg + 4

theorem SamePCs.refl (r : Registers) : SamePCs r r := ⟨rfl, rfl, rfl⟩

theorem SamePCs.of_eq {trap r : Registers} (h : r = trap) : SamePCs trap r :=
  h ▸ SamePCs.refl trap

/-- The result goes into another register. -/
theorem SamePCs.result {trap r : Registers} (h : SamePCs trap r) (value : BitVec 32) :
    SamePCs trap (Function.update r ResultReg value) :=
  ⟨(Function.update_of_ne (by decide) _ _).trans h.prevPC,
    (Function.update_of_ne (by decide) _ _).trans h.pc,
    (Function.update_of_ne (by decide) _ _).trans h.nextPC⟩

theorem Advanced.result {trap r : Registers} (h : Advanced trap r) (value : BitVec 32) :
    Advanced trap (Function.update r ResultReg value) :=
  ⟨(Function.update_of_ne (by decide) _ _).trans h.prevPC,
    (Function.update_of_ne (by decide) _ _).trans h.pc,
    (Function.update_of_ne (by decide) _ _).trans h.nextPC⟩

/-- **`incrementPC`** advances them once. -/
theorem SamePCs.advance {trap r : Registers} (h : SamePCs trap r) :
    Advanced trap (SystemCalls.advance r) := by
  refine ⟨?_, ?_, ?_⟩
  · rw [SystemCalls.advance, Function.update_of_ne (by decide), Function.update_of_ne (by decide),
      Function.update_self, h.pc]
  · rw [SystemCalls.advance, Function.update_of_ne (by decide), Function.update_self, h.nextPC]
  · rw [SystemCalls.advance, Function.update_self, h.nextPC]

/-- The next instruction is never the same one again. -/
theorem SamePCs.not_advanced {trap r : Registers} (h : SamePCs trap r) : ¬ Advanced trap r := by
  intro hadv
  have hnext : trap NextPCReg = trap NextPCReg + 4 := h.nextPC.symm.trans hadv.nextPC
  have hzero : (4 : BitVec 32) = 0 := BitVec.self_eq_add_right.mp hnext
  revert hzero
  decide

namespace SystemCalls

/-! ## §2  What leaves the registers alone -/

def SameRegisters (u u' : CallState) : Prop := u'.registers = u.registers

def AdvancesPCs (u u' : CallState) : Prop := Advanced u.registers u'.registers

theorem sameRegisters_trans (u u' u'' : CallState) (h : SameRegisters u u')
    (h' : SameRegisters u' u'') : SameRegisters u u'' :=
  h'.trans h

theorem advances_of_same (u u' u'' : CallState) (h : SameRegisters u u')
    (h' : AdvancesPCs u' u'') : AdvancesPCs u u'' := by
  rw [AdvancesPCs, ← h]
  exact h'

theorem pure_keeps {α : Type} (a : α) : (pure a : CallM α).Ensures SameRegisters :=
  EStateM.ensures_pure (R := SameRegisters) (fun _ => rfl) a

theorem readMem_keeps (addr : BitVec 32) : (readMem addr).Ensures SameRegisters := by
  intro u b u' h
  unfold readMem at h
  split at h
  · cases h
  · cases h
  · cases h
    rfl

theorem writeMem_keeps (addr : BitVec 32) (word : Byte) :
    (writeMem addr word).Ensures SameRegisters := by
  intro u b u' h
  unfold writeMem at h
  split at h
  · cases h
  · cases h
  · cases h
    rfl

theorem copyBytes_keeps (source : BitVec 32) (left i : ℕ) (buffer : ByteMem) :
    (copyBytes source left i buffer).Ensures SameRegisters := by
  induction left generalizing i buffer with
  | zero => exact pure_keeps buffer
  | succ left ih =>
      refine (readMem_keeps _).bind (fun word => ?_) sameRegisters_trans
      exact .ite (fun _ => pure_keeps _) fun _ => ih _ _

theorem copyFromUser_keeps (source : BitVec 32) (buffer : ByteMem) (size : BitVec 32) :
    (copyFromUser source buffer size).Ensures SameRegisters :=
  .ite (fun _ => EStateM.ensures_throw _ _) fun _ => copyBytes_keeps _ _ _ _

theorem copyNameFromUser_keeps (source : BitVec 32) (buffer : ByteMem) :
    (copyNameFromUser source buffer).Ensures SameRegisters := by
  have hloop := copyChars_eq source (MAX_FILENAME_LENGTH - 1) 0 buffer
  rw [BitVec.add_zero] at hloop
  rw [copyNameFromUser, hloop]
  exact copyBytes_keeps _ _ _ _

theorem sendBytes_keeps (source : ByteMem) (left i : ℕ) (dest : BitVec 32) :
    (sendBytes source left i dest).Ensures SameRegisters := by
  induction left generalizing i dest with
  | zero => exact pure_keeps ()
  | succ left ih => exact (writeMem_keeps _ _).bind (fun _ => ih _ _) sameRegisters_trans

theorem sendToUser_keeps (source : ByteMem) (dest size : BitVec 32) :
    (sendToUser source dest size).Ensures SameRegisters :=
  .ite (fun _ => EStateM.ensures_throw _ _) fun _ => sendBytes_keeps _ _ _ _

theorem newBuffer_keeps (outside : Outside) (size : BitVec 32) :
    (newBuffer outside size).Ensures SameRegisters :=
  .ite (fun _ => EStateM.ensures_throw _ _) fun _ => pure_keeps _

theorem createFile_keeps (outside : Outside) (name : ByteMem) :
    (createFile outside name).Ensures SameRegisters := by
  unfold createFile
  split
  · exact EStateM.ensures_throw _ _
  · exact EStateM.ensures_modify fun _ => rfl

theorem fileSystemOpen_keeps (outside : Outside) (name : ByteMem) :
    (fileSystemOpen outside name).Ensures SameRegisters := by
  unfold fileSystemOpen
  split
  · exact pure_keeps _
  · refine EStateM.Ensures.bind ?_ (fun _ => pure_keeps _) sameRegisters_trans
    exact EStateM.ensures_modify fun _ => rfl

theorem openFile_keeps (handle : BitVec 32) : (openFile handle).Ensures SameRegisters := by
  refine EStateM.ensures_guard fun _ => EStateM.ensures_get_bind fun u file u' h => ?_
  cases hobject : u.openFiles.object handle with
  | none =>
      rw [hobject] at h
      cases h
  | some _ =>
      rw [hobject] at h
      cases h
      rfl

theorem sysCallExec_keeps (outside : Outside) (executableName : BitVec 32) :
    (sysCallExec outside executableName).Ensures SameRegisters := by
  refine (copyNameFromUser_keeps _ _).bind (fun name => ?_) sameRegisters_trans
  refine (fileSystemOpen_keeps _ _).bind (fun found => ?_) sameRegisters_trans
  cases found with
  | none => exact EStateM.ensures_throw _ _
  | some file => exact pure_keeps ()

/-! ## §3  The calls that return -/

theorem incrementPC_advances : incrementPC.Ensures AdvancesPCs := by
  intro u a u' h
  cases h
  exact (SamePCs.refl u.registers).advance

theorem sysCallLogWrite_advances (outside : Outside) (source size : BitVec 32) :
    (sysCallLogWrite outside source size).Ensures AdvancesPCs := by
  refine (newBuffer_keeps _ _).bind (fun buffer => ?_) advances_of_same
  refine (copyFromUser_keeps _ _ _).bind (fun buffer => ?_) advances_of_same
  refine EStateM.Ensures.bind (R := SameRegisters) ?_ (fun _ => incrementPC_advances)
    advances_of_same
  exact EStateM.ensures_modify fun _ => rfl

theorem sysCallCreate_advances (outside : Outside) (fileName : BitVec 32) :
    (sysCallCreate outside fileName).Ensures AdvancesPCs := by
  refine (copyNameFromUser_keeps _ _).bind (fun name => ?_) advances_of_same
  exact (createFile_keeps _ _).bind (fun _ => incrementPC_advances) advances_of_same

theorem sysCallWrite_advances (outside : Outside) (fileDestination source size : BitVec 32) :
    (sysCallWrite outside fileDestination source size).Ensures AdvancesPCs := by
  refine (openFile_keeps _).bind (fun file => ?_) advances_of_same
  refine (newBuffer_keeps _ _).bind (fun buffer => ?_) advances_of_same
  refine (copyFromUser_keeps _ _ _).bind (fun buffer => ?_) advances_of_same
  refine EStateM.ensures_get_bind fun u b u' h => ?_
  obtain ⟨_, v, hset, hrest⟩ := EStateM.bind_eq_ok_iff.mp h
  cases hset
  split at hrest
  · cases hrest
  · have hadv := incrementPC_advances _ b u' hrest
    exact hadv

theorem sysCallRead_advances (outside : Outside) (fileSource dest size : BitVec 32) :
    (sysCallRead outside fileSource dest size).Ensures AdvancesPCs := by
  refine (openFile_keeps _).bind (fun file => ?_) advances_of_same
  refine (newBuffer_keeps _ _).bind (fun buffer => ?_) advances_of_same
  refine EStateM.ensures_get_bind fun u b u' h => ?_
  obtain ⟨_, v, hset, hrest⟩ := EStateM.bind_eq_ok_iff.mp h
  cases hset
  split at hrest
  · cases hrest
  · have hadv := (sendToUser_keeps _ _ _).bind (fun _ => incrementPC_advances)
      advances_of_same _ b u' hrest
    exact hadv

/-! ## §4  `Open` -/

variable {u u' : CallState} {source : BitVec 32}

/-- What `ReadMem` has returned could be read. -/
theorem readByte_of_readMem {addr : BitVec 32} {b : Byte}
    (h : readMem addr u = .ok b u') : u.memory.readByte addr = some (.ok b) := by
  unfold readMem at h
  rw [Memory.readByte]
  split at h
  · cases h
  · cases h
  · rename_i pa m htranslate
    cases h
    rw [htranslate]
    obtain ⟨k, rfl⟩ := Memory.translate_eq_ok htranslate
    rfl

/-- Where the loop comes to its end, it could read every byte up to a NUL. -/
theorem readable_of_copyBytes (left i : ℕ) (buffer : ByteMem) {m : Memory} {b : ByteMem}
    (hm : Memory.SameView u.memory m)
    (h : copyBytes source left i buffer { u with memory := m } = .ok b u') :
    ∀ j, i ≤ j → j < i + left → (∀ l, i ≤ l → l < j → u.userByte source l ≠ 0) →
      u.Readable source j := by
  induction left generalizing i buffer m with
  | zero =>
      intro j hj hlt
      omega
  | succ left ih =>
      intro j hj hlt hall
      obtain ⟨word, v, hword, hrest⟩ := EStateM.bind_eq_ok_iff.mp h
      have hread := readByte_of_readMem hword
      obtain ⟨m₁, hcall, hm₁⟩ := readMem_of_readByte hread
      rw [hcall] at hword
      cases hword
      have hi : u.Readable source i := CallState.readable_of_eq ((hm.readByte _).symm.trans hread)
      rcases Nat.eq_or_lt_of_le hj with rfl | hlt'
      · exact hi
      · have hne : word ≠ 0 := by
          have hbyte : u.userByte source i = word := by
            rw [CallState.userByte, ← hm.readByte, hread]
          rw [← hbyte]
          exact hall i le_rfl hlt'
        rw [if_neg hne] at hrest
        exact ih (i + 1) _ (hm.trans hm₁) hrest j hlt' (by omega)
          fun l hl hlj => hall l (by omega) hlj

/-- **A name that was copied** could be read, and the buffer has what could be read. -/
theorem copyNameFromUser_ok {buffer name : ByteMem}
    (h : copyNameFromUser source buffer u = .ok name u') :
    NameReadable u source ∧ name = filled (u.userByte source) (MAX_FILENAME_LENGTH - 1) 0 buffer ∧
      u'.registers = u.registers := by
  have hloop := copyChars_eq source (MAX_FILENAME_LENGTH - 1) 0 buffer
  rw [BitVec.add_zero] at hloop
  have hread : NameReadable u source := by
    intro i hi hall
    rw [copyNameFromUser, hloop] at h
    exact readable_of_copyBytes _ 0 buffer (Memory.SameView.refl u.memory) h i (Nat.zero_le i)
      (by omega) fun l _ hl => hall l hl
  obtain ⟨m, hcopy, -⟩ := copyNameFromUser_spec hread buffer
  rw [hcopy] at h
  cases h
  exact ⟨hread, rfl, rfl⟩

/-- `Open` is called, and UNIX has no file of that name. -/
structure OpensNothing (outside : Outside) (u : CallState) : Prop where
  code : u.registers ResultReg = SC_Open
  readable : NameReadable u (u.registers Arg1Reg)
  missing : outside.openForReadWrite (filled (u.userByte (u.registers Arg1Reg))
    (MAX_FILENAME_LENGTH - 1) 0 outside.buffer) = none

/-- **`SysCallOpen` of no file** writes its result and goes back. -/
theorem sysCallOpen_of_opensNothing {outside : Outside} (h : OpensNothing outside u) :
    ∃ m, sysCallOpen outside (u.registers Arg1Reg) u = .ok ()
      { u with memory := m, registers := Function.update u.registers ResultReg (-1) } := by
  obtain ⟨m, hcopy, -⟩ := copyNameFromUser_spec h.readable outside.buffer
  refine ⟨m, ?_⟩
  rw [sysCallOpen, EStateM.bind_of_ok hcopy, fileSystemOpen, h.missing]
  rfl

/-- `SysCallOpen` of a file advances the counters. -/
theorem sysCallOpen_ok {outside : Outside} (hopens : ¬ OpensNothing outside u)
    (hcode : u.registers ResultReg = SC_Open)
    (h : sysCallOpen outside (u.registers Arg1Reg) u = .ok () u') : AdvancesPCs u u' := by
  obtain ⟨name, v, hcopy, hrest⟩ := EStateM.bind_eq_ok_iff.mp h
  obtain ⟨hread, rfl, hregs⟩ := copyNameFromUser_ok hcopy
  rw [fileSystemOpen] at hrest
  split at hrest
  · rename_i hmissing
    exact absurd ⟨hcode, hread, hmissing⟩ hopens
  · cases hrest
    have hpc : Advanced u.registers (advance v.registers) := (SamePCs.of_eq hregs).advance
    exact hpc.result _

/-! ## §5  The handler -/

/-- The handler goes back to the program and leaves the counters alone. -/
def Stays (outside : Outside) (which : ExceptionType) (u : CallState) : Prop :=
  which = .OverflowException ∨ which = .SyscallException ∧ OpensNothing outside u

theorem exceptionHandler_of_stays {outside : Outside} {which : ExceptionType}
    (h : Stays outside which u) :
    ∃ u', exceptionHandler outside which u = .ok .returned u' ∧
      SamePCs u.registers u'.registers := by
  rcases h with rfl | ⟨rfl, hopens⟩
  · exact ⟨u, rfl, SamePCs.refl _⟩
  · obtain ⟨m, hcall⟩ := sysCallOpen_of_opensNothing hopens
    refine ⟨{ u with memory := m, registers := Function.update u.registers ResultReg (-1) }, ?_,
      (SamePCs.refl u.registers).result (-1)⟩
    rw [exceptionHandler, sysCall, EStateM.bind_of_ok (readRegister_eq ResultReg u),
      EStateM.bind_of_ok (readRegister_eq Arg1Reg u),
      EStateM.bind_of_ok (readRegister_eq Arg2Reg u),
      EStateM.bind_of_ok (readRegister_eq Arg3Reg u), hopens.code, if_neg (by decide),
      if_neg (by decide), if_neg (by decide), if_neg (by decide), if_pos rfl,
      EStateM.bind_of_ok hcall]
    rfl

/-- The counters of a handler that has come to `next`. -/
def Leaves (u u' : CallState) (next : Next) : Prop :=
  if next = .returned then Advanced u.registers u'.registers
  else SamePCs u.registers u'.registers

/-- A call that returns. -/
theorem leaves_returned {x : CallM Unit} {next : Next} (hx : x.Ensures AdvancesPCs)
    (h : (x >>= fun _ => pure Next.returned) u = .ok next u') : Leaves u u' next := by
  obtain ⟨a, v, hcall, hrest⟩ := EStateM.bind_eq_ok_iff.mp h
  cases hrest
  exact hx u a u' hcall

theorem sysCall_ok {outside : Outside} {next : Next} (hopens : ¬ OpensNothing outside u)
    (h : sysCall outside u = .ok next u') : Leaves u u' next := by
  rw [sysCall, EStateM.bind_of_ok (readRegister_eq ResultReg u),
    EStateM.bind_of_ok (readRegister_eq Arg1Reg u), EStateM.bind_of_ok (readRegister_eq Arg2Reg u),
    EStateM.bind_of_ok (readRegister_eq Arg3Reg u)] at h
  by_cases hhalt : u.registers ResultReg = SC_Halt
  · rw [if_pos hhalt] at h
    cases h
  rw [if_neg hhalt] at h
  by_cases hexit : u.registers ResultReg = SC_Exit
  · rw [if_pos hexit] at h
    cases h
  rw [if_neg hexit] at h
  by_cases hwrite : u.registers ResultReg = SC_Write
  · rw [if_pos hwrite] at h
    by_cases hlog : u.registers Arg3Reg = 1
    · rw [if_pos hlog] at h
      exact leaves_returned (sysCallLogWrite_advances _ _ _) h
    · rw [if_neg hlog] at h
      exact leaves_returned (sysCallWrite_advances _ _ _ _) h
  rw [if_neg hwrite] at h
  by_cases hcreate : u.registers ResultReg = SC_Create
  · rw [if_pos hcreate] at h
    exact leaves_returned (sysCallCreate_advances _ _) h
  rw [if_neg hcreate] at h
  by_cases hopen : u.registers ResultReg = SC_Open
  · rw [if_pos hopen] at h
    obtain ⟨a, v, hcall, hrest⟩ := EStateM.bind_eq_ok_iff.mp h
    cases hrest
    exact sysCallOpen_ok hopens hopen hcall
  rw [if_neg hopen] at h
  by_cases hread : u.registers ResultReg = SC_Read
  · rw [if_pos hread] at h
    exact leaves_returned (sysCallRead_advances _ _ _ _) h
  rw [if_neg hread] at h
  by_cases hexec : u.registers ResultReg = SC_Exec
  · -- before its `Fork`
    rw [if_pos hexec] at h
    obtain ⟨a, v, hcall, hrest⟩ := EStateM.bind_eq_ok_iff.mp h
    cases hrest
    exact SamePCs.of_eq (sysCallExec_keeps _ _ u a u' hcall)
  rw [if_neg hexec] at h
  by_cases hyield : u.registers ResultReg = SC_Yield
  · rw [if_pos hyield] at h
    cases h
    exact SamePCs.refl u.registers
  rw [if_neg hyield] at h
  by_cases hjoin : u.registers ResultReg = SC_Join
  · -- before its loop
    rw [if_pos hjoin] at h
    by_cases hnull : u.registers Arg1Reg = 0
    · rw [if_pos hnull] at h
      cases h
    · rw [if_neg hnull] at h
      cases h
      exact SamePCs.refl u.registers
  · rw [if_neg hjoin] at h
    cases h

/-- **The handler**, unless it `Stays`: the counters are advanced when it has returned, and
not before. -/
theorem exceptionHandler_ok {outside : Outside} {which : ExceptionType} {next : Next}
    (hstays : ¬ Stays outside which u) (h : exceptionHandler outside which u = .ok next u') :
    Leaves u u' next := by
  cases which with
  | SyscallException => exact sysCall_ok (fun hopens => hstays (.inr ⟨rfl, hopens⟩)) h
  | OverflowException => exact absurd (.inl rfl) hstays
  | PageFaultException => cases h
  | ReadOnlyException => cases h
  | BusErrorException => cases h
  | AddressErrorException => cases h
  | IllegalInstrException => cases h
  | NoException => cases h

end SystemCalls

end OsAssignments.ProcessManagement
