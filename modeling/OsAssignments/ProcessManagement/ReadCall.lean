import OsAssignments.ProcessManagement.CopyFromUser

/-!
# `SC_Read` of the process-management assignment

A read of fewer bytes than were asked for ends the process, and no read puts a result into
register 2, which keeps the code of the call.

- `readCall_iff` — a read does what `syscall.h` says only if it is one of six bytes.
-/

namespace OsAssignments.ProcessManagement

open FilesysStub
open MemoryManagement (ExceptionType Width)

namespace Memory

variable {m m' : Memory}

/-- Where a byte can be stored, it can be read. -/
theorem physAddr_of_writing {addr : BitVec 32} {pa : ℕ}
    (h : m.physAddr addr true = some (.ok pa)) : m.physAddr addr false = some (.ok pa) := by
  rw [physAddr_eq] at h ⊢
  obtain ⟨k, hk, h⟩ := Option.bind_eq_some_iff.mp h
  obtain ⟨p, hp, h⟩ := Option.bind_eq_some_iff.mp h
  rw [hk, Option.bind_some, hp, Option.bind_some]
  unfold frame at h ⊢
  split at h
  · cases h
  rename_i hvpn
  split at h
  · cases h
  rename_i hvalid
  split at h
  · cases h
  rw [if_neg hvpn, if_neg hvalid, Bool.and_false, if_neg Bool.false_ne_true]
  exact h

end Memory

namespace SystemCalls

open Memory

variable {u : CallState} {dest size : BitVec 32} {source : ByteMem} {file : OpenFile}

/-! ## §1  `CopyToUser` -/

/-- **`WriteMem`** of one byte, where it can be stored. -/
theorem writeMem_spec {addr : BitVec 32} {pa : ℕ}
    (h : u.memory.physAddr addr true = some (.ok pa)) (b : Byte) :
    ∃ m, writeMem addr b u = .ok () { u with memory := m } ∧
      m.mainMemory = u.memory.mainMemory.write pa [b] ∧
      ∀ addr writing, m.physAddr addr writing = u.memory.physAddr addr writing := by
  obtain ⟨r, htranslate, hr⟩ := Option.map_eq_some_iff.mp h
  cases r with
  | error exception => cases hr
  | ok out =>
      obtain ⟨q, m⟩ := out
      cases hr
      obtain ⟨k, rfl⟩ := translate_eq_ok htranslate
      refine ⟨{ u.memory.touch k (addr.toNat / PageSize) true with
        mainMemory := u.memory.mainMemory.write q [b] }, ?_, rfl, fun addr' writing =>
          physAddr_touch _ _ _ _ _ _ _⟩
      simp only [writeMem, Memory.writeMem, htranslate, Option.map_some, take_wordBytes]
      rfl

/-- The first `n` bytes of `source` are in user memory from `dest` on, and the rest of the
memory is as it was. -/
structure Sent (u : CallState) (dest : BitVec 32) (source : ByteMem) (n : ℕ) (m : Memory) :
    Prop where
  physAddr : ∀ addr writing, m.physAddr addr writing = u.memory.physAddr addr writing
  sent : ∀ i < n, ∀ pa, u.memory.physAddr (dest + BitVec.ofNat 32 i) true = some (.ok pa) →
    m.mainMemory pa = source i
  rest : ∀ x, (∀ i < n, u.memory.physAddr (dest + BitVec.ofNat 32 i) true ≠ some (.ok x)) →
    m.mainMemory x = u.memory.mainMemory x

/-- **One byte** goes to the user. -/
theorem Sent.next {m m' : Memory} {n pa : ℕ} (h : Sent u dest source n m)
    (hi : MemoryInv u.memory) (hn : n < MemorySize)
    (hpa : u.memory.physAddr (dest + BitVec.ofNat 32 n) true = some (.ok pa))
    (hmem : m'.mainMemory = m.mainMemory.write pa [source n])
    (hphys : ∀ addr writing, m'.physAddr addr writing = m.physAddr addr writing) :
    Sent u dest source (n + 1) m' where
  physAddr addr writing := (hphys addr writing).trans (h.physAddr addr writing)
  sent i hlt q hq := by
    rw [hmem]
    by_cases hin : i = n
    · subst hin
      obtain rfl : pa = q := by
        rw [hpa] at hq
        cases hq
        rfl
      exact ByteMem.write_inside _ _ 0 [source i] Nat.one_pos
    · have hM : MemorySize = 6144 := rfl
      have hne : q ≠ pa := by
        rintro rfl
        have haddr := congrArg BitVec.toNat ((BitVec.add_right_inj dest).mp
          (physAddr_inj hi hq hpa))
        rw [BitVec.toNat_ofNat, BitVec.toNat_ofNat, Nat.mod_eq_of_lt (by omega),
          Nat.mod_eq_of_lt (by omega)] at haddr
        exact hin haddr
      rw [ByteMem.write_outside _ _ _ _ (by rw [List.length_singleton]; omega),
        h.sent i (by omega) q hq]
  rest x hx := by
    rw [hmem, ByteMem.write_outside, h.rest x fun i hlt => hx i (by omega)]
    have hne : pa ≠ x := by
      rintro rfl
      exact hx n (Nat.lt_succ_self n) hpa
    rw [List.length_singleton]
    omega

/-- **The loop of `CopyToUser`**, where all bytes can be stored. -/
theorem sendBytes_spec (hi : MemoryInv u.memory) (left i : ℕ) (hle : i + left ≤ MemorySize)
    (hwritable : ∀ j, i ≤ j → j < i + left →
      ∃ pa, u.memory.physAddr (dest + BitVec.ofNat 32 j) true = some (.ok pa))
    {m : Memory} (hm : Sent u dest source i m) (v : CallState) (hv : v.memory = m) :
    ∃ m', sendBytes source left i (dest + BitVec.ofNat 32 i) v =
        .ok () { v with memory := m' } ∧ Sent u dest source (i + left) m' := by
  induction left generalizing i m v with
  | zero => exact ⟨m, by rw [← hv]; rfl, hm⟩
  | succ left ih =>
      obtain ⟨pa, hpa⟩ := hwritable i le_rfl (by omega)
      have hpa' : v.memory.physAddr (dest + BitVec.ofNat 32 i) true = some (.ok pa) := by
        rw [hv, hm.physAddr, hpa]
      obtain ⟨m₁, hstore, hmem, hphys⟩ := writeMem_spec hpa' (source i)
      rw [hv] at hmem hphys
      have hnext : dest + BitVec.ofNat 32 i + 1 = dest + BitVec.ofNat 32 (i + 1) := by
        rw [BitVec.add_assoc, BitVec.ofNat_add]
        rfl
      obtain ⟨m', hrest, hsent⟩ := ih (i + 1) (by omega)
        (fun j hj hlt => hwritable j (by omega) (by omega))
        (hm.next hi (by omega) hpa hmem hphys) { v with memory := m₁ } rfl
      refine ⟨m', ?_, by rwa [Nat.add_right_comm, Nat.add_assoc] at hsent⟩
      rw [sendBytes, EStateM.bind_of_ok hstore, hnext, hrest]

/-! ## §2  The call -/

/-- A program calls `Read` on an open file with a buffer that it can write to. -/
structure CallsRead (u : CallState) (file : OpenFile) : Prop where
  inv : MemoryInv u.memory
  code : u.registers ResultReg = SC_Read
  positive : 0 < (u.registers Arg2Reg).toInt
  handle : u.openFiles.object (u.registers Arg3Reg) = some file
  writable : ∀ i < (u.registers Arg2Reg).toNat, ∃ pa,
    u.memory.physAddr (u.registers Arg1Reg + BitVec.ofNat 32 i) true = some (.ok pa)

/-- How many bytes there are to read. -/
def count (u : CallState) (file : OpenFile) : ℕ :=
  min (u.registers Arg2Reg).toNat (file.remaining u.files file.currentOffset)

/-- The call returns, register 2 has how many bytes were read, these are in the program's
buffer, and the rest of its memory is as it was. -/
def Reads (u : CallState) (file : OpenFile) (r : EStateM.Result Stop CallState Next) : Prop :=
  ∃ u', r = .ok .returned u' ∧
    u'.registers ResultReg = BitVec.ofNat 32 (count u file) ∧
    (∀ i < count u file, u'.memory.readByte (u.registers Arg1Reg + BitVec.ofNat 32 i) =
      some (.ok ((u.files file.file).data (file.currentOffset + i)))) ∧
    ∀ addr, (∀ i < count u file, addr ≠ u.registers Arg1Reg + BitVec.ofNat 32 i) →
      u'.memory.readByte addr = u.memory.readByte addr

/-- The handler comes to `SysCallRead`. -/
theorem exceptionHandler_read (outside : Outside) (hcode : u.registers ResultReg = SC_Read) :
    exceptionHandler outside .SyscallException u =
      (sysCallRead outside (u.registers Arg3Reg) (u.registers Arg1Reg) (u.registers Arg2Reg)
        >>= fun _ => pure Next.returned) u := by
  rw [exceptionHandler, sysCall, EStateM.bind_of_ok (readRegister_eq ResultReg u),
    EStateM.bind_of_ok (readRegister_eq Arg1Reg u), EStateM.bind_of_ok (readRegister_eq Arg2Reg u),
    EStateM.bind_of_ok (readRegister_eq Arg3Reg u), hcode, if_neg (by decide),
    if_neg (by decide), if_neg (by decide), if_neg (by decide), if_neg (by decide), if_pos rfl]

/-- `SysCallRead` when `Read` has filled the kernel's buffer. -/
theorem sysCallRead_eq {handle : BitVec 32} (hsize : 0 < size.toInt)
    (hfile : u.openFiles.object handle = some file) (outside : Outside) :
    sysCallRead outside handle dest size u =
      (if min size.toNat (file.remaining u.files file.currentOffset) < size.toNat then
        (throw (Stop.exit (-1)) : CallM Unit)
      else do
        sendBytes (file.read u.files outside.buffer size.toNat).2.1 size.toNat 0 dest
        incrementPC) { u with
          openFiles := u.openFiles.set handle
            (file.read u.files outside.buffer size.toNat).2.2 } := by
  have hlength : size.toInt = size.toNat := toInt_of_pos hsize
  have hread : (file.read u.files outside.buffer size.toNat).1 =
      min size.toNat (file.remaining u.files file.currentOffset) :=
    OpenFile.readAt_fst outside.buffer
  have hsend : ∀ source, sendToUser source dest size = sendBytes source size.toNat 0 dest := by
    intro source
    rw [sendToUser, if_neg (Int.not_le.mpr hsize), hlength, Int.toNat_natCast]
  rw [sysCallRead, EStateM.bind_of_ok (openFile_eq hfile),
    EStateM.bind_of_ok (newBuffer_eq (Int.le_of_lt hsize) outside u)]
  simp only [hsend, hlength, Int.toNat_natCast]
  change (if (((file.read u.files outside.buffer size.toNat).1 : ℕ) : ℤ) < (size.toNat : ℕ) then
      (throw (Stop.exit (-1)) >>= fun _ => do
        sendBytes (file.read u.files outside.buffer size.toNat).2.1 size.toNat 0 dest
        incrementPC : CallM Unit)
    else do
      sendBytes (file.read u.files outside.buffer size.toNat).2.1 size.toNat 0 dest
      incrementPC) _ = _
  rw [hread]
  by_cases hshort : min size.toNat (file.remaining u.files file.currentOffset) < size.toNat
  · rw [if_pos (Int.ofNat_lt.mpr hshort), if_pos hshort]
    rfl
  · rw [if_neg fun hlt => hshort (Int.ofNat_lt.mp hlt), if_neg hshort]

/-- **A read that is not short** sends the bytes, and leaves register 2 alone. -/
theorem readCall_full (h : CallsRead u file) (outside : Outside)
    (hfull : (u.registers Arg2Reg).toNat ≤ file.remaining u.files file.currentOffset) :
    ∃ u', exceptionHandler outside .SyscallException u = .ok .returned u' ∧
      u'.registers = advance u.registers ∧
      Sent u (u.registers Arg1Reg)
        (file.read u.files outside.buffer (u.registers Arg2Reg).toNat).2.1
        (u.registers Arg2Reg).toNat u'.memory := by
  have hle := length_le h.inv h.writable
  have hstart : Sent u (u.registers Arg1Reg)
      (file.read u.files outside.buffer (u.registers Arg2Reg).toNat).2.1 0 u.memory :=
    ⟨fun _ _ => rfl, fun i hi => absurd hi (Nat.not_lt_zero i), fun _ _ => rfl⟩
  -- the state in which the copy starts
  let v : CallState := { u with
    openFiles := u.openFiles.set (u.registers Arg3Reg)
      (file.read u.files outside.buffer (u.registers Arg2Reg).toNat).2.2 }
  obtain ⟨m, hcopy, hsent⟩ := sendBytes_spec h.inv (u.registers Arg2Reg).toNat 0 (by omega)
    (fun j _ hj => h.writable j (by omega)) hstart v rfl
  have hdest : u.registers Arg1Reg + BitVec.ofNat 32 0 = u.registers Arg1Reg := by simp
  rw [hdest] at hcopy
  have hcall : sysCallRead outside (u.registers Arg3Reg) (u.registers Arg1Reg)
      (u.registers Arg2Reg) u =
      .ok () { v with memory := m, registers := advance u.registers } := by
    rw [sysCallRead_eq h.positive h.handle, if_neg (by omega), EStateM.bind_of_ok hcopy,
      incrementPC_eq]
  refine ⟨{ v with memory := m, registers := advance u.registers }, ?_, rfl, ?_⟩
  · rw [exceptionHandler_read outside h.code, EStateM.bind_of_ok hcall]
    rfl
  · rwa [Nat.zero_add] at hsent

/-- A short read ends the process. -/
theorem readCall_short (h : CallsRead u file) (outside : Outside)
    (hshort : file.remaining u.files file.currentOffset < (u.registers Arg2Reg).toNat) :
    ∃ u', exceptionHandler outside .SyscallException u = .error (.exit (-1)) u' := by
  have hcall : ∃ u', sysCallRead outside (u.registers Arg3Reg) (u.registers Arg1Reg)
      (u.registers Arg2Reg) u = .error (.exit (-1)) u' := by
    rw [sysCallRead_eq h.positive h.handle, if_pos (by omega)]
    exact ⟨_, rfl⟩
  obtain ⟨u', hcall⟩ := hcall
  rw [exceptionHandler_read outside h.code]
  exact ⟨u', EStateM.bind_of_error hcall⟩

/-! ## §3  When a read is right -/

/-- **When `SC_Read` keeps its contract**: when it is of six bytes, the number of the call
itself, and the file has them. -/
theorem readCall_iff (u : CallState) (file : OpenFile) (h : CallsRead u file)
    (outside : Outside) :
    Reads u file (exceptionHandler outside .SyscallException u) ↔
      u.registers Arg2Reg = SC_Read ∧
        (u.registers Arg2Reg).toNat ≤ file.remaining u.files file.currentOffset := by
  have hregister : advance u.registers ResultReg = SC_Read := h.code
  constructor
  · rintro ⟨u', hcall, hresult, -⟩
    have hfull : (u.registers Arg2Reg).toNat ≤
        file.remaining u.files file.currentOffset := by
      by_contra hshort
      obtain ⟨u'', hstop⟩ := readCall_short h outside (Nat.lt_of_not_le hshort)
      rw [hcall] at hstop
      cases hstop
    refine ⟨?_, hfull⟩
    obtain ⟨u'', hcall', hregisters, -⟩ := readCall_full h outside hfull
    rw [hcall] at hcall'
    cases hcall'
    rw [hregisters, hregister, count, Nat.min_eq_left hfull, BitVec.ofNat_toNat,
      BitVec.setWidth_eq] at hresult
    exact hresult.symm
  · rintro ⟨hsix, hfull⟩
    obtain ⟨u', hcall, hregisters, hsent⟩ := readCall_full h outside hfull
    have hcount : count u file = (u.registers Arg2Reg).toNat := Nat.min_eq_left hfull
    refine ⟨u', hcall, ?_, fun i hi => ?_, fun addr haddr => ?_⟩
    · rw [hregisters, hregister, hcount, hsix]
      rfl
    · rw [hcount] at hi
      obtain ⟨pa, hpa⟩ := h.writable i hi
      rw [readByte_eq, hsent.physAddr, physAddr_of_writing hpa, Option.map_some, Except.map,
        hsent.sent i hi pa hpa]
      have hbyte : i < min (u.registers Arg2Reg).toNat
          (file.remaining u.files file.currentOffset) := by omega
      exact congrArg (fun b => some (Except.ok b)) (OpenFile.readAt_snd_lt outside.buffer hbyte)
    · rw [hcount] at haddr
      rw [readByte_eq, readByte_eq, hsent.physAddr]
      cases hpa : u.memory.physAddr addr false with
      | none => rfl
      | some r =>
          cases r with
          | error exception => rfl
          | ok pa =>
              -- no byte of the buffer is there
              have hout : ∀ i < (u.registers Arg2Reg).toNat, u.memory.physAddr
                  (u.registers Arg1Reg + BitVec.ofNat 32 i) true ≠ some (.ok pa) := by
                intro i hi heq
                exact haddr i hi (physAddr_inj h.inv hpa heq)
              rw [Option.map_some, Option.map_some, Except.map, Except.map, hsent.rest pa hout]

/-- A program calls `Read` of `size` bytes to address 0, from a file of `bytes`. -/
def readingFrom (bytes : List Byte) (size : BitVec 32) : CallState where
  memory := oneProcess fun _ => 0
  registers := fun r =>
    if r = ResultReg then SC_Read else if r = Arg2Reg then size else if r = Arg3Reg then 16 else 0
  files := fun _ => RandomAccessFile.empty.fwrite 0 bytes
  openFiles := oneFile
  log := []

theorem callsRead_readingFrom (bytes : List Byte) {size : BitVec 32} (hpos : 0 < size.toInt)
    (hle : size.toNat ≤ PageSize) : CallsRead (readingFrom bytes size) ⟨0, 0⟩ where
  inv := memoryInv_oneProcess _
  code := rfl
  positive := hpos
  handle := rfl
  writable i hi := by
    have hi' : i < PageSize := Nat.lt_of_lt_of_le hi hle
    have haddr : ((0 : BitVec 32) + BitVec.ofNat 32 i).toNat = i := by
      simp only [PageSize] at hi'
      rw [BitVec.toNat_add, BitVec.toNat_ofNat, show (0 : BitVec 32).toNat = 0 from rfl]
      omega
    exact ⟨_, physAddr_oneProcess _ (by
      change ((0 : BitVec 32) + BitVec.ofNat 32 i).toNat < PageSize
      rwa [haddr]) true⟩

/-- Six bytes from a file of eight. -/
theorem readCall_iff_six :
    CallsRead (readingFrom [65, 66, 67, 68, 69, 70, 71, 72] 6) ⟨0, 0⟩ ∧ ∀ outside,
      Reads (readingFrom [65, 66, 67, 68, 69, 70, 71, 72] 6) ⟨0, 0⟩
        (exceptionHandler outside .SyscallException
          (readingFrom [65, 66, 67, 68, 69, 70, 71, 72] 6)) := by
  have hcalls : CallsRead (readingFrom [65, 66, 67, 68, 69, 70, 71, 72] 6) ⟨0, 0⟩ :=
    callsRead_readingFrom _ (by decide) (by decide)
  exact ⟨hcalls, fun outside => (readCall_iff _ ⟨0, 0⟩ hcalls outside).mpr ⟨rfl, by decide⟩⟩

/-- **Four bytes**: from a file of eight the call returns with 6 in register 2, and from a file
of two the process ends. -/
theorem readCall_breaks : ∃ outside u' u'',
    exceptionHandler outside .SyscallException
      (readingFrom [65, 66, 67, 68, 69, 70, 71, 72] 4) = .ok .returned u' ∧
    u'.registers ResultReg = 6 ∧
    ¬ Reads (readingFrom [65, 66, 67, 68, 69, 70, 71, 72] 4) ⟨0, 0⟩
      (exceptionHandler outside .SyscallException
        (readingFrom [65, 66, 67, 68, 69, 70, 71, 72] 4)) ∧
    exceptionHandler outside .SyscallException (readingFrom [65, 66] 4) =
      .error (.exit (-1)) u'' ∧
    ¬ Reads (readingFrom [65, 66] 4) ⟨0, 0⟩
      (exceptionHandler outside .SyscallException (readingFrom [65, 66] 4)) := by
  let outside : Outside := ⟨fun _ => 0x55, ⟨2, by decide⟩, fun _ => none, fun _ => none⟩
  obtain ⟨u', hcall, hregisters, -⟩ := readCall_full
    (callsRead_readingFrom [65, 66, 67, 68, 69, 70, 71, 72] (by decide : 0 < (4 : BitVec 32).toInt)
      (by decide)) outside (by decide)
  obtain ⟨u'', hstop⟩ := readCall_short
    (callsRead_readingFrom [65, 66] (by decide : 0 < (4 : BitVec 32).toInt) (by decide)) outside
    (by decide)
  have hresult : u'.registers ResultReg = 6 := by
    rw [hregisters]
    rfl
  refine ⟨outside, u', u'', hcall, hresult, ?_, hstop, ?_⟩
  · rintro ⟨v, hcall', hcount, -⟩
    rw [hcall] at hcall'
    cases hcall'
    rw [hresult] at hcount
    revert hcount
    decide
  · rintro ⟨v, hcall', -⟩
    rw [hstop] at hcall'
    cases hcall'

end SystemCalls

end OsAssignments.ProcessManagement
