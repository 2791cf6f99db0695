import OsAssignments.MemoryManagement.CopyToUser
import OsAssignments.MemoryManagement.UserState
import OsAssignments.Nachos.FilesysStub

/-!
# `SC_Read`

The handler of `userprog/exception.cc` reads into a buffer from `new` and copies `size`
bytes of it to the user, however many were read.

- `reads_iff` — a read delivers the bytes of the file and nothing else, whatever is in
  the buffer, iff it does not reach past the end of the file.
- `shortRead_leaks` — a read of four bytes from a file of two.
-/

namespace OsAssignments.MemoryManagement

open FilesysStub

/-! ## §1  The code -/

/-- `SysCallRead`; the buffer that `new` returns is at `source` and holds `buffer`. -/
def sysCallRead (turns : ℕ) (source : BitVec 32) (buffer : ByteMem) (files : UnixFiles)
    (src : OpenFile) (vaddr : BitVec 32) (size offset : ℤ) : CopyM (ℕ × OpenFile) := do
  if size < 0 then throw .undefined
  if offset = -1 then
    let (code, buffer, src) := src.read files buffer size.toNat
    copyToUser turns vaddr source buffer size
    pure (code, src)
  else if offset < 0 then
    -- the `ASSERT` of `Lseek`
    throw .undefined
  else
    let (code, buffer) := src.readAt files buffer size.toNat offset.toNat
    copyToUser turns vaddr source buffer size
    pure (code, src)

def ExecArgument : BitVec 32 := 1

/-- What `SC_Read` reads and writes. -/
structure Process where
  user : UserMem
  registers : Registers
  files : UnixFiles
  openFiles : OpenFiles
  /-- `currentThread->getArgv()`. -/
  argv : BitVec 32

/-- `r2`, the code of the system call and its result. -/
def ResultReg : Fin NumTotalRegs := ⟨2, by decide⟩
def Arg1Reg : Fin NumTotalRegs := ⟨4, by decide⟩
def Arg2Reg : Fin NumTotalRegs := ⟨5, by decide⟩
def Arg3Reg : Fin NumTotalRegs := ⟨6, by decide⟩

namespace Process

def par1 (p : Process) : BitVec 32 := p.registers Arg1Reg
def par2 (p : Process) : BitVec 32 := p.registers Arg2Reg
def par3 (p : Process) : BitVec 32 := p.registers Arg3Reg

/-- `machine->WriteRegister(2, code)`. -/
def writeResult (p : Process) (code : BitVec 32) : Process :=
  { p with registers := Function.update p.registers ResultReg code }

@[simp] theorem registers_writeResult (p : Process) (code : BitVec 32) :
    (p.writeResult code).registers ResultReg = code := by simp [writeResult]

/-- The `SC_Read` case. -/
def scRead (turns : ℕ) (source : BitVec 32) (buffer : ByteMem) (p : Process) :
    Except Stop Process :=
  if p.par3 = ExecArgument then .ok (p.writeResult p.argv)
  else
    match p.openFiles.object p.par3 with
    | none => .error .undefined
    | some src =>
        match sysCallRead turns source buffer p.files src p.par1 p.par2.toInt (-1)
          (.start p.user buffer) with
        | .ok (code, src) s =>
            .ok ({ p with user := s.user, openFiles := p.openFiles.set p.par3 src }.writeResult
              (BitVec.ofNat 32 code))
        | .error e _ => .error e

end Process

/-! ## §2  The property -/

/-- The buffer that the program passed is in its address space, and its pages are
resident. -/
structure Process.Ready (p : Process) : Prop where
  sane : p.user.Sane
  writable : p.user.Writable
  nonneg : 0 ≤ p.par2.toInt
  inRange : InRange p.user p.par1 p.par2.toInt.toNat
  resident : ∀ i < p.par2.toInt.toNat, p.user.Resident (p.par1 + BitVec.ofNat 32 i)

/-- How many bytes there are to read. -/
def Process.count (p : Process) (src : OpenFile) : ℕ :=
  min p.par2.toInt.toNat (src.remaining p.files src.currentOffset)

/-- Register 2 has how many bytes were read; these are in the program's buffer, and the
rest of its memory is as it was. -/
structure Process.Reads (p : Process) (src : OpenFile) (q : Process) : Prop where
  register : q.registers ResultReg = BitVec.ofNat 32 (p.count src)
  bytes : ∀ i < p.count src,
    q.user.view (p.par1.toNat + i) = some ((p.files src.file).data (src.currentOffset + i))
  rest : Kept (destRange p.par1 (p.count src)) p.user q.user

/-! ## §3  The copy -/

section Copy

theorem UserMem.Resident.view {u : UserMem} {addr : BitVec 32} (h : u.Resident addr) :
    ∃ b, u.view addr.toNat = some b := by
  refine Option.ne_none_iff_exists'.mp fun hnone => ?_
  have hinvalid := (AddrSpace.view_eq_none_iff.mp hnone).1
  rw [show (u.sp.pageTable (addr.toNat / PageSize)).valid = true from h] at hinvalid
  cases hinvalid

variable {u : UserMem} {dest : BitVec 32} {buffer : ByteMem} {n : ℕ}

/-- With its pages resident, the copy returns. -/
theorem sendBytes_resident (source : BitVec 32) (h : u.Sane) (hrange : InRange u dest n)
    (turns : ℕ) : ∀ longueur i t, i + longueur = n → Sent u dest buffer n i t →
      (∀ j, i ≤ j → j < n → t.user.Resident (dest + BitVec.ofNat 32 j)) →
      ∃ r, sendBytes (turns + 1) dest source buffer longueur i t = .ok () r ∧
        Sent u dest buffer n n r := by
  intro longueur
  induction longueur with
  | zero =>
      rintro i t rfl hs -
      exact ⟨t, rfl, hs⟩
  | succ longueur ih =>
      intro i t hn hs hres
      obtain ⟨hsane, hnum⟩ := hs.served.sane h
      obtain ⟨hadd, hp, -⟩ := hrange.at (show i < n by omega) hnum
      have hhere := hres i le_rfl (by omega)
      rcases UserMem.writeMem_byte hsane hs.writable hp ((buffer i).signExtend 32) with
        ⟨hv, -⟩ | ⟨-, v, hstored⟩
      · exact absurd hhere hv
      have hround : sendBytes (turns + 1) dest source buffer (longueur + 1) i t =
          sendBytes (turns + 1) dest source buffer longueur (i + 1) { t with user := v } :=
        EStateM.bind_of_ok (send_resident _ _ hstored turns)
      rw [hround]
      have hs' := hs.store h hrange.le hadd (show i < n by omega) .refl hs.writable hstored
        hs.faults
      exact ih (i + 1) _ (by omega) hs' fun j hij hj =>
        (hstored.resident_iff _).mpr (hres j (by omega) hj)

end Copy

namespace Process

variable {p : Process} {src : OpenFile}

/-- **What `SC_Read` does** to a buffer whose pages are resident: all of the kernel's
buffer goes there. -/
theorem scRead_spec (h : p.Ready) (hopen : p.openFiles.object p.par3 = some src)
    (source : BitVec 32) (buffer : ByteMem) (turns : ℕ) :
    ∃ q s, p.scRead (turns + 1) source buffer = .ok q ∧ q.user = s.user ∧
      q.registers ResultReg = BitVec.ofNat 32 (p.count src) ∧
      Sent p.user p.par1 (src.read p.files buffer p.par2.toInt.toNat).2.1 p.par2.toInt.toNat
        p.par2.toInt.toNat s := by
  have hstart : Sent p.user p.par1 (src.read p.files buffer p.par2.toInt.toNat).2.1
      p.par2.toInt.toNat 0 (.start p.user buffer) :=
    ⟨.refl, h.writable, fun j hj => absurd hj (Nat.not_lt_zero j),
      fun fault hfault => absurd hfault List.not_mem_nil⟩
  obtain ⟨s, hok, hsent⟩ := sendBytes_resident source h.sane h.inRange turns
    p.par2.toInt.toNat 0 _ (Nat.zero_add _) hstart fun j _ hj => h.resident j hj
  have hcall : sysCallRead (turns + 1) source buffer p.files src p.par1 p.par2.toInt (-1)
      (.start p.user buffer) = .ok ((src.read p.files buffer p.par2.toInt.toNat).1,
        (src.read p.files buffer p.par2.toInt.toNat).2.2) s := by
    rw [sysCallRead, if_neg (not_lt.mpr h.nonneg), if_pos rfl]
    exact EStateM.bind_of_ok hok
  have hconsole : p.par3 ≠ ExecArgument := OpenFiles.ne_one hopen
  have hcount : (src.read p.files buffer p.par2.toInt.toNat).1 = p.count src :=
    OpenFile.readAt_fst buffer
  refine ⟨({ p with
      user := s.user
      openFiles := p.openFiles.set p.par3 (src.read p.files buffer p.par2.toInt.toNat).2.2 } :
      Process).writeResult (BitVec.ofNat 32 (src.read p.files buffer p.par2.toInt.toNat).1),
    s, ?_, rfl, ?_, hsent⟩
  · rw [scRead, if_neg hconsole, hopen]
    dsimp only
    rw [hcall]
  · rw [registers_writeResult, hcount]

/-! ## §4  When a read is right -/

/-- **When `SC_Read` delivers what was read and nothing else**: exactly when as many
bytes are left in the file as it asks for. -/
theorem reads_iff (p : Process) (h : p.Ready) (src : OpenFile)
    (hopen : p.openFiles.object p.par3 = some src) :
    (∀ turns source buffer, 0 < turns →
        ∃ q, p.scRead turns source buffer = .ok q ∧ p.Reads src q) ↔
      p.par2.toInt ≤ src.remaining p.files src.currentOffset := by
  have hsize : ((p.par2.toInt.toNat : ℕ) : ℤ) = p.par2.toInt := Int.toNat_of_nonneg h.nonneg
  constructor
  · intro hall
    by_contra hshort
    -- the first byte that was not read comes from what `new` returned
    have hlt : p.count src < p.par2.toInt.toNat := by
      rw [count, Nat.min_eq_right (by omega)]
      omega
    obtain ⟨hadd, hp, -⟩ := h.inRange.at hlt rfl
    obtain ⟨b, hb⟩ := (h.resident _ hlt).view
    rw [hadd] at hp hb
    obtain ⟨q, hread, hreads⟩ := hall 1 0 (fun _ => b + 1) Nat.one_pos
    obtain ⟨q', s, hread', huser, -, hsent⟩ := scRead_spec h hopen 0 (fun _ => b + 1) 0
    obtain rfl : q' = q := Except.ok.inj (hread'.symm.trans hread)
    have hold : q'.user.view (p.par1.toNat + p.count src) = some b :=
      hreads.rest.held _ (fun hmem => Nat.lt_irrefl _ hmem.2) hp b hb
    have hnew : q'.user.view (p.par1.toNat + p.count src) = some (b + 1) := by
      rw [huser, hsent.bytes _ hlt]
      exact congrArg some (OpenFile.readAt_snd_ge _ le_rfl)
    rw [hold] at hnew
    simp at hnew
  · intro hle turns source buffer hturns
    obtain ⟨turns, rfl⟩ := Nat.exists_eq_add_of_lt hturns
    obtain ⟨q, s, hread, huser, hregister, hsent⟩ :=
      scRead_spec h hopen source buffer (0 + turns)
    have hcount : p.count src = p.par2.toInt.toNat := Nat.min_eq_left (by omega)
    refine ⟨q, hread, hregister, fun i hi => ?_, ?_⟩
    · rw [huser, hsent.bytes i (hcount ▸ hi)]
      exact congrArg some (OpenFile.readAt_snd_lt buffer hi)
    · rw [huser, hcount]
      exact hsent.served.kept h.sane

/-- A process whose first page is resident, with a file of the bytes 65 and 66, calls
`Read` of `size` bytes to address 0. -/
def reading (sp : AddrSpace) (size : BitVec 32) : Process where
  user := UserMem.load ⟨PhysMemory.init, sp⟩ 0
  registers := Function.update (Function.update (fun _ => 0) Arg2Reg size) Arg3Reg 16
  files := fun _ => RandomAccessFile.empty.fwrite 0 [65, 66]
  openFiles := ⟨fun a => if a = 16 then some ⟨0, 0⟩ else none, rfl, rfl⟩
  argv := 0

theorem ready_reading : ∃ sp, AddrSpace.new (zeroProgram 0) = some sp ∧
    ∀ size : BitVec 32, size.toNat ≤ PageSize → (reading sp size).Ready := by
  obtain ⟨sp, hnew, hpages⟩ := new_zeroProgram
  have hp : 0 < sp.numPages := by omega
  refine ⟨sp, hnew, fun size hsize => ?_⟩
  have hvalid : (AddrSpace.new (zeroProgram 0)).map (fun sp =>
      ((UserMem.load ⟨PhysMemory.init, sp⟩ 0).sp.pageTable 0).valid) = some true := by
    decide +kernel
  rw [hnew] at hvalid
  have hsize' : (reading sp size).par2.toInt = size.toNat := BitVec.toInt_eq_toNat_of_lt (by
    show 2 * size.toNat < 2 ^ 32
    simp only [PageSize, SectorSize] at hsize
    omega)
  have hnum : (reading sp size).user.sp.numPages = 8 :=
    ((sane_new hnew).numPages_load hp).trans hpages
  have hrange : InRange (reading sp size).user 0 size.toNat := by
    simp only [PageSize, SectorSize] at hsize
    constructor
    · rw [hnum]
      show 0 + size.toNat ≤ 8 * PageSize
      simp only [PageSize, SectorSize]
      omega
    · intro _
      show 0 + size.toNat ≤ 0x80000000
      omega
  refine ⟨(sane_new hnew).load hp, (writable_new _ hnew).load (sane_new hnew) hp, ?_, ?_, ?_⟩
  · rw [hsize']
    exact Int.natCast_nonneg _
  · rw [hsize', Int.toNat_natCast]
    exact hrange
  · rw [hsize', Int.toNat_natCast]
    intro i hi
    obtain ⟨hadd, -, -⟩ := hrange.at (v := (reading sp size).user) hi rfl
    show ((reading sp size).user.sp.pageTable
      (((0 : BitVec 32) + BitVec.ofNat 32 i).toNat / PageSize)).valid = true
    rw [hadd, show ((0 : BitVec 32).toNat + i) / PageSize = 0 from
      Nat.div_eq_of_lt (by rw [show (0 : BitVec 32).toNat = 0 from rfl]; omega)]
    exact Option.some.inj hvalid

/-- Two bytes from a file of two. -/
theorem reads_iff_wholeFile : ∃ sp, AddrSpace.new (zeroProgram 0) = some sp ∧
    (reading sp 2).Ready ∧ (reading sp 2).openFiles.object (reading sp 2).par3 = some ⟨0, 0⟩ ∧
    ((∀ turns source buffer, 0 < turns → ∃ q, (reading sp 2).scRead turns source buffer = .ok q ∧
        (reading sp 2).Reads ⟨0, 0⟩ q) ↔
      (reading sp 2).par2.toInt ≤ OpenFile.remaining (reading sp 2).files ⟨0, 0⟩ 0) := by
  obtain ⟨sp, hnew, hready⟩ := ready_reading
  exact ⟨sp, hnew, hready 2 (by decide), rfl,
    reads_iff (reading sp 2) (hready 2 (by decide)) ⟨0, 0⟩ rfl⟩

/-- **Four bytes from a file of two**: the call returns 2, and the program finds two bytes
of the kernel's heap behind those of the file, where it had zeros. -/
theorem shortRead_leaks : ∃ sp q, AddrSpace.new (zeroProgram 0) = some sp ∧
    (reading sp 4).Ready ∧ (reading sp 4).user.view 2 = some 0 ∧
    (reading sp 4).scRead 1 0x08000000 (fun _ => 0x55) = .ok q ∧
    q.registers ResultReg = 2 ∧ (List.range 4).map q.user.view =
      [some 65, some 66, some 0x55, some 0x55] ∧ ¬ (reading sp 4).Reads ⟨0, 0⟩ q := by
  obtain ⟨sp, hnew, hready⟩ := ready_reading
  have hview : (AddrSpace.new (zeroProgram 0)).map (fun sp => (reading sp 4).user.view 2) =
      some (some 0) := by decide +kernel
  have hcall : (AddrSpace.new (zeroProgram 0)).map (fun sp =>
      match (reading sp 4).scRead 1 0x08000000 (fun _ => 0x55) with
      | .ok q => some (q.registers ResultReg, (List.range 4).map q.user.view)
      | .error _ => none) =
      some (some (2, [some 65, some 66, some 0x55, some 0x55])) := by decide +kernel
  rw [hnew] at hview hcall
  replace hview := Option.some.inj hview
  replace hcall := Option.some.inj hcall
  dsimp only at hcall
  cases hread : (reading sp 4).scRead 1 0x08000000 (fun _ => 0x55) with
  | error e =>
      rw [hread] at hcall
      cases hcall
  | ok q =>
      rw [hread] at hcall
      obtain ⟨hregister, hbytes⟩ := Prod.mk.inj (Option.some.inj hcall)
      refine ⟨sp, q, hnew, hready 4 (by decide), hview, hread, hregister, hbytes, fun hreads => ?_⟩
      have hle := (hready 4 (by decide)).inRange.le
      have hp : 2 / PageSize < (reading sp 4).user.sp.numPages := by
        change 4 ≤ _ * PageSize at hle
        simp only [PageSize, SectorSize] at hle ⊢
        omega
      have hold : q.user.view 2 = some 0 :=
        hreads.rest.held 2 (fun hmem => absurd hmem.2 (show ¬ 2 < 0 + min 4 2 by decide)) hp 0 hview
      have hnew : q.user.view 2 = some 0x55 := (List.cons.inj (List.cons.inj
        (List.cons.inj hbytes).2).2).1
      rw [hold] at hnew
      cases hnew

end Process

end OsAssignments.MemoryManagement
