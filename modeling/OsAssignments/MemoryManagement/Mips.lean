import OsAssignments.MemoryManagement.Machine
import OsAssignments.MemoryManagement.UserState

/-!
# The simulated processor

`machine/mipssim.cc`: `Machine::OneInstruction` fetches a word, decodes it and
executes it. A load is delayed: `LoadReg` and `LoadValueReg` hold it until the
next instruction, or the next trap, has been executed.

The switch over the opcodes only asks for its memory accesses (`Body`); they are
made by `oneInstruction`, over any memory that has `ReadMem` and `WriteMem`.
-/

namespace OsAssignments.MemoryManagement

/-! ## §1  Instructions -/

def R0 : Fin NumTotalRegs := ⟨0, by decide⟩
def R31 : Fin NumTotalRegs := ⟨31, by decide⟩
def HiReg : Fin NumTotalRegs := ⟨32, by decide⟩
def LoReg : Fin NumTotalRegs := ⟨33, by decide⟩
def PrevPCReg : Fin NumTotalRegs := ⟨36, by decide⟩
def LoadReg : Fin NumTotalRegs := ⟨37, by decide⟩
def LoadValueReg : Fin NumTotalRegs := ⟨38, by decide⟩
def BadVAddrReg : Fin NumTotalRegs := ⟨39, by decide⟩

/-- The values of `opCode`; the table entries `SPECIAL` and `BCOND` are decoded further. -/
inductive OpCode where
  | OP_ADD | OP_ADDI | OP_ADDIU | OP_ADDU | OP_AND | OP_ANDI
  | OP_BEQ | OP_BGEZ | OP_BGEZAL | OP_BGTZ | OP_BLEZ | OP_BLTZ | OP_BLTZAL | OP_BNE
  | OP_DIV | OP_DIVU | OP_J | OP_JAL | OP_JALR | OP_JR
  | OP_LB | OP_LBU | OP_LH | OP_LHU | OP_LUI | OP_LW | OP_LWL | OP_LWR
  | OP_MFHI | OP_MFLO | OP_MTHI | OP_MTLO | OP_MULT | OP_MULTU
  | OP_NOR | OP_OR | OP_ORI | OP_RFE | OP_SB | OP_SH
  | OP_SLL | OP_SLLV | OP_SLT | OP_SLTI | OP_SLTIU | OP_SLTU
  | OP_SRA | OP_SRAV | OP_SRL | OP_SRLV | OP_SUB | OP_SUBU
  | OP_SW | OP_SWL | OP_SWR | OP_XOR | OP_XORI | OP_SYSCALL | OP_UNIMP | OP_RES
  | SPECIAL | BCOND
deriving DecidableEq, Repr

inductive Format where
  | IFMT | JFMT | RFMT
deriving DecidableEq, Repr

structure OpInfo where
  opCode : OpCode
  format : Format
deriving DecidableEq, Repr

open OpCode Format in
def opTable : List OpInfo :=
  [⟨SPECIAL, RFMT⟩, ⟨BCOND, IFMT⟩, ⟨OP_J, JFMT⟩, ⟨OP_JAL, JFMT⟩,
    ⟨OP_BEQ, IFMT⟩, ⟨OP_BNE, IFMT⟩, ⟨OP_BLEZ, IFMT⟩, ⟨OP_BGTZ, IFMT⟩,
    ⟨OP_ADDI, IFMT⟩, ⟨OP_ADDIU, IFMT⟩, ⟨OP_SLTI, IFMT⟩, ⟨OP_SLTIU, IFMT⟩,
    ⟨OP_ANDI, IFMT⟩, ⟨OP_ORI, IFMT⟩, ⟨OP_XORI, IFMT⟩, ⟨OP_LUI, IFMT⟩,
    ⟨OP_UNIMP, IFMT⟩, ⟨OP_UNIMP, IFMT⟩, ⟨OP_UNIMP, IFMT⟩, ⟨OP_UNIMP, IFMT⟩,
    ⟨OP_RES, IFMT⟩, ⟨OP_RES, IFMT⟩, ⟨OP_RES, IFMT⟩, ⟨OP_RES, IFMT⟩,
    ⟨OP_RES, IFMT⟩, ⟨OP_RES, IFMT⟩, ⟨OP_RES, IFMT⟩, ⟨OP_RES, IFMT⟩,
    ⟨OP_RES, IFMT⟩, ⟨OP_RES, IFMT⟩, ⟨OP_RES, IFMT⟩, ⟨OP_RES, IFMT⟩,
    ⟨OP_LB, IFMT⟩, ⟨OP_LH, IFMT⟩, ⟨OP_LWL, IFMT⟩, ⟨OP_LW, IFMT⟩,
    ⟨OP_LBU, IFMT⟩, ⟨OP_LHU, IFMT⟩, ⟨OP_LWR, IFMT⟩, ⟨OP_RES, IFMT⟩,
    ⟨OP_SB, IFMT⟩, ⟨OP_SH, IFMT⟩, ⟨OP_SWL, IFMT⟩, ⟨OP_SW, IFMT⟩,
    ⟨OP_RES, IFMT⟩, ⟨OP_RES, IFMT⟩, ⟨OP_SWR, IFMT⟩, ⟨OP_RES, IFMT⟩,
    ⟨OP_UNIMP, IFMT⟩, ⟨OP_UNIMP, IFMT⟩, ⟨OP_UNIMP, IFMT⟩, ⟨OP_UNIMP, IFMT⟩,
    ⟨OP_RES, IFMT⟩, ⟨OP_RES, IFMT⟩, ⟨OP_RES, IFMT⟩, ⟨OP_RES, IFMT⟩,
    ⟨OP_UNIMP, IFMT⟩, ⟨OP_UNIMP, IFMT⟩, ⟨OP_UNIMP, IFMT⟩, ⟨OP_UNIMP, IFMT⟩,
    ⟨OP_RES, IFMT⟩, ⟨OP_RES, IFMT⟩, ⟨OP_RES, IFMT⟩, ⟨OP_RES, IFMT⟩]

open OpCode in
def specialTable : List OpCode :=
  [OP_SLL, OP_RES, OP_SRL, OP_SRA, OP_SLLV, OP_RES, OP_SRLV, OP_SRAV,
    OP_JR, OP_JALR, OP_RES, OP_RES, OP_SYSCALL, OP_UNIMP, OP_RES, OP_RES,
    OP_MFHI, OP_MTHI, OP_MFLO, OP_MTLO, OP_RES, OP_RES, OP_RES, OP_RES,
    OP_MULT, OP_MULTU, OP_DIV, OP_DIVU, OP_RES, OP_RES, OP_RES, OP_RES,
    OP_ADD, OP_ADDU, OP_SUB, OP_SUBU, OP_AND, OP_OR, OP_XOR, OP_NOR,
    OP_RES, OP_RES, OP_SLT, OP_SLTU, OP_RES, OP_RES, OP_RES, OP_RES,
    OP_RES, OP_RES, OP_RES, OP_RES, OP_RES, OP_RES, OP_RES, OP_RES,
    OP_RES, OP_RES, OP_RES, OP_RES, OP_RES, OP_RES, OP_RES, OP_RES]

/-- A decoded instruction; the register fields are five bits wide. -/
structure Instruction where
  opCode : OpCode
  rs : BitVec 5
  rt : BitVec 5
  rd : BitVec 5
  extra : BitVec 32
deriving DecidableEq, Repr

def Instruction.decode (value : BitVec 32) : Instruction :=
  -- both tables have 64 entries
  let info := opTable.getD (value.extractLsb' 26 6).toNat ⟨.OP_RES, .IFMT⟩
  { opCode :=
      match info.opCode with
      | .SPECIAL => specialTable.getD (value.extractLsb' 0 6).toNat .OP_RES
      | .BCOND =>
          let i := value &&& 0x1f0000
          if i = 0 then .OP_BLTZ
          else if i = 0x10000 then .OP_BGEZ
          else if i = 0x100000 then .OP_BLTZAL
          else if i = 0x110000 then .OP_BGEZAL
          else .OP_UNIMP
      | opCode => opCode
    rs := value.extractLsb' 21 5
    rt := value.extractLsb' 16 5
    rd := value.extractLsb' 11 5
    extra :=
      match info.format with
      | .IFMT =>
          let extra := value &&& 0xffff
          if extra &&& 0x8000 ≠ 0 then extra ||| 0xffff0000 else extra
      | .RFMT => (value >>> 6) &&& 0x1f
      | .JFMT => value &&& 0x3ffffff }

/-! ## §2  Multiplication -/

def SIGN_BIT : BitVec 32 := 0x80000000

/-- The `for` loop of `Mult`, with `n` turns left; it gives `hi` and `lo`. -/
def multLoop : ℕ → (a bLo bHi lo hi : BitVec 32) → BitVec 32 × BitVec 32
  | 0, _, _, _, lo, hi => (hi, lo)
  | n + 1, a, bLo, bHi, lo, hi =>
      let bHi' := bHi <<< 1 ||| if bLo &&& SIGN_BIT ≠ 0 then 1#32 else 0#32
      if a &&& 1 ≠ 0 then
        let lo := lo + bLo
        -- a carry out of the low bits
        let hi := (if lo < bLo then hi + 1 else hi) + bHi
        if a &&& 0xfffffffe = 0 then (hi, lo)
        else multLoop n (a.sshiftRight 1) (bLo <<< 1) bHi' lo hi
      else multLoop n (a.sshiftRight 1) (bLo <<< 1) bHi' lo hi

/-- `Mult`; what it stores at `hiPtr` and `loPtr`. -/
def mult (a b : BitVec 32) (signedArith : Bool) : BitVec 32 × BitVec 32 :=
  if a = 0 ∨ b = 0 then (0, 0)
  else
    let negative := signedArith && (decide (a.toInt < 0) ^^ decide (b.toInt < 0))
    let a := if signedArith ∧ a.toInt < 0 then -a else a
    let b := if signedArith ∧ b.toInt < 0 then -b else b
    let (hi, lo) := multLoop 32 a b 0 0 0
    if negative then
      let lo := ~~~lo + 1
      (if lo = 0 then ~~~hi + 1 else ~~~hi, lo)
    else (hi, lo)

/-! ## §3  Execution -/

def gpr (n : BitVec 5) : Fin NumTotalRegs :=
  ⟨n.toNat, n.isLt.trans (by decide)⟩

abbrev Registers.set (r : Registers) (n : Fin NumTotalRegs) (value : BitVec 32) : Registers :=
  Function.update r n value

def Registers.assign (r : Registers) (assigned : List (Fin NumTotalRegs × BitVec 32)) :
    Registers :=
  assigned.foldl (fun r a => r.set a.1 a.2) r

/-- How the `switch` of `OneInstruction` is left. -/
inductive Body where
  /-- `break` after these assignments, without a load. -/
  | next (assigned : List (Fin NumTotalRegs × BitVec 32)) (pcAfter : BitVec 32)
  /-- `ReadMem`, then a load into `rt` of a value made from the one read. -/
  | load (addr : BitVec 32) (size : Width) (nextLoadValue : BitVec 32 → BitVec 32)
  | store (addr : BitVec 32) (size : Width) (value : BitVec 32)
  /-- `ReadMem` of a word, then `WriteMem` of the value made from it. -/
  | replace (addr : BitVec 32) (value : BitVec 32 → BitVec 32)
  | raise (which : ExceptionType) (badVAddr : BitVec 32)
  /-- An `ASSERT`, or a division that C leaves undefined. -/
  | undefined

/-- The `switch (tmp & 0x3)` of `OP_LWL`. -/
def lwlValue (tmp old value : BitVec 32) : BitVec 32 :=
  match (tmp &&& 3).toNat with
  | 0 => value
  | 1 => (old &&& 0xff) ||| (value <<< 8)
  | 2 => (old &&& 0xffff) ||| (value <<< 16)
  | _ => (old &&& 0xffffff) ||| (value <<< 24)

def lwrValue (tmp old value : BitVec 32) : BitVec 32 :=
  match (tmp &&& 3).toNat with
  | 0 => (old &&& 0xffffff00) ||| (value.sshiftRight 24 &&& 0xff)
  | 1 => (old &&& 0xffff0000) ||| (value.sshiftRight 16 &&& 0xffff)
  | 2 => (old &&& 0xff000000) ||| (value.sshiftRight 8 &&& 0xffffff)
  | _ => value

def swlValue (tmp rt value : BitVec 32) : BitVec 32 :=
  match (tmp &&& 3).toNat with
  | 0 => rt
  | 1 => (value &&& 0xff000000) ||| (rt.sshiftRight 8 &&& 0xffffff)
  | 2 => (value &&& 0xffff0000) ||| (rt.sshiftRight 16 &&& 0xffff)
  | _ => (value &&& 0xffffff00) ||| (rt.sshiftRight 24 &&& 0xff)

def swrValue (tmp rt value : BitVec 32) : BitVec 32 :=
  match (tmp &&& 3).toNat with
  | 0 => (value &&& 0xffffff) ||| (rt <<< 24)
  | 1 => (value &&& 0xffff) ||| (rt <<< 16)
  | 2 => (value &&& 0xff) ||| (rt <<< 8)
  | _ => rt

/-- The `switch` of `OneInstruction`. -/
def Instruction.execute (i : Instruction) (r : Registers) : Body :=
  let rs := gpr i.rs
  let rt := gpr i.rt
  let rd := gpr i.rd
  let pcAfter := r NextPCReg + 4
  let target := r NextPCReg + i.extra <<< 2
  let tmp := r rs + i.extra
  match i.opCode with
  | .OP_ADD =>
      let sum := r rs + r rt
      if (r rs ^^^ r rt) &&& SIGN_BIT = 0 ∧ (r rs ^^^ sum) &&& SIGN_BIT ≠ 0 then
        .raise .OverflowException 0
      else .next [(rd, sum)] pcAfter
  | .OP_ADDI =>
      let sum := r rs + i.extra
      if (r rs ^^^ i.extra) &&& SIGN_BIT = 0 ∧ (i.extra ^^^ sum) &&& SIGN_BIT ≠ 0 then
        .raise .OverflowException 0
      else .next [(rt, sum)] pcAfter
  | .OP_ADDIU => .next [(rt, r rs + i.extra)] pcAfter
  | .OP_ADDU => .next [(rd, r rs + r rt)] pcAfter
  | .OP_AND => .next [(rd, r rs &&& r rt)] pcAfter
  | .OP_ANDI => .next [(rt, r rs &&& (i.extra &&& 0xffff))] pcAfter
  | .OP_BEQ => .next [] (if r rs = r rt then target else pcAfter)
  | .OP_BGEZAL =>
      -- the test comes after the link
      let link := r NextPCReg + 4
      .next [(R31, link)] (if r.set R31 link rs &&& SIGN_BIT = 0 then target else pcAfter)
  | .OP_BGEZ => .next [] (if r rs &&& SIGN_BIT = 0 then target else pcAfter)
  | .OP_BGTZ => .next [] (if 0 < (r rs).toInt then target else pcAfter)
  | .OP_BLEZ => .next [] (if (r rs).toInt ≤ 0 then target else pcAfter)
  | .OP_BLTZAL =>
      let link := r NextPCReg + 4
      .next [(R31, link)] (if r.set R31 link rs &&& SIGN_BIT ≠ 0 then target else pcAfter)
  | .OP_BLTZ => .next [] (if r rs &&& SIGN_BIT ≠ 0 then target else pcAfter)
  | .OP_BNE => .next [] (if r rs ≠ r rt then target else pcAfter)
  | .OP_DIV =>
      if r rt = 0 then .next [(LoReg, 0), (HiReg, 0)] pcAfter
      else if r rs = SIGN_BIT ∧ r rt = -1 then .undefined
      else .next [(LoReg, (r rs).sdiv (r rt)), (HiReg, (r rs).srem (r rt))] pcAfter
  | .OP_DIVU =>
      if r rt = 0 then .next [(LoReg, 0), (HiReg, 0)] pcAfter
      else .next [(LoReg, r rs / r rt), (HiReg, r rs % r rt)] pcAfter
  | .OP_JAL =>
      .next [(R31, r NextPCReg + 4)] ((pcAfter &&& 0xf0000000) ||| i.extra <<< 2)
  | .OP_J => .next [] ((pcAfter &&& 0xf0000000) ||| i.extra <<< 2)
  | .OP_JALR =>
      let link := r NextPCReg + 4
      .next [(rd, link)] (r.set rd link rs)
  | .OP_JR => .next [] (r rs)
  | .OP_LB =>
      .load tmp .byte fun value =>
        if value &&& 0x80 ≠ 0 then value ||| 0xffffff00 else value &&& 0xff
  | .OP_LBU => .load tmp .byte fun value => value &&& 0xff
  | .OP_LH =>
      if tmp &&& 1 ≠ 0 then .raise .AddressErrorException tmp
      else .load tmp .half fun value =>
        if value &&& 0x8000 ≠ 0 then value ||| 0xffff0000 else value &&& 0xffff
  | .OP_LHU =>
      if tmp &&& 1 ≠ 0 then .raise .AddressErrorException tmp
      else .load tmp .half fun value => value &&& 0xffff
  | .OP_LUI => .next [(rt, i.extra <<< 16)] pcAfter
  | .OP_LW =>
      if tmp &&& 3 ≠ 0 then .raise .AddressErrorException tmp
      else .load tmp .word fun value => value
  | .OP_LWL =>
      if tmp &&& 3 ≠ 0 then .undefined
      else .load tmp .word fun value =>
        lwlValue tmp (if (r LoadReg).toNat = rt then r LoadValueReg else r rt) value
  | .OP_LWR =>
      if tmp &&& 3 ≠ 0 then .undefined
      else .load tmp .word fun value =>
        lwrValue tmp (if (r LoadReg).toNat = rt then r LoadValueReg else r rt) value
  | .OP_MFHI => .next [(rd, r HiReg)] pcAfter
  | .OP_MFLO => .next [(rd, r LoReg)] pcAfter
  | .OP_MTHI => .next [(HiReg, r rs)] pcAfter
  | .OP_MTLO => .next [(LoReg, r rs)] pcAfter
  | .OP_MULT =>
      let p := mult (r rs) (r rt) true
      .next [(HiReg, p.1), (LoReg, p.2)] pcAfter
  | .OP_MULTU =>
      let p := mult (r rs) (r rt) false
      .next [(HiReg, p.1), (LoReg, p.2)] pcAfter
  | .OP_NOR => .next [(rd, ~~~(r rs ||| r rt))] pcAfter
  -- `rs` twice, as in the source
  | .OP_OR => .next [(rd, r rs ||| r rs)] pcAfter
  | .OP_ORI => .next [(rt, r rs ||| (i.extra &&& 0xffff))] pcAfter
  | .OP_SB => .store tmp .byte (r rt)
  | .OP_SH => .store tmp .half (r rt)
  | .OP_SLL => .next [(rd, r rt <<< i.extra.toNat)] pcAfter
  | .OP_SLLV => .next [(rd, r rt <<< (r rs &&& 0x1f).toNat)] pcAfter
  | .OP_SLT => .next [(rd, if (r rs).toInt < (r rt).toInt then 1 else 0)] pcAfter
  | .OP_SLTI => .next [(rt, if (r rs).toInt < i.extra.toInt then 1 else 0)] pcAfter
  | .OP_SLTIU => .next [(rt, if (r rs).toNat < i.extra.toNat then 1 else 0)] pcAfter
  | .OP_SLTU => .next [(rd, if (r rs).toNat < (r rt).toNat then 1 else 0)] pcAfter
  | .OP_SRA => .next [(rd, (r rt).sshiftRight i.extra.toNat)] pcAfter
  | .OP_SRAV => .next [(rd, (r rt).sshiftRight (r rs &&& 0x1f).toNat)] pcAfter
  -- `tmp` is an `int`, so these shifts are arithmetic too
  | .OP_SRL => .next [(rd, (r rt).sshiftRight i.extra.toNat)] pcAfter
  | .OP_SRLV => .next [(rd, (r rt).sshiftRight (r rs &&& 0x1f).toNat)] pcAfter
  | .OP_SUB =>
      let diff := r rs - r rt
      if (r rs ^^^ r rt) &&& SIGN_BIT ≠ 0 ∧ (r rs ^^^ diff) &&& SIGN_BIT ≠ 0 then
        .raise .OverflowException 0
      else .next [(rd, diff)] pcAfter
  | .OP_SUBU => .next [(rd, r rs - r rt)] pcAfter
  | .OP_SW => .store tmp .word (r rt)
  | .OP_SWL =>
      if tmp &&& 3 ≠ 0 then .undefined
      else .replace (tmp &&& ~~~3) (swlValue tmp (r rt))
  | .OP_SWR =>
      if tmp &&& 3 ≠ 0 then .undefined
      else .replace (tmp &&& ~~~3) (swrValue tmp (r rt))
  | .OP_SYSCALL => .raise .SyscallException 0
  | .OP_XOR => .next [(rd, r rs ^^^ r rt)] pcAfter
  | .OP_XORI => .next [(rt, r rs ^^^ (i.extra &&& 0xffff))] pcAfter
  | .OP_RES => .raise .IllegalInstrException 0
  | .OP_UNIMP => .raise .IllegalInstrException 0
  | .OP_RFE => .undefined
  | .SPECIAL => .undefined
  | .BCOND => .undefined

/-! ## §4  One instruction -/

/-- `Machine::DelayedLoad`; none if `LoadReg` has no register number. -/
def Machine.delayedLoad (nextReg nextValue : BitVec 32) (r : Registers) : Option Registers :=
  if h : (r LoadReg).toNat < NumTotalRegs then
    some ((((r.set ⟨(r LoadReg).toNat, h⟩ (r LoadValueReg)).set LoadReg nextReg).set
      LoadValueReg nextValue).set R0 0)
  else none

/-- `RaiseException`, up to the call of `ExceptionHandler`. -/
def Machine.raiseException (badVAddr : BitVec 32) (r : Registers) : Option Registers :=
  Machine.delayedLoad 0 0 (r.set BadVAddrReg badVAddr)

/-- The program counters at the end of `OneInstruction`. -/
def advancePCs (pcAfter : BitVec 32) (r : Registers) : Registers :=
  ((r.set PrevPCReg (r PCReg)).set PCReg (r NextPCReg)).set NextPCReg pcAfter

/-- `ReadMem` and `WriteMem` over some memory. -/
structure UserMemory (M : Type) where
  readMem : M → BitVec 32 → Width → Except ExceptionType (BitVec 32 × M)
  writeMem : M → BitVec 32 → Width → BitVec 32 → Except ExceptionType M

/-- How `OneInstruction` ends; `trap` is at the call of `ExceptionHandler`. -/
inductive Turn (M : Type) where
  | done (registers : Registers) (memory : M)
  | trap (registers : Registers) (memory : M) (which : ExceptionType) (badVAddr : BitVec 32)

namespace Turn

variable {M : Type}

/-- A `return` by way of `RaiseException`. -/
def raise (r : Registers) (m : M) (which : ExceptionType) (badVAddr : BitVec 32) :
    Option (Turn M) :=
  (Machine.raiseException badVAddr r).map fun r => .trap r m which badVAddr

/-- The end of `OneInstruction`. -/
def finish (r : Registers) (m : M) (nextLoadReg nextLoadValue pcAfter : BitVec 32) :
    Option (Turn M) :=
  (Machine.delayedLoad nextLoadReg nextLoadValue r).map fun r => .done (advancePCs pcAfter r) m

end Turn

/-- `Machine::OneInstruction`. -/
def Machine.oneInstruction {M : Type} (memory : UserMemory M) (r : Registers) (m : M) :
    Option (Turn M) :=
  match memory.readMem m (r PCReg) .word with
  | .error which => Turn.raise r m which (r PCReg)
  | .ok (raw, m) =>
      let i := Instruction.decode raw
      let pcAfter := r NextPCReg + 4
      match i.execute r with
      | .next assigned pcAfter => Turn.finish (r.assign assigned) m 0 0 pcAfter
      | .load addr size nextLoadValue =>
          match memory.readMem m addr size with
          | .error which => Turn.raise r m which addr
          | .ok (value, m) =>
              Turn.finish r m (i.rt.setWidth 32) (nextLoadValue value) pcAfter
      | .store addr size value =>
          match memory.writeMem m addr size value with
          | .error which => Turn.raise r m which addr
          | .ok m => Turn.finish r m 0 0 pcAfter
      | .replace addr newValue =>
          match memory.readMem m addr .word with
          | .error which => Turn.raise r m which addr
          | .ok (value, m) =>
              match memory.writeMem m addr .word (newValue value) with
              | .error which => Turn.raise r m which addr
              | .ok m => Turn.finish r m 0 0 pcAfter
      | .raise which badVAddr => Turn.raise r m which badVAddr
      | .undefined => none

end OsAssignments.MemoryManagement
