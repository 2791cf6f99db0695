import OsAssignments.MemoryManagement.Paging

/-!
# User memory accesses

`machine/translate.cc`: a load or a store of one, two or four bytes goes
through `Translate`, which checks alignment, bounds, validity and protection,
and sets the use and dirty bits of the entry. A failed translation changes
nothing and reports the exception that the machine then raises.

- `readMem_inv`, `writeMem_inv` — what a completed access did, in terms of the
  frame that the page maps.
- `view_readMem`, `view_writeMem` — the same in terms of the address space's
  own bytes.
-/

namespace OsAssignments.MemoryManagement

/-! ## §1  The code -/

inductive ExceptionType where
  | NoException
  | SyscallException
  | PageFaultException
  | ReadOnlyException
  | BusErrorException
  | AddressErrorException
  | OverflowException
  | IllegalInstrException
deriving DecidableEq, Repr

/-- The widths that `ReadMem` and `WriteMem` accept; any other one aborts. -/
inductive Width where
  | byte
  | half
  | word
deriving DecidableEq, Repr

def Width.size : Width → ℕ
  | .byte => 1
  | .half => 2
  | .word => 4

/-- The use and dirty bits that an access sets. -/
def AddrSpace.touch (sp : AddrSpace) (vpn : ℕ) (writing : Bool) : AddrSpace :=
  { sp with
    pageTable := Function.update sp.pageTable vpn
      { sp.pageTable vpn with
        use := true, dirty := (sp.pageTable vpn).dirty || writing } }

/-- The tests of `Translate` in their order, then the physical address and the
entry with its use and dirty bits set. Its last `ASSERT` cannot fail
(`translate_inv`). -/
def Machine.translate (sp : AddrSpace) (virtAddr : BitVec 32) (size : Width)
    (writing : Bool) : Except ExceptionType (ℕ × AddrSpace) :=
  if virtAddr.toNat % size.size ≠ 0 then
    .error .AddressErrorException
  else
    let vpn := virtAddr.toNat / PageSize
    let offset := virtAddr.toNat % PageSize
    let entry := sp.pageTable vpn
    let pageFrame := (BitVec.ofInt 32 entry.physicalPage).toNat
    if vpn ≥ sp.numPages then .error .AddressErrorException
    else if ¬ entry.valid then .error .PageFaultException
    else if entry.readOnly && writing then .error .ReadOnlyException
    else if pageFrame ≥ NumPhysPages then .error .BusErrorException
    else
      .ok (pageFrame * PageSize + offset, sp.touch vpn writing)

/-- The register value of the bytes read: a `char` is signed, an
`unsigned short` is not. -/
def loadValue : Width → List Byte → BitVec 32
  | .byte, bs => (bs.getD 0 0).signExtend 32
  | .half, bs => (bs.getD 1 0 ++ bs.getD 0 0 : BitVec (8 + 8)).setWidth 32
  | .word, bs => bytesWord bs

def Machine.readMem (mem : ByteMem) (sp : AddrSpace) (addr : BitVec 32)
    (size : Width) : Except ExceptionType (BitVec 32 × AddrSpace) :=
  match Machine.translate sp addr size false with
  | .error exception => .error exception
  | .ok (physicalAddress, sp) =>
      .ok (loadValue size (mem.read physicalAddress size.size), sp)

def Machine.writeMem (mem : ByteMem) (sp : AddrSpace) (addr : BitVec 32)
    (size : Width) (value : BitVec 32) :
    Except ExceptionType (ByteMem × AddrSpace) :=
  match Machine.translate sp addr size true with
  | .error exception => .error exception
  | .ok (physicalAddress, sp) =>
      .ok (mem.write physicalAddress ((wordBytes value).take size.size), sp)

/-! ## §2  The use and dirty bits -/

namespace AddrSpace

@[simp] theorem numPages_touch (sp : AddrSpace) (p : ℕ) (w : Bool) :
    (sp.touch p w).numPages = sp.numPages := rfl
@[simp] theorem loadedPages_touch (sp : AddrSpace) (p : ℕ) (w : Bool) :
    (sp.touch p w).loadedPages = sp.loadedPages := rfl
@[simp] theorem swapFile_touch (sp : AddrSpace) (p : ℕ) (w : Bool) :
    (sp.touch p w).swapFile = sp.swapFile := rfl

@[simp] theorem valid_touch (sp : AddrSpace) (p q : ℕ) (w : Bool) :
    ((sp.touch p w).pageTable q).valid = (sp.pageTable q).valid := by
  by_cases h : q = p
  · subst h
    simp [touch]
  · simp [touch, h]

@[simp] theorem physicalPage_touch (sp : AddrSpace) (p q : ℕ) (w : Bool) :
    ((sp.touch p w).pageTable q).physicalPage = (sp.pageTable q).physicalPage := by
  by_cases h : q = p
  · subst h
    simp [touch]
  · simp [touch, h]

@[simp] theorem maps_touch (sp : AddrSpace) (p q f : ℕ) (w : Bool) :
    (sp.touch p w).Maps q f ↔ sp.Maps q f := by
  simp [Maps]

@[simp] theorem view_touch (mem : ByteMem) (sp : AddrSpace) (p a : ℕ) (w : Bool) :
    view mem (sp.touch p w) a = view mem sp a := by
  simp [view]

theorem Wf.touch {sp : AddrSpace} (h : sp.Wf) (p : ℕ) (w : Bool) :
    (sp.touch p w).Wf where
  valid_range q := by simpa using h.valid_range q
  invalid q := by simpa using h.invalid q
  queued q := by simpa using h.queued q
  queue_lt q := by simpa using h.queue_lt q
  in_swap q := by simpa using h.in_swap q

/-- `Translate` takes the frame number of a resident page as it is. -/
theorem Wf.toNat_physicalPage {sp : AddrSpace} (h : sp.Wf) {p : ℕ}
    (hp : p < sp.numPages) (hv : (sp.pageTable p).valid = true) :
    (BitVec.ofInt 32 (sp.pageTable p).physicalPage).toNat =
      (sp.pageTable p).physicalPage.toNat := by
  have hr := h.valid_range p hp hv
  rw [BitVec.toNat_ofInt]
  simp only [NumPhysPages] at hr
  omega

end AddrSpace

/-! ## §3  What a completed access did -/

/-- **A successful translation.** The page is resident, the access stays inside
its frame, and only the use and dirty bits change. -/
theorem translate_inv {sp sp' : AddrSpace} {addr : BitVec 32} {size : Width}
    {writing : Bool} {pa : ℕ} (h : sp.Wf)
    (heq : Machine.translate sp addr size writing = .ok (pa, sp')) :
    ∃ f, sp.Maps (addr.toNat / PageSize) f ∧
      pa = f * PageSize + addr.toNat % PageSize ∧
      addr.toNat % PageSize + size.size ≤ PageSize ∧
      pa + size.size ≤ NumPhysPages * PageSize ∧
      sp' = sp.touch (addr.toNat / PageSize) writing := by
  unfold Machine.translate at heq
  split at heq
  · cases heq
  rename_i halign
  dsimp only at heq
  split at heq
  · cases heq
  rename_i hlt
  split at heq
  · cases heq
  rename_i hvalid
  split at heq
  · cases heq
  split at heq
  · cases heq
  rename_i hframe
  cases heq
  have hp : addr.toNat / PageSize < sp.numPages := Nat.lt_of_not_le hlt
  have hv : (sp.pageTable (addr.toNat / PageSize)).valid = true := by
    simpa using hvalid
  obtain ⟨hm, -⟩ := h.maps_of_valid hp hv
  have hcast := h.toNat_physicalPage hp hv
  -- an aligned access does not leave the page
  have hinside : addr.toNat % PageSize + size.size ≤ PageSize := by
    simp only [PageSize, SectorSize]
    cases size <;> simp only [Width.size] at halign ⊢ <;> omega
  refine ⟨_, hm, by rw [hcast], hinside, ?_, rfl⟩
  rw [hcast]
  simp only [NumPhysPages, PageSize, SectorSize] at *
  omega

theorem readMem_inv {mem : ByteMem} {sp sp' : AddrSpace} {addr value : BitVec 32}
    {size : Width} (h : sp.Wf)
    (heq : Machine.readMem mem sp addr size = .ok (value, sp')) :
    ∃ f, sp.Maps (addr.toNat / PageSize) f ∧
      addr.toNat % PageSize + size.size ≤ PageSize ∧
      value = loadValue size
        (mem.read (f * PageSize + addr.toNat % PageSize) size.size) ∧
      sp' = sp.touch (addr.toNat / PageSize) false := by
  unfold Machine.readMem at heq
  split at heq
  · cases heq
  · rename_i pa sp₁ htr
    cases heq
    obtain ⟨f, hm, rfl, hinside, -, rfl⟩ := translate_inv h htr
    exact ⟨f, hm, hinside, rfl, rfl⟩

theorem writeMem_inv {mem mem' : ByteMem} {sp sp' : AddrSpace}
    {addr value : BitVec 32} {size : Width} (h : sp.Wf)
    (heq : Machine.writeMem mem sp addr size value = .ok (mem', sp')) :
    ∃ f, sp.Maps (addr.toNat / PageSize) f ∧
      addr.toNat % PageSize + size.size ≤ PageSize ∧
      mem' = mem.write (f * PageSize + addr.toNat % PageSize)
        ((wordBytes value).take size.size) ∧
      sp' = sp.touch (addr.toNat / PageSize) true := by
  unfold Machine.writeMem at heq
  split at heq
  · cases heq
  · rename_i pa sp₁ htr
    cases heq
    obtain ⟨f, hm, rfl, hinside, -, rfl⟩ := translate_inv h htr
    exact ⟨f, hm, hinside, rfl, rfl⟩

/-! ## §4  Accesses and the bytes of the address space -/

/-- Byte `i` of a register. -/
def regByte (value : BitVec 32) (i : ℕ) : Byte := value.extractLsb' (8 * i) 8

theorem getD_take_wordBytes (value : BitVec 32) {size : Width} {i : ℕ}
    (h : i < size.size) :
    ((wordBytes value).take size.size).getD i 0 = regByte value i := by
  have hi : i < 4 := by cases size <;> simp only [Width.size] at h <;> omega
  rw [List.getD_eq_getElem?_getD, List.getElem?_take, if_pos h]
  match i, hi with
  | 0, _ => rfl
  | 1, _ => rfl
  | 2, _ => rfl
  | 3, _ => rfl

theorem length_take_wordBytes (value : BitVec 32) (size : Width) :
    ((wordBytes value).take size.size).length = size.size := by
  cases size <;> rfl

/-- Byte `i` of a loaded value is byte `i` of what was read. -/
theorem regByte_loadValue {size : Width} {bs : List Byte} {i : ℕ}
    (h : i < size.size) : regByte (loadValue size bs) i = bs.getD i 0 := by
  cases size with
  | byte =>
      obtain rfl : i = 0 := by simp only [Width.size] at h; omega
      apply BitVec.eq_of_getLsbD_eq
      intro k hk
      have hk' : k < 32 := by omega
      simp [regByte, loadValue, BitVec.getElem_signExtend, hk, hk']
  | half =>
      apply BitVec.eq_of_getLsbD_eq
      intro k hk
      simp only [regByte, loadValue, BitVec.getLsbD_extractLsb',
        BitVec.getLsbD_append, BitVec.getLsbD_setWidth, hk, decide_true,
        Bool.true_and]
      match i, h with
      | 0, _ =>
          simp [hk]
          omega
      | 1, _ =>
          simp [show ¬ 8 + k < 8 by omega, hk]
          omega
  | word => exact extractLsb'_bytesWord bs h

/-- An access covers consecutive bytes of one page. -/
theorem access_page {a i n : ℕ} (h : a % PageSize + n ≤ PageSize) (hi : i < n) :
    (a + i) / PageSize = a / PageSize ∧ (a + i) % PageSize = a % PageSize + i := by
  simp only [PageSize, SectorSize] at *
  omega

/-- **A completed load** returns the bytes of the address space. -/
theorem view_readMem {mem : ByteMem} {sp sp' : AddrSpace} {addr value : BitVec 32}
    {size : Width} {i : ℕ} (h : sp.Wf)
    (heq : Machine.readMem mem sp addr size = .ok (value, sp'))
    (hi : i < size.size) :
    sp.view mem (addr.toNat + i) = some (regByte value i) := by
  obtain ⟨f, hm, hinside, rfl, -⟩ := readMem_inv h heq
  obtain ⟨hdiv, hmod⟩ := access_page hinside hi
  rw [regByte_loadValue hi, ByteMem.getD_read _ _ _ _ hi]
  rw [← hdiv] at hm
  rw [AddrSpace.view_of_maps hm, hmod, Nat.add_assoc]

/-- **A completed store** puts the low bytes of the value at its address and
keeps every other byte of the address space. -/
theorem view_writeMem {mem mem' : ByteMem} {sp sp' : AddrSpace}
    {addr value : BitVec 32} {size : Width} {a : ℕ} {b : BitMap} (h : sp.Wf)
    (ho : sp.Owns b) (ha : a / PageSize < sp.numPages)
    (heq : Machine.writeMem mem sp addr size value = .ok (mem', sp')) :
    sp'.view mem' a =
      if addr.toNat ≤ a ∧ a < addr.toNat + size.size then
        some (regByte value (a - addr.toNat))
      else sp.view mem a := by
  obtain ⟨f, hm, hinside, rfl, rfl⟩ := writeMem_inv h heq
  have hlen := length_take_wordBytes value size
  rw [AddrSpace.view_touch]
  split
  · rename_i hin
    obtain ⟨i, rfl⟩ := Nat.exists_eq_add_of_le hin.1
    have hi : i < size.size := by omega
    obtain ⟨hdiv, hmod⟩ := access_page hinside hi
    rw [← hdiv] at hm
    rw [AddrSpace.view_of_maps hm, hmod, ← Nat.add_assoc,
      ByteMem.write_inside _ _ _ _ (by omega), getD_take_wordBytes _ hi,
      Nat.add_sub_cancel_left]
  · rename_i hout
    refine AddrSpace.view_congr_mem h ha fun g hg => ?_
    refine ByteMem.write_outside _ _ _ _ ?_
    rw [hlen]
    by_cases hfg : f = g
    · -- the same frame, hence the same page
      subst hfg
      have hpage := ho.inj _ _ _ hm hg
      simp only [PageSize, SectorSize] at *
      omega
    · simp only [PageSize, SectorSize] at *
      omega

/-- A store writes only into a frame of its own address space. -/
theorem writeMem_outside {mem mem' : ByteMem} {sp sp' : AddrSpace}
    {addr value : BitVec 32} {size : Width} {x : ℕ} (h : sp.Wf)
    (heq : Machine.writeMem mem sp addr size value = .ok (mem', sp'))
    (hown : ∀ q, ¬ sp.Maps q (x / PageSize)) : mem' x = mem x := by
  obtain ⟨f, hm, hinside, rfl, -⟩ := writeMem_inv h heq
  have hf : x / PageSize ≠ f := fun hx => hown _ (hx ▸ hm)
  refine ByteMem.write_outside _ _ _ _ ?_
  rw [length_take_wordBytes]
  simp only [PageSize, SectorSize] at *
  omega

end OsAssignments.MemoryManagement
