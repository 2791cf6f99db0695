import OsAssignments.MemoryManagement.Copy
import OsAssignments.MemoryManagement.FirstLoad
import OsAssignments.MemoryManagement.MipsRestart

/-!
# The memory that a program runs on

A flat memory has all bytes of a program from the start. The memory of a process shows
it as far as pages have been loaded; a byte of a page that was not loaded yet is, in the
flat memory, the one that the first load will put there, and where the first load leaves
what the frame held, it is left open.

- `Shows` — that relation.
- `Shows.fault`, `Shows.access`, `Shows.other` — page faults, and whatever other
  processes do, keep it, read backwards: what shows a memory afterwards showed it before.
- `backed` — loads and stores of the process are those of the flat memory.
-/

namespace OsAssignments.MemoryManagement

/-! ## §1  Flat memory -/

/-- `numPages` pages of memory, all there. -/
def flatMemory (numPages : ℕ) : UserMemory ByteMem where
  readMem mem addr size :=
    if addr.toNat % size.size ≠ 0 ∨ numPages ≤ addr.toNat / PageSize then
      .error .AddressErrorException
    else .ok (loadValue size (mem.read addr.toNat size.size), mem)
  writeMem mem addr size value :=
    if addr.toNat % size.size ≠ 0 ∨ numPages ≤ addr.toNat / PageSize then
      .error .AddressErrorException
    else .ok (mem.write addr.toNat ((wordBytes value).take size.size))

/-- The memory of process `p`. Without an address space there is no page table, which
`Translate` asserts; no exception stands for that. -/
def Vm.userMemory (p : ℕ) : UserMemory Vm where
  readMem vm addr size := (vm.readMem p addr size).getD (.error .NoException)
  writeMem vm addr size value := (vm.writeMem p addr size value).getD (.error .NoException)

theorem Vm.userMemory_readMem {vm vm' : Vm} {p : ℕ} {addr value : BitVec 32} {size : Width} :
    (Vm.userMemory p).readMem vm addr size = .ok (value, vm') ↔
      vm.readMem p addr size = some (.ok (value, vm')) := by
  change (vm.readMem p addr size).getD _ = _ ↔ _
  cases vm.readMem p addr size with
  | none => simp
  | some e => simp

theorem Vm.userMemory_writeMem {vm vm' : Vm} {p : ℕ} {addr value : BitVec 32}
    {size : Width} :
    (Vm.userMemory p).writeMem vm addr size value = .ok vm' ↔
      vm.writeMem p addr size value = some (.ok vm') := by
  change (vm.writeMem p addr size value).getD _ = _ ↔ _
  cases vm.writeMem p addr size value with
  | none => simp
  | some e => simp

namespace AddrSpace

/-- What the first load of its page says of byte `a`: zero past the image, else the byte
of the file, where the file has one. -/
def FirstByte (sp : AddrSpace) (a : ℕ) (b : Byte) : Prop :=
  (sp.PastImage (a / PageSize) → b = 0) ∧
    (¬ sp.PastImage (a / PageSize) →
      sp.readAddr (a / PageSize) + a % PageSize < sp.executable.size →
      b = sp.executable.data (sp.readAddr (a / PageSize) + a % PageSize))

variable {sp sp' : AddrSpace}

theorem SameProgram.firstByte (h : SameProgram sp sp') {a : ℕ} {b : Byte} :
    sp'.FirstByte a b ↔ sp.FirstByte a b := by
  unfold FirstByte PastImage readAddr
  rw [h.noffH, h.executable]

/-- **A byte that a page fault brings in** for the first time. -/
theorem view_load_none {pm : PhysMemory} {p a : ℕ} (h : sp.Wf) (hp : p < sp.numPages)
    (hnone : sp.view pm.mainMemory a = none) :
    (sp.loaded pm p).2.2.view (sp.loaded pm p).2.1.mainMemory a = none ∨
      ∃ b, (sp.loaded pm p).2.2.view (sp.loaded pm p).2.1.mainMemory a = some b ∧
        sp.FirstByte a b := by
  obtain ⟨hinv, hswap⟩ := view_eq_none_iff.mp hnone
  by_cases hpage : a / PageSize = p
  · subst hpage
    have hnew : (sp.pageTable (a / PageSize)).physicalPage = -1 :=
      (h.invalid _ hp hinv).resolve_right hswap
    cases hload : (sp.loaded pm (a / PageSize)).1 with
    | true =>
        obtain ⟨f, hm, hmem⟩ := load_first h hp hnew (loadFromExecutable_eq_some hload)
        have hi : a % PageSize < PageSize := Nat.mod_lt _ (by decide)
        obtain ⟨hpast, hfile⟩ := loadImage_at hmem hi
        right
        refine ⟨_, view_of_maps hm, ?_, ?_⟩
        · intro hp'
          rw [hpast hp']
        · intro hp' hlt
          rw [hfile hp', if_pos hlt]
    | false =>
        left
        rcases loaded_cases pm h hp with
          ⟨hv, -⟩ | ⟨-, f, -, -, heq⟩ | ⟨-, -, pre, v, post, f, -, -, heq⟩ |
          ⟨-, -, heq⟩
        · rw [hinv] at hv
          cases hv
        · rw [heq] at hload
          cases hload
        · rw [heq] at hload
          cases hload
        · rw [heq]
          exact hnone
  · left
    apply view_eq_none_iff.mpr
    rw [pageTable_load_ne pm h hp hpage hinv]
    exact ⟨hinv, hswap⟩

theorem sameProgram_touch (sp : AddrSpace) (p : ℕ) (w : Bool) :
    SameProgram sp (sp.touch p w) := ⟨rfl, rfl, rfl⟩

end AddrSpace

/-! ## §2  What a process shows -/

/-- The bytes of process `p` are those of `M`, as far as its pages have been loaded. -/
def Shows (p : ℕ) (vm : Vm) (M : ByteMem) : Prop :=
  ∃ sp, vm.spaces p = some sp ∧ ∀ a, a / PageSize < sp.numPages →
    (∀ b, sp.view vm.phys.mainMemory a = some b → M a = b) ∧
      (sp.view vm.phys.mainMemory a = none → sp.FirstByte a (M a))

/-- There is always such a memory. -/
theorem exists_shows {p : ℕ} {vm : Vm} {sp : AddrSpace} (hsp : vm.spaces p = some sp) :
    ∃ M, Shows p vm M := by
  have hbyte : ∀ a, ∃ b, (∀ b', sp.view vm.phys.mainMemory a = some b' → b = b') ∧
      (sp.view vm.phys.mainMemory a = none → sp.FirstByte a b) := by
    intro a
    cases hview : sp.view vm.phys.mainMemory a with
    | some b => exact ⟨b, fun b' hb' => Option.some.inj hb', nofun⟩
    | none =>
        by_cases hpast : sp.PastImage (a / PageSize)
        · exact ⟨0, nofun, fun _ => ⟨fun _ => rfl, fun hin => absurd hpast hin⟩⟩
        · exact ⟨_, nofun, fun _ => ⟨fun hpast' => absurd hpast' hpast, fun _ _ => rfl⟩⟩
  choose M hM using hbyte
  exact ⟨M, sp, hsp, fun a _ => hM a⟩

namespace Shows

variable {vm vm' : Vm} {p q : ℕ} {M : ByteMem}

/-- What is shown later was shown before, if bytes that are there stay, and those that
come are of the first load. -/
theorem of_later {sp sp' : AddrSpace} (hsp : vm.spaces p = some sp)
    (hsp' : vm'.spaces p = some sp') (hprog : AddrSpace.SameProgram sp sp')
    (hstay : ∀ a, a / PageSize < sp.numPages → ∀ b,
      sp.view vm.phys.mainMemory a = some b → sp'.view vm'.phys.mainMemory a = some b)
    (hcome : ∀ a, a / PageSize < sp.numPages → sp.view vm.phys.mainMemory a = none →
      sp'.view vm'.phys.mainMemory a = none ∨
        ∃ b, sp'.view vm'.phys.mainMemory a = some b ∧ sp.FirstByte a b)
    (h : Shows p vm' M) : Shows p vm M := by
  obtain ⟨sp₁, hsp₁, hM⟩ := h
  obtain rfl : sp₁ = sp' := Option.some.inj (hsp₁.symm.trans hsp')
  refine ⟨sp, hsp, fun a ha => ?_⟩
  obtain ⟨hsome, hnone⟩ := hM a (by rwa [hprog.numPages])
  constructor
  · exact fun b hb => hsome b (hstay a ha b hb)
  · intro hb
    rcases hcome a ha hb with hb' | ⟨b, hb', hfirst⟩
    · exact hprog.firstByte.mp (hnone hb')
    · rw [hsome b hb']
      exact hfirst

/-- **A page fault of the process**, served or not. -/
theorem fault (hi : FrameInv vm) {page : ℕ} {ok : Bool}
    (hstep : vm.fault p page = some (ok, vm')) (h : Shows p vm' M) : Shows p vm M := by
  obtain ⟨sp, hsp, hpage, -, rfl, -⟩ := fault_inv hstep
  have hwf := hi.wf p sp hsp
  refine of_later hsp (Function.update_self ..) (AddrSpace.sameProgram_load _ hwf hpage)
    ?_ ?_ h
  · exact fun a ha b hb => AddrSpace.load_view hwf (hi.owns hsp) hpage ha hb
  · exact fun a _ hb => AddrSpace.view_load_none hwf hpage hb

/-- A step that leaves the address space and the frames of the process alone. -/
theorem other {sp : AddrSpace} (hi : FrameInv vm) (hsp : vm.spaces p = some sp)
    (hsp' : vm'.spaces p = some sp)
    (hmem : ∀ a, a / PageSize < sp.numPages → ∀ f, sp.Maps (a / PageSize) f →
      vm'.phys.mainMemory (f * PageSize + a % PageSize) =
        vm.phys.mainMemory (f * PageSize + a % PageSize))
    (h : Shows p vm' M) : Shows p vm M := by
  have hview : ∀ a, a / PageSize < sp.numPages →
      sp.view vm'.phys.mainMemory a = sp.view vm.phys.mainMemory a :=
    fun a ha => AddrSpace.view_congr_mem (hi.wf p sp hsp) ha (hmem a ha)
  refine of_later hsp hsp' ⟨rfl, rfl, rfl⟩ ?_ ?_ h
  · intro a ha b hb
    rw [hview a ha, hb]
  · intro a ha hb
    left
    rw [hview a ha, hb]

/-- The bytes of an access that has gone through. -/
theorem bytes {sp : AddrSpace} {f : ℕ} {addr : BitVec 32} {n : ℕ}
    (hsp : vm.spaces p = some sp) (hm : sp.Maps (addr.toNat / PageSize) f)
    (hinside : addr.toNat % PageSize + n ≤ PageSize) (h : Shows p vm M) :
    vm.phys.mainMemory.read (f * PageSize + addr.toNat % PageSize) n =
      M.read addr.toNat n := by
  obtain ⟨sp₁, hsp₁, hM⟩ := h
  obtain rfl : sp₁ = sp := Option.some.inj (hsp₁.symm.trans hsp)
  apply List.map_congr_left
  intro i hi
  rw [List.mem_range] at hi
  obtain ⟨hdiv, hmod⟩ := access_page hinside hi
  have hm' : sp₁.Maps ((addr.toNat + i) / PageSize) f := by rwa [hdiv]
  have hb := (hM (addr.toNat + i) hm'.1).1 _ (AddrSpace.view_of_maps hm')
  rw [hb, hmod, Nat.add_assoc]

end Shows

/-! ## §3  Other processes -/

namespace Vm

/-- Process `p` is left alone. -/
def LeavesAlone (p : ℕ) (vm vm' : Vm) : Prop :=
  ∀ sp, vm.spaces p = some sp → vm'.spaces p = some sp ∧ ∀ M, Shows p vm' M → Shows p vm M

variable {vm vm' vm'' : Vm} {p q : ℕ}

theorem LeavesAlone.refl (p : ℕ) (vm : Vm) : LeavesAlone p vm vm :=
  fun _ hsp => ⟨hsp, fun _ => id⟩

theorem LeavesAlone.trans (h : LeavesAlone p vm vm') (h' : LeavesAlone p vm' vm'') :
    LeavesAlone p vm vm'' := by
  intro sp hsp
  obtain ⟨hsp', hM⟩ := h sp hsp
  obtain ⟨hsp'', hM'⟩ := h' sp hsp'
  exact ⟨hsp'', fun M hM'' => hM M (hM' M hM'')⟩

/-- Memory and the address space of another process change. -/
theorem leavesAlone_update (hi : FrameInv vm) (hne : p ≠ q) {phys : PhysMemory}
    {x : Option AddrSpace}
    (hmem : ∀ r f i, vm.Maps p r f → i < PageSize →
      phys.mainMemory (f * PageSize + i) = vm.phys.mainMemory (f * PageSize + i)) :
    LeavesAlone p vm ⟨phys, Function.update vm.spaces q x⟩ := by
  intro sp hsp
  have hsp' : Function.update vm.spaces q x p = some sp :=
    (Function.update_of_ne hne _ _).trans hsp
  refine ⟨hsp', fun M hM => Shows.other hi hsp hsp' ?_ hM⟩
  exact fun a _ f hf => hmem _ f _ ⟨sp, hsp, hf⟩ (Nat.mod_lt _ (by decide))

theorem readMem_leavesAlone {addr value : BitVec 32} {size : Width} (hi : FrameInv vm)
    (hne : p ≠ q) (hstep : vm.readMem q addr size = some (.ok (value, vm'))) :
    LeavesAlone p vm vm' := by
  obtain ⟨spq, sp', -, -, rfl⟩ := readMem_ok_inv hstep
  exact leavesAlone_update hi hne fun _ _ _ _ _ => rfl

theorem writeMem_leavesAlone {addr value : BitVec 32} {size : Width} (hi : FrameInv vm)
    (hne : p ≠ q) (hstep : vm.writeMem q addr size value = some (.ok vm')) :
    LeavesAlone p vm vm' := by
  obtain ⟨spq, sp', mem, hq, hwrite, rfl⟩ := writeMem_ok_inv hstep
  refine leavesAlone_update hi hne fun r f i hf hlt => ?_
  refine writeMem_outside (hi.wf q spq hq) hwrite fun r' hr' => hne ?_
  rw [show (f * PageSize + i) / PageSize = f by
    simp only [PageSize, SectorSize] at *; omega] at hr'
  exact (hi.exclusive p q r r' f hf ⟨spq, hq, hr'⟩).1

theorem fault_leavesAlone {page : ℕ} {ok : Bool} (hi : FrameInv vm) (hne : p ≠ q)
    (hstep : vm.fault q page = some (ok, vm')) : LeavesAlone p vm vm' := by
  obtain ⟨spq, hq, hpage, -, rfl, -⟩ := fault_inv hstep
  refine leavesAlone_update hi hne fun r f i hf hlt => ?_
  have hdiv : (f * PageSize + i) / PageSize = f := by
    simp only [PageSize, SectorSize] at *
    omega
  refine AddrSpace.load_mem_outside (hi.wf q spq hq) hpage ?_ fun r' hr' => hne ?_
  · rw [hdiv]
    exact hi.marked hf
  · rw [hdiv] at hr'
    exact (hi.exclusive p q r r' f hf ⟨spq, hq, hr'⟩).1

theorem construct_leavesAlone {executable : RandomAccessFile} (hi : FrameInv vm)
    (hstep : vm.construct q executable = some vm') : LeavesAlone p vm vm' := by
  obtain ⟨sp', hnone, -, rfl⟩ := construct_inv hstep
  intro sp hsp
  have hne : p ≠ q := by
    rintro rfl
    rw [hnone] at hsp
    cases hsp
  exact leavesAlone_update hi hne (fun _ _ _ _ _ => rfl) sp hsp

theorem destroy_leavesAlone (hi : FrameInv vm) (hne : p ≠ q)
    (hstep : vm.destroy q = some vm') : LeavesAlone p vm vm' := by
  obtain ⟨spq, freeFrame, -, -, rfl⟩ := destroy_inv hstep
  exact leavesAlone_update hi hne fun _ _ _ _ _ => rfl

end Vm

/-! ## §4  Its own accesses -/

theorem translate_aligned {sp sp' : AddrSpace} {addr : BitVec 32} {size : Width}
    {writing : Bool} {pa : ℕ}
    (heq : Machine.translate sp addr size writing = .ok (pa, sp')) :
    addr.toNat % size.size = 0 := by
  unfold Machine.translate at heq
  split at heq
  · cases heq
  · rename_i halign
    simpa using halign

/-- Process `p` has an address space of `n` pages. -/
def HasPages (p n : ℕ) (vm : Vm) : Prop :=
  FrameInv vm ∧ ∃ sp, vm.spaces p = some sp ∧ sp.numPages = n

variable {vm vm' : Vm} {p n : ℕ} {addr value : BitVec 32} {size : Width}

/-- **A load of the process.** -/
theorem HasPages.readMem (h : HasPages p n vm)
    (hstep : vm.readMem p addr size = some (.ok (value, vm'))) :
    HasPages p n vm' ∧ ∀ M, Shows p vm' M →
      Shows p vm M ∧ (flatMemory n).readMem M addr size = .ok (value, M) := by
  obtain ⟨hi, sp, hsp, hn⟩ := h
  have hi' := hi.readMem hstep
  obtain ⟨sp₁, sp', hsp₁, hread, rfl⟩ := readMem_ok_inv hstep
  obtain rfl : sp₁ = sp := Option.some.inj (hsp₁.symm.trans hsp)
  have hwf := hi.wf p sp₁ hsp
  obtain ⟨f, hm, hinside, rfl, rfl⟩ := readMem_inv hwf hread
  refine ⟨⟨hi', _, Function.update_self .., hn⟩, fun M hM => ?_⟩
  have hback : Shows p vm M := by
    refine Shows.of_later hsp (Function.update_self ..)
      (AddrSpace.sameProgram_touch sp₁ _ _) ?_ ?_ hM
    · intro a _ b hb
      simpa using hb
    · intro a _ hb
      left
      simpa using hb
  refine ⟨hback, ?_⟩
  have halign : addr.toNat % size.size = 0 := by
    unfold Machine.readMem at hread
    split at hread
    · cases hread
    · rename_i htr
      exact translate_aligned htr
  have hok : ¬ (addr.toNat % size.size ≠ 0 ∨ n ≤ addr.toNat / PageSize) := by
    rintro (hne | hle)
    · exact hne halign
    · exact absurd hm.1 (by omega)
  simp only [flatMemory, if_neg hok, hback.bytes hsp hm hinside]

/-- **A store of the process.** What was there before is on the flat memory what the
process held there. -/
theorem HasPages.writeMem (h : HasPages p n vm)
    (hstep : vm.writeMem p addr size value = some (.ok vm')) :
    HasPages p n vm' ∧ ∀ M', Shows p vm' M' →
      ∃ M, Shows p vm M ∧ (flatMemory n).writeMem M addr size value = .ok M' := by
  obtain ⟨hi, sp, hsp, hn⟩ := h
  have hi' := hi.writeMem hstep
  obtain ⟨sp₁, sp', mem, hsp₁, hwrite, rfl⟩ := writeMem_ok_inv hstep
  obtain rfl : sp₁ = sp := Option.some.inj (hsp₁.symm.trans hsp)
  have hwf := hi.wf p sp₁ hsp
  have hview := fun a ha => view_writeMem (a := a) hwf (hi.owns hsp) ha hwrite
  obtain ⟨f, hm, hinside, hmem, rfl⟩ := writeMem_inv hwf hwrite
  refine ⟨⟨hi', _, Function.update_self .., hn⟩, fun M' hM' => ?_⟩
  obtain ⟨sp₂, hsp₂, hM'⟩ := hM'
  obtain rfl : sp₂ = sp₁.touch (addr.toNat / PageSize) true :=
    Option.some.inj (hsp₂.symm.trans (Function.update_self ..))
  -- the bytes stored to, as they were
  have hold : ∀ i < size.size, sp₁.view vm.phys.mainMemory (addr.toNat + i) =
      some (vm.phys.mainMemory (f * PageSize + addr.toNat % PageSize + i)) := by
    intro i hi'
    obtain ⟨hdiv, hmod⟩ := access_page hinside hi'
    rw [AddrSpace.view_of_maps (f := f) (by rw [hdiv]; exact hm), hmod, Nat.add_assoc]
  have hlen : (vm.phys.mainMemory.read (f * PageSize + addr.toNat % PageSize)
      size.size).length = size.size := ByteMem.length_read ..
  have hnew := length_take_wordBytes value size
  refine ⟨M'.write addr.toNat
    (vm.phys.mainMemory.read (f * PageSize + addr.toNat % PageSize) size.size), ⟨sp₁, hsp, ?_⟩, ?_⟩
  · intro a ha
    obtain ⟨hsome, hnone⟩ := hM' a ha
    have hview' := hview a ha
    by_cases hin : addr.toNat ≤ a ∧ a < addr.toNat + size.size
    · obtain ⟨i, rfl⟩ := Nat.exists_eq_add_of_le hin.1
      have hi' : i < size.size := by omega
      rw [hold i hi', ByteMem.write_inside _ _ _ _ (by omega), ByteMem.getD_read _ _ _ _ hi']
      constructor
      · intro b hb
        exact Option.some.inj hb
      · intro hb
        cases hb
    · rw [ByteMem.write_outside _ _ _ _ (by omega)]
      rw [if_neg hin] at hview'
      rw [← hview']
      exact ⟨hsome, hnone⟩
  · have hok : ¬ (addr.toNat % size.size ≠ 0 ∨ n ≤ addr.toNat / PageSize) := by
      have halign : addr.toNat % size.size = 0 := by
        unfold Machine.writeMem at hwrite
        split at hwrite
        · cases hwrite
        · rename_i htr
          exact translate_aligned htr
      rintro (hne | hle)
      · exact hne halign
      · exact absurd hm.1 (by omega)
    simp only [flatMemory, if_neg hok, Except.ok.injEq]
    funext x
    by_cases hin : addr.toNat ≤ x ∧ x < addr.toNat + size.size
    · obtain ⟨i, rfl⟩ := Nat.exists_eq_add_of_le hin.1
      have hi' : i < size.size := by omega
      have hx : (addr.toNat + i) / PageSize < sp₁.numPages := by
        rw [(access_page hinside hi').1]
        exact hm.1
      have hstored := hview (addr.toNat + i) hx
      rw [if_pos hin, Nat.add_sub_cancel_left] at hstored
      rw [ByteMem.write_inside _ _ _ _ (by omega), getD_take_wordBytes value hi',
        (hM' (addr.toNat + i) hx).1 _ hstored]
    · rw [ByteMem.write_outside _ _ _ _ (by omega), ByteMem.write_outside _ _ _ _ (by omega)]

/-- **The memory of a process is the flat memory that it shows.** -/
theorem backed (p n : ℕ) :
    Backed (Vm.userMemory p) (flatMemory n) (HasPages p n) (Shows p) where
  readMem h hstep := h.readMem (Vm.userMemory_readMem.mp hstep)
  writeMem h hstep := h.writeMem (Vm.userMemory_writeMem.mp hstep)

end OsAssignments.MemoryManagement
