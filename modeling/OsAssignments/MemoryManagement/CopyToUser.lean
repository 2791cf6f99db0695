import OsAssignments.MemoryManagement.Copy

/-!
# Copies to user memory

The second half of `userprog/copy.cc`. The loop around `WriteMem` raises its
`PageFaultException` with `source+i`, an address of the kernel, where the loop around
`ReadMem` passes the user address.

- `Reached` — how far a copy has come whose faults were all right; one lemma for what
  becomes of a byte that is resident, one for one that is missing.
- `copyToUser_faults_iff` — when every fault is one of the destination: exactly when the
  copy ends before any fault that would be wrong.
- `fault_at_source` — a copy into a page that is not resident.
-/

namespace OsAssignments.MemoryManagement

/-! ## §1  The code -/

/-- The `while` around `WriteMem`; `retry` is the address that it raises. -/
def send (addr value retry : BitVec 32) : ℕ → CopyM Unit
  | 0 => throw .outOfTurns
  | turns + 1 => do
      if ← writeMem addr value then pure ()
      else
        raiseException addr .PageFaultException retry
        send addr value retry turns

/-- The loop from index `i` on; `buffer` has the bytes at `source`. -/
def sendBytes (turns : ℕ) (dest source : BitVec 32) (buffer : ByteMem) : ℕ → ℕ → CopyM Unit
  | 0, _ => pure ()
  | longueur + 1, i => do
      send (dest + BitVec.ofNat 32 i) ((buffer i).signExtend 32)
        (source + BitVec.ofNat 32 i) turns
      sendBytes turns dest source buffer longueur (i + 1)

/-- `CopyToUser`, with `turns` of the inner loop for each byte. -/
def copyToUser (turns : ℕ) (dest source : BitVec 32) (buffer : ByteMem) (longueur : ℤ) :
    CopyM Unit := sendBytes turns dest source buffer longueur.toNat 0

/-! ## §2  One byte to user memory -/

/-- No page is write-protected: nothing in the program sets `readOnly`. -/
def UserMem.Writable (u : UserMem) : Prop :=
  ∀ p, (u.sp.pageTable p).readOnly = false

/-- The page of the user byte at `addr` is in a frame. -/
def UserMem.Resident (u : UserMem) (addr : BitVec 32) : Prop :=
  (u.sp.pageTable (addr.toNat / PageSize)).valid = true

/-- Memory and entry after the byte at `addr` was stored. -/
def UserMem.Stored (u : UserMem) (addr value : BitVec 32) (v : UserMem) : Prop :=
  ∃ mem, Machine.writeMem u.phys.mainMemory u.sp addr .byte value =
      .ok (mem, u.sp.touch (addr.toNat / PageSize) true) ∧
    v = ⟨⟨mem, u.phys.freeFrame⟩, u.sp.touch (addr.toNat / PageSize) true⟩

theorem readOnly_touch (sp : AddrSpace) (p q : ℕ) (w : Bool) :
    ((sp.touch p w).pageTable q).readOnly = (sp.pageTable q).readOnly := by
  by_cases h : q = p
  · subst h
    simp [AddrSpace.touch]
  · simp [AddrSpace.touch, h]

theorem readOnly_filled (mem : ByteMem) (sp : AddrSpace) (p f q : ℕ) :
    ((sp.filled mem p f).2.pageTable q).readOnly = (sp.pageTable q).readOnly := by
  by_cases h : q = p
  · subst h
    rw [AddrSpace.filled_eq]
    split <;> simp [AddrSpace.swapIn, AddrSpace.mapPage]
  · rw [AddrSpace.pageTable_filled_ne _ _ _ h]

theorem readOnly_evict (mem : ByteMem) (sp : AddrSpace) (v q : ℕ) (queue : List ℕ) :
    ((sp.evict mem v queue).pageTable q).readOnly = (sp.pageTable q).readOnly := by
  by_cases h : q = v
  · subst h
    rw [AddrSpace.pageTable_evict_self]
  · rw [AddrSpace.pageTable_evict_ne _ _ _ h]

namespace UserMem

variable {u v : UserMem} {addr value : BitVec 32}

theorem Writable.load (hw : u.Writable) (h : u.Sane) {p : ℕ} (hp : p < u.sp.numPages) :
    (u.load p).Writable := by
  intro q
  rcases AddrSpace.loaded_cases u.phys h.wf hp with
    ⟨-, heq⟩ | ⟨-, f, -, -, heq⟩ | ⟨-, -, pre, w, post, f, -, -, heq⟩ |
    ⟨-, -, heq⟩ <;> rw [UserMem.load, heq]
  · exact hw q
  · rw [readOnly_filled]
    exact hw q
  · rw [readOnly_filled, readOnly_evict]
    exact hw q
  · exact hw q

/-- The exception that `Translate` reports for a byte to be written. -/
theorem writeMem_byte (h : u.Sane) (hw : u.Writable)
    (hp : addr.toNat / PageSize < u.sp.numPages) (value : BitVec 32) :
    (¬ u.Resident addr ∧ Machine.writeMem u.phys.mainMemory u.sp addr .byte value =
      .error .PageFaultException) ∨ u.Resident addr ∧ ∃ v, u.Stored addr value v := by
  have halign : ¬ addr.toNat % Width.byte.size ≠ 0 := by simp [Width.size, Nat.mod_one]
  cases hv : (u.sp.pageTable (addr.toNat / PageSize)).valid with
  | false =>
      refine Or.inl ⟨by simp [Resident, hv], ?_⟩
      simp [Machine.writeMem, Machine.translate, halign, Nat.not_le.mpr hp, hv]
  | true =>
      have hframe : ¬ (BitVec.ofInt 32
          (u.sp.pageTable (addr.toNat / PageSize)).physicalPage).toNat ≥ NumPhysPages := by
        rw [h.wf.toNat_physicalPage hp hv]
        exact Nat.not_le.mpr (h.wf.maps_of_valid hp hv).2
      obtain ⟨mem, hwrite⟩ : ∃ mem, Machine.writeMem u.phys.mainMemory u.sp addr .byte value =
          .ok (mem, u.sp.touch (addr.toNat / PageSize) true) := by
        simp only [Machine.writeMem, Machine.translate, halign, if_false, hframe,
          Nat.not_le.mpr hp, hv, not_true, hw _, Bool.false_and, Bool.false_eq_true]
        exact ⟨_, rfl⟩
      exact Or.inr ⟨hv, _, mem, hwrite, rfl⟩

variable (hs : u.Stored addr value v)
include hs

theorem Stored.served (W : Set ℕ) (hW : addr.toNat ∈ W) : Served W u v := by
  obtain ⟨mem, hwrite, rfl⟩ := hs
  refine Served.refl.write addr value .byte (fun i hi => ?_) hwrite
  obtain rfl : i = 0 := by
    simp only [Width.size] at hi
    omega
  exact hW

theorem Stored.writable (hw : u.Writable) : v.Writable := by
  obtain ⟨mem, -, rfl⟩ := hs
  intro q
  rw [readOnly_touch]
  exact hw q

theorem Stored.resident_iff (a : BitVec 32) : v.Resident a ↔ u.Resident a := by
  obtain ⟨mem, -, rfl⟩ := hs
  simp [Resident]

theorem Stored.noFrame_iff : v.NoFrame ↔ u.NoFrame := by
  obtain ⟨mem, -, rfl⟩ := hs
  simp [NoFrame, AddrSpace.NoFrame]

theorem Stored.view (h : u.Sane) (hp : addr.toNat / PageSize < u.sp.numPages) :
    v.view addr.toNat = some (regByte value 0) := by
  obtain ⟨mem, hwrite, rfl⟩ := hs
  rw [view_mk, view_writeMem h.wf h.owns hp hwrite, if_pos ⟨le_rfl, by simp [Width.size]⟩,
    Nat.sub_self]

end UserMem

theorem writable_new {executable : RandomAccessFile} (pm : PhysMemory) {sp : AddrSpace}
    (h : AddrSpace.new executable = some sp) : UserMem.Writable ⟨pm, sp⟩ := by
  simp only [AddrSpace.new] at h
  split at h
  · cases h
    exact fun p => rfl
  · cases h

/-- In every run, no page of a process is write-protected. -/
theorem writable_of_run (as : List VmAct) (vm : Vm)
    (hrun : PartialMachine.run Vm.step Vm.init as = some vm) (id : ℕ) (sp : AddrSpace)
    (hsp : vm.spaces id = some sp) : UserMem.Writable ⟨vm.phys, sp⟩ := by
  have hinv : FrameInv vm ∧ ∀ id sp, vm.spaces id = some sp →
      ∀ p, (sp.pageTable p).readOnly = false := by
    refine PartialMachine.run_invariant
      (I := fun vm => FrameInv vm ∧ ∀ id sp, vm.spaces id = some sp →
        ∀ p, (sp.pageTable p).readOnly = false)
      ⟨frameInv_init, fun id sp h => by simp [Vm.init] at h⟩ ?_ as vm hrun
    rintro vm a vm' ⟨hframe, hw⟩ hstep
    refine ⟨hframe.step hstep, fun id sp' hsp' p => ?_⟩
    rcases hframe.step_space hstep hsp' with
      hold | ⟨-, executable, hnew⟩ | ⟨sp, hsp, ⟨page, hp, -, rfl⟩ | ⟨q, w, rfl⟩⟩
    · exact hw id sp' hold p
    · exact writable_new vm.phys hnew p
    · exact UserMem.Writable.load (u := ⟨vm.phys, sp⟩) (hw id sp hsp) (hframe.sane hsp) hp p
    · rw [readOnly_touch]
      exact hw id sp hsp p
  exact hinv.2 id sp hsp

/-! ## §3  Faults -/

/-- What the constructor and the exception handler leave: the addresses have 32 bits, and
those of the resident pages are `int`s, as the page numbers of the faults are. -/
structure UserMem.Addressed (u : UserMem) : Prop where
  space : u.sp.numPages * PageSize ≤ 0x100000000
  resident : ∀ p < u.sp.numPages, (u.sp.pageTable p).valid = true → p * PageSize < 0x80000000

/-- A fault at `addr` ends the copy: no frame can be had, or its page cannot be read. -/
def UserMem.Blocks (u : UserMem) (addr : BitVec 32) : Prop :=
  ∃ page, Kernel.pageNumber addr = some page ∧
    (u.NoFrame ∨ u.Unreadable (page * PageSize))

theorem UserMem.unreadable_iff {u : UserMem} {a : ℕ} : u.Unreadable a ↔
    (u.sp.pageTable (a / PageSize)).valid = false ∧ u.sp.Unreadable (a / PageSize) := by
  rw [UserMem.Unreadable, UserMem.view, AddrSpace.view_eq_none_iff, and_assoc]
  exact Iff.rfl

theorem UserMem.unreadable_page {u : UserMem} {page : ℕ} : u.Unreadable (page * PageSize) ↔
    (u.sp.pageTable page).valid = false ∧ u.sp.Unreadable page := by
  rw [UserMem.unreadable_iff, Nat.mul_div_cancel page (by decide)]

/-- The page of a fault at a byte of the address space is one of it. -/
theorem page_lt {addr : BitVec 32} {page n : ℕ} (hp : addr.toNat / PageSize < n)
    (hpage : Kernel.pageNumber addr = some page) : page < n := by
  by_cases hneg : addr.toInt < 0
  · rw [pageNumber_of_neg hneg hpage]
    exact Nat.lt_of_le_of_lt (Nat.zero_le _) hp
  · rw [pageNumber_of_nonneg (Int.not_lt.mp hneg)] at hpage
    cases hpage
    exact hp

namespace UserMem.Addressed

variable {u v : UserMem} {addr : BitVec 32}

/-- No page with negative addresses is resident. -/
theorem missing (ha : u.Addressed) (hp : addr.toNat / PageSize < u.sp.numPages)
    (hneg : addr.toInt < 0) : ¬ u.Resident addr := by
  intro hres
  have hint := ha.resident _ hp hres
  rw [BitVec.toInt_eq_toNat_cond] at hneg
  simp only [PageSize, SectorSize] at hint
  split at hneg <;> omega

theorem load (ha : u.Addressed) (h : u.Sane) {page : ℕ} (hp : page < u.sp.numPages)
    (hint : page * PageSize < 0x80000000) : (u.load page).Addressed := by
  have hn := h.numPages_load hp
  refine ⟨hn.symm ▸ ha.space, fun q hq hv => ?_⟩
  rw [hn] at hq
  rcases AddrSpace.load_frames h.wf h.owns hp with ⟨f, -, -, -, hmaps, -, -⟩ | ⟨-, heq⟩
  · obtain ⟨hm, -⟩ := (h.load hp).wf.maps_of_valid (hn.symm ▸ hq) hv
    rcases (hmaps q _).mp hm with ⟨rfl, -⟩ | ⟨-, -, hold⟩
    · exact hint
    · exact ha.resident q hq hold.2.1
  · rw [UserMem.load, heq] at hv
    exact ha.resident q hq hv

theorem stored {value : BitVec 32} (ha : u.Addressed) (hs : u.Stored addr value v) :
    v.Addressed := by
  obtain ⟨mem, -, rfl⟩ := hs
  refine ⟨ha.space, fun q hq hv => ha.resident q hq ?_⟩
  simpa using hv

end UserMem.Addressed

theorem addressed_new {executable : RandomAccessFile} (pm : PhysMemory) {sp : AddrSpace}
    (h : AddrSpace.new executable = some sp) : UserMem.Addressed ⟨pm, sp⟩ where
  space := by
    have hpages : sp.numPages = (readHeader executable).numPages := by
      simp only [AddrSpace.new] at h
      split at h
      · cases h
        rfl
      · cases h
    have hle : (readHeader executable).numPages ≤ 0x2000000 := by
      apply divRoundUp_le
      simp only [PageSize, SectorSize]
      omega
    change sp.numPages * PageSize ≤ 0x100000000
    rw [hpages]
    simp only [PageSize, SectorSize]
    omega
  resident p _ hv := by
    rw [(AddrSpace.new_wf h).2 p] at hv
    cases hv

/-- In every run whose faults come from the exception handler, as those of the kernel do
(`Kernel.run_vm`), the processes are so. -/
theorem addressed_of_run (as : List VmAct) (vm : Vm)
    (hmeet : PartialMachine.StepsMeet Vm.step (fun _ a => Kernel.FromHandler a) Vm.init as)
    (hrun : PartialMachine.run Vm.step Vm.init as = some vm) (id : ℕ) (sp : AddrSpace)
    (hsp : vm.spaces id = some sp) : UserMem.Addressed ⟨vm.phys, sp⟩ := by
  have hinv : FrameInv vm ∧ ∀ id sp, vm.spaces id = some sp → ∀ pm, UserMem.Addressed ⟨pm, sp⟩ := by
    refine PartialMachine.run_invariant_of_stepsMeet
      (I := fun vm => FrameInv vm ∧ ∀ id sp, vm.spaces id = some sp →
        ∀ pm, UserMem.Addressed ⟨pm, sp⟩)
      ⟨frameInv_init, fun id sp h => by simp [Vm.init] at h⟩ ?_ as vm hmeet hrun
    rintro vm a vm' ⟨hframe, ha⟩ hfrom hstep
    refine ⟨hframe.step hstep, fun id sp' hsp' pm => ?_⟩
    rcases hframe.step_space hstep hsp' with
      hold | ⟨-, executable, hnew⟩ | ⟨sp, hsp, ⟨page, hp, rfl, rfl⟩ | ⟨q, w, rfl⟩⟩
    · exact ha id sp' hold pm
    · exact addressed_new pm hnew
    · obtain ⟨badVaddr, hpage⟩ := hfrom id page rfl
      have hload := (ha id sp hsp vm.phys).load (hframe.sane hsp) hp (pageNumber_lt hpage)
      exact ⟨hload.space, hload.resident⟩
    · obtain ⟨hspace, hres⟩ := ha id sp hsp pm
      refine ⟨hspace, fun p hp hv => hres p hp ?_⟩
      simpa using hv
  exact hinv.2 id sp hsp vm.phys

section Send

variable {s : CopyState} {addr : BitVec 32} (value retry : BitVec 32)

theorem send_resident {v : UserMem} (hv : s.user.Stored addr value v) (turns : ℕ) :
    send addr value retry (turns + 1) s = .ok () { s with user := v } := by
  obtain ⟨mem, hwrite, rfl⟩ := hv
  refine (EStateM.bind_of_ok (a := true) ?_).trans rfl
  simp only [writeMem, hwrite]

/-- `WriteMem` raises the fault with its own address, the loop with another. -/
theorem send_missing (h : s.user.Sane) (hw : s.user.Writable)
    (hp : addr.toNat / PageSize < s.user.sp.numPages) (hv : ¬ s.user.Resident addr)
    (turns : ℕ) : send addr value retry (turns + 1) s = (do
      raiseException addr .PageFaultException addr
      raiseException addr .PageFaultException retry
      send addr value retry turns : CopyM Unit) s := by
  rcases UserMem.writeMem_byte h hw hp value with ⟨-, hwrite⟩ | ⟨hres, -⟩
  swap
  · exact absurd hres hv
  have heq : writeMem addr value s =
      (do raiseException addr .PageFaultException addr; pure false : CopyM _) s := by
    simp only [writeMem, hwrite]
  cases hraise : raiseException addr .PageFaultException addr s with
  | ok _ t =>
      rw [EStateM.bind_of_ok hraise]
      refine EStateM.bind_of_ok (a := false) ?_
      rw [heq, EStateM.bind_of_ok hraise]
      rfl
  | error e t =>
      rw [EStateM.bind_of_error hraise]
      refine EStateM.bind_of_error ?_
      rw [heq, EStateM.bind_of_error hraise]

/-- The fault carries the address of the user byte, and its page is in the table. -/
def Fault.Right (fault : Fault) (numPages : ℕ) : Prop :=
  fault.badVaddr = fault.vaddr ∧
    ∃ page, Kernel.pageNumber fault.badVaddr = some page ∧ page < numPages

/-- **A missing byte outside the page table**: the first fault has no page. -/
theorem send_outside (h : s.user.Sane) (hw : s.user.Writable)
    (hp : addr.toNat / PageSize < s.user.sp.numPages) (hv : ¬ s.user.Resident addr)
    (hpage : Kernel.pageNumber addr = none) (turns : ℕ) :
    send addr value retry (turns + 1) s =
      .error .undefined { s with faults := s.faults ++ [⟨addr, addr⟩] } := by
  rw [send_missing value retry h hw hp hv]
  exact EStateM.bind_of_error (raise_outside addr hpage)

/-- **A missing byte whose fault is not resolved**: the copy ends. -/
theorem send_blocked {page : ℕ} (h : s.user.Sane) (hw : s.user.Writable)
    (hp : addr.toNat / PageSize < s.user.sp.numPages) (hv : ¬ s.user.Resident addr)
    (hpage : Kernel.pageNumber addr = some page)
    (hblock : s.user.NoFrame ∨ s.user.Unreadable (page * PageSize)) (turns : ℕ) :
    ∃ e r, send addr value retry (turns + 1) s = .error e r ∧
      r.faults = s.faults ++ [⟨addr, addr⟩] ∧
      (e = .finished ∨ e = .undefined ∧ s.user.Unreadable (page * PageSize)) := by
  have hpn := page_lt hp hpage
  rw [send_missing value retry h hw hp hv]
  by_cases hframe : s.user.NoFrame
  · exact ⟨.finished, _, EStateM.bind_of_error (raise_noFrame h addr hpage hpn hframe), rfl,
      Or.inl rfl⟩
  · have hun := hblock.resolve_left hframe
    obtain ⟨hinv, hread⟩ := UserMem.unreadable_page.mp hun
    have hstop := (AddrSpace.loadFromExecutable_eq_none_iff h.wf hpn).mpr ⟨hinv, hframe, hread⟩
    exact ⟨.undefined, _, EStateM.bind_of_error (raise_stops addr hpage hpn hstop), rfl,
      Or.inr ⟨rfl, hun⟩⟩

/-- The fault that is resolved. -/
theorem loaded_of_not_blocks {u : UserMem} {page : ℕ} (h : u.Sane) (hp : page < u.sp.numPages)
    (hpage : Kernel.pageNumber addr = some page) (hblock : ¬ u.Blocks addr) :
    (u.sp.loaded u.phys page).1 = true := by
  rcases h.load_cases hp with hload | hnone | ⟨-, hinv, hswap, hseek⟩
  · exact hload
  · exact absurd ⟨page, hpage, Or.inl hnone⟩ hblock
  · exact absurd ⟨page, hpage, Or.inr (UserMem.unreadable_page.mpr ⟨hinv, hswap, hseek⟩)⟩ hblock

/-- When both faults carry the right address, the page is loaded twice. -/
theorem send_twice {page : ℕ} (h : s.user.Sane) (hw : s.user.Writable)
    (hp : addr.toNat / PageSize < s.user.sp.numPages) (hv : ¬ s.user.Resident addr)
    (hpage : Kernel.pageNumber addr = some page)
    (hload : (s.user.sp.loaded s.user.phys page).1 = true) (turns : ℕ) :
    send addr value addr (turns + 1) s =
      send addr value addr turns ((s.handled ⟨addr, addr⟩ page).handled ⟨addr, addr⟩ page) := by
  rw [send_missing value addr h hw hp hv]
  exact raise_twice h hpage (page_lt hp hpage) hload _

/-- **The last bytes of the 32-bit addresses** have page number 0, so that their own page is
never loaded: the loop goes on until it is stopped. -/
theorem send_tail {page : ℕ} (hneg : addr.toInt < 0)
    (hpage : Kernel.pageNumber addr = some page) (turns : ℕ) :
    ∀ s : CopyState, s.user.Sane → s.user.Writable → s.user.Addressed →
      addr.toNat / PageSize < s.user.sp.numPages →
      ∃ e r, send addr value addr turns s = .error e r ∧
        ∀ fault ∈ r.faults, fault ∈ s.faults ∨ fault = ⟨addr, addr⟩ := by
  induction turns with
  | zero => exact fun s _ _ _ _ => ⟨.outOfTurns, s, rfl, fun fault hfault => Or.inl hfault⟩
  | succ turns ih =>
      intro s h hw ha hp
      have hv := ha.missing hp hneg
      have hpn := page_lt hp hpage
      by_cases hblock : s.user.Blocks addr
      · obtain ⟨page', hpage', hblock⟩ := hblock
        obtain ⟨e, r, herr, hfaults, -⟩ := send_blocked value addr h hw hp hv hpage' hblock turns
        refine ⟨e, r, herr, fun fault hfault => ?_⟩
        rw [hfaults] at hfault
        simpa using hfault
      · have hload := loaded_of_not_blocks h hpn hpage hblock
        have hn := h.numPages_load hpn
        have hsane := h.load hpn
        have hpn' : page < (s.user.load page).sp.numPages := hn.symm ▸ hpn
        have ha' := (ha.load h hpn (pageNumber_lt hpage)).load hsane hpn' (pageNumber_lt hpage)
        have hn' := (hsane.numPages_load hpn').trans hn
        obtain ⟨e, r, herr, hfaults⟩ := ih ((s.handled ⟨addr, addr⟩ page).handled ⟨addr, addr⟩ page)
          (hsane.load hpn') ((hw.load h hpn).load hsane hpn') ha' (hn'.symm ▸ hp)
        refine ⟨e, r, ?_, fun fault hfault => ?_⟩
        · rw [send_twice value h hw hp hv hpage hload]
          exact herr
        · rcases hfaults fault hfault with hold | hnew
          · simpa [CopyState.handled, or_assoc] using hold
          · exact Or.inr hnew

end Send

/-! ## §4  The loop -/

/-- The addresses of the destination. -/
def destRange (dest : BitVec 32) (n : ℕ) : Set ℕ := {a | dest.toNat ≤ a ∧ a < dest.toNat + n}

/-- The first `i` of `n` bytes are stored, and no fault was wrong. -/
structure Sent (u : UserMem) (dest : BitVec 32) (buffer : ByteMem) (n i : ℕ)
    (t : CopyState) : Prop where
  served : Served (destRange dest n) u t.user
  writable : t.user.Writable
  bytes : ∀ j < i, t.user.view (dest.toNat + j) = some (buffer j)
  faults : ∀ fault ∈ t.faults, fault.Right u.sp.numPages

/-- The same on the way of a copy: with two different addresses no page was loaded, and no
byte before was one at which the copy ends. -/
structure Reached (u : UserMem) (dest source : BitVec 32) (buffer : ByteMem) (n i : ℕ)
    (t : CopyState) : Prop extends Sent u dest buffer n i t where
  addressed : t.user.Addressed
  same : source ≠ dest → ∀ a, t.user.Resident a ↔ u.Resident a
  passed : ∀ j < i, ¬ u.Resident (dest + BitVec.ofNat 32 j) →
    ¬ u.Blocks (dest + BitVec.ofNat 32 j)

theorem regByte_signExtend (b : Byte) : regByte (b.signExtend 32) 0 = b :=
  @regByte_loadValue .byte [b] 0 (by decide)

section Loop

variable {u w v : UserMem} {dest source : BitVec 32} {buffer : ByteMem} {n i turns : ℕ}
  {t : CopyState} {faults : List Fault}

/-- The byte at index `i`. -/
theorem UserMem.Addressed.at (ha : u.Addressed) (hle : dest.toNat + n ≤ u.sp.numPages * PageSize)
    (hi : i < n) : (dest + BitVec.ofNat 32 i).toNat = dest.toNat + i ∧
      (dest + BitVec.ofNat 32 i).toNat / PageSize < u.sp.numPages := by
  have hspace := ha.space
  have hadd : (dest + BitVec.ofNat 32 i).toNat = dest.toNat + i := by
    rw [BitVec.toNat_add, BitVec.toNat_ofNat]
    omega
  refine ⟨hadd, ?_⟩
  rw [hadd]
  exact Nat.div_lt_of_lt_mul (by rw [Nat.mul_comm]; omega)

/-- **The byte is stored**, after its page was loaded, or with no load. -/
theorem Sent.store (hs : Sent u dest buffer n i t) (h : u.Sane)
    (hle : dest.toNat + n ≤ u.sp.numPages * PageSize)
    (hadd : (dest + BitVec.ofNat 32 i).toNat = dest.toNat + i) (hi : i < n)
    (hserved : Served ∅ t.user w) (hw : w.Writable)
    (hstored : w.Stored (dest + BitVec.ofNat 32 i) ((buffer i).signExtend 32) v)
    (hfaults : ∀ fault ∈ faults, fault.Right u.sp.numPages) :
    Sent u dest buffer n (i + 1) { t with user := v, faults := faults } := by
  obtain ⟨hsane, hn⟩ := hs.served.sane h
  obtain ⟨hsanew, hnw⟩ := hserved.sane hsane
  have hpage {j : ℕ} (hj : j < n) : (dest.toNat + j) / PageSize < t.user.sp.numPages := by
    rw [hn]
    exact Nat.div_lt_of_lt_mul (by rw [Nat.mul_comm]; omega)
  have hother : Served {(dest + BitVec.ofNat 32 i).toNat} w v := hstored.served _ rfl
  refine ⟨?_, hstored.writable hw, fun j hj => ?_, hfaults⟩
  · refine (hs.served.trans (hserved.mono (Set.empty_subset _))).trans (hstored.served _ ?_)
    rw [hadd]
    exact ⟨Nat.le_add_right _ _, by omega⟩
  · rcases Nat.lt_succ_iff_lt_or_eq.mp hj with hlt | rfl
    · refine hother.view_eq hsanew (hnw.symm ▸ hpage (hlt.trans hi)) ?_
        (hserved.view_eq hsane (hpage (hlt.trans hi)) (Set.notMem_empty _) (hs.bytes j hlt))
      rw [Set.mem_singleton_iff, hadd]
      omega
    · rw [← hadd, ← regByte_signExtend (buffer j)]
      exact hstored.view hsanew (by rw [hnw, hadd]; exact hpage hi)

/-- A byte at which the copy ends is still one. -/
theorem Reached.blocks (hr : Reached u dest source buffer n i t) (h : u.Sane)
    (hframe : ¬ u.NoFrame) {addr : BitVec 32} (hp : addr.toNat / PageSize < u.sp.numPages)
    (hblock : u.Blocks addr) : ¬ t.user.Resident addr ∧ t.user.Blocks addr := by
  obtain ⟨page, hpage, hblock⟩ := hblock
  have hun := (hblock.resolve_left hframe).served hr.served h
  refine ⟨?_, page, hpage, Or.inr hun⟩
  by_cases hneg : addr.toInt < 0
  · exact hr.addressed.missing ((hr.served.sane h).2.symm ▸ hp) hneg
  · rw [pageNumber_of_nonneg (Int.not_lt.mp hneg)] at hpage
    cases hpage
    rw [UserMem.Resident, (UserMem.unreadable_page.mp hun).1]
    exact Bool.false_ne_true

/-- One at which it ends now was one at the start. -/
theorem Reached.of_blocks (hr : Reached u dest source buffer n i t) (h : u.Sane)
    (ha : u.Addressed) (hframe : ¬ t.user.NoFrame) {addr : BitVec 32}
    (hp : addr.toNat / PageSize < u.sp.numPages) (hblock : t.user.Blocks addr) :
    ¬ u.Resident addr ∧ u.Blocks addr := by
  obtain ⟨page, hpage, hblock⟩ := hblock
  have hpn := page_lt hp hpage
  have hun := (hblock.resolve_left hframe).of_served hr.served h
    (by rwa [Nat.mul_div_cancel _ (by decide)])
  refine ⟨?_, page, hpage, Or.inr hun⟩
  by_cases hneg : addr.toInt < 0
  · exact ha.missing hp hneg
  · rw [pageNumber_of_nonneg (Int.not_lt.mp hneg)] at hpage
    cases hpage
    rw [UserMem.Resident, (UserMem.unreadable_page.mp hun).1]
    exact Bool.false_ne_true

/-- **A resident byte** is stored. -/
theorem Reached.next_resident (hr : Reached u dest source buffer n i t) (h : u.Sane)
    (ha : u.Addressed) (hframe : ¬ u.NoFrame)
    (hle : dest.toNat + n ≤ u.sp.numPages * PageSize) (hi : i < n)
    (hv : t.user.Resident (dest + BitVec.ofNat 32 i)) (turns : ℕ) :
    ∃ v, t.user.Stored (dest + BitVec.ofNat 32 i) ((buffer i).signExtend 32) v ∧
      send (dest + BitVec.ofNat 32 i) ((buffer i).signExtend 32) (source + BitVec.ofNat 32 i)
        (turns + 1) t = .ok () { t with user := v } ∧
      Reached u dest source buffer n (i + 1) { t with user := v } := by
  obtain ⟨hsane, hn⟩ := hr.served.sane h
  obtain ⟨hadd, hp⟩ := ha.at hle hi
  rcases UserMem.writeMem_byte hsane hr.writable (hn.symm ▸ hp) ((buffer i).signExtend 32) with
    ⟨hmiss, -⟩ | ⟨-, v, hstored⟩
  · exact absurd hv hmiss
  refine ⟨v, hstored, send_resident _ _ hstored turns,
    hr.toSent.store h hle hadd hi .refl hr.writable hstored hr.faults,
    hr.addressed.stored hstored, fun hne a => ?_, fun j hj hmiss hblock => ?_⟩
  · exact (hstored.resident_iff a).trans (hr.same hne a)
  · rcases Nat.lt_succ_iff_lt_or_eq.mp hj with hlt | rfl
    · exact hr.passed j hlt hmiss hblock
    · exact (hr.blocks h hframe hp hblock).1 hv

/-- **A missing byte at an `int`**, with one address for both: it is stored at the second
turn. -/
theorem Reached.next_missing (hr : Reached u dest dest buffer n i t) (h : u.Sane)
    (ha : u.Addressed) (hframe : ¬ u.NoFrame)
    (hle : dest.toNat + n ≤ u.sp.numPages * PageSize) (hi : i < n)
    (hint : 0 ≤ (dest + BitVec.ofNat 32 i).toInt)
    (hv : ¬ t.user.Resident (dest + BitVec.ofNat 32 i))
    (hblock : ¬ t.user.Blocks (dest + BitVec.ofNat 32 i)) :
    (∃ r, send (dest + BitVec.ofNat 32 i) ((buffer i).signExtend 32)
        (dest + BitVec.ofNat 32 i) 1 t = .error .outOfTurns r ∧
      ∀ fault ∈ r.faults, fault.Right u.sp.numPages) ∧
    ∃ r, (∀ turns, send (dest + BitVec.ofNat 32 i) ((buffer i).signExtend 32)
        (dest + BitVec.ofNat 32 i) (turns + 2) t = .ok () r) ∧
      Reached u dest dest buffer n (i + 1) r ∧ ¬ r.user.NoFrame := by
  obtain ⟨hsane, hn⟩ := hr.served.sane h
  obtain ⟨hadd, hp⟩ := ha.at hle hi
  have hpt := hn.symm ▸ hp
  have hpage := pageNumber_of_nonneg hint
  have hload := loaded_of_not_blocks hsane hpt hpage hblock
  have hserved := hsane.served_twice hpt hload
  obtain ⟨hsane', hn'⟩ := hserved.sane hsane
  have hpt' : (dest + BitVec.ofNat 32 i).toNat / PageSize <
      (t.user.load ((dest + BitVec.ofNat 32 i).toNat / PageSize)).sp.numPages :=
    (hsane.numPages_load hpt).symm ▸ hpt
  have hwload := (hr.writable.load hsane hpt).load (hsane.load hpt) hpt'
  have haload := (hr.addressed.load hsane hpt (pageNumber_lt hpage)).load (hsane.load hpt) hpt'
    (pageNumber_lt hpage)
  have hvalid := (hsane.load_twice hpt hload).2
  have hright : (⟨dest + BitVec.ofNat 32 i, dest + BitVec.ofNat 32 i⟩ : Fault).Right
      u.sp.numPages := ⟨rfl, _, hpage, hp⟩
  have hfaults : ∀ fault ∈ ((t.handled ⟨dest + BitVec.ofNat 32 i, dest + BitVec.ofNat 32 i⟩
      ((dest + BitVec.ofNat 32 i).toNat / PageSize)).handled
        ⟨dest + BitVec.ofNat 32 i, dest + BitVec.ofNat 32 i⟩
        ((dest + BitVec.ofNat 32 i).toNat / PageSize)).faults, fault.Right u.sp.numPages := by
    intro fault hfault
    simp only [CopyState.handled, List.append_assoc, List.mem_append, List.mem_singleton] at hfault
    rcases hfault with hold | rfl | rfl
    · exact hr.faults fault hold
    · exact hright
    · exact hright
  rcases UserMem.writeMem_byte hsane' hwload (hn'.symm ▸ hpt) ((buffer i).signExtend 32) with
    ⟨hmiss, -⟩ | ⟨-, v, hstored⟩
  · exact absurd hvalid hmiss
  refine ⟨⟨_, send_twice _ hsane hr.writable hpt hv hpage hload 0, hfaults⟩, _, fun turns => ?_,
    ⟨hr.toSent.store h hle hadd hi hserved hwload hstored hfaults, haload.stored hstored,
      fun hne => absurd rfl hne, fun j hj hmiss hb => ?_⟩, ?_⟩
  · rw [send_twice _ hsane hr.writable hpt hv hpage hload]
    exact send_resident _ _ hstored turns
  · rcases Nat.lt_succ_iff_lt_or_eq.mp hj with hlt | rfl
    · exact hr.passed j hlt hmiss hb
    · exact hblock (hr.blocks h hframe hp hb).2
  · intro hnone
    have hinv := (hstored.noFrame_iff.mp hnone).2 _ (hn'.symm ▸ hpt)
    rw [hvalid] at hinv
    cases hinv

end Loop

/-! ## §5  A wrong fault -/

/-- The log only grows. -/
def Logging {α : Type} (x : CopyM α) : Prop := ∀ s, s.faults <+: (x.after s).faults

theorem Logging.bind {α β : Type} {x : CopyM α} {f : α → CopyM β} (hx : Logging x)
    (hf : ∀ a, Logging (f a)) : Logging (x >>= f) :=
  CopyM.after_bind (R := fun s t => s.faults <+: t.faults) List.IsPrefix.trans hx hf

theorem logging_raise (vaddr badVaddr : BitVec 32) (which : ExceptionType) :
    Logging (raiseException vaddr which badVaddr) := by
  intro s
  cases which with
  | PageFaultException =>
      obtain ⟨u, -, hafter⟩ := raise_after vaddr badVaddr s
      rw [hafter]
      exact List.prefix_append _ _
  | _ => exact List.prefix_rfl

theorem logging_writeMem (addr value : BitVec 32) : Logging (writeMem addr value) := by
  intro s
  cases hwrite : Machine.writeMem s.user.phys.mainMemory s.user.sp addr .byte value with
  | ok r =>
      rw [CopyM.after, writeMem, hwrite]
  | error which =>
      have hraise : (writeMem addr value).after s =
          (do raiseException addr which addr; pure false : CopyM Bool).after s := by
        rw [CopyM.after, writeMem, hwrite]
        rfl
      rw [hraise]
      exact (logging_raise addr addr which).bind (fun _ _ => List.prefix_rfl) s

theorem logging_send (addr value retry : BitVec 32) (turns : ℕ) :
    Logging (send addr value retry turns) := by
  induction turns with
  | zero => exact fun _ => List.prefix_rfl
  | succ turns ih =>
      refine (logging_writeMem addr value).bind fun ok => ?_
      cases ok with
      | true => exact fun _ => List.prefix_rfl
      | false => exact (logging_raise _ _ _).bind fun _ => ih

theorem logging_sendBytes (turns : ℕ) (dest source : BitVec 32) (buffer : ByteMem) :
    ∀ longueur i, Logging (sendBytes turns dest source buffer longueur i) := by
  intro longueur
  induction longueur with
  | zero => exact fun _ _ => List.prefix_rfl
  | succ longueur ih => exact fun i => (logging_send _ _ _ _).bind fun _ => ih (i + 1)

/-- What one byte logs, the loop logs. -/
theorem sendBytes_logs {dest source : BitVec 32} {buffer : ByteMem} {turns longueur i : ℕ}
    {t : CopyState} {fault : Fault}
    (h : fault ∈ ((send (dest + BitVec.ofNat 32 i) ((buffer i).signExtend 32)
      (source + BitVec.ofNat 32 i) turns).after t).faults) :
    fault ∈ ((sendBytes turns dest source buffer (longueur + 1) i).after t).faults := by
  cases hsend : send (dest + BitVec.ofNat 32 i) ((buffer i).signExtend 32)
      (source + BitVec.ofNat 32 i) turns t with
  | ok _ r =>
      rw [CopyM.after_of_ok hsend] at h
      have hround : (sendBytes turns dest source buffer (longueur + 1) i).after t =
          (sendBytes turns dest source buffer longueur (i + 1)).after r :=
        CopyM.after_bind_of_ok hsend
      rw [hround]
      exact (logging_sendBytes _ _ _ _ _ _ r).subset h
  | error e r =>
      rw [CopyM.after, hsend] at h
      have hround : sendBytes turns dest source buffer (longueur + 1) i t = .error e r :=
        EStateM.bind_of_error hsend
      rw [CopyM.after, hround]
      exact h

/-- The retry after a fault that is resolved logs its own address. -/
theorem send_wrong {s : CopyState} {addr : BitVec 32} {page : ℕ} (value retry : BitVec 32)
    (h : s.user.Sane) (hw : s.user.Writable)
    (hp : addr.toNat / PageSize < s.user.sp.numPages) (hv : ¬ s.user.Resident addr)
    (hpage : Kernel.pageNumber addr = some page)
    (hload : (s.user.sp.loaded s.user.phys page).1 = true) (turns : ℕ) :
    ⟨addr, retry⟩ ∈ ((send addr value retry (turns + 1)).after s).faults := by
  have hfirst : raiseException addr .PageFaultException addr s =
      .ok () (s.handled ⟨addr, addr⟩ page) := raise_loaded addr hpage (page_lt hp hpage) hload
  rw [CopyM.after, send_missing value retry h hw hp hv, ← CopyM.after,
    CopyM.after_bind_of_ok hfirst]
  obtain ⟨u, -, hlogged⟩ := raise_after addr retry (s.handled ⟨addr, addr⟩ page)
  cases hsecond : raiseException addr .PageFaultException retry
      (s.handled ⟨addr, addr⟩ page) with
  | ok _ r =>
      rw [CopyM.after_of_ok hsecond] at hlogged
      rw [CopyM.after_bind_of_ok hsecond]
      refine (logging_send addr value retry turns r).subset ?_
      rw [hlogged]
      exact List.mem_append_right _ List.mem_cons_self
  | error e r =>
      rw [CopyM.after, hsecond] at hlogged
      rw [CopyM.after, EStateM.bind_of_error hsecond, hlogged]
      exact List.mem_append_right _ List.mem_cons_self

section Wrong

variable {u : UserMem} {dest source : BitVec 32} {n i : ℕ}

/-- A fault at the byte would be wrong: the retry has another address, or the number of the
page is not in the page table. -/
def WrongAt (dest source : BitVec 32) (i : ℕ) : Prop :=
  source ≠ dest ∨ Kernel.pageNumber (dest + BitVec.ofNat 32 i) = none

theorem neg_of_pageNumber_eq_none {addr : BitVec 32} (h : Kernel.pageNumber addr = none) :
    addr.toInt < 0 := by
  by_contra hneg
  rw [pageNumber_of_nonneg (Int.not_lt.mp hneg)] at h
  cases h

/-- **The next byte is missing, and its fault is wrong**: the first fault when its page is none
of the table, the retry when the page is. -/
theorem sendBytes_wrong_next (buffer : ByteMem) {t : CopyState} {longueur k : ℕ}
    (h : t.user.Sane)
    (hw : t.user.Writable)
    (hp : (dest + BitVec.ofNat 32 k).toNat / PageSize < t.user.sp.numPages)
    (hv : ¬ t.user.Resident (dest + BitVec.ofNat 32 k)) (hwrong : WrongAt dest source k)
    (hblock : ¬ t.user.Blocks (dest + BitVec.ofNat 32 k)) (numPages : ℕ) :
    ∃ fault ∈ ((sendBytes 2 dest source buffer (longueur + 1) k).after t).faults,
      ¬ fault.Right numPages := by
  cases hpage : Kernel.pageNumber (dest + BitVec.ofNat 32 k) with
  | none =>
      have hsend := send_outside ((buffer k).signExtend 32) (source + BitVec.ofNat 32 k)
        h hw hp hv hpage 1
      refine ⟨⟨dest + BitVec.ofNat 32 k, dest + BitVec.ofNat 32 k⟩, sendBytes_logs ?_, ?_⟩
      · rw [CopyM.after, hsend]
        exact List.mem_append_right _ List.mem_cons_self
      · rintro ⟨-, page, hpage', -⟩
        rw [hpage] at hpage'
        cases hpage'
  | some page =>
      have hne : source ≠ dest := by
        apply hwrong.resolve_right
        rw [hpage]
        exact Option.some_ne_none page
      have hload := loaded_of_not_blocks h (page_lt hp hpage) hpage hblock
      refine ⟨_, sendBytes_logs (send_wrong ((buffer k).signExtend 32)
        (source + BitVec.ofNat 32 k) h hw hp hv hpage hload 1), ?_⟩
      rintro ⟨heq, -⟩
      exact hne ((BitVec.add_left_inj _).mp heq)

/-- **The loop meets such a byte**, if it ends at none before. -/
theorem sendBytes_wrong (buffer : ByteMem) (h : u.Sane) (ha : u.Addressed)
    (hframe : ¬ u.NoFrame) (hle : dest.toNat + n ≤ u.sp.numPages * PageSize) (hi : i < n)
    (hmiss : ¬ u.Resident (dest + BitVec.ofNat 32 i)) (hwrong : WrongAt dest source i)
    (hpass : ∀ j ≤ i, ¬ u.Resident (dest + BitVec.ofNat 32 j) →
      ¬ u.Blocks (dest + BitVec.ofNat 32 j)) :
    ∀ longueur k t, k + longueur = n → k ≤ i → Reached u dest source buffer n k t →
      ¬ t.user.NoFrame →
      ∃ fault ∈ ((sendBytes 2 dest source buffer longueur k).after t).faults,
        ¬ fault.Right u.sp.numPages := by
  intro longueur
  induction longueur with
  | zero => exact fun k t hk hki _ _ => by omega
  | succ longueur ih =>
      intro k t hk hki hr hframe'
      obtain ⟨hsane, hn⟩ := hr.served.sane h
      obtain ⟨hadd, hp⟩ := ha.at (i := k) hle (by omega)
      have hpt := hn.symm ▸ hp
      by_cases hv : t.user.Resident (dest + BitVec.ofNat 32 k)
      · have hki' : k < i := by
          refine Nat.lt_of_le_of_ne hki ?_
          rintro rfl
          rcases hwrong with hne | hnone
          · exact hmiss ((hr.same hne _).mp hv)
          · exact hr.addressed.missing hpt (neg_of_pageNumber_eq_none hnone) hv
        obtain ⟨v, hstored, hsend, hr'⟩ := hr.next_resident h ha hframe hle (by omega) hv 1
        have hround : (sendBytes 2 dest source buffer (longueur + 1) k).after t =
            (sendBytes 2 dest source buffer longueur (k + 1)).after { t with user := v } :=
          CopyM.after_bind_of_ok hsend
        rw [hround]
        exact ih (k + 1) _ (by omega) hki' hr'
          fun hnone => hframe' (hstored.noFrame_iff.mp hnone)
      have hblock : ¬ t.user.Blocks (dest + BitVec.ofNat 32 k) := by
        intro hb
        obtain ⟨hmiss', hb'⟩ := hr.of_blocks h ha hframe' hp hb
        exact hpass k hki hmiss' hb'
      by_cases hnow : WrongAt dest source k
      · exact sendBytes_wrong_next buffer hsane hr.writable hpt hv hnow hblock _
      obtain ⟨hsame, hpage⟩ := not_or.mp hnow
      obtain rfl := not_not.mp hsame
      have hnone := hwrong.resolve_left hsame
      obtain ⟨hadd', -⟩ := ha.at hle hi
      have hki' : k < i := by
        refine Nat.lt_of_le_of_ne hki ?_
        rintro rfl
        exact hpage hnone
      -- the byte is not one of the last, since byte `i` comes behind it
      have hint : 0 ≤ (source + BitVec.ofNat 32 k).toInt := by
        have hlast := (pageNumber_eq_none_iff.mp hnone).2
        have hsome := mt pageNumber_eq_none_iff.mpr hpage
        rw [BitVec.toInt_eq_toNat_cond]
        split <;> omega
      obtain ⟨-, r, hok, hr', hframe''⟩ := hr.next_missing h ha hframe hle (by omega)
        hint hv hblock
      have hround : (sendBytes 2 source source buffer (longueur + 1) k).after t =
          (sendBytes 2 source source buffer longueur (k + 1)).after r :=
        CopyM.after_bind_of_ok (hok 0)
      rw [hround]
      exact ih (k + 1) r (by omega) hki' hr' hframe''

end Wrong

/-! ## §6  `CopyToUser` -/

/-- What the copy should do: every fault is one of the destination, and when it returns,
user memory is the old one but for the bytes of the source. -/
structure WritesUser (u : UserMem) (dest : BitVec 32) (n : ℕ) (buffer : ByteMem)
    (s : CopyState) (x : CopyM Unit) : Prop where
  faults : ∀ fault ∈ (x.after s).faults, fault.Right u.sp.numPages
  returns : ∀ t, x s = .ok () t →
    (∀ i < n, t.user.view (dest.toNat + i) = some (buffer i)) ∧
      Kept (destRange dest n) u t.user

/-- The conditions on the state and the addresses under which no wrong fault is raised: at
or before every byte that is missing, and whose fault would be wrong, there is a missing
byte at which the copy ends. -/
def NoWrongFault (u : UserMem) (dest source : BitVec 32) (n : ℕ) : Prop :=
  ∀ i < n, ¬ u.Resident (dest + BitVec.ofNat 32 i) → WrongAt dest source i →
    ∃ j ≤ i, ¬ u.Resident (dest + BitVec.ofNat 32 j) ∧ u.Blocks (dest + BitVec.ofNat 32 j)

/-- Why a copy below 2 GiB ends: no frame can be had, or a page cannot be read. -/
def Ended (u : UserMem) (dest : BitVec 32) (n : ℕ) (e : Stop) : Prop :=
  e = .finished ∨ e = .undefined ∧ ∃ i < n, u.Unreadable (dest.toNat + i)

section Whole

variable {u : UserMem} {dest source : BitVec 32} {buffer : ByteMem} {n i : ℕ} {t : CopyState}

/-- What may end the loop at a byte, when no fault is wrong. -/
structure EndsAt (u : UserMem) (dest : BitVec 32) (n turns : ℕ) (e : Stop) (r : CopyState) :
    Prop where
  faults : ∀ fault ∈ r.faults, fault.Right u.sp.numPages
  why : 2 ≤ turns → dest.toNat + n ≤ 0x80000000 → Ended u dest n e

/-- The addresses of a range below 2 GiB are `int`s. -/
theorem toInt_nonneg_of_low (hlow : dest.toNat + n ≤ 0x80000000) (hi : i < n)
    (hadd : (dest + BitVec.ofNat 32 i).toNat = dest.toNat + i) :
    0 ≤ (dest + BitVec.ofNat 32 i).toInt := by
  rw [BitVec.toInt_eq_toNat_of_lt (by omega)]
  exact Int.natCast_nonneg _

/-- **The copy ends** at a missing byte: its fault is right, and the last one. -/
theorem Reached.ends (hr : Reached u dest source buffer n i t) (h : u.Sane)
    (ha : u.Addressed) (hle : dest.toNat + n ≤ u.sp.numPages * PageSize) (hi : i < n)
    (hv : ¬ t.user.Resident (dest + BitVec.ofNat 32 i))
    (hblock : t.user.Blocks (dest + BitVec.ofNat 32 i)) (turns : ℕ) :
    ∃ e r, send (dest + BitVec.ofNat 32 i) ((buffer i).signExtend 32)
      (source + BitVec.ofNat 32 i) (turns + 1) t = .error e r ∧
      EndsAt u dest n (turns + 1) e r := by
  obtain ⟨hsane, hn⟩ := hr.served.sane h
  obtain ⟨hadd, hp⟩ := ha.at hle hi
  obtain ⟨page, hpage, hb⟩ := hblock
  obtain ⟨e, r, herr, hfaults, hwhy⟩ := send_blocked ((buffer i).signExtend 32)
    (source + BitVec.ofNat 32 i) hsane hr.writable (hn.symm ▸ hp) hv hpage hb turns
  refine ⟨e, r, herr, fun fault hfault => ?_, fun _ hlow => ?_⟩
  · rw [hfaults] at hfault
    rcases List.mem_append.mp hfault with hold | hnew
    · exact hr.faults fault hold
    · rw [List.mem_singleton.mp hnew]
      exact ⟨rfl, page, hpage, page_lt hp hpage⟩
  · refine hwhy.imp_right fun hun => ⟨hun.1, i, hi, ?_⟩
    rw [pageNumber_of_nonneg (toInt_nonneg_of_low hlow hi hadd), hadd] at hpage
    cases hpage
    rw [hadd] at hp
    exact (UserMem.unreadable_iff.mpr (UserMem.unreadable_page.mp hun.2)).of_served
      hr.served h hp

/-- **One round**, when no fault is wrong. -/
theorem Reached.next (hr : Reached u dest source buffer n i t) (h : u.Sane)
    (ha : u.Addressed) (hframe : ¬ u.NoFrame)
    (hle : dest.toNat + n ≤ u.sp.numPages * PageSize) (hi : i < n)
    (hgood : NoWrongFault u dest source n) (turns : ℕ) :
    (∃ r, send (dest + BitVec.ofNat 32 i) ((buffer i).signExtend 32)
        (source + BitVec.ofNat 32 i) turns t = .ok () r ∧
        Reached u dest source buffer n (i + 1) r) ∨
      ∃ e r, send (dest + BitVec.ofNat 32 i) ((buffer i).signExtend 32)
        (source + BitVec.ofNat 32 i) turns t = .error e r ∧ EndsAt u dest n turns e r := by
  obtain ⟨hsane, hn⟩ := hr.served.sane h
  obtain ⟨hadd, hp⟩ := ha.at hle hi
  have hpt := hn.symm ▸ hp
  cases turns with
  | zero => exact Or.inr ⟨.outOfTurns, t, rfl, hr.faults, by omega⟩
  | succ turns =>
  by_cases hv : t.user.Resident (dest + BitVec.ofNat 32 i)
  · obtain ⟨v, -, hsend, hr'⟩ := hr.next_resident h ha hframe hle hi hv turns
    exact Or.inl ⟨_, hsend, hr'⟩
  -- a byte at which the fault is wrong was missing from the start, so that the copy ends here
  have hends : ¬ u.Resident (dest + BitVec.ofNat 32 i) → WrongAt dest source i →
      u.Blocks (dest + BitVec.ofNat 32 i) := by
    intro hmiss hwrong
    obtain ⟨j, hji, hmissj, hblock⟩ := hgood i hi hmiss hwrong
    rcases Nat.lt_or_eq_of_le hji with hlt | rfl
    · exact absurd hblock (hr.passed j hlt hmissj)
    · exact hblock
  cases hpage : Kernel.pageNumber (dest + BitVec.ofNat 32 i) with
  | none =>
      obtain ⟨page, hpage', -⟩ :=
        hends (ha.missing hp (neg_of_pageNumber_eq_none hpage)) (Or.inr hpage)
      rw [hpage] at hpage'
      cases hpage'
  | some page =>
      by_cases hblock : t.user.Blocks (dest + BitVec.ofNat 32 i)
      · exact Or.inr (hr.ends h ha hle hi hv hblock turns)
      by_cases hsame : source = dest
      · subst hsame
        by_cases hneg : (source + BitVec.ofNat 32 i).toInt < 0
        · obtain ⟨e, r, herr, hfaults⟩ := send_tail ((buffer i).signExtend 32) hneg hpage
            (turns + 1) t hsane hr.writable hr.addressed hpt
          refine Or.inr ⟨e, r, herr, fun fault hfault => ?_, fun _ hlow => ?_⟩
          · rcases hfaults fault hfault with hold | rfl
            · exact hr.faults fault hold
            · exact ⟨rfl, page, hpage, page_lt hp hpage⟩
          · exact absurd (toInt_nonneg_of_low hlow hi hadd) (Int.not_le.mpr hneg)
        · obtain ⟨⟨r₁, hout, hfaults⟩, r, hok, hr', -⟩ := hr.next_missing h ha hframe hle hi
            (Int.not_lt.mp hneg) hv hblock
          cases turns with
          | zero => exact Or.inr ⟨_, r₁, hout, hfaults, by omega⟩
          | succ turns => exact Or.inl ⟨r, hok turns, hr'⟩
      · have hb := hends (fun hres => hv ((hr.same hsame _).mpr hres)) (Or.inl hsame)
        exact absurd (hr.blocks h hframe hp hb).2 hblock

theorem sendBytes_right (h : u.Sane) (ha : u.Addressed) (hframe : ¬ u.NoFrame)
    (hle : dest.toNat + n ≤ u.sp.numPages * PageSize) (hgood : NoWrongFault u dest source n)
    (turns : ℕ) : ∀ longueur i t, i + longueur = n → Reached u dest source buffer n i t →
      (∃ r, sendBytes turns dest source buffer longueur i t = .ok () r ∧
        Sent u dest buffer n n r) ∨
      ∃ e r, sendBytes turns dest source buffer longueur i t = .error e r ∧
        EndsAt u dest n turns e r := by
  intro longueur
  induction longueur with
  | zero =>
      rintro i t rfl hr
      exact Or.inl ⟨t, rfl, hr.toSent⟩
  | succ longueur ih =>
      intro i t hn hr
      rcases hr.next h ha hframe hle (by omega) hgood turns with ⟨r, hok, hr'⟩ | ⟨e, r, herr, hend⟩
      · have hround : sendBytes turns dest source buffer (longueur + 1) i t =
            sendBytes turns dest source buffer longueur (i + 1) r := EStateM.bind_of_ok hok
        rw [hround]
        exact ih (i + 1) r (by omega) hr'
      · exact Or.inr ⟨e, r, EStateM.bind_of_error herr, hend⟩

/-- At the beginning. -/
theorem reached_start (kernel : ByteMem) (hw : u.Writable) (ha : u.Addressed) :
    Reached u dest source buffer n 0 (.start u kernel) :=
  ⟨⟨.refl, hw, fun j hj => absurd hj (Nat.not_lt_zero j),
    fun _ hfault => absurd hfault List.not_mem_nil⟩, ha, fun _ _ => Iff.rfl,
    fun j hj => absurd hj (Nat.not_lt_zero j)⟩

/-- **Every outcome when no fault is wrong.** -/
theorem NoWrongFault.outcome (hgood : NoWrongFault u dest source n) (kernel buffer : ByteMem)
    (h : u.Sane) (hw : u.Writable) (ha : u.Addressed)
    (hle : dest.toNat + n ≤ u.sp.numPages * PageSize) (turns : ℕ) :
    (∃ r, sendBytes turns dest source buffer n 0 (.start u kernel) = .ok () r ∧
      Sent u dest buffer n n r) ∨
    ∃ e r, sendBytes turns dest source buffer n 0 (.start u kernel) = .error e r ∧
      EndsAt u dest n turns e r := by
  have hstart : Reached u dest source buffer n 0 (.start u kernel) := reached_start kernel hw ha
  by_cases hframe : u.NoFrame
  swap
  · exact sendBytes_right h ha hframe hle hgood turns n 0 _ (Nat.zero_add n) hstart
  -- without a frame, the first fault ends the copy
  cases n with
  | zero => exact Or.inl ⟨_, rfl, hstart.toSent⟩
  | succ m =>
      obtain ⟨-, hp⟩ := ha.at hle (Nat.succ_pos m)
      have hv : ¬ u.Resident (dest + BitVec.ofNat 32 0) := by
        rw [UserMem.Resident, hframe.2 _ hp]
        exact Bool.false_ne_true
      cases turns with
      | zero => exact Or.inr ⟨.outOfTurns, _, rfl, hstart.faults, by omega⟩
      | succ turns =>
      obtain ⟨page, hpage⟩ : ∃ page, Kernel.pageNumber (dest + BitVec.ofNat 32 0) = some page := by
        rw [← Option.ne_none_iff_exists']
        intro hnone
        obtain ⟨j, hj, -, page, hpage, -⟩ := hgood 0 (Nat.succ_pos m) hv (Or.inr hnone)
        obtain rfl := Nat.le_zero.mp hj
        rw [hnone] at hpage
        cases hpage
      have hpn := page_lt hp hpage
      have hsend : send (dest + BitVec.ofNat 32 0) ((buffer 0).signExtend 32)
          (source + BitVec.ofNat 32 0) (turns + 1) (.start u kernel) = .error .finished
            ((CopyState.start u kernel).handled
              ⟨dest + BitVec.ofNat 32 0, dest + BitVec.ofNat 32 0⟩ page) := by
        rw [send_missing _ _ h hw hp hv]
        exact EStateM.bind_of_error (raise_noFrame h _ hpage hpn hframe)
      have hright : ∀ fault ∈ ((CopyState.start u kernel).handled
          ⟨dest + BitVec.ofNat 32 0, dest + BitVec.ofNat 32 0⟩ page).faults,
          fault.Right u.sp.numPages := by
        intro fault hfault
        rw [List.mem_singleton.mp hfault]
        exact ⟨rfl, page, hpage, hpn⟩
      exact Or.inr ⟨_, _, EStateM.bind_of_error hsend, hright, fun _ _ => Or.inl rfl⟩

end Whole

/-- **When `CopyToUser` faults only on the destination**, for a destination anywhere in the
address space: exactly when at or before every missing byte, whose fault is wrong because
the two addresses differ or because its page number is negative, the copy ends. With two
turns for each byte below 2 GiB it then returns, or the thread is finished, or Nachos
stops at a page that cannot be read. -/
theorem copyToUser_faults_iff (u : UserMem) (h : u.Sane) (hw : u.Writable) (ha : u.Addressed)
    (dest source : BitVec 32) (kernel buffer : ByteMem) (longueur : ℤ)
    (hle : dest.toNat + longueur.toNat ≤ u.sp.numPages * PageSize) :
    ((∀ turns, WritesUser u dest longueur.toNat buffer (.start u kernel)
        (copyToUser turns dest source buffer longueur)) ↔
      NoWrongFault u dest source longueur.toNat) ∧
    (NoWrongFault u dest source longueur.toNat →
      dest.toNat + longueur.toNat ≤ 0x80000000 → ∀ turns ≥ 2,
      (∃ r, copyToUser turns dest source buffer longueur (.start u kernel) = .ok () r) ∨
      ∃ e r, copyToUser turns dest source buffer longueur (.start u kernel) = .error e r ∧
        Ended u dest longueur.toNat e) := by
  refine ⟨⟨fun hall => ?_, fun hgood turns => ?_⟩, fun hgood hlow turns hturns => ?_⟩
  · by_contra hbad
    simp only [NoWrongFault, not_forall, not_exists, not_and, exists_prop] at hbad
    obtain ⟨i, hi, hmiss, hwrong, hpass⟩ := hbad
    obtain ⟨fault, hfault, hnot⟩ : ∃ fault ∈ ((sendBytes 2 dest source buffer
        longueur.toNat 0).after (.start u kernel)).faults, ¬ fault.Right u.sp.numPages := by
      by_cases hframe : u.NoFrame
      swap
      · exact sendBytes_wrong buffer h ha hframe hle hi hmiss hwrong hpass _ 0 _
          (Nat.zero_add _) (Nat.zero_le i) (reached_start kernel hw ha) hframe
      -- without a frame, the first byte is missing, and its fault has no page
      obtain ⟨-, hp⟩ := ha.at (i := 0) hle (by omega)
      have hv : ¬ u.Resident (dest + BitVec.ofNat 32 0) := by
        rw [UserMem.Resident, hframe.2 _ hp]
        exact Bool.false_ne_true
      have hnone : Kernel.pageNumber (dest + BitVec.ofNat 32 0) = none := by
        by_contra hsome
        obtain ⟨page, hpage⟩ := Option.ne_none_iff_exists'.mp hsome
        exact hpass 0 (Nat.zero_le i) hv ⟨page, hpage, Or.inl hframe⟩
      have hsend := send_outside (s := .start u kernel) ((buffer 0).signExtend 32)
        (source + BitVec.ofNat 32 0) h hw hp hv hnone 1
      obtain ⟨m, hm⟩ : ∃ m, longueur.toNat = m + 1 := ⟨longueur.toNat - 1, by omega⟩
      refine ⟨⟨dest + BitVec.ofNat 32 0, dest + BitVec.ofNat 32 0⟩, ?_, ?_⟩
      · rw [hm]
        refine sendBytes_logs ?_
        rw [CopyM.after, hsend]
        exact List.mem_append_right _ List.mem_cons_self
      · rintro ⟨-, page, hpage, -⟩
        rw [hnone] at hpage
        cases hpage
    exact hnot ((hall 2).faults fault hfault)
  · rcases hgood.outcome kernel buffer h hw ha hle turns with
      ⟨r, hok, hsent⟩ | ⟨e, r, herr, hend⟩
    · refine ⟨?_, fun t ht => ?_⟩
      · rw [copyToUser, CopyM.after_of_ok hok]
        exact hsent.faults
      · rw [copyToUser, hok] at ht
        cases ht
        exact ⟨hsent.bytes, hsent.served.kept h⟩
    · refine ⟨?_, fun t ht => ?_⟩
      · rw [copyToUser, CopyM.after, herr]
        exact hend.faults
      · rw [copyToUser, herr] at ht
        cases ht
  · rcases hgood.outcome kernel buffer h hw ha hle turns with
      ⟨r, hok, -⟩ | ⟨e, r, herr, hend⟩
    · exact Or.inl ⟨r, hok⟩
    · exact Or.inr ⟨e, r, herr, hend.why hturns hlow⟩

/-- A process that was just started has its four bytes stored at the same address. -/
theorem copyToUser_faults_iff_sameAddress : ∃ u : UserMem,
    AddrSpace.new (zeroProgram 0) = some u.sp ∧ u.phys = PhysMemory.init ∧
    ((∀ turns, WritesUser u 126 4 (fun _ => 7) (.start u fun _ => 0)
        (copyToUser turns 126 126 (fun _ => 7) 4)) ↔ NoWrongFault u 126 126 4) ∧
    (NoWrongFault u 126 126 4 → (126#32).toNat + 4 ≤ 0x80000000 → ∀ turns ≥ 2,
      (∃ r, copyToUser turns 126 126 (fun _ => 7) 4 (.start u fun _ => 0) = .ok () r) ∨
      ∃ e r, copyToUser turns 126 126 (fun _ => 7) 4 (.start u fun _ => 0) = .error e r ∧
        Ended u 126 4 e) := by
  obtain ⟨sp, hnew, hpages⟩ := new_zeroProgram
  exact ⟨⟨PhysMemory.init, sp⟩, hnew, rfl, copyToUser_faults_iff ⟨PhysMemory.init, sp⟩
    (sane_new hnew) (writable_new _ hnew) (addressed_new _ hnew) 126 126 (fun _ => 0)
    (fun _ => 7) 4 (by rw [hpages]; decide)⟩

/-- **One byte from a kernel buffer at `0x08000000`** to address 0 of a process that was
just started: the retry raises the kernel's address, in page `0x100000` of 8. -/
theorem fault_at_source : ∃ u : UserMem,
    AddrSpace.new (zeroProgram 0) = some u.sp ∧ u.phys = PhysMemory.init ∧
    InRange u 0 1 ∧ u.sp.numPages = 8 ∧
    ((copyToUser 2 0 0x08000000 (fun _ => 7) 1).after (.start u fun _ => 0)).faults =
      [⟨0, 0⟩, ⟨0, 0x08000000⟩] ∧ Kernel.pageNumber 0x08000000 = some 0x100000 := by
  obtain ⟨sp, hnew, hpages⟩ := new_zeroProgram
  have hfaults : ((copyToUser 2 0 0x08000000 (fun _ => 7) 1).after
      (.start ⟨PhysMemory.init, sp⟩ fun _ => 0)).faults = [⟨0, 0⟩, ⟨0, 0x08000000⟩] := by
    have hmap : (AddrSpace.new (zeroProgram 0)).map (fun sp =>
        ((copyToUser 2 0 0x08000000 (fun _ => 7) 1).after
          (.start ⟨PhysMemory.init, sp⟩ fun _ => 0)).faults) =
        some [⟨0, 0⟩, ⟨0, 0x08000000⟩] := by decide +kernel
    rw [hnew] at hmap
    exact Option.some.inj hmap
  exact ⟨⟨PhysMemory.init, sp⟩, hnew, rfl, ⟨by rw [hpages]; decide, by decide⟩,
    hpages, hfaults, by decide⟩

end OsAssignments.MemoryManagement
