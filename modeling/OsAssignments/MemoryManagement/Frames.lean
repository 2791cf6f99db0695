import OsAssignments.Lib.PartialMachine
import OsAssignments.MemoryManagement.Machine

/-!
# Frames and their owners

All address spaces at once, over the one bitmap of free frames. `FrameInv` says
that the marked frames are exactly those that some valid page-table entry
holds, and that no two entries hold the same frame.

- `Vm.step` — construct, fault, load, store, destroy, in any order and by any
  process.
- `FrameInv.step` — every step keeps `FrameInv`; `frameInv_of_run` is the same
  for whole runs.
- `frames_exclusive` — **frame exclusivity** in every reachable state.
- `fault_served_iff` — when a page fault is served, in every reachable state.
-/

namespace OsAssignments.MemoryManagement

/-! ## §1  The machine -/

/-- The address spaces constructed and not yet destroyed, by process. -/
structure Vm where
  phys : PhysMemory
  spaces : ℕ → Option AddrSpace

def Vm.init : Vm := ⟨PhysMemory.init, fun _ => none⟩

/-- `new AddrSpace(executable)` for a process that has none. -/
def Vm.construct (vm : Vm) (id : ℕ) (executable : RandomAccessFile) : Option Vm :=
  match vm.spaces id with
  | some _ => none
  | none => (AddrSpace.new executable).map fun sp =>
      { vm with spaces := Function.update vm.spaces id (some sp) }

/-- `space->LoadFromExecutable(pageNumber)`, for a page of the address space; `none` also
when Nachos stops in it. -/
def Vm.fault (vm : Vm) (id pageNumber : ℕ) : Option (Bool × Vm) :=
  match vm.spaces id with
  | none => none
  | some sp =>
      if pageNumber < sp.numPages then
        (sp.loadFromExecutable vm.phys pageNumber).map fun (ok, phys, sp) =>
          (ok, ⟨phys, Function.update vm.spaces id (some sp)⟩)
      else none

/-- `ReadMem` with the page table of `id` installed. -/
def Vm.readMem (vm : Vm) (id : ℕ) (addr : BitVec 32) (size : Width) :
    Option (Except ExceptionType (BitVec 32 × Vm)) :=
  (vm.spaces id).map fun sp =>
    (Machine.readMem vm.phys.mainMemory sp addr size).map fun (value, sp) =>
      (value, { vm with spaces := Function.update vm.spaces id (some sp) })

/-- `WriteMem` with the page table of `id` installed. -/
def Vm.writeMem (vm : Vm) (id : ℕ) (addr : BitVec 32) (size : Width)
    (value : BitVec 32) : Option (Except ExceptionType Vm) :=
  (vm.spaces id).map fun sp =>
    (Machine.writeMem vm.phys.mainMemory sp addr size value).map fun (mem, sp) =>
      ⟨{ vm.phys with mainMemory := mem },
        Function.update vm.spaces id (some sp)⟩

/-- `delete space`. -/
def Vm.destroy (vm : Vm) (id : ℕ) : Option Vm :=
  match vm.spaces id with
  | none => none
  | some sp => (sp.destroy vm.phys.freeFrame).map fun freeFrame =>
      ⟨{ vm.phys with freeFrame := freeFrame }, Function.update vm.spaces id none⟩

inductive VmAct where
  | construct (id : ℕ) (executable : RandomAccessFile)
  | fault (id pageNumber : ℕ)
  | readMem (id : ℕ) (addr : BitVec 32) (size : Width)
  | writeMem (id : ℕ) (addr : BitVec 32) (size : Width) (value : BitVec 32)
  | destroy (id : ℕ)

/-- One step of the machine; an access that raises an exception changes
nothing here. -/
def Vm.step (vm : Vm) : VmAct → Option Vm
  | .construct id executable => vm.construct id executable
  | .fault id pageNumber => (vm.fault id pageNumber).map Prod.snd
  | .readMem id addr size =>
      (vm.readMem id addr size).map fun
        | .ok (_, vm') => vm'
        | .error _ => vm
  | .writeMem id addr size value =>
      (vm.writeMem id addr size value).map fun
        | .ok vm' => vm'
        | .error _ => vm
  | .destroy id => vm.destroy id

/-! ## §2  The destructor -/

/-- The part of the destructor's loop that is left after some pages. -/
theorem destroy_loop {sp : AddrSpace} (h : sp.Wf) :
    ∀ (l : List ℕ) (b : BitMap), (∀ p ∈ l, p < sp.numPages) →
      b.numBits = NumPhysPages →
      ∃ b', l.foldlM (fun b i =>
          let physicalPage := (sp.pageTable i).physicalPage
          if physicalPage ≠ -1 ∧ physicalPage ≠ IN_SWAP_FILE then
            b.clear physicalPage
          else some b) b = some b' ∧
        b'.numBits = NumPhysPages ∧
        ∀ i, b'.testBit i = true ↔ b.testBit i = true ∧ ∀ p ∈ l, ¬ sp.Maps p i
  | [], b, _, hb => ⟨b, rfl, hb, by simp⟩
  | p :: l, b, hl, hb => by
      have hp : p < sp.numPages := hl p List.mem_cons_self
      have hl' : ∀ q ∈ l, q < sp.numPages :=
        fun q hq => hl q (List.mem_cons_of_mem p hq)
      cases hv : (sp.pageTable p).valid with
      | true =>
          obtain ⟨hm, hlt⟩ := h.maps_of_valid hp hv
          have hr := h.valid_range p hp hv
          obtain ⟨f, hf⟩ : ∃ f : ℕ, (sp.pageTable p).physicalPage = f :=
            ⟨_, hm.2.2⟩
          rw [hf, Int.toNat_natCast] at hm hlt
          have hfb : f < b.numBits := hb ▸ hlt
          obtain ⟨b', hfold, hbits, hb'⟩ :=
            destroy_loop h l (b.clearBit f) hl' (by simpa using hb)
          refine ⟨b', ?_, hbits, fun i => ?_⟩
          · have hguard : (f : ℤ) ≠ -1 ∧ (f : ℤ) ≠ IN_SWAP_FILE := by
              simp only [IN_SWAP_FILE]
              omega
            rw [List.foldlM_cons]
            simp only [hf, hguard, ne_eq, not_false_eq_true, and_self, if_true,
              BitMap.clear_natCast hfb]
            exact hfold
          · rw [hb' i, BitMap.testBit_clearBit hfb]
            have hmaps : sp.Maps p i ↔ f = i :=
              ⟨fun hi => hm.unique hi, fun hi => hi ▸ hm⟩
            simp only [List.forall_mem_cons, hmaps, Bool.and_eq_true,
              Bool.not_eq_true', decide_eq_false_iff_not]
            tauto
      | false =>
          have hskip : ¬ ((sp.pageTable p).physicalPage ≠ -1 ∧
              (sp.pageTable p).physicalPage ≠ IN_SWAP_FILE) := by
            have := h.invalid p hp hv
            tauto
          obtain ⟨b', hfold, hbits, hb'⟩ := destroy_loop h l b hl' hb
          refine ⟨b', ?_, hbits, fun i => ?_⟩
          · rw [List.foldlM_cons]
            simp only [hskip, if_false]
            exact hfold
          · have hmaps : ¬ sp.Maps p i := AddrSpace.not_maps_of_invalid hv
            simp [hb' i, hmaps]

/-- **The destructor never aborts**, and clears exactly the frames that the
address space holds. -/
theorem destroy_spec {sp : AddrSpace} {b : BitMap} (h : sp.Wf)
    (hb : b.numBits = NumPhysPages) :
    ∃ b', sp.destroy b = some b' ∧ b'.numBits = NumPhysPages ∧
      ∀ i, b'.testBit i = true ↔ b.testBit i = true ∧ ∀ p, ¬ sp.Maps p i := by
  obtain ⟨b', hfold, hbits, hb'⟩ :=
    destroy_loop h (List.range sp.numPages) b (by simp) hb
  refine ⟨b', hfold, hbits, fun i => ?_⟩
  rw [hb' i]
  refine and_congr_right fun _ => ⟨fun hall p hm => ?_, fun hall p _ => hall p⟩
  exact hall p (List.mem_range.mpr hm.1) hm

/-! ## §3  The invariant -/

/-- Page `p` of process `id` is resident in frame `f`. -/
def Vm.Maps (vm : Vm) (id p f : ℕ) : Prop :=
  ∃ sp, vm.spaces id = some sp ∧ sp.Maps p f

/-- **The frame invariant.** -/
structure FrameInv (vm : Vm) : Prop where
  numBits : vm.phys.freeFrame.numBits = NumPhysPages
  wf : ∀ id sp, vm.spaces id = some sp → sp.Wf
  marked_iff : ∀ f < NumPhysPages,
    vm.phys.freeFrame.testBit f = true ↔ ∃ id p, vm.Maps id p f
  exclusive : ∀ i j p q f, vm.Maps i p f → vm.Maps j q f → i = j ∧ p = q

theorem frameInv_init : FrameInv Vm.init where
  numBits := rfl
  wf id sp h := by simp [Vm.init] at h
  marked_iff f _ := by simp [Vm.init, PhysMemory.init, Vm.Maps]
  exclusive i j p q f h := by simp [Vm.Maps, Vm.init] at h

theorem FrameInv.frame_lt {vm : Vm} (h : FrameInv vm) {id p f : ℕ}
    (hm : vm.Maps id p f) : f < NumPhysPages := by
  obtain ⟨sp, hsp, hm⟩ := hm
  exact (h.wf id sp hsp).frame_lt hm

theorem FrameInv.marked {vm : Vm} (h : FrameInv vm) {id p f : ℕ}
    (hm : vm.Maps id p f) : vm.phys.freeFrame.testBit f = true :=
  (h.marked_iff f (h.frame_lt hm)).mpr ⟨id, p, hm⟩

theorem FrameInv.owns {vm : Vm} (h : FrameInv vm) {id : ℕ} {sp : AddrSpace}
    (hsp : vm.spaces id = some sp) : sp.Owns vm.phys.freeFrame where
  marked _ _ hm := h.marked ⟨sp, hsp, hm⟩
  inj p q f hp hq := (h.exclusive id id p q f ⟨sp, hsp, hp⟩ ⟨sp, hsp, hq⟩).2

/-- Who maps what after one address space is replaced. -/
theorem maps_update {phys : PhysMemory} {spaces : ℕ → Option AddrSpace}
    {id j p f : ℕ} {x : Option AddrSpace} :
    Vm.Maps ⟨phys, Function.update spaces id x⟩ j p f ↔
      (j = id ∧ ∃ sp, x = some sp ∧ sp.Maps p f) ∨
      (j ≠ id ∧ ∃ sp, spaces j = some sp ∧ sp.Maps p f) := by
  by_cases h : j = id
  · subst h
    simp [Vm.Maps]
  · simp [Vm.Maps, h]

/-- Changing an address space without touching its mappings. -/
theorem FrameInv.of_maps_iff {vm vm' : Vm} (h : FrameInv vm)
    (hwf : ∀ id sp, vm'.spaces id = some sp → sp.Wf)
    (hframes : vm'.phys.freeFrame = vm.phys.freeFrame)
    (hmaps : ∀ id p f, vm'.Maps id p f ↔ vm.Maps id p f) : FrameInv vm' where
  numBits := hframes ▸ h.numBits
  wf := hwf
  marked_iff f hf := by simpa only [hframes, hmaps] using h.marked_iff f hf
  exclusive i j p q f hi hj :=
    h.exclusive i j p q f ((hmaps _ _ _).mp hi) ((hmaps _ _ _).mp hj)

/-! ## §4  Every step keeps it -/

theorem wf_update {spaces : ℕ → Option AddrSpace} {id : ℕ} {x : Option AddrSpace}
    (h : ∀ j sp, spaces j = some sp → sp.Wf) (hx : ∀ sp, x = some sp → sp.Wf) :
    ∀ j sp, Function.update spaces id x j = some sp → sp.Wf := by
  intro j sp hsp
  by_cases hj : j = id
  · subst hj
    exact hx sp (by simpa using hsp)
  · rw [Function.update_of_ne hj] at hsp
    exact h j sp hsp

theorem construct_inv {vm vm' : Vm} {id : ℕ} {executable : RandomAccessFile}
    (hstep : vm.construct id executable = some vm') :
    ∃ sp, vm.spaces id = none ∧ AddrSpace.new executable = some sp ∧
      vm' = { vm with spaces := Function.update vm.spaces id (some sp) } := by
  unfold Vm.construct at hstep
  split at hstep
  · cases hstep
  rename_i hnone
  obtain ⟨sp, hnew, rfl⟩ := Option.map_eq_some_iff.mp hstep
  exact ⟨sp, hnone, hnew, rfl⟩

/-- A new address space has no resident page. -/
theorem maps_construct {vm vm' : Vm} {id : ℕ} {executable : RandomAccessFile}
    (hstep : vm.construct id executable = some vm') (j p f : ℕ) :
    vm'.Maps j p f ↔ vm.Maps j p f := by
  obtain ⟨sp, hnone, hnew, rfl⟩ := construct_inv hstep
  rw [maps_update]
  constructor
  · rintro (⟨-, sp', hsp', hm⟩ | ⟨-, hm⟩)
    · cases hsp'
      exact absurd hm (AddrSpace.not_maps_of_invalid ((AddrSpace.new_wf hnew).2 p))
    · exact hm
  · rintro ⟨sp', hsp', hm⟩
    refine Or.inr ⟨?_, sp', hsp', hm⟩
    rintro rfl
    rw [hnone] at hsp'
    cases hsp'

theorem FrameInv.construct {vm vm' : Vm} {id : ℕ} {executable : RandomAccessFile}
    (h : FrameInv vm) (hstep : vm.construct id executable = some vm') :
    FrameInv vm' := by
  have hmaps := maps_construct hstep
  obtain ⟨sp, -, hnew, rfl⟩ := construct_inv hstep
  refine h.of_maps_iff (wf_update h.wf ?_) rfl hmaps
  rintro _ ⟨⟩
  exact (AddrSpace.new_wf hnew).1

theorem fault_inv {vm vm' : Vm} {id pageNumber : ℕ} {ok : Bool}
    (hstep : vm.fault id pageNumber = some (ok, vm')) :
    ∃ sp, vm.spaces id = some sp ∧ pageNumber < sp.numPages ∧
      ok = (sp.loaded vm.phys pageNumber).1 ∧
      vm' = ⟨(sp.loaded vm.phys pageNumber).2.1,
        Function.update vm.spaces id (some (sp.loaded vm.phys pageNumber).2.2)⟩ ∧
      sp.loadFromExecutable vm.phys pageNumber = some (sp.loaded vm.phys pageNumber) := by
  unfold Vm.fault at hstep
  split at hstep
  · cases hstep
  rename_i sp hsp
  split at hstep
  case isFalse => cases hstep
  rename_i hp
  obtain ⟨r, hload, hr⟩ := Option.map_eq_some_iff.mp hstep
  obtain ⟨hok, hvm⟩ := Prod.mk.inj hr
  refine ⟨sp, hsp, hp, ?_⟩
  rw [AddrSpace.loaded_of_eq_some hload]
  exact ⟨hok.symm, hvm.symm, hload⟩

/-- **A page fault and the frames of all processes.** When it is served, one
frame `f` is newly mapped, which no other process held; when it is not, no
mapping changes. -/
theorem FrameInv.maps_fault {vm vm' : Vm} {id pageNumber : ℕ} {ok : Bool}
    (h : FrameInv vm) (hstep : vm.fault id pageNumber = some (ok, vm')) :
    (ok = true ∧ ∃ f, (∀ j q, vm.Maps j q f → j = id) ∧
      (∀ g, vm.Maps id pageNumber g → g = f) ∧
      vm'.phys.freeFrame.numBits = vm.phys.freeFrame.numBits ∧
      (∀ g, vm'.phys.freeFrame.testBit g =
        (decide (f = g) || vm.phys.freeFrame.testBit g)) ∧
      ∀ j q g, vm'.Maps j q g ↔ (j = id ∧ q = pageNumber ∧ g = f) ∨
        (¬ (j = id ∧ q = pageNumber) ∧ g ≠ f ∧ vm.Maps j q g)) ∨
    (ok = false ∧ vm'.phys = vm.phys ∧ ∀ j q g, vm'.Maps j q g ↔ vm.Maps j q g) := by
  obtain ⟨sp, hsp, hp, rfl, rfl, -⟩ := fault_inv hstep
  rcases AddrSpace.load_frames (h.wf id sp hsp) (h.owns hsp) hp with
    ⟨f, hf, hkeep, hok, hmaps, hbits, htest⟩ | ⟨-, hfail⟩
  · -- `f` was clear or held by a page of this very process
    have hother : ∀ j q, vm.Maps j q f → j = id := by
      intro j q hm
      rcases hf with ⟨hclear, -⟩ | ⟨r, hr⟩
      · rw [h.marked hm] at hclear
        exact Bool.noConfusion hclear
      · exact (h.exclusive j id q r f hm ⟨sp, hsp, hr⟩).1
    refine Or.inl ⟨hok, f, hother, ?_, hbits, htest, fun j q g => ?_⟩
    · rintro g ⟨sp', hsp', hm⟩
      obtain rfl : sp = sp' := Option.some.inj (hsp.symm.trans hsp')
      exact hkeep g hm
    · rw [maps_update]
      by_cases hj : j = id
      · subst hj
        simp [hmaps, Vm.Maps, hsp]
      · have hne : vm.Maps j q g → g ≠ f := by
          rintro hm rfl
          exact hj (hother j q hm)
        simp only [hj, false_and, not_false_eq_true, true_and, false_or,
          ne_eq]
        exact ⟨fun hm => ⟨hne hm, hm⟩, And.right⟩
  · refine Or.inr ⟨by rw [hfail], by rw [hfail], fun j q g => ?_⟩
    rw [hfail, maps_update]
    by_cases hj : j = id
    · subst hj
      simp [Vm.Maps, hsp]
    · simp [Vm.Maps, hj]

theorem FrameInv.fault {vm vm' : Vm} {id pageNumber : ℕ} {ok : Bool}
    (h : FrameInv vm) (hstep : vm.fault id pageNumber = some (ok, vm')) :
    FrameInv vm' := by
  have hwf : ∀ j sp, vm'.spaces j = some sp → sp.Wf := by
    obtain ⟨sp, hsp, hp, -, rfl, -⟩ := fault_inv hstep
    refine wf_update h.wf ?_
    rintro _ ⟨⟩
    exact AddrSpace.load_wf (h.wf id sp hsp) hp h.numBits
  rcases h.maps_fault hstep with
    ⟨-, f, -, hkeep, hbits, htest, hnew⟩ | ⟨-, hphys, hsame⟩
  · refine ⟨hbits.trans h.numBits, hwf, fun g hg => ?_, ?_⟩
    · rw [htest g]
      simp only [hnew, Bool.or_eq_true, decide_eq_true_eq, h.marked_iff g hg]
      constructor
      · rintro (rfl | ⟨j, q, hm⟩)
        · exact ⟨id, pageNumber, Or.inl ⟨rfl, rfl, rfl⟩⟩
        · by_cases hgf : g = f
          · exact ⟨id, pageNumber, Or.inl ⟨rfl, rfl, hgf⟩⟩
          · refine ⟨j, q, Or.inr ⟨?_, hgf, hm⟩⟩
            rintro ⟨rfl, rfl⟩
            exact hgf (hkeep g hm)
      · rintro ⟨j, q, ⟨-, -, rfl⟩ | ⟨-, -, hm⟩⟩
        · exact Or.inl rfl
        · exact Or.inr ⟨j, q, hm⟩
    · intro i j p q g hi hj
      rcases (hnew _ _ _).mp hi with ⟨rfl, rfl, rfl⟩ | ⟨-, hgi, hi⟩ <;>
        rcases (hnew _ _ _).mp hj with ⟨rfl, rfl, hgj⟩ | ⟨-, hgj, hj⟩
      · exact ⟨rfl, rfl⟩
      · exact absurd rfl hgj
      · exact absurd hgj hgi
      · exact h.exclusive i j p q g hi hj
  · exact h.of_maps_iff hwf (by rw [hphys]) hsame

theorem readMem_ok_inv {vm vm' : Vm} {id : ℕ} {addr value : BitVec 32}
    {size : Width} (hstep : vm.readMem id addr size = some (.ok (value, vm'))) :
    ∃ sp sp', vm.spaces id = some sp ∧
      Machine.readMem vm.phys.mainMemory sp addr size = .ok (value, sp') ∧
      vm' = { vm with spaces := Function.update vm.spaces id (some sp') } := by
  obtain ⟨sp, hsp, hread⟩ := Option.map_eq_some_iff.mp hstep
  cases hr : Machine.readMem vm.phys.mainMemory sp addr size with
  | error e =>
      rw [hr] at hread
      cases hread
  | ok r =>
      rw [hr] at hread
      cases hread
      exact ⟨sp, r.2, hsp, hr, rfl⟩

theorem writeMem_ok_inv {vm vm' : Vm} {id : ℕ} {addr value : BitVec 32}
    {size : Width} (hstep : vm.writeMem id addr size value = some (.ok vm')) :
    ∃ sp sp' mem, vm.spaces id = some sp ∧
      Machine.writeMem vm.phys.mainMemory sp addr size value = .ok (mem, sp') ∧
      vm' = ⟨{ vm.phys with mainMemory := mem },
        Function.update vm.spaces id (some sp')⟩ := by
  obtain ⟨sp, hsp, hwrite⟩ := Option.map_eq_some_iff.mp hstep
  cases hw : Machine.writeMem vm.phys.mainMemory sp addr size value with
  | error e =>
      rw [hw] at hwrite
      cases hwrite
  | ok r =>
      rw [hw] at hwrite
      cases hwrite
      exact ⟨sp, r.2, r.1, hsp, hw, rfl⟩

theorem maps_update_touch {vm : Vm} {phys : PhysMemory} {id p : ℕ} {sp : AddrSpace}
    {w : Bool} (hsp : vm.spaces id = some sp) (j q f : ℕ) :
    Vm.Maps ⟨phys, Function.update vm.spaces id (some (sp.touch p w))⟩ j q f ↔
      vm.Maps j q f := by
  rw [maps_update]
  by_cases hj : j = id
  · subst hj
    simp [Vm.Maps, hsp]
  · simp [Vm.Maps, hj]

theorem FrameInv.maps_readMem {vm vm' : Vm} {id : ℕ} {addr value : BitVec 32}
    {size : Width} (h : FrameInv vm)
    (hstep : vm.readMem id addr size = some (.ok (value, vm'))) (j q f : ℕ) :
    vm'.Maps j q f ↔ vm.Maps j q f := by
  obtain ⟨sp, sp', hsp, hr, rfl⟩ := readMem_ok_inv hstep
  obtain ⟨g, -, -, -, rfl⟩ := readMem_inv (h.wf id sp hsp) hr
  exact maps_update_touch hsp j q f

theorem FrameInv.maps_writeMem {vm vm' : Vm} {id : ℕ} {addr value : BitVec 32}
    {size : Width} (h : FrameInv vm)
    (hstep : vm.writeMem id addr size value = some (.ok vm')) (j q f : ℕ) :
    vm'.Maps j q f ↔ vm.Maps j q f := by
  obtain ⟨sp, sp', mem, hsp, hw, rfl⟩ := writeMem_ok_inv hstep
  obtain ⟨g, -, -, -, rfl⟩ := writeMem_inv (h.wf id sp hsp) hw
  exact maps_update_touch hsp j q f

/-- An access only sets the use and dirty bits of an entry. -/
theorem FrameInv.touch {vm : Vm} {id p : ℕ} {sp : AddrSpace} {w : Bool}
    (h : FrameInv vm) (hsp : vm.spaces id = some sp) (mem : ByteMem) :
    FrameInv ⟨{ vm.phys with mainMemory := mem },
      Function.update vm.spaces id (some (sp.touch p w))⟩ := by
  refine h.of_maps_iff (wf_update h.wf ?_) rfl (maps_update_touch hsp)
  rintro _ ⟨⟩
  exact (h.wf id sp hsp).touch p w

theorem FrameInv.readMem {vm vm' : Vm} {id : ℕ} {addr value : BitVec 32}
    {size : Width} (h : FrameInv vm)
    (hstep : vm.readMem id addr size = some (.ok (value, vm'))) :
    FrameInv vm' := by
  obtain ⟨sp, sp', hsp, hr, rfl⟩ := readMem_ok_inv hstep
  obtain ⟨f, -, -, -, rfl⟩ := readMem_inv (h.wf id sp hsp) hr
  exact h.touch hsp vm.phys.mainMemory

theorem FrameInv.writeMem {vm vm' : Vm} {id : ℕ} {addr value : BitVec 32}
    {size : Width} (h : FrameInv vm)
    (hstep : vm.writeMem id addr size value = some (.ok vm')) :
    FrameInv vm' := by
  obtain ⟨sp, sp', mem, hsp, hw, rfl⟩ := writeMem_ok_inv hstep
  obtain ⟨f, -, -, -, rfl⟩ := writeMem_inv (h.wf id sp hsp) hw
  exact h.touch hsp mem

theorem destroy_inv {vm vm' : Vm} {id : ℕ} (hstep : vm.destroy id = some vm') :
    ∃ sp freeFrame, vm.spaces id = some sp ∧
      sp.destroy vm.phys.freeFrame = some freeFrame ∧
      vm' = ⟨{ vm.phys with freeFrame := freeFrame },
        Function.update vm.spaces id none⟩ := by
  unfold Vm.destroy at hstep
  split at hstep
  · cases hstep
  rename_i sp hsp
  obtain ⟨b, hb, rfl⟩ := Option.map_eq_some_iff.mp hstep
  exact ⟨sp, b, hsp, hb, rfl⟩

theorem maps_destroy {vm vm' : Vm} {id : ℕ} (hstep : vm.destroy id = some vm')
    (j p f : ℕ) : vm'.Maps j p f ↔ j ≠ id ∧ vm.Maps j p f := by
  obtain ⟨sp, b, -, -, rfl⟩ := destroy_inv hstep
  rw [maps_update]
  simp [Vm.Maps]

theorem FrameInv.destroy {vm vm' : Vm} {id : ℕ} (h : FrameInv vm)
    (hstep : vm.destroy id = some vm') : FrameInv vm' := by
  have hnew := maps_destroy hstep
  obtain ⟨sp, b, hsp, hb, rfl⟩ := destroy_inv hstep
  obtain ⟨b', hb', hbits, htest⟩ := destroy_spec (h.wf id sp hsp) h.numBits
  rw [hb] at hb'
  cases hb'
  refine ⟨hbits, wf_update h.wf (by simp), fun f hf => ?_, ?_⟩
  · rw [htest f, h.marked_iff f hf]
    simp only [hnew]
    constructor
    · rintro ⟨⟨j, p, hm⟩, hno⟩
      refine ⟨j, p, ?_, hm⟩
      rintro rfl
      obtain ⟨sp', hsp', hm⟩ := hm
      rw [hsp] at hsp'
      cases hsp'
      exact hno p hm
    · rintro ⟨j, p, hj, hm⟩
      refine ⟨⟨j, p, hm⟩, fun q hq => hj ?_⟩
      exact (h.exclusive j id p q f hm ⟨sp, hsp, hq⟩).1
  · intro i j p q f hi hj
    exact h.exclusive i j p q f ((hnew _ _ _).mp hi).2 ((hnew _ _ _).mp hj).2

theorem FrameInv.step {vm vm' : Vm} {a : VmAct} (h : FrameInv vm)
    (hstep : vm.step a = some vm') : FrameInv vm' := by
  cases a with
  | construct id executable => exact h.construct hstep
  | fault id pageNumber =>
      obtain ⟨⟨ok, vm₁⟩, hfault, rfl⟩ := Option.map_eq_some_iff.mp hstep
      exact h.fault hfault
  | readMem id addr size =>
      obtain ⟨r, hr, rfl⟩ := Option.map_eq_some_iff.mp hstep
      cases r with
      | error e => exact h
      | ok r => exact h.readMem hr
  | writeMem id addr size value =>
      obtain ⟨r, hr, rfl⟩ := Option.map_eq_some_iff.mp hstep
      cases r with
      | error e => exact h
      | ok vm₁ => exact h.writeMem hr
  | destroy id => exact h.destroy hstep

/-- What a step does to the address space of one process. -/
theorem FrameInv.step_space {vm vm' : Vm} {a : VmAct} (h : FrameInv vm)
    (hstep : vm.step a = some vm') {id : ℕ} {sp' : AddrSpace}
    (hsp' : vm'.spaces id = some sp') :
    vm.spaces id = some sp' ∨
    (vm.spaces id = none ∧ ∃ executable, AddrSpace.new executable = some sp') ∨
    ∃ sp, vm.spaces id = some sp ∧
      ((∃ page < sp.numPages, a = .fault id page ∧
        sp' = (sp.loaded vm.phys page).2.2) ∨ ∃ p w, sp' = sp.touch p w) := by
  -- one address space is replaced, the others stay
  have replaced : ∀ {spaces : ℕ → Option AddrSpace} {j : ℕ} {x : AddrSpace},
      Function.update spaces j (some x) id = some sp' →
        (id = j ∧ sp' = x) ∨ spaces id = some sp' := by
    intro spaces j x heq
    by_cases hj : id = j
    · subst hj
      rw [Function.update_self] at heq
      exact Or.inl ⟨rfl, (Option.some.inj heq).symm⟩
    · rw [Function.update_of_ne hj] at heq
      exact Or.inr heq
  cases a with
  | construct j executable =>
      obtain ⟨sp, hnone, hnew, rfl⟩ := construct_inv hstep
      rcases replaced hsp' with ⟨rfl, rfl⟩ | hold
      · exact Or.inr (Or.inl ⟨hnone, executable, hnew⟩)
      · exact Or.inl hold
  | fault j page =>
      obtain ⟨⟨ok, vm₁⟩, hfault, rfl⟩ := Option.map_eq_some_iff.mp hstep
      obtain ⟨sp, hsp, hp, -, rfl, -⟩ := fault_inv hfault
      rcases replaced hsp' with ⟨rfl, rfl⟩ | hold
      · exact Or.inr (Or.inr ⟨sp, hsp, Or.inl ⟨page, hp, rfl, rfl⟩⟩)
      · exact Or.inl hold
  | readMem j addr size =>
      obtain ⟨r, hr, rfl⟩ := Option.map_eq_some_iff.mp hstep
      cases r with
      | error e => exact Or.inl hsp'
      | ok r =>
          obtain ⟨sp, x, hsp, hread, hvm⟩ := readMem_ok_inv hr
          obtain ⟨f, -, -, -, rfl⟩ := readMem_inv (h.wf j sp hsp) hread
          simp only [hvm] at hsp'
          rcases replaced hsp' with ⟨rfl, rfl⟩ | hold
          · exact Or.inr (Or.inr ⟨sp, hsp, Or.inr ⟨_, _, rfl⟩⟩)
          · exact Or.inl hold
  | writeMem j addr size value =>
      obtain ⟨r, hr, rfl⟩ := Option.map_eq_some_iff.mp hstep
      cases r with
      | error e => exact Or.inl hsp'
      | ok vm₁ =>
          obtain ⟨sp, x, mem, hsp, hwrite, hvm⟩ := writeMem_ok_inv hr
          obtain ⟨f, -, -, -, rfl⟩ := writeMem_inv (h.wf j sp hsp) hwrite
          simp only [hvm] at hsp'
          rcases replaced hsp' with ⟨rfl, rfl⟩ | hold
          · exact Or.inr (Or.inr ⟨sp, hsp, Or.inr ⟨_, _, rfl⟩⟩)
          · exact Or.inl hold
  | destroy j =>
      obtain ⟨sp, b, -, -, rfl⟩ := destroy_inv hstep
      refine Or.inl ?_
      by_cases hj : id = j
      · subst hj
        simp at hsp'
      · exact (Function.update_of_ne hj _ _).symm.trans hsp'

/-! ## §5  Every reachable state -/

theorem frameInv_of_run : ∀ as vm,
    PartialMachine.run Vm.step Vm.init as = some vm → FrameInv vm :=
  PartialMachine.run_invariant frameInv_init fun _ _ _ h hstep => h.step hstep

/-- Frame exclusivity, in the terms of the page tables and of the bitmap. -/
structure FramesExclusive (vm : Vm) : Prop where
  valid_iff : ∀ id sp, vm.spaces id = some sp → ∀ p < sp.numPages,
    ((sp.pageTable p).valid = true ↔
      0 ≤ (sp.pageTable p).physicalPage ∧
      (sp.pageTable p).physicalPage < NumPhysPages)
  marked : ∀ id sp, vm.spaces id = some sp → ∀ p < sp.numPages,
    (sp.pageTable p).valid = true →
    vm.phys.freeFrame.test (sp.pageTable p).physicalPage = some true
  exclusive : ∀ i j sp sq p q, vm.spaces i = some sp → vm.spaces j = some sq →
    p < sp.numPages → q < sq.numPages →
    (sp.pageTable p).valid = true → (sq.pageTable q).valid = true →
    (sp.pageTable p).physicalPage = (sq.pageTable q).physicalPage →
    i = j ∧ p = q

theorem FrameInv.framesExclusive {vm : Vm} (h : FrameInv vm) :
    FramesExclusive vm where
  valid_iff id sp hsp p hp := by
    refine ⟨(h.wf id sp hsp).valid_range p hp, fun hr => ?_⟩
    by_contra hv
    have := (h.wf id sp hsp).invalid p hp (by simpa using hv)
    simp only [IN_SWAP_FILE] at this
    omega
  marked id sp hsp p hp hv := by
    obtain ⟨hm, hlt⟩ := (h.wf id sp hsp).maps_of_valid hp hv
    rw [hm.2.2, BitMap.test_natCast (h.numBits ▸ hlt), h.marked ⟨sp, hsp, hm⟩]
  exclusive i j sp sq p q hsp hsq hp hq hvp hvq heq := by
    obtain ⟨hmp, -⟩ := (h.wf i sp hsp).maps_of_valid hp hvp
    obtain ⟨hmq, -⟩ := (h.wf j sq hsq).maps_of_valid hq hvq
    rw [heq] at hmp
    exact h.exclusive i j p q _ ⟨sp, hsp, hmp⟩ ⟨sq, hsq, hmq⟩

/-- **Frame exclusivity.** In every reachable state a page-table entry is valid
iff its `physicalPage` is a frame number; that frame is marked; and no two valid
entries, of whatever address spaces, hold the same frame. -/
theorem frames_exclusive (as : List VmAct) (vm : Vm)
    (hrun : PartialMachine.run Vm.step Vm.init as = some vm) :
    FramesExclusive vm :=
  (frameInv_of_run as vm hrun).framesExclusive

/-- An executable with `size` bytes of code, all zero. -/
def zeroProgram (size : BitVec 32) : RandomAccessFile where
  size := 40
  data := ByteMem.write (ByteMem.write (fun _ => 0) 0 (wordBytes NOFFMAGIC)) 12
    (wordBytes size)

/-- Process 0 takes all 48 frames; then process 1 is constructed. -/
def hog : List VmAct :=
  .construct 0 (zeroProgram 5120) ::
    ((List.range 48).map (VmAct.fault 0) ++ [.construct 1 (zeroProgram 0)])

theorem run_hog : (PartialMachine.run Vm.step Vm.init hog).isSome = true := by
  decide +kernel

theorem frames_exclusive_hog :
    ∃ vm, PartialMachine.run Vm.step Vm.init hog = some vm ∧
      FramesExclusive vm := by
  obtain ⟨vm, hvm⟩ := Option.isSome_iff_exists.mp run_hog
  exact ⟨vm, hvm, frames_exclusive hog vm hvm⟩

/-! ## §6  When a page fault is served -/

/-- What a page fault of process `id` does when it is served: the page is valid
afterwards. -/
theorem FrameInv.fault_valid {vm vm' : Vm} {id p : ℕ} (h : FrameInv vm)
    (hstep : vm.fault id p = some (true, vm')) :
    ∃ sp, vm'.spaces id = some sp ∧ (sp.pageTable p).valid = true := by
  obtain ⟨sp, hsp, hp, hok, rfl, -⟩ := fault_inv hstep
  exact ⟨_, Function.update_self .., AddrSpace.load_valid (h.wf id sp hsp) hp hok.symm⟩

/-- The other processes hold every frame. -/
def Vm.FramesTaken (vm : Vm) (id : ℕ) : Prop :=
  ∀ f < NumPhysPages, ∃ j q, j ≠ id ∧ vm.Maps j q f

/-- Then no frame can be had, and only then. -/
theorem FrameInv.noFrame_iff {vm : Vm} {id : ℕ} {sp : AddrSpace} (h : FrameInv vm)
    (hsp : vm.spaces id = some sp) : sp.NoFrame vm.phys.freeFrame ↔ vm.FramesTaken id := by
  have hwf := h.wf id sp hsp
  constructor
  · rintro ⟨hall, hnone⟩ f hf
    obtain ⟨j, q, hm⟩ := (h.marked_iff f hf).mp (hall f (h.numBits.symm ▸ hf))
    refine ⟨j, q, ?_, hm⟩
    rintro rfl
    obtain ⟨sp', hsp', hm⟩ := hm
    rw [hsp] at hsp'
    cases hsp'
    exact AddrSpace.not_maps_of_invalid (hnone q hm.1) hm
  · intro hall
    constructor
    · intro f hf
      obtain ⟨j, q, -, hm⟩ := hall f (h.numBits ▸ hf)
      exact h.marked hm
    · -- a page of this process would hold a frame that another process holds
      intro q hq
      by_contra hv
      obtain ⟨hm, hlt⟩ := hwf.maps_of_valid hq (by simpa using hv)
      obtain ⟨j, r, hj, hr⟩ := hall _ hlt
      exact hj (h.exclusive j id r q _ hr ⟨sp, hsp, hm⟩).1

/-- A page fault fails exactly when the other processes hold every frame. -/
theorem FrameInv.fault_false_iff {vm vm' : Vm} {id p : ℕ} {ok : Bool}
    (h : FrameInv vm) (hstep : vm.fault id p = some (ok, vm')) :
    ok = false ↔ vm.FramesTaken id := by
  obtain ⟨sp, hsp, hp, rfl, -, hload⟩ := fault_inv hstep
  rw [← h.noFrame_iff hsp, ← AddrSpace.loadFromExecutable_false_iff (h.wf id sp hsp) hp, hload]
  constructor
  · intro hok
    exact ⟨(sp.loaded vm.phys p).2, by rw [← hok]⟩
  · rintro ⟨r, hr⟩
    rw [Option.some.inj hr]

/-- It stops Nachos exactly when there is a frame for a page that cannot be read. -/
theorem FrameInv.fault_none_iff {vm : Vm} {id p : ℕ} {sp : AddrSpace} (h : FrameInv vm)
    (hsp : vm.spaces id = some sp) (hp : p < sp.numPages) : vm.fault id p = none ↔
      (sp.pageTable p).valid = false ∧ ¬ vm.FramesTaken id ∧ sp.Unreadable p := by
  rw [← h.noFrame_iff hsp, ← AddrSpace.loadFromExecutable_eq_none_iff (h.wf id sp hsp) hp]
  simp [Vm.fault, hsp, hp]

/-- **Demand paging serves a fault unless the other processes hold every
frame**, and then the page is valid; or Nachos stops, because the page is neither
in memory nor in the swap file and its position in the executable is negative. -/
theorem fault_served_iff (as : List VmAct) (vm : Vm)
    (hrun : PartialMachine.run Vm.step Vm.init as = some vm) (id p : ℕ)
    (sp : AddrSpace) (hsp : vm.spaces id = some sp) (hp : p < sp.numPages) :
    (vm.fault id p = none ↔
      (sp.pageTable p).valid = false ∧ ¬ vm.FramesTaken id ∧ sp.Unreadable p) ∧
    ∀ ok vm', vm.fault id p = some (ok, vm') →
      (ok = true ↔ ¬ vm.FramesTaken id) ∧
      (ok = true → ∃ sp', vm'.spaces id = some sp' ∧ (sp'.pageTable p).valid = true) := by
  have h := frameInv_of_run as vm hrun
  refine ⟨h.fault_none_iff hsp hp, fun ok vm' hstep => ⟨?_, ?_⟩⟩
  · rw [← h.fault_false_iff hstep, Bool.not_eq_false]
  · rintro rfl
    exact h.fault_valid hstep

/-- The first fault of a process that starts when every frame is taken. -/
theorem fault_served_iff_hog : ∃ vm sp,
    PartialMachine.run Vm.step Vm.init hog = some vm ∧ vm.spaces 1 = some sp ∧
    (vm.fault 1 0 = none ↔
      (sp.pageTable 0).valid = false ∧ ¬ vm.FramesTaken 1 ∧ sp.Unreadable 0) ∧
    ∀ ok vm', vm.fault 1 0 = some (ok, vm') →
      (ok = true ↔ ¬ vm.FramesTaken 1) ∧
      (ok = true → ∃ sp', vm'.spaces 1 = some sp' ∧ (sp'.pageTable 0).valid = true) := by
  have hspace : (do
      let vm ← PartialMachine.run Vm.step Vm.init hog
      let sp ← vm.spaces 1
      if 0 < sp.numPages then some (vm, sp) else none).isSome = true := by
    decide +kernel
  obtain ⟨⟨vm, sp⟩, hspace⟩ := Option.isSome_iff_exists.mp hspace
  simp only [Option.bind_eq_bind, Option.bind_eq_some_iff,
    Option.ite_none_right_eq_some, Option.some.injEq, Prod.mk.injEq] at hspace
  obtain ⟨vm₁, hvm, sp₁, hsp, hp, rfl, rfl⟩ := hspace
  exact ⟨vm₁, sp₁, hvm, hsp, fault_served_iff hog vm₁ hvm 1 0 sp₁ hsp hp⟩

/-- Process 1 is finished at its first fault, for lack of a frame. -/
theorem fault_not_served : (do
    let vm ← PartialMachine.run Vm.step Vm.init hog
    let sp ← vm.spaces 1
    let (ok, _) ← vm.fault 1 0
    pure (decide (0 < sp.numPages), ok)) = some (true, false) := by
  decide +kernel

end OsAssignments.MemoryManagement
