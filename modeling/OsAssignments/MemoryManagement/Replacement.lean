import OsAssignments.Lib.Recency
import OsAssignments.MemoryManagement.Copy

/-!
# The replacement order

`loadedPages` is meant to have the resident pages in the order in which they were
loaded. A fault of the running program keeps it so. A fault of `CopyFromUser` is raised
twice, and the second `LoadFromExecutable` pushes the page again, which is there by then.

- `Pager.step` — page faults of the running programs and of their copies, and other
  processes that start, fault and end.
- `Fifo` — every resident page once, in the order of the last load; it gives the oldest
  page as the victim and bounds the queue.
- `fifo_iff` — a run keeps the order exactly when no step puts a resident page into the
  queue again.
- `copy_queues_twice` — one byte copied from a page that is not there.
-/

namespace OsAssignments.MemoryManagement

open PartialMachine Recency

/-! ## §1  The machine -/

/-- All address spaces, and, for each process, the pages that its faults brought in,
oldest first, and whether its thread is finished. -/
structure Pager where
  vm : Vm
  loads : ℕ → List ℕ
  finished : ℕ → Bool

namespace Pager

def init : Pager := ⟨Vm.init, fun _ => [], fun _ => false⟩

def finish (s : Pager) (id : ℕ) : Pager :=
  { s with finished := Function.update s.finished id true }

/-- `LoadFromExecutable` for a page fault of process `id`. -/
def fault (s : Pager) (id page : ℕ) : Option Pager :=
  (s.vm.fault id page).map fun r =>
    if r.1 then { s with vm := r.2, loads := Function.update s.loads id (s.loads id ++ [page]) }
    else { s with vm := r.2 }.finish id

/-- What `ExceptionHandler` does when a user instruction raised `which`. -/
def exception (s : Pager) (id : ℕ) (which : ExceptionType) (badVaddr : BitVec 32) :
    Option Pager :=
  match which with
  | .PageFaultException => (Kernel.pageNumber badVaddr).bind (s.fault id)
  | .ReadOnlyException => some (s.finish id)
  | .BusErrorException => some (s.finish id)
  | .AddressErrorException => some (s.finish id)
  | .IllegalInstrException => some (s.finish id)
  | .OverflowException => some s
  | .NoException => none
  | .SyscallException => none

inductive Act where
  | construct (id : ℕ) (executable : RandomAccessFile)
  /-- A user instruction reads. -/
  | load (id : ℕ) (addr : BitVec 32) (size : Width)
  /-- A user instruction writes. -/
  | store (id : ℕ) (addr : BitVec 32) (size : Width) (value : BitVec 32)
  /-- `CopyFromUser` fetches a byte, in so many turns of its loop. -/
  | copy (id : ℕ) (addr : BitVec 32) (turns : ℕ)
  | destroy (id : ℕ)

/-- The page of the byte is logged when it was not there. -/
def copied (s : Pager) (id : ℕ) (sp : AddrSpace) (addr : BitVec 32) (u : UserMem) : Pager :=
  let page := addr.toNat / PageSize
  { s with
    vm := s.vm.put id u
    loads := if (sp.pageTable page).valid then s.loads
      else Function.update s.loads id (s.loads id ++ [page]) }

/-- A finished thread does nothing any more. A copy that does not return is no step. -/
def step (s : Pager) : Act → Option Pager
  | .construct id executable => (s.vm.construct id executable).map fun vm =>
      ⟨vm, Function.update s.loads id [], Function.update s.finished id false⟩
  | .load id addr size =>
      if s.finished id then none
      else (s.vm.readMem id addr size).bind fun
        | .ok (_, vm) => some { s with vm := vm }
        | .error which => s.exception id which addr
  | .store id addr size value =>
      if s.finished id then none
      else (s.vm.writeMem id addr size value).bind fun
        | .ok vm => some { s with vm := vm }
        | .error which => s.exception id which addr
  | .copy id addr turns =>
      if s.finished id then none
      else (s.vm.spaces id).bind fun sp =>
        match fetch addr turns (.start ⟨s.vm.phys, sp⟩ fun _ => 0) with
        | .ok _ t => some (s.copied id sp addr t.user)
        | .error .finished t => some ({ s with vm := s.vm.put id t.user }.finish id)
        | .error _ _ => none
  | .destroy id => (s.vm.destroy id).map fun vm => { s with vm := vm }

end Pager

/-! ## §2  The order of the queue -/

/-- Page `p` is in a frame. -/
def AddrSpace.resident (sp : AddrSpace) (p : ℕ) : Bool :=
  decide (p < sp.numPages) && (sp.pageTable p).valid

/-- **First in, first out**: the queue has every resident page once and no other, in the
order of the last load; `SwapOut`, which sees the new page behind them, takes the one
that was loaded longest ago. -/
structure Fifo (sp : AddrSpace) (loads : List ℕ) : Prop where
  order : sp.loadedPages = byRecency loads sp.resident
  once : sp.loadedPages.Nodup
  mem_iff : ∀ p, p ∈ sp.loadedPages ↔ sp.resident p = true
  length_le : sp.loadedPages.length ≤ sp.numPages
  oldest : ∀ mem p v rest, byRecency loads sp.resident = v :: rest →
    (sp.enqueue p).swapOut mem =
      ((sp.pageTable v).physicalPage, (sp.enqueue p).evict mem v (rest ++ [p]))

section Queue

variable {sp : AddrSpace} {loads : List ℕ} {p : ℕ}

theorem AddrSpace.resident_iff : sp.resident p = true ↔
    p < sp.numPages ∧ (sp.pageTable p).valid = true := by
  simp [AddrSpace.resident]

/-- The victim is the front of a queue of resident pages. -/
theorem AddrSpace.swapOut_front {v : ℕ} {rest : List ℕ} (mem : ByteMem)
    (hq : sp.loadedPages = v :: rest) (hv : (sp.pageTable v).valid = true) :
    (sp.enqueue p).swapOut mem =
      ((sp.pageTable v).physicalPage, (sp.enqueue p).evict mem v (rest ++ [p])) := by
  simp [swapOut, enqueue, hq, seekVictim, hv]

/-- The order is enough: the invariant of the address space gives the rest. -/
theorem Fifo.of_order (h : sp.Wf) (horder : sp.loadedPages = byRecency loads sp.resident) :
    Fifo sp loads where
  order := horder
  once := horder ▸ nodup_byRecency loads sp.resident
  mem_iff q := by
    constructor
    · intro hq
      rw [horder] at hq
      exact (mem_byRecency.mp hq).2
    · intro hq
      obtain ⟨hlt, hv⟩ := AddrSpace.resident_iff.mp hq
      exact h.queued q hlt hv
  length_le := by
    have hnodup : sp.loadedPages.Nodup := horder ▸ nodup_byRecency loads sp.resident
    have hsubset : sp.loadedPages ⊆ List.range sp.numPages :=
      fun q hq => List.mem_range.mpr (h.queue_lt q hq)
    simpa using (hnodup.subperm hsubset).length_le
  oldest mem q v rest hlist := by
    have hv : v ∈ byRecency loads sp.resident := hlist ▸ List.mem_cons_self
    exact AddrSpace.swapOut_front mem (horder.trans hlist)
      (AddrSpace.resident_iff.mp (mem_byRecency.mp hv).2).2

/-- Loading a page that is there only pushes it. -/
theorem UserMem.load_resident {u : UserMem} (hv : (u.sp.pageTable p).valid = true) :
    u.load p = ⟨u.phys, u.sp.enqueue p⟩ := by
  have hload : u.sp.loadFromExecutable u.phys p = some (true, u.phys, u.sp.enqueue p) := by
    simp [AddrSpace.loadFromExecutable, hv, AddrSpace.enqueue]
  rw [UserMem.load, AddrSpace.loaded_of_eq_some hload]

theorem fifo_new {executable : RandomAccessFile} (h : AddrSpace.new executable = some sp) :
    Fifo sp [] := by
  refine Fifo.of_order (AddrSpace.new_wf h).1 ?_
  simp only [AddrSpace.new] at h
  split at h
  · cases h
    rfl
  · cases h

theorem Fifo.touch (hf : Fifo sp loads) (h : sp.Wf) (q : ℕ) (w : Bool) :
    Fifo (sp.touch q w) loads := by
  refine Fifo.of_order (h.touch q w) ?_
  have hsame : ∀ x, (sp.touch q w).resident x = sp.resident x := by
    intro x
    rw [AddrSpace.resident, AddrSpace.resident, AddrSpace.valid_touch]
    rfl
  rw [byRecency_congr hsame]
  exact hf.order

/-- **A page comes in**, and the oldest one leaves if no frame is clear. -/
theorem Fifo.load (hf : Fifo sp loads) {pm : PhysMemory} (h : sp.Wf)
    (hbits : pm.freeFrame.numBits = NumPhysPages) (hp : p < sp.numPages)
    (hv : (sp.pageTable p).valid = false) (hload : (sp.loaded pm p).1 = true) :
    Fifo (sp.loaded pm p).2.2 (loads ++ [p]) := by
  refine Fifo.of_order (AddrSpace.load_wf h hp hbits) ?_
  have hmiss : sp.resident p = false := by
    simp [AddrSpace.resident, hv]
  have hsome := AddrSpace.loadFromExecutable_eq_some hload
  rcases pm.freeFrame.find_cases with ⟨f, hfind, -, -, -⟩ | ⟨hfind, -⟩
  · have heq : (sp.loaded pm p).2.2 = ((sp.enqueue p).filled pm.mainMemory p f).2 := by
      simp only [AddrSpace.loadFromExecutable, hv, hfind, Bool.false_eq_true, if_false] at hsome
      obtain ⟨r, hr, heq⟩ := Option.map_eq_some_iff.mp hsome
      rw [AddrSpace.filled, AddrSpace.enqueue, hr, Option.getD_some]
      exact (congrArg (fun x => x.2.2) heq).symm
    rw [heq, AddrSpace.loadedPages_filled, AddrSpace.loadedPages_enqueue, hf.order]
    refine (byRecency_snoc hmiss fun x => ?_).symm
    by_cases hx : x = p
    · subst hx
      simp [AddrSpace.resident, hp, AddrSpace.pageTable_filled_self]
    · simp [AddrSpace.resident, AddrSpace.pageTable_filled_ne _ _ _ hx, hx]
  · cases hlist : byRecency loads sp.resident with
    | nil =>
        -- nothing is resident: no page can give up its frame
        have hnone : (sp.enqueue p).swapOut pm.mainMemory = (-1, sp.enqueue p) := by
          have hempty := hf.order.trans hlist
          simp [AddrSpace.swapOut, AddrSpace.enqueue, hempty, seekVictim, hv]
        simp only [AddrSpace.enqueue] at hnone
        simp [AddrSpace.loadFromExecutable, hv, hfind, hnone] at hsome
    | cons v rest =>
        have hswap := hf.oldest pm.mainMemory p v rest hlist
        have hvmem : v ∈ byRecency loads sp.resident := hlist ▸ List.mem_cons_self
        obtain ⟨hvlt, hvv⟩ := AddrSpace.resident_iff.mp (mem_byRecency.mp hvmem).2
        have hr := h.valid_range v hvlt hvv
        have hne : (sp.pageTable v).physicalPage ≠ -1 := by omega
        have hpv : p ≠ v := by
          rintro rfl
          rw [hv] at hvv
          cases hvv
        have heq : (sp.loaded pm p).2.2 =
            (((sp.enqueue p).evict pm.mainMemory v (rest ++ [p])).filled pm.mainMemory p
              (sp.pageTable v).physicalPage.toNat).2 := by
          simp only [AddrSpace.enqueue] at hswap
          simp only [AddrSpace.loadFromExecutable, hv, hfind, hswap, hne, Bool.false_eq_true,
            if_false] at hsome
          obtain ⟨r, hr, heq⟩ := Option.map_eq_some_iff.mp hsome
          rw [AddrSpace.filled, AddrSpace.enqueue, hr, Option.getD_some]
          exact (congrArg (fun x => x.2.2) heq).symm
        rw [heq, AddrSpace.loadedPages_filled, AddrSpace.loadedPages_evict]
        -- first the oldest leaves, then the page comes in
        have hleft : byRecency loads (fun x => sp.resident x && decide (x ≠ v)) = rest :=
          byRecency_drop_head hlist fun x => rfl
        rw [← hleft]
        refine (byRecency_snoc (by simp [hmiss]) fun x => ?_).symm
        by_cases hx : x = p
        · subst hx
          simp [AddrSpace.resident, hp, AddrSpace.pageTable_filled_self]
        · by_cases hxv : x = v
          · subst hxv
            simp [AddrSpace.resident, AddrSpace.pageTable_filled_ne _ _ _ hx,
              AddrSpace.pageTable_evict_self, hx]
          · simp [AddrSpace.resident, AddrSpace.pageTable_filled_ne _ _ _ hx,
              AddrSpace.pageTable_evict_ne _ _ _ hxv, hx, hxv]

theorem not_nodup_snoc {q : List ℕ} (hp : p ∈ q) : ¬ (q ++ [p]).Nodup := by
  intro hnodup
  exact (List.nodup_append.mp hnodup).2.2 p hp p (List.mem_singleton_self p) rfl

/-- **A resident page is pushed again**: the queue has it twice. -/
theorem not_fifo_enqueue (hp : p ∈ sp.loadedPages) (loads : List ℕ) :
    ¬ Fifo (sp.enqueue p) loads := by
  intro hf
  have hnodup := hf.once
  rw [AddrSpace.loadedPages_enqueue] at hnodup
  exact not_nodup_snoc hp hnodup

end Queue

/-! ## §3  What a fetch does to the pages -/

theorem served_raise (vaddr badVaddr : BitVec 32) (which : ExceptionType) (s : CopyState) :
    Served ∅ s.user ((raiseException vaddr which badVaddr).after s).user := by
  cases which with
  | PageFaultException =>
      obtain ⟨u, hu, hafter⟩ := raise_after vaddr badVaddr s
      rw [hafter]
      exact hu
  | _ => exact .refl

/-- Whether it returns or not. -/
theorem served_fetch (addr : BitVec 32) (turns : ℕ) (s : CopyState) :
    Served ∅ s.user ((fetch addr turns).after s).user := by
  have hread : ∀ s : CopyState, Served ∅ s.user ((readMem addr).after s).user := by
    intro s
    cases hread : Machine.readMem s.user.phys.mainMemory s.user.sp addr .byte with
    | ok r =>
        rw [CopyM.after, readMem, hread]
        exact Served.refl.read addr .byte hread
    | error which =>
        have hraise : (readMem addr).after s =
            (do raiseException addr which addr; pure none :
              CopyM (Option (BitVec 32))).after s := by
          rw [CopyM.after, readMem, hread]
          rfl
        rw [hraise]
        exact CopyM.after_bind (R := fun s t => Served ∅ s.user t.user) Served.trans
          (served_raise addr addr which) (fun _ _ => .refl) s
  induction turns generalizing s with
  | zero => exact .refl
  | succ turns ih =>
      refine CopyM.after_bind (R := fun s t => Served ∅ s.user t.user) Served.trans hread
        (fun tmp => ?_) s
      cases tmp with
      | some tmp => exact fun _ => .refl
      | none =>
          exact CopyM.after_bind (R := fun s t => Served ∅ s.user t.user) Served.trans
            (served_raise addr addr _) fun _ => ih

/-- A fault that finishes the thread found no frame. -/
theorem raise_finished {s t : CopyState} {vaddr badVaddr : BitVec 32} (h : s.user.Sane)
    (hframe : ¬ s.user.NoFrame) :
    raiseException vaddr .PageFaultException badVaddr s ≠ .error .finished t := by
  intro herr
  unfold raiseException at herr
  dsimp only at herr
  split at herr
  · cases herr
  · split at herr
    · rename_i hp
      split at herr
      · cases herr
      · cases herr
      · rename_i hload
        exact hframe ((AddrSpace.loadFromExecutable_false_iff h.wf hp).mp ⟨_, hload⟩)
    · cases herr

/-- With a frame to be had, a fetch from a page of the address space does not finish the
thread. -/
theorem fetch_finished {addr : BitVec 32} {turns : ℕ} {s t : CopyState} (h : s.user.Sane)
    (hp : addr.toNat / PageSize < s.user.sp.numPages) (hframe : ¬ s.user.NoFrame) :
    fetch addr turns s ≠ .error .finished t := by
  induction turns generalizing s with
  | zero => exact fun herr => by cases herr
  | succ turns ih =>
      cases hv : (s.user.sp.pageTable (addr.toNat / PageSize)).valid with
      | true =>
          obtain ⟨b, -, hok⟩ := fetch_resident h hp hv turns
          rw [hok]
          exact fun herr => by cases herr
      | false =>
          -- a fault that returns leaves a page that is resident
          have hreturn : ∀ {r r' : CopyState}, r.user.Sane →
              raiseException addr .PageFaultException addr r = .ok () r' →
                r'.user.Sane ∧ r'.user.sp.numPages = r.user.sp.numPages ∧
                  ¬ r'.user.NoFrame := by
            intro r r' hr hok
            obtain ⟨page, -, hpage, hload, rfl⟩ := raise_eq_ok hok
            refine ⟨hr.load hpage, hr.numPages_load hpage, fun hnone => ?_⟩
            have hvalid := AddrSpace.load_valid hr.wf hpage hload
            have hinv := hnone.2 page ((hr.numPages_load hpage).symm ▸ hpage)
            exact Bool.false_ne_true (hinv.symm.trans hvalid)
          rw [fetch_missing h hp hv]
          intro herr
          cases hfirst : raiseException addr .PageFaultException addr s with
          | error e r =>
              rw [EStateM.bind_of_error hfirst] at herr
              cases herr
              exact raise_finished h hframe hfirst
          | ok _ r =>
              obtain ⟨hsane, hn, hframe'⟩ := hreturn h hfirst
              rw [EStateM.bind_of_ok hfirst] at herr
              cases hsecond : raiseException addr .PageFaultException addr r with
              | error e r' =>
                  rw [EStateM.bind_of_error hsecond] at herr
                  cases herr
                  exact raise_finished hsane hframe' hsecond
              | ok _ r' =>
                  obtain ⟨hsane', hn', hframe''⟩ := hreturn hsane hsecond
                  rw [EStateM.bind_of_ok hsecond] at herr
                  exact ih hsane' ((hn'.trans hn).symm ▸ hp) hframe'' herr

/-! ## §4  What a step does to the queues -/

namespace Pager

/-- The queues of the processes that are not finished are in order. -/
def Fifos (s : Pager) : Prop :=
  ∀ id sp, s.vm.spaces id = some sp → s.finished id = false → Fifo sp (s.loads id)

/-- Process `id` faults in a user instruction at `addr`, on a page that is there: the page
number of a negative address can be 0 without the page being page 0. -/
def UserRequeues (s : Pager) (id : ℕ) (addr : BitVec 32)
    (r : AddrSpace → Option ExceptionType) : Prop :=
  ∃ sp, s.vm.spaces id = some sp ∧ r sp = some .PageFaultException ∧
    ∃ page, Kernel.pageNumber addr = some page ∧ (sp.pageTable page).valid = true

/-- The exception of a user instruction. -/
def raised {α : Type} : Except ExceptionType α → Option ExceptionType
  | .ok _ => none
  | .error which => some which

/-- The step calls `LoadFromExecutable` for a page that is there: a byte is copied from a
page that is not, with a frame to be had, or a user instruction faults on a wrong page. -/
def Requeues (s : Pager) : Act → Prop
  | .construct _ _ => False
  | .load id addr size => s.UserRequeues id addr fun sp =>
      raised (Machine.readMem s.vm.phys.mainMemory sp addr size)
  | .store id addr size value => s.UserRequeues id addr fun sp =>
      raised (Machine.writeMem s.vm.phys.mainMemory sp addr size value)
  | .copy id addr _ => ∃ sp, s.vm.spaces id = some sp ∧
      addr.toNat / PageSize < sp.numPages ∧
      (sp.pageTable (addr.toNat / PageSize)).valid = false ∧
      ¬ UserMem.NoFrame ⟨s.vm.phys, sp⟩
  | .destroy _ => False

/-- A step of process `id`: the others keep what they have. -/
def SameBut (s t : Pager) (id : ℕ) : Prop :=
  ∀ j ≠ id, t.vm.spaces j = s.vm.spaces j ∧ t.loads j = s.loads j ∧
    t.finished j = s.finished j

variable {s t : Pager} {id : ℕ}

theorem Fifos.iff_of_sameBut (hf : s.Fifos) (id : ℕ) (h : SameBut s t id) :
    t.Fifos ↔ ∀ sp, t.vm.spaces id = some sp → t.finished id = false → Fifo sp (t.loads id) := by
  constructor
  · exact fun ht => ht id
  · intro ht j sp hsp hfin
    by_cases hj : j = id
    · subst hj
      exact ht sp hsp hfin
    · obtain ⟨hspaces, hloads, hfinished⟩ := h j hj
      rw [hspaces] at hsp
      rw [hfinished] at hfin
      rw [hloads]
      exact hf j sp hsp hfin

theorem sameBut_finish (s : Pager) (id : ℕ) : SameBut s (s.finish id) id := by
  intro j hj
  simp [finish, hj]

/-- The queue of a finished thread does not count. -/
theorem Fifos.of_finished (hf : s.Fifos) (id : ℕ) (h : SameBut s t id)
    (hfin : t.finished id = true) :
    t.Fifos := by
  refine (hf.iff_of_sameBut id h).mpr fun sp _ hnot => ?_
  rw [hfin] at hnot
  cases hnot

theorem Fifos.finish (hf : s.Fifos) : (s.finish id).Fifos :=
  hf.of_finished id (sameBut_finish s id) (Function.update_self ..)

/-- **A fault of a user instruction.** -/
theorem Fifos.fault_iff (hf : s.Fifos) (hi : FrameInv s.vm) (hfin : s.finished id = false)
    {page : ℕ} (hstep : s.fault id page = some t) {sp : AddrSpace}
    (hsp : s.vm.spaces id = some sp) :
    t.Fifos ↔ ¬ (sp.pageTable page).valid = true := by
  obtain ⟨⟨ok, vm⟩, hfault, heq⟩ := Option.map_eq_some_iff.mp hstep
  obtain ⟨sp', hsp', hp, rfl, rfl, hsome⟩ := fault_inv hfault
  obtain rfl : sp = sp' := Option.some.inj (hsp.symm.trans hsp')
  have hwf := hi.wf id sp hsp
  cases hload : (sp.loaded s.vm.phys page).1 with
  | false =>
      -- no frame: the thread is finished
      have hnone := ((AddrSpace.loadFromExecutable_false_iff hwf hp).mp
        ⟨(sp.loaded s.vm.phys page).2, by rw [hsome, ← hload]⟩).2 page hp
      rw [hload, if_neg Bool.false_ne_true] at heq
      subst heq
      refine iff_of_true ?_ (by rw [hnone]; exact Bool.false_ne_true)
      refine hf.of_finished id (fun j hj => ?_) (Function.update_self ..)
      simp [Pager.finish, hj]
  | true =>
      rw [hload, if_pos rfl] at heq
      subst heq
      rw [hf.iff_of_sameBut id fun j hj => by simp [hj]]
      simp only [Function.update_self, Option.some.injEq, forall_eq', hfin, forall_const]
      cases hv : (sp.pageTable page).valid with
      | true =>
          have hagain : (sp.loaded s.vm.phys page).2.2 = sp.enqueue page :=
            congrArg UserMem.sp (UserMem.load_resident (u := ⟨s.vm.phys, sp⟩) hv)
          rw [hagain]
          exact iff_of_false (not_fifo_enqueue (hwf.queued page hp hv) _) (not_not.mpr rfl)
      | false =>
          exact iff_of_true ((hf id sp hsp hfin).load hwf hi.numBits hp hv hload)
            Bool.false_ne_true

/-- An exception of a user instruction. -/
theorem Fifos.exception_iff (hf : s.Fifos) (hi : FrameInv s.vm) (hfin : s.finished id = false)
    {which : ExceptionType} {addr : BitVec 32} (hstep : s.exception id which addr = some t)
    {sp : AddrSpace} (hsp : s.vm.spaces id = some sp) :
    t.Fifos ↔ ¬ (which = .PageFaultException ∧
      ∃ page, Kernel.pageNumber addr = some page ∧ (sp.pageTable page).valid = true) := by
  -- the other exceptions finish the thread, or do nothing
  have hquiet : which ≠ .PageFaultException → t.Fifos → (t.Fifos ↔
      ¬ (which = .PageFaultException ∧
        ∃ page, Kernel.pageNumber addr = some page ∧ (sp.pageTable page).valid = true)) :=
    fun hne ht => iff_of_true ht fun h => hne h.1
  cases which with
  | PageFaultException =>
      obtain ⟨page, hpage, hfault⟩ := Option.bind_eq_some_iff.mp hstep
      refine (hf.fault_iff hi hfin hfault hsp).trans (not_congr ?_)
      simp [hpage]
  | ReadOnlyException =>
      cases hstep
      exact hquiet (by decide) hf.finish
  | BusErrorException =>
      cases hstep
      exact hquiet (by decide) hf.finish
  | AddressErrorException =>
      cases hstep
      exact hquiet (by decide) hf.finish
  | IllegalInstrException =>
      cases hstep
      exact hquiet (by decide) hf.finish
  | OverflowException =>
      cases hstep
      exact hquiet (by decide) hf
  | NoException => cases hstep
  | SyscallException => cases hstep

/-- A completed access sets the use and dirty bits. -/
theorem Fifos.touched (hf : s.Fifos) (hi : FrameInv s.vm) {sp : AddrSpace}
    (hsp : s.vm.spaces id = some sp) (phys : PhysMemory) (q : ℕ) (w : Bool) :
    Fifos { s with vm := ⟨phys, Function.update s.vm.spaces id (some (sp.touch q w))⟩ } := by
  rw [hf.iff_of_sameBut id fun j hj => by simp [hj]]
  intro sp' hsp' hfin
  obtain rfl : sp.touch q w = sp' := by simpa using hsp'
  exact (hf id sp hsp hfin).touch (hi.wf id sp hsp) q w

/-- **A byte that is copied.** -/
theorem Fifos.copied_iff (hf : s.Fifos) (hi : FrameInv s.vm) (hfin : s.finished id = false)
    {sp : AddrSpace} (hsp : s.vm.spaces id = some sp) {addr : BitVec 32} {u : UserMem}
    (hacc : UserMem.access ⟨s.vm.phys, sp⟩ addr = some u) :
    (s.copied id sp addr u).Fifos ↔ (sp.pageTable (addr.toNat / PageSize)).valid = true := by
  have hsane := hi.sane hsp
  have hp := UserMem.page_of_access hacc
  have hbut : SameBut s (s.copied id sp addr u) id := by
    intro j hj
    refine ⟨Function.update_of_ne hj _ _, ?_, rfl⟩
    simp only [copied]
    split
    · rfl
    · exact Function.update_of_ne hj _ _
  rw [hf.iff_of_sameBut id hbut]
  have hspaces : (s.copied id sp addr u).vm.spaces id = some u.sp := Function.update_self ..
  simp only [hspaces, Option.some.injEq, forall_eq']
  cases hv : (sp.pageTable (addr.toNat / PageSize)).valid with
  | true =>
      rw [UserMem.access_resident hp hv] at hacc
      cases hacc
      refine iff_of_true (fun _ => ?_) rfl
      have hloads : (s.copied id sp addr ⟨s.vm.phys,
          sp.touch (addr.toNat / PageSize) false⟩).loads id = s.loads id := by
        simp [copied, hv]
      exact hloads ▸ (hf id sp hsp hfin).touch hsane.wf _ _
  | false =>
      rw [UserMem.access_missing hp hv] at hacc
      split at hacc
      · cases hacc
        rename_i hboth
        refine iff_of_false (fun hall => ?_) Bool.false_ne_true
        have hfifo := hall hfin
        -- the second load pushes the page that the first one brought in
        have hn := hsane.numPages_load hp
        have hvalid := AddrSpace.load_valid hsane.wf hp hboth.2
        have hmem : addr.toNat / PageSize ∈ (UserMem.load ⟨s.vm.phys, sp⟩
            (addr.toNat / PageSize)).sp.loadedPages :=
          (hsane.load hp).wf.queued _ (hn.symm ▸ hp) hvalid
        have honce := hfifo.once
        rw [UserMem.load_resident hvalid] at honce
        exact not_nodup_snoc hmem honce
      · cases hacc

/-- A user access, completed or not. -/
theorem Fifos.user_iff (hf : s.Fifos) (hi : FrameInv s.vm) (hfin : s.finished id = false)
    {addr : BitVec 32} {sp : AddrSpace} (hsp : s.vm.spaces id = some sp)
    {which : ExceptionType} {r : AddrSpace → Option ExceptionType} (hr : r sp = some which)
    (hstep : s.exception id which addr = some t) :
    t.Fifos ↔ ¬ s.UserRequeues id addr r := by
  refine (hf.exception_iff hi hfin hstep hsp).trans (not_congr ?_)
  constructor
  · rintro ⟨rfl, hpage⟩
    exact ⟨sp, hsp, hr, hpage⟩
  · rintro ⟨sp', hsp', hfault, hpage⟩
    obtain rfl : sp = sp' := Option.some.inj (hsp.symm.trans hsp')
    exact ⟨Option.some.inj (hr.symm.trans hfault), hpage⟩

theorem raised_of_map {α β : Type} {r : Except ExceptionType α} {f : α → β}
    {which : ExceptionType} (h : r.map f = .error which) : raised r = some which := by
  cases r with
  | ok a => cases h
  | error e =>
      cases h
      rfl

/-- Without an exception nothing is loaded. -/
theorem not_userRequeues {addr : BitVec 32} {sp : AddrSpace}
    (hsp : s.vm.spaces id = some sp) {r : AddrSpace → Option ExceptionType}
    (hr : r sp = none) : ¬ s.UserRequeues id addr r := by
  rintro ⟨sp', hsp', hfault, -⟩
  obtain rfl : sp = sp' := Option.some.inj (hsp.symm.trans hsp')
  rw [hr] at hfault
  cases hfault

/-- **What a step does, the machine does** in page faults and accesses. -/
theorem step_run {a : Act} (hstep : s.step a = some t) :
    ∃ as, PartialMachine.run Vm.step s.vm as = some t.vm := by
  have hexception : ∀ {id : ℕ} {which : ExceptionType} {addr : BitVec 32},
      s.exception id which addr = some t →
        ∃ as, PartialMachine.run Vm.step s.vm as = some t.vm := by
    intro id which addr h
    cases which with
    | PageFaultException =>
        obtain ⟨page, -, hfault⟩ := Option.bind_eq_some_iff.mp h
        obtain ⟨r, hr, rfl⟩ := Option.map_eq_some_iff.mp hfault
        refine ⟨[.fault id page], ?_⟩
        cases hok : r.1 <;> simp [PartialMachine.run, Vm.step, hr, finish]
    | NoException => cases h
    | SyscallException => cases h
    | _ =>
        cases h
        exact ⟨[], rfl⟩
  cases a with
  | construct id executable =>
      obtain ⟨vm, hvm, rfl⟩ := Option.map_eq_some_iff.mp hstep
      exact ⟨[.construct id executable], by simp [PartialMachine.run, Vm.step, hvm]⟩
  | load id addr size =>
      simp only [step, Option.ite_none_left_eq_some] at hstep
      obtain ⟨r, hr, hstep⟩ := Option.bind_eq_some_iff.mp hstep.2
      cases r with
      | ok r =>
          cases hstep
          exact ⟨[.readMem id addr size], by simp [PartialMachine.run, Vm.step, hr]⟩
      | error which => exact hexception hstep
  | store id addr size value =>
      simp only [step, Option.ite_none_left_eq_some] at hstep
      obtain ⟨r, hr, hstep⟩ := Option.bind_eq_some_iff.mp hstep.2
      cases r with
      | ok vm =>
          cases hstep
          exact ⟨[.writeMem id addr size value], by simp [PartialMachine.run, Vm.step, hr]⟩
      | error which => exact hexception hstep
  | copy id addr turns =>
      simp only [step, Option.ite_none_left_eq_some] at hstep
      obtain ⟨sp, hsp, hstep⟩ := Option.bind_eq_some_iff.mp hstep.2
      have hserved := served_fetch addr turns (.start ⟨s.vm.phys, sp⟩ fun _ => 0)
      split at hstep
      · rename_i b r hfetch
        cases hstep
        rw [CopyM.after_of_ok hfetch] at hserved
        exact hserved.run hsp
      · rename_i r hfetch
        cases hstep
        rw [CopyM.after, hfetch] at hserved
        exact hserved.run hsp
      · cases hstep
  | destroy id =>
      obtain ⟨vm, hvm, rfl⟩ := Option.map_eq_some_iff.mp hstep
      exact ⟨[.destroy id], by simp [PartialMachine.run, Vm.step, hvm]⟩

theorem step_frames {a : Act} (hi : FrameInv s.vm) (hstep : s.step a = some t) :
    FrameInv t.vm := by
  obtain ⟨as, has⟩ := step_run hstep
  exact run_invariant hi (fun _ _ _ h hs => h.step hs) as _ has

/-- **A byte that `CopyFromUser` fetches**, or for which the thread is finished. -/
theorem Fifos.copy_iff (hf : s.Fifos) (hi : FrameInv s.vm) {addr : BitVec 32} {turns : ℕ}
    (hstep : s.step (.copy id addr turns) = some t) :
    t.Fifos ↔ ¬ s.Requeues (.copy id addr turns) := by
  simp only [step, Option.ite_none_left_eq_some] at hstep
  obtain ⟨hfin, hstep⟩ := hstep
  obtain ⟨sp, hsp, hstep⟩ := Option.bind_eq_some_iff.mp hstep
  have hsane := hi.sane hsp
  split at hstep
  · rename_i b r hfetch
    cases hstep
    have hacc : UserMem.access ⟨s.vm.phys, sp⟩ addr = some r.user :=
      (fetch_eq_ok (s := .start ⟨s.vm.phys, sp⟩ _) hsane hfetch).1
    have hp : addr.toNat / PageSize < sp.numPages := UserMem.page_of_access hacc
    rw [hf.copied_iff hi (by simpa using hfin) hsp hacc]
    constructor
    · rintro hv ⟨sp', hsp', -, hinv, -⟩
      obtain rfl : sp = sp' := Option.some.inj (hsp.symm.trans hsp')
      rw [hv] at hinv
      cases hinv
    · intro hnot
      by_contra hv
      refine hnot ⟨sp, hsp, hp, by simpa using hv, fun hnone => ?_⟩
      have hinv : (sp.pageTable (addr.toNat / PageSize)).valid = false := by simpa using hv
      rw [UserMem.access_missing hp hinv] at hacc
      split at hacc
      · rename_i hboth
        rcases (AddrSpace.load_true_iff hsane.wf hp).mp hboth.2 with hv' | ⟨hframe, -⟩
        · exact hv hv'
        · exact hframe hnone
      · cases hacc
  · rename_i r hfetch
    cases hstep
    refine iff_of_true ?_ ?_
    · refine hf.of_finished id (fun j hj => ?_) (Function.update_self ..)
      simp [Pager.finish, Vm.put, hj]
    · rintro ⟨sp', hsp', hp, -, hframe⟩
      obtain rfl : sp = sp' := Option.some.inj (hsp.symm.trans hsp')
      exact fetch_finished (s := .start ⟨s.vm.phys, sp⟩ _) hsane hp hframe hfetch
  · cases hstep

/-- **One step**: the queues stay in order, unless a page that is there is queued again. -/
theorem step_fifos {a : Act} (hi : FrameInv s.vm) (hf : s.Fifos) (hstep : s.step a = some t) :
    t.Fifos ↔ ¬ s.Requeues a := by
  cases a with
  | construct id executable =>
      obtain ⟨vm, hvm, rfl⟩ := Option.map_eq_some_iff.mp hstep
      refine iff_of_true ?_ not_false
      obtain ⟨sp, -, hnew, rfl⟩ := construct_inv hvm
      rw [hf.iff_of_sameBut id fun j hj => by simp [hj]]
      rintro sp' hsp' -
      obtain rfl : sp = sp' := by simpa using hsp'
      simpa using fifo_new hnew
  | load id addr size =>
      simp only [step, Option.ite_none_left_eq_some] at hstep
      obtain ⟨hfin, hstep⟩ := hstep
      obtain ⟨r, hr, hstep⟩ := Option.bind_eq_some_iff.mp hstep
      cases r with
      | ok r =>
          obtain ⟨value, vm⟩ := r
          cases hstep
          obtain ⟨sp, sp', hsp, hread, rfl⟩ := readMem_ok_inv hr
          refine iff_of_true ?_ (not_userRequeues hsp (by simp [raised, hread]))
          obtain ⟨f, -, -, -, rfl⟩ := readMem_inv (hi.wf id sp hsp) hread
          exact hf.touched hi hsp _ _ _
      | error which =>
          obtain ⟨sp, hsp, hmap⟩ := Option.map_eq_some_iff.mp hr
          exact hf.user_iff hi (by simpa using hfin) hsp (raised_of_map hmap) hstep
  | store id addr size value =>
      simp only [step, Option.ite_none_left_eq_some] at hstep
      obtain ⟨hfin, hstep⟩ := hstep
      obtain ⟨r, hr, hstep⟩ := Option.bind_eq_some_iff.mp hstep
      cases r with
      | ok vm =>
          cases hstep
          obtain ⟨sp, sp', mem, hsp, hwrite, rfl⟩ := writeMem_ok_inv hr
          refine iff_of_true ?_ (not_userRequeues hsp (by simp [raised, hwrite]))
          obtain ⟨f, -, -, -, rfl⟩ := writeMem_inv (hi.wf id sp hsp) hwrite
          exact hf.touched hi hsp _ _ _
      | error which =>
          obtain ⟨sp, hsp, hmap⟩ := Option.map_eq_some_iff.mp hr
          exact hf.user_iff hi (by simpa using hfin) hsp (raised_of_map hmap) hstep
  | copy id addr turns => exact hf.copy_iff hi hstep
  | destroy id =>
      obtain ⟨vm, hvm, rfl⟩ := Option.map_eq_some_iff.mp hstep
      refine iff_of_true ?_ not_false
      obtain ⟨sp, b, -, -, rfl⟩ := destroy_inv hvm
      rw [hf.iff_of_sameBut id fun j hj => by simp [hj]]
      intro sp' hsp'
      simp at hsp'

/-! ## §5  Every run -/

/-- **When the replacement is first in, first out**: in every state of the run the queue
of every process whose thread is not finished has each of its resident pages once, in
the order of the last load, and `SwapOut` takes the oldest, if and only if no step puts
a resident page into a queue. -/
theorem fifo_iff (as : List Act) (s : Pager) (hrun : run step init as = some s) :
    Always step Fifos init as ↔ StepsMeet step (fun s a => ¬ s.Requeues a) init as := by
  refine always_iff_stepsMeet (I := fun s => FrameInv s.vm) frameInv_init ?_
    (fun s a t hi hstep => step_frames hi hstep)
    (fun s a t hi hf hstep => step_fifos hi hf hstep) as s hrun
  intro id sp hsp
  simp [init, Vm.init] at hsp

/-- Process 1 takes 47 frames, and page 0 of process 0 the last one. -/
def crowded : List Act :=
  .construct 1 (zeroProgram 5120) ::
    ((List.range 47).map (fun p => .load 1 (BitVec.ofNat 32 (p * PageSize)) .byte) ++
      [.construct 0 (zeroProgram 0), .load 0 0 .byte, .load 0 0 .byte])

/-- Page 1 faults and replaces page 0, and then a byte of it is copied. -/
def readThenCopy : List Act := crowded ++ [.load 0 128 .byte, .load 0 128 .byte, .copy 0 128 2]

theorem fifo_iff_readThenCopy : ∃ s : Pager, run step init readThenCopy = some s ∧
    (Always step Fifos init readThenCopy ↔
      StepsMeet step (fun s a => ¬ s.Requeues a) init readThenCopy) := by
  obtain ⟨s, hrun⟩ := Option.isSome_iff_exists.mp
    (show (run step init readThenCopy).isSome = true by decide +kernel)
  exact ⟨s, hrun, fifo_iff readThenCopy s hrun⟩

/-- **The copy comes first**: page 1 replaces page 0, is raised twice and stands in the queue
twice. -/
theorem copy_queues_twice : ∃ (s : Pager) (sp : AddrSpace),
    run step init (crowded ++ [.copy 0 128 2]) = some s ∧
      s.vm.spaces 0 = some sp ∧ s.finished 0 = false ∧
      (sp.pageTable 0).physicalPage = IN_SWAP_FILE ∧ sp.loadedPages = [1, 1] ∧
      ¬ Fifo sp (s.loads 0) ∧ ¬ s.Fifos := by
  have hqueue : (run step init (crowded ++ [.copy 0 128 2])).map (fun s =>
      ((s.vm.spaces 0).map (fun sp => ((sp.pageTable 0).physicalPage, sp.loadedPages)),
        s.finished 0)) = some (some (IN_SWAP_FILE, [1, 1]), false) := by decide +kernel
  obtain ⟨s, hrun, hs⟩ := Option.map_eq_some_iff.mp hqueue
  obtain ⟨hspace, hfin⟩ := Prod.mk.inj hs
  obtain ⟨sp, hsp, hpages⟩ := Option.map_eq_some_iff.mp hspace
  obtain ⟨hswap, hqueued⟩ := Prod.mk.inj hpages
  have hnot : ¬ Fifo sp (s.loads 0) := by
    intro hf
    have hnodup := hf.once
    rw [hqueued] at hnodup
    exact absurd hnodup (by decide)
  exact ⟨s, sp, hrun, hsp, hfin, hswap, hqueued, hnot, fun hall => hnot (hall 0 sp hsp hfin)⟩

end Pager

end OsAssignments.MemoryManagement
