import OsAssignments.ProcessManagement.Isolation
import OsAssignments.ProcessManagement.Threads

/-!
# Pages of processes that have exited

The scheduler and the system calls of `Threads.lean`, with the allocator of
`AddrSpace.lean`: a thread calls `AllocatePhysicalPages` from the constructor of
its address space. Nothing ever gives a page back.

- `pages_reusable_iff` — **the condition under which a run whose processes fit
  into the memory gets the pages it asks for**.
- `not_pagesReusable_execTwice` — a run that does not, although at most two
  processes are there at any time.
-/

namespace OsAssignments.ProcessManagement

open PartialMachine
open MemoryManagement (NoffHeader NOFFMAGIC)

/-! ## §1  The machine -/

/-- A program that was started, and the thread it was started in. -/
structure Program where
  thread : SpaceId
  tid : ℕ
  noffH : NoffHeader
deriving DecidableEq, Repr

structure PageSys where
  sys : Sys
  nextFreePhysicalPage : BitVec 32
  programs : List Program
  /-- Ghost: by thread, the address spaces made so far and their sizes. -/
  spaces : List (ℕ × BitVec 32)

inductive PageAct where
  | exec (tmp : SpaceId) (noffH : NoffHeader)
  /-- The constructor of `AddrSpace`, in `StartProcess`. -/
  | newAddrSpace
  /-- `machine->Run`, in `StartProcess`. -/
  | start
  | yield
  | dispatch
  | exit (code : BitVec 32)
  | join (id : SpaceId)
  | resume
deriving DecidableEq, Repr

namespace PageSys

def init (main : SpaceId) (noffH : NoffHeader) : PageSys where
  sys := Sys.init main
  nextFreePhysicalPage := 0
  programs := [⟨main, 0, noffH⟩]
  spaces := []

def currentTid (m : PageSys) : Option ℕ := (m.sys.heap m.sys.currentThread).map Thread.tid

/-- The thread that is about to call `AllocatePhysicalPages`, and the header that it
calls it with. -/
def calls (m : PageSys) : Option (ℕ × NoffHeader) :=
  if m.sys.At .starting then do
    let tid ← m.currentTid
    let program ← m.programs.find? fun p => p.tid = tid
    if tid ∈ m.spaces.map Prod.fst then none
    else do
      let noffH ← checkHeader program.noffH
      some (tid, noffH)
  else none

def step (m : PageSys) : PageAct → Option PageSys
  | .exec tmp noffH =>
      (m.sys.step (.exec tmp)).map fun s =>
        { m with sys := s, programs := m.programs ++ [⟨tmp, m.sys.nextTid, noffH⟩] }
  | .newAddrSpace =>
      m.calls.bind fun (tid, noffH) =>
        let (startPageIndex, next) :=
          allocatePhysicalPages m.nextFreePhysicalPage (numPages noffH)
        if startPageIndex = -1 then none
        else some { m with
          nextFreePhysicalPage := next
          spaces := m.spaces ++ [(tid, numPages noffH)] }
  | .start =>
      if m.currentTid.any (· ∈ m.spaces.map Prod.fst) then
        (m.sys.step .start).map fun s => { m with sys := s }
      else none
  | .yield => (m.sys.step .yield).map fun s => { m with sys := s }
  | .dispatch => (m.sys.step .dispatch).map fun s => { m with sys := s }
  | .exit code => (m.sys.step (.exit code)).map fun s => { m with sys := s }
  | .join id => (m.sys.step (.join id)).map fun s => { m with sys := s }
  | .resume => (m.sys.step .resume).map fun s => { m with sys := s }

/-! ## §2  What is asked for -/

/-- The process has not exited. -/
def Alive (m : PageSys) (p : Program) : Prop :=
  ∃ t, m.sys.heap p.thread = some t ∧ t.tid = p.tid ∧ t.cont ≠ .finished

instance (m : PageSys) (p : Program) : Decidable (m.Alive p) :=
  match h : m.sys.heap p.thread with
  | none => isFalse (by rintro ⟨t, ht, -⟩; rw [h] at ht; cases ht)
  | some t =>
      if hc : t.tid = p.tid ∧ t.cont ≠ .finished then isTrue ⟨t, h, hc.1, hc.2⟩
      else isFalse (by
        rintro ⟨t', ht', hc'⟩
        rw [h] at ht'
        cases ht'
        exact hc hc')

/-- The pages of the processes that have not exited. -/
def pagesInUse (m : PageSys) : ℕ :=
  (m.programs.filter fun p => m.Alive p).foldl (fun n p => n + (numPages p.noffH).toNat) 0

/-- The pages of all address spaces that were made, also of processes that have
exited. -/
def pagesEverUsed (m : PageSys) : ℕ := m.spaces.foldl (fun n p => n + p.2.toNat) 0

/-- An `Exec` is made only if the new program fits beside those that are there. -/
def Fits (m : PageSys) : PageAct → Prop
  | .exec _ noffH => (numPages noffH).toNat + m.pagesInUse ≤ NumPhysPages
  | _ => True

/-- `AllocatePhysicalPages` does not return `-1`. -/
def Allocates (m : PageSys) : PageAct → Prop
  | .newAddrSpace =>
      ∀ tid noffH, m.calls = some (tid, noffH) →
        (allocatePhysicalPages m.nextFreePhysicalPage (numPages noffH)).1 ≠ -1
  | _ => True

/-- The new program fits beside all that were ever there. -/
def FitsBesideAll (m : PageSys) : PageAct → Prop
  | .newAddrSpace =>
      ∀ tid noffH, m.calls = some (tid, noffH) →
        m.pagesEverUsed + (numPages noffH).toNat ≤ NumPhysPages
  | _ => True

/-- In the run, every program fits into the memory beside the processes that are
there when it is started. -/
def ProgramsFit (main : SpaceId) (noffH : NoffHeader) (as : List PageAct) : Prop :=
  (numPages noffH).toNat ≤ NumPhysPages ∧ StepsMeet step Fits (init main noffH) as

/-- A run in which the programs fit gets all the pages it asks for. -/
def PagesReusable (main : SpaceId) (noffH : NoffHeader) (as : List PageAct) : Prop :=
  ProgramsFit main noffH as → StepsMeet step Allocates (init main noffH) as

/-! ## §3  The counter -/

/-- The counter has counted every page that was ever handed out. -/
structure CounterInv (m : PageSys) : Prop where
  next : m.nextFreePhysicalPage.toNat = m.pagesEverUsed
  le : m.pagesEverUsed ≤ NumPhysPages

theorem counterInv_init (main : SpaceId) (noffH : NoffHeader) :
    CounterInv (init main noffH) := ⟨rfl, Nat.zero_le _⟩

/-- Only the constructor of an address space changes the counter. -/
theorem CounterInv.of_same {m m' : PageSys} (hi : CounterInv m)
    (hnext : m'.nextFreePhysicalPage = m.nextFreePhysicalPage)
    (hspaces : m'.spaces = m.spaces) : CounterInv m' := by
  have hever : m'.pagesEverUsed = m.pagesEverUsed := by rw [pagesEverUsed, hspaces]; rfl
  exact ⟨by rw [hnext, hever, hi.next], hever ▸ hi.le⟩

theorem counterInv_step {m m' : PageSys} {a : PageAct} (hi : CounterInv m)
    (hstep : m.step a = some m') : CounterInv m' := by
  have scheduled : ∀ b, (m.sys.step b).map (fun s => { m with sys := s }) = some m' →
      CounterInv m' := by
    intro b h
    obtain ⟨s, -, rfl⟩ := Option.map_eq_some_iff.mp h
    exact hi.of_same rfl rfl
  cases a with
  | exec tmp noffH =>
      obtain ⟨s, -, rfl⟩ := Option.map_eq_some_iff.mp hstep
      exact hi.of_same rfl rfl
  | newAddrSpace =>
      obtain ⟨⟨tid, noffH⟩, -, h⟩ := Option.bind_eq_some_iff.mp hstep
      dsimp only at h
      rcases hallocate : allocatePhysicalPages m.nextFreePhysicalPage (numPages noffH) with
        ⟨startPage, next⟩
      rw [hallocate] at h
      dsimp only at h
      obtain ⟨hne, h⟩ := Option.ite_none_left_eq_some.mp h
      cases h
      rcases allocatePhysicalPages_cases (hi.next ▸ hi.le) (toNat_numPages_le noffH)
        hallocate with ⟨-, -, hnext, hle⟩ | ⟨hfail, -⟩
      · have hever : ({ m with
            nextFreePhysicalPage := next
            spaces := m.spaces ++ [(tid, numPages noffH)] } : PageSys).pagesEverUsed =
              m.pagesEverUsed + (numPages noffH).toNat := by
          simp [pagesEverUsed]
        exact ⟨by rw [hever, hnext, hi.next], by rw [hever, ← hi.next]; exact hle⟩
      · exact absurd hfail hne
  | start =>
      obtain ⟨-, h⟩ := Option.ite_none_right_eq_some.mp hstep
      exact scheduled _ h
  | yield => exact scheduled _ hstep
  | dispatch => exact scheduled _ hstep
  | exit code => exact scheduled _ hstep
  | join id => exact scheduled _ hstep
  | resume => exact scheduled _ hstep

/-- **One call** succeeds exactly if its pages were never used. -/
theorem CounterInv.allocates_iff {m : PageSys} (hi : CounterInv m) (a : PageAct) :
    m.Allocates a ↔ m.FitsBesideAll a := by
  cases a with
  | newAddrSpace =>
      refine forall₃_congr fun tid noffH _ => ?_
      rcases hallocate : allocatePhysicalPages m.nextFreePhysicalPage (numPages noffH) with
        ⟨startPage, next⟩
      rw [← hi.next]
      rcases allocatePhysicalPages_cases (hi.next ▸ hi.le) (toNat_numPages_le noffH)
        hallocate with ⟨hne, -, -, hle⟩ | ⟨hfail, -, hgt⟩
      · exact iff_of_true hne hle
      · exact iff_of_false (fun hne => hne hfail) (Nat.not_le.mpr hgt)
  | _ => exact Iff.rfl

/-! ## §4  Runs -/

/-- **Which runs get their pages.** A run whose programs fit beside the processes that
are there gets every page it asks for exactly if its programs also fit beside all
those that have exited. -/
theorem pages_reusable_iff (main : SpaceId) (noffH : NoffHeader) (as : List PageAct) :
    PagesReusable main noffH as ↔
      (ProgramsFit main noffH as → StepsMeet step FitsBesideAll (init main noffH) as) :=
  imp_congr_right fun _ => stepsMeet_congr (counterInv_init main noffH)
    (fun _ _ _ hi hstep => counterInv_step hi hstep) (fun _ a hi => hi.allocates_iff a) as

instance (m : PageSys) : ∀ a, Decidable (m.Fits a)
  | .exec _ _ => inferInstanceAs (Decidable (_ ≤ _))
  | .newAddrSpace => isTrue trivial
  | .start => isTrue trivial
  | .yield => isTrue trivial
  | .dispatch => isTrue trivial
  | .exit _ => isTrue trivial
  | .join _ => isTrue trivial
  | .resume => isTrue trivial

def ninePages : NoffHeader := ⟨NOFFMAGIC, ⟨0, 0, 1⟩, ⟨0, 0, 0⟩, ⟨0, 0, 0⟩⟩
def thirtyPages : NoffHeader := ⟨NOFFMAGIC, ⟨0, 0, 2816⟩, ⟨0, 0, 0⟩, ⟨0, 0, 0⟩⟩

/-- The main program executes a large one, waits until it has exited, and executes it
once more. -/
def execTwice : List PageAct :=
  [.newAddrSpace, .start, .exec 2 thirtyPages, .join 2, .newAddrSpace, .start, .exit 7,
    .dispatch, .resume, .exec 3 thirtyPages, .join 3, .yield, .newAddrSpace]

theorem not_pagesReusable_execTwice : ¬ PagesReusable 1 ninePages execTwice := by
  intro h
  have hfit : ProgramsFit 1 ninePages execTwice :=
    ⟨by decide, (stepsMeet_iff _ _).mp (by decide +kernel)⟩
  have hlast : (PartialMachine.run step (init 1 ninePages) execTwice.dropLast).map (fun m =>
      m.calls.map fun c => (allocatePhysicalPages m.nextFreePhysicalPage (numPages c.2)).1) =
        some (some (-1)) := by decide +kernel
  obtain ⟨m, hm, hcalls⟩ := Option.map_eq_some_iff.mp hlast
  obtain ⟨⟨tid, noffH⟩, hcall, hfail⟩ := Option.map_eq_some_iff.mp hcalls
  exact h hfit execTwice.dropLast .newAddrSpace [] rfl m hm tid noffH hcall hfail

end PageSys

end OsAssignments.ProcessManagement
