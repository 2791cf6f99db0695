import OsAssignments.MemoryManagement.Kernel

/-!
# Frame reclamation

The frames of a process are given back by the destructor of its address space,
which only `SC_Exit` runs. A process that a fatal exception finishes keeps
every frame that it holds, for ever; one that is finished because its page
could not be loaded has none to keep.

- `FramesExact` — the marked frames are those of unfinished processes.
- `KillsNoOwner` — a step does not finish a process by a fatal exception while
  a page of it is in memory.
- `frames_exact_iff` — **the first holds all along a run exactly when all its
  steps meet the second**.
-/

namespace OsAssignments.MemoryManagement

open PartialMachine

namespace Kernel

/-! ## §1  The property and the condition -/

/-- The frames marked are exactly those mapped by unfinished processes. -/
def FramesExact (k : Kernel) : Prop :=
  ∀ f < NumPhysPages, k.vm.phys.freeFrame.testBit f = true ↔
    ∃ id p, k.sys.Unfinished id ∧ k.vm.Maps id p f

def KillsNoOwner (k : Kernel) (a : Act) : Prop :=
  ∀ which t, k.raises a = some which → fatal which = true →
    k.sys.heap k.sys.currentThread = some t → ∀ p f, ¬ k.vm.Maps t.tid p f

/-- Every address space with a page in memory is of an unfinished process. -/
def OwnersUnfinished (k : Kernel) : Prop :=
  ∀ id p f, k.vm.Maps id p f → k.sys.Unfinished id

theorem framesExact_iff {k : Kernel} (h : FrameInv k.vm) :
    k.FramesExact ↔ k.OwnersUnfinished := by
  constructor
  · intro hex id p f hm
    obtain ⟨id', p', hun, hm'⟩ := (hex f (h.frame_lt hm)).mp (h.marked hm)
    exact (h.exclusive id id' p p' f hm hm').1 ▸ hun
  · intro hown f hf
    rw [h.marked_iff f hf]
    constructor
    · rintro ⟨id, p, hm⟩
      exact ⟨id, p, hown id p f hm, hm⟩
    · rintro ⟨id, p, -, hm⟩
      exact ⟨id, p, hm⟩

/-! ## §2  One step -/

/-- A fatal exception finishes the running process. -/
theorem step_of_fatal {k k' : Kernel} {a : Act} {which : ExceptionType}
    (hstep : k.step a = some k') (hraise : k.raises a = some which)
    (hfatal : fatal which = true) : k.sysStep .kill = some k' := by
  have hhandler : ∀ badVaddr, k.exceptionHandler which badVaddr = some k' →
      k.sysStep .kill = some k' := by
    intro badVaddr h
    cases which with
    | ReadOnlyException => exact h
    | BusErrorException => exact h
    | AddressErrorException => exact h
    | IllegalInstrException => exact h
    | _ => cases hfatal
  cases a with
  | load addr size =>
      simp only [step, load, Option.ite_none_right_eq_some, Option.bind_eq_bind,
        Option.bind_eq_some_iff] at hstep
      obtain ⟨-, p, hp, r, hr, hstep⟩ := hstep
      simp only [raises, hp, Option.bind_some, hr] at hraise
      cases r with
      | ok r => cases hraise
      | error e =>
          cases hraise
          exact hhandler _ hstep
  | store addr size value =>
      simp only [step, store, Option.ite_none_right_eq_some, Option.bind_eq_bind,
        Option.bind_eq_some_iff] at hstep
      obtain ⟨-, p, hp, r, hr, hstep⟩ := hstep
      simp only [raises, hp, Option.bind_some, hr] at hraise
      cases r with
      | ok vm => cases hraise
      | error e =>
          cases hraise
          exact hhandler _ hstep
  | exception e badVaddr =>
      simp only [step, Option.ite_none_right_eq_some] at hstep
      cases hraise
      exact hhandler _ hstep.2
  | _ => cases hraise

/-- The process that a step ends is the running one, and it is unfinished no
longer. -/
theorem Inv.ended {k : Kernel} (h : Inv k) {b : Sys.Act} {sys : Sys} {t : Thread}
    (hb : b.ends = true) (hs : k.sys.step b = some sys)
    (ht : k.sys.heap k.sys.currentThread = some t) : ¬ sys.Unfinished t.tid := by
  obtain ⟨log, hsys⟩ := h.sys
  rw [Sys.step_unfinished hsys hs]
  rintro (⟨-, hno⟩ | ⟨hnew, -⟩)
  · exact hno ⟨hb, by simp [Sys.runningTid, ht]⟩
  · exact h.born (at_user_of_ends hb hs) ht (Or.inl hnew.ge)

/-- Everyone else stays unfinished. -/
theorem Inv.others_unfinished {k : Kernel} (h : Inv k) {b : Sys.Act} {sys : Sys}
    {t : Thread} (hs : k.sys.step b = some sys)
    (ht : k.sys.heap k.sys.currentThread = some t) {id : ℕ} (hne : id ≠ t.tid)
    (hun : k.sys.Unfinished id) : sys.Unfinished id := by
  obtain ⟨log, hsys⟩ := h.sys
  refine (Sys.step_unfinished hsys hs id).mpr (Or.inl ⟨hun, ?_⟩)
  rintro ⟨-, hrun⟩
  rw [Sys.runningTid, ht] at hrun
  exact hne (Option.some.inj hrun).symm

/-- With no frame for its page, a process holds no frame at all. -/
theorem no_frame {vm vm' : Vm} {id page : ℕ} (h : FrameInv vm)
    (hstep : vm.fault id page = some (false, vm')) (p f : ℕ) : ¬ vm.Maps id p f := by
  intro hm
  obtain ⟨j, q, hj, hm'⟩ := (h.fault_false_iff hstep).mp rfl f (h.frame_lt hm)
  exact hj (h.exclusive j id q p f hm' hm).1

/-- **One step.** From a state without leaked frames, a step leaks some exactly
when it finishes, by a fatal exception, a process that holds some. -/
theorem Inv.step_owners {k k' : Kernel} {a : Act} (h : Inv k)
    (hown : k.OwnersUnfinished) (hstep : k.step a = some k') :
    k'.OwnersUnfinished ↔ k.KillsNoOwner a := by
  obtain ⟨log, hsys⟩ := h.sys
  constructor
  · intro hown' which t hraise hfatal ht p f hm
    obtain ⟨sys, hs, rfl⟩ :=
      sysStep_eq_some.mp (step_of_fatal hstep hraise hfatal)
    exact h.ended rfl hs ht (hown' t.tid p f hm)
  · intro hno id p f hm
    cases step_effect hstep with
    | schedule b sys pt hb hs =>
        exact (Sys.step_unfinished hsys hs id).mpr
          (Or.inl ⟨hown id p f hm, by simp [hb]⟩)
    | start t executable sys vm ht hs hvm =>
        have hm := (maps_construct hvm id p f).mp hm
        exact (Sys.step_unfinished hsys hs id).mpr
          (Or.inl ⟨hown id p f hm, by simp [Sys.Act.ends]⟩)
    | exit t code sys vm ht hvm hs =>
        obtain ⟨hne, hm⟩ := (maps_destroy hvm id p f).mp hm
        exact h.others_unfinished hs ht hne (hown id p f hm)
    | load t q addr size value vm hat ht hq hvm =>
        exact hown id p f ((h.frames.maps_readMem hvm id p f).mp hm)
    | store t q addr size value vm hat ht hq hvm =>
        exact hown id p f ((h.frames.maps_writeMem hvm id p f).mp hm)
    | fault t page vm hat ht hvm =>
        rcases h.frames.maps_fault hvm with ⟨-, g, -, -, -, -, hnew⟩ | ⟨-, -, hsame⟩
        · rcases (hnew id p f).mp hm with ⟨rfl, -⟩ | ⟨-, -, hm⟩
          · exact hat.unfinished (by simp) ht
          · exact hown id p f hm
        · exact hown id p f ((hsame id p f).mp hm)
    | noFrame t page vm sys ht hvm hs =>
        have hm : k.vm.Maps id p f := by
          rcases h.frames.maps_fault hvm with ⟨hok, -⟩ | ⟨-, -, hsame⟩
          · cases hok
          · exact (hsame id p f).mp hm
        have hne : id ≠ t.tid := by
          rintro rfl
          exact no_frame h.frames hvm p f hm
        exact h.others_unfinished hs ht hne (hown id p f hm)
    | killed which sys hraise hfatal hs =>
        obtain ⟨t, ht, -⟩ := at_user_of_ends rfl hs
        have hne : id ≠ t.tid := by
          rintro rfl
          exact hno which t hraise hfatal ht p f hm
        exact h.others_unfinished hs ht hne (hown id p f hm)
    | overflow => exact hown id p f hm

/-! ## §3  Every run -/

/-- **Frame reclamation.** All along a run the marked frames are exactly those
of unfinished processes if and only if no step finishes, by a fatal exception,
a process that has a page in memory. -/
theorem frames_exact_iff (algorithm : Algorithm) (main : SpaceId)
    (hmain : main ≠ NULL) (as : List Act) (k : Kernel)
    (hrun : PartialMachine.run step (init algorithm main) as = some k) :
    Always step FramesExact (init algorithm main) as ↔
      StepsMeet step KillsNoOwner (init algorithm main) as := by
  refine always_iff_stepsMeet (I := Inv) (inv_init algorithm hmain) ?_
    (fun _ _ _ h hstep => h.step hstep) ?_ as k hrun
  · refine (framesExact_iff frameInv_init).mpr fun id p f hm => ?_
    obtain ⟨sp, hsp, -⟩ := hm
    cases hsp
  · intro k a k' h hex hstep
    rw [framesExact_iff (h.step hstep).frames]
    exact h.step_owners ((framesExact_iff h.frames).mp hex) hstep

/-- A process of 8 pages loads its page 0, then a word past its last page. -/
def strayLoad : List Act :=
  [.start (zeroProgram 0), .load 0 .word, .load 0 .word, .load 1024 .word]

theorem frames_exact_iff_strayLoad : ∃ k,
    PartialMachine.run step (init .a1 1) strayLoad = some k ∧
    (Always step FramesExact (init .a1 1) strayLoad ↔
      StepsMeet step KillsNoOwner (init .a1 1) strayLoad) := by
  have hsome : (PartialMachine.run step (init .a1 1) strayLoad).isSome = true := by
    decide +kernel
  obtain ⟨k, hrun⟩ := Option.isSome_iff_exists.mp hsome
  exact ⟨k, hrun, frames_exact_iff .a1 1 (by decide) _ k hrun⟩

/-- **The stray load finishes the process, and frame 0 stays marked for it.** -/
theorem frames_leak_strayLoad : ∃ k,
    PartialMachine.run step (init .a1 1) strayLoad = some k ∧
    ¬ k.sys.Unfinished 0 ∧ k.vm.Maps 0 0 0 ∧ ¬ k.FramesExact := by
  have hlast : (PartialMachine.run step (init .a1 1) strayLoad.dropLast).bind
      (fun k => (k.step (.load 1024 .word)).bind fun k' =>
        (k'.vm.spaces 0).bind fun sp => (k.sys.heap k.sys.currentThread).map fun t =>
          (t.tid, k.raises (.load 1024 .word), sp.numPages,
            (sp.pageTable 0).valid, (sp.pageTable 0).physicalPage)) =
      some (0, some .AddressErrorException, 8, true, 0) := by
    decide +kernel
  simp only [Option.bind_eq_some_iff, Option.map_eq_some_iff, Prod.mk.injEq] at hlast
  obtain ⟨k, hrun, k', hstep, sp, hsp, t, ht, htid, hraise, hpages, hvalid, hpage⟩ := hlast
  have hi : Inv k := run_invariant (inv_init .a1 (by decide))
    (fun _ _ _ h hstep => h.step hstep) _ k hrun
  have hmaps : k'.vm.Maps 0 0 0 := ⟨sp, hsp, by omega, hvalid, hpage⟩
  obtain ⟨sys, hs, hk'⟩ := sysStep_eq_some.mp (step_of_fatal hstep hraise rfl)
  have hended : ¬ k'.sys.Unfinished 0 := by
    rw [hk', ← htid]
    exact hi.ended rfl hs ht
  refine ⟨k', run_snoc_eq_some.mpr ⟨k, hrun, hstep⟩, hended, hmaps, fun hex => ?_⟩
  exact hended ((framesExact_iff (hi.step hstep).frames).mp hex 0 0 0 hmaps)

end Kernel

end OsAssignments.MemoryManagement
