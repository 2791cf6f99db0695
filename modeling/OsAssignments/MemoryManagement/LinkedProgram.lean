import OsAssignments.MemoryManagement.ConvertedFile
import OsAssignments.MemoryManagement.ProgramStart

/-!
# From the linker to the computation

The whole way of a program: `coff2noff` converts what the linker wrote, the kernel makes an
address space of the output, page faults load it, and the processor runs it among the other
programs. What it computes is what the flat processor computes from the sections of the
object file, at the addresses that the linker gave them.

- `program_from_linker` — the result.
-/

namespace OsAssignments.MemoryManagement

open PartialMachine

/-! ## §1  The memory at the start -/

/-- What the object file says of the memory of the program: the bytes of its sections, and
zeros in the pages that lie past them. The rest of their last page is left open. -/
structure LinkedMemory (coff : RandomAccessFile) (M : ByteMem) : Prop where
  placed : ∀ a b, a / PageSize < coffPages coff → CoffShows coff a b → M a = b
  past : ∀ a, a / PageSize < coffPages coff → a < 0x80000000 →
    (∀ a' b, CoffShows coff a' b → a' < a / PageSize * PageSize) → M a = 0

variable {coff noff : RandomAccessFile} {garbage : NoffHeader}

theorem Linked.memory (hseek : Seekable coff) (hsized : Sized coff) (hlinked : Linked coff)
    (hsize : noff.size < 0x80000000) (h : coff2noff garbage coff = .ok noff) :
    ∃ sp, AddrSpace.new noff = some sp ∧ sp.numPages = coffPages coff ∧
      ∀ M p vm, vm.spaces p = some sp → Shows p vm M → LinkedMemory coff M := by
  obtain ⟨sp, hnew, hlaid, hpages, -, hshows⟩ := hlinked.loads hseek hsized hsize h
  refine ⟨sp, hnew, hpages, fun M p vm hsp hM => ?_⟩
  have hnone := (AddrSpace.new_nowhere hnew).2 vm.phys.mainMemory
  constructor
  · intro a b ha hb
    obtain ⟨hlt, rfl⟩ := (hshows a b).mp hb
    exact (hM.unloaded hsp hnone hlaid (by rwa [hpages])).1 hlt
  · intro a ha hint hbefore
    apply (hM.unloaded hsp hnone hlaid (by rwa [hpages])).2.1
    -- the last byte of the image is on an earlier page
    have himage : sp.imageSize ≤ a / PageSize * PageSize := by
      by_cases hz : sp.imageSize = 0
      · omega
      · have := hbefore (sp.imageSize - 1) _ ((hshows _ _).mpr ⟨by omega, rfl⟩)
        omega
    have haddr : a / PageSize * PageSize ≤ a := Nat.div_mul_le_self a PageSize
    have hoff : (BitVec.ofNat 32 (a / PageSize * PageSize)).toNat = a / PageSize * PageSize := by
      rw [BitVec.toNat_ofNat]
      omega
    rw [AddrSpace.PastImage, hlaid.toInt_imageSize, BitVec.toInt_eq_toNat_of_lt (by omega), hoff]
    omega

namespace Computer

/-! ## §2  Every run -/

/-- **A program computes what its linker laid out.** An object file linked as the file says,
and converted by `coff2noff`; in every run of the machine, from the start of the program to
any point before its first system call, whatever the other programs do and however often it
is interrupted, faults or is switched away: its registers and memory are those of the flat
processor that began with the bytes of the sections at their addresses, and has done as many
instructions. The program must not have instructions that see when a delayed load is done. -/
theorem program_from_linker (algorithm : Algorithm) (main : SpaceId) (hmain : main ≠ NULL)
    (userRegisters : SpaceId → Registers) (as bs : List ComputerAct) (c₁ c₀ c : Computer)
    (hreach : run step (init algorithm main userRegisters) bs = some c₁)
    (garbage : NoffHeader) (coff noff : RandomAccessFile) (hseek : Seekable coff)
    (hsized : Sized coff) (hlinked : Linked coff) (hconvert : coff2noff garbage coff = .ok noff)
    (hsize : noff.size < 0x80000000)
    (x : SpaceId) (hx : c₁.kernel.sys.currentThread = x)
    (hstart : c₁.step (.start noff) = some c₀) (p : ℕ)
    (hmeet : StepsMeet step (NoSysCall x p) c₀ as) (hrun : run step c₀ as = some c)
    (hc : c.Computing x p) :
    (∃ M, Shows p c.kernel.vm M) ∧
    ∀ M, Shows p c.kernel.vm M → ∃ M₀, LinkedMemory coff M₀ ∧
      (HazardFreeRun (coffPages coff) (retired x c₀ as)
          (initRegisters (BitVec.ofNat 32 (coffPages coff)), M₀) →
        ∃ R, flatRun (coffPages coff) (retired x c₀ as)
            (initRegisters (BitVec.ofNat 32 (coffPages coff)), M₀) = some (R, M) ∧
          R.Settles (c.registersOf x)) := by
  have hi := (inv_run (inv_init algorithm hmain userRegisters) hreach).step hstart
  have hc₀ := computing_of_meets hmeet hrun hc
  obtain ⟨sp, hnew, hpages, hmemory⟩ := hlinked.memory hseek hsized hsize hconvert
  obtain ⟨hsp, hregs⟩ := step_start hstart hnew hx hc₀
  obtain ⟨hM, hflat⟩ := flat_between hi hc₀ hsp hmeet hrun hc
  refine ⟨hM, fun M hM => ?_⟩
  obtain ⟨M₀, hM₀, hrun'⟩ := hflat M hM
  rw [hregs, hpages] at hrun'
  exact ⟨M₀, hmemory M₀ p _ hsp hM₀, hrun'⟩

/-- The object file of `sumProgram`: a section `.text` of one page. -/
def sumObject : RandomAccessFile :=
  objectFile [Scnhdr.bytes textName 0 128 116]
    (([0x24010040, 0xac010040, 0x8c020040, 0, 0x00411821].flatMap wordBytes) ++
      List.replicate 108 0)

/-- Its memory. -/
def sumMemory : ByteMem := fun a => if a < 128 then sumObject.data (116 + a) else 0

theorem convert_sumObject : ∃ noff, coff2noff stackGarbage sumObject = .ok noff ∧
    noff.size = 168 ∧ sumComputed noff = true := by
  have h : (match coff2noff stackGarbage sumObject with
      | .ok noff => decide (noff.size = 168) && sumComputed noff
      | .error _ => false) = true := by decide +kernel
  split at h
  · rename_i noff hnoff
    rw [Bool.and_eq_true, decide_eq_true_eq] at h
    exact ⟨noff, hnoff, h⟩
  · cases h

theorem linked_sumObject : Seekable sumObject ∧ Sized sumObject ∧ Linked sumObject ∧
    coffPages sumObject = 9 := by
  refine ⟨?_, ?_, ⟨⟨[46, 116, 101, 120, 116, 0, 0, 0], 0, 128, 116⟩, [], ?_⟩, ?_⟩
  · unfold Seekable
    decide +kernel
  · unfold Sized
    decide +kernel
  · decide +kernel
  · decide +kernel

/-- Nothing of it is left open: the section fills its page. -/
theorem agree_sumMemory {M : ByteMem} (h : LinkedMemory sumObject M) : Agree 9 M sumMemory := by
  obtain ⟨-, -, -, hpages⟩ := linked_sumObject
  have hsections : sections sumObject = [⟨[46, 116, 101, 120, 116, 0, 0, 0], 0, 128, 116⟩] := by
    decide +kernel
  have hshows {a : ℕ} {b : Byte} : CoffShows sumObject a b ↔
      a < 128 ∧ b = sumObject.data (116 + a) := by
    unfold CoffShows
    rw [hsections]
    constructor
    · rintro ⟨s, hs, -, -, hlt, rfl⟩
      obtain rfl := List.mem_singleton.mp hs
      exact ⟨by simpa using hlt, rfl⟩
    · rintro ⟨hlt, rfl⟩
      exact ⟨_, List.mem_singleton_self _, by decide, Nat.zero_le a, by simpa using hlt, rfl⟩
  intro a ha
  unfold sumMemory
  by_cases hlt : a < 128
  · rw [if_pos hlt]
    exact h.placed a _ (by rwa [hpages]) (hshows.mpr ⟨hlt, rfl⟩)
  · rw [if_neg hlt]
    apply h.past a (by rwa [hpages])
    · simp only [PageSize, SectorSize] at ha
      omega
    · intro a' b hb
      have := (hshows.mp hb).1
      simp only [PageSize, SectorSize]
      omega

theorem program_from_linker_sum : ∃ noff c₁ c₀ c M M₀ R,
    coff2noff stackGarbage sumObject = .ok noff ∧
    run step (init .a1 1 fun _ _ => 0) execSum = some c₁ ∧
    c₁.step (.start noff) = some c₀ ∧ run step c₀ runSum = some c ∧
    LinkedMemory sumObject M₀ ∧ Shows 1 c.kernel.vm M ∧
    flatRun 9 5 (initRegisters 9, M₀) = some (R, M) ∧
    R.Settles (c.registersOf 2) ∧ c.registersOf 2 (gpr 3) = 128 := by
  obtain ⟨noff, hconvert, hsize, hcomputed⟩ := convert_sumObject
  obtain ⟨hseek, hsized, hlinked, hpages⟩ := linked_sumObject
  obtain ⟨c₁, c₀, c, h₁, hcur, h₀, hmeet, hretired, hrun, hc, hsum⟩ := run_of_sumComputed hcomputed
  obtain ⟨⟨M, hM⟩, hflat⟩ := program_from_linker .a1 1 (by decide) (fun _ _ => 0) runSum execSum
    c₁ c₀ c h₁ stackGarbage sumObject noff hseek hsized hlinked hconvert
    (by rw [hsize]; decide) 2 hcur h₀ 1 hmeet hrun hc
  obtain ⟨M₀, hM₀, hrun'⟩ := hflat M hM
  rw [hretired, hpages] at hrun'
  have hfree : HazardFreeRun 9 5 (initRegisters 9, sumMemory) := by decide +kernel
  obtain ⟨R, hR, hs⟩ := hrun' (hfree.agree (sane_initRegisters 9) (agree_sumMemory hM₀))
  exact ⟨noff, c₁, c₀, c, M, M₀, R, hconvert, h₁, h₀, hrun, hM₀, hM, hR, hs, hsum⟩

end Computer

end OsAssignments.MemoryManagement
