import OsAssignments.MemoryManagement.Kernel

/-!
# Virtual memory refines flat memory

Each process sees memory of its own in which a load returns what was stored
last, although a page may have moved through any number of frames and through
the swap file between the store and the load.

- `Vm.Holds` — a byte of a process, wherever its page is; no page fault, no
  eviction and no access of another process changes it.
- `Recalls` — every byte that a live process stored last is held for it; one
  step keeps it.
- `loads_flat` — **the refinement**, for every run.
-/

namespace OsAssignments.MemoryManagement

open PartialMachine MemoryLog

/-! ## §1  The bytes of the processes -/

namespace Vm

/-- Byte `a` of process `p` is `b`. -/
def Holds (vm : Vm) (p a : ℕ) (b : Byte) : Prop :=
  ∃ sp, vm.spaces p = some sp ∧ a / PageSize < sp.numPages ∧
    sp.view vm.phys.mainMemory a = some b

/-- Memory and one address space change, but not the frames of process `p`. -/
theorem Holds.frame {vm : Vm} (h : FrameInv vm) {p q a : ℕ} {b : Byte}
    {phys : PhysMemory} {x : Option AddrSpace} (hne : p ≠ q)
    (hmem : ∀ f, vm.Maps p (a / PageSize) f →
      phys.mainMemory (f * PageSize + a % PageSize) =
        vm.phys.mainMemory (f * PageSize + a % PageSize))
    (hb : vm.Holds p a b) :
    Holds ⟨phys, Function.update vm.spaces q x⟩ p a b := by
  obtain ⟨sp, hsp, ha, hview⟩ := hb
  refine ⟨sp, (Function.update_of_ne hne _ _).trans hsp, ha, ?_⟩
  rw [← hview]
  exact AddrSpace.view_congr_mem (h.wf p sp hsp) ha fun f hf => hmem f ⟨sp, hsp, hf⟩

theorem Holds.construct {vm vm' : Vm} {p q a : ℕ} {b : Byte}
    {executable : RandomAccessFile} (hstep : vm.construct q executable = some vm')
    (hb : vm.Holds p a b) : vm'.Holds p a b := by
  obtain ⟨sp', hnone, -, rfl⟩ := construct_inv hstep
  obtain ⟨sp, hsp, ha, hview⟩ := hb
  have hne : p ≠ q := by
    rintro rfl
    rw [hnone] at hsp
    cases hsp
  exact ⟨sp, (Function.update_of_ne hne _ _).trans hsp, ha, hview⟩

theorem Holds.destroy {vm vm' : Vm} {p q a : ℕ} {b : Byte} (hne : p ≠ q)
    (hstep : vm.destroy q = some vm') (hb : vm.Holds p a b) : vm'.Holds p a b := by
  obtain ⟨sp', freeFrame, -, -, rfl⟩ := destroy_inv hstep
  obtain ⟨sp, hsp, ha, hview⟩ := hb
  exact ⟨sp, (Function.update_of_ne hne _ _).trans hsp, ha, hview⟩

/-- **A page fault, served or not, moves bytes but changes none**: of the
process itself because `SwapOut` and `SwapIn` agree on the slot, of the others
because their frames are not touched. -/
theorem Holds.fault {vm vm' : Vm} (h : FrameInv vm) {p q a page : ℕ} {b : Byte}
    {ok : Bool} (hstep : vm.fault q page = some (ok, vm')) (hb : vm.Holds p a b) :
    vm'.Holds p a b := by
  obtain ⟨spq, hq, hpage, -, rfl, -⟩ := fault_inv hstep
  have hwf := h.wf q spq hq
  by_cases hne : p = q
  · subst hne
    obtain ⟨sp, hsp, ha, hview⟩ := hb
    obtain rfl : sp = spq := Option.some.inj (hsp.symm.trans hq)
    refine ⟨_, Function.update_self .., ?_,
      AddrSpace.load_view hwf (h.owns hq) hpage ha hview⟩
    rw [AddrSpace.numPages_load hwf hpage]
    exact ha
  · refine hb.frame h hne fun f hf => ?_
    have hdiv := AddrSpace.frame_addr_div f a
    refine AddrSpace.load_mem_outside hwf hpage ?_ fun r hr => hne ?_
    · rw [hdiv]
      exact h.marked hf
    · rw [hdiv] at hr
      exact (h.exclusive p q _ r f hf ⟨spq, hq, hr⟩).1

theorem Holds.readMem {vm vm' : Vm} (h : FrameInv vm) {p q a : ℕ} {b : Byte}
    {addr value : BitVec 32} {size : Width}
    (hstep : vm.readMem q addr size = some (.ok (value, vm')))
    (hb : vm.Holds p a b) : vm'.Holds p a b := by
  obtain ⟨spq, sp', hq, hread, rfl⟩ := readMem_ok_inv hstep
  obtain ⟨f, -, -, -, rfl⟩ := readMem_inv (h.wf q spq hq) hread
  by_cases hne : p = q
  · subst hne
    obtain ⟨sp, hsp, ha, hview⟩ := hb
    obtain rfl : sp = spq := Option.some.inj (hsp.symm.trans hq)
    exact ⟨_, Function.update_self .., ha, by simpa using hview⟩
  · exact hb.frame h hne fun _ _ => rfl

/-- **A completed load** returns the bytes that the process holds. -/
theorem Holds.loaded {vm vm' : Vm} (h : FrameInv vm) {p i : ℕ} {b : Byte}
    {addr value : BitVec 32} {size : Width}
    (hstep : vm.readMem p addr size = some (.ok (value, vm')))
    (hi : i < size.size) (hb : vm.Holds p (addr.toNat + i) b) :
    regByte value i = b := by
  obtain ⟨spq, sp', hq, hread, -⟩ := readMem_ok_inv hstep
  obtain ⟨sp, hsp, -, hview⟩ := hb
  obtain rfl : sp = spq := Option.some.inj (hsp.symm.trans hq)
  have hread := view_readMem (h.wf p sp hsp) hread hi
  exact Option.some.inj (hread.symm.trans hview)

/-- **A completed store** puts its bytes into the process's memory. -/
theorem holds_stored {vm vm' : Vm} (h : FrameInv vm) {p a : ℕ}
    {addr value : BitVec 32} {size : Width}
    (hstep : vm.writeMem p addr size value = some (.ok vm'))
    (hle : addr.toNat ≤ a) (hlt : a < addr.toNat + size.size) :
    vm'.Holds p a (regByte value (a - addr.toNat)) := by
  obtain ⟨sp, sp', mem, hsp, hwrite, rfl⟩ := writeMem_ok_inv hstep
  have hwf := h.wf p sp hsp
  obtain ⟨f, hm, hinside, -, htouch⟩ := writeMem_inv hwf hwrite
  have ha : a / PageSize < sp.numPages := by
    obtain ⟨i, rfl⟩ := Nat.exists_eq_add_of_le hle
    rw [(access_page hinside (by omega)).1]
    exact hm.1
  refine ⟨sp', Function.update_self .., ?_, ?_⟩
  · rw [htouch]
    exact ha
  · rw [view_writeMem hwf (h.owns hsp) ha hwrite, if_pos ⟨hle, hlt⟩]

/-- Every other byte, of whatever process, stays. -/
theorem Holds.writeMem {vm vm' : Vm} (h : FrameInv vm) {p q a : ℕ} {b : Byte}
    {addr value : BitVec 32} {size : Width}
    (hstep : vm.writeMem q addr size value = some (.ok vm'))
    (hout : p = q → ¬ (addr.toNat ≤ a ∧ a < addr.toNat + size.size))
    (hb : vm.Holds p a b) : vm'.Holds p a b := by
  obtain ⟨spq, sp', mem, hq, hwrite, rfl⟩ := writeMem_ok_inv hstep
  have hwf := h.wf q spq hq
  by_cases hne : p = q
  · subst hne
    obtain ⟨sp, hsp, ha, hview⟩ := hb
    obtain rfl : sp = spq := Option.some.inj (hsp.symm.trans hq)
    obtain ⟨f, -, -, -, htouch⟩ := writeMem_inv hwf hwrite
    refine ⟨sp', Function.update_self .., ?_, ?_⟩
    · rw [htouch]
      exact ha
    · rw [view_writeMem hwf (h.owns hsp) ha hwrite, if_neg (hout rfl)]
      exact hview
  · refine hb.frame h hne fun f hf => ?_
    refine writeMem_outside hwf hwrite fun r hr => hne ?_
    rw [AddrSpace.frame_addr_div] at hr
    exact (h.exclusive p q _ r f hf ⟨spq, hq, hr⟩).1

end Vm

/-! ## §2  What a run remembers -/

namespace Kernel

theorem length_accessBytes (size : Width) (value : BitVec 32) :
    (accessBytes size value).length = size.size := length_take_wordBytes value size

theorem getElem?_accessBytes {size : Width} {i : ℕ} (value : BitVec 32)
    (hi : i < size.size) : (accessBytes size value)[i]? = some (regByte value i) := by
  have hlen : i < (accessBytes size value).length := by
    rwa [length_accessBytes]
  have hget := getD_take_wordBytes value hi
  rw [List.getElem?_eq_getElem hlen, ← hget, List.getD_eq_getElem?_getD]
  change _ = some ((accessBytes size value)[i]?.getD 0)
  rw [List.getElem?_eq_getElem hlen, Option.getD_some]

/-- The machine holds what the log says was stored last. -/
structure Recalls (k : Kernel) (log : List Event) : Prop where
  held : ∀ p, k.vm.spaces p ≠ none → ∀ a b, lastStored log p a = some b →
    k.vm.Holds p a b
  unborn : ∀ p, k.sys.Unborn p → ∀ a, lastStored log p a = none

theorem Recalls.of_vm {k : Kernel} {sys : Sys} {pt : Option ℕ} {log : List Event}
    {vm : Vm} (h : Recalls k log) (hunborn : ∀ p, sys.Unborn p → k.sys.Unborn p)
    (hspaces : ∀ p, vm.spaces p ≠ none → k.vm.spaces p ≠ none)
    (hholds : ∀ p a b, vm.spaces p ≠ none → k.vm.Holds p a b → vm.Holds p a b) :
    Recalls ⟨sys, vm, pt⟩ log :=
  ⟨fun p hp a b hb => hholds p a b hp (h.held p (hspaces p hp) a b hb),
    fun p hp => h.unborn p (hunborn p hp)⟩

/-- Replacing the address space of a process that has one. -/
theorem spaces_update_ne {spaces : ℕ → Option AddrSpace} {q : ℕ} {sp sp' : AddrSpace}
    (hq : spaces q = some sp) (p : ℕ)
    (hp : Function.update spaces q (some sp') p ≠ none) : spaces p ≠ none := by
  by_cases hne : p = q
  · subst hne
    simp [hq]
  · rwa [Function.update_of_ne hne] at hp

theorem fault_spaces {vm vm' : Vm} {q page : ℕ} {ok : Bool}
    (hvm : vm.fault q page = some (ok, vm')) (p : ℕ) (hp : vm'.spaces p ≠ none) :
    vm.spaces p ≠ none := by
  obtain ⟨sp, hsp, -, -, rfl, -⟩ := fault_inv hvm
  exact spaces_update_ne hsp p hp

/-- **One step**: what it loads was held, and what it stores is held. -/
theorem Recalls.step {k k' : Kernel} {a : Act} {log : List Event} (h : Recalls k log)
    (hi : Inv k) (hflat : Flat log) (hstep : k.step a = some k') :
    Recalls k' (log ++ k.event a) ∧ Flat (log ++ k.event a) := by
  have quiet : k.event a = [] → Recalls k' log →
      Recalls k' (log ++ k.event a) ∧ Flat (log ++ k.event a) := by
    intro hev h'
    rw [hev, List.append_nil]
    exact ⟨h', hflat⟩
  cases step_effect hstep with
  | schedule b sys pt hb hs hev =>
      exact quiet hev (h.of_vm (fun p => Sys.step_unborn hs) (fun _ => id)
        fun _ _ _ _ => id)
  | start t executable sys vm ht hs hvm hev =>
      refine quiet hev ⟨fun p hp c b hb => ?_,
        fun p hp => h.unborn p (Sys.step_unborn hs hp)⟩
      -- a process that starts has stored nothing yet
      have hold : k.vm.spaces p ≠ none := by
        intro hnone
        have hpt : p = t.tid := by
          by_contra hne
          obtain ⟨sp, -, -, rfl⟩ := construct_inv hvm
          exact hp ((Function.update_of_ne hne _ _).trans hnone)
        have hunstarted : k.sys.Unstarted t.tid := by
          simp only [Sys.step, ht, Option.bind_eq_bind, Option.bind_some,
            Option.ite_none_right_eq_some] at hs
          exact ⟨_, t, ht, rfl, Or.inr hs.1.2⟩
        rw [h.unborn p (hpt ▸ Or.inr hunstarted)] at hb
        cases hb
      exact (h.held p hold c b hb).construct hvm
  | exit t code sys vm ht hvm hs hev =>
      have hgone : vm.spaces t.tid = none := by
        obtain ⟨sp, b, -, -, rfl⟩ := destroy_inv hvm
        exact Function.update_self ..
      have hne : ∀ p, vm.spaces p ≠ none → p ≠ t.tid := by
        rintro p hp rfl
        exact hp hgone
      refine quiet hev (h.of_vm (fun p => Sys.step_unborn hs) ?_ ?_)
      · intro p hp hnone
        obtain ⟨sp, b, -, -, rfl⟩ := destroy_inv hvm
        exact hp ((Function.update_of_ne (hne p hp) _ _).trans hnone)
      · exact fun p c b hp hb => hb.destroy (hne p hp) hvm
  | load t p addr size value vm hat ht hp hvm hev =>
      obtain rfl := hi.own_table hat ht hp
      have hspaces : ∀ p, vm.spaces p ≠ none → k.vm.spaces p ≠ none := by
        obtain ⟨sp, sp', hsp, -, rfl⟩ := readMem_ok_inv hvm
        exact spaces_update_ne hsp
      have hlive : k.vm.spaces t.tid ≠ none := by
        obtain ⟨sp, -, hsp, -⟩ := readMem_ok_inv hvm
        simp [hsp]
      rw [hev]
      constructor
      · have h' : Recalls ⟨k.sys, vm, k.pageTable⟩ log :=
          h.of_vm (fun _ => id) hspaces fun p c b _ hb => hb.readMem hi.frames hvm
        exact ⟨fun p hp c b hb => h'.held p hp c b (by simpa using hb),
          fun p hp c => by simpa using h'.unborn p hp c⟩
      · refine hflat.load fun i hlt b hb => ?_
        rw [length_accessBytes] at hlt
        rw [getElem?_accessBytes value hlt,
          (h.held _ hlive _ b hb).loaded hi.frames hvm hlt]
  | store t p addr size value vm hat ht hp hvm hev =>
      obtain rfl := hi.own_table hat ht hp
      have hspaces : ∀ p, vm.spaces p ≠ none → k.vm.spaces p ≠ none := by
        obtain ⟨sp, sp', mem, hsp, -, rfl⟩ := writeMem_ok_inv hvm
        exact spaces_update_ne hsp
      rw [hev]
      refine ⟨⟨fun p hp c b hb => ?_, fun p hp c => ?_⟩, hflat.store _ _ _⟩
      · by_cases hpt : p = t.tid
        · subst hpt
          rw [lastStored_snoc_store, length_accessBytes] at hb
          split at hb
          · rename_i hin
            rw [getElem?_accessBytes value (by omega)] at hb
            cases hb
            exact Vm.holds_stored hi.frames hvm hin.1 hin.2
          · rename_i hout
            exact (h.held _ (hspaces _ hp) c b hb).writeMem hi.frames hvm fun _ => hout
        · rw [lastStored_snoc_store_ne _ _ _ _ (Ne.symm hpt)] at hb
          exact (h.held p (hspaces p hp) c b hb).writeMem hi.frames hvm
            fun heq => absurd heq hpt
      · have hpt : t.tid ≠ p := by
          rintro rfl
          exact hi.born hat ht hp
        rw [lastStored_snoc_store_ne _ _ _ _ hpt]
        exact h.unborn p hp c
  | fault t page vm hat ht hvm hev =>
      exact quiet hev (h.of_vm (fun _ => id) (fault_spaces hvm)
        fun p c b _ hb => hb.fault hi.frames hvm)
  | noFrame t page vm sys ht hvm hs hev =>
      exact quiet hev (h.of_vm (fun p => Sys.step_unborn hs) (fault_spaces hvm)
        fun p c b _ hb => hb.fault hi.frames hvm)
  | killed which sys hraise hfatal hs hev =>
      exact quiet hev (h.of_vm (fun p => Sys.step_unborn hs) (fun _ => id)
        fun _ _ _ _ => id)
  | overflow hev => exact quiet hev h

/-! ## §3  Every run -/

/-- **Virtual memory refines flat memory.** In every run, whatever the processes,
their accesses, page faults and evictions, and the order in which they are
switched: each byte that a completed load of process `p` returns is the byte
that `p` stored last at that address, if it has stored one. -/
theorem loads_flat (algorithm : Algorithm) (main : SpaceId) (hmain : main ≠ NULL)
    (as : List Act) (k : Kernel) (log : List Event)
    (hrun : PartialMachine.run (logged step event) (init algorithm main, []) as =
      some (k, log)) : Flat log := by
  have hmotive : Inv k ∧ Recalls k log ∧ Flat log := by
    refine run_invariant (I := fun c => Inv c.1 ∧ Recalls c.1 c.2 ∧ Flat c.2)
      ⟨inv_init algorithm hmain, ⟨?_, by simp⟩, flat_nil⟩ ?_ as (k, log) hrun
    · intro p hp
      exact absurd rfl hp
    · rintro ⟨k, log⟩ a ⟨k', log'⟩ ⟨hi, hr, hf⟩ hstep
      obtain ⟨hstep, rfl⟩ := logged_eq_some.mp hstep
      exact ⟨hi.step hstep, hr.step hi hf hstep⟩
  exact hmotive.2.2

/-- A program of 49 pages stores a word into page 0, touches the other 48, so
that page 0 is swapped out, and loads the word again; the first of the two
loads is the page fault. -/
def swapTest : List Act :=
  [.start (zeroProgram 5248), .store 8 .word 0x01020304, .store 8 .word 0x01020304] ++
    (List.range 48).map (fun i => .load (BitVec.ofNat 32 ((i + 1) * 128)) .word) ++
    [.load 8 .word, .load 8 .word]

theorem loads_flat_swapTest : ∃ k log,
    PartialMachine.run (logged step event) (init .a1 1, []) swapTest = some (k, log) ∧
    log = [.store 0 8 [4, 3, 2, 1], .load 0 8 [4, 3, 2, 1]] ∧ Flat log := by
  have hlog : (PartialMachine.run (logged step event) (init .a1 1, [])
      swapTest).map Prod.snd =
      some [.store 0 8 [4, 3, 2, 1], .load 0 8 [4, 3, 2, 1]] := by decide +kernel
  obtain ⟨⟨k, log⟩, hrun, hlog⟩ := Option.map_eq_some_iff.mp hlog
  exact ⟨k, log, hrun, hlog, loads_flat .a1 1 (by decide) _ k log hrun⟩

end Kernel

end OsAssignments.MemoryManagement
