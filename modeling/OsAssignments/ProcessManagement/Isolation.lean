import OsAssignments.ProcessManagement.AddrSpace
import OsAssignments.Lib.PartialMachine

/-!
# Processes do not write into each other's memory

The counter hands out consecutive ranges of pages, the page table of an address
space maps into its own range, and `Translate` goes through the table that is in
the register, up to the size that is in it.

- `memory_isolated` — **the result**, for every header, and for every
  interleaving of stores, loaders and context switches.
-/

namespace OsAssignments.ProcessManagement

open MemoryManagement (ExceptionType Width Segment NoffHeader NOFFMAGIC length_take_wordBytes)
open PartialMachine

/-! ## §1  The counter -/

/-- The sum of the sizes wraps, but the number of pages does not. -/
theorem toNat_numPages_le (noffH : NoffHeader) : (numPages noffH).toNat ≤ 33554432 := by
  have hround : ∀ c : Prop, [Decidable c] → (if c then 1 else 0 : BitVec 32).toNat ≤ 1 := by
    intro c _
    split <;> simp
  have hdiv : ∀ n : BitVec 32, (divRoundUp n (BitVec.ofNat 32 PageSize)).toNat ≤ 33554432 := by
    intro n
    have hn := n.isLt
    have hup := hround (n % BitVec.ofNat 32 PageSize > 0)
    rw [divRoundUp, BitVec.toNat_add, BitVec.toNat_udiv]
    simp only [PageSize, BitVec.toNat_ofNat, Nat.reducePow, Nat.reduceMod] at hup ⊢
    omega
  exact hdiv _

/-- **`AllocatePhysicalPages`** succeeds exactly if the pages are still there, and hands
out the next ones. -/
theorem allocatePhysicalPages_cases {next n startPage next' : BitVec 32}
    (hnext : next.toNat ≤ NumPhysPages) (hn : n.toNat ≤ 33554432)
    (h : allocatePhysicalPages next n = (startPage, next')) :
    (startPage ≠ -1 ∧ startPage = next ∧ next'.toNat = next.toNat + n.toNat ∧
      next.toNat + n.toNat ≤ NumPhysPages) ∨
    (startPage = -1 ∧ next' = next ∧ NumPhysPages < next.toNat + n.toNat) := by
  simp only [NumPhysPages] at hnext ⊢
  have hsum : (next + n).toNat = next.toNat + n.toNat := by
    rw [BitVec.toNat_add]
    omega
  unfold allocatePhysicalPages at h
  dsimp only at h
  split at h
  · rename_i hle
    obtain ⟨rfl, rfl⟩ := Prod.mk.inj h
    have hle' : (next + n).toNat ≤ 48 := by simpa [NumPhysPages] using BitVec.le_def.mp hle
    refine Or.inl ⟨?_, rfl, hsum, hsum ▸ hle'⟩
    rintro rfl
    simp at hnext
  · rename_i hgt
    obtain ⟨rfl, rfl⟩ := Prod.mk.inj h
    have hgt' : ¬ (next + n).toNat ≤ 48 := by
      intro hle
      exact hgt (BitVec.le_def.mpr (by simpa [NumPhysPages] using hle))
    exact Or.inr ⟨rfl, rfl, by omega⟩

/-! ## §2  The invariant -/

/-- The page lies in `[startPage, startPage + numPages)`. -/
def AddrSpace.Contains (sp : AddrSpace) (page : ℕ) : Prop :=
  sp.startPage.toNat ≤ page ∧ page < sp.startPage.toNat + sp.numPages.toNat

/-- The table maps the pages of the space, in order. -/
def AddrSpace.MapsOwn (sp : AddrSpace) : Prop :=
  ∀ vpn, vpn < sp.numPages.toNat →
    (sp.pageTable vpn).physicalPage.toNat = sp.startPage.toNat + vpn

namespace Memory

variable {m m' : Memory}

structure MemoryInv (m : Memory) : Prop where
  next_le : m.nextFreePhysicalPage.toNat ≤ NumPhysPages
  handed : ∀ (k : ℕ) (p : Process), m.processes[k]? = some p →
    p.space.startPage.toNat + p.space.numPages.toNat ≤ m.nextFreePhysicalPage.toNat
  mapsOwn : ∀ (k : ℕ) (p : Process), m.processes[k]? = some p → p.space.MapsOwn
  sorted : ∀ (i j : ℕ) (p q : Process), i < j → m.processes[i]? = some p →
    m.processes[j]? = some q →
    p.space.startPage.toNat + p.space.numPages.toNat ≤ q.space.startPage.toNat
  installed : ∀ k, m.pageTable = some k →
    ∃ p : Process, m.processes[k]? = some p ∧ m.pageTableSize = p.space.numPages

/-- The two address spaces have the same pages. -/
structure SamePages (sp sp' : AddrSpace) : Prop where
  startPage : sp'.startPage = sp.startPage
  numPages : sp'.numPages = sp.numPages
  physicalPage : ∀ vpn, (sp'.pageTable vpn).physicalPage = (sp.pageTable vpn).physicalPage

/-- No address space is made, and the register stays. -/
structure SameSpaces (m m' : Memory) : Prop where
  next : m'.nextFreePhysicalPage = m.nextFreePhysicalPage
  pageTable : m'.pageTable = m.pageTable
  pageTableSize : m'.pageTableSize = m.pageTableSize
  was : ∀ (k : ℕ) (p' : Process), m'.processes[k]? = some p' →
    ∃ p : Process, m.processes[k]? = some p ∧ SamePages p.space p'.space
  is : ∀ (k : ℕ) (p : Process), m.processes[k]? = some p →
    ∃ p' : Process, m'.processes[k]? = some p' ∧ SamePages p.space p'.space

theorem SamePages.refl (sp : AddrSpace) : SamePages sp sp := ⟨rfl, rfl, fun _ => rfl⟩

theorem SamePages.trans {sp sp' sp'' : AddrSpace} (h : SamePages sp sp')
    (h' : SamePages sp' sp'') : SamePages sp sp'' :=
  ⟨h'.startPage.trans h.startPage, h'.numPages.trans h.numPages,
    fun vpn => (h'.physicalPage vpn).trans (h.physicalPage vpn)⟩

theorem SameSpaces.trans {m'' : Memory} (h : SameSpaces m m') (h' : SameSpaces m' m'') :
    SameSpaces m m'' := by
  refine ⟨h'.next.trans h.next, h'.pageTable.trans h.pageTable,
    h'.pageTableSize.trans h.pageTableSize, ?_, ?_⟩
  · intro k p'' hp''
    obtain ⟨p', hp', hsame'⟩ := h'.was k p'' hp''
    obtain ⟨p, hp, hsame⟩ := h.was k p' hp'
    exact ⟨p, hp, hsame.trans hsame'⟩
  · intro k p hp
    obtain ⟨p', hp', hsame⟩ := h.is k p hp
    obtain ⟨p'', hp'', hsame'⟩ := h'.is k p' hp'
    exact ⟨p'', hp'', hsame.trans hsame'⟩

/-- One process is changed, and not its pages. -/
theorem sameSpaces_modify (mem : ByteMem) (k : ℕ) {f : Process → Process}
    (hf : ∀ p, SamePages p.space (f p).space) :
    SameSpaces m { m with mainMemory := mem, processes := m.processes.modify k f } := by
  refine ⟨rfl, rfl, rfl, ?_, ?_⟩
  · intro i p' hp'
    simp only [List.getElem?_modify, Option.map_eq_map, Option.map_eq_some_iff] at hp'
    obtain ⟨p, hp, rfl⟩ := hp'
    refine ⟨p, hp, ?_⟩
    by_cases hk : k = i
    · simpa [hk] using hf p
    · simpa [hk] using SamePages.refl p.space
  · intro i p hp
    by_cases hk : k = i
    · exact ⟨f p, by simp [hp, hk], hf p⟩
    · exact ⟨p, by simp [hp, hk], SamePages.refl _⟩

theorem setKernel_sameSpaces (m : Memory) (k : ℕ) (kernel : Kernel) :
    SameSpaces m (m.setKernel k kernel) :=
  sameSpaces_modify _ k fun p => SamePages.refl p.space

theorem touch_samePages (sp : AddrSpace) (vpn : ℕ) (writing : Bool) :
    SamePages sp { sp with
      pageTable := Function.update sp.pageTable vpn
        { sp.pageTable vpn with
          use := true
          dirty := (sp.pageTable vpn).dirty || writing } } := by
  refine ⟨rfl, rfl, fun v => ?_⟩
  by_cases hv : v = vpn
  · subst hv
    simp
  · simp [hv]

theorem SameSpaces.inv (h : SameSpaces m m') (hi : MemoryInv m) : MemoryInv m' := by
  refine ⟨h.next ▸ hi.next_le, ?_, ?_, ?_, ?_⟩
  · intro k p' hp'
    obtain ⟨p, hp, hsame⟩ := h.was k p' hp'
    rw [hsame.startPage, hsame.numPages, h.next]
    exact hi.handed k p hp
  · intro k p' hp' vpn hvpn
    obtain ⟨p, hp, hsame⟩ := h.was k p' hp'
    rw [hsame.physicalPage, hsame.startPage]
    exact hi.mapsOwn k p hp vpn (hsame.numPages ▸ hvpn)
  · intro i j p' q' hij hp' hq'
    obtain ⟨p, hp, hsame⟩ := h.was i p' hp'
    obtain ⟨q, hq, hsame'⟩ := h.was j q' hq'
    rw [hsame.startPage, hsame.numPages, hsame'.startPage]
    exact hi.sorted i j p q hij hp hq
  · intro k hk
    obtain ⟨p, hp, hsize⟩ := hi.installed k (h.pageTable ▸ hk)
    obtain ⟨p', hp', hsame⟩ := h.is k p hp
    exact ⟨p', hp', by rw [h.pageTableSize, hsize, hsame.numPages]⟩

/-- Two address spaces share no page. -/
theorem MemoryInv.disjoint (hi : MemoryInv m) {i j : ℕ} {p q : Process} (hij : i ≠ j)
    (hp : m.processes[i]? = some p) (hq : m.processes[j]? = some q) (page : ℕ)
    (hin : p.space.Contains page) : ¬ q.space.Contains page := by
  rintro ⟨hq₁, hq₂⟩
  obtain ⟨hp₁, hp₂⟩ := hin
  rcases Nat.lt_or_gt_of_ne hij with hlt | hgt
  · have := hi.sorted i j p q hlt hp hq
    omega
  · have := hi.sorted j i q p hgt hq hp
    omega

/-! ## §3  A store -/

/-- **A translation** that succeeds leads into a page of the process whose table is
in the register. -/
theorem translate_cases (hi : MemoryInv m) {addr : BitVec 32} {size : Width} {writing : Bool}
    {pa : ℕ} (h : m.translate addr size writing = some (.ok (pa, m'))) :
    ∃ (k : ℕ) (p : Process) (page : ℕ), m.pageTable = some k ∧
      m.processes[k]? = some p ∧ p.space.Contains page ∧
      page * PageSize ≤ pa ∧ pa + size.size ≤ (page + 1) * PageSize ∧
      m' = m.touch k (addr.toNat / PageSize) writing := by
  unfold translate at h
  split at h
  · cases h
  rename_i halign
  split at h
  · cases h
  rename_i k hk
  split at h
  · cases h
  rename_i p hp
  dsimp only at h
  split at h
  · cases h
  rename_i hsize
  split at h
  · cases h
  split at h
  · cases h
  split at h
  · cases h
  split at h
  · cases h
    obtain ⟨q, hq, hregister⟩ := hi.installed k hk
    obtain rfl : p = q := Option.some.inj (hp.symm.trans hq)
    have hvpn : addr.toNat / PageSize < p.space.numPages.toNat := by
      rw [← hregister]
      exact Nat.lt_of_not_le hsize
    have hframe := hi.mapsOwn k p hp _ hvpn
    -- an aligned access does not leave the page
    have hinside : addr.toNat % PageSize + size.size ≤ PageSize := by
      simp only [PageSize]
      cases size <;> simp only [Width.size] at halign ⊢ <;> omega
    refine ⟨k, p, _, hk, hp, ⟨?_, ?_⟩, Nat.le_add_right _ _, ?_, rfl⟩
    · rw [hframe]
      exact Nat.le_add_right _ _
    · rw [hframe]
      exact Nat.add_lt_add_left hvpn _
    · rw [Nat.add_mul]
      omega
  · cases h

/-- No byte of a process whose table is not in the register changes. -/
def Spares (m m' : Memory) : Prop :=
  ∀ (k : ℕ) (p : Process), m.processes[k]? = some p → m.pageTable ≠ some k →
    ∀ x, p.space.Contains (x / PageSize) → m'.mainMemory x = m.mainMemory x

theorem spares_of_eq (h : m'.mainMemory = m.mainMemory) : Spares m m' :=
  fun _ _ _ _ x _ => congrFun h x

/-- **`WriteMem`** stores into the pages of the process whose table is in the
register. -/
theorem store_spares (hi : MemoryInv m) {k : ℕ} {addr value : BitVec 32} {size : Width}
    {kernel : Kernel} (h : m.store k addr size value kernel = some m') :
    SameSpaces m m' ∧ Spares m m' := by
  obtain ⟨r, hwrite, hm'⟩ := Option.map_eq_some_iff.mp h
  obtain ⟨t, htr, hr⟩ := Option.map_eq_some_iff.mp hwrite
  cases t with
  | error exception =>
      dsimp only at hr
      subst hr
      dsimp only at hm'
      subst hm'
      exact ⟨setKernel_sameSpaces m k _, spares_of_eq rfl⟩
  | ok out =>
      obtain ⟨pa, n⟩ := out
      dsimp only at hr
      subst hr
      dsimp only at hm'
      subst hm'
      obtain ⟨j, p, page, hj, hp, hin, hlow, hhigh, rfl⟩ := translate_cases hi htr
      refine ⟨?_, ?_⟩
      · have htouch : SameSpaces m { m.touch j (addr.toNat / PageSize) true with
            mainMemory := (m.touch j (addr.toNat / PageSize) true).mainMemory.write pa
              ((wordBytes value).take size.size) } :=
          sameSpaces_modify _ j fun p => touch_samePages p.space _ _
        exact htouch.trans (setKernel_sameSpaces _ k kernel)
      · intro i q hq hne x hx
        refine ByteMem.write_outside _ _ _ _ ?_
        rw [length_take_wordBytes]
        by_contra hinside
        have hpage : x / PageSize = page := by
          simp only [PageSize] at hlow hhigh ⊢
          omega
        refine hi.disjoint ?_ hp hq page hin (hpage ▸ hx)
        rintro rfl
        exact hne hj

/-! ## §4  Each step -/

/-- The address spaces stay where they are. -/
def Keeps (m m' : Memory) : Prop :=
  ∀ (k : ℕ) (p : Process), m.processes[k]? = some p → ∃ p' : Process, m'.processes[k]? = some p' ∧
    p'.space.startPage = p.space.startPage ∧ p'.space.numPages = p.space.numPages

theorem SameSpaces.keeps (h : SameSpaces m m') : Keeps m m' := by
  intro k p hp
  obtain ⟨p', hp', hsame⟩ := h.is k p hp
  exact ⟨p', hp', hsame.startPage, hsame.numPages⟩

theorem restoreState_inv (hi : MemoryInv m) {k : ℕ} {p : Process}
    (hp : m.processes[k]? = some p) : MemoryInv (m.restoreState k p.space) where
  next_le := hi.next_le
  handed := hi.handed
  mapsOwn := hi.mapsOwn
  sorted := hi.sorted
  installed := by
    intro j hj
    obtain rfl : k = j := Option.some.inj hj
    exact ⟨p, hp, rfl⟩

theorem mapsOwn_new {startPage n : BitVec 32}
    (h : startPage.toNat + n.toNat ≤ NumPhysPages) : (AddrSpace.new startPage n).MapsOwn := by
  intro vpn hvpn
  have hvpn' : vpn < n.toNat := hvpn
  simp only [NumPhysPages] at h
  simp only [AddrSpace.new, BitVec.toNat_add, BitVec.toNat_ofNat]
  omega

/-- **The constructor** takes the next pages, or aborts. -/
theorem newAddrSpace_cases (hi : MemoryInv m) {noffH : NoffHeader}
    {executable : RandomAccessFile} (h : m.newAddrSpace noffH executable = some m') :
    ∃ (noffH' : NoffHeader) (n : BitVec 32), checkHeader noffH = some noffH' ∧
      n = numPages noffH' ∧
      m.nextFreePhysicalPage.toNat + n.toNat ≤ NumPhysPages ∧
      m'.nextFreePhysicalPage.toNat = m.nextFreePhysicalPage.toNat + n.toNat ∧
      m'.processes = m.processes ++ [⟨noffH', executable,
        AddrSpace.new m.nextFreePhysicalPage n, .zeroing 0 0⟩] ∧
      m'.mainMemory = m.mainMemory ∧ m'.pageTable = some m.processes.length ∧
      m'.pageTableSize = n := by
  obtain ⟨noffH, hheader, h⟩ := Option.bind_eq_some_iff.mp h
  rcases hallocate : allocatePhysicalPages m.nextFreePhysicalPage (numPages noffH) with
    ⟨startPage, next⟩
  dsimp only at h
  rw [hallocate] at h
  dsimp only at h
  split at h
  · cases h
  rename_i hne
  obtain ⟨-, h⟩ := Option.ite_none_right_eq_some.mp h
  cases h
  rcases allocatePhysicalPages_cases hi.next_le (toNat_numPages_le noffH) hallocate with
    ⟨-, rfl, hnext, hle⟩ | ⟨hfail, -⟩
  · exact ⟨noffH, _, hheader, rfl, hle, hnext, rfl, rfl, rfl, rfl⟩
  · exact absurd hfail hne

theorem newAddrSpace_inv (hi : MemoryInv m) {noffH : NoffHeader}
    {executable : RandomAccessFile} (h : m.newAddrSpace noffH executable = some m') :
    MemoryInv m' ∧ Keeps m m' ∧ Spares m m' := by
  obtain ⟨noffH', n, -, -, hle, hnext, hprocesses, hmem, hinst, hsize⟩ :=
    newAddrSpace_cases hi h
  generalize hp : Process.mk noffH' executable (AddrSpace.new m.nextFreePhysicalPage n)
    (.zeroing 0 0) = p at hprocesses
  have hspace : p.space = AddrSpace.new m.nextFreePhysicalPage n := by rw [← hp]
  have hold : ∀ {k : ℕ} {q : Process}, m.processes[k]? = some q →
      m'.processes[k]? = some q ∧ k < m.processes.length := by
    intro k q hq
    have hk : k < m.processes.length := by
      by_contra hge
      rw [List.getElem?_eq_none (Nat.le_of_not_lt hge)] at hq
      cases hq
    exact ⟨by rw [hprocesses, List.getElem?_append_left hk, hq], hk⟩
  have hnew : m'.processes[m.processes.length]? = some p := by
    rw [hprocesses, List.getElem?_concat_length]
  -- a process of `m'` is one of `m`, or the new one
  have hcases : ∀ {k : ℕ} {q : Process}, m'.processes[k]? = some q →
      m.processes[k]? = some q ∨ (k = m.processes.length ∧ q = p) := by
    intro k q hq
    rw [hprocesses, List.getElem?_append] at hq
    split at hq
    · exact Or.inl hq
    · rename_i hge
      rw [List.getElem?_singleton] at hq
      obtain ⟨hk, hq⟩ := Option.ite_none_right_eq_some.mp hq
      exact Or.inr ⟨by omega, (Option.some.inj hq).symm⟩
  have hstart : p.space.startPage = m.nextFreePhysicalPage := by rw [hspace]; rfl
  have hpages : p.space.numPages = n := by rw [hspace]; rfl
  refine ⟨⟨hnext ▸ hle, ?_, ?_, ?_, ?_⟩, fun k q hq => ⟨q, (hold hq).1, rfl, rfl⟩,
    spares_of_eq hmem⟩
  · intro k q hq
    rw [hnext]
    rcases hcases hq with hq | ⟨-, rfl⟩
    · exact (hi.handed k q hq).trans (Nat.le_add_right _ _)
    · rw [hstart, hpages]
  · intro k q hq
    rcases hcases hq with hq | ⟨-, rfl⟩
    · exact hi.mapsOwn k q hq
    · rw [hspace]
      exact mapsOwn_new hle
  · intro i j q r hij hq hr
    rcases hcases hr with hr | ⟨hj, rfl⟩
    · rcases hcases hq with hq | ⟨rfl, -⟩
      · exact hi.sorted i j q r hij hq hr
      · exact absurd (hold hr).2 (Nat.not_lt.mpr hij.le)
    · rcases hcases hq with hq | ⟨rfl, -⟩
      · rw [hstart]
        exact hi.handed i q hq
      · exact absurd hij (hj ▸ Nat.lt_irrefl _)
  · intro k hk
    rw [hinst] at hk
    obtain rfl : m.processes.length = k := Option.some.inj hk
    exact ⟨p, hnew, hsize.trans hpages.symm⟩

/-- **The step lemma.** -/
theorem memoryInv_step {a : Act} (hi : MemoryInv m) (hstep : m.step a = some m') :
    MemoryInv m' ∧ Keeps m m' ∧ Spares m m' := by
  have same : SameSpaces m m' ∧ Spares m m' → MemoryInv m' ∧ Keeps m m' ∧ Spares m m' :=
    fun ⟨hsame, hspares⟩ => ⟨hsame.inv hi, hsame.keeps, hspares⟩
  -- a step that only notes how far the kernel has come
  have noted : ∀ k kernel, m.setKernel k kernel = m' →
      MemoryInv m' ∧ Keeps m m' ∧ Spares m m' := by
    rintro k kernel rfl
    exact same ⟨setKernel_sameSpaces m k kernel, spares_of_eq rfl⟩
  cases a with
  | newAddrSpace noffH executable => exact newAddrSpace_inv hi hstep
  | restoreState k =>
      obtain ⟨p, hp, rfl⟩ := Option.map_eq_some_iff.mp hstep
      exact ⟨restoreState_inv hi hp, fun j q hq => ⟨q, hq, rfl, rfl⟩, spares_of_eq rfl⟩
  | kernel k =>
      obtain ⟨p, hp, hkernel⟩ := Option.bind_eq_some_iff.mp hstep
      unfold kernelStep at hkernel
      split at hkernel
      · split at hkernel
        · split at hkernel
          · exact same (store_spares hi hkernel)
          · exact noted _ _ (Option.some.inj hkernel)
        · obtain ⟨kernel, -, hm'⟩ := Option.map_eq_some_iff.mp hkernel
          exact noted _ _ hm'
      · obtain ⟨kernel, -, hm'⟩ := Option.map_eq_some_iff.mp hkernel
        exact noted _ _ hm'
      · exact same (store_spares hi hkernel)
      · cases hkernel
      · cases hkernel
  | store k addr size value =>
      obtain ⟨-, hstore⟩ := Option.ite_none_right_eq_some.mp hstep
      exact same (store_spares hi hstore)
  | read k source userbuffer size =>
      obtain ⟨-, hm'⟩ := Option.ite_none_right_eq_some.mp hstep
      exact noted _ _ (Option.some.inj hm')
  | exit k =>
      obtain ⟨-, hm'⟩ := Option.ite_none_right_eq_some.mp hstep
      exact noted _ _ (Option.some.inj hm')

/-! ## §5  Runs -/

theorem memoryInv_run {as : List Act} (hrun : PartialMachine.run step init as = some m) :
    MemoryInv m := by
  refine run_invariant (I := MemoryInv) ?_
    (fun m a m' hi hstep => (memoryInv_step hi hstep).1) as m hrun
  exact ⟨Nat.zero_le _, fun k p hp => by simp [init] at hp, fun k p hp => by simp [init] at hp,
    fun i j p q _ hp => by simp [init] at hp, fun k hk => by cases hk⟩

/-- The ranges of two address spaces are disjoint, and lie in the memory. -/
def Separate (m : Memory) : Prop :=
  (∀ p ∈ m.processes, p.space.startPage.toNat + p.space.numPages.toNat ≤ NumPhysPages) ∧
    ∀ (i j : ℕ) (p q : Process), i ≠ j → m.processes[i]? = some p →
      m.processes[j]? = some q → ∀ page, p.space.Contains page → ¬ q.space.Contains page

theorem MemoryInv.separate (hi : MemoryInv m) : Separate m := by
  refine ⟨fun p hp => ?_, fun i j p q hij hp hq => hi.disjoint hij hp hq⟩
  obtain ⟨k, hk⟩ := List.mem_iff_getElem?.mp hp
  exact (hi.handed k p hk).trans hi.next_le

/-- **Processes are isolated**, in every run: the address spaces ever made have
disjoint ranges inside the memory, a step leaves them where they are, and it
changes no byte in the range of a process whose table is not in the register. -/
theorem memory_isolated (as : List Act) (m : Memory)
    (hrun : PartialMachine.run step init as = some m) :
    Separate m ∧ ∀ a m', m.step a = some m' → Keeps m m' ∧ Spares m m' := by
  have hi := memoryInv_run hrun
  exact ⟨hi.separate, fun a m' hstep => (memoryInv_step hi hstep).2⟩

/-- A program of nine pages, and one whose sizes add up to 128 after they wrap,
so that loading its data faults; the first one stores in between. -/
def twoLoaders : List Act :=
  let ordinary : NoffHeader := ⟨NOFFMAGIC, ⟨0, 0, 1⟩, ⟨0, 0, 0⟩, ⟨0, 0, 0⟩⟩
  let wrapping : NoffHeader := ⟨NOFFMAGIC, ⟨0, 0, 0⟩, ⟨4096, 0, 1⟩, ⟨0, 0, -897⟩⟩
  let executable : RandomAccessFile := ⟨1, fun _ => 7⟩
  [.newAddrSpace ordinary executable, .kernel 0, .newAddrSpace wrapping executable] ++
    List.replicate 131 (.kernel 1) ++ [.restoreState 0, .kernel 0]

theorem memory_isolated_twoLoaders : ∃ m,
    PartialMachine.run step init twoLoaders = some m ∧
    m.processes.map (fun p => (p.space.startPage, p.space.numPages)) = [(0, 9), (9, 1)] ∧
    m.processes.map Process.kernel = [.zeroing 0 2, .finished] ∧
    Separate m ∧ ∀ a m', m.step a = some m' → Keeps m m' ∧ Spares m m' := by
  have hend : (PartialMachine.run step init twoLoaders).map (fun m =>
      decide (m.processes.map (fun p => (p.space.startPage, p.space.numPages)) =
          [(0, 9), (9, 1)] ∧
        m.processes.map Process.kernel = [.zeroing 0 2, .finished])) = some true := by
    decide +kernel
  obtain ⟨m, hrun, hend⟩ := Option.map_eq_some_iff.mp hend
  obtain ⟨hranges, hkernels⟩ := of_decide_eq_true hend
  exact ⟨m, hrun, hranges, hkernels, memory_isolated _ m hrun⟩

end Memory

end OsAssignments.ProcessManagement
