import OsAssignments.MemoryManagement.AddrSpace

/-!
# What one page fault can do

- `seekVictim_cases` — the victim search returns the first resident page of the
  queue, or finds none.
- `loaded_cases` — the inversion lemma: the page was there already,
  a clear frame was taken, a page of the same address space was evicted, or
  nothing could be had. Every invariant below is derived from it.
- `load_frames` — the frames: after a load the page maps one frame `f`, which
  was clear or its own, and every other mapping of `f` is gone.
- `load_view` — the data: no byte of the address space changes.
-/

namespace OsAssignments.MemoryManagement

/-! ## §1  The victim search -/

theorem seekVictim_append (pt : ℕ → TranslationEntry) :
    ∀ l r : List ℕ,
      (∃ pre p post, l = pre ++ p :: post ∧ (pt p).valid = true ∧
        (∀ x ∈ pre, (pt x).valid = false) ∧
        seekVictim pt l.length (l ++ r) = (some p, p :: (post ++ r ++ pre))) ∨
      ((∀ x ∈ l, (pt x).valid = false) ∧
        seekVictim pt l.length (l ++ r) = (none, r ++ l))
  | [], r => Or.inr ⟨by simp, by simp [seekVictim]⟩
  | p :: l, r => by
      cases hp : (pt p).valid with
      | true =>
          refine Or.inl ⟨[], p, l, rfl, hp, by simp, ?_⟩
          simp [seekVictim, hp]
      | false =>
          -- the head goes to the back, behind what was rotated before
          have hstep : seekVictim pt (p :: l).length (p :: l ++ r) =
              seekVictim pt l.length (l ++ (r ++ [p])) := by
            simp [seekVictim, hp]
          rcases seekVictim_append pt l (r ++ [p]) with
            ⟨pre, v, post, rfl, hv, hpre, heq⟩ | ⟨hall, heq⟩
          · refine Or.inl ⟨p :: pre, v, post, rfl, hv, ?_, ?_⟩
            · intro x hx
              rcases List.mem_cons.mp hx with rfl | hx
              · exact hp
              · exact hpre x hx
            · rw [hstep, heq]
              simp
          · refine Or.inr ⟨?_, ?_⟩
            · intro x hx
              rcases List.mem_cons.mp hx with rfl | hx
              · exact hp
              · exact hall x hx
            · rw [hstep, heq]
              simp

theorem seekVictim_cases (pt : ℕ → TranslationEntry) (q : List ℕ) :
    (∃ pre p post, q = pre ++ p :: post ∧ (pt p).valid = true ∧
      (∀ x ∈ pre, (pt x).valid = false) ∧
      seekVictim pt q.length q = (some p, p :: (post ++ pre))) ∨
    ((∀ x ∈ q, (pt x).valid = false) ∧ seekVictim pt q.length q = (none, q)) := by
  simpa using seekVictim_append pt q []

/-! ## §2  Well-formed address spaces -/

namespace AddrSpace

/-- Page `p` is resident in frame `f`. -/
def Maps (sp : AddrSpace) (p f : ℕ) : Prop :=
  p < sp.numPages ∧ (sp.pageTable p).valid = true ∧ (sp.pageTable p).physicalPage = f

/-- The part of the invariant that one address space can see by itself. -/
structure Wf (sp : AddrSpace) : Prop where
  valid_range : ∀ p < sp.numPages, (sp.pageTable p).valid = true →
    0 ≤ (sp.pageTable p).physicalPage ∧ (sp.pageTable p).physicalPage < NumPhysPages
  invalid : ∀ p < sp.numPages, (sp.pageTable p).valid = false →
    (sp.pageTable p).physicalPage = -1 ∨ (sp.pageTable p).physicalPage = IN_SWAP_FILE
  /-- Every resident page is in the queue, so a victim can be found. -/
  queued : ∀ p < sp.numPages, (sp.pageTable p).valid = true → p ∈ sp.loadedPages
  queue_lt : ∀ p ∈ sp.loadedPages, p < sp.numPages
  /-- A swapped-out page has a full slot in the swap file. -/
  in_swap : ∀ p < sp.numPages, (sp.pageTable p).physicalPage = IN_SWAP_FILE →
    p * PageSize + PageSize ≤ sp.swapFile.size

theorem new_wf {executable : RandomAccessFile} {sp : AddrSpace}
    (h : AddrSpace.new executable = some sp) :
    sp.Wf ∧ ∀ p, (sp.pageTable p).valid = false := by
  simp only [AddrSpace.new] at h
  split at h
  · cases h
    exact ⟨⟨by simp, by simp, by simp, by simp, by simp [IN_SWAP_FILE]⟩, by simp⟩
  · simp at h

theorem new_physicalPage {executable : RandomAccessFile} {sp : AddrSpace}
    (h : AddrSpace.new executable = some sp) (p : ℕ) : (sp.pageTable p).physicalPage = -1 := by
  simp only [AddrSpace.new] at h
  split at h
  · cases h
    rfl
  · cases h

theorem Wf.maps_of_valid {sp : AddrSpace} (h : sp.Wf) {p : ℕ}
    (hp : p < sp.numPages) (hv : (sp.pageTable p).valid = true) :
    sp.Maps p (sp.pageTable p).physicalPage.toNat ∧
      (sp.pageTable p).physicalPage.toNat < NumPhysPages := by
  have hr := h.valid_range p hp hv
  exact ⟨⟨hp, hv, by omega⟩, by omega⟩

theorem Wf.frame_lt {sp : AddrSpace} (h : sp.Wf) {p f : ℕ} (hm : sp.Maps p f) :
    f < NumPhysPages := by
  have hr := h.valid_range p hm.1 hm.2.1
  have := hm.2.2
  omega

theorem not_maps_of_invalid {sp : AddrSpace} {p f : ℕ}
    (h : (sp.pageTable p).valid = false) : ¬ sp.Maps p f := by
  intro hm
  rw [hm.2.1] at h
  exact Bool.noConfusion h

/-- A page maps at most one frame. -/
theorem Maps.unique {sp : AddrSpace} {p f g : ℕ} (hf : sp.Maps p f)
    (hg : sp.Maps p g) : f = g := by
  have := hf.2.2.symm.trans hg.2.2
  omega

/-! ## §3  The pieces: enqueue, evict, fill -/

/-- The page begins past the image, as `LoadFromExecutable` sees it. -/
def PastImage (sp : AddrSpace) (p : ℕ) : Prop :=
  (sp.noffH.code.size + sp.noffH.initData.size).toInt ≤
    (BitVec.ofNat 32 (p * PageSize)).toInt

/-- Where in the file the page is read. -/
def readAddr (sp : AddrSpace) (p : ℕ) : ℕ :=
  (sp.noffH.code.inFileAddr + BitVec.ofNat 32 (p * PageSize)).toNat

/-- The image has the page at a negative position of the file. -/
def SeeksBefore (sp : AddrSpace) (p : ℕ) : Prop :=
  ¬ sp.PastImage p ∧ 0x80000000 ≤ sp.readAddr p

/-- Nachos stops when it loads the page: that is not in the swap file, and `Lseek` does not
go where the executable has it. -/
def Unreadable (sp : AddrSpace) (p : ℕ) : Prop :=
  (sp.pageTable p).physicalPage ≠ IN_SWAP_FILE ∧ sp.SeeksBefore p

/-- What is in memory after the first load; nothing new where Nachos stopped. -/
def imageLoaded (mem : ByteMem) (sp : AddrSpace) (p f : ℕ) : ByteMem :=
  (sp.loadImage mem p f).getD mem

/-- The same of memory and address space, for a page from either file. -/
def filled (mem : ByteMem) (sp : AddrSpace) (p f : ℕ) : ByteMem × AddrSpace :=
  (sp.fillFrame mem p f).getD (mem, sp.mapPage p f)

theorem loadImage_eq_none_iff {mem : ByteMem} {sp : AddrSpace} {p f : ℕ} :
    sp.loadImage mem p f = none ↔ sp.SeeksBefore p := by
  have hneg : (sp.noffH.code.inFileAddr + BitVec.ofNat 32 (p * PageSize)).toInt < 0 ↔
      0x80000000 ≤ sp.readAddr p := by
    rw [readAddr, BitVec.toInt_eq_toNat_cond]
    split <;> omega
  unfold loadImage SeeksBefore PastImage
  rw [← hneg]
  dsimp only
  split_ifs <;> simp_all

theorem fillFrame_eq_none_iff {mem : ByteMem} {sp : AddrSpace} {p f : ℕ} :
    sp.fillFrame mem p f = none ↔ sp.Unreadable p := by
  unfold fillFrame Unreadable
  split
  · simp_all
  · rw [Option.map_eq_none_iff, loadImage_eq_none_iff]
    simp_all

theorem fillFrame_eq_some {mem : ByteMem} {sp : AddrSpace} {p : ℕ} (h : ¬ sp.Unreadable p)
    (f : ℕ) : sp.fillFrame mem p f = some (sp.filled mem p f) := by
  obtain ⟨r, hr⟩ : ∃ r, sp.fillFrame mem p f = some r := by
    apply Option.ne_none_iff_exists'.mp
    rwa [ne_eq, fillFrame_eq_none_iff]
  rw [filled, hr, Option.getD_some]

theorem filled_eq (mem : ByteMem) (sp : AddrSpace) (p f : ℕ) : sp.filled mem p f =
    if (sp.pageTable p).physicalPage = IN_SWAP_FILE then sp.swapIn mem p f
    else (sp.imageLoaded mem p f, sp.mapPage p f) := by
  unfold filled fillFrame imageLoaded
  split
  · rfl
  · cases sp.loadImage mem p f <;> rfl

/-- The push at the top of `LoadFromExecutable`. -/
def enqueue (sp : AddrSpace) (p : ℕ) : AddrSpace :=
  { sp with loadedPages := sp.loadedPages ++ [p] }

@[simp] theorem pageTable_enqueue (sp : AddrSpace) (p : ℕ) :
    (sp.enqueue p).pageTable = sp.pageTable := rfl
@[simp] theorem numPages_enqueue (sp : AddrSpace) (p : ℕ) :
    (sp.enqueue p).numPages = sp.numPages := rfl
@[simp] theorem swapFile_enqueue (sp : AddrSpace) (p : ℕ) :
    (sp.enqueue p).swapFile = sp.swapFile := rfl
@[simp] theorem loadedPages_enqueue (sp : AddrSpace) (p : ℕ) :
    (sp.enqueue p).loadedPages = sp.loadedPages ++ [p] := rfl
@[simp] theorem maps_enqueue (sp : AddrSpace) (p q f : ℕ) :
    (sp.enqueue p).Maps q f ↔ sp.Maps q f := Iff.rfl

theorem Wf.enqueue {sp : AddrSpace} (h : sp.Wf) {p : ℕ} (hp : p < sp.numPages) :
    (sp.enqueue p).Wf where
  valid_range := h.valid_range
  invalid := h.invalid
  queued q hq hv := List.mem_append_left _ (h.queued q hq hv)
  queue_lt q hq := by
    rcases List.mem_append.mp hq with hq | hq
    · exact h.queue_lt q hq
    · rw [List.mem_singleton.mp hq]
      exact hp
  in_swap := h.in_swap

@[simp] theorem numPages_evict (mem : ByteMem) (sp : AddrSpace) (v : ℕ)
    (q : List ℕ) : (sp.evict mem v q).numPages = sp.numPages := rfl
@[simp] theorem loadedPages_evict (mem : ByteMem) (sp : AddrSpace) (v : ℕ)
    (q : List ℕ) : (sp.evict mem v q).loadedPages = q := rfl

theorem pageTable_evict_self (mem : ByteMem) (sp : AddrSpace) (v : ℕ)
    (q : List ℕ) : (sp.evict mem v q).pageTable v =
      { sp.pageTable v with valid := false, physicalPage := IN_SWAP_FILE } := by
  simp [evict]

theorem pageTable_evict_ne (mem : ByteMem) (sp : AddrSpace) {v p : ℕ}
    (q : List ℕ) (h : p ≠ v) :
    (sp.evict mem v q).pageTable p = sp.pageTable p := by
  simp [evict, h]

theorem size_swapFile_evict (mem : ByteMem) (sp : AddrSpace) (v : ℕ)
    (q : List ℕ) : (sp.evict mem v q).swapFile.size =
      max sp.swapFile.size (v * PageSize + PageSize) := by
  simp [evict, RandomAccessFile.size_fwrite]

theorem maps_evict {mem : ByteMem} {sp : AddrSpace} {v p f : ℕ} {q : List ℕ} :
    (sp.evict mem v q).Maps p f ↔ sp.Maps p f ∧ p ≠ v := by
  by_cases h : p = v
  · subst h
    simp [Maps, pageTable_evict_self]
  · simp [Maps, pageTable_evict_ne mem sp q h, h]

theorem Wf.evict {sp : AddrSpace} (h : sp.Wf) (mem : ByteMem) {v : ℕ}
    {pre post : List ℕ} (hq : sp.loadedPages = pre ++ v :: post) :
    (sp.evict mem v (post ++ pre)).Wf where
  valid_range p hp hv := by
    by_cases hpv : p = v
    · subst hpv
      simp [pageTable_evict_self] at hv
    · rw [pageTable_evict_ne mem sp _ hpv] at hv ⊢
      exact h.valid_range p hp hv
  invalid p hp hv := by
    by_cases hpv : p = v
    · subst hpv
      simp [pageTable_evict_self]
    · rw [pageTable_evict_ne mem sp _ hpv] at hv ⊢
      exact h.invalid p hp hv
  queued p hp hv := by
    by_cases hpv : p = v
    · subst hpv
      simp [pageTable_evict_self] at hv
    · rw [pageTable_evict_ne mem sp _ hpv] at hv
      have hmem := h.queued p hp hv
      rw [hq] at hmem
      simp only [List.mem_append, List.mem_cons, loadedPages_evict] at hmem ⊢
      tauto
  queue_lt p hp := by
    apply h.queue_lt p
    rw [hq]
    simp only [List.mem_append, List.mem_cons, loadedPages_evict] at hp ⊢
    tauto
  in_swap p hp hs := by
    rw [size_swapFile_evict]
    by_cases hpv : p = v
    · subst hpv
      exact le_max_right _ _
    · rw [pageTable_evict_ne mem sp _ hpv] at hs
      exact le_trans (h.in_swap p hp hs) (le_max_left _ _)

@[simp] theorem numPages_filled (mem : ByteMem) (sp : AddrSpace) (p f : ℕ) :
    (sp.filled mem p f).2.numPages = sp.numPages := by
  rw [filled_eq]
  split <;> rfl

@[simp] theorem loadedPages_filled (mem : ByteMem) (sp : AddrSpace) (p f : ℕ) :
    (sp.filled mem p f).2.loadedPages = sp.loadedPages := by
  rw [filled_eq]
  split <;> rfl

theorem pageTable_filled_self (mem : ByteMem) (sp : AddrSpace) (p f : ℕ) :
    ((sp.filled mem p f).2.pageTable p).valid = true ∧
      ((sp.filled mem p f).2.pageTable p).physicalPage = f := by
  rw [filled_eq]
  split <;> simp [swapIn, mapPage]

theorem pageTable_filled_ne (mem : ByteMem) (sp : AddrSpace) {p q : ℕ} (f : ℕ)
    (h : q ≠ p) : (sp.filled mem p f).2.pageTable q = sp.pageTable q := by
  rw [filled_eq]
  split <;> simp [swapIn, mapPage, h]

theorem swapFile_filled (mem : ByteMem) (sp : AddrSpace) (p f : ℕ) :
    (sp.filled mem p f).2.swapFile =
      if (sp.pageTable p).physicalPage = IN_SWAP_FILE then
        sp.swapFile.fwrite (p * PageSize) (List.replicate PageSize 0)
      else sp.swapFile := by
  rw [filled_eq]
  split <;> rfl

theorem le_size_swapFile_filled (mem : ByteMem) (sp : AddrSpace) (p f : ℕ) :
    sp.swapFile.size ≤ (sp.filled mem p f).2.swapFile.size := by
  rw [swapFile_filled]
  split
  · rw [RandomAccessFile.size_fwrite]
    exact le_max_left _ _
  · exact le_rfl

theorem maps_filled {mem : ByteMem} {sp : AddrSpace} {p q f g : ℕ}
    (hp : p < sp.numPages) :
    (sp.filled mem p f).2.Maps q g ↔
      (q = p ∧ g = f) ∨ (q ≠ p ∧ sp.Maps q g) := by
  by_cases h : q = p
  · subst h
    obtain ⟨hv, hf⟩ := pageTable_filled_self mem sp q f
    have hcast : (f : ℤ) = g ↔ g = f := by omega
    simp [Maps, hv, hf, hp, hcast]
  · simp [Maps, pageTable_filled_ne mem sp f h, h]

theorem Wf.filled {sp : AddrSpace} (h : sp.Wf) {mem : ByteMem} {p f : ℕ}
    (hp : p ∈ sp.loadedPages) (hf : f < NumPhysPages) :
    (sp.filled mem p f).2.Wf := by
  have hlt := h.queue_lt p hp
  have hself := pageTable_filled_self mem sp p f
  have hsize := le_size_swapFile_filled mem sp p f
  constructor
  · intro q hq hv
    by_cases hqp : q = p
    · subst hqp
      rw [hself.2]
      omega
    · rw [pageTable_filled_ne mem sp f hqp] at hv ⊢
      exact h.valid_range q (by simpa using hq) hv
  · intro q hq hv
    by_cases hqp : q = p
    · subst hqp
      rw [hself.1] at hv
      exact Bool.noConfusion hv
    · rw [pageTable_filled_ne mem sp f hqp] at hv ⊢
      exact h.invalid q (by simpa using hq) hv
  · intro q hq hv
    rw [loadedPages_filled]
    by_cases hqp : q = p
    · exact hqp ▸ hp
    · rw [pageTable_filled_ne mem sp f hqp] at hv
      exact h.queued q (by simpa using hq) hv
  · intro q hq
    rw [loadedPages_filled] at hq
    simpa using h.queue_lt q hq
  · intro q hq hs
    by_cases hqp : q = p
    · subst hqp
      rw [hself.2] at hs
      simp [IN_SWAP_FILE] at hs
    · rw [pageTable_filled_ne mem sp f hqp] at hs
      exact le_trans (h.in_swap q (by simpa using hq) hs) hsize

/-! ## §4  The inversion lemma -/

/-- **The four outcomes of a page fault.** The queue `pre ++ v :: post` is the
one `LoadFromExecutable` has just pushed `p` onto. -/
theorem loadFromExecutable_cases (pm : PhysMemory) {sp : AddrSpace} {p : ℕ}
    (h : sp.Wf) (hp : p < sp.numPages) :
    ((sp.pageTable p).valid = true ∧
      sp.loadFromExecutable pm p = some (true, pm, sp.enqueue p)) ∨
    ((sp.pageTable p).valid = false ∧ ∃ f < pm.freeFrame.numBits,
      pm.freeFrame.testBit f = false ∧
      sp.loadFromExecutable pm p =
        ((sp.enqueue p).fillFrame pm.mainMemory p f).map fun r =>
          (true, ⟨r.1, pm.freeFrame.setBit f⟩, r.2)) ∨
    ((sp.pageTable p).valid = false ∧
      (∀ i < pm.freeFrame.numBits, pm.freeFrame.testBit i = true) ∧
      ∃ pre v post f, sp.loadedPages ++ [p] = pre ++ v :: post ∧ sp.Maps v f ∧
      sp.loadFromExecutable pm p =
        (((sp.enqueue p).evict pm.mainMemory v (post ++ pre)).fillFrame
          pm.mainMemory p f).map fun r => (true, ⟨r.1, pm.freeFrame⟩, r.2)) ∨
    ((sp.pageTable p).valid = false ∧
      (∀ i < pm.freeFrame.numBits, pm.freeFrame.testBit i = true) ∧
      (∀ q < sp.numPages, (sp.pageTable q).valid = false) ∧
      sp.loadFromExecutable pm p = some (false, pm, sp.enqueue p)) := by
  cases hv : (sp.pageTable p).valid with
  | true =>
      refine Or.inl ⟨rfl, ?_⟩
      simp [loadFromExecutable, hv, enqueue]
  | false =>
      right
      rcases pm.freeFrame.find_cases with ⟨f, hfind, hf, hclear, -⟩ | ⟨hfind, hall⟩
      · refine Or.inl ⟨rfl, f, hf, hclear, ?_⟩
        simp [loadFromExecutable, hv, hfind, enqueue]
      · right
        rcases seekVictim_cases sp.pageTable (sp.loadedPages ++ [p]) with
          ⟨pre, v, post, hq, hvv, -, hseek⟩ | ⟨hnone, hseek⟩
        · have hvlt : v < sp.numPages := by
            have hmem : v ∈ (sp.enqueue p).loadedPages := by simp [hq]
            exact (h.enqueue hp).queue_lt v hmem
          obtain ⟨hmaps, -⟩ := h.maps_of_valid hvlt hvv
          have hr := h.valid_range v hvlt hvv
          have hne : (sp.pageTable v).physicalPage ≠ -1 := by omega
          refine Or.inl ⟨rfl, hall, pre, v, post, _, hq, hmaps, ?_⟩
          simp only [loadFromExecutable, hv, hfind, swapOut, hseek, hne, enqueue,
            Bool.false_eq_true, if_false, List.tail_cons]
        · refine Or.inr ⟨rfl, hall, ?_, ?_⟩
          · intro q hq
            by_contra hvq
            have hmem := h.queued q hq (by simpa using hvq)
            exact hvq (hnone q (List.mem_append_left _ hmem))
          · simp only [loadFromExecutable, hv, hfind, swapOut, hseek, enqueue,
              Bool.false_eq_true, if_false, if_true]

/-- No frame is clear, and no page can give up one. -/
def NoFrame (b : BitMap) (sp : AddrSpace) : Prop :=
  (∀ f < b.numBits, b.testBit f = true) ∧ ∀ q < sp.numPages, (sp.pageTable q).valid = false

/-- The outcome of a load; one that stops Nachos counts as one that does nothing. -/
def loaded (pm : PhysMemory) (sp : AddrSpace) (p : ℕ) : Bool × PhysMemory × AddrSpace :=
  (sp.loadFromExecutable pm p).getD (false, pm, sp.enqueue p)

theorem loaded_of_eq_some {pm : PhysMemory} {sp : AddrSpace} {p : ℕ}
    {r : Bool × PhysMemory × AddrSpace} (h : sp.loadFromExecutable pm p = some r) :
    sp.loaded pm p = r := by
  rw [loaded, h, Option.getD_some]

/-- A load that returned `TRUE` did not stop Nachos. -/
theorem loadFromExecutable_eq_some {pm : PhysMemory} {sp : AddrSpace} {p : ℕ}
    (h : (sp.loaded pm p).1 = true) : sp.loadFromExecutable pm p =
      some (true, (sp.loaded pm p).2.1, (sp.loaded pm p).2.2) := by
  cases hload : sp.loadFromExecutable pm p with
  | none =>
      rw [loaded, hload] at h
      cases h
  | some r => rw [← h, loaded_of_eq_some hload]

/-- Neither the queue nor a victim matters to where the page is read. -/
theorem unreadable_evict {mem : ByteMem} {sp : AddrSpace} {p v : ℕ} {q : List ℕ} (h : p ≠ v) :
    ((sp.enqueue p).evict mem v q).Unreadable p ↔ sp.Unreadable p := by
  unfold Unreadable
  rw [pageTable_evict_ne _ _ _ h]
  exact Iff.rfl

/-- **When Nachos stops**: a frame was found for a page that it cannot read. -/
theorem loadFromExecutable_eq_none_iff {pm : PhysMemory} {sp : AddrSpace} {p : ℕ}
    (h : sp.Wf) (hp : p < sp.numPages) : sp.loadFromExecutable pm p = none ↔
      (sp.pageTable p).valid = false ∧ ¬ sp.NoFrame pm.freeFrame ∧ sp.Unreadable p := by
  rcases loadFromExecutable_cases pm h hp with
    ⟨hv, heq⟩ | ⟨hv, f, hf, hclear, heq⟩ | ⟨hv, -, pre, v, post, f, -, hm, heq⟩ |
    ⟨-, hall, hnone, heq⟩
  · simp [heq, hv]
  · have hframe : ¬ sp.NoFrame pm.freeFrame := by
      intro hno
      rw [hno.1 f hf] at hclear
      exact Bool.noConfusion hclear
    rw [heq, Option.map_eq_none_iff, fillFrame_eq_none_iff]
    exact ⟨fun hun => ⟨hv, hframe, hun⟩, fun hun => hun.2.2⟩
  · have hpv : p ≠ v := by
      rintro rfl
      exact not_maps_of_invalid hv hm
    have hframe : ¬ sp.NoFrame pm.freeFrame :=
      fun hno => not_maps_of_invalid (hno.2 v hm.1) hm
    rw [heq, Option.map_eq_none_iff, fillFrame_eq_none_iff, unreadable_evict hpv]
    exact ⟨fun hun => ⟨hv, hframe, hun⟩, fun hun => hun.2.2⟩
  · have hno : sp.NoFrame pm.freeFrame := ⟨hall, hnone⟩
    simp [heq, hno]

/-- **The same outcomes**, of a load that may have stopped Nachos. -/
theorem loaded_cases (pm : PhysMemory) {sp : AddrSpace} {p : ℕ}
    (h : sp.Wf) (hp : p < sp.numPages) :
    ((sp.pageTable p).valid = true ∧
      sp.loaded pm p = (true, pm, sp.enqueue p)) ∨
    ((sp.pageTable p).valid = false ∧ ∃ f < pm.freeFrame.numBits,
      pm.freeFrame.testBit f = false ∧
      sp.loaded pm p =
        (true, ⟨((sp.enqueue p).filled pm.mainMemory p f).1,
          pm.freeFrame.setBit f⟩,
          ((sp.enqueue p).filled pm.mainMemory p f).2)) ∨
    ((sp.pageTable p).valid = false ∧
      (∀ i < pm.freeFrame.numBits, pm.freeFrame.testBit i = true) ∧
      ∃ pre v post f, sp.loadedPages ++ [p] = pre ++ v :: post ∧ sp.Maps v f ∧
      sp.loaded pm p =
        (true, ⟨(((sp.enqueue p).evict pm.mainMemory v (post ++ pre)).filled
          pm.mainMemory p f).1, pm.freeFrame⟩,
          (((sp.enqueue p).evict pm.mainMemory v (post ++ pre)).filled
          pm.mainMemory p f).2)) ∨
    ((sp.pageTable p).valid = false ∧ (sp.NoFrame pm.freeFrame ∨ sp.Unreadable p) ∧
      sp.loaded pm p = (false, pm, sp.enqueue p)) := by
  by_cases hnone : sp.loadFromExecutable pm p = none
  · obtain ⟨hv, -, hun⟩ := (loadFromExecutable_eq_none_iff h hp).mp hnone
    exact Or.inr (Or.inr (Or.inr ⟨hv, Or.inr hun, by rw [loaded, hnone, Option.getD_none]⟩))
  have hgood {mem : ByteMem} {sp' : AddrSpace} {f : ℕ} {b : BitMap}
      (heq : sp.loadFromExecutable pm p = (sp'.fillFrame mem p f).map fun r =>
        (true, ⟨r.1, b⟩, r.2)) :
      sp.loaded pm p = (true, ⟨(sp'.filled mem p f).1, b⟩, (sp'.filled mem p f).2) := by
    rw [heq, Option.map_eq_none_iff, fillFrame_eq_none_iff] at hnone
    rw [fillFrame_eq_some hnone] at heq
    exact loaded_of_eq_some heq
  rcases loadFromExecutable_cases pm h hp with
    ⟨hv, heq⟩ | ⟨hv, f, hf, hclear, heq⟩ | ⟨hv, hall, pre, v, post, f, hq, hm, heq⟩ |
    ⟨hv, hall, hno, heq⟩
  · exact Or.inl ⟨hv, loaded_of_eq_some heq⟩
  · exact Or.inr (Or.inl ⟨hv, f, hf, hclear, hgood heq⟩)
  · exact Or.inr (Or.inr (Or.inl ⟨hv, hall, pre, v, post, f, hq, hm, hgood heq⟩))
  · exact Or.inr (Or.inr (Or.inr ⟨hv, Or.inl ⟨hall, hno⟩, loaded_of_eq_some heq⟩))

/-! ## §5  Frames -/

theorem load_wf {pm : PhysMemory} {sp : AddrSpace} {p : ℕ} (h : sp.Wf)
    (hp : p < sp.numPages) (hbits : pm.freeFrame.numBits = NumPhysPages) :
    (sp.loaded pm p).2.2.Wf := by
  have henq := h.enqueue hp
  have hmem : p ∈ (sp.enqueue p).loadedPages := by simp
  rcases loaded_cases pm h hp with
    ⟨-, heq⟩ | ⟨-, f, hf, -, heq⟩ | ⟨hv, -, pre, v, post, f, hq, hm, heq⟩ |
    ⟨-, -, heq⟩ <;> rw [heq]
  · exact henq
  · exact henq.filled hmem (hbits ▸ hf)
  · have hpv : p ≠ v := by
      rintro rfl
      exact not_maps_of_invalid hv hm
    refine (henq.evict pm.mainMemory hq).filled ?_ (h.frame_lt hm)
    rw [loadedPages_enqueue, hq] at hmem
    simp only [List.mem_append, List.mem_cons, loadedPages_evict] at hmem ⊢
    tauto
  · exact henq

theorem numPages_load {pm : PhysMemory} {sp : AddrSpace} {p : ℕ} (h : sp.Wf)
    (hp : p < sp.numPages) :
    (sp.loaded pm p).2.2.numPages = sp.numPages := by
  rcases loaded_cases pm h hp with
    ⟨-, heq⟩ | ⟨-, f, -, -, heq⟩ | ⟨-, -, pre, v, post, f, -, -, heq⟩ |
    ⟨-, -, heq⟩ <;> simp [heq]

/-- The part of the invariant that ties one address space to the bitmap: its
frames are marked, and no frame serves two of its pages. -/
structure Owns (b : BitMap) (sp : AddrSpace) : Prop where
  marked : ∀ p f, sp.Maps p f → b.testBit f = true
  inj : ∀ p q f, sp.Maps p f → sp.Maps q f → p = q

/-- **A load and the frames.** A successful load maps the page to one frame
`f`, which was clear or the process's own before; nothing else of the process
maps `f` any more, and only `f` is newly marked. A failed load changes no
mapping and no mark. -/
theorem load_frames {pm : PhysMemory} {sp : AddrSpace} {p : ℕ} (h : sp.Wf)
    (ho : sp.Owns pm.freeFrame) (hp : p < sp.numPages) :
    (∃ f, (pm.freeFrame.testBit f = false ∧ f < pm.freeFrame.numBits ∨
        ∃ q, sp.Maps q f) ∧
      (∀ g, sp.Maps p g → g = f) ∧
      (sp.loaded pm p).1 = true ∧
      (∀ q g, (sp.loaded pm p).2.2.Maps q g ↔
        (q = p ∧ g = f) ∨ (q ≠ p ∧ g ≠ f ∧ sp.Maps q g)) ∧
      (sp.loaded pm p).2.1.freeFrame.numBits = pm.freeFrame.numBits ∧
      ∀ i, (sp.loaded pm p).2.1.freeFrame.testBit i =
        (decide (f = i) || pm.freeFrame.testBit i)) ∨
    (sp.NoFrame pm.freeFrame ∨ sp.Unreadable p) ∧
      sp.loaded pm p = (false, pm, sp.enqueue p) := by
  rcases loaded_cases pm h hp with
    ⟨hv, heq⟩ | ⟨hv, f, hf, hclear, heq⟩ | ⟨hv, -, pre, v, post, f, hq, hm, heq⟩ |
    hfail
  · -- already there: `f` is the frame it has
    obtain ⟨hm, -⟩ := h.maps_of_valid hp hv
    refine Or.inl ⟨_, Or.inr ⟨p, hm⟩, fun g hg => hg.unique hm, by rw [heq], ?_,
      by rw [heq], ?_⟩
    · intro q g
      rw [heq, maps_enqueue]
      by_cases hqp : q = p
      · subst hqp
        constructor
        · intro hg
          exact Or.inl ⟨rfl, hg.unique hm⟩
        · rintro (⟨-, rfl⟩ | ⟨hne, -⟩)
          · exact hm
          · exact absurd rfl hne
      · constructor
        · intro hg
          refine Or.inr ⟨hqp, ?_, hg⟩
          rintro rfl
          exact hqp (ho.inj q p _ hg hm)
        · rintro (⟨rfl, -⟩ | ⟨-, -, hg⟩)
          · exact absurd rfl hqp
          · exact hg
    · intro i
      rw [heq]
      by_cases hi : (sp.pageTable p).physicalPage.toNat = i
      · simp [← hi, ho.marked _ _ hm]
      · simp [hi]
  · refine Or.inl ⟨f, Or.inl ⟨hclear, hf⟩, ?_, by rw [heq], ?_, by rw [heq]; rfl, ?_⟩
    · exact fun g hg => absurd hg (not_maps_of_invalid hv)
    · intro q g
      rw [heq, maps_filled (by simpa using hp), maps_enqueue]
      refine or_congr_right (and_congr_right fun _ => ?_)
      refine ⟨fun hg => ⟨?_, hg⟩, And.right⟩
      rintro rfl
      rw [ho.marked q g hg] at hclear
      exact Bool.noConfusion hclear
    · intro i
      rw [heq]
      exact BitMap.testBit_setBit hf i
  · refine Or.inl ⟨f, Or.inr ⟨v, hm⟩, ?_, by rw [heq], ?_, by rw [heq], ?_⟩
    · exact fun g hg => absurd hg (not_maps_of_invalid hv)
    · intro q g
      rw [heq, maps_filled (by simpa using hp), maps_evict, maps_enqueue]
      refine or_congr_right (and_congr_right fun _ => ?_)
      constructor
      · rintro ⟨hg, hqv⟩
        refine ⟨?_, hg⟩
        rintro rfl
        exact hqv (ho.inj q v g hg hm)
      · rintro ⟨hgf, hg⟩
        refine ⟨hg, ?_⟩
        rintro rfl
        exact hgf (hg.unique hm)
    · intro i
      rw [heq]
      by_cases hi : f = i
      · simp [← hi, ho.marked _ _ hm]
      · simp [hi]
  · exact Or.inr hfail.2

/-- `LoadFromExecutable` returns `FALSE` exactly when no frame can be had. -/
theorem loadFromExecutable_false_iff {pm : PhysMemory} {sp : AddrSpace} {p : ℕ} (h : sp.Wf)
    (hp : p < sp.numPages) :
    (∃ r, sp.loadFromExecutable pm p = some (false, r)) ↔ sp.NoFrame pm.freeFrame := by
  rcases loadFromExecutable_cases pm h hp with
    ⟨hv, heq⟩ | ⟨-, f, hf, hclear, heq⟩ | ⟨-, -, pre, v, post, f, -, hm, heq⟩ |
    ⟨-, hall, hnone, heq⟩
  · rw [heq]
    refine ⟨by simp, fun hno => ?_⟩
    rw [hno.2 p hp] at hv
    exact Bool.noConfusion hv
  · rw [heq]
    refine ⟨by simp, fun hno => ?_⟩
    rw [hno.1 f hf] at hclear
    exact Bool.noConfusion hclear
  · rw [heq]
    refine ⟨by simp, fun hno => ?_⟩
    exact absurd hm (not_maps_of_invalid (hno.2 v hm.1))
  · rw [heq]
    exact ⟨fun _ => ⟨hall, hnone⟩, fun _ => ⟨_, rfl⟩⟩

/-- It returns `TRUE` when the page is there already, or can be read into a frame. -/
theorem load_true_iff {pm : PhysMemory} {sp : AddrSpace} {p : ℕ} (h : sp.Wf)
    (hp : p < sp.numPages) : (sp.loaded pm p).1 = true ↔
      (sp.pageTable p).valid = true ∨ ¬ sp.NoFrame pm.freeFrame ∧ ¬ sp.Unreadable p := by
  cases hload : sp.loadFromExecutable pm p with
  | none =>
      obtain ⟨hv, -, hun⟩ := (loadFromExecutable_eq_none_iff h hp).mp hload
      simp [loaded, hload, hv, hun]
  | some r =>
      obtain ⟨ok, r⟩ := r
      have hnone : sp.loadFromExecutable pm p = none ↔ _ := loadFromExecutable_eq_none_iff h hp
      have hfalse : (∃ r, sp.loadFromExecutable pm p = some (false, r)) ↔ _ :=
        loadFromExecutable_false_iff h hp
      rw [hload] at hnone hfalse
      rw [loaded_of_eq_some hload]
      cases ok with
      | true =>
          cases hv : (sp.pageTable p).valid with
          | true => simp
          | false =>
              refine iff_of_true rfl (Or.inr ⟨fun hno => ?_, fun hun => ?_⟩)
              · obtain ⟨r', hr'⟩ := hfalse.mpr hno
                cases hr'
              · have hno : ¬ sp.NoFrame pm.freeFrame := by
                  intro hno
                  obtain ⟨r', hr'⟩ := hfalse.mpr hno
                  cases hr'
                cases hnone.mpr ⟨hv, hno, hun⟩
      | false =>
          have hno := hfalse.mp ⟨r, rfl⟩
          simp [hno, hno.2 p hp]

theorem load_valid {pm : PhysMemory} {sp : AddrSpace} {p : ℕ} (h : sp.Wf)
    (hp : p < sp.numPages) (hload : (sp.loaded pm p).1 = true) :
    ((sp.loaded pm p).2.2.pageTable p).valid = true := by
  rcases loaded_cases pm h hp with
    ⟨hv, heq⟩ | ⟨-, f, -, -, heq⟩ | ⟨-, -, pre, v, post, f, -, -, heq⟩ |
    ⟨-, -, heq⟩
  · rw [heq]
    exact hv
  · rw [heq]
    exact (pageTable_filled_self _ _ p f).1
  · rw [heq]
    exact (pageTable_filled_self _ _ p f).1
  · rw [heq] at hload
    exact Bool.noConfusion hload

/-! ## §6  Data -/

/-- The byte at virtual address `a`, wherever its page lives. A page that was
never loaded has no byte yet. -/
def view (mem : ByteMem) (sp : AddrSpace) (a : ℕ) : Option Byte :=
  let entry := sp.pageTable (a / PageSize)
  if entry.valid then
    some (mem (entry.physicalPage.toNat * PageSize + a % PageSize))
  else if entry.physicalPage = IN_SWAP_FILE then some (sp.swapFile.data a)
  else none

theorem view_of_maps {mem : ByteMem} {sp : AddrSpace} {a f : ℕ}
    (h : sp.Maps (a / PageSize) f) :
    view mem sp a = some (mem (f * PageSize + a % PageSize)) := by
  simp [view, h.2.1, h.2.2]

/-- A byte of a swapped-out page lies inside the swap file. -/
theorem Wf.lt_size_swapFile {sp : AddrSpace} (h : sp.Wf) {a : ℕ}
    (ha : a / PageSize < sp.numPages)
    (hs : (sp.pageTable (a / PageSize)).physicalPage = IN_SWAP_FILE) :
    a < sp.swapFile.size := by
  have hslot := h.in_swap _ ha hs
  simp only [PageSize, SectorSize] at *
  omega

/-- Only the frames that an address space maps matter to its bytes. -/
theorem view_congr_mem {mem mem' : ByteMem} {sp : AddrSpace} {a : ℕ} (h : sp.Wf)
    (ha : a / PageSize < sp.numPages)
    (hmem : ∀ f, sp.Maps (a / PageSize) f →
      mem' (f * PageSize + a % PageSize) = mem (f * PageSize + a % PageSize)) :
    view mem' sp a = view mem sp a := by
  by_cases hv : (sp.pageTable (a / PageSize)).valid = true
  · obtain ⟨hm, -⟩ := h.maps_of_valid ha hv
    rw [view_of_maps hm, view_of_maps hm, hmem _ hm]
  · simp [view, hv]

/-- The image bytes (or the zeros) stay inside the frame. -/
theorem imageLoaded_outside (mem : ByteMem) (sp : AddrSpace) (p : ℕ) {f x : ℕ}
    (h : x / PageSize ≠ f) : sp.imageLoaded mem p f x = mem x := by
  have hblock : x < f * PageSize ∨ f * PageSize + PageSize ≤ x := by
    simp only [PageSize, SectorSize] at *
    omega
  unfold imageLoaded loadImage
  dsimp only
  split_ifs
  · exact ByteMem.write_outside _ _ _ _ (by simpa using hblock)
  · rfl
  · refine ByteMem.write_outside _ _ _ _ ?_
    rw [RandomAccessFile.length_fread]
    omega

theorem filled_outside (mem : ByteMem) (sp : AddrSpace) (p : ℕ) {f x : ℕ}
    (h : x / PageSize ≠ f) : (sp.filled mem p f).1 x = mem x := by
  rw [filled_eq]
  split
  · refine ByteMem.write_outside _ _ _ _ ?_
    rw [RandomAccessFile.length_fread]
    simp only [PageSize, SectorSize] at *
    omega
  · exact imageLoaded_outside mem sp p h

theorem frame_addr_div (f a : ℕ) : (f * PageSize + a % PageSize) / PageSize = f := by
  simp only [PageSize, SectorSize]
  omega

/-- **Swapping out moves the bytes, it does not change them.** -/
theorem view_evict (mem : ByteMem) (q : List ℕ) {sp : AddrSpace} {v f a : ℕ}
    (h : sp.Wf) (hm : sp.Maps v f) (ha : a / PageSize < sp.numPages) :
    view mem (sp.evict mem v q) a = view mem sp a := by
  by_cases hav : a / PageSize = v
  · subst hav
    have hdata : (sp.evict mem (a / PageSize) q).swapFile.data a =
        mem (f * PageSize + a % PageSize) := by
      have hlt : a % PageSize < PageSize := Nat.mod_lt _ (by decide)
      have haddr : a / PageSize * PageSize + a % PageSize = a :=
        Nat.div_add_mod' a PageSize
      have hin := RandomAccessFile.data_fwrite_inside sp.swapFile
        (a / PageSize * PageSize) (a % PageSize) (mem.read (f * PageSize) PageSize)
        (by simpa using hlt)
      rw [haddr, ByteMem.getD_read _ _ _ _ hlt] at hin
      simpa [evict, hm.2.2] using hin
    rw [view_of_maps hm, view]
    simp [pageTable_evict_self, hdata]
  · by_cases hs : (sp.pageTable (a / PageSize)).physicalPage = IN_SWAP_FILE
    · have hdata : (sp.evict mem v q).swapFile.data a = sp.swapFile.data a := by
        refine RandomAccessFile.data_fwrite_outside (h.lt_size_swapFile ha hs) ?_
        simp only [PageSize, SectorSize, ByteMem.length_read] at *
        omega
      simp [view, pageTable_evict_ne mem sp q hav, hs, hdata]
    · simp [view, pageTable_evict_ne mem sp q hav, hs]

/-- Swapping in brings back the bytes of the slot. -/
theorem view_filled_self {mem : ByteMem} {sp : AddrSpace} {f a : ℕ}
    (h : sp.Wf) (ha : a / PageSize < sp.numPages)
    (hs : (sp.pageTable (a / PageSize)).physicalPage = IN_SWAP_FILE) :
    view (sp.filled mem (a / PageSize) f).1
      (sp.filled mem (a / PageSize) f).2 a = some (sp.swapFile.data a) := by
  have hlt : a % PageSize < PageSize := Nat.mod_lt _ (by decide)
  have haddr : a / PageSize * PageSize + a % PageSize = a :=
    Nat.div_add_mod' a PageSize
  have hmaps : (sp.filled mem (a / PageSize) f).2.Maps (a / PageSize) f :=
    (maps_filled ha).mpr (Or.inl ⟨rfl, rfl⟩)
  have hmem : (sp.filled mem (a / PageSize) f).1 = mem.write (f * PageSize)
      (sp.swapFile.data.read (a / PageSize * PageSize) PageSize) := by
    rw [← RandomAccessFile.fread_eq_read (h.in_swap _ ha hs)]
    simp [filled_eq, hs, swapIn]
  rw [view_of_maps hmaps, hmem, ByteMem.write_inside _ _ _ _ (by simpa using hlt),
    ByteMem.getD_read _ _ _ _ hlt, haddr]

/-- Filling a frame that no other page maps leaves the other pages alone. -/
theorem view_filled_ne {mem : ByteMem} {sp : AddrSpace} {p f a : ℕ}
    (h : sp.Wf) (hf : ∀ q, ¬ sp.Maps q f) (ha : a / PageSize < sp.numPages)
    (hap : a / PageSize ≠ p) :
    view (sp.filled mem p f).1 (sp.filled mem p f).2 a = view mem sp a := by
  have hentry := pageTable_filled_ne mem sp f hap
  by_cases hv : (sp.pageTable (a / PageSize)).valid = true
  · obtain ⟨hm, -⟩ := h.maps_of_valid ha hv
    have hne : (sp.pageTable (a / PageSize)).physicalPage.toNat ≠ f :=
      fun hg => hf _ (hg ▸ hm)
    have hkeep := filled_outside mem sp p (f := f)
      (x := (sp.pageTable (a / PageSize)).physicalPage.toNat * PageSize +
        a % PageSize) (by rwa [frame_addr_div])
    simp [view, hentry, hv, hkeep]
  · by_cases hs : (sp.pageTable (a / PageSize)).physicalPage = IN_SWAP_FILE
    · have hdata : (sp.filled mem p f).2.swapFile.data a = sp.swapFile.data a := by
        rw [swapFile_filled]
        split
        · refine RandomAccessFile.data_fwrite_outside (h.lt_size_swapFile ha hs) ?_
          simp only [PageSize, SectorSize, List.length_replicate] at *
          omega
        · rfl
      simp [view, hentry, hs, hv, hdata]
    · simp [view, hentry, hs, hv]

/-- Filling a frame that nobody maps keeps every byte that was there. -/
theorem view_filled {mem : ByteMem} {sp : AddrSpace} {p f a : ℕ} {b : Byte}
    (h : sp.Wf) (hp : (sp.pageTable p).valid = false) (hf : ∀ q, ¬ sp.Maps q f)
    (ha : a / PageSize < sp.numPages) (hview : view mem sp a = some b) :
    view (sp.filled mem p f).1 (sp.filled mem p f).2 a = some b := by
  by_cases hap : a / PageSize = p
  · subst hap
    -- not resident, yet it has a byte: it comes from the swap file
    have hs : (sp.pageTable (a / PageSize)).physicalPage = IN_SWAP_FILE := by
      by_contra hs
      simp [view, hp, hs] at hview
    rw [view_filled_self h ha hs, ← hview]
    simp [view, hp, hs]
  · rw [view_filled_ne h hf ha hap, hview]

/-- **A load and the data.** Whatever the outcome, no byte of the address space
changes. -/
theorem load_view {pm : PhysMemory} {sp : AddrSpace} {p a : ℕ} {b : Byte}
    (h : sp.Wf) (ho : sp.Owns pm.freeFrame) (hp : p < sp.numPages)
    (ha : a / PageSize < sp.numPages)
    (hview : view pm.mainMemory sp a = some b) :
    view (sp.loaded pm p).2.1.mainMemory
      (sp.loaded pm p).2.2 a = some b := by
  have henq := h.enqueue hp
  rcases loaded_cases pm h hp with
    ⟨-, heq⟩ | ⟨hv, f, -, hclear, heq⟩ | ⟨hv, -, pre, v, post, f, hq, hm, heq⟩ |
    ⟨-, -, heq⟩ <;> rw [heq]
  · exact hview
  · refine view_filled henq hv ?_ ha hview
    intro q hq
    rw [ho.marked q f hq] at hclear
    exact Bool.noConfusion hclear
  · have hpv : p ≠ v := by
      rintro rfl
      exact not_maps_of_invalid hv hm
    have hve := view_evict pm.mainMemory (post ++ pre) henq hm ha
    refine view_filled (henq.evict _ hq) ?_ ?_ ha (hve.trans hview)
    · rw [pageTable_evict_ne _ _ _ hpv]
      exact hv
    · intro q hmq
      obtain ⟨hmq, hqv⟩ := maps_evict.mp hmq
      exact hqv (ho.inj q v f hmq hm)
  · exact hview

/-- A load writes into one frame only: one that was clear or the process's. -/
theorem load_mem_outside {pm : PhysMemory} {sp : AddrSpace} {p x : ℕ} (h : sp.Wf)
    (hp : p < sp.numPages) (hx : pm.freeFrame.testBit (x / PageSize) = true)
    (hown : ∀ q, ¬ sp.Maps q (x / PageSize)) :
    (sp.loaded pm p).2.1.mainMemory x = pm.mainMemory x := by
  rcases loaded_cases pm h hp with
    ⟨-, heq⟩ | ⟨-, f, -, hclear, heq⟩ | ⟨-, -, pre, v, post, f, -, hm, heq⟩ |
    ⟨-, -, heq⟩ <;> rw [heq]
  · refine filled_outside _ _ _ ?_
    rintro rfl
    rw [hx] at hclear
    exact Bool.noConfusion hclear
  · refine filled_outside _ _ _ ?_
    rintro rfl
    exact hown v hm

end AddrSpace

end OsAssignments.MemoryManagement
