import OsAssignments.ProcessManagement.Isolation

/-!
# The program image

The constructor of `AddrSpace` zeroes the pages of the new process, one byte at a time and
through the new page table, and copies the segments of the executable over them, the code
first. Whatever the header says, a constructor that comes to its end has built the image of
the file, and has stored nowhere else.

- `newAddrSpace_image` — **the result**, for every header and every file.
-/

namespace OsAssignments.ProcessManagement

open MemoryManagement (ExceptionType Width Segment NoffHeader NOFFMAGIC length_take_wordBytes)
open PartialMachine

/-! ## §1  What the file says -/

/-- Address `v` lies in the segment, which is not empty. -/
def Covers (segment : Segment) (v : ℕ) : Prop :=
  0 < segment.size.toInt ∧ segment.virtualAddr.toNat ≤ v ∧
    v < segment.virtualAddr.toNat + segment.size.toNat

instance (segment : Segment) (v : ℕ) : Decidable (Covers segment v) :=
  inferInstanceAs (Decidable (_ ∧ _))

/-- The byte that the file has for address `v` of the segment. -/
def fileByte (executable : RandomAccessFile) (segment : Segment) (v : ℕ) : Byte :=
  executable.data (segment.inFileAddr.toNat + (v - segment.virtualAddr.toNat))

/-- The segment lies in the file, if it is not empty. -/
def InFile (executable : RandomAccessFile) (segment : Segment) : Prop :=
  0 < segment.size.toInt →
    segment.inFileAddr.toNat + segment.size.toNat ≤ executable.size

/-- The program: data where there is data, else code, else zero. -/
def imageByte (noffH : NoffHeader) (executable : RandomAccessFile) (v : ℕ) : Byte :=
  if Covers noffH.initData v then fileByte executable noffH.initData v
  else if Covers noffH.code v then fileByte executable noffH.code v
  else 0

/-- Zeros, and the segments written over them one after the other. -/
def loaded (executable : RandomAccessFile) (segments : List Segment) (v : ℕ) : Byte :=
  segments.foldl
    (fun byte segment => if Covers segment v then fileByte executable segment v else byte) 0

theorem loaded_segments (noffH : NoffHeader) (executable : RandomAccessFile) (v : ℕ) :
    loaded executable [noffH.code, noffH.initData] v = imageByte noffH executable v := rfl

theorem loaded_append_singleton (executable : RandomAccessFile) (done : List Segment)
    (segment : Segment) (v : ℕ) : loaded executable (done ++ [segment]) v =
      if Covers segment v then fileByte executable segment v else loaded executable done v := by
  rw [loaded, List.foldl_append]
  rfl

/-- A little-endian host reads the header as it is. -/
theorem checkHeader_eq {noffH noffH' : NoffHeader} (h : checkHeader noffH = some noffH') :
    noffH' = noffH := by
  simp only [checkHeader] at h
  obtain ⟨-, h⟩ := Option.ite_none_right_eq_some.mp h
  rw [← Option.some.inj h]
  split
  · rfl
  · rfl

namespace Memory

variable {m m' : Memory}

/-- `Machine::ReadMem`, of one byte. -/
def readByte (m : Memory) (addr : BitVec 32) : Option (Except ExceptionType Byte) :=
  (m.translate addr .byte false).map fun
    | .error exception => .error exception
    | .ok (physicalAddress, m) => .ok (m.mainMemory physicalAddress)

/-- The new process `k` once its constructor is done: its bytes through its table, and what
else is in the memory, which was `mem`. -/
structure Image (noffH : NoffHeader) (executable : RandomAccessFile) (mem : ByteMem) (k : ℕ)
    (m : Memory) (p : Process) : Prop where
  process : m.processes[k]? = some p
  pageTable : m.pageTable = some k
  numPages : p.space.numPages = ProcessManagement.numPages noffH
  image : ∀ addr : BitVec 32, addr.toNat < p.space.numPages.toNat * PageSize →
    m.readByte addr = some (.ok (imageByte noffH executable addr.toNat))
  inFile : InFile executable noffH.code ∧ InFile executable noffH.initData
  outside : ∀ x, ¬ p.space.Contains (x / PageSize) → m.mainMemory x = mem x

/-! ## §2  One store -/

variable {k : ℕ} {start n : BitVec 32} {noffH : NoffHeader} {executable : RandomAccessFile}
  {kernel : Kernel}

/-- The constructor of process `k` has come to `kernel`: its table is in the register and
maps the `n` pages from `start` on, all of them writable. -/
structure Runs (k : ℕ) (start n : BitVec 32) (noffH : NoffHeader)
    (executable : RandomAccessFile) (m : Memory) (kernel : Kernel) (space : AddrSpace) :
    Prop where
  process : m.processes[k]? = some ⟨noffH, executable, space, kernel⟩
  pageTable : m.pageTable = some k
  pageTableSize : m.pageTableSize = n
  startPage : space.startPage = start
  numPages : space.numPages = n
  maps : ∀ vpn < n.toNat, (space.pageTable vpn).physicalPage.toNat = start.toNat + vpn
  usable : ∀ vpn < n.toNat, (space.pageTable vpn).valid = true ∧
    (space.pageTable vpn).readOnly = false
  fits : start.toNat + n.toNat ≤ NumPhysPages

/-- **`Translate`** through the new table. -/
theorem Runs.translate {space : AddrSpace} (h : Runs k start n noffH executable m kernel space)
    {addr : BitVec 32} (haddr : addr.toNat < n.toNat * PageSize) (writing : Bool) :
    m.translate addr .byte writing =
      some (.ok (start.toNat * PageSize + addr.toNat,
        m.touch k (addr.toNat / PageSize) writing)) := by
  have hvpn : addr.toNat / PageSize < n.toNat := Nat.div_lt_of_lt_mul (Nat.mul_comm _ _ ▸ haddr)
  have hphysical : (start.toNat + addr.toNat / PageSize) * PageSize + addr.toNat % PageSize =
      start.toNat * PageSize + addr.toNat := by
    rw [Nat.add_mul, Nat.add_assoc, Nat.div_add_mod']
  have hinside : start.toNat * PageSize + addr.toNat + 1 ≤ MemorySize := by
    have := Nat.mul_le_mul_right PageSize h.fits
    rw [Nat.add_mul] at this
    rw [MemorySize]
    omega
  have hfits := h.fits
  obtain ⟨hvalid, hreadOnly⟩ := h.usable _ hvpn
  have hframe := h.maps _ hvpn
  simp only [Memory.translate, Width.size, Nat.mod_one, ne_eq, not_true_eq_false, if_false,
    h.pageTable, h.process, h.pageTableSize, hvalid, hreadOnly, hframe, Bool.false_and]
  rw [if_neg (Nat.not_le.mpr hvpn), if_neg Bool.false_ne_true, if_neg (by omega), hphysical,
    if_pos hinside]

/-- An address behind the pages of the process. -/
theorem Runs.translate_error {space : AddrSpace}
    (h : Runs k start n noffH executable m kernel space) {addr : BitVec 32}
    (haddr : n.toNat * PageSize ≤ addr.toNat) (writing : Bool) :
    m.translate addr .byte writing = some (.error .AddressErrorException) := by
  have hP : PageSize = 128 := rfl
  have hvpn : n.toNat ≤ addr.toNat / PageSize := by
    rw [hP] at haddr ⊢
    omega
  simp only [Memory.translate, Width.size, Nat.mod_one, ne_eq, not_true_eq_false, if_false,
    h.pageTable, h.process, h.pageTableSize]
  rw [if_pos hvpn]

/-- The low byte of a word that a byte was put into. -/
theorem take_wordBytes (b : Byte) : (wordBytes (b.setWidth 32)).take Width.byte.size = [b] := by
  have hlow : (b.setWidth 32).extractLsb' 0 8 = b := by
    ext i hi
    simp [hi, Nat.lt_of_lt_of_le hi (by decide : 8 ≤ 32)]
  rw [wordBytes, hlow, Width.size, List.take_succ_cons, List.take_zero]

/-- **A store** changes one byte, and the constructor goes on. -/
theorem Runs.store {space : AddrSpace} (h : Runs k start n noffH executable m kernel space)
    {addr : BitVec 32} (haddr : addr.toNat < n.toNat * PageSize) (b : Byte)
    (kernel' : Kernel) :
    ∃ m' space', m.store k addr .byte (b.setWidth 32) kernel' = some m' ∧
      Runs k start n noffH executable m' kernel' space' ∧
      m'.mainMemory = m.mainMemory.write (start.toNat * PageSize + addr.toNat) [b] := by
  have hstore : m.store k addr .byte (b.setWidth 32) kernel' =
      some (Memory.setKernel { m.touch k (addr.toNat / PageSize) true with
        mainMemory := m.mainMemory.write (start.toNat * PageSize + addr.toNat) [b] } k
          kernel') := by
    rw [Memory.store, writeMem, h.translate haddr, Option.map_some, Option.map_some]
    simp only [take_wordBytes]
    rfl
  let space' : AddrSpace := { space with
    pageTable := Function.update space.pageTable (addr.toNat / PageSize)
      { space.pageTable (addr.toNat / PageSize) with
        use := true
        dirty := (space.pageTable (addr.toNat / PageSize)).dirty || true } }
  have hframe : ∀ vpn, (space'.pageTable vpn).physicalPage = (space.pageTable vpn).physicalPage ∧
      (space'.pageTable vpn).valid = (space.pageTable vpn).valid ∧
      (space'.pageTable vpn).readOnly = (space.pageTable vpn).readOnly := by
    intro vpn
    by_cases hvpn : vpn = addr.toNat / PageSize
    · subst hvpn
      simp [space']
    · simp [space', hvpn]
  refine ⟨_, space', hstore, ?_, rfl⟩
  exact {
    process := by
      simp only [setKernel, touch, List.getElem?_modify, h.process]
      simp [space']
    pageTable := h.pageTable
    pageTableSize := h.pageTableSize
    startPage := h.startPage
    numPages := h.numPages
    maps := fun vpn hvpn => (congrArg BitVec.toNat (hframe vpn).1).trans (h.maps vpn hvpn)
    usable := fun vpn hvpn => ⟨(hframe vpn).2.1.trans (h.usable vpn hvpn).1,
      (hframe vpn).2.2.trans (h.usable vpn hvpn).2⟩
    fits := h.fits }

/-- A store behind the pages ends the process. -/
theorem Runs.store_error {space : AddrSpace}
    (h : Runs k start n noffH executable m kernel space) {addr : BitVec 32}
    (haddr : n.toNat * PageSize ≤ addr.toNat) (value : BitVec 32) (kernel' : Kernel) :
    m.store k addr .byte value kernel' = some (m.setKernel k .finished) := by
  rw [Memory.store, writeMem, h.translate_error haddr, Option.map_some, Option.map_some]

/-- A step that stores nothing. -/
theorem Runs.setKernel {space : AddrSpace}
    (h : Runs k start n noffH executable m kernel space) (kernel' : Kernel) :
    Runs k start n noffH executable (m.setKernel k kernel') kernel' space where
  process := by
    simp only [Memory.setKernel, List.getElem?_modify, h.process]
    simp
  pageTable := h.pageTable
  pageTableSize := h.pageTableSize
  startPage := h.startPage
  numPages := h.numPages
  maps := h.maps
  usable := h.usable
  fits := h.fits

/-! ## §3  How far the image has come -/

/-- `CopyToUser` has stored the first bytes of `segment`, up to address `dest`; the segments
of `done` are loaded. -/
structure Copying (executable : RandomAccessFile) (size : ℕ) (byte : ℕ → Byte)
    (rest : List Byte) (dest : BitVec 32) (done : List Segment) (segment : Segment) : Prop where
  pos : 0 < segment.size.toInt
  start_le : segment.virtualAddr.toNat ≤ dest.toNat
  length : dest.toNat + rest.length = segment.virtualAddr.toNat + segment.size.toNat
  rest : ∀ i < rest.length, rest.getD i 0 = fileByte executable segment (dest.toNat + i)
  inFile : ∀ s ∈ done ++ [segment], InFile executable s
  byte : ∀ v < size, byte v =
    if segment.virtualAddr.toNat ≤ v ∧ v < dest.toNat then fileByte executable segment v
    else loaded executable done v

/-- What the `size` bytes of the process are while its constructor has come to a point. -/
def Progress (executable : RandomAccessFile) (segments : List Segment) (size : ℕ)
    (byte : ℕ → Byte) : Kernel → Prop
  | .zeroing i j => ∀ v < i * PageSize + j, byte v = 0
  | .copying rest dest next => ∃ done segment, segments = done ++ segment :: next ∧
      Copying executable size byte rest dest done segment
  | .user => (∀ s ∈ segments, InFile executable s) ∧
      ∀ v < size, byte v = loaded executable segments v
  | .finished => True

variable {segments : List Segment} {size : ℕ} {byte : ℕ → Byte}

/-- An empty segment changes nothing. -/
theorem loaded_append_empty {done : List Segment} {segment : Segment}
    (hempty : ¬ 0 < segment.size.toInt) (v : ℕ) :
    loaded executable (done ++ [segment]) v = loaded executable done v := by
  rw [loaded_append_singleton, if_neg fun h => hempty h.1]

/-- The positive numbers read the same with and without a sign. -/
theorem toInt_of_pos {x : BitVec 32} (hpos : 0 < x.toInt) : x.toInt = x.toNat := by
  rw [BitVec.toInt_eq_toNat_cond] at hpos ⊢
  have := x.isLt
  split at hpos
  · rename_i hlt
    rw [if_pos hlt]
  · omega

theorem toNat_toInt_of_pos {x : BitVec 32} (hpos : 0 < x.toInt) : x.toInt.toNat = x.toNat := by
  rw [toInt_of_pos hpos, Int.toNat_natCast]

/-- The first bytes of a segment that is in the file, and none of them stored yet. -/
theorem copying_start {done : List Segment} {segment : Segment} (hpos : 0 < segment.size.toInt)
    (hin : ∀ s ∈ done, InFile executable s)
    (hbyte : ∀ v < size, byte v = loaded executable done v)
    (hfile : segment.size.toNat ≤
      (executable.fread segment.inFileAddr.toNat segment.size.toNat).length) :
    Copying executable size byte
      ((executable.fread segment.inFileAddr.toNat segment.size.toNat).take segment.size.toNat)
      segment.virtualAddr done segment := by
  rw [RandomAccessFile.length_fread] at hfile
  have hsize := toInt_of_pos hpos
  have hend : segment.inFileAddr.toNat + segment.size.toNat ≤ executable.size := by omega
  rw [RandomAccessFile.fread_eq_read hend,
    List.take_of_length_le (by rw [ByteMem.length_read])]
  exact {
    pos := hpos
    start_le := Nat.le_refl _
    length := by rw [ByteMem.length_read]
    rest := fun i hi => by
      rw [ByteMem.length_read] at hi
      rw [ByteMem.getD_read _ _ _ _ hi, fileByte, Nat.add_sub_cancel_left]
    inFile := fun s hs => by
      rcases List.mem_append.mp hs with hs | hs
      · exact hin s hs
      · rw [List.mem_singleton.mp hs]
        exact fun _ => hend
    byte := fun v hv => by
      rw [if_neg (by omega)]
      exact hbyte v hv }

/-- **The constructor goes on to the next segment**: the empty ones are left out, and one
that is not in the file ends the process. -/
theorem progress_loadSegments (next : List Segment) : ∀ (done : List Segment),
    segments = done ++ next → (∀ s ∈ done, InFile executable s) →
    (∀ v < size, byte v = loaded executable done v) →
    loadSegments executable next = some kernel →
    Progress executable segments size byte kernel := by
  induction next with
  | nil =>
      intro done hsplit hin hbyte hload
      cases hload
      rw [List.append_nil] at hsplit
      subst hsplit
      exact ⟨hin, hbyte⟩
  | cons segment next ih =>
      intro done hsplit hin hbyte hload
      rw [loadSegments] at hload
      split at hload
      · rename_i hpos
        obtain ⟨source, hread, rfl⟩ := Option.map_eq_some_iff.mp hload
        have hsource := (Option.ite_none_left_eq_some.mp hread).2
        have hsize : segment.size.toInt = segment.size.toNat := toInt_of_pos hpos
        rw [sysCallRead]
        split
        · trivial
        · rename_i hfile
          rw [copyToUser, if_neg (Int.not_le.mpr hpos), ← Option.some.inj hsource]
          refine ⟨done, segment, hsplit, copying_start hpos hin hbyte ?_⟩
          rw [Option.some.inj hsource]
          omega
      · rename_i hempty
        refine ih (done ++ [segment]) (by simp [hsplit]) ?_ ?_ hload
        · intro s hs
          rcases List.mem_append.mp hs with hs | hs
          · exact hin s hs
          · rw [List.mem_singleton.mp hs]
            exact fun hpos => absurd hpos hempty
        · intro v hv
          rw [hbyte v hv, loaded_append_empty hempty]

/-- **The last byte of a segment** has been stored. -/
theorem Copying.loaded {dest : BitVec 32} {done : List Segment} {segment : Segment}
    (h : Copying executable size byte [] dest done segment) :
    ∀ v < size, byte v = ProcessManagement.loaded executable (done ++ [segment]) v := by
  intro v hv
  have hlength := h.length
  rw [List.length_nil, Nat.add_zero] at hlength
  rw [h.byte v hv, loaded_append_singleton, hlength]
  exact if_congr ⟨fun hc => ⟨h.pos, hc⟩, fun hc => hc.2⟩ rfl rfl

/-- **One byte of a segment** is stored. -/
theorem Copying.store {b : Byte} {rest : List Byte} {dest : BitVec 32} {done : List Segment}
    {segment : Segment} (h : Copying executable size byte (b :: rest) dest done segment)
    (hsize : size ≤ MemorySize) (hdest : dest.toNat < size) {byte' : ℕ → Byte}
    (hnew : byte' dest.toNat = b) (hold : ∀ v ≠ dest.toNat, byte' v = byte v) :
    Copying executable size byte' rest (dest + 1) done segment := by
  have hM : MemorySize = 6144 := rfl
  have hnext : (dest + 1).toNat = dest.toNat + 1 := by
    have hone : (1 : BitVec 32).toNat = 1 := rfl
    rw [BitVec.toNat_add, hone, Nat.mod_eq_of_lt (by omega)]
  have hlength := h.length
  rw [List.length_cons] at hlength
  have hb : b = fileByte executable segment dest.toNat := h.rest 0 (by simp)
  exact {
    pos := h.pos
    start_le := by
      have := h.start_le
      omega
    length := by omega
    rest := fun i hi => by
      have := h.rest (i + 1) (by simpa using hi)
      rw [hnext, Nat.add_assoc, Nat.add_comm 1 i]
      simpa using this
    inFile := h.inFile
    byte := fun v hv => by
      have hstart := h.start_le
      by_cases hv' : v = dest.toNat
      · subst hv'
        rw [hnew, if_pos (by omega), hb]
      · rw [hold v hv', h.byte v hv]
        exact if_congr (by omega) rfl rfl }

/-! ## §4  Each step -/

/-- The invariant of the constructor; `mem` is what the memory was. -/
structure Loading (mem : ByteMem) (k : ℕ) (start n : BitVec 32) (noffH : NoffHeader)
    (executable : RandomAccessFile) (m : Memory) : Prop where
  runs : ∃ kernel space, Runs k start n noffH executable m kernel space ∧
    Progress executable [noffH.code, noffH.initData] (n.toNat * PageSize)
      (fun v => m.mainMemory (start.toNat * PageSize + v)) kernel
  outside : ∀ x, ¬ (start.toNat ≤ x / PageSize ∧ x / PageSize < start.toNat + n.toNat) →
    m.mainMemory x = mem x

variable {mem : ByteMem} {space : AddrSpace}

/-- A step that stores nothing. -/
theorem Loading.setKernel (h : Loading mem k start n noffH executable m)
    (hruns : Runs k start n noffH executable m kernel space) {kernel' : Kernel}
    (hprogress : Progress executable [noffH.code, noffH.initData] (n.toNat * PageSize)
      (fun v => m.mainMemory (start.toNat * PageSize + v)) kernel') :
    Loading mem k start n noffH executable (m.setKernel k kernel') :=
  ⟨⟨kernel', space, hruns.setKernel kernel', hprogress⟩, h.outside⟩

/-- A step that stores one byte. -/
theorem Loading.store (h : Loading mem k start n noffH executable m)
    (hruns : Runs k start n noffH executable m kernel space) (addr : BitVec 32) (b : Byte)
    (kernel' : Kernel) (haddr : addr.toNat < n.toNat * PageSize)
    (hprogress : ∀ byte : ℕ → Byte, byte addr.toNat = b →
      (∀ v ≠ addr.toNat, byte v = m.mainMemory (start.toNat * PageSize + v)) →
      Progress executable [noffH.code, noffH.initData] (n.toNat * PageSize) byte kernel')
    (hstep : m.store k addr .byte (b.setWidth 32) kernel' = some m') :
    Loading mem k start n noffH executable m' := by
  obtain ⟨m₁, space', hstore, hruns', hmem⟩ := hruns.store haddr b kernel'
  obtain rfl : m₁ = m' := Option.some.inj (hstore.symm.trans hstep)
  refine ⟨⟨kernel', space', hruns', hprogress _ ?_ fun v hv => ?_⟩, fun x hx => ?_⟩
  · rw [hmem]
    exact ByteMem.write_inside _ _ 0 [b] Nat.one_pos
  · rw [hmem]
    refine ByteMem.write_outside _ _ _ [b] ?_
    rw [List.length_singleton]
    omega
  · rw [hmem, ← h.outside x hx]
    refine ByteMem.write_outside _ _ _ [b] ?_
    by_contra hinside
    rw [List.length_singleton] at hinside
    refine hx ?_
    simp only [PageSize] at haddr hinside ⊢
    omega

/-- **The step lemma.** -/
theorem Loading.kernelStep (h : Loading mem k start n noffH executable m)
    (hstep : m.step (.kernel k) = some m') : Loading mem k start n noffH executable m' := by
  obtain ⟨kernel, space, hruns, hprogress⟩ := h.runs
  have hsize : n.toNat * PageSize ≤ MemorySize :=
    Nat.mul_le_mul_right _ (Nat.le_trans (Nat.le_add_left _ _) hruns.fits)
  have hM : MemorySize = 6144 := rfl
  rw [Memory.step, hruns.process, Option.bind_some] at hstep
  cases kernel with
  | zeroing i j =>
      simp only [Memory.kernelStep, hruns.numPages] at hstep
      split at hstep
      · rename_i hi
        split at hstep
        · rename_i hj
          have haddr : (BitVec.ofNat 32 (i * PageSize) + BitVec.ofNat 32 j).toNat =
              i * PageSize + j := by
            simp only [BitVec.toNat_add, BitVec.toNat_ofNat, PageSize] at *
            omega
          refine h.store hruns _ 0 (.zeroing i (j + 1)) ?_ (fun byte hnew hold v hv => ?_) hstep
          · rw [haddr]
            simp only [PageSize] at *
            omega
          · rw [haddr] at hnew hold
            by_cases hv' : v = i * PageSize + j
            · rw [hv', hnew]
            · rw [hold v hv']
              exact hprogress v (by omega)
        · cases hstep
          refine h.setKernel hruns fun v hv => hprogress v ?_
          rw [Nat.add_mul] at hv
          omega
      · rename_i hi
        obtain ⟨kernel', hload, rfl⟩ := Option.map_eq_some_iff.mp hstep
        refine h.setKernel hruns (progress_loadSegments _ [] rfl (by simp) (fun v hv => ?_) hload)
        refine hprogress v (Nat.lt_of_lt_of_le hv ?_)
        have := Nat.mul_le_mul_right PageSize (Nat.le_of_not_lt hi)
        omega
  | copying rest dest next =>
      obtain ⟨done, segment, hsplit, hcopy⟩ := hprogress
      cases rest with
      | nil =>
          obtain ⟨kernel', hload, rfl⟩ := Option.map_eq_some_iff.mp hstep
          exact h.setKernel hruns (progress_loadSegments next (done ++ [segment])
            (by simp [hsplit]) hcopy.inFile hcopy.loaded hload)
      | cons b rest =>
          simp only [Memory.kernelStep] at hstep
          by_cases hdest : dest.toNat < n.toNat * PageSize
          · exact h.store hruns dest b (.copying rest (dest + 1) next) hdest
              (fun byte hnew hold => ⟨done, segment, hsplit,
                hcopy.store hsize hdest hnew hold⟩) hstep
          · rw [hruns.store_error (Nat.le_of_not_lt hdest)] at hstep
            cases hstep
            exact h.setKernel hruns trivial
  | user => cases hstep
  | finished => cases hstep

/-! ## §5  The whole constructor -/

theorem Loading.kernelSteps (h : Loading mem k start n noffH executable m) (turns : ℕ)
    (hrun : run step m (List.replicate turns (.kernel k)) = some m') :
    Loading mem k start n noffH executable m' := by
  induction turns generalizing m with
  | zero =>
      cases hrun
      exact h
  | succ turns ih =>
      rw [List.replicate_succ, run_cons] at hrun
      obtain ⟨m₁, hstep, hrun⟩ := Option.bind_eq_some_iff.mp hrun
      exact ih (h.kernelStep hstep) hrun

/-- The constructor before its first store. -/
theorem loading_newAddrSpace (hi : MemoryInv m) (hmem : m.mainMemory = mem)
    (hnew : m.newAddrSpace noffH executable = some m') :
    Loading mem m.processes.length m.nextFreePhysicalPage (ProcessManagement.numPages noffH)
      noffH executable m' := by
  obtain ⟨noffH', n, hheader, rfl, hle, -, hprocesses, hsame, hregister, hsize⟩ :=
    newAddrSpace_cases hi hnew
  obtain rfl := checkHeader_eq hheader
  refine ⟨⟨.zeroing 0 0, AddrSpace.new m.nextFreePhysicalPage (numPages noffH'), ?_,
    fun v hv => absurd hv (Nat.not_lt_zero v)⟩, fun x _ => by rw [hsame, hmem]⟩
  exact {
    process := by rw [hprocesses, List.getElem?_concat_length]
    pageTable := hregister
    pageTableSize := hsize
    startPage := rfl
    numPages := rfl
    maps := mapsOwn_new hle
    usable := fun _ _ => ⟨rfl, rfl⟩
    fits := hle }

/-- The end of the constructor. -/
theorem Loading.image (h : Loading mem k start n noffH executable m)
    (hn : n = ProcessManagement.numPages noffH) (huser : m.AtUser k) :
    ∃ p, Image noffH executable mem k m p := by
  obtain ⟨kernel, space, hruns, hprogress⟩ := h.runs
  obtain rfl : kernel = .user := by
    rw [AtUser, hruns.process] at huser
    exact Option.some.inj huser
  obtain ⟨hfile, hbytes⟩ := hprogress
  refine ⟨_, {
    process := hruns.process
    pageTable := hruns.pageTable
    numPages := hruns.numPages.trans hn
    image := fun addr haddr => ?_
    inFile := ⟨hfile _ (by simp), hfile _ (by simp)⟩
    outside := fun x hx => h.outside x ?_ }⟩
  · rw [hruns.numPages] at haddr
    rw [readByte, hruns.translate haddr, Option.map_some, ← loaded_segments,
      ← hbytes _ haddr]
    rfl
  · rw [← hruns.startPage, ← hruns.numPages]
    exact hx

/-- **The loader builds the program image**: in every memory that a run of the system leads
to, whatever its bytes are, a constructor that comes to its end has stored the image of the
file in the pages of its process, and nothing elsewhere. -/
theorem newAddrSpace_image (as : List Act) (m₀ : Memory)
    (hreach : run step init as = some m₀) (mem : ByteMem) (noffH : NoffHeader)
    (executable : RandomAccessFile) (turns : ℕ) (m : Memory)
    (hrun : run step { m₀ with mainMemory := mem } (.newAddrSpace noffH executable ::
      List.replicate turns (.kernel m₀.processes.length)) = some m)
    (huser : m.AtUser m₀.processes.length) :
    ∃ p, Image noffH executable mem m₀.processes.length m p := by
  have hi₀ := memoryInv_run hreach
  have hi : MemoryInv { m₀ with mainMemory := mem } :=
    ⟨hi₀.next_le, hi₀.handed, hi₀.mapsOwn, hi₀.sorted, hi₀.installed⟩
  rw [run_cons] at hrun
  obtain ⟨m₁, hnew, hrun⟩ := Option.bind_eq_some_iff.mp hrun
  exact ((loading_newAddrSpace hi rfl hnew).kernelSteps turns hrun).image rfl huser

/-- Three bytes of code and two of data, the data over the last byte of the code; the sizes
wrap to one page. -/
def overlapping : NoffHeader :=
  ⟨NOFFMAGIC, ⟨4, 1, 3⟩, ⟨6, 4, 2⟩, ⟨0, 0, -1000⟩⟩

theorem newAddrSpace_image_overlapping : ∃ m p,
    run step { init with mainMemory := fun _ => 0xff } (.newAddrSpace overlapping
      ⟨6, fun x => BitVec.ofNat 8 x⟩ :: List.replicate 137 (.kernel 0)) = some m ∧
    Image overlapping ⟨6, fun x => BitVec.ofNat 8 x⟩ (fun _ => 0xff) 0 m p ∧
    (List.range 9).map (imageByte overlapping ⟨6, fun x => BitVec.ofNat 8 x⟩) =
      [0, 0, 0, 0, 1, 2, 4, 5, 0] := by
  have hend : (run step { init with mainMemory := fun _ => 0xff } (.newAddrSpace overlapping
      ⟨6, fun x => BitVec.ofNat 8 x⟩ :: List.replicate 137 (.kernel 0))).map
        (fun m => decide (m.AtUser 0)) = some true := by
    decide +kernel
  obtain ⟨m, hrun, huser⟩ := Option.map_eq_some_iff.mp hend
  obtain ⟨p, himage⟩ := newAddrSpace_image [] init rfl (fun _ => 0xff) overlapping
    ⟨6, fun x => BitVec.ofNat 8 x⟩ 137 m hrun (of_decide_eq_true huser)
  exact ⟨m, p, hrun, himage, by decide⟩

end Memory

end OsAssignments.ProcessManagement
