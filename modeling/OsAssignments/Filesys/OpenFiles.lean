import OsAssignments.Lib.PartialMachine
import OsAssignments.Filesys.Operations

/-!
# Open files and their handles

What `Open`, `Close`, `TouchOpenedFiles` and `CloseAll` should do together, from
a new file system: `TableOk`, over the log of what the calls returned. `AddFile`
takes a slot that is `NULL` for a free one, but the constructor of the table sets
no slot, and `FindFile`, `TouchWriteableFiles` and `RemoveAllFiles` dereference all
ten. So the first call that looks at the table dereferences a slot that is unset; so does
`Close` of a pointer that a slot happens to hold, be it `NULL`.

- `FileSystem.tableOk_iff` — the runs that stay right are those that never do so.
- `FileSystem.fault_openFile` — one `Open` of a file that exists.
-/

namespace OsAssignments.Filesys

open PartialMachine

/-! ## §1  Calls and what they return -/

inductive TableAct where
  | openFile (name : CString)
  | close (file : ℕ)
  | touchOpenedFiles (modif : CString)
  | closeAll
  | changeDirectory (name : CString)

/-- `opened`: `Open` found a file with header in `sector` and returned the handle;
`refused`: it returned `NULL` for it; `absent`: it found no file. -/
inductive TableEvent where
  | opened (sector : ℤ) (file : ℕ)
  | refused (sector : ℤ)
  | absent
  | closed (file : ℕ)
  | closedAll
  | fault
  deriving DecidableEq

/-- How often the handle has been returned and not been closed. A `Close` of a handle that
is not open counts for nothing. -/
def users (file : ℕ) (log : List TableEvent) : ℤ :=
  log.foldl (fun n e =>
    match e with
    | .opened _ p => if p = file then n + 1 else n
    | .closed p => if p = file ∧ 0 < n then n - 1 else n
    | .closedAll => 0
    | _ => n) 0

/-- The handle is open, on the file with header in `sector`. -/
def IsOpen (log : List TableEvent) (sector : ℤ) (file : ℕ) : Prop :=
  .opened sector file ∈ log ∧ 0 < users file log

/-- All slots are taken by files other than the one with header in `sector`. -/
def AllTaken (log : List TableEvent) (sector : ℤ) : Prop :=
  ∃ files : Finset ℕ, files.card = OpenFileTableSize ∧
    ∀ file ∈ files, ∃ other ≠ sector, IsOpen log other file

namespace FileSystem

/-- What `Open` returned, as an event. -/
def openEvent : Option (Option ℤ) → Option ℕ → TableEvent
  | some (some sector), some file => .opened sector file
  | some (some sector), none => .refused sector
  | _, _ => .absent

def perform (fs : FileSystem) : TableAct → (ℕ → ByteMem) →
    Except Fault (List TableEvent × FileSystem)
  | .openFile name, junk =>
    (fs.openFile name junk).map fun (file, fs') =>
      ([openEvent (fs.findPlain name junk) file], fs')
  | .close file, _ => (fs.close file).map fun fs' => ([.closed file], fs')
  | .touchOpenedFiles modif, junk =>
    (fs.touchOpenedFiles modif (junk 0)).map fun fs' => ([], fs')
  | .closeAll, _ => fs.closeAll.map fun fs' => ([.closedAll], fs')
  | .changeDirectory name, junk =>
    (orAbort (fs.changeDirectory name junk)).map fun (_, fs') => ([], fs')

/-- A call, with the log. After the dereference of a slot that is unset or `NULL` nothing is
promised: the log says that it happened. -/
def tableStep (c : FileSystem × List TableEvent) (a : TableAct × (ℕ → ByteMem)) :
    Option (FileSystem × List TableEvent) :=
  match c.1.perform a.1 a.2 with
  | .ok (events, fs) => some (fs, c.2 ++ events)
  | .error .slot => some (c.1, c.2 ++ [.fault])
  | .error .assertion => none

/-! ## §2  What should hold -/

/-- What the table and the handles should be after any calls. -/
structure TableOk (c : FileSystem × List TableEvent) : Prop where
  noFault : .fault ∉ c.2
  sameHandle : LogAll (fun log e => ∀ sector file, e = .opened sector file →
    ∀ file', IsOpen log sector file' → file = file') c.2
  occupied : ∀ file, 0 < users file c.2 ↔ ∃ i < OpenFileTableSize,
    (c.1.openFileTable.table i).Occupied ∧ (c.1.openFileTable.table i).ptr = file
  oneSlot : ∀ i j, i < OpenFileTableSize → j < OpenFileTableSize →
    (c.1.openFileTable.table i).Occupied → (c.1.openFileTable.table j).Occupied →
    (c.1.openFileTable.table i).ptr = (c.1.openFileTable.table j).ptr → i = j
  useCount : ∀ file, 0 < users file c.2 →
    ∃ h, c.1.heap.handles file = some h ∧ h.useCount = users file c.2
  count : c.1.openFileTable.count = ((Finset.range OpenFileTableSize).filter fun i =>
    (c.1.openFileTable.table i).Occupied).card
  count_le : c.1.openFileTable.count ≤ OpenFileTableSize
  refused : LogAll (fun log e => ∀ sector,
    (e = .refused sector → AllTaken log sector) ∧
      ∀ file, e = .opened sector file → ¬ AllTaken log sector) c.2
  closedAll : c.2.getLast? = some .closedAll → ∀ i < OpenFileTableSize,
    ¬ (c.1.openFileTable.table i).Occupied

/-! ## §3  A new table -/

/-- No slot has been set. -/
def FreshTable (t : OpenFileTable) : Prop := (∀ i, (t.table i).set = false) ∧ t.count = 0

/-- No file was found, and nothing was open when it was closed. -/
def Quiet (log : List TableEvent) : Prop := ∀ e ∈ log, e = .absent ∨ ∃ file, e = .closed file

theorem FreshTable.not_occupied {t : OpenFileTable} (h : FreshTable t) (i : ℕ) :
    ¬ (t.table i).Occupied := by
  intro ho
  have := ho.1
  rw [h.1] at this
  exact absurd this (by simp)

theorem FreshTable.deref {t : OpenFileTable} (h : FreshTable t) (heap : Heap) (i : ℕ) :
    heap.deref (t.table i) = .error .slot := by
  rw [Heap.deref, if_neg (h.not_occupied i)]

theorem Quiet.users_eq_zero {log : List TableEvent} (h : Quiet log) (file : ℕ) :
    users file log = 0 := by
  rw [users]
  induction log with
  | nil => rfl
  | cons e log ih =>
      have hlog := ih fun e' he' => h e' (List.mem_cons_of_mem _ he')
      rcases h e List.mem_cons_self with rfl | ⟨p, rfl⟩
      · exact hlog
      · simp only [List.foldl_cons, Int.lt_irrefl, and_false, if_false]
        exact hlog

theorem Quiet.snoc {log : List TableEvent} (h : Quiet log) {e : TableEvent}
    (he : e = .absent ∨ ∃ file, e = .closed file) : Quiet (log ++ [e]) := by
  intro e' he'
  rcases List.mem_append.mp he' with he' | he'
  · exact h e' he'
  · rw [List.mem_singleton.mp he']
    exact he

theorem Quiet.logAll {log : List TableEvent} (h : Quiet log)
    {Q : List TableEvent → TableEvent → Prop} (habsent : ∀ l, Q l .absent)
    (hclosed : ∀ l file, Q l (.closed file)) : LogAll Q log := by
  rintro pre e post rfl
  rcases h e (by simp) with rfl | ⟨file, rfl⟩
  · exact habsent pre
  · exact hclosed pre file

theorem tableOk_of_fresh {c : FileSystem × List TableEvent}
    (hfresh : FreshTable c.1.openFileTable) (hquiet : Quiet c.2) : TableOk c where
  noFault := fun hmem => absurd (hquiet _ hmem) (by simp)
  sameHandle := hquiet.logAll (by simp) (by simp)
  occupied := by
    intro file
    rw [hquiet.users_eq_zero]
    refine ⟨fun h => absurd h (by simp), ?_⟩
    rintro ⟨i, -, ho, -⟩
    exact absurd ho (hfresh.not_occupied i)
  oneSlot := fun i _ _ _ ho => absurd ho (hfresh.not_occupied i)
  useCount := by
    intro file h
    rw [hquiet.users_eq_zero] at h
    exact absurd h (by simp)
  count := by
    rw [hfresh.2, Finset.filter_false_of_mem fun i _ => hfresh.not_occupied i]
    rfl
  count_le := by
    rw [hfresh.2]
    decide
  refused := hquiet.logAll (by simp) (by simp)
  closedAll := fun _ i _ => hfresh.not_occupied i

/-- **The first look at a new table** dereferences a slot that is unset. -/
theorem findFile_fresh {t : OpenFileTable} (h : FreshTable t) (heap : Heap) (sector : ℤ) :
    t.findFile heap sector = .error .slot := by
  change (heap.deref (t.table 0)).bind _ = _
  rw [h.deref]
  rfl

theorem removeAllFiles_fresh {t : OpenFileTable} (h : FreshTable t) (heap : Heap) :
    t.removeAllFiles heap = .error .slot := by
  change Except.map _ ((heap.deref (t.table 0)).bind _) = _
  rw [h.deref]
  rfl

theorem touchWriteableFiles_fresh {t : OpenFileTable} (h : FreshTable t) (heap : Heap)
    (modif : CString) (junk : ByteMem) (disk : Disk) :
    t.touchWriteableFiles heap modif junk disk = .error .slot := by
  change (heap.deref (t.table 0)).bind _ = _
  rw [h.deref]
  rfl

/-- No slot holds the pointer that is closed. -/
theorem removeFileLoop_absent {t : OpenFileTable} {heap : Heap} {p : ℕ} {l : List ℕ}
    (h : ∀ i ∈ l, (t.table i).ptr ≠ p) : t.removeFileLoop heap p l = .ok (false, t, heap) := by
  induction l with
  | nil => rfl
  | cons i l ih =>
      rw [OpenFileTable.removeFileLoop, if_neg (h i List.mem_cons_self)]
      exact ih fun j hj => h j (List.mem_cons_of_mem _ hj)

/-- An unset slot holds it. -/
theorem removeFileLoop_fresh {t : OpenFileTable} (h : FreshTable t) {heap : Heap} {p : ℕ}
    {l : List ℕ} (hp : ∃ i ∈ l, (t.table i).ptr = p) :
    t.removeFileLoop heap p l = .error .slot := by
  induction l with
  | nil => simp at hp
  | cons i l ih =>
      by_cases hi : (t.table i).ptr = p
      · rw [OpenFileTable.removeFileLoop, if_pos hi, h.deref]
        rfl
      · rw [OpenFileTable.removeFileLoop, if_neg hi]
        apply ih
        obtain ⟨j, hj, hjp⟩ := hp
        rcases List.mem_cons.mp hj with rfl | hj
        · exact absurd hjp hi
        · exact ⟨j, hj, hjp⟩

/-! ## §4  One call -/

/-- A call that dereferences a slot of the table: `Open` does so once it has found a file,
`Close` if a slot holds the pointer. -/
def LooksAtTable (fs : FileSystem) (a : TableAct × (ℕ → ByteMem)) : Prop :=
  match a.1 with
  | .openFile name => ∃ sector, fs.findPlain name a.2 = some (some sector)
  | .touchOpenedFiles _ => True
  | .closeAll => True
  | .close file => ∃ i < OpenFileTableSize, (fs.openFileTable.table i).ptr = file
  | .changeDirectory _ => False

variable {fs : FileSystem} {log : List TableEvent}

theorem tableStep_ok {a : TableAct} {junk : ℕ → ByteMem}
    {events : List TableEvent} {fs' : FileSystem}
    (h : fs.perform a junk = .ok (events, fs')) :
    tableStep (fs, log) (a, junk) = some (fs', log ++ events) := by
  simp only [tableStep, h]

theorem tableStep_slot {a : TableAct} {junk : ℕ → ByteMem}
    (h : fs.perform a junk = .error .slot) :
    tableStep (fs, log) (a, junk) = some (fs, log ++ [.fault]) := by
  simp only [tableStep, h]

theorem tableStep_assertion {a : TableAct} {junk : ℕ → ByteMem}
    (h : fs.perform a junk = .error .assertion) : tableStep (fs, log) (a, junk) = none := by
  simp only [tableStep, h]

/-- `Close` on a new table. -/
theorem perform_close_fresh (hfresh : FreshTable fs.openFileTable) (file : ℕ)
    (junk : ℕ → ByteMem) :
    fs.perform (.close file) junk =
      if ∃ i < OpenFileTableSize, (fs.openFileTable.table i).ptr = file then .error .slot
      else .ok ([.closed file], fs) := by
  split
  · rename_i hheld
    have hloop : fs.openFileTable.removeFile fs.heap file = .error .slot :=
      removeFileLoop_fresh hfresh (by simpa using hheld)
    simp only [perform, close, hloop]
    rfl
  · rename_i hnot
    have hloop : fs.openFileTable.removeFile fs.heap file =
        .ok (false, fs.openFileTable, fs.heap) :=
      removeFileLoop_absent fun i hi hptr => hnot ⟨i, List.mem_range.mp hi, hptr⟩
    simp only [perform, close, hloop]
    rfl

/-- `Open` of a file, on a new table. -/
theorem openFound_fresh (hfresh : FreshTable fs.openFileTable) (name : CString) (sector : ℤ)
    (junk : ℕ → ByteMem) :
    fs.openFound name sector junk = .error .assertion ∨
      fs.openFound name sector junk = .error .slot := by
  cases hnew : OpenFile.new fs.disk sector with
  | none =>
      left
      simp only [openFound, hnew, orAbort]
      rfl
  | some file =>
      right
      simp only [openFound, hnew, orAbort]
      change (fs.openFileTable.findFile (fs.heap.newFile file).2 sector).bind _ = _
      rw [findFile_fresh hfresh]
      rfl

theorem perform_openFile {name : CString} {junk : ℕ → ByteMem} {found : Option ℤ}
    (h : fs.findPlain name junk = some found) :
    fs.perform (.openFile name) junk =
      match found with
      | none => .ok ([.absent], fs)
      | some sector => (fs.openFound name sector junk).map fun (file, fs') =>
        ([openEvent (some (some sector)) file], fs') := by
  cases found <;> simp only [perform, openFile, h, orAbort] <;> rfl

/-- What a call does while the table is new. -/
theorem tableStep_fresh {c : FileSystem × List TableEvent} {a : TableAct × (ℕ → ByteMem)}
    (hfresh : FreshTable fs.openFileTable) (hquiet : Quiet log)
    (hstep : tableStep (fs, log) a = some c) :
    (LooksAtTable fs a ∧ c.2 = log ++ [.fault]) ∨
    (¬ LooksAtTable fs a ∧ c.1.openFileTable = fs.openFileTable ∧ Quiet c.2) := by
  have hslot : ∀ act junk, fs.perform act junk = .error .slot →
      tableStep (fs, log) (act, junk) = some c → c.2 = log ++ [.fault] := by
    intro act junk hcall hstep
    rw [tableStep_slot hcall, Option.some.injEq] at hstep
    rw [← hstep]
  obtain ⟨act, junk⟩ := a
  cases act with
  | openFile name =>
      cases hfind : fs.findPlain name junk with
      | none =>
          have hcall : fs.perform (.openFile name) junk = .error .assertion := by
            simp only [perform, openFile, hfind, orAbort]
            rfl
          rw [tableStep_assertion hcall] at hstep
          exact absurd hstep (by simp)
      | some found =>
          have hperform := perform_openFile hfind
          cases found with
          | none =>
              right
              rw [tableStep_ok (a := .openFile name) hperform, Option.some.injEq] at hstep
              subst hstep
              refine ⟨?_, rfl, hquiet.snoc (.inl rfl)⟩
              rintro ⟨sector, hsector⟩
              rw [hfind] at hsector
              exact absurd hsector (by simp)
          | some sector =>
              rcases openFound_fresh hfresh name sector junk with hopen | hopen <;>
                simp only [hopen] at hperform
              · rw [tableStep_assertion hperform] at hstep
                exact absurd hstep (by simp)
              · exact Or.inl ⟨⟨sector, hfind⟩, hslot (.openFile name) junk hperform hstep⟩
  | close file =>
      have hperform := perform_close_fresh hfresh file junk
      split at hperform
      · rename_i hheld
        exact Or.inl ⟨hheld, hslot (.close file) junk hperform hstep⟩
      · rename_i hnot
        rw [tableStep_ok (a := .close file) hperform, Option.some.injEq] at hstep
        subst hstep
        exact Or.inr ⟨hnot, rfl, hquiet.snoc (.inr ⟨file, rfl⟩)⟩
  | touchOpenedFiles modif =>
      refine Or.inl ⟨trivial, hslot (.touchOpenedFiles modif) junk ?_ hstep⟩
      simp only [perform, touchOpenedFiles, touchWriteableFiles_fresh hfresh]
      rfl
  | closeAll =>
      refine Or.inl ⟨trivial, hslot .closeAll junk ?_ hstep⟩
      simp only [perform, closeAll, removeAllFiles_fresh hfresh]
      rfl
  | changeDirectory name =>
      refine Or.inr ⟨fun h => h, ?_⟩
      cases hchange : fs.changeDirectory name junk with
      | none =>
          have hcall : fs.perform (.changeDirectory name) junk = .error .assertion := by
            simp only [perform, hchange, orAbort]
            rfl
          rw [tableStep_assertion hcall] at hstep
          exact absurd hstep (by simp)
      | some r =>
          obtain ⟨r, fs'⟩ := r
          have hcall : fs.perform (.changeDirectory name) junk = .ok ([], fs') := by
            simp only [perform, hchange, orAbort]
            rfl
          rw [tableStep_ok (a := .changeDirectory name) hcall, Option.some.injEq] at hstep
          subst hstep
          refine ⟨?_, by simpa using hquiet⟩
          obtain ⟨⟨f, d⟩, hopen, hres⟩ := Option.bind_eq_some_iff.mp hchange
          simp only at hres
          split at hres <;> cases hres <;> rfl

/-! ## §5  Runs -/

theorem new_freshTable {format : Bool} {disk : Disk} {junk : ℕ → ByteMem}
    (h : FileSystem.new format disk junk = some fs) : FreshTable fs.openFileTable := by
  have hfresh : FreshTable
      (OpenFileTable.new fun i => ((junk 5).word (4 * i)).toNat) := ⟨fun _ => rfl, rfl⟩
  cases format
  all_goals
    simp only [FileSystem.new, Option.bind_eq_bind, Bool.false_eq_true, if_true, if_false,
      Option.bind_eq_some_iff, Option.some.injEq] at h
  · obtain ⟨_, _, _, _, _, _, rfl⟩ := h
    exact hfresh
  · obtain ⟨_, _, rfl⟩ := h
    exact hfresh

/-- **The table is right after every call of exactly the runs that dereference none of its
slots.** -/
theorem tableOk_iff {format : Bool} {disk : Disk} {junk : ℕ → ByteMem}
    (hnew : FileSystem.new format disk junk = some fs)
    (as : List (TableAct × (ℕ → ByteMem))) (c : FileSystem × List TableEvent)
    (hrun : run tableStep (fs, []) as = some c) :
    Always tableStep TableOk (fs, []) as ↔
      StepsMeet tableStep (fun c a => ¬ LooksAtTable c.1 a) (fs, []) as := by
  refine always_iff_stepsMeet (σ := FileSystem × List TableEvent)
    (I := fun c => .fault ∈ c.2 ∨ (FreshTable c.1.openFileTable ∧ Quiet c.2))
    (P := TableOk) (Or.inr ⟨new_freshTable hnew, by simp [Quiet]⟩)
    (tableOk_of_fresh (new_freshTable hnew) (by simp [Quiet])) ?_ ?_ as c hrun
  · rintro ⟨fs, log⟩ a c (hfault | ⟨hfresh, hquiet⟩) hstep
    · left
      have hmem : ∀ events, .fault ∈ log ++ events := fun _ => List.mem_append_left _ hfault
      unfold tableStep at hstep
      split at hstep
      · cases hstep
        exact hmem _
      · cases hstep
        exact hmem _
      · exact absurd hstep (by simp)
    · rcases tableStep_fresh hfresh hquiet hstep with ⟨-, hlog⟩ | ⟨-, htable, hquiet'⟩
      · left
        rw [hlog]
        simp
      · right
        rw [htable]
        exact ⟨hfresh, hquiet'⟩
  · rintro ⟨fs, log⟩ a c hinv hok hstep
    rcases hinv with hfault | ⟨hfresh, hquiet⟩
    · exact absurd hfault hok.noFault
    · rcases tableStep_fresh hfresh hquiet hstep with ⟨hlooks, hlog⟩ | ⟨hnot, htable, hquiet'⟩
      · refine ⟨fun hok' => absurd ?_ hok'.noFault, fun hnot => absurd hlooks hnot⟩
        rw [hlog]
        simp
      · exact ⟨fun _ => hnot, fun _ => tableOk_of_fresh (htable ▸ hfresh) hquiet'⟩

/-- A disk with the file `f` in the root. -/
def diskWithFile : Option Disk := do
  let fs ← FileSystem.new true (fun _ => 0) fun _ _ => 0
  let (_, fs) ← fs.create ⟨[0x66], by decide⟩ 10 false fun _ _ => 0
  some fs.disk

/-- A name that is not there, then the file. -/
def openTwice : List (TableAct × (ℕ → ByteMem)) :=
  [(.openFile ⟨[0x67], by decide⟩, fun _ _ => 0), (.openFile ⟨[0x66], by decide⟩, fun _ _ => 0)]

theorem tableOk_iff_openTwice : ∃ disk fs c, diskWithFile = some disk ∧
    FileSystem.new false disk (fun _ _ => 0) = some fs ∧
    run tableStep (fs, []) openTwice = some c ∧
    (Always tableStep TableOk (fs, []) openTwice ↔
      StepsMeet tableStep (fun c a => ¬ LooksAtTable c.1 a) (fs, []) openTwice) := by
  have hsome : (diskWithFile.bind fun disk =>
      (FileSystem.new false disk fun _ _ => 0).bind fun fs =>
        (run tableStep (fs, []) openTwice).map fun _ => ()) = some () := by
    decide +kernel
  simp only [Option.bind_eq_some_iff, Option.map_eq_some_iff] at hsome
  obtain ⟨disk, hdisk, fs, hnew, c, hrun, -⟩ := hsome
  exact ⟨disk, fs, c, hdisk, hnew, hrun, tableOk_iff hnew openTwice c hrun⟩

/-- **`Open` of a file that exists**, the first call of a new file system. -/
theorem fault_openFile : ∃ disk fs c, diskWithFile = some disk ∧
    FileSystem.new false disk (fun _ _ => 0) = some fs ∧
    run tableStep (fs, []) [(.openFile ⟨[0x66], by decide⟩, fun _ _ => 0)] = some c ∧
    c.2 = [.fault] ∧ ¬ TableOk c := by
  have hsome : (diskWithFile.bind fun disk =>
      (FileSystem.new false disk fun _ _ => 0).bind fun fs =>
        (run tableStep (fs, []) [(.openFile ⟨[0x66], by decide⟩, fun _ _ => 0)]).map
          Prod.snd) = some [.fault] := by
    decide +kernel
  simp only [Option.bind_eq_some_iff, Option.map_eq_some_iff] at hsome
  obtain ⟨disk, hdisk, fs, hnew, c, hrun, hlog⟩ := hsome
  refine ⟨disk, fs, c, hdisk, hnew, hrun, hlog, fun hok => hok.noFault ?_⟩
  rw [hlog]
  simp

end FileSystem

end OsAssignments.Filesys
