import OsAssignments.Filesys.FileWrites

/-!
# What the calls leave of the handles

The loops of the table, and what `Open`, `Close` and the writes leave of a handle that
they are not about (`Heap.Keeps`).

`FindFile` reads all ten slots before `AddFile` looks for one that is `NULL`, so `Open`
never fills a slot: the handles it returns are those that the slots held from the
start.

- `openFound_cases`, `close_cases` — the calls, case by case.
-/

namespace OsAssignments.Filesys

open Volume

/-! ## §1  The table -/

theorem bind_eq_ok {α β : Type} {x : Except Fault α} {f : α → Except Fault β} {b : β} :
    x.bind f = .ok b ↔ ∃ a, x = .ok a ∧ f a = .ok b := by
  cases x with
  | error e => simp [Except.bind]
  | ok a => simp [Except.bind]

theorem map_eq_ok {α β : Type} {x : Except Fault α} {f : α → β} {b : β} :
    x.map f = .ok b ↔ ∃ a, x = .ok a ∧ f a = b := by
  cases x with
  | error e => simp [Except.map]
  | ok a => simp [Except.map]

theorem orAbort_eq_ok {α : Type} {o : Option α} {a : α} : orAbort o = .ok a ↔ o = some a := by
  cases o with
  | none => simp [orAbort]
  | some a' => simp [orAbort]

namespace Heap

theorem deref_eq_ok {heap : Heap} {slot : Slot} {h : FileHandle} :
    heap.deref slot = .ok h ↔ slot.Occupied ∧ heap.handles slot.ptr = some h := by
  unfold deref
  split
  · rename_i ho
    cases hp : heap.handles slot.ptr with
    | none => simp
    | some h' => simp [ho]
  · rename_i ho
    simp [ho]

/-- Nothing is where nothing has been allocated, and no handle points there. -/
structure Allocated (heap : Heap) : Prop where
  handles : ∀ p, heap.next ≤ p → heap.handles p = none
  file_lt : ∀ p h, heap.handles p = some h → h.file < heap.next

/-- A call leaves the handle where it is, in use, with the same header. -/
def Keeps (heap heap' : Heap) (p : ℕ) : Prop :=
  ∀ h, heap.handles p = some h → ∃ h', heap'.handles p = some h' ∧ h'.file = h.file ∧
    (0 < h.useCount → 0 < h'.useCount) ∧
    ∀ f', heap'.files h.file = some f' → ∃ f, heap.files h.file = some f ∧ f.hdr = f'.hdr

variable {heap : Heap}

theorem Allocated.lt (ha : heap.Allocated) {p : ℕ} {h : FileHandle}
    (hp : heap.handles p = some h) : p < heap.next := by
  by_contra hge
  rw [ha.handles p (Nat.le_of_not_lt hge)] at hp
  cases hp

theorem Allocated.newFile (ha : heap.Allocated) (f : OpenFile) :
    (heap.newFile f).2.Allocated :=
  ⟨fun p hp => ha.handles p (Nat.le_of_succ_le hp),
    fun p h hp => Nat.lt_succ_of_lt (ha.file_lt p h hp)⟩

theorem Allocated.setUseCount (ha : heap.Allocated) {p : ℕ} {h : FileHandle}
    (hp : heap.handles p = some h) (count : ℤ) : (heap.setUseCount p h count).Allocated := by
  refine ⟨fun q hq => ?_, fun q h' hq => ?_⟩
  · have hne : q ≠ p := fun heq => absurd (ha.lt hp) (Nat.not_lt.mpr (heq ▸ hq))
    simpa [Heap.setUseCount, Function.update_of_ne hne] using ha.handles q hq
  · by_cases hqp : q = p
    · subst hqp
      obtain rfl : { h with useCount := count } = h' := by
        simpa [Heap.setUseCount] using hq
      exact ha.file_lt q h hp
    · exact ha.file_lt q h' (by simpa [Heap.setUseCount, Function.update_of_ne hqp] using hq)

theorem Allocated.newHandle (ha : heap.Allocated) (name : CString) (writeable : Bool) {file : ℕ}
    (hfile : file < heap.next) (sector : ℤ) :
    (heap.newHandle name writeable file sector).2.Allocated := by
  refine ⟨fun q hq => ?_, fun q h hq => ?_⟩
  · have hlt : heap.next < q := hq
    simpa [Heap.newHandle, Function.update_of_ne hlt.ne'] using ha.handles q hlt.le
  · change h.file < heap.next + 1
    by_cases hqn : q = heap.next
    · subst hqn
      obtain rfl : (⟨name, sector, writeable, file, 0, 1⟩ : FileHandle) = h := by
        simpa [Heap.newHandle] using hq
      exact Nat.lt_succ_of_lt hfile
    · exact Nat.lt_succ_of_lt
        (ha.file_lt q h (by simpa [Heap.newHandle, Function.update_of_ne hqn] using hq))

theorem Allocated.deleteHandle (ha : heap.Allocated) (p : ℕ) (h : FileHandle) :
    (heap.deleteHandle p h).Allocated := by
  refine ⟨fun q hq => ?_, fun q h' hq => ?_⟩
  · by_cases hqp : q = p
    · simp [Heap.deleteHandle, hqp]
    · simpa [Heap.deleteHandle, Function.update_of_ne hqp] using ha.handles q hq
  · have hqp : q ≠ p := by
      rintro rfl
      simp [Heap.deleteHandle] at hq
    exact ha.file_lt q h' (by simpa [Heap.deleteHandle, Function.update_of_ne hqp] using hq)

theorem Allocated.setFile (ha : heap.Allocated) (x : ℕ) (f : OpenFile) :
    (heap.setFile x f).Allocated := ⟨ha.handles, ha.file_lt⟩

theorem Keeps.refl (heap : Heap) (p : ℕ) : heap.Keeps heap p := fun h hp =>
  ⟨h, hp, rfl, id, fun f hf => ⟨f, hf, rfl⟩⟩

theorem Keeps.trans {heap₁ heap₂ : Heap} {p : ℕ} (h₁ : heap.Keeps heap₁ p)
    (h₂ : heap₁.Keeps heap₂ p) : heap.Keeps heap₂ p := by
  intro h hp
  obtain ⟨h', hp', hfile, hcount, hhdr⟩ := h₁ h hp
  obtain ⟨h'', hp'', hfile', hcount', hhdr'⟩ := h₂ h' hp'
  refine ⟨h'', hp'', hfile'.trans hfile, fun hpos => hcount' (hcount hpos), ?_⟩
  intro f'' hf''
  rw [hfile] at hhdr'
  obtain ⟨f', hf', heq'⟩ := hhdr' f'' hf''
  obtain ⟨f, hf, heq⟩ := hhdr f' hf'
  exact ⟨f, hf, heq.trans heq'⟩

theorem keeps_newFile (ha : heap.Allocated) (f : OpenFile) (p : ℕ) :
    heap.Keeps (heap.newFile f).2 p := by
  intro h hp
  refine ⟨h, hp, rfl, id, fun f' hf' => ⟨f', ?_, rfl⟩⟩
  simpa [Heap.newFile, Function.update_of_ne (ha.file_lt p h hp).ne] using hf'

theorem keeps_newHandle (ha : heap.Allocated) (name : CString) (writeable : Bool) (file : ℕ)
    (sector : ℤ) (p : ℕ) : heap.Keeps (heap.newHandle name writeable file sector).2 p := by
  intro h hp
  refine ⟨h, ?_, rfl, id, fun f' hf' => ⟨f', hf', rfl⟩⟩
  simpa [Heap.newHandle, Function.update_of_ne (ha.lt hp).ne] using hp

theorem keeps_setUseCount {q : ℕ} {g : FileHandle} (hq : heap.handles q = some g) {count : ℤ}
    (hcount : 0 < count) (p : ℕ) : heap.Keeps (heap.setUseCount q g count) p := by
  intro h hp
  by_cases hpq : p = q
  · subst hpq
    rw [hq] at hp
    cases hp
    exact ⟨{ g with useCount := count }, by simp [Heap.setUseCount], rfl, fun _ => hcount,
      fun f' hf' => ⟨f', hf', rfl⟩⟩
  · exact ⟨h, by simpa [Heap.setUseCount, Function.update_of_ne hpq] using hp, rfl, id,
      fun f' hf' => ⟨f', hf', rfl⟩⟩

theorem keeps_deleteHandle {p q : ℕ} (hpq : p ≠ q) (g : FileHandle) :
    heap.Keeps (heap.deleteHandle q g) p := by
  intro h hp
  refine ⟨h, by simpa [Heap.deleteHandle, Function.update_of_ne hpq] using hp, rfl, id, ?_⟩
  intro f' hf'
  by_cases hx : h.file = g.file
  · simp [Heap.deleteHandle, hx] at hf'
  · exact ⟨f', by simpa [Heap.deleteHandle, Function.update_of_ne hx] using hf', rfl⟩

theorem keeps_setFile {x : ℕ} {f g : OpenFile} (hx : heap.files x = some f)
    (hhdr : g.hdr = f.hdr) (p : ℕ) : heap.Keeps (heap.setFile x g) p := by
  intro h hp
  refine ⟨h, hp, rfl, id, ?_⟩
  intro f' hf'
  by_cases hfile : h.file = x
  · obtain rfl : g = f' := by simpa [Heap.setFile, hfile] using hf'
    exact ⟨f, hfile ▸ hx, hhdr.symm⟩
  · exact ⟨f', by simpa [Heap.setFile, Function.update_of_ne hfile] using hf', rfl⟩

end Heap

namespace OpenFileTable

variable {t : OpenFileTable} {heap : Heap}

/-- A file is found in a slot in use that names its sector, or all slots were read. -/
theorem findFileLoop_cases {sector r : ℤ} :
    ∀ l : List ℕ, t.findFileLoop heap sector l = .ok r →
      (∃ i ∈ l, r = i ∧ ∃ h, heap.deref (t.table i) = .ok h ∧ 0 < h.useCount ∧
        h.sector = sector) ∨
      (r = -1 ∧ ∀ i ∈ l, ∃ h, heap.deref (t.table i) = .ok h)
  | [], hloop => by
      cases hloop
      exact .inr ⟨rfl, by simp⟩
  | i :: l, hloop => by
      rw [findFileLoop] at hloop
      cases hderef : heap.deref (t.table i) with
      | error e =>
          rw [hderef] at hloop
          cases hloop
      | ok h =>
          rw [hderef] at hloop
          change (if h.useCount > 0 ∧ h.sector = sector then .ok (i : ℤ)
            else t.findFileLoop heap sector l) = _ at hloop
          split at hloop
          · rename_i hfound
            cases hloop
            exact .inl ⟨i, List.mem_cons_self, rfl, h, hderef, hfound.1, hfound.2⟩
          · rcases findFileLoop_cases l hloop with ⟨j, hj, hfound⟩ | ⟨hnone, hall⟩
            · exact .inl ⟨j, List.mem_cons_of_mem i hj, hfound⟩
            · refine .inr ⟨hnone, ?_⟩
              intro j hj
              rcases List.mem_cons.mp hj with rfl | hj
              · exact ⟨h, hderef⟩
              · exact hall j hj

/-- A table all of whose slots can be read has none to fill. -/
theorem addFileLoop_full {p : ℕ} {file : FileHandle} :
    ∀ l : List ℕ,
      (∀ i ∈ l, ∃ h, heap.deref (t.table i) = .ok h ∧ h.file ≠ file.file) →
      t.addFileLoop heap p file l = .ok (false, t, heap)
  | [], _ => rfl
  | i :: l, hall => by
      obtain ⟨h, hderef, hne⟩ := hall i List.mem_cons_self
      have hptr : (t.table i).ptr ≠ 0 := (Heap.deref_eq_ok.mp hderef).1.2
      rw [addFileLoop, if_neg hptr, hderef]
      change (if h.file = file.file then _ else t.addFileLoop heap p file l) = _
      rw [if_neg hne]
      exact addFileLoop_full l fun j hj => hall j (List.mem_cons_of_mem i hj)

/-- The handle loses a user, or the last one and its slot, or is in no slot. -/
theorem removeFileLoop_cases {p : ℕ} {r : Bool × OpenFileTable × Heap} :
    ∀ l : List ℕ, t.removeFileLoop heap p l = .ok r →
      r.2 = (t, heap) ∨
      ∃ h, heap.handles p = some h ∧
        ((1 < h.useCount ∧ r.2 = (t, heap.setUseCount p h (h.useCount - 1))) ∨
          ∃ i ∈ l, (t.table i).ptr = p ∧
            r.2 = ({ t.setSlot i Slot.null with count := t.count - 1 },
              heap.deleteHandle p h))
  | [], hloop => by
      cases hloop
      exact .inl rfl
  | i :: l, hloop => by
      rw [removeFileLoop] at hloop
      split at hloop
      · rename_i hptr
        cases hderef : heap.deref (t.table i) with
        | error e =>
            rw [hderef] at hloop
            cases hloop
        | ok h =>
            rw [hderef] at hloop
            have hp : heap.handles p = some h := hptr ▸ (Heap.deref_eq_ok.mp hderef).2
            change (if h.useCount > 1 then _ else _) = _ at hloop
            split at hloop
            · rename_i hcount
              cases hloop
              exact .inr ⟨h, hp, .inl ⟨hcount, rfl⟩⟩
            · cases hloop
              exact .inr ⟨h, hp, .inr ⟨i, List.mem_cons_self, hptr, rfl⟩⟩
      · rcases removeFileLoop_cases l hloop with hnone | ⟨h, hp, hcase⟩
        · exact .inl hnone
        · refine .inr ⟨h, hp, ?_⟩
          rcases hcase with hless | ⟨j, hj, hlast⟩
          · exact .inl hless
          · exact .inr ⟨j, List.mem_cons_of_mem i hj, hlast⟩

end OpenFileTable

/-! ## §2  `Open` and `Close` -/

namespace FileSystem

variable {fs fs' : FileSystem}

/-- **`Open`** of a file that exists: one more user of a handle that a slot holds, or
`NULL`, with a handle that no slot holds left behind. -/
theorem openFound_cases (ha : fs.heap.Allocated) {name : CString} {sector : ℤ}
    {junk : ℕ → ByteMem} {r : Option ℕ} (hopen : fs.openFound name sector junk = .ok (r, fs')) :
    ∃ f, OpenFile.new fs.disk sector = some f ∧
      ((∃ i < OpenFileTableSize, ∃ h, (fs.openFileTable.table i).Occupied ∧
        fs.heap.handles (fs.openFileTable.table i).ptr = some h ∧ 0 < h.useCount ∧
        h.sector = sector ∧ r = some (fs.openFileTable.table i).ptr ∧
        fs' = { fs with
          heap := ((fs.heap.newFile f).2.setUseCount (fs.openFileTable.table i).ptr h
            (h.useCount + 1)) }) ∨
      (r = none ∧ fs' = { fs with
        heap := ((fs.heap.newFile f).2.newHandle name true fs.heap.next
          ((junk 2).word 0).toInt).2 })) := by
  obtain ⟨f, hnew, hopen⟩ := bind_eq_ok.mp hopen
  rw [orAbort_eq_ok] at hnew
  refine ⟨f, hnew, ?_⟩
  obtain ⟨index, hfind, hopen⟩ := bind_eq_ok.mp hopen
  rcases OpenFileTable.findFileLoop_cases _ hfind with
    ⟨i, hi, rfl, h, hderef, hcount, hsector⟩ | ⟨rfl, hall⟩
  · left
    obtain ⟨hocc, hp⟩ := Heap.deref_eq_ok.mp hderef
    have hne : (i : ℤ) ≠ -1 := by omega
    rw [if_pos hne, Int.toNat_natCast] at hopen
    obtain ⟨h', hderef', hopen⟩ := bind_eq_ok.mp hopen
    rw [hderef] at hderef'
    cases hderef'
    cases hopen
    exact ⟨i, List.mem_range.mp hi, h, hocc, hp, hcount, hsector, rfl, rfl⟩
  · right
    rw [if_neg (by simp)] at hopen
    obtain ⟨added, hadd, hopen⟩ := bind_eq_ok.mp hopen
    -- all slots could be read, so none is `NULL`, and the new open file is in none
    have hfull : ∀ i ∈ List.range OpenFileTableSize, ∃ h,
        ((fs.heap.newFile f).2.newHandle name true fs.heap.next ((junk 2).word 0).toInt).2.deref
          (fs.openFileTable.table i) = .ok h ∧ h.file ≠ fs.heap.next := by
      intro i hi
      obtain ⟨h, hderef⟩ := hall i hi
      obtain ⟨hocc, hp⟩ := Heap.deref_eq_ok.mp hderef
      obtain ⟨h', hp', hfile, -⟩ := Heap.keeps_newHandle (ha.newFile f) name true fs.heap.next
        ((junk 2).word 0).toInt _ h hp
      refine ⟨h', Heap.deref_eq_ok.mpr ⟨hocc, hp'⟩, ?_⟩
      rw [hfile]
      exact (ha.file_lt _ h hp).ne
    have hnone : added = (false, fs.openFileTable,
        ((fs.heap.newFile f).2.newHandle name true fs.heap.next
          ((junk 2).word 0).toInt).2) := by
      rw [OpenFileTable.addFile] at hadd
      split at hadd
      · exact (Except.ok.inj hadd).symm
      · have hloop := hadd.symm.trans (OpenFileTable.addFileLoop_full _ hfull)
        exact Except.ok.inj hloop
    subst hnone
    cases hopen
    exact ⟨rfl, rfl⟩

theorem new_heap {format : Bool} {disk : Disk} {junk : ℕ → ByteMem}
    (h : FileSystem.new format disk junk = some fs) : fs.heap = Heap.empty := by
  cases format
  all_goals
    simp only [FileSystem.new, Option.bind_eq_bind, Bool.false_eq_true, if_true, if_false,
      Option.bind_eq_some_iff, Option.some.injEq] at h
  · obtain ⟨_, _, _, _, _, _, rfl⟩ := h
    rfl
  · obtain ⟨_, _, rfl⟩ := h
    rfl

theorem create_heap {name : CString} {initialSize : ℤ} {isDirectory r : Bool}
    {junk : ℕ → ByteMem} (h : fs.create name initialSize isDirectory junk = some (r, fs')) :
    fs'.heap = fs.heap := by
  simp only [create, Option.bind_eq_bind, Option.bind_eq_some_iff] at h
  obtain ⟨⟨file, d⟩, -, h⟩ := h
  dsimp only at h
  split at h
  · cases h
    rfl
  split at h
  · cases h
    rfl
  obtain ⟨freeMap, -, h⟩ := Option.bind_eq_some_iff.mp h
  split at h
  · cases h
    rfl
  split at h
  · cases h
    rfl
  split at h
  · cases h
    rfl
  simp only [Option.bind_eq_some_iff] at h
  obtain ⟨_, -, _, -, _, -, h⟩ := h
  split at h
  all_goals
    obtain ⟨_, -, h⟩ := Option.bind_eq_some_iff.mp h
    cases h
    rfl

theorem remove_heap {name : CString} {r : Bool} {junk : ℕ → ByteMem}
    (h : fs.remove name junk = some (r, fs')) : fs'.heap = fs.heap := by
  simp only [remove, Option.bind_eq_bind, Option.bind_eq_some_iff] at h
  obtain ⟨⟨file, d⟩, -, h⟩ := h
  dsimp only at h
  split at h
  · cases h
    rfl
  simp only [Option.bind_eq_some_iff] at h
  obtain ⟨_, -, _, -, full, -, h⟩ := h
  split at h
  · cases h
    rfl
  simp only [Option.bind_eq_some_iff] at h
  obtain ⟨_, -, _, -, _, -, _, -, h⟩ := h
  cases h
  rfl

theorem openFile_none {name : CString} {junk : ℕ → ByteMem}
    (hfind : fs.findPlain name junk = some none) :
    fs.openFile name junk = .ok (none, fs) := by
  rw [openFile, hfind]
  rfl

theorem openFile_some {name : CString} {sector : ℤ} {junk : ℕ → ByteMem}
    (hfind : fs.findPlain name junk = some (some sector)) :
    fs.openFile name junk = fs.openFound name sector junk := by
  rw [openFile, hfind]
  rfl

/-- **`Close`**: one user less, or the handle and its slot are gone, or the handle is in
no slot. -/
theorem close_cases {file : ℕ} (hclose : fs.close file = .ok fs') :
    fs' = fs ∨
      ∃ h, fs.heap.handles file = some h ∧
        ((1 < h.useCount ∧
            fs' = { fs with heap := fs.heap.setUseCount file h (h.useCount - 1) }) ∨
          ∃ i < OpenFileTableSize, (fs.openFileTable.table i).ptr = file ∧
            fs' = { fs with
              openFileTable := { fs.openFileTable.setSlot i Slot.null with
                count := fs.openFileTable.count - 1 }
              heap := fs.heap.deleteHandle file h }) := by
  obtain ⟨⟨removed, t, heap⟩, hloop, rfl⟩ := map_eq_ok.mp hclose
  rcases OpenFileTable.removeFileLoop_cases _ hloop with
    heq | ⟨h, hp, ⟨hcount, heq⟩ | ⟨i, hi, hptr, heq⟩⟩
  · cases heq
    exact .inl rfl
  · cases heq
    exact .inr ⟨h, hp, .inl ⟨hcount, rfl⟩⟩
  · cases heq
    exact .inr ⟨h, hp, .inr ⟨i, List.mem_range.mp hi, hptr, rfl⟩⟩

end FileSystem

end OsAssignments.Filesys
