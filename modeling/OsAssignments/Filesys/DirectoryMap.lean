import Mathlib.Data.List.Count
import OsAssignments.Lib.KeyedSlots
import OsAssignments.Filesys.Directory

/-!
# A directory is a finite map

From the constructor on, through every sequence of calls of `Add` and `Remove` with the
table written to files and fetched from them in between. The names are as long as they
like; the map is one of their first `FileNameMaxLen` characters.

- `step_holds` — a step does to the table what its event does to the map.
- `finiteMap_run` — **what a directory says at any moment**, from its history.
-/

namespace OsAssignments.Filesys

open PartialMachine KeyedSlots

/-! ## §1  Runs -/

/-- What is done with a directory. -/
inductive DirectoryAct where
  | add (name : CString) (newSector : BitVec 32) (isDirectory : Bool)
  | remove (name : CString)
  /-- `WriteBack` and `FetchFrom`; a new object is made over `fresh`, if it is not the
  same one that fetches. -/
  | roundTrip (disk : Disk) (file : OpenFile) (fresh : Option ByteMem) (junk : ℕ → ByteMem)

/-- A change of the map: a name gets a sector and `isDirectory`, or goes. -/
abbrev Change := List Byte × Option (ℤ × Bool)

namespace Directory

def roundTrip (d : Directory) (disk : Disk) (file : OpenFile) (fresh : Option ByteMem)
    (junk : ℕ → ByteMem) : Option Directory := do
  let disk ← d.writeBack disk file (junk 0)
  (fresh.elim d (new d.tableSize)).fetchFrom disk file (junk 1)

def step (d : Directory) : DirectoryAct → Option Directory
  | .add name newSector isDirectory => some (d.add name newSector.toInt isDirectory).2
  | .remove name => some (d.remove name).2
  | .roundTrip disk file fresh junk => d.roundTrip disk file fresh junk

/-- An `Add` that returns `TRUE`, or a `Remove`. -/
def changes (d : Directory) : DirectoryAct → List Change
  | .add name newSector isDirectory =>
      if (d.add name newSector.toInt isDirectory).1 then
        [(key name, some (newSector.toInt, isDirectory))]
      else []
  | .remove name => [(key name, none)]
  | .roundTrip .. => []

/-- The file of a round trip has room for a table of `size` entries. -/
def HasRoom (size : ℕ) : DirectoryAct → Prop
  | .roundTrip _ file _ _ => ∃ len, file.hdr.Fits len ∧ size * entrySize ≤ len
  | _ => True

/-! ## §2  What is to hold -/

def numInUse (d : Directory) : ℕ :=
  (List.range d.tableSize).countP fun i => (d.entry i).inUse

/-- The last of the changes of `name` is an `Add`, of this sector and `isDirectory`. -/
def LastAdded (history : List Change) (name : CString) (sector : ℤ) (isDirectory : Bool) :
    Prop :=
  Since (fun change => change.1 = key name) (key name, some (sector, isDirectory)) history

/-- A directory with `size` entries is a finite map with this history. -/
structure FiniteMap (size : ℕ) (d : Directory) (history : List Change) : Prop where
  tableSize : d.tableSize = size
  unique : ∀ i < size, ∀ j < size, (d.entry i).inUse = true → (d.entry j).inUse = true →
    (d.entry i).name = (d.entry j).name → i = j
  add_iff : ∀ name (newSector : BitVec 32) isDirectory,
    (d.add name newSector.toInt isDirectory).1 = true ↔
      (∀ i < size, (d.entry i).inUse = true → (d.entry i).name ≠ key name) ∧
        d.numInUse < size
  find : ∀ name sector isDirectory, LastAdded history name sector isDirectory →
    d.find name = sector ∧ d.findDirectory name = if isDirectory then sector else -1
  find_none : ∀ name, (∀ sector isDirectory, ¬ LastAdded history name sector isDirectory) →
    d.find name = -1 ∧ d.findDirectory name = -1
  remove_entry : ∀ name, ∀ i < size, (d.remove name).2.entry i ≠ d.entry i →
    (d.entry i).inUse = true ∧ (d.entry i).name = key name
  remove_find : ∀ name other, key other ≠ key name →
    (d.remove name).2.find other = d.find other ∧
      (d.remove name).2.findDirectory other = d.findDirectory other

/-! ## §3  The slots -/

/-- The entries in use, as names with what they lead to. -/
def slots (d : Directory) (i : ℕ) : Option (List Byte × ℤ × Bool) :=
  if (d.entry i).inUse then
    some ((d.entry i).name, (d.entry i).sector, (d.entry i).isDirectory)
  else none

variable {d d' : Directory}

theorem slots_of_inUse {i : ℕ} (h : (d.entry i).inUse = true) :
    d.slots i = some ((d.entry i).name, (d.entry i).sector, (d.entry i).isDirectory) :=
  if_pos h

theorem slots_of_not_inUse {i : ℕ} (h : (d.entry i).inUse = false) : d.slots i = none :=
  if_neg (by rw [h]; exact Bool.false_ne_true)

theorem slots_eq_some {i : ℕ} {name : List Byte} {v : ℤ × Bool}
    (h : d.slots i = some (name, v)) :
    (d.entry i).inUse = true ∧ (d.entry i).name = name ∧
      ((d.entry i).sector, (d.entry i).isDirectory) = v := by
  obtain ⟨huse, heq⟩ := Option.ite_none_right_eq_some.mp h
  rw [Option.some.injEq, Prod.mk.injEq] at heq
  exact ⟨huse, heq.1, heq.2⟩

theorem slots_congr {i : ℕ} (h : d'.entry i = d.entry i) : d'.slots i = d.slots i := by
  rw [slots, slots, h]

/-- The directory holds the map `m`. -/
abbrev Holds (d : Directory) (m : List Byte → Option (ℤ × Bool)) : Prop :=
  Represents d.tableSize d.slots m

theorem holds_new (size : ℕ) (junk : ByteMem) : (new size junk).Holds fun _ => none :=
  represents_empty fun _ hi => slots_of_not_inUse (inUse_new size junk hi)

section

variable {m : List Byte → Option (ℤ × Bool)} {name : CString}

/-- **`FindIndex`** finds a name that is bound, and no other. -/
theorem findIndex_of_holds (h : d.Holds m) (name : CString) :
    (∃ i : ℕ, d.findIndex name = i ∧ i < d.tableSize ∧ (d.entry i).inUse = true ∧
      (d.entry i).name = key name ∧
      m (key name) = some ((d.entry i).sector, (d.entry i).isDirectory)) ∨
    (d.findIndex name = -1 ∧ m (key name) = none) := by
  rcases d.findIndex_cases name with ⟨i, hindex, hi, huse, hname⟩ | ⟨hnone, hno⟩
  · refine Or.inl ⟨i, hindex, hi, huse, hname, (h.bound _ _).mpr ⟨i, hi, ?_⟩⟩
    rw [slots_of_inUse huse, hname]
  · refine Or.inr ⟨hnone, (h.eq_none_iff _).mpr fun i hi v hslot => ?_⟩
    obtain ⟨huse, hname, -⟩ := slots_eq_some hslot
    exact hno i hi huse hname

theorem Holds.eq_none_of_findIndex (h : d.Holds m) (hnone : d.findIndex name = -1) :
    m (key name) = none := by
  rcases d.findIndex_of_holds h name with ⟨i, hindex, -⟩ | ⟨-, hm⟩
  · omega
  · exact hm

theorem find_of_some (h : d.Holds m) {sector : ℤ} {isDirectory : Bool}
    (hm : m (key name) = some (sector, isDirectory)) :
    d.find name = sector ∧ d.findDirectory name = if isDirectory then sector else -1 := by
  rcases d.findIndex_of_holds h name with ⟨i, hindex, -, -, -, hbound⟩ | ⟨-, hnone⟩
  · obtain ⟨rfl, rfl⟩ := Prod.mk.inj (Option.some.inj (hbound.symm.trans hm))
    exact ⟨find_eq hindex, findDirectory_eq hindex⟩
  · rw [hnone] at hm
    cases hm

theorem find_of_none (h : d.Holds m) (hm : m (key name) = none) :
    d.find name = -1 ∧ d.findDirectory name = -1 := by
  rcases d.findIndex_of_holds h name with ⟨i, -, -, -, -, hbound⟩ | ⟨hnone, -⟩
  · rw [hbound] at hm
    cases hm
  · exact ⟨find_none hnone, findDirectory_none hnone⟩

/-- Two directories that hold maps with the same binding of a name. -/
theorem find_eq_of_holds {m' : List Byte → Option (ℤ × Bool)} (h : d.Holds m)
    (h' : d'.Holds m') (heq : m' (key name) = m (key name)) :
    d'.find name = d.find name ∧ d'.findDirectory name = d.findDirectory name := by
  cases hm : m (key name) with
  | none =>
      obtain ⟨hfind, hdir⟩ := find_of_none h hm
      obtain ⟨hfind', hdir'⟩ := find_of_none h' (heq.trans hm)
      exact ⟨hfind'.trans hfind.symm, hdir'.trans hdir.symm⟩
  | some v =>
      obtain ⟨hfind, hdir⟩ := find_of_some h hm
      obtain ⟨hfind', hdir'⟩ := find_of_some h' (heq.trans hm)
      exact ⟨hfind'.trans hfind.symm, hdir'.trans hdir.symm⟩

/-! ## §4  One step -/

/-- **`Add`** binds a name that is not bound, if there is room. -/
theorem add_holds (h : d.Holds m) (name : CString) (newSector : BitVec 32)
    (isDirectory : Bool) :
    (d.add name newSector.toInt isDirectory = (false, d)) ∨
      ∃ d', d.add name newSector.toInt isDirectory = (true, d') ∧
        d'.tableSize = d.tableSize ∧
        d'.Holds (Function.update m (key name) (some (newSector.toInt, isDirectory))) := by
  rcases d.add_cases name newSector.toInt isDirectory with
    ⟨-, heq⟩ | ⟨-, heq, -⟩ | ⟨i, d', hnone, heq, hi, hfree, -, hsize, hentry, hother⟩
  · exact Or.inl heq
  · exact Or.inl heq
  · have hm := h.eq_none_of_findIndex hnone
    have hslot : d'.slots i = some (key name, newSector.toInt, isDirectory) := by
      rw [slots_of_inUse (by rw [hentry]), hentry, BitVec.ofInt_toInt]
    refine Or.inr ⟨d', heq, hsize, ?_⟩
    rw [Holds, hsize]
    exact h.put hi (slots_of_not_inUse hfree) hm hslot fun j hj => slots_congr (hother j hj)

/-- **`Remove`** ends the binding of the name. -/
theorem remove_holds (h : d.Holds m) (name : CString) :
    (d.remove name).2.tableSize = d.tableSize ∧
      (d.remove name).2.Holds (Function.update m (key name) none) := by
  rcases d.remove_cases name with
    ⟨hnone, heq⟩ | ⟨i, d', hindex, hi, heq, hsize, hentry, hother⟩
  · have hm := h.eq_none_of_findIndex hnone
    rw [heq, ← hm, Function.update_eq_self]
    exact ⟨rfl, h⟩
  · rw [heq]
    refine ⟨hsize, ?_⟩
    rcases d.findIndex_of_holds h name with ⟨j, hindex', -, huse, hname, -⟩ | ⟨hnone, -⟩
    · obtain rfl : i = j := by omega
      have hslot := slots_of_inUse huse
      rw [hname] at hslot
      rw [Holds, hsize]
      exact h.clear hi hslot (slots_of_not_inUse (by rw [hentry]))
        fun j hj => slots_congr (hother j hj)
    · omega

end

/-- **A round trip** brings back every entry. -/
theorem roundTrip_spec {file : OpenFile} {len : ℕ} (hfits : file.hdr.Fits len)
    (hlen : d.tableSize * entrySize ≤ len) (disk : Disk) (fresh : Option ByteMem)
    (junk : ℕ → ByteMem) :
    ∃ d', d.roundTrip disk file fresh junk = some d' ∧ d'.tableSize = d.tableSize ∧
      ∀ i < d.tableSize, d'.entry i = d.entry i := by
  obtain ⟨disk', hwrite, hin, -⟩ := writeBack_file hfits hlen disk (junk 0)
  have hfetch : ∀ r : Directory, r.tableSize = d.tableSize →
      ∃ d', r.fetchFrom disk' file (junk 1) = some d' ∧ d'.tableSize = d.tableSize ∧
        ∀ i < d.tableSize, d'.entry i = d.entry i := by
    intro r hr
    refine ⟨_, fetchFrom_file hfits (hr ▸ hlen) disk' (junk 1), hr,
      fun i hi => entry_congr (fun x hx => ?_) hi⟩
    dsimp only
    rw [hr, bcopy_zero _ _ _ hx, Nat.zero_add, hin x (by omega), if_pos hx]
  simp only [roundTrip, hwrite, Option.bind_eq_bind, Option.bind_some]
  cases fresh with
  | none => exact hfetch d rfl
  | some table => exact hfetch (new d.tableSize table) rfl

/-! ## §5  Every history -/

theorem numInUse_lt_iff (d : Directory) :
    d.numInUse < d.tableSize ↔ ∃ i < d.tableSize, (d.entry i).inUse = false := by
  have hiff := List.countP_lt_length_iff (l := List.range d.tableSize)
    (p := fun i => (d.entry i).inUse)
  simpa only [numInUse, List.length_range, List.mem_range] using hiff

/-- **`Add`** returns `TRUE` if the name is new and an entry is free. -/
theorem add_eq_true_iff (d : Directory) (name : CString) (newSector : ℤ)
    (isDirectory : Bool) :
    (d.add name newSector isDirectory).1 = true ↔
      (∀ i < d.tableSize, (d.entry i).inUse = true → (d.entry i).name ≠ key name) ∧
        d.numInUse < d.tableSize := by
  have hindex := d.findIndex_cases name
  rw [numInUse_lt_iff]
  rcases d.add_cases name newSector isDirectory with
    ⟨hthere, heq⟩ | ⟨-, heq, hfull⟩ | ⟨i, d', hnone, heq, hi, hfree, -⟩
  · rw [heq]
    refine iff_of_false Bool.false_ne_true fun hnew => ?_
    rcases hindex with ⟨i, -, hi, huse, hname⟩ | ⟨hnone, -⟩
    · exact hnew.1 i hi huse hname
    · exact hthere hnone
  · rw [heq]
    refine iff_of_false Bool.false_ne_true fun hfree => ?_
    obtain ⟨i, hi, hfree⟩ := hfree.2
    rw [hfull i hi] at hfree
    cases hfree
  · rw [heq]
    refine iff_of_true rfl ⟨?_, i, hi, hfree⟩
    rcases hindex with ⟨j, hj, -⟩ | ⟨-, hno⟩
    · omega
    · exact hno

/-- The invariant of the runs: the map that the directory holds is that of its history. -/
structure HoldsHistory (size : ℕ) (c : Directory × List Change) : Prop where
  tableSize : c.1.tableSize = size
  holds : c.1.Holds (replay c.2)

/-- **A step** does to the table what its changes do to the map. -/
theorem step_holds {size : ℕ} {c : Directory × List Change} (h : HoldsHistory size c)
    {a : DirectoryAct} (hroom : HasRoom size a) :
    ∃ c', logged step changes c a = some c' ∧ HoldsHistory size c' := by
  obtain ⟨d, history⟩ := c
  obtain ⟨rfl, hholds⟩ := h
  cases a with
  | add name newSector isDirectory =>
      refine ⟨_, rfl, ?_⟩
      rcases add_holds hholds name newSector isDirectory with heq | ⟨d', heq, hsize, hholds'⟩
      · simp only [changes, heq, Bool.false_eq_true, if_false, List.append_nil]
        exact ⟨rfl, hholds⟩
      · simp only [changes, heq, if_true]
        refine ⟨hsize, ?_⟩
        rw [replay_snoc]
        exact hholds'
  | remove name =>
      obtain ⟨hsize, hholds'⟩ := remove_holds hholds name
      refine ⟨_, rfl, hsize, ?_⟩
      simp only [changes]
      rw [replay_snoc]
      exact hholds'
  | roundTrip disk file fresh junk =>
      obtain ⟨len, hfits, hlen⟩ := hroom
      obtain ⟨d', heq, hsize, hentry⟩ := roundTrip_spec hfits hlen disk fresh junk
      refine ⟨(d', history ++ []), logged_eq_some.mpr ⟨heq, rfl⟩, hsize, ?_⟩
      rw [List.append_nil]
      show Represents d'.tableSize d'.slots (replay history)
      rw [hsize]
      exact hholds.congr fun i hi => slots_congr (hentry i hi)

/-- What follows from the invariant. -/
theorem HoldsHistory.finiteMap {size : ℕ} {d : Directory} {history : List Change}
    (h : HoldsHistory size (d, history)) : FiniteMap size d history := by
  obtain ⟨rfl, hholds⟩ := h
  refine ⟨rfl, fun i hi j hj huse huse' hname => ?_, fun name newSector isDirectory => ?_,
    fun name sector isDirectory hlast => ?_, fun name hno => ?_, fun name i hi hchanged => ?_,
    fun name other hother => ?_⟩
  · have hslot := slots_of_inUse huse
    rw [hname] at hslot
    exact hholds.unique i hi j hj _ _ _ hslot (slots_of_inUse huse')
  · exact d.add_eq_true_iff name newSector.toInt isDirectory
  · exact find_of_some hholds (replay_eq_some_iff.mpr hlast)
  · refine find_of_none hholds (Option.eq_none_iff_forall_ne_some.mpr fun v hv => ?_)
    exact hno v.1 v.2 (replay_eq_some_iff.mp hv)
  · rcases d.remove_cases name with ⟨-, heq⟩ | ⟨j, d', hindex, -, heq, -, -, hsame⟩
    · rw [heq] at hchanged
      exact absurd rfl hchanged
    · rw [heq] at hchanged
      obtain rfl : i = j := by
        by_contra hij
        exact hchanged (hsame i hij)
      rcases d.findIndex_cases name with ⟨j, hindex', -, huse, hname⟩ | ⟨hnone, -⟩
      · obtain rfl : i = j := by omega
        exact ⟨huse, hname⟩
      · omega
  · obtain ⟨-, hholds'⟩ := remove_holds hholds name
    exact find_eq_of_holds hholds hholds' (Function.update_of_ne hother ..)

/-- **A directory is a finite map**, of the names cut to `FileNameMaxLen` characters: from
a new directory on, after any sequence of calls and round trips. -/
theorem finiteMap_run (size : ℕ) (junk : ByteMem) (as : List DirectoryAct)
    (hroom : ∀ a ∈ as, HasRoom size a) : ∃ d history,
      run (logged step changes) (new size junk, []) as = some (d, history) ∧
        FiniteMap size d history := by
  have hinit : HoldsHistory size (new size junk, []) := ⟨rfl, holds_new size junk⟩
  obtain ⟨⟨d, history⟩, hrun, hholds⟩ := exists_run_of_stepsMeet (V := HasRoom size)
    (C := fun _ _ => True) hinit (fun _ _ h hroom _ => step_holds h hroom) as hroom
    fun _ _ _ _ _ _ => trivial
  exact ⟨d, history, hrun, hholds.finiteMap⟩

/-- Two names with the same first nine characters. -/
def documents1 : CString := ⟨[100, 111, 99, 117, 109, 101, 110, 116, 115, 49], by decide⟩
def documents2 : CString := ⟨[100, 111, 99, 117, 109, 101, 110, 116, 115, 50], by decide⟩

/-- A file of one sector. -/
def oneSector : OpenFile :=
  ⟨(((FileHeader.mk fun _ => 0).setNumBytes 128).setNumSectors 1).setDataSectors 0 5, 0⟩

theorem fits_oneSector : oneSector.hdr.Fits 128 where
  numBytes := by decide +kernel
  onDisk i hi := by
    obtain rfl : i = 0 := Nat.lt_one_iff.mp hi
    decide +kernel
  inj i j hi hj _ := (Nat.lt_one_iff.mp hi).trans (Nat.lt_one_iff.mp hj).symm

/-- The second `Add` finds the name taken; the third one does not, after the `Remove`. -/
def documentsActs : List DirectoryAct :=
  [.add documents1 7 false, .add documents2 8 true,
    .roundTrip (fun _ => 0xff) oneSector (some fun _ => 0x41) (fun _ _ => 0x42),
    .remove documents2, .add documents2 9 true]

theorem finiteMap_run_documents : ∃ d history,
    run (logged step changes) (new 2 fun _ => 0xff, []) documentsActs = some (d, history) ∧
      FiniteMap 2 d history ∧ d.find documents1 = 9 ∧ d.findDirectory documents1 = 9 := by
  have hroom : ∀ a ∈ documentsActs, HasRoom 2 a := by
    intro a ha
    simp only [documentsActs, List.mem_cons, List.not_mem_nil, or_false] at ha
    rcases ha with rfl | rfl | rfl | rfl | rfl
    · trivial
    · trivial
    · exact ⟨128, fits_oneSector, by decide⟩
    · trivial
    · trivial
  have hend : (run (logged step changes) (new 2 fun _ => 0xff, []) documentsActs).map
      (fun c => decide (c.1.find documents1 = 9 ∧ c.1.findDirectory documents1 = 9)) =
        some true := by
    decide +kernel
  obtain ⟨d, history, hrun, hmap⟩ := finiteMap_run 2 (fun _ => 0xff) documentsActs hroom
  rw [hrun, Option.map_some, Option.some.injEq] at hend
  exact ⟨d, history, hrun, hmap, of_decide_eq_true hend⟩

end Directory

end OsAssignments.Filesys
