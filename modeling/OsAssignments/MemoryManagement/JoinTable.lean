import Mathlib.Data.List.FinRange
import Mathlib.Logic.Function.Basic
import Mathlib.Tactic.Common

/-!
# The join table

`JoinTable` of `threads/thread.cc`: ten entries, each the address and the serial
number of a child and its exit code, `CODENOTENDED` until it has one. `Find`
compares the serial only while the code is not set: an ended entry answers for
any serial.

§1 the code, §2 what each operation does. `find_eq_some` is the lemma that
carries the callers: when an ended entry never shares its id, `Find` returns
the entry that is meant.
-/

namespace OsAssignments.MemoryManagement

/-! ## §1  The code -/

/-- A `SpaceId` is the address of a `Thread`; 0 is `NULL`. -/
abbrev SpaceId : Type := BitVec 32

def CODENOTENDED : BitVec 32 := 0xBADC0DE
def MAXENTRIES : ℕ := 10

structure JoinTableEntry where
  inUse : Bool
  id : SpaceId
  serial : BitVec 32
  code : BitVec 32
deriving DecidableEq, Repr

abbrev JoinTable : Type := Fin MAXENTRIES → JoinTableEntry

namespace JoinTable

def new : JoinTable := fun _ => ⟨false, 0, -1, CODENOTENDED⟩

def Find (entries : JoinTable) (id : SpaceId) (spid : BitVec 32) :
    Option (Fin MAXENTRIES) :=
  (List.finRange MAXENTRIES).find? fun i =>
    (entries i).id == id && (entries i).inUse &&
      ((entries i).serial == spid || (entries i).code != CODENOTENDED)

def FindFree (entries : JoinTable) : Option (Fin MAXENTRIES) :=
  (List.finRange MAXENTRIES).find? fun i => !(entries i).inUse

/-- Both `ASSERT`s abort: the child is there already, or the table is full. -/
def addChild (entries : JoinTable) (id : SpaceId) (spid : BitVec 32) :
    Option JoinTable :=
  match entries.Find id spid, entries.FindFree with
  | none, some pos =>
      some (Function.update entries pos ⟨true, id, spid, CODENOTENDED⟩)
  | _, _ => none

/-- The code and the table after; an unknown child aborts. -/
def finishJoin (entries : JoinTable) (id : SpaceId) (spid : BitVec 32) :
    Option (BitVec 32 × JoinTable) :=
  (entries.Find id spid).map fun pos =>
    if (entries pos).code ≠ CODENOTENDED then
      ((entries pos).code,
        Function.update entries pos { entries pos with inUse := false })
    else (CODENOTENDED, entries)

def setEndCode (entries : JoinTable) (id : SpaceId) (spid code : BitVec 32) :
    Option JoinTable :=
  (entries.Find id spid).map fun pos =>
    Function.update entries pos { entries pos with code := code }

/-- What `ClearChildren` leaves of the table. -/
def clear (entries : JoinTable) : JoinTable :=
  fun i => { entries i with inUse := false }

/-! ## §2  What the operations do -/

/-- The entry is in use, and its child is known by this address. -/
def Holds (entries : JoinTable) (i : Fin MAXENTRIES) (id : SpaceId) : Prop :=
  (entries i).inUse = true ∧ (entries i).id = id

/-- `Find` would stop at this entry. -/
def Answers (entries : JoinTable) (i : Fin MAXENTRIES) (id : SpaceId)
    (spid : BitVec 32) : Prop :=
  entries.Holds i id ∧
    ((entries i).serial = spid ∨ (entries i).code ≠ CODENOTENDED)

theorem find_some {entries : JoinTable} {id : SpaceId} {spid : BitVec 32}
    {i : Fin MAXENTRIES} (h : entries.Find id spid = some i) :
    entries.Answers i id spid := by
  have := List.find?_some h
  simp only [Bool.and_eq_true, Bool.or_eq_true, beq_iff_eq, bne_iff_ne] at this
  exact ⟨⟨this.1.2, this.1.1⟩, this.2⟩

theorem find_none {entries : JoinTable} {id : SpaceId} {spid : BitVec 32}
    (h : entries.Find id spid = none) (i : Fin MAXENTRIES) :
    ¬ entries.Answers i id spid := by
  have := List.find?_eq_none.mp h i (List.mem_finRange i)
  simp only [Bool.and_eq_true, Bool.or_eq_true, beq_iff_eq, bne_iff_ne] at this
  exact fun ha => this ⟨⟨ha.1.2, ha.1.1⟩, ha.2⟩

/-- **`Find` returns the entry that is meant** when no other one answers. -/
theorem find_eq_some {entries : JoinTable} {id : SpaceId} {spid : BitVec 32}
    {i : Fin MAXENTRIES} (h : entries.Answers i id spid)
    (huniq : ∀ j, entries.Answers j id spid → j = i) :
    entries.Find id spid = some i := by
  cases hf : entries.Find id spid with
  | none => exact absurd h (find_none hf i)
  | some j => rw [huniq j (find_some hf)]

theorem addChild_inv {entries entries' : JoinTable} {id : SpaceId}
    {spid : BitVec 32} (h : entries.addChild id spid = some entries') :
    ∃ pos, (entries pos).inUse = false ∧
      (∀ i, ¬ entries.Answers i id spid) ∧
      entries' = Function.update entries pos ⟨true, id, spid, CODENOTENDED⟩ := by
  unfold addChild at h
  split at h
  · rename_i pos hfind hfree
    cases h
    exact ⟨pos, by simpa using List.find?_some hfree, find_none hfind, rfl⟩
  · cases h

theorem finishJoin_inv {entries entries' : JoinTable} {id : SpaceId}
    {spid code : BitVec 32}
    (h : entries.finishJoin id spid = some (code, entries')) :
    ∃ pos, entries.Answers pos id spid ∧ code = (entries pos).code ∧
      (code = CODENOTENDED → entries' = entries) ∧
      (code ≠ CODENOTENDED → entries' =
        Function.update entries pos { entries pos with inUse := false }) := by
  obtain ⟨pos, hfind, heq⟩ := Option.map_eq_some_iff.mp h
  refine ⟨pos, find_some hfind, ?_⟩
  split at heq
  · rename_i hcode
    obtain ⟨rfl, rfl⟩ := Prod.mk.inj heq
    exact ⟨rfl, fun h => absurd h hcode, fun _ => rfl⟩
  · rename_i hcode
    obtain ⟨rfl, rfl⟩ := Prod.mk.inj heq
    exact ⟨(not_not.mp hcode).symm, fun _ => rfl, fun h => absurd rfl h⟩

theorem setEndCode_inv {entries entries' : JoinTable} {id : SpaceId}
    {spid code : BitVec 32} (h : entries.setEndCode id spid code = some entries') :
    ∃ pos, entries.Find id spid = some pos ∧
      entries' = Function.update entries pos { entries pos with code := code } := by
  obtain ⟨pos, hfind, rfl⟩ := Option.map_eq_some_iff.mp h
  exact ⟨pos, hfind, rfl⟩

end JoinTable

end OsAssignments.MemoryManagement
