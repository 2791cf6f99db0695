import OsAssignments.Lib.PartialMachine
import OsAssignments.Filesys.Operations

/-!
# The free map is exact

The bitmap stored in the free-map file marks the sectors of the files and
directories reachable from the root, each of which is used once: `Exact`, for
every run from a formatted disk. `Remove` takes the links `.` and `..` for
ordinary entries. Where a link leads to a directory that counts as empty, it
frees the sectors of a directory that is still reachable.

- `FileSystem.exact_iff` — the runs that keep the free map exact are those that
  never remove such a link.
- `FileSystem.not_exact_removeDot` — three calls that do.
-/

namespace OsAssignments.Filesys

open Volume PartialMachine

namespace FileSystem

variable {fs : FileSystem}

/-! ## §1  One call -/

/-- `Remove` is called, outside the root, with the name of a link that leads to a
directory which counts as empty. -/
def RemovesLink (fs : FileSystem) : Act → Prop
  | .remove name =>
    fs.cdSector ≠ DirectorySector ∧ IsDots (key name) ∧
      ∃ i, Named (volume fs.disk) fs.cdSector.toNat i (key name) ∧
        Removable (volume fs.disk) fs.cdSector.toNat i
  | _ => False

/-- An entry that `Remove` frees is a link only as `RemovesLink` says. -/
theorem ordinary_of_not_removesLink {name : CString} {i : ℕ}
    (hnot : ¬ fs.RemovesLink (.remove name))
    (hnamed : Named (volume fs.disk) fs.cdSector.toNat i (key name))
    (hremovable : Removable (volume fs.disk) fs.cdSector.toNat i) :
    (volume fs.disk).Ordinary fs.cdSector.toNat i := by
  refine ⟨hnamed.1, hnamed.2.1, ?_⟩
  rintro ⟨hcd, hdots⟩
  rw [hnamed.2.2] at hdots
  refine hnot ⟨fun heq => hcd ?_, hdots, i, hnamed, hremovable⟩
  rw [heq, Int.toNat_natCast]

/-- The two cases of creating a file or a directory. -/
theorem create_sound (h : fs.Sound) (name : CString) {initialSize : ℕ}
    (hmax : initialSize ≤ MaxFileSize) (isDirectory : Bool)
    (hroom : isDirectory = true → DirectoryFileSize ≤ initialSize) (junk : ℕ → ByteMem) :
    ∃ r fs', fs.create name initialSize isDirectory junk = some (r, fs') ∧ fs'.Sound := by
  rcases create_cases h name hmax hroom junk with
    ⟨hcreate, -⟩ | ⟨-, disk', i, sector, l, hcreate, hcreated, hmap⟩
  · exact ⟨_, _, hcreate, h⟩
  · exact ⟨_, _, hcreate, h.created hcreated hmap hroom⟩

/-- **A call that removes no link** returns and keeps the state sound. -/
theorem step_sound (h : fs.Sound) {a : Act} (junk : ℕ → ByteMem) (hvalid : a.Valid)
    (hnot : ¬ fs.RemovesLink a) : ∃ fs', fs.step (a, junk) = some fs' ∧ fs'.Sound := by
  cases a with
  | create name initialSize isDirectory =>
      obtain ⟨hnonneg, hmax, hroom⟩ := hvalid
      obtain ⟨n, rfl⟩ := Int.eq_ofNat_of_zero_le hnonneg
      obtain ⟨r, fs', hcreate, hsound⟩ := create_sound h name (by exact_mod_cast hmax)
        isDirectory (fun hdir => by exact_mod_cast hroom hdir) junk
      exact ⟨fs', by simp only [step, call, hcreate, Option.map_some], hsound⟩
  | createDirectory name =>
      obtain ⟨r, fs', hcreate, hsound⟩ := create_sound h name
        (show DirectoryFileSize ≤ MaxFileSize by decide) true
        (fun _ => Nat.le_refl _) junk
      exact ⟨fs', by simp only [step, call, createDirectory, hcreate, Option.map_some],
        hsound⟩
  | changeDirectory name =>
      rcases changeDirectory_cases h name junk with ⟨hchange, -⟩ | ⟨i, hi, hchange⟩
      · exact ⟨fs, by simp only [step, call, hchange, Option.map_some], h⟩
      · exact ⟨_, by simp only [step, call, hchange, Option.map_some], h.moved hi⟩
  | remove name =>
      rcases remove_cases h name junk with
        ⟨hremove, -⟩ | ⟨disk', i, hnamed, hremovable, hremove, hremoved, hmap⟩
      · exact ⟨fs, by simp only [step, call, hremove, Option.map_some], h⟩
      · exact ⟨_, by simp only [step, call, hremove, Option.map_some],
          h.removed hremoved hmap (ordinary_of_not_removesLink hnot hnamed hremovable)
            hremovable⟩

/-- What a call that removes a link does. -/
theorem removed_of_removesLink (h : fs.Sound) {a : Act} {junk : ℕ → ByteMem}
    {fs' : FileSystem} (hlink : fs.RemovesLink a) (hstep : fs.step (a, junk) = some fs') :
    ∃ i, Removed (volume fs.disk) (volume fs'.disk) fs.cdSector.toNat i ∧
      ¬ (volume fs.disk).Ordinary fs.cdSector.toNat i := by
  cases a with
  | create => exact hlink.elim
  | createDirectory => exact hlink.elim
  | changeDirectory => exact hlink.elim
  | remove name =>
      obtain ⟨hcd, hdots, j, hj, hjrem⟩ := hlink
      rcases remove_cases h name junk with
        ⟨-, hfull⟩ | ⟨disk', i, hnamed, -, hremove, hremoved, -⟩
      · exact absurd hjrem (hfull j hj)
      · simp only [step, call, hremove, Option.map_some, Option.some.injEq] at hstep
        subst hstep
        refine ⟨i, hremoved, fun ho => ho.2.2 ⟨fun heq => hcd ?_, ?_⟩⟩
        · rw [h.cdSector, heq]
        · rw [hnamed.2.2]
          exact hdots

/-! ## §2  Runs -/

def FreeMapExact (fs : FileSystem) : Prop := (volume fs.disk).Exact

/-- **The free map stays exact, and every call returns, in exactly the runs that
never remove a link to an empty directory.** -/
theorem exact_iff (disk : Disk) (junk : ℕ → ByteMem) (as : List (Act × (ℕ → ByteMem)))
    (hvalid : ∀ a ∈ as, a.1.Valid) :
    ∃ fs₀, FileSystem.new true disk junk = some fs₀ ∧
      (((∃ fs, run step fs₀ as = some fs) ∧ Always step FreeMapExact fs₀ as) ↔
        StepsMeet step (fun fs a => ¬ fs.RemovesLink a.1) fs₀ as) := by
  obtain ⟨fs₀, -, -, hnew, hsound, -⟩ := new_format disk junk
  refine ⟨fs₀, hnew, run_always_iff_stepsMeet (I := Sound) (V := fun a => a.1.Valid) hsound
    (fun fs h => h.volume.exact) (fun fs a h hv hnot => step_sound h a.2 hv hnot)
    (fun fs a fs' h _ hlink hstep => ?_) as hvalid⟩
  obtain ⟨i, hremoved, hord⟩ := removed_of_removesLink h (not_not.mp hlink) hstep
  exact hremoved.not_exact h.volume h.reachable hord

def nameA : CString := ⟨[0x61], by decide⟩
def nameB : CString := ⟨[0x62], by decide⟩

/-- The calls of a run without links: a directory, a file in it, both removed. -/
def makeAndRemove : List (Act × (ℕ → ByteMem)) :=
  [.createDirectory nameA, .changeDirectory nameA,
    .create nameB 300 false, .remove nameB,
    .changeDirectory dotDot, .remove nameA].map fun a => (a, fun _ _ => 0xff)

theorem exact_iff_makeAndRemove :
    ∃ fs₀, FileSystem.new true (fun _ => 0xff) (fun _ _ => 0xff) = some fs₀ ∧
      (((∃ fs, run step fs₀ makeAndRemove = some fs) ∧
          Always step FreeMapExact fs₀ makeAndRemove) ↔
        StepsMeet step (fun fs a => ¬ fs.RemovesLink a.1) fs₀ makeAndRemove) :=
  exact_iff _ _ makeAndRemove (by decide)

/-- `Remove(".")` in a new directory. -/
def removeDot : List (Act × (ℕ → ByteMem)) :=
  [.createDirectory nameA, .changeDirectory nameA,
    .remove dot].map fun a => (a, fun _ _ => 0)

/-- **The header of the directory is free while the root still leads to it.** -/
theorem not_exact_removeDot :
    ∃ fs₀ fs, FileSystem.new true (fun _ => 0) (fun _ _ => 0) = some fs₀ ∧
      run step fs₀ removeDot = some fs ∧ ¬ FreeMapExact fs := by
  have hrun : ((FileSystem.new true (fun _ => 0) (fun _ _ => 0)).bind fun fs₀ =>
      (run step fs₀ removeDot).map fun fs =>
        ((volume fs.disk).marked 5, (volume fs.disk).entry DirectorySector 0)) =
      some (false, ⟨true, 5, [0x61], true⟩) := by
    decide +kernel
  simp only [Option.bind_eq_some_iff, Option.map_eq_some_iff, Prod.mk.injEq] at hrun
  obtain ⟨fs₀, hnew, fs, hfs, hmarked, hentry⟩ := hrun
  refine ⟨fs₀, fs, hnew, hfs, fun hexact => ?_⟩
  have hchild : (volume fs.disk).child DirectorySector 0 = some 5 :=
    child_eq_some.mpr ⟨⟨by decide, by rw [hentry], fun h => h.1 rfl⟩, by rw [hentry],
      by rw [hentry]; rfl⟩
  have hreach := hexact.marked_of_reachable (RootedTree.Reach.step RootedTree.Reach.root hchild)
  rw [hmarked] at hreach
  exact absurd hreach (by simp)

end FileSystem

end OsAssignments.Filesys
