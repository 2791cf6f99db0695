import OsAssignments.Filesys.FreeMap

/-!
# Moving through the tree of directories

The directories form a tree under the names other than `.` and `..`, these two
lead to the directory itself and to its parent, and so `ChangeDirectory("..")`
undoes a step down: `Navigable`, for every run from a formatted disk. The root
has no links, and `Create` accepts any name: a directory called `.` or `..` in the
root is a directory that no other name leads to, and `..` in the root then moves
down. And `Remove` takes links for ordinary entries.

- `FileSystem.navigable_iff` — the runs that stay navigable are those that neither
  make such a directory nor remove a link to an empty one; a header has to have room for
  the sizes.
- `FileSystem.not_navigable_dotDot` — one call that makes one.
-/

namespace OsAssignments.Filesys

open Volume PartialMachine

namespace Volume

/-! ## §1  The tree under ordinary names -/

/-- The directory that entry `i` of directory `s` leads to, under a name other than
`.` and `..`. -/
def nonDotChild (v : Volume) (s i : ℕ) : Option ℕ :=
  if i < NumDirEntries ∧ (v.entry s i).inUse = true ∧ ¬ IsDots (v.entry s i).name ∧
      (v.entry s i).isDirectory = true then
    some (v.entry s i).sector.toNat
  else none

/-- One path of names other than `.` and `..` leads from the root to each directory. -/
def DirectoryTree (v : Volume) : Prop :=
  ∀ s, v.Reachable s → ∃! l, RootedTree.Path v.nonDotChild DirectorySector l s

/-- The one entry called `name` in directory `s` leads to directory `t`. -/
def LinksTo (v : Volume) (s : ℕ) (name : List Byte) (t : ℕ) : Prop :=
  ∃ i, FileSystem.Named v s i name ∧ (∀ j, FileSystem.Named v s j name → j = i) ∧
    (v.entry s i).isDirectory = true ∧ (v.entry s i).sector = t

/-- `.` leads to the directory itself and `..` to its parent. -/
def Links (v : Volume) : Prop :=
  ∀ s, v.Reachable s → s ≠ DirectorySector → v.LinksTo s dot.chars s ∧
    ∃ p i, v.Reachable p ∧ v.nonDotChild p i = some s ∧ v.LinksTo s dotDot.chars p

/-- No directory in the root is called `.` or `..`. -/
def RootPlain (v : Volume) : Prop :=
  ∀ i < NumDirEntries, (v.entry DirectorySector i).inUse = true →
    (v.entry DirectorySector i).isDirectory = true →
    ¬ IsDots (v.entry DirectorySector i).name

variable {v : Volume}

theorem nonDotChild_eq_some {s i c : ℕ} :
    v.nonDotChild s i = some c ↔ i < NumDirEntries ∧ (v.entry s i).inUse = true ∧
      ¬ IsDots (v.entry s i).name ∧ (v.entry s i).isDirectory = true ∧
      (v.entry s i).sector.toNat = c := by
  unfold nonDotChild
  split
  · rename_i h
    simp [h]
  · rename_i h
    simp only [reduceCtorEq, false_iff]
    exact fun h' => h ⟨h'.1, h'.2.1, h'.2.2.1, h'.2.2.2.1⟩

/-- Names other than `.` and `..` are ordinary everywhere. -/
theorem child_of_nonDotChild {s i c : ℕ} (h : v.nonDotChild s i = some c) :
    v.child s i = some c := by
  obtain ⟨hi, huse, hdots, hdir, hsec⟩ := nonDotChild_eq_some.mp h
  exact child_eq_some.mpr ⟨⟨hi, huse, fun h => hdots h.2⟩, hdir, hsec⟩

theorem reachable_of_nonDot {s : ℕ}
    (h : RootedTree.Reach v.nonDotChild DirectorySector s) : v.Reachable s :=
  h.mono fun _ _ _ _ hc => child_of_nonDotChild hc

theorem nonDotChild_eq_child (hroot : v.RootPlain) (s i : ℕ) :
    v.nonDotChild s i = v.child s i := by
  refine Option.ext fun c => ⟨child_of_nonDotChild, fun hc => ?_⟩
  obtain ⟨⟨hi, huse, hord⟩, hdir, hsec⟩ := child_eq_some.mp hc
  refine nonDotChild_eq_some.mpr ⟨hi, huse, fun hdots => ?_, hdir, hsec⟩
  by_cases hs : s = DirectorySector
  · subst hs
    exact hroot i hi huse hdir hdots
  · exact hord ⟨hs, hdots⟩

theorem Sound.directoryTree (h : v.Sound) (hroot : v.RootPlain) : v.DirectoryTree := by
  have heq : v.nonDotChild = v.child := by
    funext s i
    exact nonDotChild_eq_child hroot s i
  rw [DirectoryTree, heq]
  exact fun s hs => h.exact.isTree.existsUnique_path hs

theorem Sound.linksTo (h : v.Sound) {s i t : ℕ} {name : List Byte} (hs : v.Reachable s)
    (hi : i < NumDirEntries) (he : v.entry s i = ⟨true, t, name, true⟩) :
    v.LinksTo s name t := by
  have hnamed : FileSystem.Named v s i name := ⟨hi, by rw [he], by rw [he]⟩
  exact ⟨i, hnamed, fun j hj => hj.unique h hs hnamed, by rw [he], by rw [he]⟩

theorem Sound.linksOk (h : v.Sound) (hroot : v.RootPlain) : v.Links := by
  intro s hs hne
  obtain ⟨p, i, hp, hc, h₀, h₁⟩ := h.links_of_ne_root hs hne
  exact ⟨h.linksTo hs (by decide) h₀, p, i, hp, (nonDotChild_eq_child hroot p i).trans hc,
    h.linksTo hs (by decide) h₁⟩

/-- In a tree a directory is not under the name `.` or `..` in the root. -/
theorem not_directoryTree (h : v.Sound) {i c : ℕ}
    (hc : v.child DirectorySector i = some c)
    (hdots : IsDots (v.entry DirectorySector i).name) : ¬ v.DirectoryTree := by
  intro htree
  obtain ⟨l, hl, -⟩ := htree c (RootedTree.Reach.step RootedTree.Reach.root hc)
  cases hl with
  | nil => exact h.exact.isTree.root_no_parent _ RootedTree.Reach.root i hc
  | cons hpath hlast =>
      obtain ⟨rfl, rfl⟩ := h.exact.isTree.parent_unique _ _ _ _ _
        (reachable_of_nonDot hpath.reach) RootedTree.Reach.root
        (child_of_nonDotChild hlast) hc
      exact (nonDotChild_eq_some.mp hlast).2.2.1 hdots

end Volume

namespace FileSystem

variable {fs : FileSystem}

/-! ## §2  Navigable states -/

structure Navigable (fs : FileSystem) : Prop where
  cdSector : fs.cdSector = (fs.cdSector.toNat : ℤ) ∧
    (volume fs.disk).Reachable fs.cdSector.toNat
  tree : (volume fs.disk).DirectoryTree
  links : (volume fs.disk).Links
  back : ∀ name junk fs', ¬ IsDots (key name) →
    fs.changeDirectory name junk = some (true, fs') → ∀ junk',
      fs'.changeDirectory dotDot junk' = some (true, { fs' with cdSector := fs.cdSector })
  atRoot : fs.cdSector = DirectorySector → ∀ junk r fs',
    fs.changeDirectory dotDot junk = some (r, fs') → fs'.cdSector = fs.cdSector

/-- What makes a state navigable. -/
structure Plain (fs : FileSystem) : Prop where
  sound : fs.Sound
  root : (volume fs.disk).RootPlain

theorem Plain.back (h : fs.Plain) {name : CString} {junk : ℕ → ByteMem} {fs' : FileSystem}
    (hdots : ¬ IsDots (key name)) (hdown : fs.changeDirectory name junk = some (true, fs'))
    (junk' : ℕ → ByteMem) :
    fs'.changeDirectory dotDot junk' = some (true, { fs' with cdSector := fs.cdSector }) := by
  have hv := h.sound.volume
  rcases changeDirectory_cases h.sound name junk with ⟨hno, -⟩ | ⟨i, hi, hyes⟩
  · rw [hno] at hdown
    exact absurd (congrArg Prod.fst (Option.some.inj hdown)) (by simp)
  rw [hyes, Option.some.injEq, Prod.mk.injEq] at hdown
  obtain ⟨-, rfl⟩ := hdown
  have hc : (volume fs.disk).child fs.cdSector.toNat i =
      some ((volume fs.disk).entry fs.cdSector.toNat i).sector.toNat :=
    child_eq_some.mpr ⟨⟨hi.1, hi.2.1, fun hlink => hdots (hi.2.2.1 ▸ hlink.2)⟩, hi.2.2.2, rfl⟩
  obtain ⟨-, h₁⟩ := hv.links _ _ _ h.sound.reachable hc
  have hup : IsDirectoryEntry (volume fs.disk)
      ((volume fs.disk).entry fs.cdSector.toNat i).sector.toNat 1 (key dotDot) :=
    ⟨by decide, by rw [h₁], by rw [h₁]; rfl, by rw [h₁]⟩
  rcases changeDirectory_cases (h.sound.moved hi) dotDot junk' with ⟨-, hnone⟩ | ⟨j, hj, hchange⟩
  · exact absurd hup (hnone 1)
  · obtain rfl : j = 1 := hv.names _ j 1 (RootedTree.Reach.step h.sound.reachable hc) hj.1
      hup.1 hj.2.1 hup.2.1 (hj.2.2.1.trans hup.2.2.1.symm)
    rw [hchange, h₁]
    simp only
    rw [← h.sound.cdSector]

theorem Plain.atRoot (h : fs.Plain) (hcd : fs.cdSector = DirectorySector)
    {junk : ℕ → ByteMem} {r : Bool} {fs' : FileSystem}
    (hchange : fs.changeDirectory dotDot junk = some (r, fs')) :
    fs'.cdSector = fs.cdSector := by
  rcases changeDirectory_cases h.sound dotDot junk with ⟨hno, -⟩ | ⟨i, hi, -⟩
  · rw [hno, Option.some.injEq, Prod.mk.injEq] at hchange
    rw [← hchange.2]
  · rw [hcd, Int.toNat_natCast] at hi
    exact absurd (hi.2.2.1 ▸ Or.inr rfl) (h.root i hi.1 hi.2.1 hi.2.2.2)

theorem Plain.navigable (h : fs.Plain) : fs.Navigable where
  cdSector := ⟨h.sound.cdSector, h.sound.reachable⟩
  tree := h.sound.volume.directoryTree h.root
  links := h.sound.volume.linksOk h.root
  back := fun _ _ _ hdots hdown junk' => h.back hdots hdown junk'
  atRoot := fun hcd _ _ _ hchange => h.atRoot hcd hchange

/-! ## §3  One call -/

/-- A directory called `.` or `..` is created in the root, where there is room for
it. -/
def MakesRootLink (fs : FileSystem) : Act → Prop
  | .create name initialSize true =>
    fs.cdSector = DirectorySector ∧ IsDots (key name) ∧
      (volume fs.disk).CanCreate DirectorySector (key name) initialSize.toNat
  | .createDirectory name =>
    fs.cdSector = DirectorySector ∧ IsDots (key name) ∧
      (volume fs.disk).CanCreate DirectorySector (key name) DirectoryFileSize
  | _ => False

def Misleads (fs : FileSystem) (a : Act) : Prop := fs.RemovesLink a ∨ fs.MakesRootLink a

/-- A directory created in the root under another name keeps the root plain. -/
theorem create_plain (h : fs.Plain) (name : CString) {initialSize : ℕ}
    (hmax : initialSize ≤ MaxFileSize) (isDirectory : Bool)
    (hroom : isDirectory = true → DirectoryFileSize ≤ initialSize)
    (hnot : isDirectory = true → fs.cdSector = DirectorySector → IsDots (key name) →
      ¬ (volume fs.disk).CanCreate DirectorySector (key name) initialSize)
    (junk : ℕ → ByteMem) :
    ∃ r fs', fs.create name initialSize isDirectory junk = some (r, fs') ∧ fs'.Plain := by
  rcases create_cases h.sound name hmax hroom junk with
    ⟨hcreate, -⟩ | ⟨hcan, disk', i, sector, l, hcreate, hcreated, hmap⟩
  · exact ⟨_, _, hcreate, h⟩
  refine ⟨_, _, hcreate, h.sound.created hcreated hmap hroom, fun j hj huse hdir => ?_⟩
  by_cases hnew : DirectorySector = fs.cdSector.toNat ∧ j = i
  · obtain ⟨hcd, rfl⟩ := hnew
    simp only [hcd, hcreated.entry_new] at hdir ⊢
    rw [← hcd] at hcan
    refine fun hdots => hnot hdir ?_ hdots hcan
    rw [h.sound.cdSector, ← hcd]
  · have hsame := hcreated.same_entry _ j RootedTree.Reach.root hj hnew
    simp only [hsame] at huse hdir ⊢
    exact h.root j hj huse hdir

/-- **A call that does not mislead** returns and keeps the state plain. -/
theorem step_plain (h : fs.Plain) {a : Act} (junk : ℕ → ByteMem) (hvalid : a.Valid)
    (hnot : ¬ fs.Misleads a) : ∃ fs', fs.step (a, junk) = some fs' ∧ fs'.Plain := by
  cases a with
  | create name initialSize isDirectory =>
      obtain ⟨hnonneg, hmax, hroom⟩ := hvalid
      obtain ⟨n, rfl⟩ := Int.eq_ofNat_of_zero_le hnonneg
      obtain ⟨r, fs', hcreate, hplain⟩ := create_plain h name
        (by exact_mod_cast hmax) isDirectory
        (fun hdir => by exact_mod_cast hroom hdir)
        (fun hdir hcd hdots hcan => by
          subst hdir
          exact hnot (Or.inr ⟨hcd, hdots, hcan⟩)) junk
      exact ⟨fs', by simp only [step, call, hcreate, Option.map_some], hplain⟩
  | createDirectory name =>
      obtain ⟨r, fs', hcreate, hplain⟩ := create_plain h name
        (show DirectoryFileSize ≤ MaxFileSize by decide) true
        (fun _ => Nat.le_refl _) (fun _ hcd hdots hcan => hnot (Or.inr ⟨hcd, hdots, hcan⟩))
        junk
      exact ⟨fs', by simp only [step, call, createDirectory, hcreate, Option.map_some],
        hplain⟩
  | changeDirectory name =>
      rcases changeDirectory_cases h.sound name junk with ⟨hchange, -⟩ | ⟨i, hi, hchange⟩
      · exact ⟨fs, by simp only [step, call, hchange, Option.map_some], h⟩
      · exact ⟨_, by simp only [step, call, hchange, Option.map_some], h.sound.moved hi,
          h.root⟩
  | remove name =>
      rcases remove_cases h.sound name junk with
        ⟨hremove, -⟩ | ⟨disk', i, hnamed, hremovable, hremove, hremoved, hmap⟩
      · exact ⟨fs, by simp only [step, call, hremove, Option.map_some], h⟩
      · refine ⟨_, by simp only [step, call, hremove, Option.map_some],
          h.sound.removed hremoved hmap (ordinary_of_not_removesLink
            (fun hlink => hnot (Or.inl hlink)) hnamed hremovable) hremovable,
          fun j hj huse hdir => ?_⟩
        have hne : ¬ (DirectorySector = fs.cdSector.toNat ∧ j = i) := by
          rintro ⟨hcd, rfl⟩
          rw [hcd, hremoved.freed] at huse
          exact absurd huse (by simp)
        have hsame := hremoved.same_entry _ j RootedTree.Reach.root hj hne
        simp only [hsame] at huse hdir ⊢
        exact h.root j hj huse hdir

/-- Without one of its links a directory does not lead back. -/
theorem not_navigable_of_removesLink (h : fs.Plain) {a : Act} {junk : ℕ → ByteMem}
    {fs' : FileSystem} (hlink : fs.RemovesLink a) (hstep : fs.step (a, junk) = some fs') :
    ¬ fs'.Navigable := by
  intro hnav
  obtain ⟨i, hremoved, hord⟩ := removed_of_removesLink h.sound hlink hstep
  have hcd := h.sound.reachable
  have hlinkName : fs.cdSector.toNat ≠ DirectorySector ∧
      IsDots ((volume fs.disk).entry fs.cdSector.toNat i).name := by
    by_contra hno
    exact hord ⟨hremoved.slot, hremoved.inUse, hno⟩
  -- an entry of that name would have been there before, besides the one removed
  have hgone : ∀ t, ¬ (volume fs'.disk).LinksTo fs.cdSector.toNat
      ((volume fs.disk).entry fs.cdSector.toNat i).name t := by
    rintro t ⟨k, ⟨hk, hkuse, hkname⟩, -⟩
    have hki : k ≠ i := by
      rintro rfl
      rw [hremoved.freed] at hkuse
      exact absurd hkuse (by simp)
    rw [hremoved.same_entry _ k hcd hk fun hne => hki hne.2] at hkuse hkname
    exact hki (h.sound.volume.names _ k i hcd hk hremoved.slot hkuse hremoved.inUse hkname)
  obtain ⟨hdot, p, j, -, -, hdotDot⟩ :=
    hnav.links _ ((hremoved.reachable_link hord).mpr hcd) hlinkName.1
  rcases hlinkName.2 with hname | hname
  · exact hgone _ (hname ▸ hdot)
  · exact hgone _ (hname ▸ hdotDot)

/-- A directory called `.` or `..` in the root is not in the tree. -/
theorem not_navigable_of_created (h : fs.Plain) {name : CString} {initialSize : ℕ}
    (hmax : initialSize ≤ MaxFileSize) (hroom : DirectoryFileSize ≤ initialSize)
    (hcd : fs.cdSector = DirectorySector) (hdots : IsDots (key name))
    (hcan : (volume fs.disk).CanCreate DirectorySector (key name) initialSize)
    {junk : ℕ → ByteMem} {r : Bool} {fs' : FileSystem}
    (hcreate : fs.create name initialSize true junk = some (r, fs')) : ¬ fs'.Navigable := by
  have hcdN : fs.cdSector.toNat = DirectorySector := by rw [hcd, Int.toNat_natCast]
  rcases create_cases h.sound name hmax (fun _ => hroom) junk with
    ⟨-, hcannot⟩ | ⟨-, disk', i, sector, l, hcreate', hcreated, hmap⟩
  · rw [hcdN] at hcannot
    exact absurd hcan hcannot
  rw [hcreate', Option.some.injEq, Prod.mk.injEq] at hcreate
  obtain ⟨-, rfl⟩ := hcreate
  intro hnav
  have hchild := hcreated.child_new h.sound.volume h.sound.reachable
  rw [if_pos rfl, hcdN] at hchild
  refine not_directoryTree (hcreated.sound h.sound.volume h.sound.reachable fun _ => hroom)
    hchild ?_ hnav.tree
  rw [← hcdN, hcreated.entry_new]
  exact hdots

theorem not_navigable_of_misleads (h : fs.Plain) {a : Act} {junk : ℕ → ByteMem}
    {fs' : FileSystem} (hvalid : a.Valid) (hmisleads : fs.Misleads a)
    (hstep : fs.step (a, junk) = some fs') : ¬ fs'.Navigable := by
  rcases hmisleads with hlink | hroot
  · exact not_navigable_of_removesLink h hlink hstep
  cases a with
  | create name initialSize isDirectory =>
      cases isDirectory with
      | false => exact hroot.elim
      | true =>
          obtain ⟨hnonneg, hmax, hroom⟩ := hvalid
          obtain ⟨n, rfl⟩ := Int.eq_ofNat_of_zero_le hnonneg
          obtain ⟨hcd, hdots, hcan⟩ := hroot
          obtain ⟨⟨r, t⟩, hcreate, rfl⟩ := Option.map_eq_some_iff.mp hstep
          exact not_navigable_of_created h (by exact_mod_cast hmax)
            (by exact_mod_cast hroom rfl) hcd hdots hcan hcreate
  | createDirectory name =>
      obtain ⟨hcd, hdots, hcan⟩ := hroot
      obtain ⟨⟨r, t⟩, hcreate, rfl⟩ := Option.map_eq_some_iff.mp hstep
      exact not_navigable_of_created h (show DirectoryFileSize ≤ MaxFileSize by decide)
        (Nat.le_refl _) hcd hdots hcan hcreate
  | changeDirectory name => exact hroot.elim
  | remove name => exact hroot.elim

/-! ## §4  Runs -/

/-- **The tree stays navigable, and every call returns, in every run whose calls have
sizes that fit and never mislead**; of the runs whose sizes fit, in exactly those that never
mislead. -/
theorem navigable_iff (disk : Disk) (junk : ℕ → ByteMem) (as : List (Act × (ℕ → ByteMem))) :
    ∃ fs₀, FileSystem.new true disk junk = some fs₀ ∧
      (StepsMeet step (fun fs a => a.1.Valid ∧ ¬ fs.Misleads a.1) fs₀ as →
        (∃ fs, run step fs₀ as = some fs) ∧ Always step Navigable fs₀ as) ∧
      ((∀ a ∈ as, a.1.Valid) →
        (((∃ fs, run step fs₀ as = some fs) ∧ Always step Navigable fs₀ as) ↔
          StepsMeet step (fun fs a => ¬ fs.Misleads a.1) fs₀ as)) := by
  obtain ⟨fs₀, _, _, hnew, hsound, -, hformatted⟩ := new_format disk junk
  have hplain : fs₀.Plain := ⟨hsound, fun i hi huse => by
    rw [hformatted.empty i hi] at huse
    exact absurd huse (by simp)⟩
  have hiff : (∀ a ∈ as, a.1.Valid) →
      (((∃ fs, run step fs₀ as = some fs) ∧ Always step Navigable fs₀ as) ↔
        StepsMeet step (fun fs a => ¬ fs.Misleads a.1) fs₀ as) :=
    run_always_iff_stepsMeet (I := Plain) (V := fun a => a.1.Valid) hplain
      (fun fs h => h.navigable) (fun fs a h hv hnot => step_plain h a.2 hv hnot)
      (fun fs a fs' h hv hm hstep => not_navigable_of_misleads h hv (not_not.mp hm) hstep) as
  exact ⟨fs₀, hnew, run_always_of_stepsMeet (I := Plain) (V := fun _ => True) hplain
    (fun fs h => h.navigable) (fun fs a h _ hC => step_plain h a.2 hC.1 hC.2) as
    (fun _ _ => trivial), hiff⟩

/-- Two directories, one in the other, and back to the root. -/
def downAndUp : List (Act × (ℕ → ByteMem)) :=
  [.createDirectory nameA, .changeDirectory nameA,
    .createDirectory nameB, .changeDirectory nameB,
    .changeDirectory dotDot, .changeDirectory dotDot].map fun a => (a, fun _ _ => 0xff)

theorem navigable_iff_downAndUp :
    ∃ fs₀, FileSystem.new true (fun _ => 0xff) (fun _ _ => 0xff) = some fs₀ ∧
      (((∃ fs, run step fs₀ downAndUp = some fs) ∧ Always step Navigable fs₀ downAndUp) ↔
        StepsMeet step (fun fs a => ¬ fs.Misleads a.1) fs₀ downAndUp) :=
  by
    obtain ⟨fs₀, hnew, -, hiff⟩ := navigable_iff (fun _ => 0xff) (fun _ _ => 0xff) downAndUp
    exact ⟨fs₀, hnew, hiff (by decide)⟩

/-- **`CreateDirectory("..")` in the root**: then `..` moves from the root to the new
directory. -/
theorem not_navigable_dotDot :
    ∃ fs₀ fs, FileSystem.new true (fun _ => 0) (fun _ _ => 0) = some fs₀ ∧
      run step fs₀ [(.createDirectory dotDot, fun _ _ => 0)] = some fs ∧ ¬ fs.Navigable := by
  have hrun : ((FileSystem.new true (fun _ => 0) (fun _ _ => 0)).bind fun fs₀ =>
      (run step fs₀ [(.createDirectory dotDot, fun _ _ => 0)]).bind fun fs =>
        (fs.changeDirectory dotDot fun _ _ => 0).map fun c =>
          (fs.cdSector, c.1, c.2.cdSector)) =
      some ((DirectorySector : ℤ), true, 5) := by
    decide +kernel
  simp only [Option.bind_eq_some_iff, Option.map_eq_some_iff, Prod.mk.injEq] at hrun
  obtain ⟨fs₀, hnew, fs, hfs, ⟨r, fs'⟩, hchange, hcd, -, hmoved⟩ := hrun
  refine ⟨fs₀, fs, hnew, hfs, fun hnav => ?_⟩
  have hstay := hnav.atRoot hcd _ _ _ hchange
  simp only at hmoved
  rw [hmoved, hcd] at hstay
  exact absurd hstay (by decide)

end FileSystem

end OsAssignments.Filesys
