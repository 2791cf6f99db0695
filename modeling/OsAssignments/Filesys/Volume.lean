import OsAssignments.Lib.RootedTree
import OsAssignments.Filesys.FileSystem

/-!
# Volumes

What a disk holds, apart from the bytes of its files: the bitmap of free
sectors, the size and the data sectors of the header in each sector, and the
entries of the directory with header in each sector. The operations of the file
system are changes of volumes of two kinds, `Created` and `Removed`, said here
for any volume; that the code makes these changes is proved elsewhere.

- `Volume.Exact` — the marked sectors are the sectors in use, each used once.
- `Volume.Sound` — the invariant: exact, with good headers, links and names.
- `Created.sound`, `Removed.sound` — the changes that keep it.
- `Removed.not_exact` — removing a link does not.
-/

namespace OsAssignments.Filesys

/-! ## §1  The tree -/

structure Volume where
  marked : ℕ → Bool
  size : ℕ → ℤ
  blocks : ℕ → List ℕ
  entry : ℕ → ℕ → DirectoryEntry

/-- What has a header: the two files of the system, and the entries of
directories. -/
inductive Ref where
  | freeMap
  | root
  | entry (s i : ℕ)
  deriving DecidableEq

namespace Volume

/-- Entry `i` of directory `s` is in use and not one of the links `.` and `..`,
which every directory but the root has. -/
def Ordinary (v : Volume) (s i : ℕ) : Prop :=
  i < NumDirEntries ∧ (v.entry s i).inUse = true ∧
    ¬ (s ≠ DirectorySector ∧ IsDots (v.entry s i).name)

instance (v : Volume) (s i : ℕ) : Decidable (v.Ordinary s i) :=
  inferInstanceAs (Decidable (_ ∧ _))

/-- The directory that entry `i` of directory `s` leads to. -/
def child (v : Volume) (s i : ℕ) : Option ℕ :=
  if v.Ordinary s i ∧ (v.entry s i).isDirectory = true then
    some (v.entry s i).sector.toNat
  else none

/-- A directory reachable from the root. -/
abbrev Reachable (v : Volume) : ℕ → Prop := RootedTree.Reach v.child DirectorySector

def Live (v : Volume) : Ref → Prop
  | .freeMap => True
  | .root => True
  | .entry s i => v.Reachable s ∧ v.Ordinary s i

def header (v : Volume) : Ref → ℕ
  | .freeMap => FreeMapSector
  | .root => DirectorySector
  | .entry s i => (v.entry s i).sector.toNat

/-- The header sector and the data sectors. -/
def sectors (v : Volume) (r : Ref) : List ℕ := v.header r :: v.blocks (v.header r)

/-- The bitmap marks the sectors in use, and no sector is used twice. -/
structure Exact (v : Volume) : Prop where
  marked_iff : ∀ x, v.marked x = true ↔ ∃ r, v.Live r ∧ x ∈ v.sectors r
  nodup : ∀ r, v.Live r → (v.sectors r).Nodup
  disjoint : ∀ r r', v.Live r → v.Live r' → r ≠ r' →
    ∀ x ∈ v.sectors r, x ∉ v.sectors r'

/-- The header in sector `s` is one for `len` bytes. -/
def HasSize (v : Volume) (s len : ℕ) : Prop :=
  v.size s = len ∧ (v.blocks s).length = divRoundUp len SectorSize

theorem HasSize.of_same {v v' : Volume} {s len : ℕ} (h : v.HasSize s len)
    (hsame : v'.size s = v.size s ∧ v'.blocks s = v.blocks s) : v'.HasSize s len := by
  rw [HasSize, hsame.1, hsame.2]
  exact h

/-- **The invariant.** -/
structure Sound (v : Volume) : Prop where
  exact : v.Exact
  marked_lt : ∀ x, v.marked x = true → x < NumSectors
  freeMap : v.HasSize FreeMapSector FreeMapFileSize
  directory : ∀ s, v.Reachable s → ∃ len, DirectoryFileSize ≤ len ∧ v.HasSize s len
  links : ∀ s i c, v.Reachable s → v.child s i = some c →
    v.entry c 0 = ⟨true, c, dot.chars, true⟩ ∧
      v.entry c 1 = ⟨true, s, dotDot.chars, true⟩
  names : ∀ s i j, v.Reachable s → i < NumDirEntries → j < NumDirEntries →
    (v.entry s i).inUse = true → (v.entry s j).inUse = true →
    (v.entry s i).name = (v.entry s j).name → i = j

variable {v v' : Volume}

theorem child_eq_some {s i c : ℕ} :
    v.child s i = some c ↔ v.Ordinary s i ∧ (v.entry s i).isDirectory = true ∧
      (v.entry s i).sector.toNat = c := by
  unfold child
  split
  · rename_i h
    simp [h]
  · rename_i h
    simp only [reduceCtorEq, false_iff]
    exact fun h' => h ⟨h'.1, h'.2.1⟩

theorem ordinary_congr {s i : ℕ} (h : i < NumDirEntries → v'.entry s i = v.entry s i) :
    v'.Ordinary s i ↔ v.Ordinary s i := by
  unfold Ordinary
  refine and_congr_right fun hi => ?_
  rw [h hi]

theorem child_congr {s i : ℕ} (h : i < NumDirEntries → v'.entry s i = v.entry s i) :
    v'.child s i = v.child s i := by
  by_cases hi : i < NumDirEntries
  · exact Option.ext fun c => by simp only [child_eq_some, Ordinary, h hi]
  · simp [child, Ordinary, hi]

/-- A directory with its two links and nothing else. -/
theorem isDots_of_links {s cd : ℕ}
    (h : v.entry s 0 = ⟨true, s, dot.chars, true⟩ ∧
      v.entry s 1 = ⟨true, cd, dotDot.chars, true⟩ ∧
      ∀ j, 2 ≤ j → j < NumDirEntries → (v.entry s j).inUse = false)
    {j : ℕ} (hj : j < NumDirEntries) (huse : (v.entry s j).inUse = true) :
    IsDots (v.entry s j).name := by
  obtain ⟨h₀, h₁, hrest⟩ := h
  match j, hj with
  | 0, _ => rw [h₀]; exact Or.inl rfl
  | 1, _ => rw [h₁]; exact Or.inr rfl
  | j + 2, hj =>
      rw [hrest (j + 2) (by omega) hj] at huse
      exact absurd huse (by simp)

/-- A directory whose entries in use are links has no directory below it. -/
theorem child_eq_none {s : ℕ} (hs : s ≠ DirectorySector)
    (h : ∀ i < NumDirEntries, (v.entry s i).inUse = true → IsDots (v.entry s i).name)
    (i : ℕ) : v.child s i = none := by
  cases hc : v.child s i with
  | none => rfl
  | some c =>
      obtain ⟨ho, -⟩ := child_eq_some.mp hc
      exact absurd ⟨hs, h i ho.1 ho.2.1⟩ ho.2.2

/-- A reachable directory is the root or has an entry. -/
theorem Reachable.exists_ref {s : ℕ} (h : v.Reachable s) :
    ∃ r, v.Live r ∧ v.header r = s ∧ r ≠ .freeMap := by
  cases h with
  | root => exact ⟨.root, trivial, rfl, Ref.noConfusion⟩
  | step hp hc =>
      obtain ⟨ho, -, hsec⟩ := child_eq_some.mp hc
      exact ⟨.entry _ _, ⟨hp, ho⟩, hsec, Ref.noConfusion⟩

theorem header_mem_sectors (r : Ref) : v.header r ∈ v.sectors r := List.mem_cons_self

namespace Exact

theorem marked_of_mem (h : v.Exact) {r : Ref} (hr : v.Live r) {x : ℕ}
    (hx : x ∈ v.sectors r) : v.marked x = true :=
  (h.marked_iff x).mpr ⟨r, hr, hx⟩

theorem marked_of_reachable (h : v.Exact) {s : ℕ} (hs : v.Reachable s) :
    v.marked s = true := by
  obtain ⟨r, hr, rfl, -⟩ := Reachable.exists_ref hs
  exact h.marked_of_mem hr (header_mem_sectors r)

theorem header_inj (h : v.Exact) {r r' : Ref} (hr : v.Live r) (hr' : v.Live r')
    (heq : v.header r = v.header r') : r = r' := by
  by_contra hne
  refine h.disjoint r r' hr hr' hne _ (header_mem_sectors r) ?_
  rw [heq]
  exact header_mem_sectors r'

/-- Sector 0 is the header of the bitmap and nothing else. -/
theorem mem_pos (h : v.Exact) {r : Ref} (hr : v.Live r) (hne : r ≠ .freeMap) {x : ℕ}
    (hx : x ∈ v.sectors r) : 0 < x := by
  rw [Nat.pos_iff_ne_zero]
  rintro rfl
  exact h.disjoint r .freeMap hr trivial hne 0 hx List.mem_cons_self

theorem block_pos (h : v.Exact) {r : Ref} (hr : v.Live r) {x : ℕ}
    (hx : x ∈ v.blocks (v.header r)) : 0 < x := by
  by_cases hne : r = .freeMap
  · subst hne
    rw [Nat.pos_iff_ne_zero]
    rintro rfl
    exact (List.nodup_cons.mp (h.nodup .freeMap trivial)).1 hx
  · exact h.mem_pos hr hne (List.mem_cons_of_mem _ hx)

theorem sector_eq (h : v.Exact) {s i : ℕ} (hr : v.Live (.entry s i)) :
    (v.entry s i).sector = (v.header (.entry s i) : ℕ) := by
  have := h.mem_pos hr Ref.noConfusion (header_mem_sectors _)
  simp only [header] at *
  omega

theorem isTree (h : v.Exact) : RootedTree.IsTree v.child DirectorySector where
  root_no_parent := by
    intro n hn i hc
    obtain ⟨ho, -, hsec⟩ := child_eq_some.mp hc
    have : Ref.entry n i = .root := h.header_inj ⟨hn, ho⟩ trivial hsec
    exact Ref.noConfusion this
  parent_unique := by
    intro n n' i i' c hn hn' hc hc'
    obtain ⟨ho, -, hsec⟩ := child_eq_some.mp hc
    obtain ⟨ho', -, hsec'⟩ := child_eq_some.mp hc'
    have : Ref.entry n i = .entry n' i' :=
      h.header_inj ⟨hn, ho⟩ ⟨hn', ho'⟩ (hsec.trans hsec'.symm)
    exact Ref.entry.inj this

end Exact

/-! ## §2  Links -/

namespace Sound

/-- A directory other than the root: its links. -/
theorem links_of_ne_root (h : v.Sound) {s : ℕ} (hs : v.Reachable s)
    (hne : s ≠ DirectorySector) :
    ∃ p i, v.Reachable p ∧ v.child p i = some s ∧
      v.entry s 0 = ⟨true, s, dot.chars, true⟩ ∧
      v.entry s 1 = ⟨true, p, dotDot.chars, true⟩ := by
  cases hs with
  | root => exact absurd rfl hne
  | step hp hc => exact ⟨_, _, hp, hc, h.links _ _ _ hp hc⟩

/-- The entries of a directory other than the root that are named like links are
the links. -/
theorem link_of_isDots (h : v.Sound) {s i : ℕ} (hs : v.Reachable s)
    (hne : s ≠ DirectorySector) (hi : i < NumDirEntries)
    (huse : (v.entry s i).inUse = true) (hdots : IsDots (v.entry s i).name) :
    ∃ p j, v.Reachable p ∧ v.child p j = some s ∧
      ((i = 0 ∧ v.entry s i = ⟨true, s, dot.chars, true⟩) ∨
        (i = 1 ∧ v.entry s i = ⟨true, p, dotDot.chars, true⟩)) := by
  obtain ⟨p, j, hp, hc, h₀, h₁⟩ := h.links_of_ne_root hs hne
  refine ⟨p, j, hp, hc, ?_⟩
  rcases hdots with hdot | hdot
  · have : i = 0 := h.names s i 0 hs hi (by decide) huse (by rw [h₀]) (by rw [h₀, hdot])
    subst this
    exact Or.inl ⟨rfl, h₀⟩
  · have : i = 1 := h.names s i 1 hs hi (by decide) huse (by rw [h₁]) (by rw [h₁, hdot])
    subst this
    exact Or.inr ⟨rfl, h₁⟩

/-- An entry that is not an ordinary one is one of the links. -/
theorem link_of_not_ordinary (h : v.Sound) {s i : ℕ} (hs : v.Reachable s)
    (hi : i < NumDirEntries) (huse : (v.entry s i).inUse = true) (ho : ¬ v.Ordinary s i) :
    ∃ p, v.Reachable p ∧ (v.entry s i = ⟨true, s, dot.chars, true⟩ ∨
      v.entry s i = ⟨true, p, dotDot.chars, true⟩) := by
  have hlink : s ≠ DirectorySector ∧ IsDots (v.entry s i).name := by
    by_contra hno
    exact ho ⟨hi, huse, hno⟩
  obtain ⟨p, j, hp, -, hentry⟩ := h.link_of_isDots hs hlink.1 hi huse hlink.2
  exact ⟨p, hp, hentry.imp And.right And.right⟩

/-- Every entry in use, a link or not, holds the sector of a header in use. -/
theorem exists_ref (h : v.Sound) {s i : ℕ} (hs : v.Reachable s) (hi : i < NumDirEntries)
    (huse : (v.entry s i).inUse = true) :
    ∃ r, v.Live r ∧ r ≠ .freeMap ∧ (v.entry s i).sector = (v.header r : ℕ) := by
  by_cases ho : v.Ordinary s i
  · exact ⟨.entry s i, ⟨hs, ho⟩, Ref.noConfusion, h.exact.sector_eq ⟨hs, ho⟩⟩
  · obtain ⟨p, hp, he | he⟩ := h.link_of_not_ordinary hs hi huse ho
    · obtain ⟨r, hr, hrs, hne⟩ := Reachable.exists_ref hs
      exact ⟨r, hr, hne, by rw [he, hrs]⟩
    · obtain ⟨r, hr, hrs, hne⟩ := Reachable.exists_ref hp
      exact ⟨r, hr, hne, by rw [he, hrs]⟩

theorem target_ne_root (h : v.Sound) {s i : ℕ} (hs : v.Reachable s)
    (ho : v.Ordinary s i) : (v.entry s i).sector.toNat ≠ DirectorySector := fun heq =>
  Ref.noConfusion (h.exact.header_inj (show v.Live (.entry s i) from ⟨hs, ho⟩)
    (show v.Live .root from trivial) heq)

/-- Every directory in use, under a link or not, is reachable. -/
theorem reachable_of_isDirectory (h : v.Sound) {s i : ℕ} (hs : v.Reachable s)
    (hi : i < NumDirEntries) (huse : (v.entry s i).inUse = true)
    (hdir : (v.entry s i).isDirectory = true) :
    v.Reachable (v.entry s i).sector.toNat := by
  by_cases ho : v.Ordinary s i
  · exact RootedTree.Reach.step hs (child_eq_some.mpr ⟨ho, hdir, rfl⟩)
  · obtain ⟨p, hp, he | he⟩ := h.link_of_not_ordinary hs hi huse ho
    · simpa [he] using hs
    · simpa [he] using hp

end Sound

end Volume

/-! ## §3  A formatted disk -/

open Volume

/-- Nothing but the two files of the system. -/
structure Formatted (v : Volume) (mapBlocks dirBlocks : List ℕ) : Prop where
  nodup : (FreeMapSector :: mapBlocks ++ DirectorySector :: dirBlocks).Nodup
  marked : ∀ x, v.marked x = true ↔
    x ∈ FreeMapSector :: mapBlocks ++ DirectorySector :: dirBlocks
  marked_lt : ∀ x, v.marked x = true → x < NumSectors
  blocks_map : v.blocks FreeMapSector = mapBlocks
  blocks_dir : v.blocks DirectorySector = dirBlocks
  size_map : v.HasSize FreeMapSector FreeMapFileSize
  size_dir : v.HasSize DirectorySector DirectoryFileSize
  empty : ∀ i < NumDirEntries, (v.entry DirectorySector i).inUse = false

namespace Formatted

variable {v : Volume} {mapBlocks dirBlocks : List ℕ} (h : Formatted v mapBlocks dirBlocks)

include h

theorem not_ordinary {i : ℕ} : ¬ v.Ordinary DirectorySector i := by
  intro ho
  have := ho.2.1
  rw [h.empty i ho.1] at this
  exact absurd this (by simp)

theorem reachable_iff {s : ℕ} : v.Reachable s ↔ s = DirectorySector := by
  constructor
  · intro hs
    induction hs with
    | root => rfl
    | step _ hc ih =>
        subst ih
        exact absurd (child_eq_some.mp hc).1 h.not_ordinary
  · rintro rfl
    exact RootedTree.Reach.root

theorem live_iff {r : Ref} : v.Live r ↔ r = .freeMap ∨ r = .root := by
  cases r with
  | freeMap => simp [Live]
  | root => simp [Live]
  | entry s i =>
      simp only [Live, reduceCtorEq, or_self, iff_false]
      rintro ⟨hs, ho⟩
      obtain rfl := h.reachable_iff.mp hs
      exact h.not_ordinary ho

theorem sectors_map : v.sectors .freeMap = FreeMapSector :: mapBlocks :=
  congrArg (FreeMapSector :: ·) h.blocks_map

theorem sectors_dir : v.sectors .root = DirectorySector :: dirBlocks :=
  congrArg (DirectorySector :: ·) h.blocks_dir

/-- **Formatting establishes the invariant.** -/
theorem sound : v.Sound := by
  have hnodup := List.nodup_append.mp h.nodup
  have hno : ∀ s i, v.Reachable s → i < NumDirEntries → (v.entry s i).inUse = false := by
    intro s i hs hi
    obtain rfl := h.reachable_iff.mp hs
    exact h.empty i hi
  exact {
    exact := {
      marked_iff := by
        intro x
        rw [h.marked, List.mem_append, ← h.sectors_map, ← h.sectors_dir]
        constructor
        · rintro (hx | hx)
          · exact ⟨.freeMap, trivial, hx⟩
          · exact ⟨.root, trivial, hx⟩
        · rintro ⟨r, hr, hx⟩
          rcases h.live_iff.mp hr with rfl | rfl
          · exact Or.inl hx
          · exact Or.inr hx
      nodup := by
        intro r hr
        rcases h.live_iff.mp hr with rfl | rfl
        · rw [h.sectors_map]
          exact hnodup.1
        · rw [h.sectors_dir]
          exact hnodup.2.1
      disjoint := by
        intro r r' hr hr' hne x hx hx'
        rcases h.live_iff.mp hr with rfl | rfl <;> rcases h.live_iff.mp hr' with rfl | rfl
        · exact hne rfl
        · rw [h.sectors_map] at hx
          rw [h.sectors_dir] at hx'
          exact hnodup.2.2 x hx x hx' rfl
        · rw [h.sectors_dir] at hx
          rw [h.sectors_map] at hx'
          exact hnodup.2.2 x hx' x hx rfl
        · exact hne rfl }
    marked_lt := h.marked_lt
    freeMap := h.size_map
    directory := by
      intro s hs
      obtain rfl := h.reachable_iff.mp hs
      exact ⟨DirectoryFileSize, Nat.le_refl _, h.size_dir⟩
    links := by
      intro s i c hs hc
      obtain ⟨ho, -⟩ := child_eq_some.mp hc
      have := ho.2.1
      rw [hno s i hs ho.1] at this
      exact absurd this (by simp)
    names := by
      intro s i j hs hi _ huse
      rw [hno s i hs hi] at huse
      exact absurd huse (by simp) }

end Formatted

/-! ## §4  Creating -/

/-- Entry `i` of directory `cd` is made to hold a new file or directory, with
header in `sector`. -/
structure Created (v v' : Volume) (cd i sector : ℕ) (newBlocks : List ℕ)
    (initialSize : ℕ) (name : List Byte) (isDirectory : Bool) : Prop where
  slot : i < NumDirEntries
  free : (v.entry cd i).inUse = false
  new_name : ∀ j < NumDirEntries, (v.entry cd j).inUse = true → (v.entry cd j).name ≠ name
  nodup : (sector :: newBlocks).Nodup
  unmarked : ∀ x ∈ sector :: newBlocks, v.marked x = false ∧ x < NumSectors
  marked : ∀ x, v'.marked x = true ↔ v.marked x = true ∨ x ∈ sector :: newBlocks
  size_new : v'.HasSize sector initialSize
  blocks_new : v'.blocks sector = newBlocks
  entry_new : v'.entry cd i = ⟨true, sector, name, isDirectory⟩
  same_file : ∀ r, v.Live r →
    v'.size (v.header r) = v.size (v.header r) ∧
      v'.blocks (v.header r) = v.blocks (v.header r)
  same_entry : ∀ s j, v.Reachable s → j < NumDirEntries → ¬ (s = cd ∧ j = i) →
    v'.entry s j = v.entry s j
  links : isDirectory = true →
    v'.entry sector 0 = ⟨true, sector, dot.chars, true⟩ ∧
      v'.entry sector 1 = ⟨true, cd, dotDot.chars, true⟩ ∧
      ∀ j, 2 ≤ j → j < NumDirEntries → (v'.entry sector j).inUse = false

namespace Created

variable {v v' : Volume} {cd i sector : ℕ} {newBlocks : List ℕ} {initialSize : ℕ}
  {name : List Byte} {isDirectory : Bool}

section

variable (h : Created v v' cd i sector newBlocks initialSize name isDirectory)

include h

theorem child_free : v.child cd i = none := by
  cases hc : v.child cd i with
  | none => rfl
  | some c =>
      have := (child_eq_some.mp hc).1.2.1
      rw [h.free] at this
      exact absurd this (by simp)

theorem not_live_new : ¬ v.Live (.entry cd i) := by
  intro hlive
  have := hlive.2.2.1
  rw [h.free] at this
  exact absurd this (by simp)

theorem child_same {s j : ℕ} (hs : v.Reachable s) (hne : ¬ (s = cd ∧ j = i)) :
    v'.child s j = v.child s j :=
  child_congr fun hj => h.same_entry s j hs hj hne

theorem header_same {r : Ref} (hr : v.Live r) : v'.header r = v.header r := by
  cases r with
  | freeMap => rfl
  | root => rfl
  | entry s j =>
      rw [header, header, h.same_entry s j hr.1 hr.2.1]
      rintro ⟨rfl, rfl⟩
      exact h.not_live_new hr

theorem sectors_same {r : Ref} (hr : v.Live r) : v'.sectors r = v.sectors r := by
  rw [sectors, sectors, h.header_same hr, (h.same_file r hr).2]

theorem sectors_new : v'.sectors (.entry cd i) = sector :: newBlocks := by
  have hheader : v'.header (.entry cd i) = sector := by
    rw [header, h.entry_new]
    exact Int.toNat_natCast sector
  rw [sectors, hheader, h.blocks_new]

/-- A new directory holds its links only. -/
theorem new_dir_dots (hdir : isDirectory = true) {j : ℕ} (hj : j < NumDirEntries)
    (huse : (v'.entry sector j).inUse = true) : IsDots (v'.entry sector j).name :=
  isDots_of_links (h.links hdir) hj huse

/-- The links of a directory are not the entry that was filled. -/
theorem link_same {s c k j : ℕ} (hs : v.Reachable s) (hc : v.child s k = some c)
    (hj : j < NumDirEntries) (huse : (v.entry c j).inUse = true) :
    v'.entry c j = v.entry c j := by
  refine h.same_entry c j (RootedTree.Reach.step hs hc) hj ?_
  rintro ⟨rfl, rfl⟩
  rw [h.free] at huse
  exact absurd huse (by simp)

variable (hv : v.Sound)

include hv

theorem sectors_disjoint {r : Ref} (hr : v.Live r) {x : ℕ} (hx : x ∈ v.sectors r) :
    x ∉ sector :: newBlocks := by
  intro hnew
  have := hv.exact.marked_of_mem hr hx
  rw [(h.unmarked x hnew).1] at this
  exact absurd this (by simp)

theorem sector_not_reachable : ¬ v.Reachable sector := by
  intro hs
  have := hv.exact.marked_of_reachable hs
  rw [(h.unmarked sector List.mem_cons_self).1] at this
  exact absurd this (by simp)

theorem sector_ne_root : sector ≠ DirectorySector := by
  rintro rfl
  exact h.sector_not_reachable hv RootedTree.Reach.root

theorem child_sector (hdir : isDirectory = true) (j : ℕ) : v'.child sector j = none :=
  child_eq_none (h.sector_ne_root hv) (fun _ hj huse => h.new_dir_dots hdir hj huse) j

variable (hcd : v.Reachable cd)

include hcd

/-- The new entry is not one of the links: those are there already. -/
theorem ordinary_new : v'.Ordinary cd i := by
  refine ⟨h.slot, by rw [h.entry_new], ?_⟩
  rw [h.entry_new]
  rintro ⟨hne, hdots⟩
  have hname : name = dot.chars ∨ name = dotDot.chars := hdots
  obtain ⟨p, j, -, -, h₀, h₁⟩ := hv.links_of_ne_root hcd hne
  rcases hname with hdot | hdot
  · exact h.new_name 0 (by decide) (by rw [h₀]) (by rw [h₀, hdot])
  · exact h.new_name 1 (by decide) (by rw [h₁]) (by rw [h₁, hdot])

theorem ordinary_iff {s j : ℕ} (hs : v.Reachable s) :
    v'.Ordinary s j ↔ v.Ordinary s j ∨ s = cd ∧ j = i := by
  by_cases hnew : s = cd ∧ j = i
  · obtain ⟨rfl, rfl⟩ := hnew
    exact ⟨fun _ => Or.inr ⟨rfl, rfl⟩, fun _ => h.ordinary_new hv hcd⟩
  · rw [ordinary_congr fun hj => h.same_entry s j hs hj hnew]
    exact ⟨Or.inl, fun ho => ho.resolve_right hnew⟩

theorem child_new : v'.child cd i = if isDirectory then some sector else none := by
  have ho := h.ordinary_new hv hcd
  rw [child, h.entry_new]
  cases isDirectory <;> simp [ho]

/-- **The directories** are those that were there, and the new one. -/
theorem reachable_iff {s : ℕ} :
    v'.Reachable s ↔ v.Reachable s ∨ isDirectory = true ∧ s = sector := by
  have hnew := h.child_new hv hcd
  cases hdir : isDirectory with
  | true =>
      rw [hdir, if_pos rfl] at hnew
      refine (RootedTree.reach_insert_leaf hcd h.child_free hnew
        (fun n hn j hne => h.child_same hn hne) (h.child_sector hv hdir)).trans ?_
      simp
  | false =>
      rw [hdir, if_neg (by simp)] at hnew
      refine (RootedTree.reach_congr fun n (hn : v.Reachable n) j => ?_).trans (by simp)
      by_cases hne : n = cd ∧ j = i
      · obtain ⟨rfl, rfl⟩ := hne
        rw [hnew, h.child_free]
      · exact h.child_same hn hne

theorem live_iff {r : Ref} : v'.Live r ↔ v.Live r ∨ r = .entry cd i := by
  cases r with
  | freeMap => exact ⟨fun _ => Or.inl trivial, fun _ => trivial⟩
  | root => exact ⟨fun _ => Or.inl trivial, fun _ => trivial⟩
  | entry s j =>
      rw [Live, Live, h.reachable_iff hv hcd, Ref.entry.injEq]
      constructor
      · rintro ⟨hs | ⟨hdir, rfl⟩, ho⟩
        · rcases (h.ordinary_iff hv hcd hs).mp ho with ho | hnew
          · exact Or.inl ⟨hs, ho⟩
          · exact Or.inr hnew
        · -- the new directory holds links only
          exact absurd ⟨h.sector_ne_root hv, h.new_dir_dots hdir ho.1 ho.2.1⟩
            ho.2.2
      · rintro (⟨hs, ho⟩ | ⟨rfl, rfl⟩)
        · exact ⟨Or.inl hs, (h.ordinary_iff hv hcd hs).mpr (Or.inl ho)⟩
        · exact ⟨Or.inl hcd, h.ordinary_new hv hcd⟩

theorem exact : v'.Exact where
  marked_iff := by
    intro x
    rw [h.marked, hv.exact.marked_iff]
    constructor
    · rintro (⟨r, hr, hx⟩ | hx)
      · exact ⟨r, (h.live_iff hv hcd).mpr (Or.inl hr), by rwa [h.sectors_same hr]⟩
      · exact ⟨_, (h.live_iff hv hcd).mpr (Or.inr rfl), by rwa [h.sectors_new]⟩
    · rintro ⟨r, hr, hx⟩
      rcases (h.live_iff hv hcd).mp hr with hr | rfl
      · exact Or.inl ⟨r, hr, by rwa [h.sectors_same hr] at hx⟩
      · exact Or.inr (by rwa [h.sectors_new] at hx)
  nodup := by
    intro r hr
    rcases (h.live_iff hv hcd).mp hr with hr | rfl
    · rw [h.sectors_same hr]
      exact hv.exact.nodup r hr
    · rw [h.sectors_new]
      exact h.nodup
  disjoint := by
    intro r r' hr hr' hne x hx hx'
    rcases (h.live_iff hv hcd).mp hr with hr | rfl <;>
      rcases (h.live_iff hv hcd).mp hr' with hr' | rfl
    · rw [h.sectors_same hr] at hx
      rw [h.sectors_same hr'] at hx'
      exact hv.exact.disjoint r r' hr hr' hne x hx hx'
    · rw [h.sectors_same hr] at hx
      rw [h.sectors_new] at hx'
      exact h.sectors_disjoint hv hr hx hx'
    · rw [h.sectors_new] at hx
      rw [h.sectors_same hr'] at hx'
      exact h.sectors_disjoint hv hr' hx' hx
    · exact hne rfl

/-- **Creating keeps the invariant.** -/
theorem sound (hroom : isDirectory = true → DirectoryFileSize ≤ initialSize) :
    v'.Sound where
  exact := h.exact hv hcd
  marked_lt := by
    intro x hx
    rcases (h.marked x).mp hx with hx | hx
    · exact hv.marked_lt x hx
    · exact (h.unmarked x hx).2
  freeMap := hv.freeMap.of_same (h.same_file .freeMap trivial)
  directory := by
    intro s hs
    rcases (h.reachable_iff hv hcd).mp hs with hs | ⟨hdir, rfl⟩
    · obtain ⟨r, hr, rfl, -⟩ := Reachable.exists_ref hs
      obtain ⟨len, hlen, hhas⟩ := hv.directory _ hs
      exact ⟨len, hlen, hhas.of_same (h.same_file r hr)⟩
    · exact ⟨initialSize, hroom hdir, h.size_new⟩
  links := by
    intro s j c hs hc
    rcases (h.reachable_iff hv hcd).mp hs with hs | ⟨hdir, rfl⟩
    · by_cases hnew : s = cd ∧ j = i
      · obtain ⟨rfl, rfl⟩ := hnew
        rw [h.child_new hv hcd] at hc
        cases hdir : isDirectory with
        | true =>
            rw [hdir, if_pos rfl] at hc
            cases hc
            obtain ⟨h₀, h₁, -⟩ := h.links hdir
            exact ⟨h₀, h₁⟩
        | false =>
            rw [hdir] at hc
            exact absurd hc (by simp)
      · rw [h.child_same hs hnew] at hc
        obtain ⟨h₀, h₁⟩ := hv.links s j c hs hc
        rw [h.link_same hs hc (by decide) (by rw [h₀]),
          h.link_same hs hc (by decide) (by rw [h₁])]
        exact ⟨h₀, h₁⟩
    · rw [h.child_sector hv hdir] at hc
      exact absurd hc (by simp)
  names := by
    intro s j k hs hj hk hjuse hkuse hname
    rcases (h.reachable_iff hv hcd).mp hs with hs | ⟨hdir, rfl⟩
    · by_cases hjnew : s = cd ∧ j = i <;> by_cases hknew : s = cd ∧ k = i
      · rw [hjnew.2, hknew.2]
      · rw [h.same_entry s k hs hk hknew] at hkuse hname
        obtain ⟨rfl, rfl⟩ := hjnew
        rw [h.entry_new] at hname
        exact absurd hname.symm (h.new_name k hk hkuse)
      · rw [h.same_entry s j hs hj hjnew] at hjuse hname
        obtain ⟨rfl, rfl⟩ := hknew
        rw [h.entry_new] at hname
        exact absurd hname (h.new_name j hj hjuse)
      · rw [h.same_entry s j hs hj hjnew] at hjuse hname
        rw [h.same_entry s k hs hk hknew] at hkuse hname
        exact hv.names s j k hs hj hk hjuse hkuse hname
    · obtain ⟨h₀, h₁, hrest⟩ := h.links hdir
      have hlt : ∀ l < NumDirEntries, (v'.entry s l).inUse = true → l < 2 := by
        intro l hl huse
        by_contra hge
        rw [hrest l (by omega) hl] at huse
        exact absurd huse (by simp)
      have hj₂ := hlt j hj hjuse
      have hk₂ := hlt k hk hkuse
      have hne : dot.chars ≠ dotDot.chars := by decide
      match j, k, hj₂, hk₂ with
      | 0, 0, _, _ => rfl
      | 1, 1, _, _ => rfl
      | 0, 1, _, _ => rw [h₀, h₁] at hname; exact absurd hname hne
      | 1, 0, _, _ => rw [h₀, h₁] at hname; exact absurd hname.symm hne

end

end Created

/-! ## §5  Removing -/

/-- Entry `i` of directory `cd` is freed, and the sectors of what it held. -/
structure Removed (v v' : Volume) (cd i : ℕ) : Prop where
  slot : i < NumDirEntries
  inUse : (v.entry cd i).inUse = true
  marked : ∀ x, v'.marked x = true ↔ v.marked x = true ∧
    x ∉ (v.entry cd i).sector.toNat :: v.blocks (v.entry cd i).sector.toNat
  freed : (v'.entry cd i).inUse = false
  same_file : ∀ r, v.Live r →
    v'.size (v.header r) = v.size (v.header r) ∧
      v'.blocks (v.header r) = v.blocks (v.header r)
  same_entry : ∀ s j, v.Reachable s → j < NumDirEntries → ¬ (s = cd ∧ j = i) →
    v'.entry s j = v.entry s j

namespace Removed

variable {v v' : Volume} {cd i : ℕ}

section

variable (h : Removed v v' cd i)

include h

theorem child_same {s j : ℕ} (hs : v.Reachable s) (hne : ¬ (s = cd ∧ j = i)) :
    v'.child s j = v.child s j :=
  child_congr fun hj => h.same_entry s j hs hj hne

theorem not_ordinary : ¬ v'.Ordinary cd i := by
  intro ho
  have := ho.2.1
  rw [h.freed] at this
  exact absurd this (by simp)

theorem child_freed : v'.child cd i = none := by
  cases hc : v'.child cd i with
  | none => rfl
  | some c => exact absurd (child_eq_some.mp hc).1 h.not_ordinary

theorem header_same {r : Ref} (hr : v.Live r) (hne : r ≠ .entry cd i) :
    v'.header r = v.header r := by
  cases r with
  | freeMap => rfl
  | root => rfl
  | entry s j =>
      rw [header, header, h.same_entry s j hr.1 hr.2.1]
      rintro ⟨rfl, rfl⟩
      exact hne rfl

theorem sectors_same {r : Ref} (hr : v.Live r) (hne : r ≠ .entry cd i) :
    v'.sectors r = v.sectors r := by
  rw [sectors, sectors, h.header_same hr hne, (h.same_file r hr).2]

/-- Without a link the same directories are reachable. -/
theorem reachable_link (hlink : ¬ v.Ordinary cd i) {s : ℕ} :
    v'.Reachable s ↔ v.Reachable s :=
  RootedTree.reach_congr fun n hn j => by
    by_cases hne : n = cd ∧ j = i
    · obtain ⟨rfl, rfl⟩ := hne
      rw [h.child_freed]
      cases hc : v.child n j with
      | none => rfl
      | some c => exact absurd (child_eq_some.mp hc).1 hlink
    · exact h.child_same hn hne

/-- **Removing a link frees sectors that are in use.** -/
theorem not_exact (hv : v.Sound) (hcd : v.Reachable cd) (hlink : ¬ v.Ordinary cd i) :
    ¬ v'.Exact := by
  intro hexact
  have hdots : cd ≠ DirectorySector ∧ IsDots (v.entry cd i).name := by
    by_contra hno
    exact hlink ⟨h.slot, h.inUse, hno⟩
  have hdir : (v.entry cd i).isDirectory = true := by
    obtain ⟨p, j, -, -, ⟨-, he⟩ | ⟨-, he⟩⟩ :=
      hv.link_of_isDots hcd hdots.1 h.slot h.inUse hdots.2 <;> rw [he]
  have htarget := hv.reachable_of_isDirectory hcd h.slot h.inUse hdir
  have hmarked := hexact.marked_of_reachable ((h.reachable_link hlink).mpr htarget)
  exact ((h.marked _).mp hmarked).2 List.mem_cons_self

end

section

variable (h : Removed v v' cd i) (hv : v.Sound) (hcd : v.Reachable cd)
  (hord : v.Ordinary cd i)
  (hempty : (v.entry cd i).isDirectory = true → ∀ j < NumDirEntries,
    (v.entry (v.entry cd i).sector.toNat j).inUse = true →
      IsDots (v.entry (v.entry cd i).sector.toNat j).name)

include h hv hcd hord hempty

/-- **The directories** are those that were there, but the one removed. -/
theorem reachable_iff {s : ℕ} :
    v'.Reachable s ↔ v.Reachable s ∧
      ¬ ((v.entry cd i).isDirectory = true ∧ s = (v.entry cd i).sector.toNat) := by
  have hne := hv.target_ne_root hcd hord
  cases hdir : (v.entry cd i).isDirectory with
  | true =>
      have hc : v.child cd i = some (v.entry cd i).sector.toNat :=
        child_eq_some.mpr ⟨hord, hdir, rfl⟩
      refine (RootedTree.reach_remove_leaf hc h.child_freed
        (fun n hn j hne => h.child_same hn hne)
        (child_eq_none hne (hempty hdir))
        (fun n hn j hcn => hv.exact.isTree.parent_unique _ _ _ _ _ hn hcd hcn hc)
        hne).trans ?_
      simp
  | false =>
      refine (RootedTree.reach_congr fun n (hn : v.Reachable n) j => ?_).trans (by simp)
      by_cases hnew : n = cd ∧ j = i
      · obtain ⟨rfl, rfl⟩ := hnew
        rw [h.child_freed, child, if_neg]
        rw [hdir]
        simp
      · exact h.child_same hn hnew

theorem live_iff {r : Ref} : v'.Live r ↔ v.Live r ∧ r ≠ .entry cd i := by
  cases r with
  | freeMap => exact ⟨fun _ => ⟨trivial, Ref.noConfusion⟩, fun _ => trivial⟩
  | root => exact ⟨fun _ => ⟨trivial, Ref.noConfusion⟩, fun _ => trivial⟩
  | entry s j =>
      rw [Live, Live, h.reachable_iff hv hcd hord hempty, ne_eq, Ref.entry.injEq]
      constructor
      · rintro ⟨⟨hs, -⟩, ho⟩
        by_cases hne : s = cd ∧ j = i
        · obtain ⟨rfl, rfl⟩ := hne
          exact absurd ho h.not_ordinary
        · rw [ordinary_congr fun hj => h.same_entry s j hs hj hne] at ho
          exact ⟨⟨hs, ho⟩, hne⟩
      · rintro ⟨⟨hs, ho⟩, hne⟩
        refine ⟨⟨hs, ?_⟩, (ordinary_congr fun hj => h.same_entry s j hs hj hne).mpr ho⟩
        -- the directory removed holds links only
        rintro ⟨hdir, rfl⟩
        exact ho.2.2 ⟨hv.target_ne_root hcd hord, hempty hdir j ho.1 ho.2.1⟩

theorem exact : v'.Exact where
  marked_iff := by
    intro x
    rw [h.marked, hv.exact.marked_iff]
    constructor
    · rintro ⟨⟨r, hr, hx⟩, hout⟩
      have hne : r ≠ .entry cd i := by
        rintro rfl
        exact hout hx
      exact ⟨r, (h.live_iff hv hcd hord hempty).mpr ⟨hr, hne⟩,
        by rwa [h.sectors_same hr hne]⟩
    · rintro ⟨r, hr, hx⟩
      obtain ⟨hr, hne⟩ := (h.live_iff hv hcd hord hempty).mp hr
      rw [h.sectors_same hr hne] at hx
      exact ⟨⟨r, hr, hx⟩, hv.exact.disjoint r (.entry cd i) hr ⟨hcd, hord⟩ hne x hx⟩
  nodup := by
    intro r hr
    obtain ⟨hr, hne⟩ := (h.live_iff hv hcd hord hempty).mp hr
    rw [h.sectors_same hr hne]
    exact hv.exact.nodup r hr
  disjoint := by
    intro r r' hr hr' hrr x hx
    obtain ⟨hr, hne⟩ := (h.live_iff hv hcd hord hempty).mp hr
    obtain ⟨hr', hne'⟩ := (h.live_iff hv hcd hord hempty).mp hr'
    rw [h.sectors_same hr hne] at hx
    rw [h.sectors_same hr' hne']
    exact hv.exact.disjoint r r' hr hr' hrr x hx

/-- Links are not ordinary entries, so the entry freed is none. -/
theorem link_same {s c k j : ℕ} (hs : v.Reachable s) (hc : v.child s k = some c)
    (hj : j < NumDirEntries) (hdots : IsDots (v.entry c j).name) :
    v'.entry c j = v.entry c j := by
  refine h.same_entry c j (RootedTree.Reach.step hs hc) hj ?_
  rintro ⟨rfl, rfl⟩
  refine hord.2.2 ⟨?_, hdots⟩
  rintro rfl
  exact hv.exact.isTree.root_no_parent s hs k hc

/-- **Removing an ordinary entry keeps the invariant.** -/
theorem sound : v'.Sound where
  exact := h.exact hv hcd hord hempty
  marked_lt := fun x hx => hv.marked_lt x ((h.marked x).mp hx).1
  freeMap := hv.freeMap.of_same (h.same_file .freeMap trivial)
  directory := by
    intro s hs
    obtain ⟨hs, -⟩ := (h.reachable_iff hv hcd hord hempty).mp hs
    obtain ⟨r, hr, rfl, -⟩ := Reachable.exists_ref hs
    obtain ⟨len, hlen, hhas⟩ := hv.directory _ hs
    exact ⟨len, hlen, hhas.of_same (h.same_file r hr)⟩
  links := by
    intro s j c hs hc
    obtain ⟨hs, -⟩ := (h.reachable_iff hv hcd hord hempty).mp hs
    have hne : ¬ (s = cd ∧ j = i) := by
      rintro ⟨rfl, rfl⟩
      rw [h.child_freed] at hc
      exact absurd hc (by simp)
    rw [h.child_same hs hne] at hc
    obtain ⟨h₀, h₁⟩ := hv.links s j c hs hc
    rw [h.link_same hv hcd hord hempty hs hc (by decide) (by rw [h₀]; exact Or.inl rfl),
      h.link_same hv hcd hord hempty hs hc (by decide) (by rw [h₁]; exact Or.inr rfl)]
    exact ⟨h₀, h₁⟩
  names := by
    intro s j k hs hj hk hjuse hkuse hname
    obtain ⟨hs, -⟩ := (h.reachable_iff hv hcd hord hempty).mp hs
    have hne : ∀ l, (v'.entry s l).inUse = true → ¬ (s = cd ∧ l = i) := by
      rintro l huse ⟨rfl, rfl⟩
      rw [h.freed] at huse
      exact absurd huse (by simp)
    have hj' := h.same_entry s j hs hj (hne j hjuse)
    have hk' := h.same_entry s k hs hk (hne k hkuse)
    rw [hj'] at hjuse hname
    rw [hk'] at hkuse hname
    exact hv.names s j k hs hj hk hjuse hkuse hname

end

end Removed

end OsAssignments.Filesys
