import Mathlib.Logic.Function.Basic
import OsAssignments.Filesys.Mounted

/-!
# What the file system is for

A tree of names: directories with items, a current directory, and an amount of room. There
are no sectors here and no tables, and the links `.` and `..` are not items: they only take
up two places of a directory other than the root.

§1 the tree of names and its calls, §2 the same tree in a volume, §3 and §4 how the two
changes of volumes change it.
-/

namespace OsAssignments.Filesys

/-! ## §1  The tree of names -/

structure Item where
  name : List Byte
  size : ℕ
  isDirectory : Bool
deriving DecidableEq, Repr

/-- The names from the root, the last one first. -/
abbrev NamePath := List (List Byte)

/-- `listing p` has the items of directory `p`, if there is one, in any order. -/
structure Names where
  listing : NamePath → Option (List Item)
  cd : NamePath
  clear : ℕ

namespace Names

/-- After formatting: the bitmap and the root have their headers, and three sectors. -/
def init : Names where
  listing := fun p => if p = [] then some [] else none
  cd := []
  clear := NumSectors - 5

/-- The room that a file takes. -/
def cost (size : ℕ) : ℕ := 1 + divRoundUp size SectorSize

/-- The places that the links take. -/
def links (p : NamePath) : ℕ := if p = [] then 0 else 2

def IsLink (p : NamePath) (name : List Byte) : Prop := p ≠ [] ∧ IsDots name

instance (p : NamePath) (name : List Byte) : Decidable (IsLink p name) :=
  inferInstanceAs (Decidable (_ ∧ _))

/-- The items of the current directory. -/
def items (t : Names) : List Item := (t.listing t.cd).getD []

/-- The name is new, and there are a place and room for it. -/
def CanAdd (t : Names) (name : List Byte) (size : ℕ) : Prop :=
  ¬ IsLink t.cd name ∧ (∀ x ∈ t.items, x.name ≠ name) ∧
    t.items.length + links t.cd < NumDirEntries ∧ cost size ≤ t.clear

instance (t : Names) (name : List Byte) (size : ℕ) : Decidable (t.CanAdd name size) :=
  inferInstanceAs (Decidable (_ ∧ _ ∧ _ ∧ _))

/-- With one more item in the current directory. -/
def add (t : Names) (x : Item) : Names where
  listing :=
    let listing := Function.update t.listing t.cd (some (x :: t.items))
    if x.isDirectory then Function.update listing (x.name :: t.cd) (some []) else listing
  cd := t.cd
  clear := t.clear - cost x.size

/-- With one less. -/
def drop (t : Names) (x : Item) : Names where
  listing := Function.update (Function.update t.listing (x.name :: t.cd) none) t.cd
    (some (t.items.filter fun y => y.name ≠ x.name))
  cd := t.cd
  clear := t.clear + cost x.size

def create (t : Names) (name : List Byte) (size : ℕ) (isDirectory : Bool) : Bool × Names :=
  if t.CanAdd name size then (true, t.add ⟨name, size, isDirectory⟩) else (false, t)

/-- Where a link leads. -/
def follow (t : Names) (name : List Byte) : NamePath :=
  if name = dot.chars then t.cd else t.cd.tail

def changeDirectory (t : Names) (name : List Byte) : Bool × Names :=
  if IsLink t.cd name then (true, { t with cd := t.follow name })
  else if (t.listing (name :: t.cd)).isSome then (true, { t with cd := name :: t.cd })
  else (false, t)

def remove (t : Names) (name : List Byte) : Bool × Names :=
  if IsLink t.cd name then (false, t)
  else
    match t.items.find? fun x => x.name = name with
    | none => (false, t)
    | some x =>
        if x.isDirectory ∧ t.listing (name :: t.cd) ≠ some [] then (false, t)
        else (true, t.drop x)

end Names

/-! ## §2  The tree in a volume -/

namespace Volume

/-- The names `p` lead from the root to directory `s`. -/
inductive At (v : Volume) : NamePath → ℕ → Prop
  | root : At v [] DirectorySector
  | step {p : NamePath} {s i c : ℕ} : At v p s → v.child s i = some c →
      At v ((v.entry s i).name :: p) c

def item (v : Volume) (s i : ℕ) : Item where
  name := (v.entry s i).name
  size := (v.size (v.entry s i).sector.toNat).toNat
  isDirectory := (v.entry s i).isDirectory

/-- The items of directory `s`. -/
def items (v : Volume) (s : ℕ) : List Item :=
  (List.range NumDirEntries).filterMap fun i =>
    if v.Ordinary s i then some (v.item s i) else none

variable {v v' : Volume} {p q : NamePath} {s s' : ℕ}

theorem At.reachable (h : v.At p s) : v.Reachable s := by
  induction h with
  | root => exact RootedTree.Reach.root
  | step _ hc ih => exact RootedTree.Reach.step ih hc

/-- A path leads to one directory. -/
theorem At.unique (hv : v.Sound) (h : v.At p s) (h' : v.At p s') : s = s' := by
  induction h generalizing s' with
  | root =>
      cases h'
      rfl
  | @step p s i c hp hc ih =>
      generalize hq : (v.entry s i).name :: p = q at h'
      cases h' with
      | root => cases hq
      | @step p' t j _ hp' hc' =>
          obtain ⟨hname, rfl⟩ := List.cons.inj hq
          obtain rfl := ih hp'
          obtain ⟨ho, -, hsec⟩ := child_eq_some.mp hc
          obtain ⟨ho', -, hsec'⟩ := child_eq_some.mp hc'
          obtain rfl := hv.names _ _ _ hp.reachable ho.1 ho'.1 ho.2.1 ho'.2.1 hname
          rw [← hsec, ← hsec']

/-- One path leads to a directory. -/
theorem At.path_unique (hv : v.Sound) (h : v.At p s) (h' : v.At q s) : p = q := by
  have htree := hv.exact.isTree
  induction h generalizing q with
  | root =>
      generalize hs : DirectorySector = s at h'
      cases h' with
      | root => rfl
      | step hp hc => exact absurd (hs ▸ hc) (htree.root_no_parent _ hp.reachable _)
  | @step p s i c hp hc ih =>
      cases h' with
      | root => exact absurd hc (htree.root_no_parent _ hp.reachable _)
      | @step p' t j _ hp' hc' =>
          obtain ⟨rfl, rfl⟩ := htree.parent_unique _ _ _ _ _ hp.reachable hp'.reachable hc hc'
          rw [ih hp']

theorem At.eq_nil_iff (hv : v.Sound) (h : v.At p s) : p = [] ↔ s = DirectorySector := by
  constructor
  · rintro rfl
    cases h
    rfl
  · rintro rfl
    exact h.path_unique hv At.root

/-- The last name of a path. -/
theorem at_cons_iff {name : List Byte} {c : ℕ} : v.At (name :: p) c ↔
    ∃ s i, v.At p s ∧ v.child s i = some c ∧ (v.entry s i).name = name := by
  constructor
  · intro h
    generalize hq : name :: p = q at h
    cases h with
    | root => cases hq
    | step hp hc =>
        obtain ⟨rfl, rfl⟩ := List.cons.inj hq
        exact ⟨_, _, hp, hc, rfl⟩
  · rintro ⟨s, i, hp, hc, rfl⟩
    exact At.step hp hc

theorem mem_items {x : Item} : x ∈ v.items s ↔ ∃ i, v.Ordinary s i ∧ v.item s i = x := by
  unfold items
  rw [List.mem_filterMap]
  constructor
  · rintro ⟨i, -, hi⟩
    obtain ⟨ho, hx⟩ := Option.ite_none_right_eq_some.mp hi
    exact ⟨i, ho, Option.some.inj hx⟩
  · rintro ⟨i, ho, rfl⟩
    exact ⟨i, List.mem_range.mpr ho.1, if_pos ho⟩

/-- The same entries give the same items. -/
theorem items_congr (ho : ∀ i, v'.Ordinary s i ↔ v.Ordinary s i)
    (hitem : ∀ i, v.Ordinary s i → v'.item s i = v.item s i) : v'.items s = v.items s := by
  unfold items
  refine List.filterMap_congr fun i _ => ?_
  by_cases hi : v.Ordinary s i
  · rw [if_pos hi, if_pos ((ho i).mpr hi), hitem i hi]
  · rw [if_neg hi, if_neg (hi ∘ (ho i).mp)]

end Volume

/-- One place more of a list of places is taken. -/
theorem filterMap_perm_cons {α β : Type*} {l : List α} {i : α} {f f' : α → Option β} {x : β}
    (hl : l.Nodup) (hi : i ∈ l) (hf : f i = none) (hf' : f' i = some x)
    (hother : ∀ j ∈ l, j ≠ i → f' j = f j) : (l.filterMap f').Perm (x :: l.filterMap f) := by
  obtain ⟨l₁, l₂, rfl⟩ := List.append_of_mem hi
  have hnot := List.nodup_middle.mp hl
  rw [List.nodup_cons, List.mem_append, not_or] at hnot
  have hsame (l : List α) (hsub : ∀ j ∈ l, j ∈ l₁ ++ i :: l₂) (hmem : i ∉ l) :
      l.filterMap f' = l.filterMap f :=
    List.filterMap_congr fun j hj => hother j (hsub j hj) fun heq => hmem (heq ▸ hj)
  rw [List.filterMap_append, List.filterMap_append, List.filterMap_cons_some hf',
    List.filterMap_cons_none hf, hsame l₁ (by simp +contextual) hnot.1.1,
    hsame l₂ (by simp +contextual) hnot.1.2]
  exact List.perm_middle

namespace Volume

variable {v v' : Volume} {p : NamePath} {s : ℕ}

theorem item_congr {i : ℕ} (hentry : v'.entry s i = v.entry s i)
    (hsize : v'.size (v.entry s i).sector.toNat = v.size (v.entry s i).sector.toNat) :
    v'.item s i = v.item s i := by
  rw [item, item, hentry, hsize]

/-- A directory with one entry more. -/
theorem items_perm_cons {i : ℕ} (hno : ¬ v.Ordinary s i) (hyes : v'.Ordinary s i)
    (hother : ∀ j, j ≠ i → (v'.Ordinary s j ↔ v.Ordinary s j))
    (hitem : ∀ j, j ≠ i → v.Ordinary s j → v'.item s j = v.item s j) :
    (v'.items s).Perm (v'.item s i :: v.items s) := by
  apply filterMap_perm_cons List.nodup_range (List.mem_range.mpr hyes.1)
  · exact if_neg hno
  · exact if_pos hyes
  · intro j _ hj
    by_cases ho : v.Ordinary s j
    · rw [if_pos ho, if_pos ((hother j hj).mpr ho), hitem j hj ho]
    · rw [if_neg ho, if_neg (ho ∘ (hother j hj).mp)]

/-- Paths stay where the directories on them stay, with their names. -/
theorem At.mono (hsame : ∀ s i c, v.Reachable s → v.child s i = some c →
      v'.child s i = some c ∧ (v'.entry s i).name = (v.entry s i).name)
    (h : v.At p s) : v'.At p s := by
  induction h with
  | root => exact At.root
  | step hp hc ih =>
      obtain ⟨hc', hname⟩ := hsame _ _ _ hp.reachable hc
      rw [← hname]
      exact At.step ih hc'

end Volume

/-! ## §3  After creating -/

open Volume

namespace Created

variable {v v' : Volume} {cd i sector : ℕ} {newBlocks : List ℕ} {initialSize : ℕ}
  {name : List Byte} {isDirectory : Bool} {p q : NamePath} {s : ℕ}
  (h : Created v v' cd i sector newBlocks initialSize name isDirectory)

include h

theorem at_same (hp : v.At p s) : v'.At p s := by
  refine At.mono (fun s j c hs hc => ?_) hp
  have hne : ¬ (s = cd ∧ j = i) := by
    rintro ⟨rfl, rfl⟩
    rw [h.child_free] at hc
    cases hc
  constructor
  · rw [h.child_same hs hne, hc]
  · rw [h.same_entry s j hs (child_eq_some.mp hc).1.1 hne]

/-- The item of an entry that was there. -/
theorem item_same {j : ℕ} (hlive : v.Live (.entry s j)) : v'.item s j = v.item s j := by
  have hne : ¬ (s = cd ∧ j = i) := by
    rintro ⟨rfl, rfl⟩
    exact h.not_live_new hlive
  exact item_congr (h.same_entry s j hlive.1 hlive.2.1 hne) (h.same_file _ hlive).1

theorem items_other (hs : v.Reachable s) (hne : s ≠ cd) : v'.items s = v.items s := by
  apply items_congr
  · exact fun j => ordinary_congr fun hj => h.same_entry s j hs hj fun heq => hne heq.1
  · exact fun j hj => h.item_same ⟨hs, hj⟩

variable (hv : v.Sound)

include hv

theorem items_sector (hdir : isDirectory = true) : v'.items sector = [] := by
  rw [List.eq_nil_iff_forall_not_mem]
  intro x hx
  obtain ⟨j, ho, -⟩ := mem_items.mp hx
  exact ho.2.2 ⟨h.sector_ne_root hv, h.new_dir_dots hdir ho.1 ho.2.1⟩

/-- **The directories** and their paths: those that were there, and the new one. -/
theorem at_iff (hq : v.At q cd) :
    v'.At p s ↔ v.At p s ∨ isDirectory = true ∧ p = name :: q ∧ s = sector := by
  have hcd := hq.reachable
  have hnew := h.child_new hv hcd
  constructor
  · intro hp
    induction hp with
    | root => exact Or.inl At.root
    | @step p s j c _ hc ih =>
        rcases ih with hp | ⟨hdir, -, rfl⟩
        · by_cases hne : s = cd ∧ j = i
          · obtain ⟨rfl, rfl⟩ := hne
            rw [hnew] at hc
            obtain ⟨hdir, hsec⟩ := Option.ite_none_right_eq_some.mp hc
            refine Or.inr ⟨hdir, ?_, (Option.some.inj hsec).symm⟩
            rw [h.entry_new, hp.path_unique hv hq]
          · rw [h.child_same hp.reachable hne] at hc
            rw [h.same_entry s j hp.reachable (child_eq_some.mp hc).1.1 hne]
            exact Or.inl (At.step hp hc)
        · rw [h.child_sector hv hdir] at hc
          cases hc
  · rintro (hp | ⟨hdir, rfl, rfl⟩)
    · exact h.at_same hp
    · have hstep := At.step (h.at_same hq) (hnew.trans (if_pos hdir))
      rwa [h.entry_new] at hstep

theorem items_cd (hcd : v.Reachable cd) :
    (v'.items cd).Perm (⟨name, initialSize, isDirectory⟩ :: v.items cd) := by
  have hitem : v'.item cd i = ⟨name, initialSize, isDirectory⟩ := by
    rw [item, h.entry_new, Int.toNat_natCast, h.size_new.1, Int.toNat_natCast]
  rw [← hitem]
  apply items_perm_cons
  · exact fun ho => h.not_live_new ⟨hcd, ho⟩
  · exact h.ordinary_new hv hcd
  · exact fun j hj => ordinary_congr fun hlt =>
      h.same_entry cd j hcd hlt fun heq => hj heq.2
  · exact fun j _ ho => h.item_same ⟨hcd, ho⟩

omit hv

/-- **The room** that the new file took. -/
theorem numClear_add : v'.numClear + Names.cost initialSize = v.numClear := by
  have hlength : newBlocks.length = divRoundUp initialSize SectorSize := by
    rw [← h.blocks_new]
    exact h.size_new.2
  have hsub : (sector :: newBlocks).toFinset ⊆
      (Finset.range NumSectors).filter fun x => v.marked x = false := by
    intro x hx
    obtain ⟨hclear, hlt⟩ := h.unmarked x (List.mem_toFinset.mp hx)
    exact Finset.mem_filter.mpr ⟨Finset.mem_range.mpr hlt, hclear⟩
  have hrest : (Finset.range NumSectors).filter (fun x => v'.marked x = false) =
      ((Finset.range NumSectors).filter fun x => v.marked x = false) \
        (sector :: newBlocks).toFinset := by
    ext x
    simp only [Finset.mem_filter, Finset.mem_sdiff, List.mem_toFinset, ← Bool.not_eq_true,
      h.marked, not_or, and_assoc]
  have hcard := Finset.card_sdiff_add_card_eq_card hsub
  rw [List.toFinset_card_of_nodup h.nodup, List.length_cons, hlength] at hcard
  rw [numClear, numClear, hrest, Names.cost]
  omega

end Created

/-! ## §4  After removing -/

namespace Removed

variable {v v' : Volume} {cd i : ℕ} {p : NamePath} {s : ℕ} (h : Removed v v' cd i)

include h

/-- The item of an entry that stays. -/
theorem item_same {j : ℕ} (hlive : v.Live (.entry s j)) (hne : ¬ (s = cd ∧ j = i)) :
    v'.item s j = v.item s j :=
  item_congr (h.same_entry s j hlive.1 hlive.2.1 hne) (h.same_file _ hlive).1

theorem items_other (hs : v.Reachable s) (hne : s ≠ cd) : v'.items s = v.items s := by
  apply items_congr
  · exact fun j => ordinary_congr fun hj => h.same_entry s j hs hj fun heq => hne heq.1
  · exact fun j hj => h.item_same ⟨hs, hj⟩ fun heq => hne heq.1

variable (hcd : v.Reachable cd) (hord : v.Ordinary cd i)

include hcd hord

theorem items_cd : (v.items cd).Perm (v.item cd i :: v'.items cd) := by
  have hsame (j : ℕ) (hj : j ≠ i) : v'.Ordinary cd j ↔ v.Ordinary cd j :=
    ordinary_congr fun hlt => h.same_entry cd j hcd hlt fun heq => hj heq.2
  apply items_perm_cons
  · exact h.not_ordinary
  · exact hord
  · exact fun j hj => (hsame j hj).symm
  · exact fun j hj ho =>
      (h.item_same ⟨hcd, (hsame j hj).mp ho⟩ fun heq => hj heq.2).symm

variable (hv : v.Sound)

include hv

/-- The items that stay have other names. -/
theorem name_ne {x : Item} (hx : x ∈ v'.items cd) : x.name ≠ (v.item cd i).name := by
  obtain ⟨j, hj, rfl⟩ := mem_items.mp hx
  have hne : j ≠ i := by
    rintro rfl
    exact h.not_ordinary hj
  have hentry := h.same_entry cd j hcd hj.1 fun heq => hne heq.2
  have huse := hj.2.1
  rw [hentry] at huse
  intro hname
  have hname' : (v'.entry cd j).name = (v.entry cd i).name := hname
  rw [hentry] at hname'
  exact hne (hv.names cd j i hcd hj.1 hord.1 huse hord.2.1 hname')

/-- **The room** that the file gives back. -/
theorem numClear_add {size : ℕ} (hsize : v.HasSize (v.entry cd i).sector.toNat size) :
    v'.numClear = v.numClear + Names.cost size := by
  have hlive : v.Live (.entry cd i) := ⟨hcd, hord⟩
  have hmem (x : ℕ) (hx : x ∈ v.sectors (.entry cd i)) : v.marked x = true :=
    hv.exact.marked_of_mem hlive hx
  have hrest : (Finset.range NumSectors).filter (fun x => v'.marked x = false) =
      ((Finset.range NumSectors).filter fun x => v.marked x = false) ∪
        (v.sectors (.entry cd i)).toFinset := by
    ext x
    simp only [Finset.mem_filter, Finset.mem_union, Finset.mem_range, List.mem_toFinset,
      ← Bool.not_eq_true, h.marked, not_and, not_not]
    constructor
    · rintro ⟨hlt, hx⟩
      by_cases hmarked : v.marked x = true
      · exact Or.inr (hx hmarked)
      · exact Or.inl ⟨hlt, hmarked⟩
    · rintro (⟨hlt, hx⟩ | hx)
      · exact ⟨hlt, fun hmarked => absurd hmarked hx⟩
      · exact ⟨hv.marked_lt x (hmem x hx), fun _ => hx⟩
  have hdisjoint : Disjoint ((Finset.range NumSectors).filter fun x => v.marked x = false)
      (v.sectors (.entry cd i)).toFinset := by
    rw [Finset.disjoint_left]
    intro x hx hx'
    have hmarked := hmem x (List.mem_toFinset.mp hx')
    rw [(Finset.mem_filter.mp hx).2] at hmarked
    cases hmarked
  have hlength : (v.sectors (.entry cd i)).length = Names.cost size := by
    rw [sectors, List.length_cons, header, hsize.2, Names.cost, Nat.add_comm]
  rw [numClear, numClear, hrest, Finset.card_union_of_disjoint hdisjoint,
    List.toFinset_card_of_nodup (hv.exact.nodup _ hlive), hlength]

variable (hempty : (v.entry cd i).isDirectory = true → ∀ j < NumDirEntries,
    (v.entry (v.entry cd i).sector.toNat j).inUse = true →
      IsDots (v.entry (v.entry cd i).sector.toNat j).name)

include hempty

/-- **The directories** and their paths: those that were there, but the one removed. -/
theorem at_iff : v'.At p s ↔ v.At p s ∧
    ¬ ((v.entry cd i).isDirectory = true ∧ s = (v.entry cd i).sector.toNat) := by
  have hroot := hv.target_ne_root hcd hord
  constructor
  · intro hp
    refine ⟨At.mono (fun s j c hs hc => ?_) hp,
      ((h.reachable_iff hv hcd hord hempty).mp hp.reachable).2⟩
    obtain ⟨hs, -⟩ := (h.reachable_iff hv hcd hord hempty).mp hs
    have hne : ¬ (s = cd ∧ j = i) := by
      rintro ⟨rfl, rfl⟩
      rw [h.child_freed] at hc
      cases hc
    rw [← h.child_same hs hne, h.same_entry s j hs (child_eq_some.mp hc).1.1 hne]
    exact ⟨hc, rfl⟩
  · rintro ⟨hp, hstays⟩
    induction hp with
    | root => exact At.root
    | @step p s j c hp hc ih =>
        have hne : ¬ (s = cd ∧ j = i) := by
          rintro ⟨rfl, rfl⟩
          obtain ⟨-, hdir, hsec⟩ := child_eq_some.mp hc
          exact hstays ⟨hdir, hsec.symm⟩
        have hbelow : ¬ ((v.entry cd i).isDirectory = true ∧
            s = (v.entry cd i).sector.toNat) := by
          -- the directory removed has none below it
          rintro ⟨hdir, rfl⟩
          rw [child_eq_none hroot (hempty hdir)] at hc
          cases hc
        rw [← h.same_entry s j hp.reachable (child_eq_some.mp hc).1.1 hne]
        exact At.step (ih hbelow) ((h.child_same hp.reachable hne).trans hc)

end Removed

end OsAssignments.Filesys
