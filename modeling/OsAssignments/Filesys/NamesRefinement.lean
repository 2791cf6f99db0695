import OsAssignments.Filesys.FileWrites
import OsAssignments.Filesys.Names
import OsAssignments.Filesys.Restarts

/-!
# The file system is a tree of names

The calls of the file system, and restarts, answer as the tree of names does, whatever is
on the disk that was formatted and wherever the sectors of files happen to lie: the results
depend on nothing but the names and sizes. The disk at the end holds that tree. So it is as
long as `Remove` is not called with a link to a directory that counts as empty: the tree
refuses that, and the code does not.

- `Shows` — the disk holds a tree of names.
- `FileSystem.names_refined_iff` — the runs that answer as the tree does are those that
  never remove such a link.
-/

namespace OsAssignments.Filesys

open Volume PartialMachine FileSystem

/-! ## §1  The calls of the tree -/

namespace Names

def call (t : Names) : Act → Bool × Names
  | .create name initialSize isDirectory => t.create (key name) initialSize.toNat isDirectory
  | .createDirectory name => t.create (key name) DirectoryFileSize true
  | .changeDirectory name => t.changeDirectory (key name)
  | .remove name => t.remove (key name)

def handle (t : Names) : Event → Option Bool × Names
  | .call a => (some (t.call a).1, (t.call a).2)
  | .restart => (none, { t with cd := [] })

/-- `Remove` is called with the name of a link, and where that leads there is nothing, or
only what is named like a link. -/
def RemovesLink (t : Names) : Event → Prop
  | .call (.remove name) => IsLink t.cd (key name) ∧
    ∀ x ∈ (t.listing (t.follow (key name))).getD [], IsDots x.name
  | _ => False

instance (t : Names) : DecidablePred t.RemovesLink
  | .call (.create _ _ _) => .isFalse id
  | .call (.createDirectory _) => .isFalse id
  | .call (.changeDirectory _) => .isFalse id
  | .call (.remove _) => inferInstanceAs (Decidable (_ ∧ _))
  | .restart => .isFalse id

/-- The results of a list of events, and the tree after them. -/
def run (t : Names) : List Event → List (Option Bool) × Names
  | [] => ([], t)
  | e :: es => ((t.handle e).1 :: ((t.handle e).2.run es).1, ((t.handle e).2.run es).2)

/-- No event removes a link. -/
def Careful (t : Names) : List Event → Prop
  | [] => True
  | e :: es => ¬ t.RemovesLink e ∧ (t.handle e).2.Careful es

instance decidableCareful : (t : Names) → (es : List Event) → Decidable (t.Careful es)
  | _, [] => .isTrue trivial
  | t, e :: es =>
    haveI := decidableCareful (t.handle e).2 es
    inferInstanceAs (Decidable (¬ t.RemovesLink e ∧ (t.handle e).2.Careful es))

variable {t : Names} {x : Item} {p : NamePath}

theorem listing_add_cd : (t.add x).listing t.cd = some (x :: t.items) := by
  have hne : t.cd ≠ x.name :: t.cd := (List.cons_ne_self _ _).symm
  dsimp only [add]
  split
  · rw [Function.update_of_ne hne, Function.update_self]
  · rw [Function.update_self]

theorem listing_add_new (h : x.isDirectory = true) :
    (t.add x).listing (x.name :: t.cd) = some [] := by
  dsimp only [add]
  rw [if_pos h, Function.update_self]

theorem listing_add_other (hcd : p ≠ t.cd)
    (hnew : ¬ (x.isDirectory = true ∧ p = x.name :: t.cd)) :
    (t.add x).listing p = t.listing p := by
  dsimp only [add]
  split
  · rename_i hdir
    rw [Function.update_of_ne fun hp => hnew ⟨hdir, hp⟩, Function.update_of_ne hcd]
  · rw [Function.update_of_ne hcd]

theorem listing_drop_cd :
    (t.drop x).listing t.cd = some (t.items.filter fun y => y.name ≠ x.name) :=
  Function.update_self ..

theorem listing_drop_gone : (t.drop x).listing (x.name :: t.cd) = none := by
  dsimp only [drop]
  rw [Function.update_of_ne (List.cons_ne_self _ _), Function.update_self]

theorem listing_drop_other (hcd : p ≠ t.cd) (hgone : p ≠ x.name :: t.cd) :
    (t.drop x).listing p = t.listing p := by
  dsimp only [drop]
  rw [Function.update_of_ne hcd, Function.update_of_ne hgone]

end Names

/-! ## §2  The disk holds the tree -/

/-- Volume `v` with current directory `cd` holds the tree `t`. -/
structure Shows (v : Volume) (cd : ℕ) (t : Names) : Prop where
  cd : v.At t.cd cd
  listing : ∀ p s, v.At p s → ∃ l, t.listing p = some l ∧ l.Perm (v.items s)
  only : ∀ p l, t.listing p = some l → ∃ s, v.At p s
  clear : t.clear = v.numClear

namespace Shows

variable {v v' : Volume} {cd : ℕ} {t : Names} (h : Shows v cd t)

include h

theorem moved {p : NamePath} {s : ℕ} (hp : v.At p s) : Shows v s { t with cd := p } :=
  ⟨hp, h.listing, h.only, h.clear⟩

theorem items_perm : t.items.Perm (v.items cd) := by
  obtain ⟨l, hl, hperm⟩ := h.listing _ _ h.cd
  rw [Names.items, hl]
  exact hperm

theorem mem_items_iff {x : Item} : x ∈ t.items ↔ ∃ i, v.Ordinary cd i ∧ v.item cd i = x :=
  h.items_perm.mem_iff.trans mem_items

variable (hv : v.Sound)

include hv

theorem isLink_iff {name : List Byte} :
    Names.IsLink t.cd name ↔ cd ≠ DirectorySector ∧ IsDots name :=
  and_congr_left fun _ => not_congr (h.cd.eq_nil_iff hv)

/-- The links are there, in their places. -/
theorem exists_named_of_isLink {name : List Byte} (hlink : Names.IsLink t.cd name) :
    ∃ i, IsDirectoryEntry v cd i name := by
  obtain ⟨hne, hdots⟩ := (h.isLink_iff hv).mp hlink
  obtain ⟨p, j, -, -, h₀, h₁⟩ := hv.links_of_ne_root h.cd.reachable hne
  rcases hdots with hname | hname
  · exact ⟨0, by decide, by rw [h₀], by rw [h₀, hname], by rw [h₀]⟩
  · exact ⟨1, by decide, by rw [h₁], by rw [h₁, hname], by rw [h₁]⟩

/-- A path one longer than the current one leads to a directory in it. -/
theorem child_of_at {name : List Byte} {s : ℕ} (hp : v.At (name :: t.cd) s) :
    ∃ i, v.child cd i = some s ∧ (v.entry cd i).name = name := by
  obtain ⟨s', i, hp', hc, hname⟩ := at_cons_iff.mp hp
  obtain rfl := hp'.unique hv h.cd
  exact ⟨i, hc, hname⟩

end Shows

theorem exists_false_iff_countP_lt {n : ℕ} {f : ℕ → Bool} :
    (∃ j < n, f j = false) ↔ (List.range n).countP f < n := by
  have hle : (List.range n).countP f ≤ n := by
    simpa using List.countP_le_length (p := f) (l := List.range n)
  have hfull : (List.range n).countP f = n ↔ ∀ j < n, f j = true := by
    simpa using List.countP_eq_length (p := f) (l := List.range n)
  rw [Nat.lt_iff_le_and_ne, and_iff_right hle, ne_eq, hfull]
  simp

namespace Volume

variable {v : Volume} {s : ℕ}

theorem length_items : (v.items s).length =
    (List.range NumDirEntries).countP fun i => decide (v.Ordinary s i) := by
  rw [items, List.length_filterMap_eq_countP]
  refine List.countP_congr fun i _ => ?_
  by_cases hi : v.Ordinary s i <;> simp [hi]

/-- Of the entries in use, the items and the links. -/
theorem Sound.countP_inUse (hv : v.Sound) (hs : v.Reachable s) :
    ((List.range NumDirEntries).countP fun i => (v.entry s i).inUse) =
      (v.items s).length + if s = DirectorySector then 0 else 2 := by
  rw [length_items]
  by_cases hroot : s = DirectorySector
  · rw [if_pos hroot, Nat.add_zero]
    refine List.countP_congr fun i hi => ?_
    simp [Ordinary, hroot, List.mem_range.mp hi]
  · rw [if_neg hroot]
    obtain ⟨p, j, -, -, h₀, h₁⟩ := hv.links_of_ne_root hs hroot
    have hlinks (i : ℕ) (hi : IsDots (v.entry s i).name) : ¬ v.Ordinary s i :=
      fun ho => ho.2.2 ⟨hroot, hi⟩
    have hrange : List.range NumDirEntries = 0 :: 1 :: (List.range 8).map (· + 2) := by decide
    rw [hrange, List.countP_cons, List.countP_cons, List.countP_cons, List.countP_cons]
    have hrest : (((List.range 8).map (· + 2)).countP fun i => (v.entry s i).inUse) =
        ((List.range 8).map (· + 2)).countP fun i => decide (v.Ordinary s i) := by
      refine List.countP_congr fun i hi => ?_
      obtain ⟨k, hk, rfl⟩ := List.mem_map.mp hi
      have hlt : k + 2 < NumDirEntries := Nat.add_lt_add_right (List.mem_range.mp hk) 2
      rw [decide_eq_true_eq]
      refine ⟨fun huse => ⟨hlt, huse, fun hdots => ?_⟩, fun ho => ho.2.1⟩
      obtain ⟨-, -, -, -, ⟨hi₀, -⟩ | ⟨hi₁, -⟩⟩ := hv.link_of_isDots hs hroot hlt huse hdots.2
      · omega
      · omega
    have hdot : ¬ v.Ordinary s 0 := hlinks 0 (by rw [h₀]; exact Or.inl rfl)
    have hdotDot : ¬ v.Ordinary s 1 := hlinks 1 (by rw [h₁]; exact Or.inr rfl)
    rw [hrest]
    simp [h₀, h₁, hdot, hdotDot]

end Volume

/-! ## §3  Creating -/

namespace Shows

variable {v v' : Volume} {cd : ℕ} {t : Names} (h : Shows v cd t) (hv : v.Sound)

include h hv

/-- The name is new, in the table and in the tree. -/
theorem isNew_iff {name : List Byte} :
    (∀ j < NumDirEntries, (v.entry cd j).inUse = true → (v.entry cd j).name ≠ name) ↔
      ¬ Names.IsLink t.cd name ∧ ∀ x ∈ t.items, x.name ≠ name := by
  constructor
  · refine fun hno => ⟨fun hlink => ?_, fun x hx => ?_⟩
    · obtain ⟨i, hi, huse, hname, -⟩ := h.exists_named_of_isLink hv hlink
      exact hno i hi huse hname
    · obtain ⟨i, ho, rfl⟩ := h.mem_items_iff.mp hx
      exact hno i ho.1 ho.2.1
  · rintro ⟨hlink, hno⟩ j hj huse rfl
    by_cases ho : v.Ordinary cd j
    · exact hno _ (h.mem_items_iff.mpr ⟨j, ho, rfl⟩) rfl
    · refine hlink ((h.isLink_iff hv).mpr ?_)
      by_contra hno
      exact ho ⟨hj, huse, hno⟩

/-- There is a place, in the table and in the tree. -/
theorem hasPlace_iff : (∃ j < NumDirEntries, (v.entry cd j).inUse = false) ↔
    t.items.length + Names.links t.cd < NumDirEntries := by
  have hlinks : Names.links t.cd = if cd = DirectorySector then 0 else 2 :=
    if_congr (h.cd.eq_nil_iff hv) rfl rfl
  rw [h.items_perm.length_eq, hlinks, ← hv.countP_inUse h.cd.reachable]
  exact exists_false_iff_countP_lt

/-- **What fits**: the test of the names is the test of the entries and the bitmap. -/
theorem canCreate_iff {name : List Byte} {size : ℕ} :
    v.CanCreate cd name size ↔ t.CanAdd name size := by
  rw [CanCreate, Names.CanAdd, h.isNew_iff hv, h.hasPlace_iff hv, h.clear, and_assoc, Names.cost]

theorem created {i sector : ℕ} {newBlocks : List ℕ} {size : ℕ} {name : List Byte}
    {isDirectory : Bool}
    (hcreated : Created v v' cd i sector newBlocks size name isDirectory) :
    Shows v' cd (t.add ⟨name, size, isDirectory⟩) := by
  have hcd := h.cd.reachable
  -- no directory has been at the new path
  have hfresh (s : ℕ) : ¬ v.At (name :: t.cd) s := by
    intro hp
    obtain ⟨j, hc, hname⟩ := h.child_of_at hv hp
    obtain ⟨ho, -⟩ := child_eq_some.mp hc
    exact hcreated.new_name j ho.1 ho.2.1 hname
  refine ⟨hcreated.at_same h.cd, fun p s hp => ?_, fun p l hl => ?_, ?_⟩
  · rcases (hcreated.at_iff hv h.cd).mp hp with hp | ⟨hdir, rfl, rfl⟩
    · by_cases heq : p = t.cd
      · subst heq
        obtain rfl := hp.unique hv h.cd
        exact ⟨_, Names.listing_add_cd, (h.items_perm.cons _).trans
          (hcreated.items_cd hv hcd).symm⟩
      · have hnew : ¬ (isDirectory = true ∧ p = name :: t.cd) := by
          rintro ⟨-, rfl⟩
          exact hfresh s hp
        rw [Names.listing_add_other heq hnew,
          hcreated.items_other hp.reachable fun hs => heq (hp.path_unique hv (hs ▸ h.cd))]
        exact h.listing p s hp
    · exact ⟨_, Names.listing_add_new hdir, by rw [hcreated.items_sector hv hdir]⟩
  · simp only [hcreated.at_iff hv h.cd]
    by_cases heq : p = t.cd
    · exact ⟨cd, Or.inl (heq ▸ h.cd)⟩
    by_cases hnew : isDirectory = true ∧ p = name :: t.cd
    · exact ⟨sector, Or.inr ⟨hnew.1, hnew.2, rfl⟩⟩
    · rw [Names.listing_add_other heq hnew] at hl
      obtain ⟨s, hs⟩ := h.only p l hl
      exact ⟨s, Or.inl hs⟩
  · have hclear := hcreated.numClear_add
    have ht := h.clear
    simp only [Names.add]
    omega

end Shows

/-! ## §4  Removing -/

namespace Shows

variable {v v' : Volume} {cd i : ℕ} {t : Names} (h : Shows v cd t) (hv : v.Sound)

include h hv

/-- The item that the tree finds. -/
theorem find_eq {name : List Byte} (hname : (v.entry cd i).name = name)
    (ho : v.Ordinary cd i) :
    t.items.find? (fun x => x.name = name) = some (v.item cd i) := by
  cases hfind : t.items.find? fun x => x.name = name with
  | none =>
      have hno := List.find?_eq_none.mp hfind _ (h.mem_items_iff.mpr ⟨i, ho, rfl⟩)
      exact absurd (decide_eq_true hname) hno
  | some x =>
      have hfound := List.find?_some hfind
      rw [decide_eq_true_eq] at hfound
      obtain ⟨j, ho', rfl⟩ := h.mem_items_iff.mp (List.mem_of_find?_eq_some hfind)
      have hname' : (v.entry cd j).name = name := hfound
      rw [hv.names _ j i h.cd.reachable ho'.1 ho.1 ho'.2.1 ho.2.1 (hname'.trans hname.symm)]

/-- **What may go**: the test of the names is the test of the table. -/
theorem removable_iff (ho : v.Ordinary cd i) : Removable v cd i ↔
    ¬ ((v.item cd i).isDirectory = true ∧ t.listing ((v.item cd i).name :: t.cd) ≠ some []) := by
  rw [not_and, not_not, Removable]
  refine imp_congr_right fun hdir => ?_
  have hc : v.child cd i = some (v.entry cd i).sector.toNat :=
    child_eq_some.mpr ⟨ho, hdir, rfl⟩
  obtain ⟨l, hl, hperm⟩ := h.listing _ _ (At.step h.cd hc)
  have hroot := hv.target_ne_root h.cd.reachable ho
  change _ ↔ t.listing ((v.entry cd i).name :: t.cd) = some []
  rw [hl, Option.some.injEq]
  constructor
  · intro hempty
    rw [List.eq_nil_iff_forall_not_mem]
    intro x hx
    obtain ⟨j, hj, -⟩ := mem_items.mp (hperm.mem_iff.mp hx)
    exact hj.2.2 ⟨hroot, hempty j hj.1 hj.2.1⟩
  · rintro rfl j hj huse
    by_contra hdots
    have hmem : v.item _ j ∈ v.items (v.entry cd i).sector.toNat :=
      mem_items.mpr ⟨j, ⟨hj, huse, fun hlink => hdots hlink.2⟩, rfl⟩
    exact List.not_mem_nil (hperm.mem_iff.mpr hmem)

theorem removed (hsized : v.Sized) (hremoved : Removed v v' cd i) (ho : v.Ordinary cd i)
    (hempty : Removable v cd i) : Shows v' cd (t.drop (v.item cd i)) := by
  have hcd := h.cd.reachable
  have hat {p : NamePath} {s : ℕ} := hremoved.at_iff (p := p) (s := s) hcd ho hv hempty
  -- the current directory is not the one removed, which is below it
  have hself : ¬ ((v.entry cd i).isDirectory = true ∧ cd = (v.entry cd i).sector.toNat) := by
    rintro ⟨hdir, hself⟩
    exact hv.exact.isTree.child_ne hcd (child_eq_some.mpr ⟨ho, hdir, rfl⟩) hself.symm
  refine ⟨hat.mpr ⟨h.cd, hself⟩, fun p s hp => ?_, fun p l hl => ?_, ?_⟩
  · obtain ⟨hp, hstays⟩ := hat.mp hp
    by_cases heq : p = t.cd
    · subst heq
      obtain rfl := hp.unique hv h.cd
      have hkeep : ((v'.items s).filter fun y => y.name ≠ (v.item s i).name) = v'.items s :=
        List.filter_eq_self.mpr fun y hy =>
          decide_eq_true (hremoved.name_ne hcd ho hv hy)
      have hperm := (h.items_perm.trans (hremoved.items_cd hcd ho)).filter
        fun y => y.name ≠ (v.item s i).name
      rw [List.filter_cons_of_neg (by simp), hkeep] at hperm
      exact ⟨_, Names.listing_drop_cd, hperm⟩
    · have hgone : p ≠ (v.item cd i).name :: t.cd := by
        rintro rfl
        obtain ⟨j, hc, hname⟩ := h.child_of_at hv hp
        obtain ⟨ho', hdir, hsec⟩ := child_eq_some.mp hc
        obtain rfl := hv.names cd j i hcd ho'.1 ho.1 ho'.2.1 ho.2.1 hname
        exact hstays ⟨hdir, hsec.symm⟩
      rw [Names.listing_drop_other heq hgone,
        hremoved.items_other hp.reachable fun hs => heq (hp.path_unique hv (hs ▸ h.cd))]
      exact h.listing p s hp
  · by_cases heq : p = t.cd
    · exact ⟨cd, hat.mpr ⟨heq ▸ h.cd, hself⟩⟩
    by_cases hgone : p = (v.item cd i).name :: t.cd
    · rw [hgone, Names.listing_drop_gone] at hl
      cases hl
    rw [Names.listing_drop_other heq hgone] at hl
    obtain ⟨s, hs⟩ := h.only p l hl
    refine ⟨s, hat.mpr ⟨hs, ?_⟩⟩
    rintro ⟨hdir, rfl⟩
    exact hgone (hs.path_unique hv (At.step h.cd (child_eq_some.mpr ⟨ho, hdir, rfl⟩)))
  · obtain ⟨len, hlen⟩ := hsized (.entry cd i) ⟨hcd, ho⟩
    have hsize : (v.item cd i).size = len := by
      have := hlen.1
      rw [header] at this
      rw [item, this, Int.toNat_natCast]
    rw [hremoved.numClear_add hcd ho hv hlen, ← h.clear, ← hsize]
    rfl

end Shows

/-! ## §5  One call -/

/-- The state holds the tree, and all of it is on the disk. -/
structure Refines (fs : FileSystem) (t : Names) : Prop where
  steady : fs.Steady
  sized : (volume fs.disk).Sized
  tree : Shows (volume fs.disk) fs.cdSector.toNat t

/-- What one call has to keep. -/
def HoldsTree (fs : FileSystem) (t : Names) : Prop :=
  (volume fs.disk).Sized ∧ Shows (volume fs.disk) fs.cdSector.toNat t

namespace Refines

variable {fs : FileSystem} {t : Names} (h : Refines fs t)

include h

theorem create (name : CString) {size : ℕ} (hmax : size ≤ MaxFileSize) (isDirectory : Bool)
    (hroom : isDirectory = true → DirectoryFileSize ≤ size) (junk : ℕ → ByteMem) :
    ∃ fs', fs.create name size isDirectory junk =
        some ((t.create (key name) size isDirectory).1, fs') ∧
      HoldsTree fs' (t.create (key name) size isDirectory).2 := by
  have hv := h.steady.sound.volume
  rcases create_cases h.steady.sound name hmax hroom junk with
    ⟨hcreate, hno⟩ | ⟨hcan, disk', i, sector, l, hcreate, hcreated, -⟩
  · rw [Names.create, if_neg ((h.tree.canCreate_iff hv).not.mp hno)]
    exact ⟨fs, hcreate, h.sized, h.tree⟩
  · rw [Names.create, if_pos ((h.tree.canCreate_iff hv).mp hcan)]
    exact ⟨_, hcreate, h.sized.created hcreated hv h.tree.cd.reachable,
      h.tree.created hv hcreated⟩

/-- A link leads where the tree says. -/
theorem follow {name : List Byte} {i : ℕ} (hlink : Names.IsLink t.cd name)
    (hi : IsDirectoryEntry (volume fs.disk) fs.cdSector.toNat i name) :
    (volume fs.disk).At (t.follow name)
      ((volume fs.disk).entry fs.cdSector.toNat i).sector.toNat := by
  have hv := h.steady.sound.volume
  have hat := h.tree.cd
  unfold Names.follow
  cases hcd : t.cd with
  | nil => exact absurd hcd hlink.1
  | cons n q =>
      rw [hcd] at hat
      obtain ⟨p, j, hp, hc, -⟩ := at_cons_iff.mp hat
      obtain ⟨h₀, h₁⟩ := hv.links _ _ _ hp.reachable hc
      have hplace (k : ℕ) (hk : k < NumDirEntries)
          (huse : ((volume fs.disk).entry fs.cdSector.toNat k).inUse = true)
          (hname : ((volume fs.disk).entry fs.cdSector.toNat k).name = name) : i = k :=
        hv.names _ i k hat.reachable hi.1 hk hi.2.1 huse (hi.2.2.1.trans hname.symm)
      have hdots : name = dot.chars ∨ name = dotDot.chars := hlink.2
      rcases hdots with hname | hname
      · obtain rfl := hplace 0 (by decide) (by rw [h₀]) (by rw [h₀, hname])
        rw [if_pos hname, h₀, Int.toNat_natCast]
        exact hat
      · have hne : name ≠ dot.chars := by
          rw [hname]
          decide
        obtain rfl := hplace 1 (by decide) (by rw [h₁]) (by rw [h₁, hname])
        rw [if_neg hne, h₁, Int.toNat_natCast]
        exact hp

theorem changeDirectory (name : CString) (junk : ℕ → ByteMem) :
    ∃ fs', fs.changeDirectory name junk = some ((t.changeDirectory (key name)).1, fs') ∧
      HoldsTree fs' (t.changeDirectory (key name)).2 := by
  have hv := h.steady.sound.volume
  rcases changeDirectory_cases h.steady.sound name junk with
    ⟨hchange, hnone⟩ | ⟨i, hi, hchange⟩
  · have hlink : ¬ Names.IsLink t.cd (key name) := by
      intro hlink
      obtain ⟨i, hi⟩ := h.tree.exists_named_of_isLink hv hlink
      exact hnone i hi
    have hbelow : ¬ (t.listing (key name :: t.cd)).isSome := by
      intro hsome
      obtain ⟨l, hl⟩ := Option.isSome_iff_exists.mp hsome
      obtain ⟨s, hs⟩ := h.tree.only _ l hl
      obtain ⟨i, hc, hname⟩ := h.tree.child_of_at hv hs
      obtain ⟨ho, hdir, -⟩ := child_eq_some.mp hc
      exact hnone i ⟨ho.1, ho.2.1, hname, hdir⟩
    rw [Names.changeDirectory, if_neg hlink, if_neg hbelow]
    exact ⟨fs, hchange, h.sized, h.tree⟩
  · by_cases hlink : Names.IsLink t.cd (key name)
    · rw [Names.changeDirectory, if_pos hlink]
      exact ⟨_, hchange, h.sized, h.tree.moved (h.follow hlink hi)⟩
    · have ho : (volume fs.disk).Ordinary fs.cdSector.toNat i := by
        refine ⟨hi.1, hi.2.1, fun hdots => hlink ((h.tree.isLink_iff hv).mpr ?_)⟩
        rwa [hi.2.2.1] at hdots
      have hat := At.step h.tree.cd (child_eq_some.mpr ⟨ho, hi.2.2.2, rfl⟩)
      rw [hi.2.2.1] at hat
      obtain ⟨l, hl, -⟩ := h.tree.listing _ _ hat
      rw [Names.changeDirectory, if_neg hlink, if_pos (by rw [hl]; rfl)]
      exact ⟨_, hchange, h.sized, h.tree.moved hat⟩

theorem remove (name : CString) (hnot : ¬ fs.RemovesLink (.remove name)) (junk : ℕ → ByteMem) :
    ∃ fs', fs.remove name junk = some ((t.remove (key name)).1, fs') ∧
      HoldsTree fs' (t.remove (key name)).2 := by
  have hv := h.steady.sound.volume
  rcases remove_cases h.steady.sound name junk with
    ⟨hremove, hnone⟩ | ⟨disk', i, hnamed, hremovable, hremove, hremoved, -⟩
  · have hfail : t.remove (key name) = (false, t) := by
      by_cases hlink : Names.IsLink t.cd (key name)
      · exact if_pos hlink
      rw [Names.remove, if_neg hlink]
      cases hfind : t.items.find? fun x => x.name = key name with
      | none => rfl
      | some x =>
          have hname := List.find?_some hfind
          rw [decide_eq_true_eq] at hname
          obtain ⟨i, ho, rfl⟩ := h.tree.mem_items_iff.mp (List.mem_of_find?_eq_some hfind)
          have hfull := hnone i ⟨ho.1, ho.2.1, hname⟩
          rw [h.tree.removable_iff hv ho, hname, not_not] at hfull
          exact if_pos hfull
    rw [hfail]
    exact ⟨fs, hremove, h.sized, h.tree⟩
  · have ho := ordinary_of_not_removesLink hnot hnamed hremovable
    have hlink : ¬ Names.IsLink t.cd (key name) := by
      intro hlink
      have hdots := (h.tree.isLink_iff hv).mp hlink
      rw [← hnamed.2.2] at hdots
      exact ho.2.2 hdots
    have hempty := (h.tree.removable_iff hv ho).mp hremovable
    have hname : ((volume fs.disk).item fs.cdSector.toNat i).name = key name := hnamed.2.2
    rw [hname] at hempty
    rw [Names.remove, if_neg hlink, h.tree.find_eq hv hnamed.2.2 ho]
    dsimp only
    rw [if_neg hempty]
    refine ⟨_, hremove, h.sized.removed hremoved fun r hr =>
      (hremoved.live_iff hv h.tree.cd.reachable ho hremovable).mp hr, ?_⟩
    exact h.tree.removed hv h.sized hremoved ho hremovable

/-- **One call** does what the tree of names does. -/
theorem call {a : Act} (hvalid : a.Valid) (hnot : ¬ fs.RemovesLink a) (junk : ℕ → ByteMem) :
    ∃ fs', fs.call a junk = some ((t.call a).1, fs') ∧ HoldsTree fs' (t.call a).2 := by
  cases a with
  | create name initialSize isDirectory =>
      obtain ⟨hnonneg, hmax, hroom⟩ := hvalid
      obtain ⟨n, rfl⟩ := Int.eq_ofNat_of_zero_le hnonneg
      exact h.create name (by exact_mod_cast hmax) isDirectory
        (fun hdir => by exact_mod_cast hroom hdir) junk
  | createDirectory name =>
      exact h.create name (show DirectoryFileSize ≤ MaxFileSize by decide) true
        (fun _ => Nat.le_refl _) junk
  | changeDirectory name => exact h.changeDirectory name junk
  | remove name => exact h.remove name hnot junk

/-- Whether a link is removed can be seen from the names. -/
theorem removesLink_iff {a : Act} : fs.RemovesLink a ↔ t.RemovesLink (.call a) := by
  have hv := h.steady.sound.volume
  cases a with
  | create => exact Iff.rfl
  | createDirectory => exact Iff.rfl
  | changeDirectory => exact Iff.rfl
  | remove name =>
      have hcd : fs.cdSector ≠ DirectorySector ↔ fs.cdSector.toNat ≠ DirectorySector := by
        rw [h.steady.sound.cdSector, Int.toNat_natCast, ne_eq, Int.natCast_inj]
      have hlink : Names.IsLink t.cd (key name) ↔
          fs.cdSector.toNat ≠ DirectorySector ∧ IsDots (key name) := h.tree.isLink_iff hv
      -- what counts as empty in the table is what does in the tree
      have hcount {i : ℕ} (hl : Names.IsLink t.cd (key name))
          (hi : IsDirectoryEntry (volume fs.disk) fs.cdSector.toNat i (key name)) :
          Removable (volume fs.disk) fs.cdSector.toNat i ↔
            ∀ x ∈ (t.listing (t.follow (key name))).getD [], IsDots x.name := by
        obtain ⟨l, hlist, hperm⟩ := h.tree.listing _ _ (h.follow hl hi)
        rw [hlist, Option.getD_some, Removable]
        constructor
        · intro hempty x hx
          obtain ⟨j, ho, rfl⟩ := mem_items.mp (hperm.mem_iff.mp hx)
          exact hempty hi.2.2.2 j ho.1 ho.2.1
        · intro hempty _ j hj huse
          by_contra hdots
          exact hdots (hempty _ (hperm.mem_iff.mpr
            (mem_items.mpr ⟨j, ⟨hj, huse, fun h => hdots h.2⟩, rfl⟩)))
      constructor
      · rintro ⟨hne, hdots, i, hi, hremovable⟩
        have hl := hlink.mpr ⟨hcd.mp hne, hdots⟩
        obtain ⟨k, hk⟩ := h.tree.exists_named_of_isLink hv hl
        obtain rfl := Named.unique hv h.tree.cd.reachable hi ⟨hk.1, hk.2.1, hk.2.2.1⟩
        exact ⟨hl, (hcount hl hk).mp hremovable⟩
      · rintro ⟨hl, hempty⟩
        obtain ⟨hne, hdots⟩ := hlink.mp hl
        obtain ⟨k, hk⟩ := h.tree.exists_named_of_isLink hv hl
        exact ⟨hcd.mpr hne, hdots, k, ⟨hk.1, hk.2.1, hk.2.2.1⟩, (hcount hl hk).mpr hempty⟩

/-- **One event** that removes no link does what it does to the tree of names. -/
theorem handle {e : Event} (hvalid : e.Valid) (hnot : ¬ t.RemovesLink e)
    (junk : ℕ → ByteMem) :
    ∃ fs', fs.handle (e, junk) = some ((t.handle e).1, fs') ∧ Refines fs' (t.handle e).2 := by
  cases e with
  | call a =>
      have hlink : ¬ fs.RemovesLink a := h.removesLink_iff.not.mpr hnot
      obtain ⟨fs', hcall, hsized, htree⟩ := h.call hvalid hlink junk
      have hhandle : fs.handle (.call a, junk) = some (some (t.call a).1, fs') := by
        simp only [FileSystem.handle, hcall, Option.map_some]
      obtain ⟨r, s, -, hhandle', -, hsteady, -⟩ :=
        handle_steady h.steady (Alike.refl fs) hvalid hlink
      rw [hhandle, Option.some.injEq, Prod.mk.injEq] at hhandle'
      obtain ⟨-, rfl⟩ := hhandle'
      exact ⟨fs', hhandle, hsteady, hsized, htree⟩
  | restart =>
      obtain ⟨fs', hnew, hsteady, halike⟩ := new_remount h.steady junk
      have hdisk : fs'.disk = fs.disk := halike.disk.symm
      have hcd : fs'.cdSector.toNat = DirectorySector := by
        rw [← halike.cdSector, Int.toNat_natCast]
      refine ⟨fs', by simp only [FileSystem.handle, hnew, Option.map_some]; rfl, hsteady,
        ?_, ?_⟩
      · rw [hdisk]
        exact h.sized
      · rw [hdisk, hcd]
        exact h.tree.moved At.root

/-- **Removing a link** is what the code does, and the tree does not. -/
theorem handle_ne {e : Event} (hlink : t.RemovesLink e) {junk : ℕ → ByteMem}
    {r : Option Bool} {fs' : FileSystem} (hhandle : fs.handle (e, junk) = some (r, fs')) :
    r ≠ (t.handle e).1 := by
  cases e with
  | restart => exact hlink.elim
  | call a =>
      cases a with
      | create => exact hlink.elim
      | createDirectory => exact hlink.elim
      | changeDirectory => exact hlink.elim
      | remove name =>
          have hrefuses : t.remove (key name) = (false, t) := if_pos hlink.1
          obtain ⟨-, -, i, hi, hremovable⟩ := h.removesLink_iff.mpr hlink
          rcases remove_cases h.steady.sound name junk with
            ⟨-, hnone⟩ | ⟨disk', -, -, -, hremove, -⟩
          · exact absurd hremovable (hnone i hi)
          · simp only [FileSystem.handle, FileSystem.call, hremove, Option.map_some,
              Option.some.injEq, Prod.mk.injEq] at hhandle
            rw [← hhandle.1, Names.handle, Names.call, hrefuses]
            simp

end Refines

/-! ## §6  Runs -/

/-- A formatted volume holds the tree with nothing in it. -/
theorem Formatted.shows {v : Volume} {mapBlocks dirBlocks : List ℕ}
    (h : Formatted v mapBlocks dirBlocks) : Shows v DirectorySector Names.init := by
  have hat {p : NamePath} {s : ℕ} (hp : v.At p s) : p = [] ∧ s = DirectorySector := by
    have hs := h.reachable_iff.mp hp.reachable
    exact ⟨(hp.eq_nil_iff h.sound).mpr hs, hs⟩
  refine ⟨At.root, fun p s hp => ?_, fun p l hl => ?_, ?_⟩
  · obtain ⟨rfl, rfl⟩ := hat hp
    have hitems : v.items DirectorySector = [] := by
      rw [List.eq_nil_iff_forall_not_mem]
      intro x hx
      obtain ⟨i, ho, -⟩ := mem_items.mp hx
      exact h.not_ordinary ho
    exact ⟨[], rfl, by rw [hitems]⟩
  · obtain ⟨rfl, -⟩ := Option.ite_none_right_eq_some.mp hl
    exact ⟨DirectorySector, At.root⟩
  · have hlength : (FreeMapSector :: mapBlocks ++ DirectorySector :: dirBlocks).length = 5 := by
      have hmap := h.size_map.2
      have hdir := h.size_dir.2
      rw [h.blocks_map] at hmap
      rw [h.blocks_dir] at hdir
      rw [List.length_append, List.length_cons, List.length_cons, hmap, hdir]
      decide
    have hsub : (FreeMapSector :: mapBlocks ++ DirectorySector :: dirBlocks).toFinset ⊆
        Finset.range NumSectors := fun x hx =>
      Finset.mem_range.mpr (h.marked_lt x ((h.marked x).mpr (List.mem_toFinset.mp hx)))
    have hclear : (Finset.range NumSectors).filter (fun x => v.marked x = false) =
        Finset.range NumSectors \
          (FreeMapSector :: mapBlocks ++ DirectorySector :: dirBlocks).toFinset := by
      ext x
      rw [Finset.mem_filter, Finset.mem_sdiff, List.mem_toFinset, ← h.marked, Bool.not_eq_true]
    have hcard := Finset.card_sdiff_add_card_eq_card hsub
    rw [List.toFinset_card_of_nodup h.nodup, hlength, Finset.card_range] at hcard
    rw [numClear, hclear]
    change NumSectors - 5 = _
    omega

theorem refines_new (disk : Disk) (junk : ℕ → ByteMem) :
    ∃ fs, FileSystem.new true disk junk = some fs ∧ Refines fs Names.init := by
  obtain ⟨fs, mapBlocks, dirBlocks, hnew, -, hcd, hformatted⟩ := new_format disk junk
  obtain ⟨fs', hnew', hsteady⟩ := new_steady disk junk
  obtain rfl : fs = fs' := Option.some.inj (hnew.symm.trans hnew')
  refine ⟨fs, hnew, hsteady, sized_of_formatted hformatted, ?_⟩
  rw [hcd, Int.toNat_natCast]
  exact hformatted.shows

/-- The answers of a run are added to those before. -/
theorem refines_run {fs : FileSystem} {t : Names} (h : Refines fs t)
    (es : List (Event × (ℕ → ByteMem))) (rs : List (Option Bool))
    (hvalid : ∀ e ∈ es, e.1.Valid) (hcareful : t.Careful (es.map Prod.fst)) :
    ∃ fs', PartialMachine.run (answering FileSystem.handle) (fs, rs) es =
        some (fs', rs ++ (t.run (es.map Prod.fst)).1) ∧
      Refines fs' (t.run (es.map Prod.fst)).2 := by
  induction es generalizing fs t rs with
  | nil => exact ⟨fs, by simp [Names.run], h⟩
  | cons e es ih =>
      obtain ⟨e, junk⟩ := e
      obtain ⟨hnot, hrest⟩ := hcareful
      obtain ⟨fs₁, hhandle, h₁⟩ := h.handle (hvalid (e, junk) List.mem_cons_self) hnot junk
      obtain ⟨fs₂, hrun, h₂⟩ := ih h₁ (rs ++ [(t.handle e).1])
        (fun e' he' => hvalid e' (List.mem_cons_of_mem _ he')) hrest
      refine ⟨fs₂, ?_, h₂⟩
      rw [run_cons, answering, hhandle, Option.map_some, Option.bind_some, hrun,
        List.append_assoc]
      rfl

/-- The answers so far stay. -/
theorem isPrefix_of_run {fs fs' : FileSystem} {es : List (Event × (ℕ → ByteMem))}
    {rs rs' : List (Option Bool)}
    (hrun : PartialMachine.run (answering FileSystem.handle) (fs, rs) es = some (fs', rs')) :
    ∃ l, rs' = rs ++ l := by
  induction es generalizing fs rs with
  | nil =>
      cases hrun
      exact ⟨[], (List.append_nil _).symm⟩
  | cons e es ih =>
      rw [run_cons, answering] at hrun
      obtain ⟨s, hs, hrun⟩ := Option.bind_eq_some_iff.mp hrun
      obtain ⟨⟨r, fs₁⟩, -, rfl⟩ := Option.map_eq_some_iff.mp hs
      obtain ⟨l, rfl⟩ := ih hrun
      exact ⟨r :: l, by simp⟩

/-- A run that answers as the tree does has removed no link. -/
theorem careful_of_run {fs fs' : FileSystem} {t : Names} (h : Refines fs t)
    (es : List (Event × (ℕ → ByteMem))) (rs : List (Option Bool))
    (hvalid : ∀ e ∈ es, e.1.Valid)
    (hrun : PartialMachine.run (answering FileSystem.handle) (fs, rs) es =
      some (fs', rs ++ (t.run (es.map Prod.fst)).1)) : t.Careful (es.map Prod.fst) := by
  induction es generalizing fs t rs with
  | nil => exact trivial
  | cons e es ih =>
      obtain ⟨e, junk⟩ := e
      rw [run_cons, answering] at hrun
      obtain ⟨s, hs, hrun⟩ := Option.bind_eq_some_iff.mp hrun
      obtain ⟨⟨r, fs₁⟩, hhandle, rfl⟩ := Option.map_eq_some_iff.mp hs
      -- the answers are those of the tree, so this one is
      obtain ⟨l, hl⟩ := isPrefix_of_run hrun
      rw [List.append_assoc, List.append_cancel_left_eq] at hl
      have hanswer : (t.handle e).1 = r := (List.cons.inj hl).1
      have hnot : ¬ t.RemovesLink e := fun hlink => h.handle_ne hlink hhandle hanswer.symm
      obtain ⟨fs₂, hhandle', h₂⟩ := h.handle (hvalid (e, junk) List.mem_cons_self) hnot junk
      obtain ⟨rfl, rfl⟩ := Prod.mk.inj (Option.some.inj (hhandle.symm.trans hhandle'))
      refine ⟨hnot, ih h₂ (rs ++ [(t.handle e).1])
        (fun e' he' => hvalid e' (List.mem_cons_of_mem _ he')) ?_⟩
      rw [hrun, List.append_assoc]
      rfl

namespace FileSystem

/-- **The file system is a tree of names.** Any disk, formatted, and then any calls and
restarts: all return, with the results of the tree of names, and the disk holds that tree at
the end, in exactly the runs in which no link to an empty directory is removed. -/
theorem names_refined_iff (disk : Disk) (junk : ℕ → ByteMem)
    (es : List (Event × (ℕ → ByteMem))) (hvalid : ∀ e ∈ es, e.1.Valid) :
    ∃ fs₀, FileSystem.new true disk junk = some fs₀ ∧
      ((∃ fs, run (answering handle) (fs₀, []) es =
            some (fs, (Names.init.run (es.map Prod.fst)).1) ∧
          Shows (volume fs.disk) fs.cdSector.toNat (Names.init.run (es.map Prod.fst)).2) ↔
        Names.init.Careful (es.map Prod.fst)) := by
  obtain ⟨fs₀, hnew, h₀⟩ := refines_new disk junk
  refine ⟨fs₀, hnew, ?_⟩
  constructor
  · rintro ⟨fs, hrun, -⟩
    exact careful_of_run h₀ es [] hvalid hrun
  · intro hcareful
    obtain ⟨fs, hrun, h⟩ := refines_run h₀ es [] hvalid hcareful
    exact ⟨fs, hrun, h.tree⟩

/-- A file in a directory, found again after a restart; neither can be made twice, and the
directory goes only after the file. -/
def makeAndFind : List (Event × (ℕ → ByteMem)) :=
  [.call (.createDirectory nameA), .call (.changeDirectory nameA),
    .call (.create nameB 300 false), .restart, .call (.createDirectory nameA),
    .call (.remove nameA), .call (.changeDirectory nameA), .call (.create nameB 300 false),
    .call (.remove nameB), .call (.changeDirectory dotDot),
    .call (.remove nameA)].map fun e => (e, fun _ _ => 0xff)

theorem names_refined_iff_makeAndFind : ∃ fs₀ fs,
    FileSystem.new true (fun _ => 0xff) (fun _ _ => 0xff) = some fs₀ ∧
    run (answering handle) (fs₀, []) makeAndFind = some (fs, [some true, some true, some true,
      none, some false, some false, some true, some false, some true, some true, some true]) ∧
    Shows (volume fs.disk) fs.cdSector.toNat
      (Names.init.run (makeAndFind.map Prod.fst)).2 := by
  obtain ⟨fs₀, hnew, h⟩ :=
    names_refined_iff (fun _ => 0xff) (fun _ _ => 0xff) makeAndFind (by decide)
  obtain ⟨fs, hrun, hshows⟩ := h.mpr (by decide +kernel)
  have hresults : (Names.init.run (makeAndFind.map Prod.fst)).1 = [some true, some true,
      some true, none, some false, some false, some true, some false, some true, some true,
      some true] := by
    decide +kernel
  rw [hresults] at hrun
  exact ⟨fs₀, fs, hnew, hrun, hshows⟩

end FileSystem

end OsAssignments.Filesys
