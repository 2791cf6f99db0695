import OsAssignments.Filesys.FreeMap

/-!
# Restarts

Nachos starts again on the disk that it left: `FileSystem(FALSE)` opens the two files and
goes to the root. What the calls need of the old system is on the disk, but for the current
directory: the header of the free map that is kept in memory is the one on the disk, in
every sound state.

- `restarts_harmless` — a run with restarts is the run of one system that instead goes
  back to the root.
-/

namespace OsAssignments.Filesys

open Volume PartialMachine

namespace FileSystem

/-! ## §1  What a call depends on -/

/-- The same but for the file of the root directory and the open files. -/
structure Alike (fs fs' : FileSystem) : Prop where
  disk : fs'.disk = fs.disk
  freeMapFile : fs'.freeMapFile = fs.freeMapFile
  cdSector : fs'.cdSector = fs.cdSector

variable {fs fs' : FileSystem}

theorem Alike.refl (fs : FileSystem) : Alike fs fs := ⟨rfl, rfl, rfl⟩

theorem Alike.exists_eq (h : Alike fs fs') : ∃ directoryFile openFileTable heap,
    fs' = { fs with directoryFile, openFileTable, heap } := by
  obtain ⟨hdisk, hmap, hcd⟩ := h
  refine ⟨fs'.directoryFile, fs'.openFileTable, fs'.heap, ?_⟩
  rw [← hdisk, ← hmap, ← hcd]

/-- What a call changes, with its result. -/
def outcome (fs : FileSystem) (a : Act) (junk : ℕ → ByteMem) : Option (Bool × Disk × ℤ) :=
  (fs.call a junk).map fun (r, t) => (r, t.disk, t.cdSector)

/-- The state that a call leaves. -/
def leave (fs : FileSystem) (o : Bool × Disk × ℤ) : Bool × FileSystem :=
  (o.1, { fs with disk := o.2.1, cdSector := o.2.2 })

/-- What comes after a part that both do. -/
theorem bind_eq_map {α β γ : Type} {x : Option α} {f : α → Option γ} {g : α → Option β}
    {k : β → γ} (h : ∀ a, f a = (g a).map k) : x.bind f = (x.bind g).map k := by
  rw [Option.map_bind]
  exact congrArg x.bind (funext h)

theorem create_eq_leave (h : Alike fs fs') (name : CString) (initialSize : ℤ)
    (isDirectory : Bool) (junk : ℕ → ByteMem) :
    fs'.create name initialSize isDirectory junk =
      (fs.outcome (.create name initialSize isDirectory) junk).map fs'.leave := by
  obtain ⟨d, t, heap, rfl⟩ := h.exists_eq
  simp only [outcome, call, create, Option.bind_eq_bind, Option.map_map]
  refine bind_eq_map fun p => ?_
  by_cases hfound : p.2.find name ≠ -1
  · rw [if_pos hfound, if_pos hfound]
    rfl
  rw [if_neg hfound, if_neg hfound]
  by_cases hdir : p.2.findDirectory name ≠ -1
  · rw [if_pos hdir, if_pos hdir]
    rfl
  rw [if_neg hdir, if_neg hdir]
  refine bind_eq_map fun freeMap => ?_
  rcases freeMap.find with ⟨_ | sector, freeMap⟩
  · rfl
  dsimp only
  rcases p.2.add name sector isDirectory with ⟨_ | _, directory⟩
  · rfl
  dsimp only
  rcases (FileHeader.mk (junk 3)).allocate freeMap initialSize with ⟨_ | _, freeMap, hdr⟩
  · rfl
  refine bind_eq_map fun _ => bind_eq_map fun _ => bind_eq_map fun _ => ?_
  split_ifs
  · exact bind_eq_map fun _ => rfl
  · exact bind_eq_map fun _ => rfl

theorem remove_eq_leave (h : Alike fs fs') (name : CString) (junk : ℕ → ByteMem) :
    fs'.remove name junk = (fs.outcome (.remove name) junk).map fs'.leave := by
  obtain ⟨d, t, heap, rfl⟩ := h.exists_eq
  simp only [outcome, call, remove, Option.bind_eq_bind, Option.map_map]
  refine bind_eq_map fun p => ?_
  by_cases hnone : p.2.find name = -1
  · rw [if_pos hnone, if_pos hnone]
    rfl
  rw [if_neg hnone, if_neg hnone]
  refine bind_eq_map fun _ => bind_eq_map fun _ => bind_eq_map fun full => ?_
  cases full with
  | true => rfl
  | false =>
      exact bind_eq_map fun _ => bind_eq_map fun _ => bind_eq_map fun _ =>
        bind_eq_map fun _ => rfl

theorem changeDirectory_eq_leave (h : Alike fs fs') (name : CString) (junk : ℕ → ByteMem) :
    fs'.changeDirectory name junk =
      (fs.outcome (.changeDirectory name) junk).map fs'.leave := by
  obtain ⟨d, t, heap, rfl⟩ := h.exists_eq
  simp only [outcome, call, changeDirectory, Option.bind_eq_bind, Option.map_map]
  refine bind_eq_map fun p => ?_
  by_cases hnone : p.2.findDirectory name = -1
  · rw [if_pos hnone, if_pos hnone]
    rfl
  · rw [if_neg hnone, if_neg hnone]
    rfl

/-- **A call depends on what the disk, the free-map file and the current directory are**,
and changes nothing but the disk and the current directory. -/
theorem call_eq_leave (h : Alike fs fs') (a : Act) (junk : ℕ → ByteMem) :
    fs'.call a junk = (fs.outcome a junk).map fs'.leave := by
  cases a with
  | create name initialSize isDirectory => exact create_eq_leave h name _ isDirectory junk
  | createDirectory name => exact create_eq_leave h name _ true junk
  | changeDirectory name => exact changeDirectory_eq_leave h name junk
  | remove name => exact remove_eq_leave h name junk

theorem call_eq_some {r : Bool} {t : FileSystem} {a : Act} {junk : ℕ → ByteMem}
    (hcall : fs.call a junk = some (r, t)) (h : Alike fs fs') :
    t.freeMapFile = fs.freeMapFile ∧ ∃ t', fs'.call a junk = some (r, t') ∧ Alike t t' := by
  have hcall' := call_eq_leave (Alike.refl fs) a junk
  rw [hcall] at hcall'
  obtain ⟨⟨r', disk, cd⟩, houtcome, hleave⟩ := Option.map_eq_some_iff.mp hcall'.symm
  obtain ⟨rfl, rfl⟩ := Prod.mk.inj hleave
  refine ⟨rfl, fs'.leave (r', disk, cd) |>.2, ?_, ?_⟩
  · rw [call_eq_leave h, houtcome]
    rfl
  · exact ⟨rfl, h.freeMapFile, rfl⟩

/-! ## §2  Restarts -/

/-- A call, or a restart without `-f`. -/
inductive Event where
  | call (a : Act)
  | restart

def Event.Valid : Event → Prop
  | .call a => a.Valid
  | .restart => True

instance : DecidablePred Event.Valid
  | .call a => inferInstanceAs (Decidable a.Valid)
  | .restart => .isTrue trivial

/-- The next state, with the result of a call. -/
def handle (fs : FileSystem) : Event × (ℕ → ByteMem) → Option (Option Bool × FileSystem)
  | (.call a, junk) => (fs.call a junk).map fun (r, t) => (some r, t)
  | (.restart, junk) => (FileSystem.new false fs.disk junk).map fun t => (none, t)

/-- The same of a system that goes to the root in place of a restart. -/
def handleHome (fs : FileSystem) : Event × (ℕ → ByteMem) → Option (Option Bool × FileSystem)
  | (.call a, junk) => (fs.call a junk).map fun (r, t) => (some r, t)
  | (.restart, _) => some (none, { fs with cdSector := DirectorySector })

/-- One event, with the results of all events so far. -/
def answering
    (handle : FileSystem → Event × (ℕ → ByteMem) → Option (Option Bool × FileSystem))
    (s : FileSystem × List (Option Bool)) (e : Event × (ℕ → ByteMem)) :
    Option (FileSystem × List (Option Bool)) :=
  (handle s.1 e).map fun (r, fs) => (fs, s.2 ++ [r])

/-- A call that removes a link. -/
def Unlinks (fs : FileSystem) : Event → Prop
  | .call a => fs.RemovesLink a
  | .restart => False

/-- Sound, and the free-map file is as it was opened. -/
structure Steady (fs : FileSystem) : Prop where
  sound : fs.Sound
  freeMapFile : fs.freeMapFile = ⟨headerOf fs.disk FreeMapSector, 0⟩

/-- **The constructor on a disk that was left in a sound state** opens the free map as it
is open there, and goes to the root. -/
theorem new_remount (h : fs.Steady) (junk : ℕ → ByteMem) :
    ∃ t, FileSystem.new false fs.disk junk = some t ∧ t.Steady ∧
      Alike t { fs with cdSector := DirectorySector } := by
  have hmap : OpenFile.new fs.disk FreeMapSector = some ⟨headerOf fs.disk FreeMapSector, 0⟩ := by
    rw [OpenFile.new, fetchFrom_eq (by decide), Option.map_some]
  have hroot : OpenFile.new fs.disk DirectorySector =
      some ⟨headerOf fs.disk DirectorySector, 0⟩ := by
    rw [OpenFile.new, fetchFrom_eq (by decide), Option.map_some]
  refine ⟨⟨fs.disk, ⟨headerOf fs.disk FreeMapSector, 0⟩, ⟨headerOf fs.disk DirectorySector, 0⟩,
    DirectorySector, OpenFileTable.new fun i => ((junk 5).word (4 * i)).toNat, Heap.empty⟩,
    ?_, ⟨⟨h.sound.volume, rfl, ?_, ?_⟩, rfl⟩, ⟨rfl, h.freeMapFile, rfl⟩⟩
  · simp only [FileSystem.new, Bool.false_eq_true, if_false, hmap, hroot, Option.bind_eq_bind,
      Option.bind_some]
  · exact (congrArg Nat.cast (Int.toNat_natCast DirectorySector)).symm
  · rw [Int.toNat_natCast]
    exact RootedTree.Reach.root

theorem new_steady (disk : Disk) (junk : ℕ → ByteMem) :
    ∃ fs, FileSystem.new true disk junk = some fs ∧ fs.Steady := by
  obtain ⟨fs, -, -, hnew, hsound, -⟩ := new_format disk junk
  obtain ⟨disk', -, -, hformat, -⟩ := formatDisk_spec disk junk
  refine ⟨fs, hnew, hsound, ?_⟩
  simp only [FileSystem.new, if_true, hformat, Option.bind_eq_bind, Option.bind_some,
    Option.some.injEq] at hnew
  subst hnew
  rfl

/-- **One event** leaves a sound state, and has the same result without restarts. -/
theorem handle_steady (h : fs.Steady) (halike : Alike fs fs') {e : Event} {junk : ℕ → ByteMem}
    (hvalid : e.Valid) (hnot : ¬ fs.Unlinks e) :
    ∃ r t t', fs.handle (e, junk) = some (r, t) ∧ fs'.handleHome (e, junk) = some (r, t') ∧
      t.Steady ∧ Alike t t' := by
  cases e with
  | call a =>
      obtain ⟨t, hstep, hsound⟩ := step_sound h.sound junk hvalid hnot
      obtain ⟨⟨r, t⟩, hcall, rfl⟩ := Option.map_eq_some_iff.mp hstep
      obtain ⟨hmap, t', hcall', halike'⟩ := call_eq_some hcall halike
      refine ⟨some r, t, t', ?_, ?_, ⟨hsound, ?_⟩, halike'⟩
      · simp only [handle, hcall, Option.map_some]
      · simp only [handleHome, hcall', Option.map_some]
      · rw [hmap, ← hsound.freeMapFile, hmap, h.freeMapFile]
  | restart =>
      obtain ⟨t, hnew, hsteady, halike'⟩ := new_remount h junk
      refine ⟨none, t, _, ?_, rfl, hsteady, ?_⟩
      · simp only [handle, hnew, Option.map_some]
      · exact ⟨halike.disk.trans halike'.disk, halike.freeMapFile.trans halike'.freeMapFile,
          halike'.cdSector⟩

/-! ## §3  Runs -/

/-- Two runs with the same results so far. -/
def InStep (s s' : FileSystem × List (Option Bool)) : Prop :=
  s.1.Steady ∧ Alike s.1 s'.1 ∧ s'.2 = s.2

/-- **Restarts are harmless.** On a formatted disk, calls that remove no link and restarts,
in any order: all of them return, with the results and the changes to the disk of a system
that is never restarted and goes to the root instead; and the free map stays exact. -/
theorem restarts_harmless (disk : Disk) (junk : ℕ → ByteMem)
    (es : List (Event × (ℕ → ByteMem))) (hvalid : ∀ e ∈ es, e.1.Valid) :
    ∃ fs₀, FileSystem.new true disk junk = some fs₀ ∧
      (StepsMeet (answering handle) (fun s e => ¬ s.1.Unlinks e.1) (fs₀, []) es →
        ∃ fs fs' rs, run (answering handle) (fs₀, []) es = some (fs, rs) ∧
          run (answering handleHome) (fs₀, []) es = some (fs', rs) ∧
          fs'.disk = fs.disk ∧ fs'.cdSector = fs.cdSector ∧ FreeMapExact fs) := by
  obtain ⟨fs₀, hnew, hsteady⟩ := new_steady disk junk
  refine ⟨fs₀, hnew, ?_⟩
  suffices h : StepsMeet (answering handle) (fun s e => ¬ s.1.Unlinks e.1) (fs₀, []) es →
      ∃ s s', run (answering handle) (fs₀, []) es = some s ∧
        run (answering handleHome) (fs₀, []) es = some s' ∧ InStep s s' by
    intro hmeet
    obtain ⟨⟨fs, rs⟩, ⟨fs', rs'⟩, hrun, hrun', hs, halike, rfl⟩ := h hmeet
    exact ⟨fs, fs', rs', hrun, hrun', halike.disk, halike.cdSector, hs.sound.volume.exact⟩
  induction es using List.reverseRecOn with
  | nil => exact fun _ => ⟨_, _, rfl, rfl, hsteady, Alike.refl fs₀, rfl⟩
  | append_singleton es e ih =>
      intro hmeet
      obtain ⟨hpre, hlast⟩ := stepsMeet_snoc.mp hmeet
      obtain ⟨s, s', hs, hs', hsteady', halike, hlog⟩ :=
        ih (fun e' he' => hvalid e' (List.mem_append_left _ he')) hpre
      obtain ⟨e, junk'⟩ := e
      obtain ⟨r, t, t', ht, ht', hsteady'', halike'⟩ :=
        handle_steady hsteady' halike (hvalid (e, junk') (by simp)) (hlast s hs)
      refine ⟨(t, s.2 ++ [r]), (t', s.2 ++ [r]), run_snoc_eq_some.mpr ⟨s, hs, ?_⟩,
        run_snoc_eq_some.mpr ⟨s', hs', ?_⟩, hsteady'', halike', rfl⟩
      · rw [answering, ht]
        rfl
      · rw [answering, ht', hlog]
        rfl

/-- A file in a directory, with the machine restarted before and after each call. -/
def makeAndRestart : List (Event × (ℕ → ByteMem)) :=
  [.restart, .call (.createDirectory nameA), .restart, .call (.changeDirectory nameA),
    .call (.create nameB 300 false), .restart, .call (.create nameA 10 false),
    .call (.changeDirectory nameA)].map fun e => (e, fun _ _ => 0xff)

theorem restarts_harmless_makeAndRestart : ∃ fs₀ fs fs' rs,
    FileSystem.new true (fun _ => 0xff) (fun _ _ => 0xff) = some fs₀ ∧
    run (answering handle) (fs₀, []) makeAndRestart = some (fs, rs) ∧
    run (answering handleHome) (fs₀, []) makeAndRestart = some (fs', rs) ∧
    fs'.disk = fs.disk ∧ fs'.cdSector = fs.cdSector ∧ FreeMapExact fs := by
  obtain ⟨fs₀, hnew, h⟩ := restarts_harmless (fun _ => 0xff) (fun _ _ => 0xff) makeAndRestart
    (by decide)
  obtain ⟨fs, fs', rs, hrun⟩ := h fun pre e post hsplit s _ => by
    have he : e ∈ makeAndRestart := by
      rw [hsplit]
      simp
    simp only [makeAndRestart, List.map_cons, List.map_nil, List.mem_cons, List.not_mem_nil,
      or_false] at he
    rcases he with rfl | rfl | rfl | rfl | rfl | rfl | rfl | rfl <;> exact id
  exact ⟨fs₀, fs, fs', rs, hnew, hrun⟩

end FileSystem

end OsAssignments.Filesys
