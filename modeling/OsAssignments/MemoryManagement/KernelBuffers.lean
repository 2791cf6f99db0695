import OsAssignments.MemoryManagement.CopyToUser
import OsAssignments.MemoryManagement.FirstLoad

/-!
# The kernel's buffers

The system calls that copy a name or a buffer in: `SC_Exec`, `SC_Create`, `SC_Open` and
`SC_Write` of `userprog/exception.cc`. A name goes into 100 bytes, whatever its length;
the data of `SC_Write` goes into `par2+1` bytes, where `par2 = -1` makes `CopyFromUser`
look for a terminator.

- `Overruns` — the byte behind the buffer is read, and with it stored.
- `copy_within_iff` — a call stays inside its buffer iff not.
- `longName_overruns` — a name of 101 bytes, and a `SC_Write` of -1 bytes.
-/

namespace OsAssignments.MemoryManagement

/-! ## §1  The code -/

/-- `nom1 = new char[100]`, `char nom[100]`. -/
def nameSize : ℕ := 100

/-- `CopyFromUser` into an array of `size` bytes; a negative size is refused by `new`. -/
def copyInto (size : ℤ) (turns rounds : ℕ) (source : BitVec 32) (longueur : ℤ) : CopyM Unit :=
  if size < 0 then throw .undefined else copyFromUser turns rounds source longueur

def scExec (turns rounds : ℕ) (par1 : BitVec 32) : CopyM Unit :=
  copyInto nameSize turns rounds par1 (-1)

def scCreate (turns rounds : ℕ) (par1 : BitVec 32) : CopyM Unit :=
  copyInto nameSize turns rounds par1 (-1)

def scOpen (turns rounds : ℕ) (par1 : BitVec 32) : CopyM Unit :=
  copyInto nameSize turns rounds par1 (-1)

/-- `tampon = new char[par2+1]`. -/
def scWrite (turns rounds : ℕ) (par1 par2 : BitVec 32) : CopyM Unit :=
  copyInto (par2 + 1).toInt turns rounds par1 par2.toInt

inductive SysCall where
  | SC_Exec
  | SC_Create
  | SC_Open
  | SC_Write
deriving DecidableEq, Repr

/-- The part of the handler that copies the argument in. -/
def SysCall.copy (call : SysCall) (turns rounds : ℕ) (par1 par2 : BitVec 32) : CopyM Unit :=
  match call with
  | .SC_Exec => scExec turns rounds par1
  | .SC_Create => scCreate turns rounds par1
  | .SC_Open => scOpen turns rounds par1
  | .SC_Write => scWrite turns rounds par1 par2

/-- The size of the array that the handler allocates. -/
def SysCall.capacity (call : SysCall) (par2 : BitVec 32) : ℤ :=
  match call with
  | .SC_Exec => nameSize
  | .SC_Create => nameSize
  | .SC_Open => nameSize
  | .SC_Write => (par2 + 1).toInt

/-! ## §2  Accesses one after the other -/

namespace UserMem

variable {u v w : UserMem} {addr a b : BitVec 32}

/-- Only the page of the address matters. -/
theorem access_congr (h : a.toNat / PageSize = b.toNat / PageSize) :
    u.access a = u.access b := by
  have hsign : 0 ≤ a.toInt ↔ 0 ≤ b.toInt := by
    rw [BitVec.toInt_eq_toNat_cond, BitVec.toInt_eq_toNat_cond]
    have ha := a.isLt
    have hb := b.isLt
    simp only [PageSize, SectorSize] at h
    split <;> split <;> omega
  simp only [access, h, hsign]

theorem touched_touched (u : UserMem) (p : ℕ) : (u.touched p).touched p = u.touched p := by
  simp [touched, AddrSpace.touch]

/-- The page of an access stays for the next one. -/
theorem access_again (h : u.Sane) (hacc : u.access addr = some v) : v.access addr = some v := by
  obtain ⟨-, hn⟩ := (h.served_access hacc).sane h
  have hp := page_of_access hacc
  have htouched : ∃ x : UserMem, v = x.touched (addr.toNat / PageSize) ∧
      (x.sp.pageTable (addr.toNat / PageSize)).valid = true := by
    cases hv : (u.sp.pageTable (addr.toNat / PageSize)).valid with
    | true =>
        rw [access_resident hp hv] at hacc
        cases hacc
        exact ⟨u, rfl, hv⟩
    | false =>
        rw [access_missing hp hv] at hacc
        split at hacc
        · rename_i hboth
          cases hacc
          exact ⟨_, rfl, (h.load_twice hp hboth.2).2⟩
        · cases hacc
  obtain ⟨x, rfl, hvalid⟩ := htouched
  rw [access_resident (hn.symm ▸ hp) (by simpa [touched] using hvalid), touched_touched]

theorem Sane.view_access (h : u.Sane) (hacc : u.access addr = some v) {c : ℕ} {x : Byte}
    (hc : c / PageSize < u.sp.numPages) (hx : u.view c = some x) : v.view c = some x :=
  (h.served_access hacc).view_eq h hc (Set.notMem_empty _) hx

end UserMem

/-- The loop returns what is accessed. -/
theorem fetch_of_access {s : CopyState} {addr : BitVec 32} {v : UserMem} (h : s.user.Sane)
    (hacc : s.user.access addr = some v) {turns : ℕ} (hturns : 2 ≤ turns) :
    ∃ b faults, v.view addr.toNat = some b ∧
      fetch addr turns s = .ok b { s with user := v, faults := faults } := by
  have hp := UserMem.page_of_access hacc
  cases hv : (s.user.sp.pageTable (addr.toNat / PageSize)).valid with
  | true =>
      obtain ⟨turns, rfl⟩ := Nat.exists_eq_add_of_le' (Nat.le_of_succ_le hturns)
      rw [UserMem.access_resident hp hv] at hacc
      cases hacc
      obtain ⟨b, hview, hfetch⟩ := fetch_resident h hp hv turns
      exact ⟨b, s.faults, hview, hfetch⟩
  | false =>
      have hint : 0 ≤ addr.toInt := by
        by_contra hneg
        rw [UserMem.access_missing hp hv, if_neg (fun hboth => hneg hboth.1)] at hacc
        cases hacc
      rcases fetch_spec h hp hint hturns with
        ⟨b, u, faults, hacc', hview, hfetch⟩ | ⟨faults, hnone, -⟩ | ⟨faults, hnone, -⟩
      · obtain rfl : v = u := Option.some.inj (hacc.symm.trans hacc')
        exact ⟨b, faults, hview, hfetch⟩
      · rw [hnone] at hacc
        cases hacc
      · rw [hnone] at hacc
        cases hacc

/-! ## §3  What is stored -/

/-- Nothing is stored into the buffer. -/
def Storeless {α : Type} (x : CopyM α) : Prop := ∀ s, (x.after s).stores = s.stores

theorem Storeless.bind {α β : Type} {x : CopyM α} {f : α → CopyM β} (hx : Storeless x)
    (hf : ∀ a, Storeless (f a)) : Storeless (x >>= f) :=
  CopyM.after_bind (R := fun s t => t.stores = s.stores) (fun h h' => h'.trans h) hx hf

theorem storeless_raise (vaddr badVaddr : BitVec 32) (which : ExceptionType) :
    Storeless (raiseException vaddr which badVaddr) := by
  intro s
  cases which with
  | PageFaultException =>
      obtain ⟨u, -, hafter⟩ := raise_after vaddr badVaddr s
      rw [hafter]
  | _ => rfl

theorem storeless_readMem (addr : BitVec 32) : Storeless (readMem addr) := by
  intro s
  cases hread : Machine.readMem s.user.phys.mainMemory s.user.sp addr .byte with
  | ok r => rw [CopyM.after, readMem, hread]
  | error which =>
      have hraise : (readMem addr).after s =
          (do raiseException addr which addr; pure none : CopyM (Option (BitVec 32))).after s := by
        rw [CopyM.after, readMem, hread]
        rfl
      rw [hraise]
      exact (storeless_raise addr addr which).bind (fun _ _ => rfl) s

theorem storeless_fetch (addr : BitVec 32) (turns : ℕ) : Storeless (fetch addr turns) := by
  induction turns with
  | zero => exact fun _ => rfl
  | succ turns ih =>
      refine (storeless_readMem addr).bind fun tmp => ?_
      cases tmp with
      | some tmp => exact fun _ => rfl
      | none => exact (storeless_raise _ _ _).bind fun _ => ih

/-- The loop over `longueur` bytes stores below its end. -/
theorem copyBytes_stores (turns : ℕ) (source : BitVec 32) :
    ∀ longueur i (s : CopyState), ∀ k ∈ ((copyBytes turns source longueur i).after s).stores,
      k ∈ s.stores ∨ k < i + longueur := by
  intro longueur
  induction longueur with
  | zero => exact fun i s k hk => Or.inl hk
  | succ longueur ih =>
      intro i s k hk
      have hquiet := storeless_fetch (source + BitVec.ofNat 32 i) turns s
      cases hfetch : fetch (source + BitVec.ofNat 32 i) turns s with
      | error e r =>
          have hstop : copyBytes turns source (longueur + 1) i s = .error e r :=
            EStateM.bind_of_error hfetch
          rw [CopyM.after, hfetch] at hquiet
          rw [CopyM.after, hstop] at hk
          exact Or.inl (hquiet ▸ hk)
      | ok b r =>
          have hround : copyBytes turns source (longueur + 1) i s =
              copyBytes turns source longueur (i + 1) _ :=
            (EStateM.bind_of_ok hfetch).trans (EStateM.bind_of_ok rfl)
          rw [CopyM.after_of_ok hfetch] at hquiet
          rw [CopyM.after, hround] at hk
          rcases ih (i + 1) _ k hk with hold | hlt
          · rcases List.mem_append.mp hold with hold | hnew
            · exact Or.inl (hquiet ▸ hold)
            · rw [List.mem_singleton.mp hnew]
              exact Or.inr (by omega)
          · exact Or.inr (by omega)

/-! ## §4  Names -/

/-- The first 101 bytes at `source` can be read, and none of the first 100 is the
terminator. They lie in two pages at most, that of the first byte and that of the last. -/
def LongName (u : UserMem) (source : BitVec 32) : Prop :=
  ∃ v w, u.access source = some v ∧ v.access (source + BitVec.ofNat 32 nameSize) = some w ∧
    ∀ i < nameSize, w.view (source + BitVec.ofNat 32 i).toNat ≠ some 0

/-- The page of byte `i`. -/
def namePage (source : BitVec 32) (i : ℕ) : ℕ := (source + BitVec.ofNat 32 i).toNat / PageSize

theorem namePage_cases (source : BitVec 32) {i : ℕ} (hi : i < nameSize)
    (hne : namePage source i ≠ namePage source 0) :
    namePage source i = namePage source nameSize ∧
      namePage source (i + 1) ≠ namePage source 0 := by
  have hlt := source.isLt
  simp only [namePage, BitVec.toNat_add, BitVec.toNat_ofNat, PageSize, SectorSize,
    nameSize] at *
  omega

section Name

variable {u v w : UserMem} {source : BitVec 32} {s : CopyState} {i turns rounds : ℕ}

/-- The memory when byte `i` has been read. -/
def readTo (source : BitVec 32) (v w : UserMem) (i : ℕ) : UserMem :=
  if namePage source i = namePage source 0 then v else w

theorem access_zero (hv : u.access source = some v) :
    u.access (source + BitVec.ofNat 32 0) = some (readTo source v w 0) := by
  rw [readTo, if_pos rfl, BitVec.add_zero, hv]

theorem access_next (hsane : u.Sane) (hv : u.access source = some v)
    (hw : v.access (source + BitVec.ofNat 32 nameSize) = some w) (hi : i < nameSize) :
    (readTo source v w i).access (source + BitVec.ofNat 32 (i + 1)) =
      some (readTo source v w (i + 1)) := by
  have hsanev := ((hsane.served_access hv).sane hsane).1
  have hzero : u.access (source + BitVec.ofNat 32 0) = some v := by
    rw [BitVec.add_zero, hv]
  -- the page of the next byte is that of the first byte or that of the last
  by_cases hnext : namePage source (i + 1) = namePage source 0
  · have hhere : namePage source i = namePage source 0 := by
      by_contra hne
      exact (namePage_cases source hi hne).2 hnext
    rw [readTo, if_pos hhere, readTo, if_pos hnext, UserMem.access_congr hnext]
    exact UserMem.access_again hsane hzero
  · have hlast : namePage source (i + 1) = namePage source nameSize := by
      rcases Nat.lt_or_eq_of_le (Nat.succ_le_of_lt hi) with hlt | heq
      · exact (namePage_cases source hlt hnext).1
      · exact congrArg (namePage source) heq
    rw [readTo, readTo, if_neg hnext, UserMem.access_congr hlast]
    by_cases hhere : namePage source i = namePage source 0
    · rw [if_pos hhere, hw]
    · rw [if_neg hhere, UserMem.access_again hsanev hw]

/-- **A long name is stored to its 101st byte.** -/
theorem copyString_long (hsane : u.Sane) (hv : u.access source = some v)
    (hw : v.access (source + BitVec.ofNat 32 nameSize) = some w)
    (hnul : ∀ j < nameSize, w.view (source + BitVec.ofNat 32 j).toNat ≠ some 0)
    (hturns : 2 ≤ turns) :
    ∀ rounds i (s : CopyState), i + rounds = nameSize → s.user.Sane →
      s.user.access (source + BitVec.ofNat 32 i) = some (readTo source v w i) →
      nameSize ∈ ((copyString turns source (rounds + 1) i).after s).stores := by
  have hsanev := ((hsane.served_access hv).sane hsane).1
  have hreadTo : ∀ j, Served ∅ (readTo source v w j) w := by
    intro j
    by_cases hj : namePage source j = namePage source 0
    · rw [readTo, if_pos hj]
      exact hsanev.served_access hw
    · rw [readTo, if_neg hj]
      exact .refl
  intro rounds
  induction rounds with
  | zero =>
      rintro i s hi hs hacc
      obtain rfl : i = nameSize := by omega
      obtain ⟨b, faults, -, hfetch⟩ := fetch_of_access hs hacc hturns
      have hround : copyString turns source 1 nameSize s =
          (if Function.update s.dest nameSize b nameSize ≠ 0 then
            copyString turns source 0 (nameSize + 1) else pure ())
            ⟨readTo source v w nameSize, Function.update s.dest nameSize b, faults,
              s.stores ++ [nameSize]⟩ :=
        (EStateM.bind_of_ok hfetch).trans ((EStateM.bind_of_ok rfl).trans (EStateM.bind_of_ok rfl))
      have hmem : nameSize ∈ s.stores ++ [nameSize] := by simp
      rw [CopyM.after, hround]
      by_cases hb : Function.update s.dest nameSize b nameSize ≠ 0
      · rw [if_pos hb]
        exact hmem
      · rw [if_neg hb]
        exact hmem
  | succ rounds ih =>
      rintro i s hi hs hacc
      have hlt : i < nameSize := by omega
      obtain ⟨hread, hn⟩ := (hs.served_access hacc).sane hs
      obtain ⟨b, faults, hview, hfetch⟩ := fetch_of_access hs hacc hturns
      have hb : b ≠ 0 := by
        rintro rfl
        exact hnul i hlt ((hreadTo i).view_eq hread
          (hn.symm ▸ UserMem.page_of_access hacc) (Set.notMem_empty _) hview)
      have hround : copyString turns source (rounds + 1 + 1) i s =
          (if Function.update s.dest i b i ≠ 0 then
            copyString turns source (rounds + 1) (i + 1) else pure ())
            ⟨readTo source v w i, Function.update s.dest i b, faults, s.stores ++ [i]⟩ :=
        (EStateM.bind_of_ok hfetch).trans ((EStateM.bind_of_ok rfl).trans (EStateM.bind_of_ok rfl))
      rw [Function.update_self, if_pos hb] at hround
      rw [CopyM.after, hround]
      exact ih (i + 1) _ (by omega) hread (access_next hsane hv hw hlt)

/-- The name has been read up to byte `i`, all of it in the buffer. -/
structure Reading (u : UserMem) (source : BitVec 32) (i : ℕ) (s : CopyState) : Prop where
  served : Served ∅ u s.user
  start : i = 0 → s.user = u
  first : 0 < i → ∃ v, u.access source = some v ∧
    (namePage source (i - 1) = namePage source 0 → s.user = v) ∧
    (namePage source (i - 1) ≠ namePage source 0 →
      v.access (source + BitVec.ofNat 32 nameSize) = some s.user)
  chars : ∀ j < i, ∃ b, b ≠ 0 ∧ s.user.view (source + BitVec.ofNat 32 j).toNat = some b ∧
    (source + BitVec.ofNat 32 j).toNat / PageSize < u.sp.numPages
  stores : ∀ k ∈ s.stores, k < nameSize

theorem reading_zero (u : UserMem) (source : BitVec 32) (dest : ByteMem) :
    Reading u source 0 (.start u dest) :=
  ⟨.refl, fun _ => rfl, fun h => absurd h (Nat.lt_irrefl 0),
    fun j hj => absurd hj (Nat.not_lt_zero j), fun _ hk => absurd hk List.not_mem_nil⟩

/-- The first and the last page, when byte `i` has been accessed too. -/
theorem Reading.accessed (hr : Reading u source i s) (hsane : u.Sane) (hi : i ≤ nameSize)
    {t : UserMem} (hacc : s.user.access (source + BitVec.ofNat 32 i) = some t) :
    ∃ v, u.access source = some v ∧ (namePage source i = namePage source 0 → t = v) ∧
      (namePage source i ≠ namePage source 0 →
        v.access (source + BitVec.ofNat 32 nameSize) = some t) := by
  rcases Nat.eq_zero_or_pos i with rfl | hpos
  · rw [BitVec.add_zero, hr.start rfl] at hacc
    exact ⟨t, hacc, fun _ => rfl, fun hne => absurd rfl hne⟩
  obtain ⟨v, hv, hsame, hother⟩ := hr.first hpos
  have hsanev := ((hsane.served_access hv).sane hsane).1
  have hzero : u.access (source + BitVec.ofNat 32 0) = some v := by
    rw [BitVec.add_zero, hv]
  have hagain := UserMem.access_again hsane hzero
  refine ⟨v, hv, fun hpage => ?_, fun hne => ?_⟩
  · have hprev : namePage source (i - 1) = namePage source 0 := by
      by_contra hne
      refine (namePage_cases source (by omega) hne).2 ?_
      rwa [Nat.sub_add_cancel hpos]
    rw [hsame hprev, UserMem.access_congr hpage, hagain] at hacc
    exact (Option.some.inj hacc).symm
  · have hlast : namePage source i = namePage source nameSize := by
      rcases Nat.lt_or_eq_of_le hi with hlt | rfl
      · exact (namePage_cases source hlt hne).1
      · rfl
    rw [UserMem.access_congr hlast] at hacc
    by_cases hprev : namePage source (i - 1) = namePage source 0
    · rwa [hsame hprev] at hacc
    · rw [UserMem.access_again hsanev (hother hprev)] at hacc
      rw [hother hprev]
      exact hacc

/-- The characters when byte `i` has been read. -/
theorem Reading.read (hr : Reading u source i s) (hsane : u.Sane) {t : UserMem}
    (hacc : s.user.access (source + BitVec.ofNat 32 i) = some t) :
    Served ∅ u t ∧ (source + BitVec.ofNat 32 i).toNat / PageSize < u.sp.numPages ∧
      ∀ j < i, ∃ b, b ≠ 0 ∧ t.view (source + BitVec.ofNat 32 j).toNat = some b ∧
        (source + BitVec.ofNat 32 j).toNat / PageSize < u.sp.numPages := by
  obtain ⟨hs, hn⟩ := hr.served.sane hsane
  refine ⟨hr.served.trans (hs.served_access hacc), hn ▸ UserMem.page_of_access hacc,
    fun j hj => ?_⟩
  obtain ⟨b, hb, hview, hp⟩ := hr.chars j hj
  exact ⟨b, hb, hs.view_access hacc (hn.symm ▸ hp) hview, hp⟩

/-- **Any other name stays in its buffer**, however long the loop turns. -/
theorem copyString_within (hsane : u.Sane) (hshort : ¬ LongName u source) :
    ∀ rounds i (s : CopyState), i ≤ nameSize → Reading u source i s →
      ∀ k ∈ ((copyString turns source rounds i).after s).stores, k < nameSize := by
  intro rounds
  induction rounds with
  | zero => exact fun i s _ hr => hr.stores
  | succ rounds ih =>
      intro i s hi hr
      have hs := (hr.served.sane hsane).1
      cases hfetch : fetch (source + BitVec.ofNat 32 i) turns s with
      | error e r =>
          have hquiet := storeless_fetch (source + BitVec.ofNat 32 i) turns s
          have hstop : copyString turns source (rounds + 1) i s = .error e r :=
            EStateM.bind_of_error hfetch
          rw [CopyM.after, hfetch] at hquiet
          rw [CopyM.after, hstop]
          exact hquiet ▸ hr.stores
      | ok b r =>
          obtain ⟨hacc, hview, -, hstores⟩ := fetch_eq_ok hs hfetch
          obtain ⟨v, hv, hsame, hother⟩ := hr.accessed hsane hi hacc
          obtain ⟨hserved, hp, hchars⟩ := hr.read hsane hacc
          have hlt : i < nameSize := by
            refine Nat.lt_of_le_of_ne hi ?_
            rintro rfl
            refine hshort ⟨v, r.user, hv, ?_, fun j hj hzero => ?_⟩
            · by_cases hpage : namePage source nameSize = namePage source 0
              · have hzero : u.access (source + BitVec.ofNat 32 0) = some v := by
                  rw [BitVec.add_zero, hv]
                rw [hsame hpage, UserMem.access_congr hpage]
                exact UserMem.access_again hsane hzero
              · exact hother hpage
            · obtain ⟨c, hc, hcview, -⟩ := hchars j hj
              rw [hzero] at hcview
              exact hc (Option.some.inj hcview).symm
          have hround : copyString turns source (rounds + 1) i s =
              (if Function.update r.dest i b i ≠ 0 then copyString turns source rounds (i + 1)
                else pure ()) { r with dest := Function.update r.dest i b
                                       stores := r.stores ++ [i] } :=
            (EStateM.bind_of_ok hfetch).trans
              ((EStateM.bind_of_ok rfl).trans (EStateM.bind_of_ok rfl))
          have hbelow : ∀ k ∈ r.stores ++ [i], k < nameSize := by
            intro k hk
            rcases List.mem_append.mp hk with hold | hnew
            · exact hr.stores k (hstores ▸ hold)
            · rw [List.mem_singleton.mp hnew]
              exact hlt
          rw [Function.update_self] at hround
          rw [CopyM.after, hround]
          by_cases hb : b ≠ 0
          · rw [if_pos hb]
            refine ih (i + 1) _ hlt ⟨hserved, fun h => absurd h (Nat.succ_ne_zero i),
              fun _ => ⟨v, hv, hsame, hother⟩, fun j hj => ?_, hbelow⟩
            rcases Nat.lt_succ_iff_lt_or_eq.mp hj with hlt' | rfl
            · exact hchars j hlt'
            · exact ⟨b, hb, hview, hp⟩
          · rw [if_neg hb]
            exact hbelow

end Name

theorem copyInto_name_within_iff {u : UserMem} (h : u.Sane) (source : BitVec 32)
    (dest : ByteMem) :
    (∀ turns rounds, ∀ k ∈ ((copyInto nameSize turns rounds source (-1)).after
      (.start u dest)).stores, (k : ℤ) < nameSize) ↔ ¬ LongName u source := by
  have hcopy : ∀ turns rounds, copyInto nameSize turns rounds source (-1) =
      copyString turns source rounds 0 := fun _ _ => rfl
  simp only [hcopy, Int.ofNat_lt]
  constructor
  · rintro hall ⟨v, w, hv, hw, hnul⟩
    refine Nat.lt_irrefl nameSize (hall 2 (nameSize + 1) nameSize ?_)
    exact copyString_long h hv hw hnul le_rfl nameSize 0 _ (Nat.zero_add _) h (access_zero hv)
  · exact fun hshort turns rounds =>
      copyString_within h hshort rounds 0 _ (Nat.zero_le _) (reading_zero u source dest)

/-! ## §5  `SC_Write` -/

/-- A loop that looks for a terminator stores one byte at least, if it can read one. -/
theorem copyString_empty_iff {u : UserMem} (h : u.Sane) (addr : BitVec 32) (dest : ByteMem) :
    (∀ turns rounds, ∀ k ∈ ((copyString turns addr rounds 0).after (.start u dest)).stores,
      (k : ℤ) < 0) ↔ ¬ (u.access addr).isSome := by
  constructor
  · intro hall hsome
    obtain ⟨v, hv⟩ := Option.isSome_iff_exists.mp hsome
    have hacc : u.access (addr + BitVec.ofNat 32 0) = some v := by
      rw [BitVec.add_zero, hv]
    obtain ⟨b, faults, -, hfetch⟩ := fetch_of_access (s := .start u dest) h hacc le_rfl
    have hround : copyString 2 addr 1 0 (.start u dest) =
        (if Function.update dest 0 b 0 ≠ 0 then copyString 2 addr 0 1 else pure ())
          ⟨v, Function.update dest 0 b, faults, [0]⟩ :=
      (EStateM.bind_of_ok hfetch).trans ((EStateM.bind_of_ok rfl).trans (EStateM.bind_of_ok rfl))
    have hstored : 0 ∈ ((copyString 2 addr 1 0).after (.start u dest)).stores := by
      rw [CopyM.after, hround]
      by_cases hb : Function.update dest 0 b 0 ≠ 0
      · rw [if_pos hb]
        exact List.mem_cons_self
      · rw [if_neg hb]
        exact List.mem_cons_self
    exact absurd (hall 2 1 0 hstored) (by decide)
  · intro hnone turns rounds k hk
    cases rounds with
    | zero => exact absurd hk List.not_mem_nil
    | succ rounds =>
        cases hfetch : fetch (addr + BitVec.ofNat 32 0) turns (.start u dest) with
        | error e r =>
            have hquiet := storeless_fetch (addr + BitVec.ofNat 32 0) turns (.start u dest)
            have hstop : copyString turns addr (rounds + 1) 0 (.start u dest) = .error e r :=
              EStateM.bind_of_error hfetch
            rw [CopyM.after, hfetch] at hquiet
            rw [CopyM.after, hstop] at hk
            exact absurd (hquiet ▸ hk) List.not_mem_nil
        | ok b r =>
            obtain ⟨hacc, -⟩ := fetch_eq_ok (s := .start u dest) h hfetch
            rw [BitVec.add_zero] at hacc
            exact absurd (Option.isSome_iff_exists.mpr ⟨_, hacc⟩) hnone

/-- A size that `new` takes is one more than the length, which is then not negative. -/
theorem toInt_add_one {n : BitVec 32} (hne : n ≠ -1) (hsize : ¬ (n + 1).toInt < 0) :
    0 ≤ n.toInt ∧ (n + 1).toInt = n.toInt + 1 := by
  have hmax : n.toNat ≠ 2 ^ 32 - 1 := by
    intro heq
    exact hne (BitVec.eq_of_toNat_eq heq)
  rw [BitVec.toInt_eq_toNat_cond] at hsize ⊢
  rw [BitVec.toInt_eq_toNat_cond]
  rw [BitVec.toNat_add] at hsize ⊢
  have hlt := n.isLt
  have hone : (1 : BitVec 32).toNat = 1 := rfl
  rw [hone] at hsize ⊢
  split at hsize <;> split <;> omega

theorem scWrite_within_iff {u : UserMem} (h : u.Sane) (par1 par2 : BitVec 32)
    (dest : ByteMem) :
    (∀ turns rounds, ∀ k ∈ ((scWrite turns rounds par1 par2).after (.start u dest)).stores,
      (k : ℤ) < (par2 + 1).toInt) ↔ ¬ (par2 = -1 ∧ (u.access par1).isSome) := by
  by_cases hminus : par2 = -1
  · subst hminus
    -- an empty array, and the loop that looks for a terminator
    have hcopy : ∀ turns rounds, scWrite turns rounds par1 (-1) =
        copyString turns par1 rounds 0 := fun _ _ => rfl
    have hsize : ((-1 : BitVec 32) + 1).toInt = 0 := by decide
    simp only [hcopy, hsize, true_and]
    exact copyString_empty_iff h par1 dest
  · refine iff_of_true (fun turns rounds k hk => ?_) (fun hboth => hminus hboth.1)
    rw [scWrite, copyInto] at hk
    split at hk
    · exact absurd hk List.not_mem_nil
    · rename_i hsize
      have hpar2 := toInt_add_one hminus hsize
      rw [copyFromUser, if_pos hpar2.1] at hk
      rcases copyBytes_stores turns par1 _ 0 _ k hk with hold | hlt
      · exact absurd hold List.not_mem_nil
      · omega

/-! ## §6  Every call -/

/-- The byte behind the array is stored. -/
def SysCall.Overruns (call : SysCall) (u : UserMem) (par1 par2 : BitVec 32) : Prop :=
  match call with
  | .SC_Exec => LongName u par1
  | .SC_Create => LongName u par1
  | .SC_Open => LongName u par1
  | .SC_Write => par2 = -1 ∧ (u.access par1).isSome

/-- **When a call stays inside its array**, whatever the user memory, the registers and
the turns of the loops. -/
theorem copy_within_iff (u : UserMem) (h : u.Sane) (call : SysCall) (par1 par2 : BitVec 32)
    (dest : ByteMem) :
    (∀ turns rounds, ∀ k ∈ ((call.copy turns rounds par1 par2).after (.start u dest)).stores,
      (k : ℤ) < call.capacity par2) ↔ ¬ call.Overruns u par1 par2 := by
  cases call with
  | SC_Exec => exact copyInto_name_within_iff h par1 dest
  | SC_Create => exact copyInto_name_within_iff h par1 dest
  | SC_Open => exact copyInto_name_within_iff h par1 dest
  | SC_Write => exact scWrite_within_iff h par1 par2 dest

/-- A process that was just started writes four bytes. -/
theorem copy_within_iff_fourBytes : ∃ u : UserMem,
    AddrSpace.new (zeroProgram 0) = some u.sp ∧ u.phys = PhysMemory.init ∧
    ((∀ turns rounds, ∀ k ∈ ((SysCall.SC_Write.copy turns rounds 0 4).after
        (.start u fun _ => 0)).stores, (k : ℤ) < SysCall.SC_Write.capacity 4) ↔
      ¬ SysCall.SC_Write.Overruns u 0 4) := by
  obtain ⟨sp, hnew, -⟩ := new_zeroProgram
  exact ⟨⟨PhysMemory.init, sp⟩, hnew, rfl,
    copy_within_iff ⟨PhysMemory.init, sp⟩ (sane_new hnew) .SC_Write 0 4 fun _ => 0⟩

/-- **A program of a page of sevens** opens the name at its address 0, and writes -1 bytes
from there: index 100 of 100, and index 0 of 0, is stored. -/
theorem longName_overruns : ∃ u : UserMem,
    AddrSpace.new (AddrSpace.codeProgram 128) = some u.sp ∧ u.phys = PhysMemory.init ∧
    100 ∈ ((SysCall.SC_Open.copy 2 101 0 0).after (.start u fun _ => 0)).stores ∧
    SysCall.SC_Open.capacity 0 = 100 ∧
    0 ∈ ((SysCall.SC_Write.copy 2 1 0 (-1)).after (.start u fun _ => 0)).stores ∧
    SysCall.SC_Write.capacity (-1) = 0 := by
  have hnew := AddrSpace.new_codeProgram 128 (by decide)
  refine ⟨⟨PhysMemory.init, _⟩, hnew, rfl, ?_, rfl, ?_, by decide⟩
  · decide +kernel
  · decide +kernel

end OsAssignments.MemoryManagement
