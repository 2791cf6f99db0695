import OsAssignments.MemoryManagement.JoinSafety

/-!
# When `Join` is not stuck on a dead child

`SC_Exit` stores the code in the parent's table and wakes the parent; the other
ways a process ends do neither. `EndsHeard` is the condition on a step under
which no parent is left waiting:

- a process that has a parent ends by `Exit`, with a code other than
  `CODENOTENDED`;
- a process that ends has in its table no address at which a child of another
  process lives now: `ClearChildren` would take that child's parent away.

- `join_not_stuck` — in every run whose steps meet it, nobody sleeps in `Join`
  on a child that has terminated.
- `join_stuck_on_killed_child` — a run that does not meet it, and the parent
  that sleeps for ever.
-/

namespace OsAssignments.MemoryManagement

open PartialMachine

namespace Sys

variable {log : List Event}

/-! ## §1  The property and the condition -/

/-- `c` is the child last `Exec`ed by `p` under `id`. -/
def LastExec (log : List Event) (p : ℕ) (id : SpaceId) (c : ℕ) : Prop :=
  Since (fun e => ∃ c', e = .exec p c' id) (.exec p c id) log

/-- Nobody is asleep in `Thread::Join` on a child that has terminated. -/
def NotStuck (s : Sys) (log : List Event) : Prop :=
  ∀ a t id spid c, s.heap a = some t → t.status = .BLOCKED →
    t.cont = .joining id spid → LastExec log t.tid id c → ¬ Terminated log c

/-- A child that has terminated and is still to be joined has left a code: the
parent's `FinishJoin` would return it, whatever serial it is given. -/
def EndsJoinable (s : Sys) (log : List Event) : Prop :=
  ∀ a t id c, s.heap a = some t → t.cont ≠ .finished → Pending log t.tid id c →
    Terminated log c → ∀ spid, ∃ code jtable,
      t.jtable.finishJoin id spid = some (code, jtable) ∧ code ≠ CODENOTENDED

/-- Every thread that lives at an address in the table is a child of this
process, or of nobody. -/
def OwnAddresses (s : Sys) (t : Thread) : Prop :=
  ∀ i u, (t.jtable i).inUse = true → s.heap (t.jtable i).id = some u →
    u.parent = NULL ∨ u.parent = s.currentThread

/-- If the action ends the running thread `t`, the end reaches its parent. -/
def EndHeard (s : Sys) (t : Thread) : Act → Prop
  | .exit code => (t.parent ≠ NULL → code ≠ CODENOTENDED) ∧ s.OwnAddresses t
  | .kill => t.parent = NULL ∧ s.OwnAddresses t
  | _ => True

def EndsHeard (s : Sys) (a : Act) : Prop :=
  ∀ t, s.heap s.currentThread = some t → s.EndHeard t a

instance (s : Sys) (t : Thread) : Decidable (s.OwnAddresses t) :=
  decidable_of_iff (∀ i, (t.jtable i).inUse = true →
      (s.heap (t.jtable i).id).all fun u =>
        u.parent = NULL ∨ u.parent = s.currentThread) (by
    refine forall_congr' fun i => ?_
    cases s.heap (t.jtable i).id with
    | none => simp
    | some u => simp)

instance (s : Sys) (t : Thread) (a : Act) : Decidable (s.EndHeard t a) := by
  unfold EndHeard
  split <;> infer_instance

instance (s : Sys) (a : Act) : Decidable (s.EndsHeard a) :=
  match h : s.heap s.currentThread with
  | none => isTrue (by intro t ht; rw [h] at ht; cases ht)
  | some t =>
      decidable_of_iff (s.EndHeard t a) (by simp [EndsHeard, h])

/-! ## §2  The invariant -/

/-- An entry without a code belongs to a child that is running, and who sleeps
in `Join` sleeps on such an entry. -/
structure LiveInv (s : Sys) : Prop where
  open_child : ∀ a p i id, s.cores a = some p → p.jtable.Holds i id →
    (p.jtable i).code = CODENOTENDED →
    ∃ c, s.cores id = some c ∧ c.pid = (p.jtable i).serial ∧ c.parent = a ∧
      c.done = false
  waits_open : ∀ a p w, s.cores a = some p → s.waits a = some w →
    ∃ i, p.jtable.Holds i w.1 ∧ (p.jtable i).serial = w.2 ∧
      (p.jtable i).code = CODENOTENDED
  carcass_done : s.threadToBeDestroyed ≠ NULL →
    ∃ c, s.cores s.threadToBeDestroyed = some c ∧ c.done = true

/-- **The invariant is enough**: the sleeper's entry has no code, so its child
is running, and that child is the one last `Exec`ed under the id. -/
theorem LiveInv.notStuck {s : Sys} (h : LiveInv s) (hi : Inv s log) :
    NotStuck s log := by
  intro a t id spid c ht hst hcont hlast
  obtain ⟨⟨owner, hj⟩, halive, -⟩ := hi
  have hcore := cores_of_heap ht
  have hw : s.waits a = some (id, spid) := waits_eq_some.mpr ⟨t, ht, hst, hcont⟩
  obtain ⟨i, hhold, -, hopen⟩ := h.waits_open a _ _ hcore hw
  obtain ⟨d, hd, -, hpar, hdone⟩ := h.open_child a _ i id hcore hhold hopen
  have hdalive := halive id d hd hdone
  obtain ⟨p, hp, j, -, -, -, hpend⟩ :=
    hj.child id d hd hdalive (hpar ▸ hj.ne_null hcore)
  rw [hpar, hcore] at hp
  cases hp
  -- both `c` and `d` are the last child under `id`
  have hpend' : LastExec log t.tid id d.tid := hpend.mono fun e he => Or.inl he
  obtain ⟨-, rfl, -⟩ := Event.exec.inj (hlast.unique hpend' ⟨c, rfl⟩ ⟨d.tid, rfl⟩)
  exact hdalive

/-- And it says that the child's code is there: an entry without one would have a
running child. -/
theorem LiveInv.endsJoinable {s : Sys} (h : LiveInv s) (hi : Inv s log) :
    EndsJoinable s log := by
  intro a t id c ht hcont hpend hterm spid
  obtain ⟨⟨owner, hj⟩, halive, -⟩ := hi
  have hcore := cores_of_heap ht
  have htab := hj.table a _ hcore
  obtain ⟨i, hi, hown⟩ := htab.pending (by simp [Thread.core, hcont]) id c hpend
  have hcode : (t.jtable i).code ≠ CODENOTENDED := by
    intro hopen
    obtain ⟨d, hd, hpid, hpar, hdone⟩ := h.open_child a _ i id hcore hi hopen
    have hdalive := halive id d hd hdone
    obtain ⟨p, hp, j, hjhold, hjser, hjown, -⟩ :=
      hj.child id d hd hdalive (hpar ▸ hj.ne_null hcore)
    rw [hpar, hcore] at hp
    cases hp
    obtain rfl := htab.distinct i j id hi hjhold (hpid.symm.trans hjser.symm)
    rw [hown] at hjown
    exact hdalive (hjown ▸ hterm)
  -- no other entry for the id can answer without a code
  cases hfind : t.jtable.Find id spid with
  | none => exact absurd ⟨hi, Or.inr hcode⟩ (JoinTable.find_none hfind i)
  | some j =>
      have hjhold := (JoinTable.find_some hfind).1
      have hjcode : (t.jtable j).code ≠ CODENOTENDED := by
        intro hopen
        obtain ⟨d, hd, -, hpar, hdone⟩ := h.open_child a _ j id hcore hjhold hopen
        exact halive id d hd hdone (htab.ended_no_child i id d hi hcode hd hpar)
      have hfin : t.jtable.finishJoin id spid = some ((t.jtable j).code,
          Function.update t.jtable j { t.jtable j with inUse := false }) := by
        simp [JoinTable.finishJoin, hfind, hjcode]
      exact ⟨_, _, hfin, hjcode⟩

/-! ## §3  The scheduler -/

theorem LiveInv.of_sameJoin {s s' : Sys} (h : LiveInv s) (hsame : SameJoin s s')
    (hsleep : NoSleep s s') : LiveInv s' where
  open_child := by
    rw [hsame.cores]
    exact h.open_child
  waits_open a p w hp hw := by
    rw [hsame.cores] at hp
    exact h.waits_open a p w hp (hsleep a w hw)
  carcass_done := by
    rw [hsame.cores, hsame.carcass]
    exact h.carcass_done

theorem LiveInv.deleteCarcass {s s' : Sys} (h : LiveInv s)
    (hdel : s.deleteCarcass = some s') : LiveInv s' := by
  obtain ⟨-, -, hnull, hcores⟩ := deleteCarcass_cases hdel
  have hsleep := (deleteCarcass_evolved hdel).noSleep
  -- only a thread that is done can disappear
  have hkeep : ∀ a c, s.cores a = some c → c.done = false → s'.cores a = some c := by
    intro a c hc hdone
    rcases hcores with ⟨-, hcores⟩ | ⟨hne, -, hcores⟩
    · rw [hcores]
      exact hc
    · rw [hcores]
      refine update_eq_some.mpr (Or.inr ⟨?_, hc⟩)
      rintro rfl
      obtain ⟨d, hd, hdd⟩ := h.carcass_done hne
      obtain rfl : d = c := Option.some.inj (hd.symm.trans hc)
      rw [hdd] at hdone
      exact Bool.noConfusion hdone
  refine ⟨?_, ?_, fun hne => absurd hnull hne⟩
  · intro a p i id hp hi hopen
    obtain ⟨c, hc, hpid, hpar, hdone⟩ :=
      h.open_child a p i id (deleteCarcass_cores hdel hp) hi hopen
    exact ⟨c, hkeep id c hc hdone, hpid, hpar, hdone⟩
  · intro a p w hp hw
    exact h.waits_open a p w (deleteCarcass_cores hdel hp) (hsleep a w hw)

theorem LiveInv.run {s s' : Sys} {a : SpaceId} (h : LiveInv s)
    (hrun : s.run a = some s') : LiveInv s' := by
  unfold Sys.run at hrun
  split at hrun
  · cases hrun
  rename_i t ht
  dsimp only at hrun
  let s₁ : Sys := { s with quantum := 0, currentThread := a }
  split at hrun
  · rename_i hfresh
    cases hrun
    have hset : SameJoin s₁
        (s₁.set a { t with status := .RUNNING, cont := .starting }) :=
      sameJoin_set ht (by simp [Thread.core, hfresh])
    refine h.of_sameJoin ⟨hset.cores, rfl, rfl⟩ (Evolved.noSleep ?_)
    exact evolved_set (s := s₁) ht
      ⟨rfl, Or.inr (Or.inl ⟨hfresh, rfl⟩), fun hst => by cases hst⟩
  · have hset : SameJoin s₁ (s₁.set a { t with status := .RUNNING }) :=
      sameJoin_set ht rfl
    refine LiveInv.deleteCarcass (h.of_sameJoin ⟨hset.cores, rfl, rfl⟩
      (Evolved.noSleep ?_)) hrun
    exact evolved_set (s := s₁) ht ⟨rfl, Or.inl rfl, fun hst => by cases hst⟩

theorem LiveInv.runNext {s s' : Sys} (h : LiveInv s) (hrun : s.runNext = some s') :
    LiveInv s' := by
  unfold Sys.runNext at hrun
  split at hrun
  · cases hrun
  · rename_i l _
    refine LiveInv.run (s := { s with readyList := l }) ?_ hrun
    exact h.of_sameJoin ⟨rfl, rfl, rfl⟩ fun _ _ hw => hw

theorem LiveInv.yield {s s' : Sys} (h : LiveInv s) (hyield : s.yield = some s') :
    LiveInv s' := by
  obtain ⟨t, s₁, ht, hready, hrun⟩ := yield_steps hyield
  have hset : LiveInv (s.set s.currentThread { t with cpu := t.cpu + s.quantum }) := by
    refine h.of_sameJoin (sameJoin_set ht rfl) (Evolved.noSleep ?_)
    exact evolved_set ht ⟨rfl, Or.inl rfl, Or.inl⟩
  exact (hset.of_sameJoin (readyToRun_sameJoin hready).1
    (readyToRun_evolved hready).1.noSleep).runNext hrun

/-! ## §4  The system calls -/

/-- Every thread is still there, with its parent. -/
def Keeps (s s' : Sys) : Prop :=
  ∀ a c, s.cores a = some c → ∃ c', s'.cores a = some c' ∧
    c'.pid = c.pid ∧ c'.parent = c.parent ∧ c'.done = c.done

theorem keeps_update {s s' : Sys} {a : SpaceId} {c c' : Core}
    (hcores : s'.cores = Function.update s.cores a (some c'))
    (hc : s.cores a = some c) (hpid : c'.pid = c.pid) (hpar : c'.parent = c.parent)
    (hdone : c'.done = c.done) : Keeps s s' := by
  intro b d hd
  rw [hcores]
  by_cases hb : b = a
  · subst hb
    rw [hc] at hd
    cases hd
    exact ⟨c', Function.update_self .., hpid, hpar, hdone⟩
  · exact ⟨d, by rw [Function.update_of_ne hb, hd], rfl, rfl, rfl⟩

/-- An entry that was there still has its running child. -/
theorem LiveInv.still_open {s s' : Sys} (h : LiveInv s) (hk : Keeps s s')
    {a id : SpaceId} {p : Core} {i : Fin MAXENTRIES} (hp : s.cores a = some p)
    (hi : p.jtable.Holds i id) (hopen : (p.jtable i).code = CODENOTENDED) :
    ∃ c, s'.cores id = some c ∧ c.pid = (p.jtable i).serial ∧ c.parent = a ∧
      c.done = false := by
  obtain ⟨c, hc, hpid, hpar, hdone⟩ := h.open_child a p i id hp hi hopen
  obtain ⟨c', hc', hpid', hpar', hdone'⟩ := hk id c hc
  exact ⟨c', hc', hpid'.trans hpid, hpar'.trans hpar, hdone'.trans hdone⟩

theorem LiveInv.still_done {s s' : Sys} (h : LiveInv s) (hk : Keeps s s')
    (hcar : s'.threadToBeDestroyed = s.threadToBeDestroyed) :
    s'.threadToBeDestroyed ≠ NULL →
      ∃ c, s'.cores s'.threadToBeDestroyed = some c ∧ c.done = true := by
  intro hne
  rw [hcar] at hne ⊢
  obtain ⟨c, hc, hdone⟩ := h.carcass_done hne
  obtain ⟨c', hc', -, -, hdone'⟩ := hk _ c hc
  exact ⟨c', hc', hdone'.trans hdone⟩

theorem LiveInv.exec {s s' : Sys} {t : Thread} {tmp : SpaceId} {prio : BitVec 32}
    (h : LiveInv s) (hexec : s.exec tmp prio = some s')
    (ht : s.heap s.currentThread = some t) (hst : t.status = .RUNNING)
    (hfree : s.heap tmp = none) : LiveInv s' := by
  obtain ⟨pos, -, -, hcores, hcar, -, -, hev⟩ := exec_steps hexec ht
  have hcore := cores_of_heap ht
  -- nobody that was there has moved
  have hkeep : Keeps s s' := by
    intro a c hc
    have hat : a ≠ tmp := by
      rintro rfl
      simp [Sys.cores, hfree] at hc
    rw [hcores, Function.update_of_ne hat]
    by_cases hac : a = s.currentThread
    · subst hac
      rw [hcore] at hc
      cases hc
      exact ⟨_, Function.update_self .., rfl, rfl, rfl⟩
    · exact ⟨c, by rw [Function.update_of_ne hac, hc], rfl, rfl, rfl⟩
  refine ⟨?_, ?_, ?_⟩
  · intro a p i id hp hi hopen
    rw [hcores] at hp
    rcases update_eq_some.mp hp with ⟨-, heq⟩ | ⟨-, hp⟩
    · cases heq
      simp [JoinTable.Holds, JoinTable.new] at hi
    rcases update_eq_some.mp hp with ⟨ha, heq⟩ | ⟨-, hp⟩
    · cases heq
      by_cases hip : i = pos
      · subst hip
        obtain rfl : tmp = id := by simpa [JoinTable.Holds] using hi
        refine ⟨⟨s.nextTid, s.serialPid, s.currentThread, JoinTable.new, false⟩, ?_, ?_,
          ha.symm, rfl⟩
        · rw [hcores, Function.update_self]
        · simp
      · simp only [JoinTable.Holds, Function.update_of_ne hip] at hi hopen ⊢
        exact ha ▸ h.still_open hkeep hcore hi hopen
    · exact h.still_open hkeep hp hi hopen
  · intro a p w hp hw
    -- a new thread is ready, and the running one does not sleep
    obtain ⟨u, hu, hust, huc⟩ := waits_eq_some.mp hw
    rcases hev a u hu with ⟨-, -, hready⟩ | ⟨u₀, hu₀, hevolves⟩
    · rw [hready] at hust
      cases hust
    · obtain ⟨hst₀, hc₀⟩ := hevolves.waits hust huc
      have hac : a ≠ s.currentThread := by
        rintro rfl
        rw [ht] at hu₀
        cases hu₀
        rw [hst] at hst₀
        cases hst₀
      have hat : a ≠ tmp := by
        rintro rfl
        rw [hfree] at hu₀
        cases hu₀
      rw [hcores, Function.update_of_ne hat, Function.update_of_ne hac] at hp
      exact h.waits_open a p w hp (waits_eq_some.mpr ⟨u₀, hu₀, hst₀, hc₀⟩)
  · exact h.still_done hkeep hcar

theorem LiveInv.joinLoop {s s' : Sys} {t : Thread} {id : SpaceId}
    {spid : BitVec 32} (h : LiveInv s) (hjoin : s.joinLoop id spid = some s')
    (ht : s.heap s.currentThread = some t) (hdone : t.core.done = false) :
    LiveInv s' := by
  have hcore := cores_of_heap ht
  have hcont : t.cont ≠ .finished := by simpa [Thread.core] using hdone
  obtain ⟨pos, hans, ⟨hopen, -, rfl⟩ | ⟨hcode, -, rfl⟩⟩ := joinLoop_steps hjoin ht
  · -- to sleep, on the entry that `Find` returned
    have hset : SameJoin s (s.set s.currentThread
        { t with cont := .joining id spid, status := .BLOCKED }) :=
      sameJoin_set ht (by simp [Thread.core, hcont])
    refine ⟨?_, ?_, ?_⟩
    · rw [hset.cores]
      exact h.open_child
    · intro a p w hp hw
      rw [hset.cores] at hp
      by_cases ha : a = s.currentThread
      · subst ha
        rw [hcore] at hp
        cases hp
        obtain rfl : (id, spid) = w := by simpa [waits, set, waitsFor] using hw
        refine ⟨pos, hans.1, ?_, hopen⟩
        exact hans.2.resolve_right fun hne => hne hopen
      · exact h.waits_open a p w hp (by simpa [waits, set, ha] using hw)
    · rw [hset.cores, hset.carcass]
      exact h.carcass_done
  · -- the entry goes, and it had a code
    let t' := { t with
      jtable := Function.update t.jtable pos { t.jtable pos with inUse := false },
      cont := .user }
    have hcores : (s.set s.currentThread t').cores =
        Function.update s.cores s.currentThread (some t'.core) := cores_set _ _ _
    have hdone' : t'.core.done = t.core.done := by simp [t', Thread.core, hcont]
    have hkeep : Keeps s (s.set s.currentThread t') :=
      keeps_update hcores hcore rfl rfl hdone'
    refine ⟨?_, ?_, ?_⟩
    · intro a p i id' hp hi hopen
      rw [hcores] at hp
      rcases update_eq_some.mp hp with ⟨ha, heq⟩ | ⟨-, hp⟩
      · cases heq
        by_cases hip : i = pos
        · subst hip
          simp [t', Thread.core, JoinTable.Holds] at hi
        · simp only [t', Thread.core, JoinTable.Holds, Function.update_of_ne hip]
            at hi hopen ⊢
          exact ha ▸ h.still_open hkeep hcore hi hopen
      · exact h.still_open hkeep hp hi hopen
    · intro a p w hp hw
      rw [hcores] at hp
      rcases update_eq_some.mp hp with ⟨rfl, -⟩ | ⟨ha, hp⟩
      · simp [waits, set, waitsFor] at hw
      · exact h.waits_open a p w hp (by simpa [waits, set, ha] using hw)
    · exact h.still_done hkeep rfl

theorem OwnAddresses.cores {s : Sys} {t : Thread} (h : s.OwnAddresses t) :
    ∀ i id u, t.jtable.Holds i id → s.cores id = some u →
      u.parent = NULL ∨ u.parent = s.currentThread := by
  rintro i id u ⟨huse, rfl⟩ hu
  obtain ⟨v, hv, rfl⟩ := Option.map_eq_some_iff.mp hu
  exact h i v huse hv

/-- **`Finish`** of a process that nobody waits for any more, and whose table
names no stranger. -/
theorem LiveInv.finish {s s' : Sys} {t : Thread} (h : LiveInv s)
    (hnull : s.cores NULL = none) (hfin : s.finish = some s')
    (ht : s.heap s.currentThread = some t)
    (hclosed : ∀ p i, s.cores t.parent = some p →
      p.jtable.Holds i s.currentThread → (p.jtable i).serial = t.pid →
      (p.jtable i).code ≠ CODENOTENDED)
    (hown : ∀ i id u, t.jtable.Holds i id → s.cores id = some u →
      u.parent = NULL ∨ u.parent = s.currentThread) : LiveInv s' := by
  obtain ⟨hcar, -, hev, hself, ⟨p₀, hp₀, -, hdone₀, hempty⟩, hback, hforth⟩ :=
    finish_cores hfin ht
  have hsleep := hev.noSleep
  have hcore := cores_of_heap ht
  refine ⟨?_, ?_, ?_⟩
  · intro a p i id hp hi hopen
    by_cases ha : a = s.currentThread
    · subst ha
      rw [hp₀] at hp
      cases hp
      have := hempty i
      rw [hi.1] at this
      exact Bool.noConfusion this
    · obtain ⟨q, hq, hk⟩ := hback a p ha hp
      rw [hk.jtable] at hi hopen ⊢
      obtain ⟨c, hc, hpid, hpar, hdone⟩ := h.open_child a q i id hq hi hopen
      have hid : id ≠ s.currentThread := by
        rintro rfl
        rw [hcore] at hc
        cases hc
        have hpar' : t.parent = a := hpar
        exact hclosed q i (hpar' ▸ hq) hi hpid.symm hopen
      have hidc : s.threadToBeDestroyed ≠ NULL → id ≠ s.threadToBeDestroyed := by
        rintro hne rfl
        obtain ⟨d, hd, hdd⟩ := h.carcass_done hne
        rw [hc] at hd
        cases hd
        rw [hdone] at hdd
        exact Bool.noConfusion hdd
      obtain ⟨c', hc', hk'⟩ := hforth id c hid hidc hc
      refine ⟨c', hc', hk'.pid.trans hpid, ?_, hk'.done.trans hdone⟩
      by_cases horph : ∃ j, t.jtable.Holds j id
      · -- a child of `a` at an address in the table: a stranger
        obtain ⟨j, hj⟩ := horph
        rcases hown j id c hj hc with hupar | hupar
        · have hanull : a = NULL := hpar.symm.trans hupar
          rw [hanull, hnull] at hq
          cases hq
        · exact absurd (hpar.symm.trans hupar) ha
      · exact (hk'.parent horph).trans hpar
  · intro a p w hp hw
    by_cases ha : a = s.currentThread
    · rw [ha, hself] at hw
      cases hw
    · obtain ⟨q, hq, hk⟩ := hback a p ha hp
      rw [hk.jtable]
      exact h.waits_open a q w hq (hsleep a w hw)
  · intro _
    exact ⟨p₀, hcar ▸ hp₀, hdone₀⟩

/-- **`Exit`** with a code that can be told from `CODENOTENDED`. -/
theorem LiveInv.exit {s s' : Sys} {t : Thread} {code : BitVec 32} (h : LiveInv s)
    (hi : Inv s log) (hexit : s.exit code = some s')
    (ht : s.heap s.currentThread = some t) (hdone : t.core.done = false)
    (hcode : t.parent ≠ NULL → code ≠ CODENOTENDED) (hown : s.OwnAddresses t) :
    LiveInv s' := by
  obtain ⟨⟨owner, hj⟩, ha, -⟩ := hi
  have hcore := cores_of_heap ht
  have halive := ha _ _ hcore hdone
  rcases exit_steps hexit ht with ⟨hpar, hfin⟩ |
    ⟨hpar, p, pos, s₁, hp, hfind, hcores, hcur, hcar, -, hev, hawake, hfin⟩
  · refine h.finish hj.null hfin ht (fun p i hp => ?_) hown.cores
    rw [hpar, hj.null] at hp
    cases hp
  · have hpcore := cores_of_heap hp
    obtain ⟨i, hfind', hhold, -, -, hopen⟩ := hj.find_child hcore halive hpar hpcore
    obtain rfl : i = pos := Option.some.inj (hfind'.symm.trans hfind)
    have hser : (p.jtable i).serial = t.pid :=
      (JoinTable.find_some hfind).2.resolve_right fun hne => hne (hopen i hhold)
    have htab := hj.table _ _ hpcore
    have hkeep : Keeps s s₁ := keeps_update hcores hpcore rfl rfl rfl
    have hholds : ∀ j id, JoinTable.Holds
        (Function.update p.jtable i { p.jtable i with code := code }) j id ↔
        p.jtable.Holds j id := by
      intro j id
      by_cases hji : j = i
      · subst hji
        simp [JoinTable.Holds]
      · simp [JoinTable.Holds, hji]
    have hback : ∀ a q, s₁.cores a = some q → ∃ q₀, s.cores a = some q₀ ∧
        q.parent = q₀.parent ∧ ∀ j id, q.jtable.Holds j id ↔ q₀.jtable.Holds j id := by
      intro a q hq
      rw [hcores] at hq
      rcases update_eq_some.mp hq with ⟨rfl, heq⟩ | ⟨-, hq⟩
      · cases heq
        exact ⟨p.core, hpcore, rfl, hholds⟩
      · exact ⟨q, hq, rfl, fun _ _ => Iff.rfl⟩
    -- only this entry gets a code, and its parent is awake
    have hlive : LiveInv s₁ := by
      refine ⟨?_, ?_, h.still_done hkeep hcar⟩
      · intro a q j id hq hjold hjopen
        rw [hcores] at hq
        rcases update_eq_some.mp hq with ⟨rfl, heq⟩ | ⟨-, hq⟩
        · cases heq
          have hji : j ≠ i := by
            rintro rfl
            simp only [Function.update_self] at hjopen
            exact hcode hpar hjopen
          simp only [Function.update_of_ne hji] at hjopen ⊢
          exact h.still_open hkeep hpcore ((hholds j id).mp hjold) hjopen
        · exact h.still_open hkeep hq hjold hjopen
      · intro a q w hq hw
        rw [hcores] at hq
        rcases update_eq_some.mp hq with ⟨rfl, -⟩ | ⟨-, hq⟩
        · rw [hawake] at hw
          cases hw
        · exact h.waits_open a q w hq (hev.noSleep a w hw)
    obtain ⟨t₁, -, -, ht₁, -⟩ := finish_steps hfin
    have hcore₁ := cores_of_heap ht₁
    rw [hcur] at hcore₁
    obtain ⟨c, hc, hpid₁, hpar₁, -⟩ := hkeep _ _ hcore
    obtain rfl : t₁.core = c := Option.some.inj (hcore₁.symm.trans hc)
    have hnull₁ : s₁.cores NULL = none := by
      rw [hcores, Function.update_of_ne (Ne.symm hpar), hj.null]
    refine hlive.finish hnull₁ hfin ht₁ ?_ ?_
    · intro q j hq hjhold hjser
      have hpar₁' : t₁.parent = t.parent := hpar₁
      have hpid₁' : t₁.pid = t.pid := hpid₁
      rw [hpar₁', hcores, Function.update_self] at hq
      cases hq
      have hji : j = i := by
        by_contra hne
        simp only [Function.update_of_ne hne] at hjser
        refine hne (htab.distinct j i _ ((hholds j _).mp (hcur ▸ hjhold)) hhold ?_)
        exact (hjser.trans hpid₁').trans hser.symm
      subst hji
      simpa using hcode hpar
    · intro j id u hjhold hu
      obtain ⟨c₀, hc₀, -, hiff⟩ := hback _ _ hcore₁
      rw [hcore] at hc₀
      cases hc₀
      obtain ⟨u₀, hu₀, hupar, -⟩ := hback _ _ hu
      rw [hupar, hcur]
      exact hown.cores j id u₀ ((hiff j id).mp hjhold) hu₀

/-- **The step lemma**: a step that meets the condition keeps both invariants. -/
theorem LiveInv.step {s s' : Sys} {a : Act} (h : LiveInv s) (hi : Inv s log)
    (hc : s.EndsHeard a) (hstep : s.step a = some s') : LiveInv s' := by
  cases step_cases hstep with
  | tick => exact h.of_sameJoin ⟨rfl, rfl, rfl⟩ fun _ _ hw => hw
  | yield t s' ht hyield => exact h.yield hyield
  | dispatch t s' ht hrun => exact h.runNext hrun
  | start t ht hcont =>
      refine h.of_sameJoin (sameJoin_set ht (by simp [Thread.core, hcont])) ?_
      intro a w hw
      obtain ⟨u, hu, hust, huc⟩ := waits_eq_some.mp hw
      by_cases ha : a = s.currentThread
      · subst ha
        obtain rfl : { t with cont := .user } = u := by simpa [set] using hu
        cases huc
      · exact waits_eq_some.mpr ⟨u, by simpa [set, ha] using hu, hust, huc⟩
  | exec tmp prio t s' ht hst hcont hnull hfree hexec => exact h.exec hexec ht hst hfree
  | exit code t s' ht hcont hexit =>
      obtain ⟨hcode, hown⟩ := hc t ht
      exact h.exit hi hexit ht (t.not_done (by simp [hcont])) hcode hown
  | join id stale t s' ht hcont hjoin =>
      exact h.joinLoop hjoin ht (t.not_done (by simp [hcont]))
  | resume id spid t s' ht hcont hjoin =>
      exact h.joinLoop hjoin ht (t.not_done (by simp [hcont]))
  | kill t s' ht hcont hfinish =>
      obtain ⟨hpar, hown⟩ := hc t ht
      obtain ⟨⟨owner, hj⟩, -⟩ := hi
      refine h.finish hj.null hfinish ht (fun p i hp => ?_) hown.cores
      rw [hpar, hj.null] at hp
      cases hp

/-! ## §5  Every run -/

theorem liveInv_init (algorithm : Algorithm) (main : SpaceId) :
    LiveInv (init algorithm main) := by
  refine ⟨?_, ?_, fun hne => absurd rfl hne⟩
  · intro a p i id hp hi _
    obtain ⟨t, ht, rfl⟩ := Option.map_eq_some_iff.mp hp
    simp [Thread.core, JoinTable.Holds, (heap_init ht).2, Thread.new, JoinTable.new] at hi
  · intro a p w _ hw
    obtain ⟨t, ht, hst, -⟩ := waits_eq_some.mp hw
    rw [(heap_init ht).2] at hst
    cases hst

/-- **`Join` is not stuck on a dead child**, in every run whose steps all meet
`EndsHeard`: nobody sleeps on a child that has terminated, and the code of a
terminated child is there for its parent. -/
theorem join_not_stuck (algorithm : Algorithm) (main : SpaceId)
    (hmain : main ≠ NULL) (as : List Act) (s : Sys) (log : List Event)
    (hrun : PartialMachine.run (logged step event) (init algorithm main, []) as =
      some (s, log))
    (hmeet : StepsMeet (logged step event) (fun c a => c.1.EndsHeard a)
      (init algorithm main, []) as) :
    NotStuck s log ∧ EndsJoinable s log := by
  have hinv : Inv s log ∧ LiveInv s := by
    refine run_invariant_of_stepsMeet (I := fun c => Inv c.1 c.2 ∧ LiveInv c.1)
      ⟨inv_init algorithm hmain, liveInv_init algorithm main⟩ ?_ as (s, log) hmeet hrun
    rintro ⟨s, log⟩ a ⟨s', log'⟩ ⟨hi, hl⟩ hc hstep
    obtain ⟨hstep, rfl⟩ := logged_eq_some.mp hstep
    exact ⟨(inv_step hi hstep).1, hl.step hi hc hstep⟩
  exact ⟨hinv.2.notStuck hinv.1, hinv.2.endsJoinable hinv.1⟩

/-- The main thread sleeps in `Join` and its child exits with 7. -/
def joinThenExit : List Act :=
  [.start, .exec 2 0, .join 2 0, .dispatch, .start, .exit 7, .dispatch, .resume]

theorem join_not_stuck_joinThenExit : ∃ s log,
    PartialMachine.run (logged step event) (init .a1 1, []) joinThenExit =
      some (s, log) ∧ NotStuck s log ∧ EndsJoinable s log := by
  have hmeet : StepsMeet (logged step event) (fun c a => c.1.EndsHeard a)
      (init .a1 1, []) joinThenExit := (stepsMeet_iff _ _).mp (by decide +kernel)
  have hsome : (PartialMachine.run (logged step event) (init .a1 1, [])
      joinThenExit).isSome = true := by decide +kernel
  obtain ⟨⟨s, log⟩, hrun⟩ := Option.isSome_iff_exists.mp hsome
  exact ⟨s, log, hrun, join_not_stuck .a1 1 (by decide) _ s log hrun hmeet⟩

/-- The main thread sleeps in `Join` and its child is killed by an exception. -/
def joinThenKill : List Act :=
  [.start, .exec 2 0, .join 2 0, .dispatch, .start, .kill]

/-- **The parent of a killed child sleeps for ever.** -/
theorem join_stuck_on_killed_child : ∃ s log,
    PartialMachine.run (logged step event) (init .a1 1, []) joinThenKill =
      some (s, log) ∧ ¬ NotStuck s log := by
  have hend : ((PartialMachine.run (logged step event) (init .a1 1, [])
      joinThenKill).bind fun c => (c.1.heap 1).map fun t =>
        (t.tid, t.status, t.cont, c.2)) =
      some (0, .BLOCKED, .joining 2 1, [.exec 0 1 2, .killed 1]) := by decide +kernel
  obtain ⟨⟨s, log⟩, hrun, hend⟩ := Option.bind_eq_some_iff.mp hend
  obtain ⟨t, ht, hend⟩ := Option.map_eq_some_iff.mp hend
  obtain ⟨htid, hst, hcont, hlog⟩ : t.tid = 0 ∧ t.status = .BLOCKED ∧
      t.cont = .joining 2 1 ∧ log = [.exec 0 1 2, .killed 1] := by simpa using hend
  refine ⟨s, log, hrun, fun hns => ?_⟩
  refine hns 1 t 2 1 1 ht hst hcont ?_ ?_
  · rw [htid, hlog]
    exact ⟨[], [.killed 1], rfl, by simp⟩
  · exact Or.inr (by simp [hlog])

end Sys

end OsAssignments.MemoryManagement
