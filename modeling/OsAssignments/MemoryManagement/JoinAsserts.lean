import Mathlib.Data.Fintype.Card
import OsAssignments.MemoryManagement.Carcass

/-!
# The `ASSERT`s of the join table

`AddChild`, `FinishJoin` and `SetEndCode` abort the kernel when they do not find
what they look for. `Sys.step` is `none` there; here an abort is a state of its
own, so that a run can be said to go through.

A table has ten entries, and only a `Join` that returns gives one back.
`TableFull` counts this over the history of a process, and `Honoured` says when
each system call goes through.

- `not_assertFails_exit`, `not_assertFails_resume` — these calls never abort.
- `asserts_hold_iff_honoured` — **the exact condition**, over every run.
-/

namespace OsAssignments.MemoryManagement

open PartialMachine

/-! ## §1  The entries in use -/

namespace JoinTable

def outstanding (entries : JoinTable) : ℕ :=
  (Finset.univ.filter fun i => (entries i).inUse = true).card

theorem outstanding_congr {entries entries' : JoinTable}
    (h : ∀ i, (entries' i).inUse = (entries i).inUse) :
    entries'.outstanding = entries.outstanding := by
  simp only [outstanding, h]

theorem outstanding_new : new.outstanding = 0 := by
  simp [outstanding, new]

theorem outstanding_add {entries : JoinTable} {pos : Fin MAXENTRIES}
    (hpos : (entries pos).inUse = false) (id : SpaceId) (spid : BitVec 32) :
    outstanding (Function.update entries pos ⟨true, id, spid, CODENOTENDED⟩) =
      entries.outstanding + 1 := by
  have hset : (Finset.univ.filter fun i =>
      (Function.update entries pos ⟨true, id, spid, CODENOTENDED⟩ i).inUse = true) =
      insert pos (Finset.univ.filter fun i => (entries i).inUse = true) := by
    ext i
    by_cases hi : i = pos
    · subst hi
      simp
    · simp [hi]
  rw [outstanding, hset, Finset.card_insert_of_notMem (by simp [hpos]), outstanding]

theorem outstanding_drop {entries : JoinTable} {pos : Fin MAXENTRIES}
    (hpos : (entries pos).inUse = true) :
    outstanding (Function.update entries pos { entries pos with inUse := false }) + 1 =
      entries.outstanding := by
  have hset : (Finset.univ.filter fun i =>
      (Function.update entries pos { entries pos with inUse := false } i).inUse = true) =
      (Finset.univ.filter fun i => (entries i).inUse = true).erase pos := by
    ext i
    by_cases hi : i = pos
    · subst hi
      simp
    · simp [hi]
  have hmem : pos ∈ Finset.univ.filter fun i => (entries i).inUse = true := by simp [hpos]
  rw [outstanding, hset, Finset.card_erase_add_one hmem, outstanding]

theorem outstanding_lt_iff {entries : JoinTable} :
    entries.outstanding < MAXENTRIES ↔ ∃ i, (entries i).inUse = false := by
  constructor
  · intro h
    by_contra hno
    have hall : ∀ i, (entries i).inUse = true := by simpa using hno
    rw [outstanding, Finset.filter_true_of_mem fun i _ => hall i, Finset.card_univ,
      Fintype.card_fin] at h
    exact Nat.lt_irrefl _ h
  · rintro ⟨i, hi⟩
    have hlt := Finset.card_lt_univ_of_notMem
      (show i ∉ Finset.univ.filter fun i => (entries i).inUse = true by simp [hi])
    rwa [Fintype.card_fin] at hlt

/-- The child at this address has an entry, with this serial number. -/
def Has (entries : JoinTable) (id : SpaceId) (spid : BitVec 32) : Prop :=
  ∃ i, entries.Holds i id ∧ (entries i).serial = spid

/-- **`AddChild` goes through** when there is room and no entry answers. -/
theorem addChild_eq_none {entries : JoinTable} {id : SpaceId} {spid : BitVec 32} :
    entries.addChild id spid = none ↔
      ¬ (entries.outstanding < MAXENTRIES ∧ ∀ i, ¬ entries.Answers i id spid) := by
  rw [outstanding_lt_iff]
  unfold addChild
  constructor
  · rintro h ⟨⟨i, hi⟩, hno⟩
    split at h
    · cases h
    · rename_i hmatch
      cases hfree : entries.FindFree with
      | none =>
          have := List.find?_eq_none.mp hfree i (List.mem_finRange i)
          simp [hi] at this
      | some pos =>
          cases hfind : entries.Find id spid with
          | none => exact hmatch pos hfind hfree
          | some j => exact hno j (find_some hfind)
  · intro h
    split
    · rename_i pos hfind hfree
      refine absurd ⟨⟨pos, ?_⟩, find_none hfind⟩ h
      simpa using List.find?_some hfree
    · rfl

theorem finishJoin_eq_none {entries : JoinTable} {id : SpaceId} {spid : BitVec 32} :
    entries.finishJoin id spid = none ↔ ∀ i, ¬ entries.Answers i id spid := by
  rw [finishJoin, Option.map_eq_none_iff]
  refine ⟨find_none, fun h => ?_⟩
  cases hf : entries.Find id spid with
  | none => rfl
  | some i => exact absurd (find_some hf) (h i)

end JoinTable

namespace Sys

variable {s s' : Sys} {log : List Event}

/-! ## §2  Aborting -/

/-- An `ASSERT` of the join table fails in this step. -/
def assertFails (s : Sys) (a : Act) : Bool :=
  match s.heap s.currentThread with
  | none => false
  | some t =>
      match a with
      | .exec tmp _ =>
          decide (s.At .user ∧ tmp ≠ NULL ∧ s.heap tmp = none) &&
            (t.jtable.addChild tmp s.serialPid).isNone
      | .exit code =>
          decide (s.At .user ∧ t.parent ≠ NULL) &&
            match s.heap t.parent with
            | none => false
            | some p => (p.jtable.setEndCode s.currentThread t.pid code).isNone
      | .join id stale =>
          decide (s.At .user) && (t.jtable.finishJoin id (s.readPid id stale)).isNone
      | .resume =>
          match t.status, t.cont with
          | .RUNNING, .joining id spid => (t.jtable.finishJoin id spid).isNone
          | _, _ => false
      | _ => false

/-- The kernel with its `ASSERT`s: `none` is the aborted kernel, which takes no
step. -/
def assertStep : Option Sys → Act → Option (Option Sys)
  | none, _ => none
  | some s, a => if s.assertFails a then some none else (s.step a).map some

def assertEvent : Option Sys → Act → List Event
  | none, _ => []
  | some s, a => if s.assertFails a then [] else s.event a

/-! ## §3  The history of a table -/

/-- How often the process has called `Exec`. -/
def execs (log : List Event) (p : ℕ) : ℕ :=
  log.countP fun
    | .exec q _ _ => q = p
    | _ => false

/-- How often a `Join` of the process has returned. -/
def joins (log : List Event) (p : ℕ) : ℕ :=
  log.countP fun
    | .joined q _ _ => q = p
    | _ => false

/-- The entries in use are the children whose `Join` has not returned. -/
structure CountInv (cores : SpaceId → Option Core) (nextTid : ℕ) (log : List Event) :
    Prop where
  count : ∀ a c, cores a = some c → c.done = false →
    c.jtable.outstanding + joins log c.tid = execs log c.tid
  unborn : ∀ p, nextTid ≤ p → joins log p = 0 ∧ execs log p = 0

/-- A thread inside `Join` has the entry that it is waiting for. -/
def JoiningInv (s : Sys) : Prop :=
  ∀ a t, s.heap a = some t → ∀ id spid, t.cont = .joining id spid → t.jtable.Has id spid

/-- What a step keeps. -/
structure AssertInv (s : Sys) (log : List Event) : Prop where
  join : Inv s log
  count : CountInv s.cores s.nextTid log
  joining : JoiningInv s

/-- The system call can be honoured: there is a free entry, because fewer than
`MAXENTRIES` children of the process wait to be joined, and no child that is
waiting to be joined has the address of the new thread, unless it is not over
and has another serial number; the id of a `Join` is that of a child that waits
to be joined and that is over or has the serial number read through the id. -/
def Honoured (s : Sys) (log : List Event) : Act → Prop
  | .exec tmp _ => ∀ t, s.heap s.currentThread = some t →
      execs log t.tid < joins log t.tid + MAXENTRIES ∧
        ∀ i, t.jtable.Holds i tmp →
          (t.jtable i).code = CODENOTENDED ∧ (t.jtable i).serial ≠ s.serialPid
  | .join id stale => ∀ t, s.heap s.currentThread = some t →
      ∃ i, t.jtable.Holds i id ∧
        ((t.jtable i).code ≠ CODENOTENDED ∨ (t.jtable i).serial = s.readPid id stale)
  | _ => True

/-! ## §4  Counting -/

variable {cores cores' : SpaceId → Option Core} {nextTid : ℕ}

/-- Tables that stand for old ones keep the count. -/
theorem CountInv.back (h : CountInv cores nextTid log)
    (hback : ∀ a c, cores' a = some c → c.done = false → ∃ d, cores a = some d ∧
      d.done = false ∧ d.tid = c.tid ∧ d.jtable.outstanding = c.jtable.outstanding) :
    CountInv cores' nextTid log := by
  refine ⟨fun a c hc hdone => ?_, h.unborn⟩
  obtain ⟨d, hd, hdd, htid, hout⟩ := hback a c hc hdone
  rw [← hout, ← htid]
  exact h.count a d hd hdd

theorem CountInv.snoc_other (h : CountInv cores nextTid log) {e : Event}
    (hexec : ∀ p c id, e ≠ .exec p c id) (hjoin : ∀ p id v, e ≠ .joined p id v) :
    CountInv cores nextTid (log ++ [e]) := by
  have hcount : ∀ p, execs (log ++ [e]) p = execs log p ∧ joins (log ++ [e]) p = joins log p := by
    intro p
    cases e with
    | exec q c id => exact absurd rfl (hexec q c id)
    | joined q id v => exact absurd rfl (hjoin q id v)
    | exit c v => simp [execs, joins]
    | killed c => simp [execs, joins]
  refine ⟨fun a c hc hdone => ?_, fun p hp => ?_⟩
  · rw [(hcount c.tid).1, (hcount c.tid).2]
    exact h.count a c hc hdone
  · rw [(hcount p).1, (hcount p).2]
    exact h.unborn p hp

theorem CountInv.same (h : CountInv s.cores s.nextTid log) (hsame : SameJoin s s') :
    CountInv s'.cores s'.nextTid log := by
  rw [hsame.cores, hsame.nextTid]
  exact h

theorem CountInv.finish (h : CountInv s.cores s.nextTid log) (hs : s.finish = some s') :
    CountInv s'.cores s'.nextTid log := by
  obtain ⟨t, -, -, ht, -⟩ := finish_steps hs
  obtain ⟨-, hnext, -, -, ⟨c₀, hc₀, -, hdone₀, -⟩, hother, -⟩ := finish_cores hs ht
  rw [hnext]
  refine h.back fun a c hc hdone => ?_
  by_cases ha : a = s.currentThread
  · rw [ha, hc₀] at hc
    cases hc
    rw [hdone₀] at hdone
    cases hdone
  · obtain ⟨d, hd, hk⟩ := hother a c ha hc
    exact ⟨d, hd, hk.done ▸ hdone, hk.tid.symm, by rw [hk.jtable]⟩

/-- An `Exec` takes an entry. -/
theorem CountInv.exec (h : CountInv cores nextTid log) (htids : TidInv cores nextTid)
    {a b : SpaceId} {p : Core} {pos : Fin MAXENTRIES} {pid : BitVec 32}
    (hp : cores a = some p) (hdone : p.done = false) (hpos : (p.jtable pos).inUse = false) :
    CountInv (Function.update (Function.update cores a (some { p with
        jtable := Function.update p.jtable pos ⟨true, b, pid, CODENOTENDED⟩ }))
        b (some ⟨nextTid, pid, a, JoinTable.new, false⟩)) (nextTid + 1)
      (log ++ [.exec p.tid nextTid b]) := by
  have hlt := htids.tid_lt a p hp
  have hjoins : ∀ q, joins (log ++ [.exec p.tid nextTid b]) q = joins log q := by
    intro q
    simp [joins]
  have hexecs : ∀ q ≠ p.tid, execs (log ++ [.exec p.tid nextTid b]) q = execs log q := by
    intro q hq
    simp [execs, Ne.symm hq]
  refine ⟨fun x c hc hcd => ?_, fun q hq => ?_⟩
  · rcases update_eq_some.mp hc with ⟨-, heq⟩ | ⟨-, hc⟩
    · cases heq
      obtain ⟨hj, he⟩ := h.unborn nextTid (Nat.le_refl _)
      rw [hjoins, hexecs nextTid (Nat.ne_of_gt hlt), hj, he, JoinTable.outstanding_new]
    rcases update_eq_some.mp hc with ⟨-, heq⟩ | ⟨hx, hc⟩
    · cases heq
      have hcount := h.count a p hp hdone
      have hone : execs (log ++ [.exec p.tid nextTid b]) p.tid = execs log p.tid + 1 := by
        simp [execs]
      change JoinTable.outstanding _ + joins _ p.tid = execs _ p.tid
      rw [hjoins, hone, JoinTable.outstanding_add hpos, ← hcount]
      omega
    · have hne : c.tid ≠ p.tid := fun heq => hx (htids.tid_inj _ _ _ _ hc hp heq)
      rw [hjoins, hexecs c.tid hne]
      exact h.count x c hc hcd
  · have hq' : nextTid ≤ q := Nat.le_of_succ_le hq
    rw [hjoins, hexecs q (by omega)]
    exact h.unborn q hq'

/-- A `Join` that returns gives an entry back. -/
theorem CountInv.joined (h : CountInv cores nextTid log) (htids : TidInv cores nextTid)
    {a id : SpaceId} {p p' : Core} {pos : Fin MAXENTRIES} {v : BitVec 32}
    (hp : cores a = some p) (hdone : p.done = false) (hpos : (p.jtable pos).inUse = true)
    (htid : p'.tid = p.tid)
    (hjt : p'.jtable = Function.update p.jtable pos { p.jtable pos with inUse := false }) :
    CountInv (Function.update cores a (some p')) nextTid (log ++ [.joined p.tid id v]) := by
  have hlt := htids.tid_lt a p hp
  have hexecs : ∀ q, execs (log ++ [.joined p.tid id v]) q = execs log q := by
    intro q
    simp [execs]
  have hjoins : ∀ q ≠ p.tid, joins (log ++ [.joined p.tid id v]) q = joins log q := by
    intro q hq
    simp [joins, Ne.symm hq]
  refine ⟨fun x c hc hcd => ?_, fun q hq => ?_⟩
  · rcases update_eq_some.mp hc with ⟨-, heq⟩ | ⟨hx, hc⟩
    · cases heq
      have hcount := h.count a p hp hdone
      have hout := JoinTable.outstanding_drop hpos
      have hone : joins (log ++ [.joined p.tid id v]) p.tid = joins log p.tid + 1 := by
        simp [joins]
      rw [htid, hexecs, hone, hjt, ← hcount]
      omega
    · have hne : c.tid ≠ p.tid := fun heq => hx (htids.tid_inj _ _ _ _ hc hp heq)
      rw [hexecs, hjoins c.tid hne]
      exact h.count x c hc hcd
  · rw [hexecs, hjoins q (by omega)]
    exact h.unborn q hq

/-! ## §5  Waiting in `Join` -/

theorem JoiningInv.set (h : JoiningInv s) {a : SpaceId} {t : Thread}
    (ht : ∀ id spid, t.cont = .joining id spid → t.jtable.Has id spid) :
    JoiningInv (s.set a t) := by
  intro b u hu id spid hc
  by_cases hb : b = a
  · subst hb
    rw [heap_set_self] at hu
    cases hu
    exact ht id spid hc
  · exact h b u (by simpa [Sys.set, hb] using hu) id spid hc

/-- Threads that have evolved, and whose tables have lost no entry. -/
theorem JoiningInv.evolve (h : JoiningInv s) (hev : Evolved s s')
    (htab : ∀ a c, s'.cores a = some c → c.done = false → ∃ d, s.cores a = some d ∧
      ∀ id spid, d.jtable.Has id spid → c.jtable.Has id spid) : JoiningInv s' := by
  intro a t' ht' id spid hc'
  obtain ⟨t, ht, hevol⟩ := hev a t' ht'
  have hc : t.cont = .joining id spid := by
    rcases hevol.cont with heq | ⟨-, hs⟩ | hf
    · exact heq.symm.trans hc'
    · rw [hc'] at hs
      cases hs
    · rw [hc'] at hf
      cases hf
  obtain ⟨d, hd, hmono⟩ := htab a _ (cores_of_heap ht') (t'.not_done (by simp [hc']))
  rw [cores_of_heap ht] at hd
  cases hd
  exact hmono id spid (h a t ht id spid hc)

theorem JoiningInv.same (h : JoiningInv s) (hev : Evolved s s') (hsame : SameJoin s s') :
    JoiningInv s' := by
  refine h.evolve hev fun a c hc _ => ⟨c, ?_, fun _ _ hhas => hhas⟩
  rw [← hsame.cores]
  exact hc

theorem JoiningInv.finish (h : JoiningInv s) (hs : s.finish = some s') : JoiningInv s' := by
  obtain ⟨t, -, -, ht, -⟩ := finish_steps hs
  obtain ⟨-, -, hev, -, ⟨c₀, hc₀, -, hdone₀, -⟩, hother, -⟩ := finish_cores hs ht
  refine h.evolve hev fun a c hc hdone => ?_
  by_cases ha : a = s.currentThread
  · rw [ha, hc₀] at hc
    cases hc
    rw [hdone₀] at hdone
    cases hdone
  · obtain ⟨d, hd, hk⟩ := hother a c ha hc
    exact ⟨d, hd, fun id spid hhas => hk.jtable ▸ hhas⟩

/-- What is left after a dispatch was there before. -/
theorem runNext_cores (hs : s.runNext = some s') :
    s'.nextTid = s.nextTid ∧ ∀ a c, s'.cores a = some c → s.cores a = some c := by
  rw [runNext_eq] at hs
  obtain ⟨s₁, hs₁, hback⟩ := Option.bind_eq_some_iff.mp hs
  have hsame := nextSwitch_sameJoin hs₁
  unfold afterSwitch at hback
  split at hback
  · cases hback
  rename_i t ht
  split at hback
  · rename_i hfresh
    cases hback
    have hset : SameJoin s₁ (s₁.set s₁.currentThread { t with cont := .starting }) :=
      sameJoin_set ht (by simp [Thread.core, hfresh])
    have htrans := hsame.trans hset
    exact ⟨htrans.nextTid, fun a c hc => htrans.cores ▸ hc⟩
  · obtain ⟨-, hnext, -⟩ := deleteCarcass_cases hback
    refine ⟨hnext.trans hsame.nextTid, fun a c hc => ?_⟩
    rw [← hsame.cores]
    exact deleteCarcass_cores hback hc

/-! ## §6  What a step keeps -/

theorem AssertInv.runNext (hi : AssertInv s log) (hs : s.runNext = some s') :
    AssertInv s' log := by
  obtain ⟨hnext, hcores⟩ := runNext_cores hs
  refine ⟨runNext_inv hs hi.join, ?_, ?_⟩
  · rw [hnext]
    exact hi.count.back fun a c hc hdone => ⟨c, hcores a c hc, hdone, rfl, rfl⟩
  · exact hi.joining.evolve (runNext_evolved hs)
      fun a c hc _ => ⟨c, hcores a c hc, fun _ _ hhas => hhas⟩

theorem AssertInv.same (hi : AssertInv s log) (hev : Evolved s s') (hsame : SameJoin s s') :
    AssertInv s' log :=
  ⟨hsame.inv hi.join, hi.count.same hsame, hi.joining.same hev hsame⟩

theorem AssertInv.yield (hi : AssertInv s log) (hs : s.yield = some s') :
    AssertInv s' log := by
  obtain ⟨t, s₁, ht, hready, hrun⟩ := yield_steps hs
  have hset : AssertInv (s.set s.currentThread { t with cpu := t.cpu + s.quantum }) log :=
    hi.same (evolved_set ht ⟨rfl, Or.inl rfl, Or.inl⟩) (sameJoin_set ht rfl)
  exact (hset.same (readyToRun_evolved hready).1 (readyToRun_sameJoin hready).1).runNext hrun

theorem AssertInv.exec (hi : AssertInv s log) {t : Thread} {tmp : SpaceId} {prio : BitVec 32}
    (ht : s.heap s.currentThread = some t) (hc : t.cont = .user) (hnull : tmp ≠ NULL)
    (hfree : s.heap tmp = none) (hs : s.exec tmp prio = some s') :
    AssertInv s' (log ++ [.exec t.tid s.nextTid tmp]) := by
  have hdone := t.not_done (show t.cont ≠ .finished by simp [hc])
  obtain ⟨pos, hpos, -, hcores, -, hnext, -⟩ := exec_steps hs ht
  refine ⟨exec_inv hs hi.join ht hdone hnull hfree, ?_, ?_⟩
  · rw [hcores, hnext]
    exact hi.count.exec hi.join.tids (cores_of_heap ht) hdone hpos
  · simp only [Sys.exec, ht, Option.bind_eq_bind, Option.bind_some,
      Option.bind_eq_some_iff] at hs
    obtain ⟨jt, -, hready⟩ := hs
    have hparent : JoiningInv (s.set s.currentThread { t with jtable := jt }) := by
      refine hi.joining.set fun id spid hjoin => ?_
      rw [show t.cont = .joining id spid from hjoin] at hc
      cases hc
    have hchild : JoiningInv ((s.set s.currentThread { t with jtable := jt }).set tmp
        { Thread.new s.nextTid s.serialPid prio with parent := s.currentThread }) :=
      hparent.set fun id spid hjoin => by cases hjoin
    exact JoiningInv.same (s := { (s.set s.currentThread { t with jtable := jt }).set tmp
        { Thread.new s.nextTid s.serialPid prio with parent := s.currentThread } with
        serialPid := s.serialPid + 1, nextTid := s.nextTid + 1 })
      hchild (readyToRun_evolved hready).1 (readyToRun_sameJoin hready).1

/-- Setting a code drops no entry. -/
theorem JoinTable.has_setCode {entries : JoinTable} {pos : Fin MAXENTRIES}
    {code : BitVec 32} {id : SpaceId} {spid : BitVec 32} (h : entries.Has id spid) :
    JoinTable.Has (Function.update entries pos { entries pos with code := code }) id spid := by
  obtain ⟨i, hi, hser⟩ := h
  refine ⟨i, ?_⟩
  by_cases hip : i = pos
  · subst hip
    simpa [JoinTable.Holds, hser] using hi
  · simpa [JoinTable.Holds, hip, hser] using hi

theorem AssertInv.exit (hi : AssertInv s log) {t : Thread} {code : BitVec 32}
    (ht : s.heap s.currentThread = some t) (hc : t.cont = .user)
    (hs : s.exit code = some s') : AssertInv s' (log ++ [.exit t.tid code]) := by
  have hdone := t.not_done (show t.cont ≠ .finished by simp [hc])
  have hlog := hi.count.snoc_other (e := .exit t.tid code) (by simp) (by simp)
  suffices hrest : CountInv s'.cores s'.nextTid (log ++ [.exit t.tid code]) ∧ JoiningInv s' from
    ⟨exit_inv hs hi.join ht hdone, hrest.1, hrest.2⟩
  rcases exit_steps hs ht with ⟨-, hfin⟩ |
    ⟨-, p, pos, s₁, hp, -, hcores, -, -, hnext, hev, -, hfin⟩
  · exact ⟨hlog.finish hfin, hi.joining.finish hfin⟩
  · -- the parent's table gets the code, then the thread is over
    have hold : ∀ a c, s₁.cores a = some c → ∃ d, s.cores a = some d ∧ d.done = c.done ∧
        d.tid = c.tid ∧ d.jtable.outstanding = c.jtable.outstanding ∧
        ∀ id spid, d.jtable.Has id spid → c.jtable.Has id spid := by
      intro a c hca
      rw [hcores] at hca
      rcases update_eq_some.mp hca with ⟨ha, heq⟩ | ⟨-, hca⟩
      · cases heq
        refine ⟨p.core, ha ▸ cores_of_heap hp, rfl, rfl, ?_, fun _ _ => JoinTable.has_setCode⟩
        refine JoinTable.outstanding_congr fun i => ?_
        by_cases hip : i = pos
        · subst hip
          simp [Thread.core]
        · simp [Thread.core, hip]
      · exact ⟨c, hca, rfl, rfl, rfl, fun _ _ hhas => hhas⟩
    have hcount₁ : CountInv s₁.cores s₁.nextTid (log ++ [.exit t.tid code]) := by
      rw [hnext]
      refine hlog.back fun a c hca hcd => ?_
      obtain ⟨d, hd, hdd, htid, hout, -⟩ := hold a c hca
      exact ⟨d, hd, hdd.trans hcd, htid, hout⟩
    have hjoining₁ : JoiningInv s₁ := hi.joining.evolve hev fun a c hca _ => by
      obtain ⟨d, hd, -, -, -, hmono⟩ := hold a c hca
      exact ⟨d, hd, hmono⟩
    exact ⟨hcount₁.finish hfin, hjoining₁.finish hfin⟩

theorem AssertInv.joinLoop (hi : AssertInv s log) {t : Thread} {id : SpaceId}
    {spid : BitVec 32} (ht : s.heap s.currentThread = some t) (hc : t.cont ≠ .finished)
    (hs : s.joinLoop id spid = some s') : AssertInv s' (log ++ joinEvent t id spid) := by
  have hdone := t.not_done hc
  suffices hrest : CountInv s'.cores s'.nextTid (log ++ joinEvent t id spid) ∧ JoiningInv s' from
    ⟨(joinLoop_inv hs hi.join ht hdone).1, hrest.1, hrest.2⟩
  obtain ⟨pos, hans, ⟨hcode, hev, rfl⟩ | ⟨-, hev, rfl⟩⟩ := joinLoop_steps hs ht
  · rw [hev, List.append_nil]
    refine ⟨hi.count.same (sameJoin_set ht (by simp [Thread.core, hc])), ?_⟩
    refine hi.joining.set fun id' spid' hjoin => ?_
    cases hjoin
    exact ⟨pos, hans.1, hans.2.resolve_right fun hne => hne hcode⟩
  · rw [hev]
    refine ⟨?_, hi.joining.set fun id' spid' hjoin => by cases hjoin⟩
    rw [cores_set]
    exact hi.count.joined hi.join.tids (cores_of_heap ht) hdone hans.1.1 rfl rfl

theorem AssertInv.kill (hi : AssertInv s log) {t : Thread}
    (ht : s.heap s.currentThread = some t) (hs : s.finish = some s') :
    AssertInv s' (log ++ [.killed t.tid]) :=
  ⟨kill_inv hs hi.join ht,
    (hi.count.snoc_other (e := .killed t.tid) (by simp) (by simp)).finish hs,
    hi.joining.finish hs⟩

/-- **The step lemma.** -/
theorem assertInv_step {a : Act} (hi : AssertInv s log) (hstep : s.step a = some s') :
    AssertInv s' (log ++ s.event a) := by
  have quiet : s.event a = [] → AssertInv s' log → AssertInv s' (log ++ s.event a) := by
    intro hev hi'
    rw [hev, List.append_nil]
    exact hi'
  cases step_cases hstep with
  | tick =>
      refine quiet ?_ (hi.same (fun b u hu => ⟨u, hu, Evolves.refl u⟩) ⟨rfl, rfl, rfl⟩)
      unfold event
      split <;> rfl
  | yield t s' ht h => exact quiet (by simp [event, ht]) (hi.yield h)
  | dispatch t s' ht h => exact quiet (by simp [event, ht]) (hi.runNext h)
  | start t ht hc =>
      have hsame : SameJoin s (s.set s.currentThread { t with cont := .user }) :=
        sameJoin_set ht (by simp [Thread.core, hc])
      exact quiet (by simp [event, ht]) ⟨hsame.inv hi.join, hi.count.same hsame,
        hi.joining.set fun id spid hjoin => by cases hjoin⟩
  | exec tmp prio t s' ht hst hc hnull hfree h =>
      rw [event_exec ht tmp prio]
      exact hi.exec ht hc hnull hfree h
  | exit code t s' ht hc h =>
      rw [event_exit ht code]
      exact hi.exit ht hc h
  | join id stale t s' ht hc h =>
      rw [event_join ht id stale]
      exact hi.joinLoop ht (by simp [hc]) h
  | resume id spid t s' ht hc h =>
      rw [event_resume ht hc]
      exact hi.joinLoop ht (by simp [hc]) h
  | kill t s' ht hc h =>
      rw [event_kill ht]
      exact hi.kill ht h

theorem assertInv_init (algorithm : Algorithm) {main : SpaceId} (hmain : main ≠ NULL) :
    AssertInv (init algorithm main) [] := by
  refine ⟨inv_init algorithm hmain, ⟨fun a c hc _ => ?_, fun p _ => ⟨rfl, rfl⟩⟩, ?_⟩
  · obtain ⟨t, ht, rfl⟩ := exists_heap_of_cores hc
    rw [(heap_init ht).2]
    exact JoinTable.outstanding_new
  · intro a t ht id spid hjoin
    rw [(heap_init ht).2] at hjoin
    cases hjoin

/-! ## §7  When the kernel aborts -/

/-- **`SetEndCode` never aborts**: the parent has the entry. -/
theorem not_assertFails_exit (hi : AssertInv s log) (code : BitVec 32) :
    s.assertFails (.exit code) = false := by
  unfold assertFails
  cases ht : s.heap s.currentThread with
  | none => rfl
  | some t =>
      simp only [Bool.and_eq_false_imp, decide_eq_true_eq]
      rintro ⟨⟨u, hu, -, hc⟩, hpar⟩
      obtain rfl : t = u := Option.some.inj (ht.symm.trans hu)
      obtain ⟨⟨owner, hj⟩, halive, -⟩ := hi.join
      have hcore := cores_of_heap ht
      have hterm := halive _ _ hcore (t.not_done (by simp [hc]))
      cases hp : s.heap t.parent with
      | none => rfl
      | some p =>
          obtain ⟨i, hfind, -⟩ := hj.find_child hcore hterm hpar (cores_of_heap hp)
          have hsome : p.jtable.setEndCode s.currentThread t.pid code =
              some (Function.update p.jtable i { p.jtable i with code := code }) :=
            Option.map_eq_some_iff.mpr ⟨i, hfind, rfl⟩
          simp [hsome]

/-- **A `Join` that has slept never aborts**: its entry is still there. -/
theorem not_assertFails_resume (hi : AssertInv s log) : s.assertFails .resume = false := by
  unfold assertFails
  cases ht : s.heap s.currentThread with
  | none => rfl
  | some t =>
      dsimp only
      split
      · rename_i id spid _ hc
        obtain ⟨i, hholds, hser⟩ := hi.joining _ t ht id spid hc
        cases hfin : t.jtable.finishJoin id spid with
        | none => exact absurd ⟨hholds, Or.inl hser⟩ (JoinTable.finishJoin_eq_none.mp hfin i)
        | some r => rfl
      · rfl

/-- The room in the table, by the history of the process. -/
theorem AssertInv.outstanding_lt (hi : AssertInv s log) {t : Thread}
    (ht : s.heap s.currentThread = some t) (hc : t.cont ≠ .finished) :
    t.jtable.outstanding < MAXENTRIES ↔
      execs log t.tid < joins log t.tid + MAXENTRIES := by
  have hcount : t.jtable.outstanding + joins log t.tid = execs log t.tid :=
    hi.count.count _ _ (cores_of_heap ht) (t.not_done hc)
  omega

theorem not_answers_iff {entries : JoinTable} {i : Fin MAXENTRIES} {id : SpaceId}
    {spid : BitVec 32} : ¬ entries.Answers i id spid ↔ (entries.Holds i id →
      (entries i).code = CODENOTENDED ∧ (entries i).serial ≠ spid) := by
  unfold JoinTable.Answers
  tauto

/-- **An `ASSERT` that fails was a call that cannot be honoured.** -/
theorem not_honoured_of_assertFails (hi : AssertInv s log) {a : Act}
    (h : s.assertFails a = true) : ¬ s.Honoured log a := by
  intro hok
  cases a with
  | exit code =>
      rw [not_assertFails_exit hi code] at h
      cases h
  | resume =>
      rw [not_assertFails_resume hi] at h
      cases h
  | exec tmp prio =>
      unfold assertFails at h
      cases ht : s.heap s.currentThread with
      | none => simp [ht] at h
      | some t =>
          simp only [ht, Bool.and_eq_true, decide_eq_true_eq, Option.isNone_iff_eq_none,
            JoinTable.addChild_eq_none] at h
          obtain ⟨⟨⟨u, hu, -, hc⟩, -⟩, hfull⟩ := h
          obtain rfl : t = u := Option.some.inj (ht.symm.trans hu)
          obtain ⟨hroom, hno⟩ := hok t ht
          refine hfull ⟨(hi.outstanding_lt ht (by simp [hc])).mpr hroom, fun i => ?_⟩
          exact not_answers_iff.mpr (hno i)
  | join id stale =>
      unfold assertFails at h
      cases ht : s.heap s.currentThread with
      | none => simp [ht] at h
      | some t =>
          simp only [ht, Bool.and_eq_true, decide_eq_true_eq, Option.isNone_iff_eq_none,
            JoinTable.finishJoin_eq_none] at h
          obtain ⟨i, hholds, hor⟩ := hok t ht
          exact h.2 i ⟨hholds, hor.symm⟩
  | tick => unfold assertFails at h; split at h <;> cases h
  | yield => unfold assertFails at h; split at h <;> cases h
  | dispatch => unfold assertFails at h; split at h <;> cases h
  | start => unfold assertFails at h; split at h <;> cases h
  | kill => unfold assertFails at h; split at h <;> cases h

/-- **A call that goes through could be honoured.** -/
theorem honoured_of_step (hi : AssertInv s log) {a : Act} (hstep : s.step a = some s') :
    s.Honoured log a := by
  cases step_cases hstep with
  | exec tmp prio t s' ht hst hc hnull hfree h =>
      intro u hu
      obtain rfl : t = u := Option.some.inj (ht.symm.trans hu)
      obtain ⟨pos, hpos, hno, -⟩ := exec_steps h ht
      refine ⟨(hi.outstanding_lt ht (by simp [hc])).mp ?_, fun i => not_answers_iff.mp (hno i)⟩
      exact JoinTable.outstanding_lt_iff.mpr ⟨pos, hpos⟩
  | join id stale t s' ht hc h =>
      intro u hu
      obtain rfl : t = u := Option.some.inj (ht.symm.trans hu)
      obtain ⟨pos, ⟨hholds, hor⟩, -⟩ := joinLoop_steps h ht
      exact ⟨pos, hholds, hor.symm⟩
  | _ => trivial

/-! ## §8  Every run -/

/-- The kernel has not aborted. -/
def Runs (c : Option Sys × List Event) : Prop := c.1 ≠ none

/-- The calls that can be honoured, of a kernel that has not aborted. -/
def CallHonoured (c : Option Sys × List Event) (a : Act) : Prop :=
  ∀ s, c.1 = some s → s.Honoured c.2 a

/-- **When the `ASSERT`s of the join table hold.** A run of system calls never
aborts the kernel if and only if each call of it can be honoured. -/
theorem asserts_hold_iff_honoured (algorithm : Algorithm) (main : SpaceId)
    (hmain : main ≠ NULL) (as : List Act) (c : Option Sys × List Event)
    (hrun : PartialMachine.run (logged assertStep assertEvent)
      (some (init algorithm main), []) as = some c) :
    Always (logged assertStep assertEvent) Runs (some (init algorithm main), []) as ↔
      StepsMeet (logged assertStep assertEvent) CallHonoured
        (some (init algorithm main), []) as := by
  refine always_iff_stepsMeet (I := fun c => ∀ s, c.1 = some s → AssertInv s c.2)
    ?_ (by simp [Runs]) ?_ ?_ as c hrun
  · intro s hs
    cases hs
    exact assertInv_init algorithm hmain
  · rintro ⟨k, log⟩ a ⟨k', log'⟩ hi hstep s' hs'
    obtain ⟨hstep, rfl⟩ := logged_eq_some.mp hstep
    obtain rfl : k' = some s' := hs'
    cases k with
    | none => cases hstep
    | some s =>
        simp only [assertStep, assertEvent] at hstep ⊢
        split at hstep
        · cases hstep
        · rename_i hno
          rw [if_neg hno]
          obtain ⟨s₁, hs₁, heq⟩ := Option.map_eq_some_iff.mp hstep
          cases heq
          exact assertInv_step (hi s rfl) hs₁
  · rintro ⟨k, log⟩ a ⟨k', log'⟩ hi - hstep
    obtain ⟨hstep, -⟩ := logged_eq_some.mp hstep
    cases k with
    | none => cases hstep
    | some s =>
        have hi := hi s rfl
        simp only [assertStep] at hstep
        split at hstep
        · rename_i hfails
          obtain rfl : none = k' := Option.some.inj hstep
          refine iff_of_false (fun hruns => hruns rfl) fun hok => ?_
          exact not_honoured_of_assertFails hi hfails (hok s rfl)
        · obtain ⟨s₁, hs₁, heq⟩ := Option.map_eq_some_iff.mp hstep
          refine iff_of_true ?_ ?_
          · rw [show k' = some s₁ from heq.symm]
            simp [Runs]
          · intro u hu
            cases hu
            exact honoured_of_step hi hs₁

/-- The main process starts eleven children and joins none. -/
def elevenChildren : List Act :=
  .start :: (List.range 11).map fun i => .exec (BitVec.ofNat 32 (i + 2)) 0

theorem elevenChildren_aborts :
    (PartialMachine.run (logged assertStep assertEvent) (some (init .a1 1), [])
      elevenChildren).map (fun c => c.1.isNone) = some true := by decide +kernel

theorem asserts_hold_iff_honoured_elevenChildren :
    ¬ StepsMeet (logged assertStep assertEvent) CallHonoured (some (init .a1 1), [])
      elevenChildren := by
  obtain ⟨c, hrun, hnone⟩ := Option.map_eq_some_iff.mp elevenChildren_aborts
  intro hmeet
  have halways := (asserts_hold_iff_honoured .a1 1 (by decide) _ c hrun).mpr hmeet
  exact halways.last hrun (Option.isNone_iff_eq_none.mp hnone)

/-- User programs can abort the kernel. -/
theorem kernel_aborts_on_eleventh_child :
    ¬ ∀ (algorithm : Algorithm) (main : SpaceId), main ≠ NULL → ∀ as c,
      PartialMachine.run (logged assertStep assertEvent) (some (init algorithm main), []) as =
        some c → Runs c := by
  intro h
  obtain ⟨c, hrun, hnone⟩ := Option.map_eq_some_iff.mp elevenChildren_aborts
  exact h .a1 1 (by decide) _ c hrun (Option.isNone_iff_eq_none.mp hnone)

end Sys

end OsAssignments.MemoryManagement
