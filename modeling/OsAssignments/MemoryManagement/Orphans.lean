import Mathlib.Algebra.BigOperators.Ring.Finset
import Mathlib.Data.Fintype.BigOperators
import OsAssignments.MemoryManagement.JoinAsserts

/-!
# Whom `ClearChildren` orphans

A process that ends sets the parent of every thread in its table to `NULL`. The
table knows its children by address, and an entry goes only when a `Join`
returns: a child that has ended and was not joined leaves an address at which
no thread lives, or a thread of somebody else.

- `KinInv` — the entries of a table, counted by address, are the children that
  were not joined; a child that is running is among them.
- `orphansOwn_iff` — when the process ends, `ClearChildren` does what it should
  exactly if no child of the process has ended and was left unjoined.
- `orphans_own_iff` — **the same over every run**, with what it is for: the exit
  code of a child goes to the process that `Exec`ed it.
-/

namespace OsAssignments.MemoryManagement

open PartialMachine

/-! ## §1  The entries for an address -/

namespace JoinTable

/-- How many entries in use are for this address. -/
def entriesFor (entries : JoinTable) (id : SpaceId) : ℕ :=
  (Finset.univ.filter fun i => (entries i).inUse = true ∧ (entries i).id = id).card

theorem entriesFor_pos {entries : JoinTable} {id : SpaceId} :
    0 < entries.entriesFor id ↔ ∃ i, entries.Holds i id := by
  rw [entriesFor, Finset.card_pos]
  constructor
  · rintro ⟨i, hi⟩
    exact ⟨i, (Finset.mem_filter.mp hi).2⟩
  · rintro ⟨i, hi⟩
    exact ⟨i, Finset.mem_filter.mpr ⟨Finset.mem_univ i, hi⟩⟩

theorem entriesFor_congr {entries entries' : JoinTable}
    (h : ∀ i id, entries'.Holds i id ↔ entries.Holds i id) (id : SpaceId) :
    entries'.entriesFor id = entries.entriesFor id := by
  unfold entriesFor
  congr 1
  apply Finset.filter_congr
  intro i _
  exact h i id

theorem entriesFor_new (id : SpaceId) : new.entriesFor id = 0 := by
  simp [entriesFor, new]

/-- One entry is rewritten: it counted, or not, and it counts, or not. -/
theorem entriesFor_update (entries : JoinTable) (pos : Fin MAXENTRIES)
    (e : JoinTableEntry) (id : SpaceId) :
    entriesFor (Function.update entries pos e) id +
        (if (entries pos).inUse = true ∧ (entries pos).id = id then 1 else 0) =
      entries.entriesFor id + (if e.inUse = true ∧ e.id = id then 1 else 0) := by
  have hrest : ∀ i ∈ Finset.univ.erase pos,
      (if (Function.update entries pos e i).inUse = true ∧
          (Function.update entries pos e i).id = id then 1 else 0) =
        if (entries i).inUse = true ∧ (entries i).id = id then 1 else 0 := by
    intro i hi
    rw [Function.update_of_ne (Finset.ne_of_mem_erase hi)]
  rw [entriesFor, entriesFor, Finset.card_filter, Finset.card_filter,
    ← Finset.add_sum_erase _ _ (Finset.mem_univ pos),
    ← Finset.add_sum_erase (a := pos) Finset.univ
      (fun i => if (entries i).inUse = true ∧ (entries i).id = id then 1 else 0)
      (Finset.mem_univ pos), Finset.sum_congr rfl hrest, Function.update_self]
  omega

end JoinTable

namespace Sys

variable {s s' : Sys} {log : List Event}

/-! ## §2  The children that were not joined -/

/-- One more event: a child is `Exec`ed, or a `Join` returns for the one last
`Exec`ed under its id. -/
def unjoinedStep (p : ℕ) (l : List (SpaceId × ℕ)) : Event → List (SpaceId × ℕ)
  | .exec q c id => if q = p then (id, c) :: l else l
  | .joined q id _ => if q = p then l.eraseP (fun x => x.1 == id) else l
  | _ => l

/-- The children of `p` that no `Join` has returned for, with their addresses,
the last one first. -/
def unjoined (log : List Event) (p : ℕ) : List (SpaceId × ℕ) :=
  log.foldl (unjoinedStep p) []

theorem unjoined_snoc (log : List Event) (e : Event) (p : ℕ) :
    unjoined (log ++ [e]) p = unjoinedStep p (unjoined log p) e := by
  simp [unjoined]

/-- Every one of them was `Exec`ed. -/
theorem exec_of_unjoined {p c : ℕ} {id : SpaceId} :
    ∀ {log : List Event}, (id, c) ∈ unjoined log p → .exec p c id ∈ log := by
  intro log
  induction log using List.reverseRecOn with
  | nil => simp [unjoined]
  | append_singleton log e ih =>
      rw [unjoined_snoc]
      intro hmem
      have hold : (id, c) ∈ unjoined log p → .exec p c id ∈ log ++ [e] :=
        fun h => List.mem_append_left _ (ih h)
      cases e with
      | exec q d a =>
          rw [unjoinedStep] at hmem
          split at hmem
          · rename_i hq
            rcases List.mem_cons.mp hmem with heq | hmem
            · obtain ⟨rfl, rfl⟩ := Prod.mk.inj heq
              simp [hq]
            · exact hold hmem
          · exact hold hmem
      | joined q a v =>
          rw [unjoinedStep] at hmem
          split at hmem
          · exact hold (List.mem_of_mem_eraseP hmem)
          · exact hold hmem
      | exit d v => exact hold hmem
      | killed d => exact hold hmem

/-- Removing the first one under an id. -/
theorem eraseP_of_find? {α : Type} {p : α → Bool} {l : List α} {y : α}
    (h : l.find? p = some y) :
    p y = true ∧ ∃ l₁ l₂, l = l₁ ++ y :: l₂ ∧ l.eraseP p = l₁ ++ l₂ := by
  obtain ⟨hy, l₁, l₂, rfl, hl₁⟩ := List.find?_eq_some_iff_append.mp h
  refine ⟨hy, l₁, l₂, rfl, ?_⟩
  rw [List.eraseP_append_right _ fun x hx => by simpa using hl₁ x hx,
    List.eraseP_cons_of_pos hy]

theorem find?_eraseP_of_ne {a id : SpaceId} (hne : a ≠ id) (l : List (SpaceId × ℕ)) :
    (l.eraseP fun x => x.1 == a).find? (fun x => x.1 == id) =
      l.find? fun x => x.1 == id := by
  induction l with
  | nil => rfl
  | cons x l ih =>
      by_cases hx : x.1 = a
      · rw [List.eraseP_cons_of_pos (by simpa using hx),
          List.find?_cons_of_neg (by simpa [hx] using hne)]
      · rw [List.eraseP_cons_of_neg (by simpa using hx), List.find?_cons, List.find?_cons, ih]

/-- The child that waits to be joined is the first one under its id. -/
theorem find_unjoined {p c : ℕ} {id : SpaceId} (h : Pending log p id c) :
    (unjoined log p).find? (fun x => x.1 == id) = some (id, c) := by
  obtain ⟨l₁, l₂, rfl, hl⟩ := h
  induction l₂ using List.reverseRecOn with
  | nil => simp [unjoined_snoc, unjoinedStep]
  | append_singleton l₂ e ih =>
      have hrest := ih fun x hx => hl x (List.mem_append_left _ hx)
      have he := hl e (by simp)
      rw [show l₁ ++ .exec p c id :: (l₂ ++ [e]) = (l₁ ++ .exec p c id :: l₂) ++ [e] by simp,
        unjoined_snoc]
      cases e with
      | exec q d a =>
          rw [unjoinedStep]
          split
          · rename_i hq
            have hne : a ≠ id := by
              rintro rfl
              exact he (Or.inl ⟨d, by rw [hq]⟩)
            simpa [hne] using hrest
          · exact hrest
      | joined q a v =>
          rw [unjoinedStep]
          split
          · rename_i hq
            have hne : a ≠ id := by
              rintro rfl
              exact he (Or.inr ⟨v, by rw [hq]⟩)
            rw [find?_eraseP_of_ne hne]
            exact hrest
          · exact hrest
      | exit d v => exact hrest
      | killed d => exact hrest

/-- Who has ended does not matter here. -/
theorem unjoined_snoc_other {e : Event} (hexec : ∀ p c id, e ≠ .exec p c id)
    (hjoin : ∀ p id v, e ≠ .joined p id v) (p : ℕ) :
    unjoined (log ++ [e]) p = unjoined log p := by
  rw [unjoined_snoc]
  cases e with
  | exec q c id => exact absurd rfl (hexec q c id)
  | joined q id v => exact absurd rfl (hjoin q id v)
  | exit c v => rfl
  | killed c => rfl

/-! ## §3  The invariant -/

/-- **What the tables and the threads have to do with the log.** -/
structure KinInv (cores : SpaceId → Option Core) (nextTid : ℕ) (log : List Event) :
    Prop where
  exec_lt : ∀ p c id, .exec p c id ∈ log → p < nextTid ∧ c < nextTid
  /-- A process is `Exec`ed once. -/
  exec_once : ∀ p q c id id', .exec p c id ∈ log → .exec q c id' ∈ log → p = q ∧ id = id'
  /-- While it runs it is at its address, and was not joined. -/
  living : ∀ p c id, .exec p c id ∈ log → ¬ Terminated log c →
    (∃ u, cores id = some u ∧ u.tid = c) ∧ (id, c) ∈ unjoined log p
  table : ∀ a p, cores a = some p → p.done = false → ∀ id,
    p.jtable.entriesFor id = (unjoined log p.tid).countP fun x => x.1 == id

/-- **What the running thread can still reach.** A carcass is not in its table:
it has not come back from `SWITCH` since that thread was alive. -/
structure ReachInv (s : Sys) : Prop where
  carcass : s.threadToBeDestroyed ≠ NULL → ∀ t, s.heap s.currentThread = some t →
    t.cont ≠ .finished → ∀ i, ¬ t.jtable.Holds i s.threadToBeDestroyed
  fresh : ∀ a t, s.heap a = some t → t.cont = .fresh → ∀ i, (t.jtable i).inUse = false

/-! ## §4  Children, joined and not -/

variable {cores cores' : SpaceId → Option Core} {nextTid : ℕ}

/-- **The same threads with the same children.** -/
theorem KinInv.back (h : KinInv cores nextTid log)
    (hback : ∀ a c', cores' a = some c' → c'.done = false → ∃ c, cores a = some c ∧
      c.tid = c'.tid ∧ c.done = false ∧ ∀ i id, c'.jtable.Holds i id ↔ c.jtable.Holds i id)
    (hforth : ∀ a c, cores a = some c → ¬ Terminated log c.tid →
      ∃ c', cores' a = some c' ∧ c'.tid = c.tid) : KinInv cores' nextTid log where
  exec_lt := h.exec_lt
  exec_once := h.exec_once
  living p c id he hterm := by
    obtain ⟨⟨u, hu, htid⟩, hmem⟩ := h.living p c id he hterm
    obtain ⟨u', hu', htid'⟩ := hforth id u hu (htid ▸ hterm)
    exact ⟨⟨u', hu', htid'.trans htid⟩, hmem⟩
  table a p' hp' hdone id := by
    obtain ⟨p, hp, htid, hd, hholds⟩ := hback a p' hp' hdone
    rw [JoinTable.entriesFor_congr hholds, ← htid]
    exact h.table a p hp hd id

/-- The end of a process is logged. -/
theorem KinInv.snoc_other (h : KinInv cores nextTid log) {e : Event}
    (hexec : ∀ p c id, e ≠ .exec p c id) (hjoin : ∀ p id v, e ≠ .joined p id v) :
    KinInv cores nextTid (log ++ [e]) := by
  have hmem : ∀ {p c id}, Event.exec p c id ∈ log ++ [e] → .exec p c id ∈ log := by
    intro p c id he
    rcases List.mem_append.mp he with he | he
    · exact he
    · exact absurd (List.mem_singleton.mp he).symm (hexec p c id)
  refine ⟨fun p c id he => h.exec_lt p c id (hmem he),
    fun p q c id id' he he' => h.exec_once p q c id id' (hmem he) (hmem he'), ?_, ?_⟩
  · intro p c id he hterm
    rw [unjoined_snoc_other hexec hjoin]
    exact h.living p c id (hmem he) fun ht => hterm ht.mono
  · intro a p hp hdone id
    rw [unjoined_snoc_other hexec hjoin]
    exact h.table a p hp hdone id

theorem countP_cons_id (x : SpaceId × ℕ) (l : List (SpaceId × ℕ)) (id : SpaceId) :
    (x :: l).countP (fun y => y.1 == id) =
      l.countP (fun y => y.1 == id) + if x.1 = id then 1 else 0 := by
  rw [List.countP_cons]
  simp only [beq_iff_eq]

/-- Who has not been born has no children. -/
theorem KinInv.unjoined_unborn (h : KinInv cores nextTid log) : unjoined log nextTid = [] := by
  refine List.eq_nil_iff_forall_not_mem.mpr ?_
  rintro ⟨id, c⟩ hmem
  exact Nat.lt_irrefl _ (h.exec_lt _ c id (exec_of_unjoined hmem)).1

/-- **`Exec`**: one more child. -/
theorem KinInv.exec (h : KinInv cores nextTid log) (htids : TidInv cores nextTid)
    {a b : SpaceId} {p : Core} {pos : Fin MAXENTRIES} {pid : BitVec 32}
    (hp : cores a = some p) (hdone : p.done = false) (hb : cores b = none)
    (hpos : (p.jtable pos).inUse = false) :
    KinInv (Function.update (Function.update cores a (some { p with
        jtable := Function.update p.jtable pos ⟨true, b, pid, CODENOTENDED⟩ }))
        b (some ⟨nextTid, pid, a, JoinTable.new, false⟩)) (nextTid + 1)
      (log ++ [.exec p.tid nextTid b]) := by
  have hlt := htids.tid_lt a p hp
  have hunjoined : ∀ q, unjoined (log ++ [.exec p.tid nextTid b]) q =
      if p.tid = q then (b, nextTid) :: unjoined log q else unjoined log q := by
    intro q
    rw [unjoined_snoc, unjoinedStep]
  have hcases : ∀ {q c id}, Event.exec q c id ∈ log ++ [.exec p.tid nextTid b] →
      .exec q c id ∈ log ∨ (q = p.tid ∧ c = nextTid ∧ id = b) := by
    intro q c id he
    rcases List.mem_append.mp he with he | he
    · exact Or.inl he
    · exact Or.inr (by simpa using he)
  refine ⟨?_, ?_, ?_, ?_⟩
  · intro q c id he
    rcases hcases he with he | ⟨rfl, rfl, rfl⟩
    · have := h.exec_lt q c id he
      omega
    · omega
  · intro q r c id id' he he'
    rcases hcases he with hold | ⟨rfl, rfl, rfl⟩
    · rcases hcases he' with hold' | ⟨-, hnew, -⟩
      · exact h.exec_once q r c id id' hold hold'
      · exact absurd (h.exec_lt _ _ _ hold).2 (Nat.not_lt_of_le (Nat.le_of_eq hnew.symm))
    · rcases hcases he' with hold' | ⟨rfl, -, rfl⟩
      · exact absurd (h.exec_lt _ _ _ hold').2 (Nat.lt_irrefl _)
      · exact ⟨rfl, rfl⟩
  · intro q c id he hterm
    rw [hunjoined]
    rcases hcases he with he | ⟨rfl, rfl, rfl⟩
    · obtain ⟨⟨u, hu, htid⟩, hmem⟩ := h.living q c id he fun ht => hterm ht.mono
      constructor
      · have hne : id ≠ b := by
          rintro rfl
          rw [hb] at hu
          cases hu
        by_cases hid : id = a
        · subst hid
          rw [hp] at hu
          cases hu
          refine ⟨{ p with
            jtable := Function.update p.jtable pos ⟨true, b, pid, CODENOTENDED⟩ }, ?_, htid⟩
          rw [Function.update_of_ne hne, Function.update_self]
        · exact ⟨u, by rw [Function.update_of_ne hne, Function.update_of_ne hid, hu], htid⟩
      · split
        · exact List.mem_cons_of_mem _ hmem
        · exact hmem
    · refine ⟨⟨_, Function.update_self .., rfl⟩, ?_⟩
      rw [if_pos rfl]
      exact List.mem_cons_self
  · intro x c hc hcd id
    rw [hunjoined]
    rcases update_eq_some.mp hc with ⟨-, heq⟩ | ⟨-, hc⟩
    · cases heq
      rw [if_neg (Nat.ne_of_lt hlt), h.unjoined_unborn]
      exact JoinTable.entriesFor_new id
    rcases update_eq_some.mp hc with ⟨-, heq⟩ | ⟨hx, hc⟩
    · cases heq
      have hcount := h.table a p hp hdone id
      have hupd := JoinTable.entriesFor_update p.jtable pos ⟨true, b, pid, CODENOTENDED⟩ id
      simp only [hpos, Bool.false_eq_true, false_and, if_false, true_and] at hupd
      rw [if_pos rfl, countP_cons_id, ← hcount, ← hupd]
      rfl
    · have hne : p.tid ≠ c.tid := fun heq => hx (htids.tid_inj _ _ _ _ hc hp heq.symm)
      rw [if_neg hne]
      exact h.table x c hc hcd id

/-- **A `Join` returns**: the child it returns for has ended. -/
theorem KinInv.joined (h : KinInv cores nextTid log) (htids : TidInv cores nextTid)
    {a id : SpaceId} {p p' : Core} {pos : Fin MAXENTRIES} {v : BitVec 32}
    (hp : cores a = some p) (hdone : p.done = false) (hpos : p.jtable.Holds pos id)
    (htid : p'.tid = p.tid)
    (hjt : p'.jtable = Function.update p.jtable pos { p.jtable pos with inUse := false })
    (hok : JoinOk log p.tid id v) :
    KinInv (Function.update cores a (some p')) nextTid (log ++ [.joined p.tid id v]) := by
  obtain ⟨c₀, hexit, hpend⟩ := hok
  obtain ⟨-, l₁, l₂, hl, herase⟩ := eraseP_of_find? (find_unjoined hpend)
  have hself : unjoined (log ++ [.joined p.tid id v]) p.tid = l₁ ++ l₂ := by
    rw [unjoined_snoc, unjoinedStep, if_pos rfl, herase]
  have hother : ∀ q ≠ p.tid, unjoined (log ++ [.joined p.tid id v]) q = unjoined log q := by
    intro q hq
    rw [unjoined_snoc, unjoinedStep, if_neg (Ne.symm hq)]
  have hmem : ∀ {q c x}, Event.exec q c x ∈ log ++ [.joined p.tid id v] →
      .exec q c x ∈ log := by
    intro q c x he
    simpa using he
  refine ⟨fun q c x he => h.exec_lt q c x (hmem he),
    fun q r c x y he he' => h.exec_once q r c x y (hmem he) (hmem he'), ?_, ?_⟩
  · intro q c x he hterm
    have hterm' : ¬ Terminated log c := fun ht => hterm ht.mono
    obtain ⟨⟨u, hu, hut⟩, hunj⟩ := h.living q c x (hmem he) hterm'
    constructor
    · by_cases hx : x = a
      · subst hx
        rw [hp] at hu
        cases hu
        exact ⟨p', Function.update_self .., htid.trans hut⟩
      · exact ⟨u, by rw [Function.update_of_ne hx, hu], hut⟩
    · by_cases hq : q = p.tid
      · subst hq
        rw [hself]
        rw [hl] at hunj
        rcases List.mem_append.mp hunj with hx | hx
        · exact List.mem_append_left _ hx
        rcases List.mem_cons.mp hx with heq | hx
        · obtain ⟨-, rfl⟩ := Prod.mk.inj heq
          exact absurd (Or.inl ⟨v, hexit⟩) hterm'
        · exact List.mem_append_right _ hx
      · rw [hother q hq]
        exact hunj
  · intro x c hc hcd y
    rcases update_eq_some.mp hc with ⟨-, heq⟩ | ⟨hx, hc⟩
    · cases heq
      have hcount := h.table a p hp hdone y
      have hupd := JoinTable.entriesFor_update p.jtable pos
        { p.jtable pos with inUse := false } y
      have hold : (if (p.jtable pos).inUse = true ∧ (p.jtable pos).id = y then 1 else 0) =
          if id = y then 1 else 0 := by
        simp only [hpos.1, hpos.2, true_and]
      rw [hold] at hupd
      simp only [Bool.false_eq_true, false_and, if_false, Nat.add_zero] at hupd
      rw [hl, List.countP_append, countP_cons_id, ← hupd] at hcount
      rw [htid, hself, hjt, List.countP_append]
      exact Nat.add_right_cancel (hcount.trans (Nat.add_assoc _ _ _).symm)
    · have hne : c.tid ≠ p.tid := fun heq => hx (htids.tid_inj _ _ _ _ hc hp heq)
      rw [hother _ hne]
      exact h.table x c hc hcd y

/-- **The next thread runs**: a fresh one, or the carcass is gone. What has not
ended is still there. -/
theorem runNext_carcass (hs : s.runNext = some s') :
    (s'.threadToBeDestroyed = NULL ∨
      (s'.threadToBeDestroyed = s.threadToBeDestroyed ∧
        ∃ t, s.heap s'.currentThread = some t ∧ t.cont = .fresh)) ∧
    (∀ log, Inv s log → ∀ {a c}, s.cores a = some c → ¬ Terminated log c.tid →
      s'.cores a = some c) := by
  rw [runNext_eq] at hs
  obtain ⟨s₁, hs₁, hback⟩ := Option.bind_eq_some_iff.mp hs
  have hsame := nextSwitch_sameJoin hs₁
  obtain ⟨-, a, l, u, -, hu, heq⟩ := nextSwitch_eq_some hs₁
  unfold afterSwitch at hback
  split at hback
  · cases hback
  rename_i t ht
  split at hback
  · rename_i hfresh
    cases hback
    have hcont : u.cont = t.cont := by
      rw [heq, currentThread_set, heap_set_self] at ht
      cases ht
      rfl
    have hset : SameJoin s₁ (s₁.set s₁.currentThread { t with cont := .starting }) :=
      sameJoin_set ht (by simp [Thread.core, hfresh])
    refine ⟨Or.inr ⟨hsame.carcass, u, ?_, hcont.trans hfresh⟩, fun _ _ b c hc _ => ?_⟩
    · rw [currentThread_set, heq, currentThread_set]
      exact hu
    · rw [(hsame.trans hset).cores]
      exact hc
  · obtain ⟨-, -, hnull, ⟨-, hcores⟩ | ⟨hne, -, hcores⟩⟩ := deleteCarcass_cases hback
    · refine ⟨Or.inl hnull, fun _ _ b c hc _ => ?_⟩
      rw [hcores, hsame.cores]
      exact hc
    · refine ⟨Or.inl hnull, fun log hi b c hc hterm => ?_⟩
      rw [hsame.carcass] at hcores hne
      obtain ⟨owner, hj⟩ := hi.join
      obtain ⟨d, hd, hdterm, -⟩ := hj.carcass hne
      rw [hcores, hsame.cores]
      refine update_eq_some.mpr (Or.inr ⟨?_, hc⟩)
      rintro rfl
      rw [hc] at hd
      cases hd
      exact hterm hdterm

/-- What is left after a dispatch, and what is gone: a carcass, which has ended. -/
theorem KinInv.runNext (h : KinInv s.cores s.nextTid log) (hi : Inv s log)
    (hs : s.runNext = some s') : KinInv s'.cores s'.nextTid log := by
  obtain ⟨hnext, hcores⟩ := runNext_cores hs
  rw [hnext]
  refine h.back (fun a c hc hdone => ⟨c, hcores a c hc, rfl, hdone, fun _ _ => Iff.rfl⟩) ?_
  intro a c hc hterm
  exact ⟨c, (runNext_carcass hs).2 _ hi hc hterm, rfl⟩

theorem KinInv.finish (h : KinInv s.cores s.nextTid log) (hs : s.finish = some s')
    {t : Thread} (ht : s.heap s.currentThread = some t) (hterm : Terminated log t.tid)
    (hcar : s.threadToBeDestroyed ≠ NULL → ∃ c, s.cores s.threadToBeDestroyed = some c ∧
      Terminated log c.tid) : KinInv s'.cores s'.nextTid log := by
  obtain ⟨-, hnext, -, -, ⟨c₀, hc₀, -, hdone₀, -⟩, hback, hforth⟩ := finish_cores hs ht
  rw [hnext]
  refine h.back ?_ ?_
  · intro a c hc hdone
    by_cases ha : a = s.currentThread
    · rw [ha, hc₀] at hc
      cases hc
      rw [hdone₀] at hdone
      cases hdone
    · obtain ⟨d, hd, hk⟩ := hback a c ha hc
      refine ⟨d, hd, hk.tid.symm, hk.done ▸ hdone, fun i id => ?_⟩
      rw [hk.jtable]
  · intro a c hc hct
    have ha : a ≠ s.currentThread := by
      rintro rfl
      rw [cores_of_heap ht] at hc
      cases hc
      exact hct hterm
    have hacar : s.threadToBeDestroyed ≠ NULL → a ≠ s.threadToBeDestroyed := by
      rintro hne rfl
      obtain ⟨d, hd, hdt⟩ := hcar hne
      rw [hc] at hd
      cases hd
      exact hct hdt
    obtain ⟨c', hc', hk⟩ := hforth a c ha hacar hc
    exact ⟨c', hc', hk.tid⟩

/-! ## §5  Carcasses and tables -/

theorem Evolves.fresh {t t' : Thread} (h : Evolves t t') (hf : t'.cont = .fresh) :
    t.cont = .fresh := by
  rcases h.cont with heq | ⟨-, hs⟩ | hfin
  · exact heq.symm.trans hf
  · rw [hf] at hs
    cases hs
  · rw [hf] at hfin
    cases hfin

theorem Evolves.not_finished {t t' : Thread} (h : Evolves t t')
    (hc : t'.cont ≠ .finished) : t.cont ≠ .finished := by
  intro hf
  rcases h.cont with heq | ⟨hfresh, -⟩ | hfin
  · exact hc (heq.trans hf)
  · rw [hf] at hfresh
    cases hfresh
  · exact hc hfin

/-- A table with no entry that was not there before. -/
theorem empty_of_holds {entries entries' : JoinTable}
    (h : ∀ i id, entries'.Holds i id → entries.Holds i id)
    (hempty : ∀ i, (entries i).inUse = false) (i : Fin MAXENTRIES) :
    (entries' i).inUse = false := by
  cases huse : (entries' i).inUse with
  | false => rfl
  | true =>
      have hold := (h i _ ⟨huse, rfl⟩).1
      rw [hempty i] at hold
      cases hold

theorem ReachInv.fresh_of (h : ReachInv s) (hev : Evolved s s')
    (hback : ∀ a c', s'.cores a = some c' → ∃ c, s.cores a = some c ∧
      ∀ i id, c'.jtable.Holds i id → c.jtable.Holds i id)
    {a : SpaceId} {t' : Thread} (ht' : s'.heap a = some t') (hf : t'.cont = .fresh) :
    ∀ i, (t'.jtable i).inUse = false := by
  obtain ⟨t, ht, hevol⟩ := hev a t' ht'
  obtain ⟨c, hcore, hholds⟩ := hback a _ (cores_of_heap ht')
  rw [cores_of_heap ht] at hcore
  cases hcore
  exact empty_of_holds hholds (h.fresh a t ht (hevol.fresh hf))

/-- Nobody else runs, and no table has got a new entry. -/
theorem ReachInv.evolve (h : ReachInv s) (hev : Evolved s s')
    (hcur : s'.currentThread = s.currentThread)
    (hcar : s'.threadToBeDestroyed = s.threadToBeDestroyed)
    (hback : ∀ a c', s'.cores a = some c' → ∃ c, s.cores a = some c ∧
      ∀ i id, c'.jtable.Holds i id → c.jtable.Holds i id) : ReachInv s' := by
  refine ⟨?_, fun a t' ht' hf => h.fresh_of hev hback ht' hf⟩
  intro hne t' ht' hc i hi
  obtain ⟨t, ht, hevol⟩ := hev _ t' ht'
  obtain ⟨c, hcore, hholds⟩ := hback _ _ (cores_of_heap ht')
  rw [cores_of_heap ht] at hcore
  cases hcore
  rw [hcur] at ht
  rw [hcar] at hne hi
  exact h.carcass hne t ht (hevol.not_finished hc) i (hholds i _ hi)

theorem ReachInv.same (h : ReachInv s) (hev : Evolved s s')
    (hcur : s'.currentThread = s.currentThread) (hsame : SameJoin s s') : ReachInv s' := by
  refine h.evolve hev hcur hsame.carcass fun a c hc => ⟨c, ?_, fun _ _ hi => hi⟩
  rw [← hsame.cores]
  exact hc

/-- Whoever comes back from `SWITCH` finds no carcass any more; whoever does not
has no children yet. -/
theorem ReachInv.runNext (h : ReachInv s) (hs : s.runNext = some s') : ReachInv s' := by
  have hback : ∀ a c', s'.cores a = some c' → ∃ c, s.cores a = some c ∧
      ∀ i id, c'.jtable.Holds i id → c.jtable.Holds i id :=
    fun a c hc => ⟨c, (runNext_cores hs).2 a c hc, fun _ _ hi => hi⟩
  refine ⟨?_, fun a t' ht' hf => h.fresh_of (runNext_evolved hs) hback ht' hf⟩
  rcases (runNext_carcass hs).1 with hnull | ⟨-, t, ht, hfresh⟩
  · exact fun hne => absurd hnull hne
  · intro _ t' ht' _ i hi
    obtain ⟨c, hcore, hholds⟩ := hback _ _ (cores_of_heap ht')
    rw [cores_of_heap ht] at hcore
    cases hcore
    have huse := empty_of_holds hholds (h.fresh _ t ht hfresh) i
    rw [show (t'.core.jtable i).inUse = true from hi.1] at huse
    cases huse

/-- The running thread's own table changes. -/
theorem ReachInv.set (h : ReachInv s) {t t' : Thread}
    (ht : s.heap s.currentThread = some t) (hc : t.cont ≠ .finished)
    (hf : t'.cont ≠ .fresh)
    (hholds : ∀ i, t'.jtable.Holds i s.threadToBeDestroyed →
      t.jtable.Holds i s.threadToBeDestroyed ∨ s.threadToBeDestroyed = NULL) :
    ReachInv (s.set s.currentThread t') := by
  constructor
  · intro hne u hu _ i hi
    rw [currentThread_set, heap_set_self] at hu
    cases hu
    rcases hholds i hi with hold | hnull
    · exact h.carcass hne t ht hc i hold
    · exact hne hnull
  · intro a u hu hfresh
    by_cases ha : a = s.currentThread
    · subst ha
      rw [heap_set_self] at hu
      cases hu
      exact absurd hfresh hf
    · exact h.fresh a u (by simpa [Sys.set, ha] using hu) hfresh

theorem ReachInv.add (h : ReachInv s) {tmp : SpaceId} {u : Thread}
    (htmp : tmp ≠ s.currentThread) (hu : ∀ i, (u.jtable i).inUse = false) :
    ReachInv (s.set tmp u) := by
  constructor
  · intro hne t ht hc i hi
    refine h.carcass hne t ?_ hc i hi
    simpa [Sys.set, Ne.symm htmp] using ht
  · intro a v hv hfresh
    by_cases ha : a = tmp
    · subst ha
      rw [heap_set_self] at hv
      cases hv
      exact hu
    · exact h.fresh a v (by simpa [Sys.set, ha] using hv) hfresh

theorem ReachInv.finish (h : ReachInv s) (hs : s.finish = some s') : ReachInv s' := by
  obtain ⟨t, s₁, t₁, ht, hdel, ht₁, heq⟩ := finish_steps hs
  obtain ⟨-, -, hev, -, ⟨c₀, hc₀, -, -, hempty⟩, hother, -⟩ := finish_cores hs ht
  refine ⟨?_, fun a t' ht' hf => h.fresh_of hev ?_ ht' hf⟩
  · -- the running thread is over
    intro _ t' ht' hc
    rw [heq] at ht'
    have hself : (s₁.set s₁.currentThread { t₁ with
        jtable := t₁.jtable.clear, status := .BLOCKED, cont := .finished }).heap
          s₁.currentThread = some t' := ht'
    rw [heap_set_self] at hself
    cases hself
    exact absurd rfl hc
  · intro a c' hc'
    by_cases ha : a = s.currentThread
    · subst ha
      rw [hc₀] at hc'
      cases hc'
      refine ⟨_, cores_of_heap ht, fun i id hi => ?_⟩
      have huse := hi.1
      rw [hempty i] at huse
      cases huse
    · obtain ⟨d, hd, hk⟩ := hother a c' ha hc'
      exact ⟨d, hd, fun i id hi => hk.jtable ▸ hi⟩

/-! ## §6  Every step -/

/-- What a step keeps. -/
structure FamilyInv (s : Sys) (log : List Event) : Prop where
  join : Inv s log
  sched : ∃ slog, SchedInv s slog
  kin : KinInv s.cores s.nextTid log
  reach : ReachInv s

/-- The part that has nothing to do with the statuses. -/
def Family (s : Sys) (log : List Event) : Prop :=
  KinInv s.cores s.nextTid log ∧ ReachInv s

theorem Family.same (h : Family s log) (hev : Evolved s s')
    (hcur : s'.currentThread = s.currentThread) (hsame : SameJoin s s') :
    Family s' log := by
  refine ⟨?_, h.2.same hev hcur hsame⟩
  rw [hsame.cores, hsame.nextTid]
  exact h.1

theorem Family.runNext (h : Family s log) (hi : Inv s log) (hs : s.runNext = some s') :
    Family s' log :=
  ⟨h.1.runNext hi hs, h.2.runNext hs⟩

theorem Family.yield (h : Family s log) (hi : Inv s log) (hs : s.yield = some s') :
    Family s' log := by
  obtain ⟨t, s₁, ht, hready, hrun⟩ := yield_steps hs
  have hset : SameJoin s (s.set s.currentThread { t with cpu := t.cpu + s.quantum }) :=
    sameJoin_set ht rfl
  have hev : Evolved s (s.set s.currentThread { t with cpu := t.cpu + s.quantum }) :=
    evolved_set ht ⟨rfl, Or.inl rfl, Or.inl⟩
  obtain ⟨hsame, hcur⟩ := readyToRun_sameJoin hready
  have hsame' := hset.trans hsame
  have h₁ := h.same (hev.trans (readyToRun_evolved hready).1) hcur hsame'
  exact h₁.runNext (hsame'.inv hi) hrun

theorem Family.exec (h : Family s log) (hi : Inv s log) {t : Thread} {tmp : SpaceId}
    {prio : BitVec 32} (ht : s.heap s.currentThread = some t) (hc : t.cont = .user)
    (hfree : s.heap tmp = none) (hs : s.exec tmp prio = some s') :
    Family s' (log ++ [.exec t.tid s.nextTid tmp]) := by
  have hnone : s.cores tmp = none := by simp [cores, hfree]
  have htmp : tmp ≠ s.currentThread := by
    rintro rfl
    rw [hfree] at ht
    cases ht
  constructor
  · obtain ⟨pos, hpos, -, hcores, -, hnext, -⟩ := exec_steps hs ht
    rw [hcores, hnext]
    exact h.1.exec hi.tids (cores_of_heap ht) (t.not_done (by simp [hc])) hnone hpos
  · simp only [Sys.exec, ht, Option.bind_eq_bind, Option.bind_some,
      Option.bind_eq_some_iff] at hs
    obtain ⟨jt, hadd, hready⟩ := hs
    obtain ⟨pos, -, -, rfl⟩ := JoinTable.addChild_inv hadd
    obtain ⟨owner, hj⟩ := hi.join
    have hparent : ReachInv (s.set s.currentThread { t with
        jtable := Function.update t.jtable pos ⟨true, tmp, s.serialPid, CODENOTENDED⟩ }) := by
      apply h.2.set ht (by simp [hc]) (by simp [hc])
      -- the carcass still has its address
      intro i hi'
      by_cases hip : i = pos
      · subst hip
        right
        by_contra hne
        obtain ⟨d, hd, -⟩ := hj.carcass hne
        have heq : tmp = s.threadToBeDestroyed := by simpa [JoinTable.Holds] using hi'.2
        rw [← heq, hnone] at hd
        cases hd
      · left
        simpa [JoinTable.Holds, hip] using hi'
    have hchild := hparent.add (u := { Thread.new s.nextTid s.serialPid prio with
        parent := s.currentThread }) htmp (fun i => rfl)
    obtain ⟨hsame, hcur⟩ := readyToRun_sameJoin hready
    exact ReachInv.same (s := { (s.set s.currentThread { t with
        jtable := Function.update t.jtable pos
          ⟨true, tmp, s.serialPid, CODENOTENDED⟩ }).set tmp
      { Thread.new s.nextTid s.serialPid prio with parent := s.currentThread } with
        serialPid := s.serialPid + 1, nextTid := s.nextTid + 1 })
      ⟨hchild.carcass, hchild.fresh⟩ (readyToRun_evolved hready).1 hcur hsame

theorem Family.finish (h : Family s log) {e : Event} (hs : s.finish = some s') {t : Thread}
    (ht : s.heap s.currentThread = some t)
    (hcar : s.threadToBeDestroyed ≠ NULL → ∃ c, s.cores s.threadToBeDestroyed = some c ∧
      Terminated log c.tid)
    (he : (∃ v, e = .exit t.tid v) ∨ e = .killed t.tid) : Family s' (log ++ [e]) := by
  have hexec : ∀ p c id, e ≠ .exec p c id := by
    rintro p c id rfl
    rcases he with ⟨v, he⟩ | he <;> cases he
  have hjoin : ∀ p id v, e ≠ .joined p id v := by
    rintro p id v rfl
    rcases he with ⟨v, he⟩ | he <;> cases he
  have hterm : Terminated (log ++ [e]) t.tid := by
    rcases he with ⟨v, rfl⟩ | rfl
    · exact Or.inl ⟨v, by simp⟩
    · exact Or.inr (by simp)
  refine ⟨(h.1.snoc_other hexec hjoin).finish hs ht hterm fun hne => ?_, h.2.finish hs⟩
  obtain ⟨c, hc, hct⟩ := hcar hne
  exact ⟨c, hc, hct.mono⟩

theorem Family.joinLoop (h : Family s log) (hi : Inv s log) {t : Thread} {id : SpaceId}
    {spid : BitVec 32} (ht : s.heap s.currentThread = some t) (hc : t.cont ≠ .finished)
    (hs : s.joinLoop id spid = some s') : Family s' (log ++ joinEvent t id spid) := by
  have hdone := t.not_done hc
  have hok := (joinLoop_inv hs hi ht hdone).2
  obtain ⟨pos, hans, ⟨-, hev, rfl⟩ | ⟨-, hev, rfl⟩⟩ := joinLoop_steps hs ht
  · rw [hev, List.append_nil]
    have hsame : SameJoin s (s.set s.currentThread
        { t with cont := .joining id spid, status := .BLOCKED }) :=
      sameJoin_set ht (by simp [Thread.core, hc])
    refine ⟨?_, h.2.set ht hc (by simp) fun i hi' => Or.inl hi'⟩
    rw [hsame.cores, hsame.nextTid]
    exact h.1
  · rw [hev] at hok ⊢
    constructor
    · rw [cores_set]
      exact h.1.joined hi.tids (cores_of_heap ht) hdone hans.1 rfl rfl
        (hok _ _ _ (List.mem_singleton.mpr rfl))
    · refine h.2.set ht hc (by simp) fun i hi' => Or.inl ?_
      by_cases hip : i = pos
      · subst hip
        have huse := hi'.1
        simp at huse
      · simpa [JoinTable.Holds, hip] using hi'

/-- Setting a code moves no entry. -/
theorem JoinTable.holds_setCode {entries : JoinTable} {pos : Fin MAXENTRIES}
    {code : BitVec 32} (i : Fin MAXENTRIES) (id : SpaceId) :
    JoinTable.Holds (Function.update entries pos { entries pos with code := code }) i id ↔
      entries.Holds i id := by
  by_cases hip : i = pos
  · subst hip
    simp [JoinTable.Holds]
  · simp [JoinTable.Holds, hip]

/-- The parent gets the code; it is not the one that ends. -/
theorem Family.setCode (h : Family s log) {s₁ : Sys} {p : Thread} {a : SpaceId}
    {pos : Fin MAXENTRIES} {code : BitVec 32} (hp : s.heap a = some p)
    (hcores : s₁.cores = Function.update s.cores a (some { p.core with
      jtable := Function.update p.jtable pos { p.jtable pos with code := code } }))
    (hcur : s₁.currentThread = s.currentThread)
    (hcar : s₁.threadToBeDestroyed = s.threadToBeDestroyed)
    (hnext : s₁.nextTid = s.nextTid) (hev : Evolved s s₁) : Family s₁ log := by
  have hback : ∀ a' c', s₁.cores a' = some c' → ∃ c, s.cores a' = some c ∧ c.tid = c'.tid ∧
      c.done = c'.done ∧ ∀ i id, c'.jtable.Holds i id ↔ c.jtable.Holds i id := by
    intro a' c' hc'
    rw [hcores] at hc'
    rcases update_eq_some.mp hc' with ⟨rfl, heq⟩ | ⟨-, hc'⟩
    · cases heq
      exact ⟨_, cores_of_heap hp, rfl, rfl, fun i id => JoinTable.holds_setCode i id⟩
    · exact ⟨c', hc', rfl, rfl, fun _ _ => Iff.rfl⟩
  constructor
  · rw [hnext]
    refine h.1.back ?_ ?_
    · intro a' c' hc' hdone
      obtain ⟨c, hc, htid, hd, hholds⟩ := hback a' c' hc'
      exact ⟨c, hc, htid, hd.trans hdone, hholds⟩
    · intro a' c hc _
      rw [hcores]
      by_cases ha : a' = a
      · subst ha
        rw [cores_of_heap hp] at hc
        cases hc
        exact ⟨_, Function.update_self .., rfl⟩
      · exact ⟨c, by rw [Function.update_of_ne ha, hc], rfl⟩
  · refine h.2.evolve hev hcur hcar fun a' c' hc' => ?_
    obtain ⟨c, hc, -, -, hholds⟩ := hback a' c' hc'
    exact ⟨c, hc, fun i id => (hholds i id).mp⟩

/-- What waits to be deleted has ended. -/
theorem Inv.carcass_ended (hi : Inv s log) (hne : s.threadToBeDestroyed ≠ NULL) :
    ∃ c, s.cores s.threadToBeDestroyed = some c ∧ Terminated log c.tid := by
  obtain ⟨owner, hj⟩ := hi.join
  obtain ⟨c, hc, hct, -⟩ := hj.carcass hne
  exact ⟨c, hc, hct⟩

theorem Family.exit (h : Family s log) (hi : Inv s log) {t : Thread} {code : BitVec 32}
    (ht : s.heap s.currentThread = some t) (hs : s.exit code = some s') :
    Family s' (log ++ [.exit t.tid code]) := by
  rcases exit_steps hs ht with ⟨-, hfin⟩ |
    ⟨-, p, pos, s₁, hp, -, hcores, hcur, hcar, hnext, hev, -, hfin⟩
  · exact h.finish hfin ht hi.carcass_ended (Or.inl ⟨code, rfl⟩)
  · obtain ⟨t₁, -, -, ht₁, -⟩ := finish_steps hfin
    obtain ⟨u, hu, hevol⟩ := hev _ t₁ ht₁
    rw [hcur, ht] at hu
    cases hu
    refine (h.setCode hp hcores hcur hcar hnext hev).finish hfin ht₁ ?_
      (Or.inl ⟨code, by rw [hevol.tid]⟩)
    rw [hcar, hcores]
    intro hne
    obtain ⟨c, hc, hct⟩ := hi.carcass_ended hne
    by_cases hpar : s.threadToBeDestroyed = t.parent
    · rw [hpar, cores_of_heap hp] at hc
      cases hc
      rw [hpar, Function.update_self]
      exact ⟨_, rfl, hct⟩
    · exact ⟨c, by rw [Function.update_of_ne hpar, hc], hct⟩

theorem Family.start (h : Family s log) {t : Thread} (ht : s.heap s.currentThread = some t)
    (hc : t.cont = .starting) :
    Family (s.set s.currentThread { t with cont := .user }) log := by
  have hsame : SameJoin s (s.set s.currentThread { t with cont := .user }) :=
    sameJoin_set ht (by simp [Thread.core, hc])
  refine ⟨?_, h.2.set ht (by simp [hc]) (by simp) fun i hi => Or.inl hi⟩
  rw [hsame.cores, hsame.nextTid]
  exact h.1

/-- **The step lemma.** -/
theorem family_step {a : Act} (h : Family s log) (hi : Inv s log)
    (hstep : s.step a = some s') : Family s' (log ++ s.event a) := by
  have quiet : s.event a = [] → Family s' log → Family s' (log ++ s.event a) := by
    intro hev h'
    rw [hev, List.append_nil]
    exact h'
  cases step_cases hstep with
  | tick =>
      refine quiet ?_ (h.same (fun b u hu => ⟨u, hu, Evolves.refl u⟩) rfl ⟨rfl, rfl, rfl⟩)
      unfold event
      split <;> rfl
  | yield t s' ht hyield => exact quiet (by simp [event, ht]) (h.yield hi hyield)
  | dispatch t s' ht hrun => exact quiet (by simp [event, ht]) (h.runNext hi hrun)
  | start t ht hc => exact quiet (by simp [event, ht]) (h.start ht hc)
  | exec tmp prio t s' ht hst hc hnull hfree hexec =>
      rw [event_exec ht tmp prio]
      exact h.exec hi ht hc hfree hexec
  | exit code t s' ht hc hexit =>
      rw [event_exit ht code]
      exact h.exit hi ht hexit
  | join id stale t s' ht hc hjoin =>
      rw [event_join ht id stale]
      exact h.joinLoop hi ht (by simp [hc]) hjoin
  | resume id spid t s' ht hc hjoin =>
      rw [event_resume ht hc]
      exact h.joinLoop hi ht (by simp [hc]) hjoin
  | kill t s' ht hc hfin =>
      rw [event_kill ht]
      exact h.finish hfin ht hi.carcass_ended (Or.inr rfl)

theorem familyInv_step {a : Act} (h : FamilyInv s log) (hstep : s.step a = some s') :
    FamilyInv s' (log ++ s.event a) := by
  obtain ⟨slog, hsched⟩ := h.sched
  obtain ⟨hkin, hreach⟩ := family_step ⟨h.kin, h.reach⟩ h.join hstep
  exact ⟨(inv_step h.join hstep).1, ⟨_, (schedInv_step (a := .act a) hsched hstep).1⟩, hkin,
    hreach⟩

theorem familyInv_init (algorithm : Algorithm) {main : SpaceId} (hmain : main ≠ NULL) :
    FamilyInv (init algorithm main) [] := by
  refine ⟨inv_init algorithm hmain, ⟨[], schedInv_init algorithm hmain⟩,
    ⟨by simp, by simp, by simp, ?_⟩, ⟨fun hne => absurd rfl hne, ?_⟩⟩
  · intro a p hp _ id
    obtain ⟨t, ht, rfl⟩ := exists_heap_of_cores hp
    rw [(heap_init ht).2]
    exact JoinTable.entriesFor_new id
  · intro a t ht hf
    rw [(heap_init ht).2] at hf
    cases hf

/-! ## §7  What `ClearChildren` does, and when it does it right -/

/-- `ClearChildren` of the running thread follows no pointer to a thread that was
destroyed, and changes the parent of its own children only. -/
structure OrphansOwn (s : Sys) (log : List Event) (t : Thread) : Prop where
  accesses : ∀ i, (t.jtable i).inUse = true → ∃ u, s.heap (t.jtable i).id = some u
  changes : ∀ b u u', s.heap b = some u → clearParents s.heap t.jtable b = some u' →
    u'.parent ≠ u.parent → ∃ id, .exec t.tid u.tid id ∈ log

/-- No child of the process has ended and waits to be joined, unless another
child that is running has its address by now, or a thread without a parent. -/
def LeavesNoneEnded (s : Sys) (log : List Event) (t : Thread) : Prop :=
  ∀ x ∈ unjoined log t.tid,
    (∃ y ∈ unjoined log t.tid, y.1 = x.1 ∧ ¬ Terminated log y.2) ∨
    ∃ u, s.heap x.1 = some u ∧ u.parent = NULL

instance (log : List Event) (c : ℕ) : Decidable (Terminated log c) :=
  decidable_of_iff (log.any fun
      | .exit d _ => d = c
      | .killed d => d = c
      | _ => false) (by
    rw [List.any_eq_true]
    constructor
    · rintro ⟨e, he, heq⟩
      cases e with
      | exit d v => exact Or.inl ⟨v, by simpa [of_decide_eq_true heq] using he⟩
      | killed d => exact Or.inr (by simpa [of_decide_eq_true heq] using he)
      | _ => cases heq
    · rintro (⟨v, hv⟩ | hk)
      · exact ⟨_, hv, by simp⟩
      · exact ⟨_, hk, by simp⟩)

instance (s : Sys) (log : List Event) (t : Thread) : Decidable (LeavesNoneEnded s log t) :=
  decidable_of_iff (∀ x ∈ unjoined log t.tid,
      (∃ y ∈ unjoined log t.tid, y.1 = x.1 ∧ ¬ Terminated log y.2) ∨
      (s.heap x.1).any fun u => u.parent = NULL) (by
    refine forall₂_congr fun x _ => or_congr Iff.rfl ?_
    cases s.heap x.1 with
    | none => simp
    | some u => simp)

theorem clearParents_eq (heap : SpaceId → Option Thread) (entries : JoinTable) (b : SpaceId) :
    ((∃ i, entries.Holds i b) → clearParents heap entries b =
      (heap b).map fun child => { child with parent := NULL }) ∧
    ((¬ ∃ i, entries.Holds i b) → clearParents heap entries b = heap b) := by
  obtain ⟨hin, hout⟩ := clearParents_loop entries b (List.finRange MAXENTRIES) heap
  simp only [List.mem_finRange, true_and] at hin hout
  exact ⟨hin, hout⟩

/-- The entries of a live table are for the children that were not joined. -/
theorem FamilyInv.holds_iff (h : FamilyInv s log) {a : SpaceId} {t : Thread}
    (ht : s.heap a = some t) (hc : t.cont ≠ .finished) (id : SpaceId) :
    (∃ i, t.jtable.Holds i id) ↔ ∃ c, (id, c) ∈ unjoined log t.tid := by
  have hcount := h.kin.table a _ (cores_of_heap ht) (t.not_done hc) id
  rw [← JoinTable.entriesFor_pos, show t.jtable.entriesFor id = _ from hcount,
    List.countP_pos_iff]
  constructor
  · rintro ⟨⟨id', c⟩, hmem, heq⟩
    obtain rfl : id' = id := by simpa using heq
    exact ⟨c, hmem⟩
  · rintro ⟨c, hmem⟩
    exact ⟨(id, c), hmem, by simp⟩

/-- **The exact condition**, for one process that ends. -/
theorem orphansOwn_iff (h : FamilyInv s log) {t : Thread}
    (ht : s.heap s.currentThread = some t) (hc : t.cont = .user) :
    OrphansOwn s log t ↔ LeavesNoneEnded s log t := by
  have hnf : t.cont ≠ .finished := by simp [hc]
  constructor
  · rintro ⟨haccess, hchanges⟩ ⟨id, c⟩ hmem
    obtain ⟨i, huse, rfl⟩ := (h.holds_iff ht hnf id).mpr ⟨c, hmem⟩
    obtain ⟨u, hu⟩ := haccess i huse
    by_cases hpar : u.parent = NULL
    · exact Or.inr ⟨u, hu, hpar⟩
    · -- the thread loses its parent, so it is a child, and it is not over
      have hclear := (clearParents_eq s.heap t.jtable (t.jtable i).id).1 ⟨i, huse, rfl⟩
      rw [hu, Option.map_some] at hclear
      obtain ⟨id', hexec⟩ := hchanges _ u _ hu hclear (Ne.symm hpar)
      have hcore := cores_of_heap hu
      have hdone : u.core.done = false := by
        cases hd : u.core.done with
        | false => rfl
        | true =>
            obtain ⟨slog, hsched⟩ := h.sched
            have hcar := hsched.carcass.last _ _ hcore hd
            have hne : s.threadToBeDestroyed ≠ NULL := by
              rw [← hcar]
              rintro hnull
              rw [hnull, h.join.tids.null] at hcore
              cases hcore
            exact absurd ⟨huse, hcar⟩ (h.reach.carcass hne t ht hnf i)
      have halive := h.join.alive _ _ hcore hdone
      obtain ⟨⟨v, hv, hvt⟩, hunj⟩ := h.kin.living _ _ _ hexec halive
      have hid : id' = (t.jtable i).id := h.join.tids.tid_inj _ _ _ _ hv hcore hvt
      exact Or.inl ⟨_, hunj, hid, halive⟩
  · intro hleaves
    have hentry : ∀ id, (∃ i, t.jtable.Holds i id) → ∃ u, s.heap id = some u ∧
        (u.parent = NULL ∨ .exec t.tid u.tid id ∈ log) := by
      intro id hholds
      obtain ⟨c, hmem⟩ := (h.holds_iff ht hnf id).mp hholds
      rcases hleaves _ hmem with ⟨⟨id', c'⟩, hunj, rfl, halive⟩ | ⟨u, hu, hpar⟩
      · have hexec := exec_of_unjoined hunj
        obtain ⟨⟨v, hv, rfl⟩, -⟩ := h.kin.living _ _ _ hexec halive
        obtain ⟨u, hu, rfl⟩ := exists_heap_of_cores hv
        exact ⟨u, hu, Or.inr hexec⟩
      · exact ⟨u, hu, Or.inl hpar⟩
    constructor
    · intro i huse
      obtain ⟨u, hu, -⟩ := hentry _ ⟨i, huse, rfl⟩
      exact ⟨u, hu⟩
    · intro b u u' hu hu' hne
      by_cases hheld : ∃ i, t.jtable.Holds i b
      · rw [(clearParents_eq s.heap t.jtable b).1 hheld, hu] at hu'
        cases hu'
        obtain ⟨v, hv, hor⟩ := hentry b hheld
        rw [hu] at hv
        cases hv
        exact ⟨b, hor.resolve_left (Ne.symm hne)⟩
      · rw [(clearParents_eq s.heap t.jtable b).2 hheld, hu] at hu'
        cases hu'
        exact absurd rfl hne

/-! ## §8  Whose child it still is -/

/-- A child that is running belongs to the process that `Exec`ed it, as long as
that one is running too. -/
def Linked (cores : SpaceId → Option Core) (log : List Event) : Prop :=
  ∀ q c id, .exec q c id ∈ log → ¬ Terminated log c → ¬ Terminated log q →
    ∃ u p, cores id = some u ∧ u.tid = c ∧ cores u.parent = some p ∧ p.tid = q

/-- The exit code of `t` is in the table of the process that `Exec`ed it. -/
def Delivered (s : Sys) (log : List Event) (t : Thread) (code : BitVec 32) : Prop :=
  ∀ q id, .exec q t.tid id ∈ log → ¬ Terminated log q →
    ∃ a p i, s.heap a = some p ∧ p.tid = q ∧ p.jtable i = ⟨true, id, t.pid, code⟩

theorem Linked.forth (h : Linked cores log) {log' : List Event}
    (hexec : ∀ q c id, .exec q c id ∈ log' → .exec q c id ∈ log)
    (hterm : ∀ c, Terminated log c → Terminated log' c)
    (hforth : ∀ a c, cores a = some c → ¬ Terminated log' c.tid →
      ∃ c', cores' a = some c' ∧ c'.tid = c.tid ∧ c'.parent = c.parent) :
    Linked cores' log' := by
  intro q c id he hct hqt
  obtain ⟨u, p, hu, hut, hp, hpt⟩ := h q c id (hexec q c id he)
    (fun ht => hct (hterm _ ht)) fun ht => hqt (hterm _ ht)
  obtain ⟨u', hu', hut', hpar⟩ := hforth id u hu (hut ▸ hct)
  obtain ⟨p', hp', hpt', -⟩ := hforth _ p hp (hpt ▸ hqt)
  exact ⟨u', p', hu', hut'.trans hut, hpar ▸ hp', hpt'.trans hpt⟩

theorem Linked.same (h : Linked s.cores log) (hsame : SameJoin s s') :
    Linked s'.cores log := by
  rw [hsame.cores]
  exact h

theorem Linked.runNext (h : Linked s.cores log) (hi : Inv s log) (hs : s.runNext = some s') :
    Linked s'.cores log :=
  h.forth (fun _ _ _ he => he) (fun _ ht => ht)
    fun _ c hc hterm => ⟨c, (runNext_carcass hs).2 _ hi hc hterm, rfl, rfl⟩

theorem Linked.yield (h : Linked s.cores log) (hi : Inv s log) (hs : s.yield = some s') :
    Linked s'.cores log := by
  obtain ⟨t, s₁, ht, hready, hrun⟩ := yield_steps hs
  have hset : SameJoin s (s.set s.currentThread { t with cpu := t.cpu + s.quantum }) :=
    sameJoin_set ht rfl
  have hsame := hset.trans (readyToRun_sameJoin hready).1
  exact (h.same hsame).runNext (hsame.inv hi) hrun

theorem Linked.exec (h : Linked cores log) {a b : SpaceId} {p : Core} {jtable : JoinTable}
    {pid : BitVec 32} (hp : cores a = some p) (hb : cores b = none) :
    Linked (Function.update (Function.update cores a (some { p with jtable := jtable }))
        b (some ⟨nextTid, pid, a, JoinTable.new, false⟩))
      (log ++ [.exec p.tid nextTid b]) := by
  have hab : a ≠ b := by
    rintro rfl
    rw [hb] at hp
    cases hp
  have hparent : Function.update (Function.update cores a (some { p with jtable := jtable }))
      b (some ⟨nextTid, pid, a, JoinTable.new, false⟩) a =
        some { p with jtable := jtable } := by
    rw [Function.update_of_ne hab, Function.update_self]
  intro q c id he hct hqt
  rcases List.mem_append.mp he with he | he
  · -- an old child; neither it nor its parent is at the new address
    have hold : ∀ x d, cores x = some d →
        ∃ d', Function.update (Function.update cores a (some { p with jtable := jtable }))
          b (some ⟨nextTid, pid, a, JoinTable.new, false⟩) x = some d' ∧
          d'.tid = d.tid ∧ d'.parent = d.parent := by
      intro x d hd
      by_cases hxa : x = a
      · subst hxa
        rw [hp] at hd
        cases hd
        exact ⟨_, hparent, rfl, rfl⟩
      · have hxb : x ≠ b := by
          rintro rfl
          rw [hb] at hd
          cases hd
        exact ⟨d, by rw [Function.update_of_ne hxb, Function.update_of_ne hxa, hd], rfl, rfl⟩
    obtain ⟨u, r, hu, hut, hr, hrt⟩ := h q c id he (fun ht => hct ht.mono) fun ht => hqt ht.mono
    obtain ⟨u', hu', hut', hpar⟩ := hold id u hu
    obtain ⟨r', hr', hrt', -⟩ := hold _ r hr
    exact ⟨u', r', hu', hut'.trans hut, hpar ▸ hr', hrt'.trans hrt⟩
  · obtain ⟨rfl, rfl, rfl⟩ := Event.exec.inj (List.mem_singleton.mp he)
    exact ⟨_, _, Function.update_self .., rfl, hparent, rfl⟩

/-- **`Finish`** of a process whose table names no child of another one. -/
theorem Linked.finish (h : Linked s.cores log) (hs : s.finish = some s') {t : Thread}
    (ht : s.heap s.currentThread = some t) {e : Event}
    (hexec : ∀ p c id, e ≠ .exec p c id) (hterm : Terminated (log ++ [e]) t.tid)
    (hcar : s.threadToBeDestroyed ≠ NULL → ∃ c, s.cores s.threadToBeDestroyed = some c ∧
      Terminated log c.tid)
    (hown : ∀ b c, s.cores b = some c → (∃ i, t.jtable.Holds i b) → c.parent ≠ NULL →
      ∃ id, .exec t.tid c.tid id ∈ log)
    (honce : ∀ p q c id id', .exec p c id ∈ log → .exec q c id' ∈ log → p = q ∧ id = id')
    (hnull : s.cores NULL = none) :
    Linked s'.cores (log ++ [e]) := by
  obtain ⟨-, -, -, -, -, -, hforth⟩ := finish_cores hs ht
  -- what has not ended is still there
  have hstay : ∀ b c, s.cores b = some c → ¬ Terminated (log ++ [e]) c.tid →
      ∃ c', s'.cores b = some c' ∧ Kept t.jtable b c c' := by
    intro b c hc hct
    refine hforth b c ?_ ?_ hc
    · rintro rfl
      rw [cores_of_heap ht] at hc
      cases hc
      exact hct hterm
    · rintro hne rfl
      obtain ⟨d, hd, hdt⟩ := hcar hne
      rw [hc] at hd
      cases hd
      exact hct hdt.mono
  intro q c id he hct hqt
  have he' : .exec q c id ∈ log := by
    rcases List.mem_append.mp he with he | he
    · exact he
    · exact absurd (List.mem_singleton.mp he).symm (hexec q c id)
  obtain ⟨u, p, hu, hut, hp, hpt⟩ := h q c id he' (fun hx => hct hx.mono) fun hx => hqt hx.mono
  obtain ⟨u', hu', hku⟩ := hstay id u hu (hut ▸ hct)
  obtain ⟨p', hp', hkp⟩ := hstay _ p hp (hpt ▸ hqt)
  have hpar : u'.parent = u.parent := by
    refine hku.parent fun hheld => ?_
    have hne : u.parent ≠ NULL := by
      intro heq
      rw [heq, hnull] at hp
      cases hp
    obtain ⟨id', hexec'⟩ := hown id u hu hheld hne
    obtain ⟨rfl, -⟩ := honce _ _ _ _ _ he' (hut ▸ hexec')
    exact hqt hterm
  exact ⟨u', p', hu', hku.tid.trans hut, hpar ▸ hp', hkp.tid.trans hpt⟩

/-- Whom the table names: an own child, or a thread that has no parent. -/
theorem OrphansOwn.own {t : Thread} (h : OrphansOwn s log t) {b : SpaceId} {c : Core}
    (hc : s.cores b = some c) (hheld : ∃ i, t.jtable.Holds i b) (hne : c.parent ≠ NULL) :
    ∃ id, .exec t.tid c.tid id ∈ log := by
  obtain ⟨u, hu, rfl⟩ := exists_heap_of_cores hc
  have hclear := (clearParents_eq s.heap t.jtable b).1 hheld
  rw [hu, Option.map_some] at hclear
  exact h.changes b u _ hu hclear (Ne.symm hne)

theorem Linked.finish_own (hl : Linked s.cores log) (h : FamilyInv s log) {t : Thread}
    (ht : s.heap s.currentThread = some t) (hown : OrphansOwn s log t)
    (hs : s.finish = some s') {e : Event} (he : (∃ v, e = .exit t.tid v) ∨ e = .killed t.tid) :
    Linked s'.cores (log ++ [e]) := by
  refine hl.finish hs ht ?_ ?_ h.join.carcass_ended (fun b c hc => hown.own hc)
    h.kin.exec_once h.join.tids.null
  · rintro p c id rfl
    rcases he with ⟨v, he⟩ | he <;> cases he
  · rcases he with ⟨v, rfl⟩ | rfl
    · exact Or.inl ⟨v, by simp⟩
    · exact Or.inr (by simp)

/-- **`Exit` of a process that has a parent**, taken apart: the parent is alive, the
entry that gets the code is for this address and this serial number, and what is
left to do is `Finish`. -/
theorem FamilyInv.exit_parts (h : FamilyInv s log) {t : Thread} {code : BitVec 32}
    (ht : s.heap s.currentThread = some t) (hc : t.cont = .user)
    (hs : s.exit code = some s') (hpar : t.parent ≠ NULL) :
    ∃ (p : Thread) (pos : Fin MAXENTRIES) (s₁ : Sys) (t₁ : Thread),
      s.heap t.parent = some p ∧ p.tid < t.tid ∧
      p.jtable.Holds pos s.currentThread ∧ (p.jtable pos).serial = t.pid ∧
      s₁.cores = Function.update s.cores t.parent (some { p.core with
        jtable := Function.update p.jtable pos { p.jtable pos with code := code } }) ∧
      s₁.heap s₁.currentThread = some t₁ ∧ t₁.core = t.core ∧
      s₁.currentThread = s.currentThread ∧
      s₁.threadToBeDestroyed = s.threadToBeDestroyed ∧ s₁.finish = some s' := by
  rcases exit_steps hs ht with ⟨hnull, -⟩ |
    ⟨-, p, pos, s₁, hp, hfind, hcores, hcur, hcar, -, -, -, hfin⟩
  · exact absurd hnull hpar
  have hcore := cores_of_heap ht
  obtain ⟨slog, hsched⟩ := h.sched
  obtain ⟨owner, hj⟩ := h.join.join
  have halive := h.join.alive _ _ hcore (t.not_done (by simp [hc]))
  obtain ⟨q, hq, -, hlt⟩ := hsched.carcass.parent _ _ hcore hpar
  obtain rfl : p.core = q := Option.some.inj ((cores_of_heap hp).symm.trans hq)
  obtain ⟨i, hfind', hhold, -, -, hopen⟩ := hj.find_child hcore halive hpar (cores_of_heap hp)
  obtain rfl : i = pos := Option.some.inj (hfind'.symm.trans hfind)
  have hser : (p.jtable i).serial = t.pid :=
    (JoinTable.find_some hfind).2.resolve_right fun hne => hne (hopen i hhold)
  obtain ⟨t₁, -, -, ht₁, -⟩ := finish_steps hfin
  have hne : s.currentThread ≠ t.parent := by
    intro heq
    rw [← heq, ht] at hp
    cases hp
    exact Nat.lt_irrefl _ hlt
  have hcore₁ := cores_of_heap ht₁
  rw [hcores, hcur, Function.update_of_ne hne, hcore] at hcore₁
  exact ⟨p, i, s₁, t₁, hp, hlt, hhold, hser, hcores, ht₁, (Option.some.inj hcore₁).symm, hcur,
    hcar, hfin⟩

/-- The carcass, after the parent has got the code. -/
theorem FamilyInv.carcass_ended (h : FamilyInv s log) {s₁ : Sys} {a : SpaceId} {p : Thread}
    {jtable : JoinTable} (hp : s.heap a = some p)
    (hcores : s₁.cores = Function.update s.cores a (some { p.core with jtable := jtable }))
    (hcar : s₁.threadToBeDestroyed = s.threadToBeDestroyed)
    (hne : s₁.threadToBeDestroyed ≠ NULL) :
    ∃ c, s₁.cores s₁.threadToBeDestroyed = some c ∧ Terminated log c.tid := by
  rw [hcar] at hne ⊢
  obtain ⟨c, hc, hct⟩ := h.join.carcass_ended hne
  rw [hcores]
  by_cases heq : s.threadToBeDestroyed = a
  · rw [heq, cores_of_heap hp] at hc
    cases hc
    rw [heq, Function.update_self]
    exact ⟨_, rfl, hct⟩
  · rw [Function.update_of_ne heq]
    exact ⟨c, hc, hct⟩

theorem Linked.exit (hl : Linked s.cores log) (h : FamilyInv s log) {t : Thread}
    {code : BitVec 32} (ht : s.heap s.currentThread = some t) (hc : t.cont = .user)
    (hown : OrphansOwn s log t) (hs : s.exit code = some s') :
    Linked s'.cores (log ++ [.exit t.tid code]) := by
  by_cases hpar : t.parent = NULL
  · rcases exit_steps hs ht with ⟨-, hfin⟩ | ⟨hne, -⟩
    · exact hl.finish_own h ht hown hfin (Or.inl ⟨code, rfl⟩)
    · exact absurd hpar hne
  · obtain ⟨p, pos, s₁, t₁, hp, -, -, -, hcores, ht₁, hcore₁, -, hcar, hfin⟩ :=
      h.exit_parts ht hc hs hpar
    have hjt : t₁.jtable = t.jtable := congrArg Core.jtable hcore₁
    have htid : t₁.tid = t.tid := congrArg Core.tid hcore₁
    -- every thread has the parent that it had
    have hback : ∀ b c, s₁.cores b = some c → ∃ d, s.cores b = some d ∧ d.tid = c.tid ∧
        d.parent = c.parent := by
      intro b c hbc
      rw [hcores] at hbc
      rcases update_eq_some.mp hbc with ⟨rfl, heq⟩ | ⟨-, hbc⟩
      · cases heq
        exact ⟨_, cores_of_heap hp, rfl, rfl⟩
      · exact ⟨c, hbc, rfl, rfl⟩
    have hl₁ : Linked s₁.cores log := by
      refine hl.forth (fun _ _ _ he => he) (fun _ hx => hx) fun b c hbc _ => ?_
      rw [hcores]
      by_cases hb : b = t.parent
      · subst hb
        rw [cores_of_heap hp] at hbc
        cases hbc
        rw [Function.update_self]
        exact ⟨_, rfl, rfl, rfl⟩
      · rw [Function.update_of_ne hb]
        exact ⟨c, hbc, rfl, rfl⟩
    refine hl₁.finish hfin ht₁ (by simp) ?_ (h.carcass_ended hp hcores hcar) ?_
      h.kin.exec_once ?_
    · rw [htid]
      exact Or.inl ⟨code, by simp⟩
    · intro b c hbc hheld hne
      rw [hjt] at hheld
      obtain ⟨d, hd, hdt, hdp⟩ := hback b c hbc
      rw [htid, ← hdt]
      exact hown.own hd hheld (hdp.symm ▸ hne)
    · cases hnull : s₁.cores NULL with
      | none => rfl
      | some c =>
          obtain ⟨d, hd, -⟩ := hback _ c hnull
          rw [h.join.tids.null] at hd
          cases hd

/-- **The exit code is delivered** to the process that `Exec`ed the child. -/
theorem FamilyInv.delivered (h : FamilyInv s log) (hl : Linked s.cores log) {t : Thread}
    {code : BitVec 32} (ht : s.heap s.currentThread = some t) (hc : t.cont = .user)
    (hs : s.exit code = some s') : Delivered s' log t code := by
  intro q id hexec hq
  have hcore := cores_of_heap ht
  have halive := h.join.alive _ _ hcore (t.not_done (by simp [hc]))
  obtain ⟨u, r, hu, hut, hr, hrt⟩ := hl q t.tid id hexec halive hq
  obtain rfl : id = s.currentThread := h.join.tids.tid_inj _ _ _ _ hu hcore hut
  rw [hcore] at hu
  cases hu
  have hpar : t.parent ≠ NULL := by
    intro hnull
    rw [show t.core.parent = NULL from hnull, h.join.tids.null] at hr
    cases hr
  obtain ⟨p, pos, s₁, t₁, hp, hlt, hhold, hser, hcores, ht₁, hcore₁, hcur, hcar, hfin⟩ :=
    h.exit_parts ht hc hs hpar
  rw [show t.core.parent = t.parent from rfl, cores_of_heap hp] at hr
  cases hr
  obtain ⟨-, -, -, -, -, -, hforth⟩ := finish_cores hfin ht₁
  have hp₁ : s₁.cores t.parent = some { p.core with
      jtable := Function.update p.jtable pos { p.jtable pos with code := code } } := by
    rw [hcores, Function.update_self]
  have hother : t.parent ≠ s₁.currentThread := by
    rw [hcur]
    intro heq
    rw [heq, ht] at hp
    cases hp
    exact Nat.lt_irrefl _ hlt
  have hkept : s₁.threadToBeDestroyed ≠ NULL → t.parent ≠ s₁.threadToBeDestroyed := by
    intro hne heq
    obtain ⟨d, hd, hdt⟩ := h.carcass_ended hp hcores hcar hne
    rw [← heq, hp₁] at hd
    cases hd
    exact hq (hrt ▸ hdt)
  obtain ⟨c', hc', hk⟩ := hforth t.parent _ hother hkept hp₁
  obtain ⟨p', hp', rfl⟩ := exists_heap_of_cores hc'
  refine ⟨t.parent, p', pos, hp', hk.tid.trans hrt, ?_⟩
  rw [show p'.jtable = _ from hk.jtable]
  simp only [Function.update_self, hhold.1, hhold.2, hser]

theorem Linked.joinLoop (h : Linked s.cores log) {t : Thread} {id : SpaceId}
    {spid : BitVec 32} (ht : s.heap s.currentThread = some t) (hc : t.cont ≠ .finished)
    (hs : s.joinLoop id spid = some s') : Linked s'.cores (log ++ joinEvent t id spid) := by
  obtain ⟨pos, -, ⟨-, hev, rfl⟩ | ⟨-, hev, rfl⟩⟩ := joinLoop_steps hs ht
  · rw [hev, List.append_nil]
    exact h.same (sameJoin_set ht (by simp [Thread.core, hc]))
  · rw [hev]
    refine h.forth (by simp) (fun _ hx => hx.mono) fun a c hac _ => ?_
    rw [cores_set]
    by_cases ha : a = s.currentThread
    · subst ha
      rw [cores_of_heap ht] at hac
      cases hac
      rw [Function.update_self]
      exact ⟨_, rfl, rfl, rfl⟩
    · rw [Function.update_of_ne ha]
      exact ⟨c, hac, rfl, rfl⟩

/-! ## §9  Every run -/

/-- A process that ends leaves the children of the others alone, and its exit code
arrives. -/
def EndsWell (s : Sys) (log : List Event) : Act → Prop
  | .exit code => ∀ t, s.heap s.currentThread = some t → t.cont = .user →
      OrphansOwn s log t ∧ ∀ s', s.exit code = some s' → Delivered s' log t code
  | .kill => ∀ t, s.heap s.currentThread = some t → t.cont = .user → OrphansOwn s log t
  | _ => True

/-- If the action ends the running process, no child of it has ended unjoined. -/
def EndsClean (s : Sys) (log : List Event) : Act → Prop
  | .exit _ => ∀ t, s.heap s.currentThread = some t → t.cont = .user →
      LeavesNoneEnded s log t
  | .kill => ∀ t, s.heap s.currentThread = some t → t.cont = .user →
      LeavesNoneEnded s log t
  | _ => True

instance (s : Sys) (log : List Event) : (a : Act) → Decidable (EndsClean s log a)
  | .exit _ | .kill => inferInstanceAs (Decidable (∀ t ∈ s.heap s.currentThread,
      t.cont = .user → LeavesNoneEnded s log t))
  | .tick | .yield | .dispatch | .start | .exec _ _ | .join _ _ | .resume => isTrue trivial

/-- **The step lemma**: the link to the parent survives a step that ends clean. -/
theorem linked_step {a : Act} (hl : Linked s.cores log) (h : FamilyInv s log)
    (hclean : EndsClean s log a) (hstep : s.step a = some s') :
    Linked s'.cores (log ++ s.event a) := by
  have quiet : s.event a = [] → Linked s'.cores log → Linked s'.cores (log ++ s.event a) := by
    intro hev hl'
    rw [hev, List.append_nil]
    exact hl'
  cases step_cases hstep with
  | tick =>
      refine quiet ?_ hl
      unfold event
      split <;> rfl
  | yield t s' ht hyield => exact quiet (by simp [event, ht]) (hl.yield h.join hyield)
  | dispatch t s' ht hrun => exact quiet (by simp [event, ht]) (hl.runNext h.join hrun)
  | start t ht hc =>
      exact quiet (by simp [event, ht]) (hl.same (sameJoin_set ht (by simp [Thread.core, hc])))
  | exec tmp prio t s' ht hst hc hnull hfree hexec =>
      obtain ⟨pos, -, -, hcores, -⟩ := exec_steps hexec ht
      rw [event_exec ht tmp prio, hcores]
      exact hl.exec (cores_of_heap ht) (by simp [cores, hfree])
  | exit code t s' ht hc hexit =>
      rw [event_exit ht code]
      exact hl.exit h ht hc ((orphansOwn_iff h ht hc).mpr (hclean t ht hc)) hexit
  | join id stale t s' ht hc hjoin =>
      rw [event_join ht id stale]
      exact hl.joinLoop ht (by simp [hc]) hjoin
  | resume id spid t s' ht hc hjoin =>
      rw [event_resume ht hc]
      exact hl.joinLoop ht (by simp [hc]) hjoin
  | kill t s' ht hc hfin =>
      rw [event_kill ht]
      exact hl.finish_own h ht ((orphansOwn_iff h ht hc).mpr (hclean t ht hc)) hfin
        (Or.inr rfl)

theorem endsWell_iff (h : FamilyInv s log) (hl : Linked s.cores log) (a : Act) :
    EndsWell s log a ↔ EndsClean s log a := by
  cases a with
  | exit code =>
      constructor
      · exact fun hwell t ht hc => (orphansOwn_iff h ht hc).mp (hwell t ht hc).1
      · exact fun hclean t ht hc => ⟨(orphansOwn_iff h ht hc).mpr (hclean t ht hc),
          fun s' hs => h.delivered hl ht hc hs⟩
  | kill =>
      constructor
      · exact fun hwell t ht hc => (orphansOwn_iff h ht hc).mp (hwell t ht hc)
      · exact fun hclean t ht hc => (orphansOwn_iff h ht hc).mpr (hclean t ht hc)
  | _ => exact Iff.rfl

/-- **Whom `ClearChildren` orphans.** In every run: each process that ends takes the
parent of its own children only, follows no pointer to a destroyed thread, and
each exit code reaches the process that `Exec`ed the child, if and only if no
process ends while a child of it has ended and was not joined. -/
theorem orphans_own_iff (algorithm : Algorithm) (main : SpaceId) (hmain : main ≠ NULL)
    (as : List Act) :
    StepsMeet (logged step event) (fun c a => EndsWell c.1 c.2 a) (init algorithm main, []) as ↔
      StepsMeet (logged step event) (fun c a => EndsClean c.1 c.2 a)
        (init algorithm main, []) as := by
  refine stepsMeet_iff_of_stepsMeet (B := fun _ _ => True)
    (I := fun c => FamilyInv c.1 c.2 ∧ Linked c.1.cores c.2)
    ⟨familyInv_init algorithm hmain, by intro q c id he; cases he⟩ ?_ ?_ as
    (fun _ _ _ _ _ _ => trivial)
  · rintro ⟨s, log⟩ a ⟨s', log'⟩ ⟨hf, hl⟩ - hclean hstep
    obtain ⟨hstep, rfl⟩ := logged_eq_some.mp hstep
    exact ⟨familyInv_step hf hstep, linked_step hl hf hclean hstep⟩
  · rintro ⟨s, log⟩ a ⟨hf, hl⟩
    exact endsWell_iff hf hl a

/-- The main thread joins its child, and ends. -/
def joinThenEnd : List Act :=
  [.start, .exec 2 0, .yield, .start, .exit 7, .dispatch, .join 2 99, .exit 0]

theorem orphans_own_iff_joinThenEnd :
    StepsMeet (logged step event) (fun c a => EndsWell c.1 c.2 a) (init .a1 1, [])
      joinThenEnd :=
  (orphans_own_iff .a1 1 (by decide) joinThenEnd).mpr
    ((stepsMeet_iff _ _).mp (by decide +kernel))

/-- The main thread starts two processes, at the addresses 2 and 3. The one at 3
exits and is destroyed, and the one at 2 starts a child, which gets the address 3.
Now the main thread is about to end. -/
def addressReused : List Act :=
  [.start, .exec 2 0, .exec 3 0, .yield, .start, .yield, .start, .exit 5, .dispatch, .yield,
    .exec 3 0, .yield]

/-- **A child of another process is orphaned.** -/
theorem stranger_orphaned :
    ¬ ∀ (algorithm : Algorithm) (main : SpaceId), main ≠ NULL → ∀ as,
      StepsMeet (logged step event) (fun c a => EndsWell c.1 c.2 a)
        (init algorithm main, []) as := by
  intro h
  have hstate : ((PartialMachine.run (logged step event) (init .a1 1, [])
      addressReused).bind fun c => (c.1.heap c.1.currentThread).bind fun t =>
        (c.1.heap 3).bind fun u => (clearParents c.1.heap t.jtable 3).map fun u' =>
          ((t.tid, t.cont), (u.tid, u.parent), u'.parent, c.2)) =
      some ((0, .user), (3, 2), 0, [.exec 0 1 2, .exec 0 2 3, .exit 2 5, .exec 1 3 3]) := by
    decide +kernel
  obtain ⟨⟨s, log⟩, hrun, hstate⟩ := Option.bind_eq_some_iff.mp hstate
  obtain ⟨t, ht, hstate⟩ := Option.bind_eq_some_iff.mp hstate
  obtain ⟨u, hu, hstate⟩ := Option.bind_eq_some_iff.mp hstate
  obtain ⟨u', hu', hstate⟩ := Option.map_eq_some_iff.mp hstate
  obtain ⟨⟨htid, hcont⟩, ⟨hutid, hupar⟩, hupar', hlog⟩ : (t.tid = 0 ∧ t.cont = .user) ∧
      (u.tid = 3 ∧ u.parent = 2) ∧ u'.parent = 0 ∧
      log = [.exec 0 1 2, .exec 0 2 3, .exit 2 5, .exec 1 3 3] := by simpa using hstate
  have hwell := (h .a1 1 (by decide) (addressReused ++ [.exit 0]) addressReused (.exit 0) []
    rfl (s, log) hrun t ht hcont).1
  obtain ⟨id, hexec⟩ := hwell.changes 3 u u' hu hu' (by rw [hupar, hupar']; decide)
  rw [htid, hutid, hlog] at hexec
  simp at hexec

end Sys

end OsAssignments.MemoryManagement
