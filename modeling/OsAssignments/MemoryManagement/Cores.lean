import OsAssignments.MemoryManagement.Threads

/-!
# What the system calls do to the join protocol

The scheduler, the status and the addresses on the ready list are of no concern
to the join protocol, except that a thread may be asleep in `Join`. Here each
operation of `Threads.lean` is restated in terms of the `Core` of every thread
and of what it `waits` for; the invariants of `JoinSafety.lean` and
`JoinLiveness.lean` see nothing else.
-/

namespace OsAssignments.MemoryManagement

/-! ## §1  Cores -/

/-- The part of a thread that the join protocol is about. -/
structure Core where
  tid : ℕ
  pid : BitVec 32
  parent : SpaceId
  jtable : JoinTable
  done : Bool

def Thread.core (t : Thread) : Core where
  tid := t.tid
  pid := t.pid
  parent := t.parent
  jtable := t.jtable
  done := t.cont = .finished

theorem Thread.not_done {t : Thread} (h : t.cont ≠ .finished) : t.core.done = false := by
  simp [Thread.core, h]

namespace Sys

def cores (s : Sys) (a : SpaceId) : Option Core := (s.heap a).map Thread.core

theorem cores_of_heap {s : Sys} {a : SpaceId} {t : Thread}
    (h : s.heap a = some t) : s.cores a = some t.core := by simp [cores, h]

@[simp] theorem cores_set (s : Sys) (a : SpaceId) (t : Thread) :
    (s.set a t).cores = Function.update s.cores a (some t.core) := by
  funext b
  by_cases h : b = a
  · subst h
    simp [cores, set]
  · simp [cores, set, h]

theorem cores_set_same {s : Sys} {a : SpaceId} {t t' : Thread}
    (h : s.heap a = some t) (hcore : t'.core = t.core) :
    (s.set a t').cores = s.cores := by
  rw [cores_set, hcore, ← cores_of_heap h, Function.update_eq_self]

@[simp] theorem currentThread_set (s : Sys) (a : SpaceId) (t : Thread) :
    (s.set a t).currentThread = s.currentThread := rfl
@[simp] theorem threadToBeDestroyed_set (s : Sys) (a : SpaceId) (t : Thread) :
    (s.set a t).threadToBeDestroyed = s.threadToBeDestroyed := rfl
@[simp] theorem nextTid_set (s : Sys) (a : SpaceId) (t : Thread) :
    (s.set a t).nextTid = s.nextTid := rfl
@[simp] theorem heap_set_self (s : Sys) (a : SpaceId) (t : Thread) :
    (s.set a t).heap a = some t := by simp [set]

/-- Same cores, same carcass, same counter: nothing the protocol can see. -/
structure SameJoin (s s' : Sys) : Prop where
  cores : s'.cores = s.cores
  carcass : s'.threadToBeDestroyed = s.threadToBeDestroyed
  nextTid : s'.nextTid = s.nextTid

theorem sameJoin_set {s : Sys} {a : SpaceId} {t t' : Thread}
    (h : s.heap a = some t) (hcore : t'.core = t.core) :
    SameJoin s (s.set a t') := ⟨cores_set_same h hcore, rfl, rfl⟩

theorem SameJoin.trans {s s' s'' : Sys} (h : SameJoin s s')
    (h' : SameJoin s' s'') : SameJoin s s'' :=
  ⟨h'.cores.trans h.cores, h'.carcass.trans h.carcass, h'.nextTid.trans h.nextTid⟩

theorem readyToRun_sameJoin {s s' : Sys} {a : SpaceId}
    (h : s.readyToRun a = some s') :
    SameJoin s s' ∧ s'.currentThread = s.currentThread := by
  obtain ⟨t, ht, rfl⟩ := Option.map_eq_some_iff.mp h
  have hset : SameJoin s (s.set a { t with status := .READY }) :=
    sameJoin_set ht rfl
  exact ⟨hset.trans ⟨rfl, rfl, rfl⟩, rfl⟩

theorem wakeUp_sameJoin {s s' : Sys} {a : SpaceId} (h : s.wakeUp a = some s') :
    SameJoin s s' ∧ s'.currentThread = s.currentThread := by
  unfold wakeUp at h
  split at h
  · cases h
  · split at h
    · exact readyToRun_sameJoin h
    · cases h
      exact ⟨⟨rfl, rfl, rfl⟩, rfl⟩

/-- **Deleting the carcass**: nothing to delete, or one address is given back. -/
theorem deleteCarcass_cases {s s' : Sys} (h : s.deleteCarcass = some s') :
    s'.currentThread = s.currentThread ∧ s'.nextTid = s.nextTid ∧
    s'.threadToBeDestroyed = NULL ∧
    ((s.threadToBeDestroyed = NULL ∧ s'.cores = s.cores) ∨
      (s.threadToBeDestroyed ≠ NULL ∧ s.threadToBeDestroyed ≠ s.currentThread ∧
        s'.cores = Function.update s.cores s.threadToBeDestroyed none)) := by
  unfold deleteCarcass at h
  split at h
  · rename_i hnull
    cases h
    exact ⟨rfl, rfl, hnull, Or.inl ⟨hnull, rfl⟩⟩
  · rename_i hne
    obtain ⟨s₁, hdel, rfl⟩ := Option.map_eq_some_iff.mp h
    unfold deleteThread at hdel
    split at hdel
    · cases hdel
    rename_i hcur
    cases hdel
    refine ⟨rfl, rfl, rfl, Or.inr ⟨hne, hcur, ?_⟩⟩
    funext b
    by_cases hb : b = s.threadToBeDestroyed
    · subst hb
      simp [cores]
    · simp [cores, hb]

/-- Lookups after one core is replaced. -/
theorem update_eq_some {cores : SpaceId → Option Core} {a b : SpaceId}
    {x : Option Core} {c : Core} :
    Function.update cores a x b = some c ↔
      (b = a ∧ x = some c) ∨ (b ≠ a ∧ cores b = some c) := by
  by_cases h : b = a
  · subst h
    simp
  · simp [h]

/-- The cores that are left after the carcass is gone were there before. -/
theorem deleteCarcass_cores {s s' : Sys} (h : s.deleteCarcass = some s')
    {a : SpaceId} {c : Core} (hc : s'.cores a = some c) : s.cores a = some c := by
  obtain ⟨-, -, -, ⟨-, hcores⟩ | ⟨-, -, hcores⟩⟩ := deleteCarcass_cases h <;>
    rw [hcores] at hc
  · exact hc
  · rcases update_eq_some.mp hc with ⟨-, hc⟩ | ⟨-, hc⟩
    · cases hc
    · exact hc

/-! ## §2  Who sleeps in `Join` -/

/-- The id and the serial that a sleeping `Join` is after. -/
def waitsFor (t : Thread) : Option (SpaceId × BitVec 32) :=
  match t.status, t.cont with
  | .BLOCKED, .joining id spid => some (id, spid)
  | _, _ => none

def waits (s : Sys) (a : SpaceId) : Option (SpaceId × BitVec 32) :=
  (s.heap a).bind waitsFor

theorem waits_of_heap {s : Sys} {a : SpaceId} {t : Thread}
    (h : s.heap a = some t) : s.waits a = waitsFor t := by simp [waits, h]

theorem waits_eq_some {s : Sys} {a : SpaceId} {w : SpaceId × BitVec 32} :
    s.waits a = some w ↔ ∃ t, s.heap a = some t ∧ t.status = .BLOCKED ∧
      t.cont = .joining w.1 w.2 := by
  rw [waits, Option.bind_eq_some_iff]
  refine exists_congr fun t => and_congr_right fun _ => ?_
  unfold waitsFor
  obtain ⟨id, spid⟩ := w
  split
  · rename_i id' spid' hst hc
    simp [hst, hc]
  · rename_i hno
    simp only [reduceCtorEq, false_iff]
    rintro ⟨hst, hc⟩
    exact hno id spid hst hc

/-- What may happen to a thread while others run, and when it is dispatched or
finishes: it goes on from where it was, or starts, or is over; and it falls
asleep only when it is over. -/
structure Evolves (t t' : Thread) : Prop where
  tid : t'.tid = t.tid
  cont : t'.cont = t.cont ∨ (t.cont = .fresh ∧ t'.cont = .starting) ∨
    t'.cont = .finished
  status : t'.status = .BLOCKED → t.status = .BLOCKED ∨ t'.cont = .finished

/-- Every thread that is left has evolved from one that was there. -/
def Evolved (s s' : Sys) : Prop :=
  ∀ a t', s'.heap a = some t' → ∃ t, s.heap a = some t ∧ Evolves t t'

theorem Evolves.refl (t : Thread) : Evolves t t := ⟨rfl, Or.inl rfl, Or.inl⟩

theorem Evolves.trans {t t' t'' : Thread} (h : Evolves t t') (h' : Evolves t' t'') :
    Evolves t t'' := by
  refine ⟨h'.tid.trans h.tid, ?_, fun hst => ?_⟩
  · rcases h'.cont with hc' | ⟨hf, hs⟩ | hf
    · rcases h.cont with hc | ⟨hf, hs⟩ | hf
      · exact Or.inl (hc'.trans hc)
      · exact Or.inr (Or.inl ⟨hf, hc'.trans hs⟩)
      · exact Or.inr (Or.inr (hc'.trans hf))
    · rcases h.cont with hc | ⟨hf', hs'⟩ | hf'
      · exact Or.inr (Or.inl ⟨hc.symm.trans hf, hs⟩)
      · exact Or.inr (Or.inl ⟨hf', hs⟩)
      · rw [hf] at hf'
        cases hf'
    · exact Or.inr (Or.inr hf)
  · rcases h'.status hst with hst | hf
    · rcases h.status hst with hst | hf
      · exact Or.inl hst
      · rcases h'.cont with hc | ⟨hfresh, -⟩ | hc
        · exact Or.inr (hc.trans hf)
        · rw [hf] at hfresh
          cases hfresh
        · exact Or.inr hc
    · exact Or.inr hf

theorem Evolved.refl (s : Sys) : Evolved s s := fun _ t ht => ⟨t, ht, Evolves.refl t⟩

theorem Evolved.trans {s s' s'' : Sys} (h : Evolved s s') (h' : Evolved s' s'') :
    Evolved s s'' := by
  intro a t'' ht''
  obtain ⟨t', ht', hev'⟩ := h' a t'' ht''
  obtain ⟨t, ht, hev⟩ := h a t' ht'
  exact ⟨t, ht, hev.trans hev'⟩

/-- Nobody falls asleep in `Join`. -/
def NoSleep (s s' : Sys) : Prop := ∀ a w, s'.waits a = some w → s.waits a = some w

theorem Evolves.waits {t t' : Thread} (h : Evolves t t') {w : SpaceId × BitVec 32}
    (hst : t'.status = .BLOCKED) (hc : t'.cont = .joining w.1 w.2) :
    t.status = .BLOCKED ∧ t.cont = .joining w.1 w.2 := by
  have hnf : t'.cont ≠ .finished := by simp [hc]
  refine ⟨(h.status hst).resolve_right hnf, ?_⟩
  rcases h.cont with heq | ⟨-, hs⟩ | hf
  · exact heq.symm.trans hc
  · rw [hc] at hs
    cases hs
  · exact absurd hf hnf

theorem Evolved.noSleep {s s' : Sys} (h : Evolved s s') : NoSleep s s' := by
  intro a w hw
  obtain ⟨t', ht', hst, hc⟩ := waits_eq_some.mp hw
  obtain ⟨t, ht, hev⟩ := h a t' ht'
  obtain ⟨hst', hc'⟩ := hev.waits hst hc
  exact waits_eq_some.mpr ⟨t, ht, hst', hc'⟩

theorem evolved_set {s : Sys} {a : SpaceId} {t t' : Thread} (ht : s.heap a = some t)
    (h : Evolves t t') : Evolved s (s.set a t') := by
  intro b u hu
  by_cases hb : b = a
  · subst hb
    obtain rfl : t' = u := by simpa [set] using hu
    exact ⟨t, ht, h⟩
  · exact ⟨u, by simpa [set, hb] using hu, Evolves.refl u⟩

theorem readyToRun_evolved {s s' : Sys} {a : SpaceId}
    (h : s.readyToRun a = some s') : Evolved s s' ∧ s'.waits a = none := by
  obtain ⟨t, ht, rfl⟩ := Option.map_eq_some_iff.mp h
  have hset : Evolved s (s.set a { t with status := .READY }) :=
    evolved_set ht ⟨rfl, Or.inl rfl, fun hst => by cases hst⟩
  exact ⟨hset, by simp [waits, set, waitsFor]⟩

theorem wakeUp_evolved {s s' : Sys} {a : SpaceId} (h : s.wakeUp a = some s') :
    Evolved s s' ∧ s'.waits a = none := by
  unfold wakeUp at h
  split at h
  · cases h
  rename_i t ht
  split at h
  · exact readyToRun_evolved h
  · rename_i hst
    cases h
    refine ⟨Evolved.refl s, ?_⟩
    rw [waits_of_heap ht, waitsFor]
    split
    · rename_i hblocked _
      exact absurd hblocked hst
    · rfl

theorem deleteCarcass_evolved {s s' : Sys} (h : s.deleteCarcass = some s') :
    Evolved s s' := by
  unfold deleteCarcass deleteThread at h
  split at h
  · cases h
    exact Evolved.refl s
  · split at h
    · cases h
    · cases h
      intro b t ht
      by_cases hb : b = s.threadToBeDestroyed
      · subst hb
        simp at ht
      · exact ⟨t, by simpa [hb] using ht, Evolves.refl t⟩

/-- **Dispatching**: the next thread runs, from where it was or from its start. -/
theorem run_evolved {s s' : Sys} {a : SpaceId} (h : s.run a = some s') :
    Evolved s s' ∧ s'.currentThread = a := by
  unfold run at h
  split at h
  · cases h
  rename_i t ht
  dsimp only at h
  let s₁ : Sys := { s with quantum := 0, currentThread := a }
  split at h
  · rename_i hfresh
    cases h
    refine ⟨?_, rfl⟩
    exact evolved_set (s := s₁) ht
      ⟨rfl, Or.inr (Or.inl ⟨hfresh, rfl⟩), fun hst => by cases hst⟩
  · refine ⟨?_, (deleteCarcass_cases h).1⟩
    have hrunning : Evolved s₁ (s₁.set a { t with status := .RUNNING }) :=
      evolved_set ht ⟨rfl, Or.inl rfl, fun hst => by cases hst⟩
    exact Evolved.trans hrunning (deleteCarcass_evolved h)

theorem runNext_evolved {s s' : Sys} (h : s.runNext = some s') : Evolved s s' := by
  unfold runNext at h
  split at h
  · cases h
  · rename_i l _
    exact (run_evolved (s := { s with readyList := l }) h).1

/-! ## §3  `ClearChildren` -/

/-- The threads whose address the table mentions have lost their parent. -/
def Orphans (entries : JoinTable) (cores cores₁ : SpaceId → Option Core) : Prop :=
  ∀ b, ((∃ i, entries.Holds i b) →
      cores₁ b = (cores b).map fun c => { c with parent := NULL }) ∧
    ((¬ ∃ i, entries.Holds i b) → cores₁ b = cores b)

/-- The loop of `ClearChildren`, over the part of the table still to come. -/
theorem clearParents_loop (entries : JoinTable) (b : SpaceId) :
    ∀ (l : List (Fin MAXENTRIES)) (heap : SpaceId → Option Thread),
      let heap' := l.foldl (fun heap i =>
        if (entries i).inUse then
          Function.update heap (entries i).id
            ((heap (entries i).id).map fun child => { child with parent := NULL })
        else heap) heap
      ((∃ i ∈ l, entries.Holds i b) →
        heap' b = (heap b).map fun child => { child with parent := NULL }) ∧
      ((¬ ∃ i ∈ l, entries.Holds i b) → heap' b = heap b)
  | [], heap => by simp
  | i :: l, heap => by
      have hnull : ∀ x : Option Thread,
          (x.map fun t => { t with parent := NULL }).map
            (fun t => { t with parent := NULL }) =
          x.map fun t => { t with parent := NULL } := by
        rintro (_ | t) <;> rfl
      by_cases hi : entries.Holds i b
      · obtain ⟨huse, rfl⟩ := hi
        obtain ⟨hin, hout⟩ := clearParents_loop entries (entries i).id l
          (Function.update heap (entries i).id
            ((heap (entries i).id).map fun child => { child with parent := NULL }))
        have hhead : ∃ j ∈ i :: l, entries.Holds j (entries i).id :=
          ⟨i, List.mem_cons_self, huse, rfl⟩
        refine ⟨fun _ => ?_, fun hno => absurd hhead hno⟩
        simp only [List.foldl_cons, huse, if_true]
        by_cases hl : ∃ j ∈ l, entries.Holds j (entries i).id
        · rw [hin hl, Function.update_self, hnull]
        · rw [hout hl, Function.update_self]
      · have hrest : (∃ j ∈ i :: l, entries.Holds j b) ↔
            ∃ j ∈ l, entries.Holds j b := by
          simp [hi]
        rw [hrest]
        simp only [List.foldl_cons]
        by_cases huse : (entries i).inUse = true
        · have hne : b ≠ (entries i).id := fun hb => hi ⟨huse, hb.symm⟩
          have := clearParents_loop entries b l (Function.update heap (entries i).id
            ((heap (entries i).id).map fun child => { child with parent := NULL }))
          simpa only [huse, if_true, Function.update_of_ne hne] using this
        · simpa only [huse, Bool.false_eq_true, if_false] using
            clearParents_loop entries b l heap

theorem orphans_clearParents (s : Sys) (entries : JoinTable) :
    Orphans entries s.cores
      (Sys.cores { s with heap := clearParents s.heap entries }) := by
  intro b
  obtain ⟨hin, hout⟩ := clearParents_loop entries b (List.finRange MAXENTRIES) s.heap
  simp only [List.mem_finRange, true_and] at hin hout
  constructor
  · intro h
    have hb : clearParents s.heap entries b = _ := hin h
    simp only [Sys.cores, hb, Option.map_map]
    rfl
  · intro h
    have hb : clearParents s.heap entries b = _ := hout h
    simp only [Sys.cores, hb]

/-- What `ClearChildren` leaves of a thread: all but perhaps its parent. -/
structure Kept (entries : JoinTable) (b : SpaceId) (d c : Core) : Prop where
  tid : c.tid = d.tid
  pid : c.pid = d.pid
  jtable : c.jtable = d.jtable
  done : c.done = d.done
  orphan : (∃ i, entries.Holds i b) → c.parent = NULL
  parent : (¬ ∃ i, entries.Holds i b) → c.parent = d.parent

theorem Orphans.back {cores cores₁ : SpaceId → Option Core} {entries : JoinTable}
    (ho : Orphans entries cores cores₁) {b : SpaceId} {c : Core}
    (hc : cores₁ b = some c) : ∃ d, cores b = some d ∧ Kept entries b d c := by
  by_cases hb : ∃ i, entries.Holds i b
  · rw [(ho b).1 hb] at hc
    obtain ⟨d, hd, rfl⟩ := Option.map_eq_some_iff.mp hc
    exact ⟨d, hd, rfl, rfl, rfl, rfl, fun _ => rfl, fun h => absurd hb h⟩
  · rw [(ho b).2 hb] at hc
    exact ⟨c, hc, rfl, rfl, rfl, rfl, fun h => absurd h hb, fun _ => rfl⟩

theorem Orphans.forth {cores cores₁ : SpaceId → Option Core} {entries : JoinTable}
    (ho : Orphans entries cores cores₁) {b : SpaceId} {d : Core}
    (hd : cores b = some d) : ∃ c, cores₁ b = some c ∧ Kept entries b d c := by
  by_cases hb : ∃ i, entries.Holds i b
  · refine ⟨{ d with parent := NULL }, by rw [(ho b).1 hb, hd]; rfl, rfl, rfl, rfl, rfl,
      fun _ => rfl, fun h => absurd hb h⟩
  · exact ⟨d, by rw [(ho b).2 hb, hd], rfl, rfl, rfl, rfl, fun h => absurd h hb,
      fun _ => rfl⟩

theorem clearParents_evolved (s : Sys) (entries : JoinTable) :
    Evolved s { s with heap := clearParents s.heap entries } := by
  intro b t ht
  obtain ⟨hin, hout⟩ := clearParents_loop entries b (List.finRange MAXENTRIES) s.heap
  by_cases h : ∃ i ∈ List.finRange MAXENTRIES, entries.Holds i b
  · have hb : clearParents s.heap entries b = _ := hin h
    obtain ⟨u, hu, rfl⟩ := Option.map_eq_some_iff.mp (hb.symm.trans ht)
    exact ⟨u, hu, rfl, Or.inl rfl, Or.inl⟩
  · have hb : clearParents s.heap entries b = _ := hout h
    exact ⟨t, hb.symm.trans ht, Evolves.refl t⟩

/-! ## §4  The system calls -/

theorem yield_steps {s s' : Sys} (h : s.yield = some s') :
    ∃ t s₁, s.heap s.currentThread = some t ∧
      (s.set s.currentThread { t with cpu := t.cpu + s.quantum }).readyToRun
        s.currentThread = some s₁ ∧ s₁.runNext = some s' := by
  simp only [yield, Option.bind_eq_bind, Option.bind_eq_some_iff] at h
  obtain ⟨t, ht, s₁, hready, hrun⟩ := h
  exact ⟨t, s₁, ht, hready, hrun⟩

theorem finish_steps {s s' : Sys} (h : s.finish = some s') :
    ∃ t s₁ t₁, s.heap s.currentThread = some t ∧
      deleteCarcass { s with heap := clearParents s.heap t.jtable } = some s₁ ∧
      s₁.heap s₁.currentThread = some t₁ ∧
      s' = { s₁.set s₁.currentThread
          { t₁ with jtable := t₁.jtable.clear, status := .BLOCKED, cont := .finished }
        with threadToBeDestroyed := s₁.currentThread } := by
  simp only [finish, Option.bind_eq_bind, Option.bind_eq_some_iff] at h
  obtain ⟨t, ht, s₁, hdel, t₁, ht₁, heq⟩ := h
  exact ⟨t, s₁, t₁, ht, hdel, ht₁, (Option.some.inj heq).symm⟩

/-- **`Finish`**: the table of the current thread is emptied, the threads that it
mentions lose their parent, and the carcass before it goes. -/
theorem finish_cores {s s' : Sys} {t : Thread} (h : s.finish = some s')
    (ht : s.heap s.currentThread = some t) :
    s'.threadToBeDestroyed = s.currentThread ∧ s'.nextTid = s.nextTid ∧
    Evolved s s' ∧ s'.waits s.currentThread = none ∧
    (∃ c, s'.cores s.currentThread = some c ∧ c.tid = t.tid ∧ c.done = true ∧
      ∀ i, (c.jtable i).inUse = false) ∧
    (∀ b c, b ≠ s.currentThread → s'.cores b = some c →
      ∃ d, s.cores b = some d ∧ Kept t.jtable b d c) ∧
    ∀ b d, b ≠ s.currentThread →
      (s.threadToBeDestroyed ≠ NULL → b ≠ s.threadToBeDestroyed) →
      s.cores b = some d → ∃ c, s'.cores b = some c ∧ Kept t.jtable b d c := by
  obtain ⟨t', s₁, t₁, ht', hdel, ht₁, rfl⟩ := finish_steps h
  obtain rfl : t' = t := Option.some.inj (ht'.symm.trans ht)
  obtain ⟨hcur, hnext, -, hcores⟩ := deleteCarcass_cases hdel
  have hcur' : s₁.currentThread = s.currentThread := hcur
  have horph := orphans_clearParents s t'.jtable
  obtain ⟨d, hd, hkept⟩ := horph.back (deleteCarcass_cores hdel (cores_of_heap ht₁))
  rw [hcur', cores_of_heap ht] at hd
  cases hd
  have hset := cores_set s₁ s₁.currentThread
    { t₁ with jtable := t₁.jtable.clear, status := .BLOCKED, cont := .finished }
  have hself : ∀ b, b ≠ s.currentThread → (s₁.set s₁.currentThread
      { t₁ with jtable := t₁.jtable.clear, status := .BLOCKED, cont := .finished }).cores b =
      s₁.cores b := by
    intro b hb
    rw [hset, hcur', Function.update_of_ne hb]
  refine ⟨hcur', hnext, ?_, ?_, ?_, ?_, ?_⟩
  · refine ((clearParents_evolved s t'.jtable).trans (deleteCarcass_evolved hdel)).trans ?_
    exact evolved_set (s := s₁) ht₁ ⟨rfl, Or.inr (Or.inr rfl), fun _ => Or.inr rfl⟩
  · simp [waits, set, hcur', waitsFor]
  · refine ⟨Thread.core { t₁ with
        jtable := t₁.jtable.clear, status := .BLOCKED, cont := .finished }, ?_,
      hkept.tid, by simp [Thread.core], fun _ => rfl⟩
    rw [← hcur']
    exact (congrFun hset _).trans (Function.update_self ..)
  · intro b c hb hc
    have hc' : s₁.cores b = some c := (hself b hb).symm.trans hc
    exact horph.back (deleteCarcass_cores hdel hc')
  · intro b d hb hcar hd
    obtain ⟨c, hc, hk⟩ := horph.forth hd
    refine ⟨c, (hself b hb).trans ?_, hk⟩
    rcases hcores with ⟨-, hcores⟩ | ⟨hne, -, hcores⟩
    · rw [hcores]
      exact hc
    · rw [hcores, Function.update_of_ne (hcar hne)]
      exact hc

/-- **`Exec`**: a free entry of the parent's table and a new thread. -/
theorem exec_steps {s s' : Sys} {t : Thread} {tmp : SpaceId} {prio : BitVec 32}
    (h : s.exec tmp prio = some s') (ht : s.heap s.currentThread = some t) :
    ∃ pos, (t.jtable pos).inUse = false ∧
      (∀ i, ¬ t.jtable.Answers i tmp s.serialPid) ∧
      s'.cores = Function.update (Function.update s.cores s.currentThread
        (some { t.core with
          jtable := Function.update t.jtable pos
            ⟨true, tmp, s.serialPid, CODENOTENDED⟩ }))
        tmp (some ⟨s.nextTid, s.serialPid, s.currentThread, JoinTable.new, false⟩) ∧
      s'.threadToBeDestroyed = s.threadToBeDestroyed ∧
      s'.nextTid = s.nextTid + 1 ∧ s'.currentThread = s.currentThread ∧
      ∀ a u, s'.heap a = some u → (a = tmp ∧ u.tid = s.nextTid ∧ u.status = .READY) ∨
        ∃ u₀, s.heap a = some u₀ ∧ Evolves u₀ u := by
  simp only [exec, ht, Option.bind_eq_bind, Option.bind_some,
    Option.bind_eq_some_iff] at h
  obtain ⟨jt, hadd, hready⟩ := h
  obtain ⟨pos, hpos, hno, rfl⟩ := JoinTable.addChild_inv hadd
  obtain ⟨hsame, hcur⟩ := readyToRun_sameJoin hready
  obtain ⟨hev, -⟩ := readyToRun_evolved hready
  let parent := { t with
    jtable := Function.update t.jtable pos ⟨true, tmp, s.serialPid, CODENOTENDED⟩ }
  let child := { Thread.new s.nextTid s.serialPid prio with parent := s.currentThread }
  have hcores : ((s.set s.currentThread parent).set tmp child).cores =
      Function.update (Function.update s.cores s.currentThread (some parent.core))
        tmp (some child.core) := by
    rw [cores_set, cores_set]
  have hchild : child.core =
      ⟨s.nextTid, s.serialPid, s.currentThread, JoinTable.new, false⟩ := by
    simp [child, Thread.core, Thread.new]
  refine ⟨pos, hpos, hno, ?_, hsame.carcass, hsame.nextTid, hcur, ?_⟩
  · rw [← hchild]
    exact hsame.cores.trans hcores
  · intro a u hu
    by_cases ha : a = tmp
    · refine Or.inl ⟨ha, ?_⟩
      subst ha
      obtain ⟨v, hv, hready⟩ := Option.map_eq_some_iff.mp hready
      obtain rfl : child = v := by simpa [set] using hv
      cases hready
      obtain rfl : { child with status := .READY } = u := by simpa [set] using hu
      exact ⟨rfl, rfl⟩
    · right
      obtain ⟨v, hv, hev⟩ := hev a u hu
      have hv' : (s.set s.currentThread parent).heap a = some v := by
        simpa [set, ha] using hv
      have hset : Evolved s (s.set s.currentThread parent) :=
        evolved_set ht ⟨rfl, Or.inl rfl, Or.inl⟩
      obtain ⟨w, hw, hev'⟩ := hset a v hv'
      exact ⟨w, hw, hev'.trans hev⟩

/-- **`Exit`**: a process without a parent just finishes; else its code goes
into the entry that `Find` returns, and the parent is woken. -/
theorem exit_steps {s s' : Sys} {t : Thread} {code : BitVec 32}
    (h : s.exit code = some s') (ht : s.heap s.currentThread = some t) :
    (t.parent = NULL ∧ s.finish = some s') ∨
    (t.parent ≠ NULL ∧ ∃ p pos s₁, s.heap t.parent = some p ∧
      p.jtable.Find s.currentThread t.pid = some pos ∧
      s₁.cores = Function.update s.cores t.parent (some { p.core with
        jtable := Function.update p.jtable pos { p.jtable pos with code := code } }) ∧
      s₁.currentThread = s.currentThread ∧
      s₁.threadToBeDestroyed = s.threadToBeDestroyed ∧ s₁.nextTid = s.nextTid ∧
      Evolved s s₁ ∧ s₁.waits t.parent = none ∧ s₁.finish = some s') := by
  simp only [exit, ht, Option.bind_eq_bind, Option.bind_some] at h
  split at h
  · rename_i hpar
    exact Or.inl ⟨hpar, h⟩
  · rename_i hpar
    simp only [setEndCode, Option.bind_eq_bind, Option.bind_eq_some_iff] at h
    obtain ⟨s₂, ⟨p, hp, jt, hjt, heq⟩, s₁, hwake, hfin⟩ := h
    cases heq
    obtain ⟨pos, hfind, rfl⟩ := JoinTable.setEndCode_inv hjt
    obtain ⟨hsame, hcur⟩ := wakeUp_sameJoin hwake
    obtain ⟨hev, hnone⟩ := wakeUp_evolved hwake
    refine Or.inr ⟨hpar, p, pos, s₁, hp, hfind, ?_, hcur, hsame.carcass,
      hsame.nextTid, ?_, hnone, hfin⟩
    · rw [hsame.cores, cores_set]
      rfl
    · refine Evolved.trans (evolved_set hp ?_) hev
      exact ⟨rfl, Or.inl rfl, Or.inl⟩

/-- **One turn of `Join`**: the entry that `Find` returns is ended, and the call
returns its code; or it is not, and the thread goes to sleep. -/
theorem joinLoop_steps {s s' : Sys} {t : Thread} {id : SpaceId} {spid : BitVec 32}
    (h : s.joinLoop id spid = some s') (ht : s.heap s.currentThread = some t) :
    ∃ pos, t.jtable.Answers pos id spid ∧
      (((t.jtable pos).code = CODENOTENDED ∧ joinEvent t id spid = [] ∧
        s' = s.set s.currentThread
          { t with cont := .joining id spid, status := .BLOCKED }) ∨
      ((t.jtable pos).code ≠ CODENOTENDED ∧
        joinEvent t id spid = [.joined t.tid id (t.jtable pos).code] ∧
        s' = s.set s.currentThread { t with
          jtable := Function.update t.jtable pos { t.jtable pos with inUse := false },
          cont := .user })) := by
  simp only [joinLoop, ht, Option.bind_eq_bind, Option.bind_some,
    Option.bind_eq_some_iff] at h
  obtain ⟨⟨res, jt⟩, hfin, h⟩ := h
  obtain ⟨pos, hans, rfl, hsame, hdrop⟩ := JoinTable.finishJoin_inv hfin
  refine ⟨pos, hans, ?_⟩
  dsimp only at h
  split at h
  · rename_i hnot
    cases h
    exact Or.inl ⟨hnot, by simp [joinEvent, hfin, hnot], by rw [hsame hnot]⟩
  · rename_i hended
    cases h
    exact Or.inr ⟨hended, by simp [joinEvent, hfin, hended], by rw [hdrop hended]⟩

theorem At.core {s : Sys} {cont : Cont} (h : s.At cont) (hne : cont ≠ .finished) :
    ∃ t, s.heap s.currentThread = some t ∧ t.cont = cont ∧ t.core.done = false := by
  obtain ⟨t, ht, -, hc⟩ := h
  exact ⟨t, ht, hc, t.not_done (hc ▸ hne)⟩

theorem At.running {s : Sys} {cont : Cont} (h : s.At cont) {t : Thread}
    (ht : s.heap s.currentThread = some t) : t.status = .RUNNING := by
  obtain ⟨u, hu, hstatus, -⟩ := h
  obtain rfl : u = t := Option.some.inj (hu.symm.trans ht)
  exact hstatus

/-- **What a step does**, by its action. -/
inductive Stepped (s : Sys) : Act → Sys → Prop where
  | tick : Stepped s .tick { s with quantum := s.quantum + 1 }
  | yield (t : Thread) (s' : Sys) (ht : s.heap s.currentThread = some t)
      (h : s.yield = some s') : Stepped s .yield s'
  | dispatch (t : Thread) (s' : Sys) (ht : s.heap s.currentThread = some t)
      (h : s.runNext = some s') : Stepped s .dispatch s'
  | start (t : Thread) (ht : s.heap s.currentThread = some t)
      (hc : t.cont = .starting) :
      Stepped s .start (s.set s.currentThread { t with cont := .user })
  | exec (tmp : SpaceId) (prio : BitVec 32) (t : Thread) (s' : Sys)
      (ht : s.heap s.currentThread = some t) (hst : t.status = .RUNNING)
      (hc : t.cont = .user) (hnull : tmp ≠ NULL) (hfree : s.heap tmp = none)
      (h : s.exec tmp prio = some s') : Stepped s (.exec tmp prio) s'
  | exit (code : BitVec 32) (t : Thread) (s' : Sys)
      (ht : s.heap s.currentThread = some t) (hc : t.cont = .user)
      (h : s.exit code = some s') : Stepped s (.exit code) s'
  | join (id : SpaceId) (stale : BitVec 32) (t : Thread) (s' : Sys)
      (ht : s.heap s.currentThread = some t) (hc : t.cont = .user)
      (h : s.joinLoop id (s.readPid id stale) = some s') : Stepped s (.join id stale) s'
  | resume (id : SpaceId) (spid : BitVec 32) (t : Thread) (s' : Sys)
      (ht : s.heap s.currentThread = some t) (hc : t.cont = .joining id spid)
      (h : s.joinLoop id spid = some s') : Stepped s .resume s'
  | kill (t : Thread) (s' : Sys) (ht : s.heap s.currentThread = some t)
      (hc : t.cont = .user) (h : s.finish = some s') : Stepped s .kill s'

theorem step_cases {s s' : Sys} {a : Act} (hstep : s.step a = some s') :
    Stepped s a s' := by
  cases a with
  | tick =>
      cases hstep
      exact .tick
  | yield =>
      simp only [step, Option.bind_eq_bind, Option.bind_eq_some_iff] at hstep
      obtain ⟨t, ht, hstep⟩ := hstep
      exact .yield t s' ht (Option.ite_none_right_eq_some.mp hstep).2
  | dispatch =>
      simp only [step, Option.bind_eq_bind, Option.bind_eq_some_iff] at hstep
      obtain ⟨t, ht, hstep⟩ := hstep
      exact .dispatch t s' ht (Option.ite_none_right_eq_some.mp hstep).2
  | start =>
      simp only [step, Option.bind_eq_bind, Option.bind_eq_some_iff,
        Option.ite_none_right_eq_some] at hstep
      obtain ⟨t, ht, hc, hstep⟩ := hstep
      cases hstep
      exact .start t ht hc.2
  | exec tmp prio =>
      simp only [step, Option.ite_none_right_eq_some] at hstep
      obtain ⟨⟨⟨t, ht, hst, hc⟩, hnull, hfree⟩, hstep⟩ := hstep
      exact .exec tmp prio t s' ht hst hc hnull hfree hstep
  | exit code =>
      simp only [step, Option.ite_none_right_eq_some] at hstep
      obtain ⟨⟨t, ht, -, hc⟩, hstep⟩ := hstep
      exact .exit code t s' ht hc hstep
  | join id stale =>
      simp only [step, Option.ite_none_right_eq_some] at hstep
      obtain ⟨⟨t, ht, -, hc⟩, hstep⟩ := hstep
      exact .join id stale t s' ht hc hstep
  | resume =>
      simp only [step, Option.bind_eq_bind, Option.bind_eq_some_iff] at hstep
      obtain ⟨t, ht, hstep⟩ := hstep
      split at hstep
      · rename_i id spid _ hc
        exact .resume id spid t s' ht hc hstep
      · cases hstep
  | kill =>
      simp only [step, Option.ite_none_right_eq_some] at hstep
      obtain ⟨⟨t, ht, -, hc⟩, hstep⟩ := hstep
      exact .kill t s' ht hc hstep

end Sys

end OsAssignments.MemoryManagement
