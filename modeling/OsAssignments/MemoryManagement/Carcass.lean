import OsAssignments.MemoryManagement.ReadyList

/-!
# Finished threads, and who may still point to them

A thread cannot delete itself: `Finish` leaves it in `threadToBeDestroyed`, and
the next thread that comes back from `SWITCH` deletes it, or the next one that
finishes. A thread that starts in `ThreadRoot` does neither. `CarcassInv` says
that one carcass is all there ever is, and that no thread has a parent that is
over; it speaks of the cores only, and `ListInv` only of the statuses.

- `schedInv_step` — every action keeps both, with the log of events.
- `threads_agree_with_readyList` — **statuses, ready list and parents**, for
  every run.
- `finished_threads_destroyed_safely` — **deletions and switches**, for every run.
-/

namespace OsAssignments.MemoryManagement

open PartialMachine

/-- What the carcass is about. -/
def Core.carcassView (c : Core) : ℕ × SpaceId × Bool := (c.tid, c.parent, c.done)

namespace Sys

variable {s s' : Sys} {cores cores' : SpaceId → Option Core} {carcass : SpaceId}
  {nextTid : ℕ} {log : List SchedEvent}

/-! ## §1  The invariant of the cores -/

structure CarcassInv (cores : SpaceId → Option Core) (carcass : SpaceId) (nextTid : ℕ)
    (log : List SchedEvent) : Prop where
  finished : ∀ a c, cores a = some c → (c.done = true ↔ .finish c.tid ∈ log)
  /-- Nothing that is over is left but the carcass. -/
  last : ∀ a c, cores a = some c → c.done = true → a = carcass
  carcass : carcass ≠ NULL → ∃ c, cores carcass = some c ∧ c.done = true
  parent : ∀ a c, cores a = some c → c.parent ≠ NULL →
    ∃ p, cores c.parent = some p ∧ p.done = false ∧ p.tid < c.tid
  gone : ∀ a c q, cores a = some c → .delete (some c.tid) q ∉ log
  finish_lt : ∀ k, .finish k ∈ log → k < nextTid
  delete_lt : ∀ k q, .delete (some k) q ∈ log → k < nextTid

theorem CarcassInv.congr (h : CarcassInv cores carcass nextTid log)
    (hview : ∀ a, (cores' a).map Core.carcassView = (cores a).map Core.carcassView) :
    CarcassInv cores' carcass nextTid log := by
  have hback : ∀ a c', cores' a = some c' →
      ∃ c, cores a = some c ∧ c.tid = c'.tid ∧ c.parent = c'.parent ∧ c.done = c'.done := by
    intro a c' hc'
    have hv := hview a
    rw [hc', Option.map_some] at hv
    obtain ⟨c, hc, heq⟩ := Option.map_eq_some_iff.mp hv.symm
    simp only [Core.carcassView, Prod.mk.injEq] at heq
    exact ⟨c, hc, heq⟩
  have hforth : ∀ a c, cores a = some c →
      ∃ c', cores' a = some c' ∧ c'.tid = c.tid ∧ c'.parent = c.parent ∧ c'.done = c.done := by
    intro a c hc
    have hv := hview a
    rw [hc, Option.map_some] at hv
    obtain ⟨c', hc', heq⟩ := Option.map_eq_some_iff.mp hv
    simp only [Core.carcassView, Prod.mk.injEq] at heq
    exact ⟨c', hc', heq⟩
  refine ⟨?_, ?_, ?_, ?_, ?_, h.finish_lt, h.delete_lt⟩
  · intro a c' hc'
    obtain ⟨c, hc, ht, -, hd⟩ := hback a c' hc'
    rw [← ht, ← hd]
    exact h.finished a c hc
  · intro a c' hc' hdone
    obtain ⟨c, hc, -, -, hd⟩ := hback a c' hc'
    exact h.last a c hc (hd.trans hdone)
  · intro hne
    obtain ⟨c, hc, hdone⟩ := h.carcass hne
    obtain ⟨c', hc', -, -, hd⟩ := hforth _ c hc
    exact ⟨c', hc', hd.trans hdone⟩
  · intro a c' hc' hne
    obtain ⟨c, hc, ht, hp, -⟩ := hback a c' hc'
    rw [← hp] at hne ⊢
    obtain ⟨p, hpc, hdone, hlt⟩ := h.parent a c hc hne
    obtain ⟨p', hpc', hpt, -, hpd⟩ := hforth _ p hpc
    refine ⟨p', hpc', hpd.trans hdone, ?_⟩
    rw [hpt, ← ht]
    exact hlt
  · intro a c' q hc'
    obtain ⟨c, hc, ht, -⟩ := hback a c' hc'
    rw [← ht]
    exact h.gone a c q hc

theorem CarcassInv.update (h : CarcassInv cores carcass nextTid log) {a : SpaceId}
    {c : Core} (c' : Core) (hc : cores a = some c) (hview : c'.carcassView = c.carcassView) :
    CarcassInv (Function.update cores a (some c')) carcass nextTid log := by
  refine h.congr fun b => ?_
  by_cases hb : b = a
  · subst hb
    simp [hc, hview]
  · simp [hb]

/-- Only what finishes and what is deleted counts. -/
theorem CarcassInv.congr_log (h : CarcassInv cores carcass nextTid log)
    {log' : List SchedEvent} (hfin : ∀ k, .finish k ∈ log' ↔ .finish k ∈ log)
    (hdel : ∀ k q, .delete (some k) q ∈ log' ↔ .delete (some k) q ∈ log) :
    CarcassInv cores carcass nextTid log' where
  finished a c hc := (h.finished a c hc).trans (hfin c.tid).symm
  last := h.last
  carcass := h.carcass
  parent := h.parent
  gone a c q hc hmem := h.gone a c q hc ((hdel _ _).mp hmem)
  finish_lt k hk := h.finish_lt k ((hfin k).mp hk)
  delete_lt k q hk := h.delete_lt k q ((hdel k q).mp hk)

theorem CarcassInv.snoc (h : CarcassInv cores carcass nextTid log) {e : SchedEvent}
    (hfin : ∀ k, e ≠ .finish k) (hdel : ∀ k q, e ≠ .delete (some k) q) :
    CarcassInv cores carcass nextTid (log ++ [e]) := by
  refine h.congr_log (fun k => ?_) fun k q => ?_
  · simp [Ne.symm (hfin k)]
  · simp [Ne.symm (hdel k q)]

/-- A new thread, whose parent is alive if it has one. -/
theorem CarcassInv.add (h : CarcassInv cores carcass nextTid log) {b : SpaceId} {c : Core}
    (hb : cores b = none) (hlt : c.tid = nextTid) (hdone : c.done = false)
    (hparent : c.parent ≠ NULL →
      ∃ p, cores c.parent = some p ∧ p.done = false ∧ p.tid < nextTid) :
    CarcassInv (Function.update cores b (some c)) carcass (nextTid + 1) log := by
  have hkeep : ∀ {a d}, cores a = some d → Function.update cores b (some c) a = some d := by
    intro a d hd
    refine update_eq_some.mpr (Or.inr ⟨?_, hd⟩)
    rintro rfl
    rw [hb] at hd
    cases hd
  refine ⟨?_, ?_, ?_, ?_, ?_, fun k hk => Nat.lt_succ_of_lt (h.finish_lt k hk),
    fun k q hk => Nat.lt_succ_of_lt (h.delete_lt k q hk)⟩
  · intro a d hd
    rcases update_eq_some.mp hd with ⟨-, heq⟩ | ⟨-, hd⟩
    · cases heq
      rw [hdone, hlt]
      exact iff_of_false (by simp) fun hk => Nat.lt_irrefl _ (h.finish_lt _ hk)
    · exact h.finished a d hd
  · intro a d hd hdd
    rcases update_eq_some.mp hd with ⟨-, heq⟩ | ⟨-, hd⟩
    · cases heq
      rw [hdone] at hdd
      cases hdd
    · exact h.last a d hd hdd
  · intro hne
    obtain ⟨d, hd, hdd⟩ := h.carcass hne
    exact ⟨d, hkeep hd, hdd⟩
  · intro a d hd hne
    rcases update_eq_some.mp hd with ⟨-, heq⟩ | ⟨-, hd⟩
    · cases heq
      obtain ⟨p, hp, hpd, hplt⟩ := hparent hne
      exact ⟨p, hkeep hp, hpd, hlt ▸ hplt⟩
    · obtain ⟨p, hp, hrest⟩ := h.parent a d hd hne
      exact ⟨p, hkeep hp, hrest⟩
  · intro a d q hd
    rcases update_eq_some.mp hd with ⟨-, heq⟩ | ⟨-, hd⟩
    · cases heq
      exact fun hk => Nat.lt_irrefl _ (hlt ▸ h.delete_lt _ q hk)
    · exact h.gone a d q hd

/-- **The carcass is deleted**; it is nobody's parent. -/
theorem CarcassInv.delete (h : CarcassInv cores carcass nextTid log) {d : Core}
    (hne : carcass ≠ NULL) (hd : cores carcass = some d) (hlt : d.tid < nextTid)
    (hinj : ∀ a c, cores a = some c → c.tid = d.tid → a = carcass) (q : Option ℕ) :
    CarcassInv (Function.update cores carcass none) NULL nextTid
      (log ++ [.delete (some d.tid) q]) := by
  obtain ⟨d', hd', hdone⟩ := h.carcass hne
  obtain rfl : d = d' := Option.some.inj (hd.symm.trans hd')
  have hold : ∀ {a c}, Function.update cores carcass none a = some c →
      a ≠ carcass ∧ cores a = some c := by
    intro a c hc
    rcases update_eq_some.mp hc with ⟨-, hc⟩ | hc
    · cases hc
    · exact hc
  refine ⟨?_, ?_, fun hnull => absurd rfl hnull, ?_, ?_, ?_, ?_⟩
  · intro a c hc
    simpa using h.finished a c (hold hc).2
  · intro a c hc hcd
    exact absurd (h.last a c (hold hc).2 hcd) (hold hc).1
  · intro a c hc hcp
    obtain ⟨p, hp, hpd, hplt⟩ := h.parent a c (hold hc).2 hcp
    refine ⟨p, update_eq_some.mpr (Or.inr ⟨?_, hp⟩), hpd, hplt⟩
    intro heq
    rw [heq, hd] at hp
    cases hp
    rw [hdone] at hpd
    cases hpd
  · intro a c q' hc hmem
    rcases List.mem_append.mp hmem with hmem | hmem
    · exact h.gone a c q' (hold hc).2 hmem
    · obtain ⟨heq, -⟩ := SchedEvent.delete.inj (List.mem_singleton.mp hmem)
      exact (hold hc).1 (hinj a c (hold hc).2 (Option.some.inj heq))
  · intro k hk
    exact h.finish_lt k (by simpa using hk)
  · intro k q' hk
    rcases List.mem_append.mp hk with hk | hk
    · exact h.delete_lt k q' hk
    · obtain ⟨heq, -⟩ := SchedEvent.delete.inj (List.mem_singleton.mp hk)
      exact Option.some.inj heq ▸ hlt

/-- Threads lose their parent. -/
theorem CarcassInv.orphans (h : CarcassInv cores carcass nextTid log)
    {entries : JoinTable} (ho : Orphans entries cores cores') :
    CarcassInv cores' carcass nextTid log := by
  refine ⟨?_, ?_, ?_, ?_, ?_, h.finish_lt, h.delete_lt⟩
  · intro a c hc
    obtain ⟨d, hd, hk⟩ := ho.back hc
    rw [hk.done, hk.tid]
    exact h.finished a d hd
  · intro a c hc hdone
    obtain ⟨d, hd, hk⟩ := ho.back hc
    exact h.last a d hd (hk.done ▸ hdone)
  · intro hne
    obtain ⟨d, hd, hdone⟩ := h.carcass hne
    obtain ⟨c, hc, hk⟩ := ho.forth hd
    exact ⟨c, hc, hk.done.trans hdone⟩
  · intro a c hc hne
    obtain ⟨d, hd, hk⟩ := ho.back hc
    have hpar : c.parent = d.parent := by
      refine hk.parent fun hholds => ?_
      exact hne (hk.orphan hholds)
    obtain ⟨p, hp, hpd, hlt⟩ := h.parent a d hd (hpar ▸ hne)
    obtain ⟨p', hp', hkp⟩ := ho.forth hp
    refine ⟨p', hpar ▸ hp', hkp.done.trans hpd, ?_⟩
    rw [hkp.tid, hk.tid]
    exact hlt
  · intro a c q hc
    obtain ⟨d, hd, hk⟩ := ho.back hc
    rw [hk.tid]
    exact h.gone a d q hd

/-- **A thread that is nobody's parent is over**: it is the carcass now. -/
theorem CarcassInv.bury (h : CarcassInv cores NULL nextTid log) {a : SpaceId} {p : Core}
    (p' : Core) (hnull : cores NULL = none) (hp : cores a = some p) (hlt : p.tid < nextTid)
    (hinj : ∀ b c, cores b = some c → c.tid = p.tid → b = a) (htid : p'.tid = p.tid)
    (hparent : p'.parent = p.parent) (hdone : p'.done = true)
    (horphan : ∀ b c, cores b = some c → c.parent ≠ a) :
    CarcassInv (Function.update cores a (some p')) a nextTid (log ++ [.finish p.tid]) := by
  have hnone : ∀ b c, cores b = some c → c.done = false := by
    intro b c hc
    refine Bool.eq_false_iff.mpr fun hcd => ?_
    obtain rfl := h.last b c hc hcd
    rw [hnull] at hc
    cases hc
  refine ⟨?_, ?_, fun _ => ⟨p', Function.update_self .., hdone⟩, ?_, ?_, ?_, ?_⟩
  · intro b c hc
    rcases update_eq_some.mp hc with ⟨-, heq⟩ | ⟨hb, hc⟩
    · cases heq
      rw [hdone, htid]
      exact iff_of_true rfl (by simp)
    · rw [hnone b c hc]
      refine iff_of_false (by simp) fun hmem => ?_
      rcases List.mem_append.mp hmem with hmem | hmem
      · have hcd := (h.finished b c hc).mpr hmem
        rw [hnone b c hc] at hcd
        cases hcd
      · exact hb (hinj b c hc (SchedEvent.finish.inj (List.mem_singleton.mp hmem)))
  · intro b c hc hcd
    rcases update_eq_some.mp hc with ⟨hb, -⟩ | ⟨-, hc⟩
    · exact hb
    · rw [hnone b c hc] at hcd
      cases hcd
  · have hold : ∀ b c, cores b = some c → c.parent ≠ NULL →
        ∃ q, Function.update cores a (some p') c.parent = some q ∧ q.done = false ∧
          q.tid < c.tid := by
      intro b c hc hne
      obtain ⟨q, hq, hqd, hqlt⟩ := h.parent b c hc hne
      exact ⟨q, update_eq_some.mpr (Or.inr ⟨horphan b c hc, hq⟩), hqd, hqlt⟩
    intro b c hc hne
    rcases update_eq_some.mp hc with ⟨-, heq⟩ | ⟨-, hc⟩
    · cases heq
      rw [hparent] at hne ⊢
      rw [htid]
      exact hold a p hp hne
    · exact hold b c hc hne
  · intro b c q hc hmem
    have hmem' : SchedEvent.delete (some c.tid) q ∈ log := by simpa using hmem
    rcases update_eq_some.mp hc with ⟨-, heq⟩ | ⟨-, hc⟩
    · cases heq
      rw [htid] at hmem'
      exact h.gone a p q hp hmem'
    · exact h.gone b c q hc hmem'
  · intro k hk
    rcases List.mem_append.mp hk with hk | hk
    · exact h.finish_lt k hk
    · exact SchedEvent.finish.inj (List.mem_singleton.mp hk) ▸ hlt
  · intro k q hk
    exact h.delete_lt k q (by simpa using hk)

/-! ## §2  The invariant of a state and its log -/

structure SchedInv (s : Sys) (log : List SchedEvent) : Prop where
  join : ∃ log, Inv s log
  list : ListInv s (¬ Asleep log)
  carcass : CarcassInv s.cores s.threadToBeDestroyed s.nextTid log

/-- Identities, as the join protocol has them. -/
structure TidInv (cores : SpaceId → Option Core) (nextTid : ℕ) : Prop where
  null : cores NULL = none
  tid_lt : ∀ a c, cores a = some c → c.tid < nextTid
  tid_inj : ∀ a b c d, cores a = some c → cores b = some d → c.tid = d.tid → a = b

theorem Inv.tids {jlog : List Event} (h : Inv s jlog) : TidInv s.cores s.nextTid := by
  obtain ⟨owner, hj⟩ := h.join
  exact ⟨hj.null, hj.tid_lt, hj.tid_inj⟩

/-- Threads that stand for old ones keep their identities. -/
theorem TidInv.back (h : TidInv cores nextTid)
    (hback : ∀ a c, cores' a = some c → ∃ d, cores a = some d ∧ c.tid = d.tid) :
    TidInv cores' nextTid := by
  refine ⟨?_, ?_, ?_⟩
  · cases hc : cores' NULL with
    | none => rfl
    | some c =>
        obtain ⟨d, hd, -⟩ := hback _ c hc
        rw [h.null] at hd
        cases hd
  · intro a c hc
    obtain ⟨d, hd, ht⟩ := hback a c hc
    exact ht ▸ h.tid_lt a d hd
  · intro a b c c' hc hc' heq
    obtain ⟨d, hd, ht⟩ := hback a c hc
    obtain ⟨d', hd', ht'⟩ := hback b c' hc'
    exact h.tid_inj a b d d' hd hd' (by rw [← ht, ← ht', heq])

/-- What a step may do to threads: it deletes one that has finished, that was
not deleted before and that is not the current one; and it switches to one that
is still there. -/
def EventOk (pre : List SchedEvent) : SchedEvent → Prop
  | .delete tid current => ∃ k j, tid = some k ∧ current = some j ∧ j ≠ k ∧
      .finish k ∈ pre ∧ ∀ q, .delete (some k) q ∉ pre
  | .switch tid => ∃ k, tid = some k ∧ ∀ q, .delete (some k) q ∉ pre
  | _ => True

theorem logExtends_sleep : LogExtends EventOk log [.sleep] :=
  logExtends_cons trivial (logExtends_nil _ _)

theorem ListInv.of_iff {p q : Prop} (h : ListInv s p) (hpq : p ↔ q) : ListInv s q :=
  propext hpq ▸ h

theorem asleep_snoc {e : SchedEvent} : Asleep (log ++ [e]) ↔ e = .sleep := by
  simp [Asleep]

theorem not_asleep_append {es : List SchedEvent} (hne : es ≠ []) (h : .sleep ∉ es) :
    ¬ Asleep (log ++ es) := by
  intro hasleep
  rw [Asleep, List.getLast?_append_of_ne_nil _ hne] at hasleep
  exact h (List.mem_of_getLast? hasleep)

theorem SchedInv.awake (h : SchedInv s log) {t : Thread}
    (ht : s.heap s.currentThread = some t) (hst : t.status = .RUNNING) : ¬ Asleep log :=
  ((h.list.running _ t ht).mp hst).2

theorem SchedInv.listInv (h : SchedInv s log) {t : Thread}
    (ht : s.heap s.currentThread = some t) (hst : t.status = .RUNNING) :
    ListInv s True :=
  h.list.of_iff (iff_true_intro (h.awake ht hst))

theorem SameJoin.carcassInv (h : SameJoin s s')
    (hi : CarcassInv s.cores s.threadToBeDestroyed s.nextTid log) :
    CarcassInv s'.cores s'.threadToBeDestroyed s'.nextTid log := by
  rw [h.cores, h.carcass, h.nextTid]
  exact hi

theorem exists_heap_of_cores {a : SpaceId} {c : Core} (h : s.cores a = some c) :
    ∃ t, s.heap a = some t ∧ t.core = c := Option.map_eq_some_iff.mp h

theorem finished_of_done {t : Thread} (h : t.core.done = true) : t.cont = .finished := by
  simpa [Thread.core] using h

theorem CarcassInv.heap
    (h : CarcassInv s.cores s.threadToBeDestroyed s.nextTid log)
    (hne : s.threadToBeDestroyed ≠ NULL) :
    ∃ t, s.heap s.threadToBeDestroyed = some t ∧ t.cont = .finished := by
  obtain ⟨c, hc, hdone⟩ := h.carcass hne
  obtain ⟨t, ht, rfl⟩ := exists_heap_of_cores hc
  exact ⟨t, ht, finished_of_done hdone⟩

/-! ## §3  Deleting, switching, finishing -/

/-- **The carcass is deleted**, with its event. -/
theorem deleteCarcass_sched (htids : TidInv s.cores s.nextTid)
    (hi : CarcassInv s.cores s.threadToBeDestroyed s.nextTid log) {t : Thread}
    (ht : s.heap s.currentThread = some t) (hc : t.cont ≠ .finished) :
    (∃ s', s.deleteCarcass = some s') ∧
    ∀ s', s.deleteCarcass = some s' →
      CarcassInv s'.cores s'.threadToBeDestroyed s'.nextTid (log ++ s.carcassEvents) ∧
      LogExtends EventOk log s.carcassEvents := by
  by_cases hnull : s.threadToBeDestroyed = NULL
  · have hdel : s.deleteCarcass = some s := by simp [Sys.deleteCarcass, hnull]
    have hev : s.carcassEvents = [] := by simp [carcassEvents, hnull]
    rw [hdel, hev, List.append_nil]
    refine ⟨⟨s, rfl⟩, fun s' hs' => ?_⟩
    cases hs'
    exact ⟨hi, logExtends_nil _ _⟩
  · obtain ⟨d, hd, hdfin⟩ := hi.heap hnull
    have hcur : s.threadToBeDestroyed ≠ s.currentThread := by
      intro heq
      rw [heq, ht] at hd
      cases hd
      exact hc hdfin
    have hev : s.carcassEvents = [.delete (some d.tid) (some t.tid)] := by
      simp [carcassEvents, hnull, tidOf, hd, ht]
    have hdone : d.core.done = true := by simp [Thread.core, hdfin]
    have htid : t.tid ≠ d.tid := by
      intro heq
      exact hcur (htids.tid_inj _ _ _ _ (cores_of_heap hd) (cores_of_heap ht) heq.symm)
    rw [hev]
    refine ⟨⟨_, by simp [Sys.deleteCarcass, deleteThread, hnull, hcur]; rfl⟩, fun s' hs' => ?_⟩
    obtain ⟨-, hnext, hnull', ⟨hn, -⟩ | ⟨-, -, hcores⟩⟩ := deleteCarcass_cases hs'
    · exact absurd hn hnull
    constructor
    · rw [hcores, hnull', hnext]
      refine hi.delete hnull (cores_of_heap hd) (htids.tid_lt _ _ (cores_of_heap hd)) ?_ _
      intro a c hc' heq
      exact htids.tid_inj _ _ _ _ hc' (cores_of_heap hd) heq
    · refine logExtends_cons ⟨d.tid, t.tid, rfl, rfl, htid, ?_, ?_⟩ (logExtends_nil _ _)
      · exact (hi.finished _ _ (cores_of_heap hd)).mp hdone
      · intro q
        exact hi.gone _ _ q (cores_of_heap hd)

/-- `SWITCH` changes nothing that the protocol can see. -/
theorem nextSwitch_sameJoin (hs : s.nextSwitch = some s') : SameJoin s s' := by
  obtain ⟨key, a, l, t, -, ht, rfl⟩ := nextSwitch_eq_some hs
  refine ⟨?_, rfl, rfl⟩
  exact cores_set_same (s := s) ht rfl

/-- The thread that is switched to is not over. -/
theorem ListInv.next_not_finished (h : ListInv s True) {t : Thread}
    (ht : s.heap s.currentThread = some t) : t.cont ≠ .finished := by
  intro hc
  have hrun : t.status = .RUNNING := (h.running _ t ht).mpr ⟨rfl, trivial⟩
  rw [h.blocked _ t ht hc] at hrun
  cases hrun

theorem backEvents_not_sleep (s : Sys) : .sleep ∉ s.backEvents := by
  unfold backEvents carcassEvents
  split
  · simp
  · split
    · simp
    · split <;> simp

/-- **After `SWITCH`**: a new thread starts, or the carcass goes. -/
theorem afterSwitch_sched (htids : TidInv s.cores s.nextTid) (hlist : ListInv s True)
    (hi : CarcassInv s.cores s.threadToBeDestroyed s.nextTid log) :
    (∃ s', s.afterSwitch = some s') ∧
    ∀ s', s.afterSwitch = some s' → ListInv s' True ∧
      CarcassInv s'.cores s'.threadToBeDestroyed s'.nextTid (log ++ s.backEvents) ∧
      LogExtends EventOk log s.backEvents := by
  obtain ⟨t, ht⟩ := hlist.current
  have hnofin := hlist.next_not_finished ht
  have hkeep : ∀ s', s.afterSwitch = some s' → ListInv s' True :=
    fun s' => hlist.afterSwitch hi.heap
  by_cases hfresh : t.cont = .fresh
  · have hev : s.backEvents = [] := by simp [backEvents, ht, hfresh]
    have hs : s.afterSwitch =
        some (s.set s.currentThread { t with cont := .starting }) := by
      simp [Sys.afterSwitch, ht, hfresh]
    have hcore : { t with cont := .starting : Thread }.core = t.core := by
      simp [Thread.core, hfresh]
    rw [hev, List.append_nil]
    refine ⟨⟨_, hs⟩, fun s' hs' => ⟨hkeep s' hs', ?_, logExtends_nil _ _⟩⟩
    obtain rfl := Option.some.inj (hs.symm.trans hs')
    exact (sameJoin_set ht hcore).carcassInv hi
  · have hev : s.backEvents = s.carcassEvents := by simp [backEvents, ht, hfresh]
    have hs : s.afterSwitch = s.deleteCarcass := by simp [Sys.afterSwitch, ht, hfresh]
    obtain ⟨hsome, hdel⟩ := deleteCarcass_sched htids hi ht hnofin
    rw [hev, hs]
    refine ⟨hsome, fun s' hs' => ?_⟩
    obtain ⟨hcar, hok⟩ := hdel s' hs'
    exact ⟨hkeep s' (hs.trans hs'), hcar, hok⟩

/-- **Dispatching**, once nobody runs: the first thread of the list is switched to. -/
theorem runNext_sched (hjoin : ∃ log, Inv s log) (hlist : ListInv s False)
    (hi : CarcassInv s.cores s.threadToBeDestroyed s.nextTid log) :
    (s.readyList ≠ [] → ∃ s', s.runNext = some s') ∧
    ∀ s', s.runNext = some s' →
      SchedInv s' (log ++ s.dispatchEvents) ∧ LogExtends EventOk log s.dispatchEvents := by
  -- the state at `SWITCH`
  have hswitch : ∀ s₁, s.nextSwitch = some s₁ →
      TidInv s₁.cores s₁.nextTid ∧ ListInv s₁ True ∧
      CarcassInv s₁.cores s₁.threadToBeDestroyed s₁.nextTid log := by
    intro s₁ hs₁
    have hsame := nextSwitch_sameJoin hs₁
    obtain ⟨jlog, hj⟩ := hjoin
    exact ⟨(hsame.inv hj).tids, hlist.nextSwitch hs₁, hsame.carcassInv hi⟩
  constructor
  · intro hne
    obtain ⟨s₁, hs₁⟩ := hlist.exists_nextSwitch hne
    obtain ⟨hj₁, hl₁, hi₁⟩ := hswitch s₁ hs₁
    rw [runNext_eq, hs₁, Option.bind_some]
    exact (afterSwitch_sched hj₁ hl₁ hi₁).1
  · intro s' hs'
    have hrun := hs'
    rw [runNext_eq] at hs'
    obtain ⟨s₁, hs₁, hback⟩ := Option.bind_eq_some_iff.mp hs'
    obtain ⟨hj₁, hl₁, hi₁⟩ := hswitch s₁ hs₁
    obtain ⟨key, a, l, t, hl, ht, -⟩ := nextSwitch_eq_some hs₁
    have hev : s.dispatchEvents = .switch (some t.tid) :: s₁.backEvents := by
      simp [dispatchEvents, hl, hs₁, tidOf, ht]
    obtain ⟨hlist', hcar', hok⟩ := (afterSwitch_sched hj₁ hl₁
      (hi₁.snoc (e := .switch (some t.tid)) (by simp) (by simp))).2 s' hback
    rw [hev]
    refine ⟨⟨?_, hlist'.of_iff ?_, by simpa using hcar'⟩, ?_⟩
    · obtain ⟨jlog, hj⟩ := hjoin
      exact ⟨jlog, runNext_inv hrun hj⟩
    · refine iff_of_true trivial (not_asleep_append (by simp) ?_)
      simpa using backEvents_not_sleep s₁
    · refine logExtends_cons ⟨t.tid, rfl, fun q => ?_⟩ hok
      exact hi.gone a _ q (cores_of_heap ht)

theorem logExtends_after_finish {es : List SchedEvent} (h : LogExtends EventOk log es)
    (k : ℕ) : LogExtends EventOk (log ++ [.finish k]) es := by
  intro pre e post hsplit
  have hok := h pre e post hsplit
  cases e with
  | delete tid current =>
      obtain ⟨k', j, htid, hcur, hne, hfin, hdel⟩ := hok
      refine ⟨k', j, htid, hcur, hne, ?_, fun q => by simpa using hdel q⟩
      simp only [List.append_assoc, List.mem_append] at hfin ⊢
      tauto
  | switch tid =>
      obtain ⟨k', htid, hdel⟩ := hok
      exact ⟨k', htid, fun q => by simpa using hdel q⟩
  | finish k' => trivial
  | sleep => trivial

theorem logExtends_append_sleep {es : List SchedEvent} (h : LogExtends EventOk log es) :
    LogExtends EventOk log (es ++ [.sleep]) := by
  intro pre e post hsplit
  have hlog : LogAll (fun pre e => EventOk (log ++ pre) e) (es ++ [.sleep]) :=
    logAll_snoc.mpr ⟨h, trivial⟩
  exact hlog pre e post hsplit

theorem tidOf_eq (s : Sys) (a : SpaceId) : s.tidOf a = (s.cores a).map Core.tid := by
  simp only [tidOf, cores, Option.map_map]
  rfl

theorem carcassEvents_congr
    (htid : ∀ a, (s'.cores a).map Core.tid = (s.cores a).map Core.tid)
    (hcar : s'.threadToBeDestroyed = s.threadToBeDestroyed)
    (hcur : s'.currentThread = s.currentThread) : s'.carcassEvents = s.carcassEvents := by
  simp only [carcassEvents, tidOf_eq, hcar, hcur, htid]

theorem Orphans.tids {entries : JoinTable} (ho : Orphans entries cores cores')
    (a : SpaceId) : (cores' a).map Core.tid = (cores a).map Core.tid := by
  by_cases ha : ∃ i, entries.Holds i a
  · rw [(ho a).1 ha, Option.map_map]
    rfl
  · rw [(ho a).2 ha]

/-- **`Finish`** of the current thread, whose table has an entry for each of its
children that is not over. -/
theorem finish_sched (htids : TidInv s.cores s.nextTid) (hlist : ListInv s True)
    (hi : CarcassInv s.cores s.threadToBeDestroyed s.nextTid log) {t : Thread}
    (ht : s.heap s.currentThread = some t)
    (hheld : ∀ b c, s.cores b = some c → c.done = false → c.parent = s.currentThread →
      ∃ i, t.jtable.Holds i b) :
    (∃ s', s.finish = some s') ∧
    ∀ s', s.finish = some s' → ListInv s' False ∧
      CarcassInv s'.cores s'.threadToBeDestroyed s'.nextTid (log ++ s.finishEvents t) ∧
      LogExtends EventOk log (s.finishEvents t) := by
  have hnofin := hlist.next_not_finished ht
  have hcurnull : s.currentThread ≠ NULL := by
    intro heq
    have hc := cores_of_heap ht
    rw [heq, htids.null] at hc
    cases hc
  -- `ClearChildren`
  let s₀ : Sys := { s with heap := clearParents s.heap t.jtable }
  have horph : Orphans t.jtable s.cores s₀.cores := orphans_clearParents s t.jtable
  have htids₀ : TidInv s₀.cores s₀.nextTid := htids.back fun a c hc => by
    obtain ⟨d, hd, hk⟩ := horph.back hc
    exact ⟨d, hd, hk.tid⟩
  have hlist₀ : ListInv s₀ True := hlist.clearParents t.jtable
  have hi₀ : CarcassInv s₀.cores s₀.threadToBeDestroyed s₀.nextTid log := hi.orphans horph
  obtain ⟨c₀, hc₀, hk₀⟩ := horph.forth (cores_of_heap ht)
  obtain ⟨t₀, ht₀, rfl⟩ := exists_heap_of_cores hc₀
  have hnofin₀ : t₀.cont ≠ .finished := by
    intro hfin
    have hdone := hk₀.done
    simp only [Thread.core, hfin, decide_true] at hdone
    exact hnofin (finished_of_done hdone.symm)
  -- the carcass before this one
  obtain ⟨⟨s₁, hs₁⟩, hdel⟩ := deleteCarcass_sched htids₀ hi₀ ht₀ hnofin₀
  obtain ⟨hi₁, hok⟩ := hdel s₁ hs₁
  have hevents : s₀.carcassEvents = s.carcassEvents := carcassEvents_congr horph.tids rfl rfl
  rw [hevents] at hi₁ hok
  obtain ⟨hcur₁, hnext₁, hnull₁, -⟩ := deleteCarcass_cases hs₁
  have hlist₁ : ListInv s₁ True := hlist₀.deleteCarcass hi₀.heap hs₁
  have hback₁ : ∀ b c, s₁.cores b = some c → ∃ d, s.cores b = some d ∧ Kept t.jtable b d c :=
    fun b c hc => horph.back (deleteCarcass_cores hs₁ hc)
  have htids₁ : TidInv s₁.cores s₁.nextTid := by
    rw [hnext₁]
    refine htids.back fun a c hc => ?_
    obtain ⟨d, hd, hk⟩ := hback₁ a c hc
    exact ⟨d, hd, hk.tid⟩
  obtain ⟨t₁, ht₁⟩ := hlist₁.current
  obtain ⟨d₁, hd₁, hk₁⟩ := hback₁ _ _ (cores_of_heap ht₁)
  have hcur : s₁.currentThread = s.currentThread := hcur₁
  rw [hcur, cores_of_heap ht] at hd₁
  cases hd₁
  have hfinish : s.finish = some
      { s₁.set s₁.currentThread
          { t₁ with jtable := t₁.jtable.clear, status := .BLOCKED, cont := .finished }
        with threadToBeDestroyed := s₁.currentThread } := by
    simp only [finish, ht, Option.bind_eq_bind, Option.bind_some]
    rw [show deleteCarcass { s with heap := clearParents s.heap t.jtable } = some s₁ from hs₁]
    simp only [Option.bind_some, ht₁]
  rw [hnull₁] at hi₁
  -- nobody who is left has this thread as its parent
  have horphan : ∀ b c, s₁.cores b = some c → c.parent ≠ s₁.currentThread := by
    intro b c hc hpar
    rw [hcur] at hpar
    have hdone : c.done = false := by
      refine Bool.eq_false_iff.mpr fun hdone => ?_
      obtain rfl := hi₁.last b c hc hdone
      rw [htids₁.null] at hc
      cases hc
    obtain ⟨d, hd, hk⟩ := hback₁ b c hc
    by_cases hholds : ∃ i, t.jtable.Holds i b
    · exact hcurnull (hpar.symm.trans (hk.orphan hholds))
    · exact hholds (hheld b d hd (hk.done ▸ hdone) ((hk.parent hholds).symm.trans hpar))
  have hbury := hi₁.bury
    { t₁ with jtable := t₁.jtable.clear, status := .BLOCKED, cont := .finished : Thread }.core
    htids₁.null (cores_of_heap ht₁) (htids₁.tid_lt _ _ (cores_of_heap ht₁))
    (fun b c hc heq => htids₁.tid_inj _ _ _ _ hc (cores_of_heap ht₁) heq) rfl rfl
    (by simp [Thread.core]) horphan
  have htid₁ : t₁.core.tid = t.tid := hk₁.tid
  refine ⟨⟨_, hfinish⟩, fun s' hs' => ?_⟩
  obtain rfl := Option.some.inj (hfinish.symm.trans hs')
  refine ⟨?_, ?_, ?_⟩
  · exact (hlist₁.block ht₁ rfl).congr (fun _ => rfl) rfl rfl
  · rw [← cores_set, htid₁] at hbury
    refine hbury.congr_log (fun k => ?_) fun k q => ?_
    · simp [finishEvents, or_comm, or_left_comm]
    · simp [finishEvents]
  · exact logExtends_cons trivial (logExtends_append_sleep (logExtends_after_finish hok t.tid))

/-! ## §4  The system calls -/

/-- The table of a running thread has an entry for each of its children. -/
theorem children_held {jlog : List Event} (hj : Inv s jlog) {t : Thread}
    (ht : s.heap s.currentThread = some t) {b : SpaceId} {c : Core} (hc : s.cores b = some c)
    (hdone : c.done = false) (hpar : c.parent = s.currentThread) :
    ∃ i, t.jtable.Holds i b := by
  obtain ⟨⟨owner, hji⟩, halive, -⟩ := hj
  have hne : c.parent ≠ NULL := by
    rw [hpar]
    exact hji.ne_null (cores_of_heap ht)
  obtain ⟨p, hp, i, hi, -⟩ := hji.child b c hc (halive b c hc hdone) hne
  rw [hpar, cores_of_heap ht] at hp
  cases hp
  exact ⟨i, hi⟩

/-- A thread that gives up the processor with `Yield` is on the list. -/
theorem yield_sched (hi : SchedInv s log) {t : Thread} (ht : s.heap s.currentThread = some t)
    (hst : t.status = .RUNNING) (hc : t.cont ≠ .finished) :
    ∃ s₁, (s.set s.currentThread { t with cpu := t.cpu + s.quantum }).readyToRun
        s.currentThread = some s₁ ∧
      (∃ log, Inv s₁ log) ∧ ListInv s₁ False ∧ s₁.readyList ≠ [] ∧
      CarcassInv s₁.cores s₁.threadToBeDestroyed s₁.nextTid log := by
  let t₁ : Thread := { t with cpu := t.cpu + s.quantum }
  have hset : SameJoin s (s.set s.currentThread t₁) := sameJoin_set ht rfl
  have hlist : ListInv (s.set s.currentThread t₁) True := (hi.listInv ht hst).set ht rfl
  obtain ⟨s₁, hready⟩ : ∃ s₁, (s.set s.currentThread t₁).readyToRun s.currentThread = some s₁ :=
    ⟨_, Option.map_eq_some_iff.mpr ⟨t₁, heap_set_self .., rfl⟩⟩
  have hsame := hset.trans (readyToRun_sameJoin hready).1
  refine ⟨s₁, hready, ?_, ?_, ?_, hsame.carcassInv hi.carcass⟩
  · obtain ⟨jlog, hj⟩ := hi.join
    exact ⟨jlog, hsame.inv hj⟩
  · refine (hlist.readyToRun (heap_set_self ..) ?_ hc hready).of_iff ?_
    · rw [show t₁.status = .RUNNING from hst]
      simp
    · simp
  · have hmem : s.currentThread ∈ s₁.listed :=
      (readyToRun_listed hready).mem_iff.mpr List.mem_cons_self
    rintro hnil
    simp [listed, hnil] at hmem

/-- A new thread is made ready. -/
theorem ListInv.create {tmp : SpaceId} {child : Thread} {pid : BitVec 32} {tid : ℕ}
    (h : ListInv s True) (hfree : s.heap tmp = none) (hne : tmp ≠ s.currentThread)
    (hst : child.status = .JUST_CREATED) (hc : child.cont ≠ .finished)
    (hready : { s.set tmp child with serialPid := pid, nextTid := tid }.readyToRun tmp =
      some s') : ListInv s' True := by
  have hadd : ListInv (s.set tmp child) True := h.add hfree hst hc
  have hnew : ListInv { s.set tmp child with serialPid := pid, nextTid := tid } True :=
    hadd.congr (fun _ => rfl) rfl rfl
  refine (hnew.readyToRun (t := child) (heap_set_self ..) ?_ hc hready).of_iff ?_
  · simp [hst]
  · simpa using hne

/-- **`Exec`**: a new thread, ready to run. -/
theorem exec_sched (hi : SchedInv s log) {t : Thread} {tmp : SpaceId} {prio : BitVec 32}
    (ht : s.heap s.currentThread = some t) (hst : t.status = .RUNNING)
    (hc : t.cont ≠ .finished) (hfree : s.heap tmp = none)
    (h : s.exec tmp prio = some s') :
    ListInv s' True ∧
      CarcassInv s'.cores s'.threadToBeDestroyed s'.nextTid log := by
  obtain ⟨pos, -, -, hcores, hcar, hnext, -⟩ := exec_steps h ht
  obtain ⟨jlog, hj⟩ := hi.join
  have hcore := cores_of_heap ht
  have hne : tmp ≠ s.currentThread := by
    rintro rfl
    rw [ht] at hfree
    cases hfree
  constructor
  · simp only [exec, ht, Option.bind_eq_bind, Option.bind_some,
      Option.bind_eq_some_iff] at h
    obtain ⟨jt, -, hready⟩ := h
    have hset : ListInv (s.set s.currentThread { t with jtable := jt }) True :=
      (hi.listInv ht hst).set ht rfl
    exact hset.create (by simpa [Sys.set, hne] using hfree) hne rfl (by simp [Thread.new]) hready
  · rw [hcores, hcar, hnext]
    have hupd := hi.carcass.update { t.core with
      jtable := Function.update t.jtable pos ⟨true, tmp, s.serialPid, CODENOTENDED⟩ } hcore rfl
    refine hupd.add ?_ rfl rfl fun _ => ⟨_, Function.update_self .., ?_, ?_⟩
    · simp [Function.update_of_ne hne, cores, hfree]
    · simp [Thread.core, hc]
    · exact show t.tid < s.nextTid from hj.tids.tid_lt _ _ hcore

theorem fork_sched (hi : SchedInv s log) {tmp : SpaceId} {prio : BitVec 32} (hawake : s.Awake)
    (hfree : s.heap tmp = none) (h : s.fork tmp prio = some s') :
    ListInv s' True ∧
      CarcassInv s'.cores s'.threadToBeDestroyed s'.nextTid log := by
  obtain ⟨t, ht, hst, -⟩ := hawake
  obtain ⟨hcores, hcar, hnext, -⟩ := fork_steps h
  have hne : tmp ≠ s.currentThread := by
    rintro rfl
    rw [ht] at hfree
    cases hfree
  constructor
  · exact (hi.listInv ht hst).create hfree hne rfl (by simp [Thread.new]) h
  · rw [hcores, hcar, hnext]
    exact hi.carcass.add (by simp [cores, hfree]) rfl rfl fun hne => absurd rfl hne

/-- **The code reaches the parent**: it is alive, it has the entry, and it is on
the list if it was asleep. -/
theorem notify_sched (hi : SchedInv s log) {t : Thread} (ht : s.heap s.currentThread = some t)
    (hst : t.status = .RUNNING) (hpar : t.parent ≠ NULL) (code : BitVec 32) :
    ∃ s₁, ((s.setEndCode t.parent s.currentThread t.pid code).bind
        fun s => s.wakeUp t.parent) = some s₁ ∧
      s₁.currentThread = s.currentThread ∧
      s₁.threadToBeDestroyed = s.threadToBeDestroyed ∧ s₁.nextTid = s.nextTid ∧
      s₁.heap s.currentThread = some t ∧ ListInv s₁ True ∧
      ∀ a, (s₁.cores a).map Core.carcassView = (s.cores a).map Core.carcassView := by
  have hlist := hi.listInv ht hst
  obtain ⟨jlog, ⟨owner, hj⟩, halive, -⟩ := hi.join
  have hcore := cores_of_heap ht
  have hdone := t.not_done (hlist.next_not_finished ht)
  obtain ⟨pc, hpc, hpdone, hlt⟩ := hi.carcass.parent _ _ hcore hpar
  obtain ⟨p, (hp : s.heap t.parent = some p), rfl⟩ := exists_heap_of_cores hpc
  obtain ⟨i, hfind, -⟩ := hj.find_child hcore (halive _ _ hcore hdone) hpar hpc
  have hne : t.parent ≠ s.currentThread := by
    intro heq
    rw [heq, ht] at hp
    cases hp
    exact Nat.lt_irrefl _ hlt
  let p₁ : Thread := { p with
    jtable := Function.update p.jtable i { p.jtable i with code := code } }
  have hend : s.setEndCode t.parent s.currentThread t.pid code = some (s.set t.parent p₁) := by
    have hjt : p.jtable.setEndCode s.currentThread t.pid code = some p₁.jtable :=
      Option.map_eq_some_iff.mpr ⟨i, hfind, rfl⟩
    simp [setEndCode, hp, hjt, p₁]
  have hset : ListInv (s.set t.parent p₁) True := hlist.set hp rfl
  have hview : ∀ a, ((s.set t.parent p₁).cores a).map Core.carcassView =
      (s.cores a).map Core.carcassView := by
    intro a
    rw [cores_set]
    by_cases ha : a = t.parent
    · subst ha
      rw [Function.update_self, cores_of_heap hp]
      rfl
    · rw [Function.update_of_ne ha]
  have hcur : (s.set t.parent p₁).heap s.currentThread = some t := by
    simpa [Sys.set, Ne.symm hne] using ht
  rw [hend, Option.bind_some]
  by_cases hblocked : p₁.status = .BLOCKED
  · obtain ⟨s₁, hready⟩ : ∃ s₁, (s.set t.parent p₁).readyToRun t.parent = some s₁ :=
      ⟨_, Option.map_eq_some_iff.mpr ⟨p₁, heap_set_self .., rfl⟩⟩
    have hwake : (s.set t.parent p₁).wakeUp t.parent = some s₁ := by
      simp [wakeUp, hblocked, hready]
    obtain ⟨hsame, hcur₁⟩ := readyToRun_sameJoin hready
    refine ⟨s₁, hwake, hcur₁, hsame.carcass, hsame.nextTid, ?_, ?_, ?_⟩
    · obtain ⟨u, -, rfl⟩ := Option.map_eq_some_iff.mp hready
      simpa [Sys.set, Ne.symm hne] using ht
    · refine (hset.readyToRun (heap_set_self ..) ?_ ?_ hready).of_iff ?_
      · simp [hblocked]
      · intro hfin
        simp [Thread.core, show p.cont = .finished from hfin] at hpdone
      · simpa using hne
    · rw [hsame.cores]
      exact hview
  · refine ⟨s.set t.parent p₁, ?_, rfl, rfl, rfl, hcur, hset, hview⟩
    simp [wakeUp, hblocked]

/-- The running thread finishes. -/
theorem running_finish_sched (hi : SchedInv s log) {t : Thread}
    (ht : s.heap s.currentThread = some t) (hst : t.status = .RUNNING) :
    (∃ s', s.finish = some s') ∧
    ∀ s', s.finish = some s' → ListInv s' False ∧
      CarcassInv s'.cores s'.threadToBeDestroyed s'.nextTid (log ++ s.finishEvents t) ∧
      LogExtends EventOk log (s.finishEvents t) := by
  obtain ⟨jlog, hj⟩ := hi.join
  exact finish_sched hj.tids (hi.listInv ht hst) hi.carcass ht fun b c => children_held hj ht

/-- **`Exit`**, and every other way to `Finish`. -/
theorem exit_sched (hi : SchedInv s log) {t : Thread} (ht : s.heap s.currentThread = some t)
    (hst : t.status = .RUNNING) (code : BitVec 32) :
    (∃ s', s.exit code = some s') ∧
    ∀ s', s.exit code = some s' → ListInv s' False ∧
      CarcassInv s'.cores s'.threadToBeDestroyed s'.nextTid (log ++ s.finishEvents t) ∧
      LogExtends EventOk log (s.finishEvents t) := by
  have hlist := hi.listInv ht hst
  obtain ⟨jlog, hj⟩ := hi.join
  by_cases hpar : t.parent = NULL
  · have hexit : s.exit code = s.finish := by simp [exit, ht, hpar]
    rw [hexit]
    exact running_finish_sched hi ht hst
  · obtain ⟨s₁, hnotify, hcur, hcar, hnext, ht₁, hlist₁, hview⟩ :=
      notify_sched hi ht hst hpar code
    have hexit : s.exit code = s₁.finish := by
      simp only [exit, ht, Option.bind_eq_bind, Option.bind_some, if_neg hpar]
      rw [← Option.bind_assoc, hnotify, Option.bind_some]
    -- each core stands for an old one
    have hback : ∀ a c, s₁.cores a = some c → ∃ d, s.cores a = some d ∧ d.tid = c.tid ∧
        d.parent = c.parent ∧ d.done = c.done := by
      intro a c hc
      have hv := hview a
      rw [hc, Option.map_some] at hv
      obtain ⟨d, hd, heq⟩ := Option.map_eq_some_iff.mp hv.symm
      simp only [Core.carcassView, Prod.mk.injEq] at heq
      exact ⟨d, hd, heq⟩
    have htids₁ : TidInv s₁.cores s₁.nextTid := by
      rw [hnext]
      refine hj.tids.back fun a c hc => ?_
      obtain ⟨d, hd, ht, -⟩ := hback a c hc
      exact ⟨d, hd, ht.symm⟩
    have hi₁ : CarcassInv s₁.cores s₁.threadToBeDestroyed s₁.nextTid log := by
      rw [hcar, hnext]
      exact hi.carcass.congr hview
    have hev : s₁.finishEvents t = s.finishEvents t := by
      have htid : ∀ a, (s₁.cores a).map Core.tid = (s.cores a).map Core.tid := by
        intro a
        have hv := congrArg (Option.map Prod.fst) (hview a)
        simpa only [Option.map_map, Function.comp_def, Core.carcassView] using hv
      rw [finishEvents, finishEvents, carcassEvents_congr htid hcar hcur]
    rw [hexit, ← hev]
    refine finish_sched htids₁ hlist₁ hi₁ (by rw [hcur, ht₁]) ?_
    intro b c hc hdone hparent
    obtain ⟨d, hd, -, hdp, hdd⟩ := hback b c hc
    exact children_held hj ht hd (hdd.trans hdone) ((hdp.trans hparent).trans hcur)

/-- **One turn of `Join`**. -/
theorem joinLoop_sched (hi : SchedInv s log) {t : Thread} {id : SpaceId} {spid : BitVec 32}
    (ht : s.heap s.currentThread = some t) (hst : t.status = .RUNNING)
    (hc : t.cont ≠ .finished) (h : s.joinLoop id spid = some s') :
    ListInv s' (¬ Asleep (log ++ joinEvents t id spid)) ∧
      CarcassInv s'.cores s'.threadToBeDestroyed s'.nextTid (log ++ joinEvents t id spid) ∧
      LogExtends EventOk log (joinEvents t id spid) := by
  have hlist := hi.listInv ht hst
  have hev : joinEvents t id spid = if joinEvent t id spid = [] then [.sleep] else [] := by
    have hjoin := h
    simp only [joinLoop, ht, Option.bind_eq_bind, Option.bind_some,
      Option.bind_eq_some_iff] at hjoin
    obtain ⟨⟨res, jt⟩, hfin, -⟩ := hjoin
    by_cases hres : res = CODENOTENDED <;> simp [joinEvents, joinEvent, hfin, hres]
  obtain ⟨pos, -, ⟨-, hnone, rfl⟩ | ⟨-, hsome, rfl⟩⟩ := joinLoop_steps h ht
  · rw [hev, if_pos hnone]
    refine ⟨(hlist.block ht rfl).of_iff ?_, ?_, logExtends_sleep⟩
    · simp [asleep_snoc]
    · refine CarcassInv.snoc ?_ (by simp) (by simp)
      exact (sameJoin_set ht (by simp [Thread.core, hc])).carcassInv hi.carcass
  · rw [hev, if_neg (by simp [hsome]), List.append_nil]
    refine ⟨(hlist.set ht (by simp [Thread.listView, hc])).of_iff ?_, ?_, logExtends_nil _ _⟩
    · exact iff_of_true trivial (hi.awake ht hst)
    · rw [cores_set]
      exact hi.carcass.update _ (cores_of_heap ht) (by simp [Core.carcassView, Thread.core, hc])

/-! ## §5  Every run -/

/-- **The step lemma.** -/
theorem schedInv_step {a : SchedAct} (hi : SchedInv s log) (hstep : s.schedStep a = some s') :
    SchedInv s' (log ++ s.schedEvent a) ∧ LogExtends EventOk log (s.schedEvent a) := by
  have hjoin := inv_schedStep hstep hi.join
  -- the steps that end in `Finish`
  have ends : ∀ t, s.schedEvent a = s.finishEvents t → ListInv s' False ∧
      CarcassInv s'.cores s'.threadToBeDestroyed s'.nextTid (log ++ s.finishEvents t) ∧
      LogExtends EventOk log (s.finishEvents t) →
      SchedInv s' (log ++ s.schedEvent a) ∧ LogExtends EventOk log (s.schedEvent a) := by
    rintro t hev ⟨hlist, hcar, hok⟩
    rw [hev]
    have hasleep : Asleep (log ++ s.finishEvents t) := by
      rw [finishEvents, ← List.cons_append, ← List.append_assoc, asleep_snoc]
    exact ⟨⟨hjoin, hlist.of_iff (by simp [hasleep]), hcar⟩, hok⟩
  -- the steps that leave no event
  have quiet : s.schedEvent a = [] → ListInv s' (¬ Asleep log) →
      CarcassInv s'.cores s'.threadToBeDestroyed s'.nextTid log →
      SchedInv s' (log ++ s.schedEvent a) ∧ LogExtends EventOk log (s.schedEvent a) := by
    intro hev hlist hcar
    rw [hev, List.append_nil]
    exact ⟨⟨hjoin, hlist, hcar⟩, logExtends_nil _ _⟩
  cases schedStep_cases hstep with
  | act a s' h =>
      cases h with
      | tick =>
          refine quiet ?_ (hi.list.congr (fun _ => rfl) rfl rfl) hi.carcass
          unfold schedEvent
          split <;> rfl
      | yield t s' ht h =>
          obtain ⟨t', ht', hguard⟩ := Option.bind_eq_some_iff.mp hstep
          obtain rfl : t = t' := Option.some.inj (ht.symm.trans ht')
          obtain ⟨hst, hc⟩ := (Option.ite_none_right_eq_some.mp hguard).1
          obtain ⟨s₁, hready, hj₁, hl₁, -, hi₁⟩ := yield_sched hi ht hst hc
          obtain ⟨u, s₂, hu, hready', hrun⟩ := yield_steps h
          rw [ht] at hu
          cases hu
          obtain rfl : s₁ = s₂ := Option.some.inj (hready.symm.trans hready')
          have hev : s.schedEvent (.act .yield) = s₁.dispatchEvents := by
            simp [schedEvent, ht, hready]
          rw [hev]
          exact (runNext_sched hj₁ hl₁ hi₁).2 s' hrun
      | dispatch t s' ht h =>
          obtain ⟨t', ht', hguard⟩ := Option.bind_eq_some_iff.mp hstep
          obtain rfl : t = t' := Option.some.inj (ht.symm.trans ht')
          have hst := (Option.ite_none_right_eq_some.mp hguard).1
          have hnot : ¬ ¬ Asleep log := by
            intro hawake
            have hrun := (hi.list.running _ t ht).mpr ⟨rfl, hawake⟩
            rw [hst] at hrun
            cases hrun
          have hev : s.schedEvent (.act .dispatch) = s.dispatchEvents := by
            simp [schedEvent, ht]
          rw [hev]
          exact (runNext_sched hi.join (hi.list.of_iff (iff_false_intro hnot)) hi.carcass).2
            s' h
      | start t ht hc =>
          refine quiet (by simp [schedEvent, ht]) (hi.list.set ht ?_) ?_
          · simp [Thread.listView, hc]
          · exact (sameJoin_set ht (by simp [Thread.core, hc])).carcassInv hi.carcass
      | exec tmp prio t s' ht hst hc hnull hfree h =>
          obtain ⟨hlist, hcar⟩ := exec_sched hi ht hst (by simp [hc]) hfree h
          exact quiet (by simp [schedEvent, ht])
            (hlist.of_iff (iff_of_true trivial (hi.awake ht hst))) hcar
      | exit code t s' ht hc h =>
          have hst := (Option.ite_none_right_eq_some.mp hstep).1.running ht
          exact ends t (by simp [schedEvent, ht]) ((exit_sched hi ht hst code).2 s' h)
      | join id stale t s' ht hc h =>
          have hst := (Option.ite_none_right_eq_some.mp hstep).1.running ht
          have hev : s.schedEvent (.act (.join id stale)) =
              joinEvents t id (s.readPid id stale) := by simp [schedEvent, ht]
          obtain ⟨hlist, hcar, hok⟩ := joinLoop_sched hi ht hst (by simp [hc]) h
          rw [hev]
          exact ⟨⟨hjoin, hlist, hcar⟩, hok⟩
      | resume id spid t s' ht hc h =>
          obtain ⟨t', ht', hguard⟩ := Option.bind_eq_some_iff.mp hstep
          obtain rfl : t = t' := Option.some.inj (ht.symm.trans ht')
          have hst : t.status = .RUNNING := by
            split at hguard
            · assumption
            · cases hguard
          have hev : s.schedEvent (.act .resume) = joinEvents t id spid := by
            simp [schedEvent, ht, hc]
          obtain ⟨hlist, hcar, hok⟩ := joinLoop_sched hi ht hst (by simp [hc]) h
          rw [hev]
          exact ⟨⟨hjoin, hlist, hcar⟩, hok⟩
      | kill t s' ht hc h =>
          have hst := (Option.ite_none_right_eq_some.mp hstep).1.running ht
          exact ends t (by simp [schedEvent, ht]) ((running_finish_sched hi ht hst).2 s' h)
  | fork tmp prio s' hawake hnull hfree h =>
      obtain ⟨hlist, hcar⟩ := fork_sched hi hawake hfree h
      obtain ⟨t, ht, hst, -⟩ := hawake
      exact quiet (by simp [schedEvent, ht])
        (hlist.of_iff (iff_of_true trivial (hi.awake ht hst))) hcar
  | sleep t ht hst hc =>
      have hev : s.schedEvent .sleep = [.sleep] := by simp [schedEvent, ht]
      have hsame : SameJoin s (s.set s.currentThread { t with status := .BLOCKED }) :=
        sameJoin_set ht rfl
      rw [hev]
      refine ⟨⟨hjoin, ((hi.listInv ht hst).block ht rfl).of_iff ?_, ?_⟩, logExtends_sleep⟩
      · simp [asleep_snoc]
      · exact (hsame.carcassInv hi.carcass).snoc (by simp) (by simp)
  | finish t s' ht hst hc h =>
      exact ends t (by simp [schedEvent, ht]) ((running_finish_sched hi ht hst).2 s' h)

theorem schedInv_init (algorithm : Algorithm) {main : SpaceId} (hmain : main ≠ NULL) :
    SchedInv (init algorithm main) [] := by
  have hcores : ∀ a c, (init algorithm main).cores a = some c →
      c = ⟨0, 0, NULL, JoinTable.new, false⟩ := by
    intro a c hc
    obtain ⟨t, ht, rfl⟩ := exists_heap_of_cores hc
    simp [(heap_init ht).2, Thread.core, Thread.new]
  refine ⟨⟨[], inv_init algorithm hmain⟩, ⟨?_, ?_, ?_, ?_, ?_, ?_⟩,
    ⟨?_, ?_, fun h => absurd rfl h, ?_, by simp, by simp, by simp⟩⟩
  · exact ⟨{ Thread.new 0 0 10 with status := .RUNNING, cont := .starting }, by simp [init]⟩
  · intro a t ht
    obtain ⟨rfl, rfl⟩ := heap_init ht
    simp [init, Asleep]
  · intro a t ht
    obtain ⟨rfl, rfl⟩ := heap_init ht
    simp [listed, init]
  · simp [listed, init]
  · simp [listed, init]
  · intro a t ht hfin
    obtain ⟨rfl, rfl⟩ := heap_init ht
    cases hfin
  · intro a c hc
    simp [hcores a c hc]
  · intro a c hc hdone
    simp [hcores a c hc] at hdone
  · intro a c hc hne
    simp [hcores a c hc] at hne

/-- What every run satisfies, with its events. -/
theorem schedInv_run (algorithm : Algorithm) {main : SpaceId} (hmain : main ≠ NULL)
    {as : List SchedAct} {s : Sys} {log : List SchedEvent}
    (hrun : PartialMachine.run (logged schedStep schedEvent) (init algorithm main, []) as =
      some (s, log)) : SchedInv s log ∧ LogAll EventOk log := by
  refine run_induction (motive := fun _ c => SchedInv c.1 c.2 ∧ LogAll EventOk c.2)
    ⟨schedInv_init algorithm hmain, logAll_nil _⟩ ?_ as (s, log) hrun
  rintro as ⟨s, log⟩ a ⟨s', log'⟩ - ⟨hi, hlog⟩ hstep
  obtain ⟨hstep, rfl⟩ := logged_eq_some.mp hstep
  obtain ⟨hi', hok⟩ := schedInv_step hi hstep
  exact ⟨hi', logAll_append.mpr ⟨hlog, hok⟩⟩

/-! ## §6  Statuses, the ready list and the parents -/

/-- The list holds each `READY` thread once and no other one, none that has
executed `Finish`; and no parent has executed it. -/
structure ListAgrees (s : Sys) (log : List SchedEvent) : Prop where
  ready : ∀ a t, s.heap a = some t → t.status = .READY → s.listed.count a = 1
  other : ∀ a t, s.heap a = some t → t.status ≠ .READY → a ∉ s.listed
  listed : ∀ a ∈ s.listed, ∃ t, s.heap a = some t ∧ .finish t.tid ∉ log
  parent : ∀ a t, s.heap a = some t → t.parent ≠ NULL →
    ∃ p, s.heap t.parent = some p ∧ .finish p.tid ∉ log

def OnlyCurrentRuns (s : Sys) : Prop :=
  (∃ t, s.heap s.currentThread = some t) ∧
    ∀ a t, s.heap a = some t → (t.status = .RUNNING ↔ a = s.currentThread)

theorem ListInv.agrees {awake : Prop} (h : ListInv s awake)
    (hi : CarcassInv s.cores s.threadToBeDestroyed s.nextTid log) : ListAgrees s log := by
  -- only what is over has executed `Finish`
  have hfinish : ∀ a t, s.heap a = some t → t.cont ≠ .finished → .finish t.tid ∉ log := by
    intro a t ht hc hmem
    exact hc (finished_of_done ((hi.finished _ _ (cores_of_heap ht)).mpr hmem))
  refine ⟨?_, ?_, ?_, ?_⟩
  · intro a t ht hst
    exact List.count_eq_one_of_mem h.once ((h.ready a t ht).mp hst)
  · intro a t ht hst
    exact h.not_listed ht hst
  · intro a ha
    obtain ⟨t, ht⟩ := h.lives a ha
    refine ⟨t, ht, hfinish a t ht fun hc => ?_⟩
    have hready := (h.ready a t ht).mpr ha
    rw [h.blocked a t ht hc] at hready
    cases hready
  · intro a t ht hne
    obtain ⟨p, hp, hdone, -⟩ := hi.parent _ _ (cores_of_heap ht) hne
    obtain ⟨u, hu, rfl⟩ := exists_heap_of_cores hp
    refine ⟨u, hu, hfinish _ u hu fun hc => ?_⟩
    simp [Thread.core, hc] at hdone

theorem ListInv.onlyCurrentRuns (h : ListInv s True) : OnlyCurrentRuns s :=
  ⟨h.current, fun a t ht => by rw [h.running a t ht, and_true]⟩

/-- The state at a `SWITCH` keeps all of it. -/
theorem SchedInv.atSwitch (hi : SchedInv s log) {a : SchedAct} {s₁ : Sys}
    (h : s.atSwitch a = some s₁) :
    ListInv s₁ True ∧ CarcassInv s₁.cores s₁.threadToBeDestroyed s₁.nextTid log := by
  unfold Sys.atSwitch at h
  split at h
  · simp only [Option.bind_eq_bind, Option.bind_eq_some_iff,
      Option.ite_none_right_eq_some] at h
    obtain ⟨t, ht, ⟨hst, hc⟩, s₂, hready, hs₁⟩ := h
    obtain ⟨s₃, hready', -, hl, -, hcar⟩ := yield_sched hi ht hst hc
    obtain rfl : s₃ = s₂ := Option.some.inj (hready'.symm.trans hready)
    exact ⟨hl.nextSwitch hs₁, (nextSwitch_sameJoin hs₁).carcassInv hcar⟩
  · simp only [Option.bind_eq_bind, Option.bind_eq_some_iff,
      Option.ite_none_right_eq_some] at h
    obtain ⟨t, ht, hst, hs₁⟩ := h
    have hnot : ¬ ¬ Asleep log := by
      intro hawake
      have hrun := (hi.list.running _ t ht).mpr ⟨rfl, hawake⟩
      rw [hst] at hrun
      cases hrun
    exact ⟨(hi.list.of_iff (iff_false_intro hnot)).nextSwitch hs₁,
      (nextSwitch_sameJoin hs₁).carcassInv hi.carcass⟩
  · cases h

/-- **Thread states and the ready list agree**, in every run: wherever the
current thread has not just gone to sleep, and at every `SWITCH`, it is the only
one that is `RUNNING`; and there and between, the list holds just the `READY`
threads, once each, no thread that has executed `Finish`, and no parent has. -/
theorem threads_agree_with_readyList (algorithm : Algorithm) (main : SpaceId)
    (hmain : main ≠ NULL) (as : List SchedAct) (s : Sys) (log : List SchedEvent)
    (hrun : PartialMachine.run (logged schedStep schedEvent) (init algorithm main, []) as =
      some (s, log)) :
    ListAgrees s log ∧ (¬ Asleep log → OnlyCurrentRuns s) ∧
      ∀ a s₁, s.atSwitch a = some s₁ → ListAgrees s₁ log ∧ OnlyCurrentRuns s₁ := by
  obtain ⟨hi, -⟩ := schedInv_run algorithm hmain hrun
  refine ⟨hi.list.agrees hi.carcass, fun hawake => ?_, fun a s₁ hs₁ => ?_⟩
  · exact (hi.list.of_iff (iff_true_intro hawake)).onlyCurrentRuns
  · obtain ⟨hlist, hcar⟩ := hi.atSwitch hs₁
    exact ⟨hlist.agrees hcar, hlist.onlyCurrentRuns⟩

/-- The main thread starts children at 2 and 3; the first exits into the second,
which has never run, and that one exits into the main thread. -/
def execExitExit : List SchedAct :=
  [.act .start, .act (.exec 2 0), .act (.exec 3 0), .act .yield, .act .start,
    .act (.exit 7), .act .dispatch, .act .start, .act (.exit 8), .act .dispatch]

theorem threads_agree_with_readyList_execExitExit : ∃ s log,
    PartialMachine.run (logged schedStep schedEvent) (init .a1 1, []) execExitExit =
      some (s, log) ∧ ¬ Asleep log ∧
    ListAgrees s log ∧ (¬ Asleep log → OnlyCurrentRuns s) ∧
      ∀ a s₁, s.atSwitch a = some s₁ → ListAgrees s₁ log ∧ OnlyCurrentRuns s₁ := by
  have hlog : (PartialMachine.run (logged schedStep schedEvent) (init .a1 1, [])
      execExitExit).map (fun c => decide (¬ Asleep c.2)) = some true := by decide +kernel
  obtain ⟨⟨s, log⟩, hrun, hlog⟩ := Option.map_eq_some_iff.mp hlog
  exact ⟨s, log, hrun, of_decide_eq_true hlog,
    threads_agree_with_readyList .a1 1 (by decide) _ s log hrun⟩

/-! ## §7  Destruction -/

/-- What has executed `Finish` and is still there is the one carcass. -/
def OneCarcass (s : Sys) (log : List SchedEvent) : Prop :=
  (∀ a t, s.heap a = some t → .finish t.tid ∈ log → a = s.threadToBeDestroyed) ∧
    (s.threadToBeDestroyed ≠ NULL →
      ∃ t, s.heap s.threadToBeDestroyed = some t ∧ .finish t.tid ∈ log)

theorem CarcassInv.oneCarcass
    (hi : CarcassInv s.cores s.threadToBeDestroyed s.nextTid log) : OneCarcass s log := by
  constructor
  · intro a t ht hmem
    exact hi.last _ _ (cores_of_heap ht) ((hi.finished _ _ (cores_of_heap ht)).mpr hmem)
  · intro hne
    obtain ⟨c, hc, hdone⟩ := hi.carcass hne
    obtain ⟨t, ht, rfl⟩ := exists_heap_of_cores hc
    exact ⟨t, ht, (hi.finished _ _ hc).mp hdone⟩

/-- The step comes to a `SWITCH` or to `Finish`, the two places where a thread is
deleted. -/
def Reaches (s : Sys) : SchedAct → Prop
  | .act .yield => s.Awake
  | .act .dispatch =>
      (∃ t, s.heap s.currentThread = some t ∧ t.status = .BLOCKED) ∧ s.readyList ≠ []
  | .act (.exit _) => s.At .user
  | .act .kill => s.At .user
  | .finish => s.At .starting ∨ s.At .user
  | _ => False

/-- No `delete` aborts, and no `SWITCH` goes to an address where no thread is. -/
theorem SchedInv.exists_step (hi : SchedInv s log) {a : SchedAct} (h : s.Reaches a) :
    ∃ s', s.schedStep a = some s' := by
  have finishes : s.At .starting ∨ s.At .user → ∃ s', s.finish = some s' := by
    intro hat
    obtain ⟨t, ht, hst⟩ : ∃ t, s.heap s.currentThread = some t ∧ t.status = .RUNNING := by
      rcases hat with ⟨t, ht, hst, -⟩ | ⟨t, ht, hst, -⟩ <;> exact ⟨t, ht, hst⟩
    exact (running_finish_sched hi ht hst).1
  cases a with
  | act a =>
      cases a with
      | yield =>
          obtain ⟨t, ht, hst, hc⟩ := h
          obtain ⟨s₁, hready, hj, hlist, hne, hcar⟩ := yield_sched hi ht hst hc
          obtain ⟨s', hs'⟩ := (runNext_sched hj hlist hcar).1 hne
          have hyield : s.yield = some s' := by
            simp only [Sys.yield, ht, Option.bind_eq_bind, Option.bind_some, currentThread_set]
            rw [hready, Option.bind_some, hs']
          refine ⟨s', ?_⟩
          simp only [schedStep, step, ht, Option.bind_eq_bind, Option.bind_some]
          rw [if_pos ⟨hst, hc⟩, hyield]
      | dispatch =>
          obtain ⟨⟨t, ht, hst⟩, hne⟩ := h
          have hlist : ListInv s False := by
            refine hi.list.of_iff (iff_false_intro fun hawake => ?_)
            have hrun := (hi.list.running _ t ht).mpr ⟨rfl, hawake⟩
            rw [hst] at hrun
            cases hrun
          obtain ⟨s', hs'⟩ := (runNext_sched hi.join hlist hi.carcass).1 hne
          refine ⟨s', ?_⟩
          simp [schedStep, step, ht, hst, hs']
      | exit code =>
          have hat : s.At .user := h
          obtain ⟨t, ht, hst, -⟩ := h
          obtain ⟨s', hs'⟩ := (exit_sched hi ht hst code).1
          exact ⟨s', by rw [schedStep, step, if_pos hat, hs']⟩
      | kill =>
          obtain ⟨s', hs'⟩ := finishes (Or.inr h)
          exact ⟨s', by rw [schedStep, step, if_pos (show s.At .user from h), hs']⟩
      | tick => cases h
      | start => cases h
      | exec tmp prio => cases h
      | join id stale => cases h
      | resume => cases h
  | fork tmp prio => cases h
  | sleep => cases h
  | finish =>
      obtain ⟨s', hs'⟩ := finishes h
      exact ⟨s', by rw [schedStep, if_pos (show s.At .starting ∨ s.At .user from h), hs']⟩

/-- **Finished threads are destroyed safely**, in every run: at most one of them
is not deleted, and `threadToBeDestroyed` points to it; a deletion finds a
thread that has executed `Finish`, that was not deleted before and that is not
the current one; a `SWITCH` goes to a thread that was not deleted; and no step
that comes to either fails there. -/
theorem finished_threads_destroyed_safely (algorithm : Algorithm) (main : SpaceId)
    (hmain : main ≠ NULL) (as : List SchedAct) (s : Sys) (log : List SchedEvent)
    (hrun : PartialMachine.run (logged schedStep schedEvent) (init algorithm main, []) as =
      some (s, log)) :
    OneCarcass s log ∧ (∀ a s₁, s.atSwitch a = some s₁ → OneCarcass s₁ log) ∧
      LogAll EventOk log ∧ ∀ a, s.Reaches a → ∃ s', s.schedStep a = some s' := by
  obtain ⟨hi, hlog⟩ := schedInv_run algorithm hmain hrun
  refine ⟨hi.carcass.oneCarcass, fun a s₁ hs₁ => ?_, hlog, fun a => hi.exists_step⟩
  exact (hi.atSwitch hs₁).2.oneCarcass

theorem finished_threads_destroyed_safely_execExitExit : ∃ s log,
    PartialMachine.run (logged schedStep schedEvent) (init .a1 1, []) execExitExit =
      some (s, log) ∧
    log = [.switch (some 1), .finish 1, .sleep, .switch (some 2), .finish 2,
      .delete (some 1) (some 2), .sleep, .switch (some 0), .delete (some 2) (some 0)] ∧
    OneCarcass s log ∧ (∀ a s₁, s.atSwitch a = some s₁ → OneCarcass s₁ log) ∧
      LogAll EventOk log ∧ ∀ a, s.Reaches a → ∃ s', s.schedStep a = some s' := by
  have hlog : (PartialMachine.run (logged schedStep schedEvent) (init .a1 1, [])
      execExitExit).map Prod.snd =
      some [.switch (some 1), .finish 1, .sleep, .switch (some 2), .finish 2,
        .delete (some 1) (some 2), .sleep, .switch (some 0), .delete (some 2) (some 0)] := by
    decide +kernel
  obtain ⟨⟨s, log⟩, hrun, hlog⟩ := Option.map_eq_some_iff.mp hlog
  exact ⟨s, log, hrun, hlog, finished_threads_destroyed_safely .a1 1 (by decide) _ s log hrun⟩

end Sys

end OsAssignments.MemoryManagement
