import OsAssignments.MemoryManagement.JoinSafety

/-!
# Which processes there are

A process is `Unstarted` until it reaches user code, and `Unfinished` until its
thread is past `Finish`. One step changes this only for the process that is
created, started or ended in it.
-/

namespace OsAssignments.MemoryManagement

open PartialMachine

namespace Sys

variable {log : List Event}

def Unfinished (s : Sys) (id : ℕ) : Prop :=
  ∃ a c, s.cores a = some c ∧ c.tid = id ∧ c.done = false

def Unstarted (s : Sys) (id : ℕ) : Prop :=
  ∃ a t, s.heap a = some t ∧ t.tid = id ∧ (t.cont = .fresh ∨ t.cont = .starting)

/-- The identity of the running thread. -/
def runningTid (s : Sys) : Option ℕ := (s.heap s.currentThread).map Thread.tid

/-- The action ends the running process. -/
def Act.ends : Act → Bool
  | .exit _ => true
  | .kill => true
  | _ => false

theorem At.unfinished {s : Sys} {cont : Cont} (h : s.At cont)
    (hne : cont ≠ .finished) {t : Thread} (ht : s.heap s.currentThread = some t) :
    s.Unfinished t.tid := by
  obtain ⟨u, hu, -, hdone⟩ := h.core hne
  obtain rfl : u = t := Option.some.inj (hu.symm.trans ht)
  exact ⟨_, _, cores_of_heap ht, rfl, hdone⟩

theorem Inv.cores_inj {s : Sys} (hi : Inv s log) : ∀ a b c d, s.cores a = some c →
    s.cores b = some d → c.tid = d.tid → a = b := by
  obtain ⟨⟨owner, hj⟩, -⟩ := hi
  exact hj.tid_inj

theorem tid_inj {s : Sys} (hi : Inv s log) {a b : SpaceId} {t u : Thread}
    (ht : s.heap a = some t) (hu : s.heap b = some u) (h : t.tid = u.tid) :
    a = b ∧ t = u := by
  obtain rfl := hi.cores_inj a b _ _ (cores_of_heap ht) (cores_of_heap hu) h
  exact ⟨rfl, Option.some.inj (ht.symm.trans hu)⟩

/-- A process in user code has started. -/
theorem At.not_unstarted {s : Sys} (hi : Inv s log) (h : s.At .user) {t : Thread}
    (ht : s.heap s.currentThread = some t) : ¬ s.Unstarted t.tid := by
  rintro ⟨a, u, hu, htid, hc⟩
  obtain ⟨v, hv, -, hvc⟩ := h
  obtain rfl : v = t := Option.some.inj (hv.symm.trans ht)
  obtain ⟨-, rfl⟩ := tid_inj hi hu ht htid
  rw [hvc] at hc
  rcases hc with hc | hc <;> cases hc

/-! ## §1  Nobody starts twice -/

theorem Evolved.unstarted {s s' : Sys} (h : Evolved s s') {id : ℕ}
    (hu : s'.Unstarted id) : s.Unstarted id := by
  obtain ⟨a, t', ht', rfl, hc⟩ := hu
  obtain ⟨t, ht, hev⟩ := h a t' ht'
  refine ⟨a, t, ht, hev.tid.symm, ?_⟩
  rcases hev.cont with heq | ⟨hf, -⟩ | hf
  · rwa [← heq]
  · exact Or.inl hf
  · rw [hf] at hc
    rcases hc with hc | hc <;> cases hc

theorem yield_evolved {s s' : Sys} (h : s.yield = some s') : Evolved s s' := by
  obtain ⟨t, s₁, ht, hready, hrun⟩ := yield_steps h
  have hset : Evolved s (s.set s.currentThread { t with cpu := t.cpu + s.quantum }) :=
    evolved_set ht ⟨rfl, Or.inl rfl, Or.inl⟩
  exact (hset.trans (readyToRun_evolved hready).1).trans (runNext_evolved hrun)

/-- The running thread moves on, past `StartProcess`. -/
theorem unstarted_set {s : Sys} {a : SpaceId} {t : Thread}
    (hc : t.cont ≠ .fresh ∧ t.cont ≠ .starting) {id : ℕ}
    (hu : (s.set a t).Unstarted id) : s.Unstarted id := by
  obtain ⟨b, u, hb, htid, hcont⟩ := hu
  by_cases hba : b = a
  · subst hba
    obtain rfl : t = u := by simpa [set] using hb
    tauto
  · exact ⟨b, u, by simpa [set, hba] using hb, htid, hcont⟩

theorem unstarted_joinLoop {s s' : Sys} {t : Thread} {sid : SpaceId} {spid : BitVec 32}
    (h : s.joinLoop sid spid = some s') (ht : s.heap s.currentThread = some t) {id : ℕ}
    (hu : s'.Unstarted id) : s.Unstarted id := by
  obtain ⟨pos, -, ⟨-, -, rfl⟩ | ⟨-, -, rfl⟩⟩ := joinLoop_steps h ht
  · exact unstarted_set (by simp) hu
  · exact unstarted_set (by simp) hu

/-- **One step and the processes still to start**: only `Exec` adds one. -/
theorem step_unstarted {s s' : Sys} {a : Act} (hstep : s.step a = some s') {id : ℕ}
    (hu : s'.Unstarted id) :
    s.Unstarted id ∨ (id = s.nextTid ∧ s'.nextTid = s.nextTid + 1) := by
  cases step_cases hstep with
  | tick => exact Or.inl hu
  | yield t s' ht hyield => exact Or.inl ((yield_evolved hyield).unstarted hu)
  | dispatch t s' ht hrun => exact Or.inl ((runNext_evolved hrun).unstarted hu)
  | start t ht hcont => exact Or.inl (unstarted_set (by simp) hu)
  | exec tmp prio t s' ht hst hcont hnull hfree hexec =>
      obtain ⟨pos, -, -, -, -, hnext, -, hev⟩ := exec_steps hexec ht
      obtain ⟨b, u, hb, rfl, hc⟩ := hu
      rcases hev b u hb with ⟨-, htid, -⟩ | ⟨u₀, hu₀, hevolves⟩
      · exact Or.inr ⟨htid, hnext⟩
      · left
        have hone : Evolved s (s.set b u) := evolved_set hu₀ hevolves
        exact hone.unstarted ⟨b, u, by simp [set], rfl, hc⟩
  | exit code t s' ht hcont hexit =>
      rcases exit_steps hexit ht with ⟨-, hfin⟩ |
        ⟨-, p, pos, s₁, -, -, -, -, -, -, hev, -, hfin⟩
      · obtain ⟨-, -, hev, -⟩ := finish_cores hfin ht
        exact Or.inl (hev.unstarted hu)
      · obtain ⟨t₁, -, -, ht₁, -⟩ := finish_steps hfin
        obtain ⟨-, -, hev', -⟩ := finish_cores hfin ht₁
        exact Or.inl ((hev.trans hev').unstarted hu)
  | join sid stale t s' ht hcont hjoin => exact Or.inl (unstarted_joinLoop hjoin ht hu)
  | resume sid spid t s' ht hcont hjoin => exact Or.inl (unstarted_joinLoop hjoin ht hu)
  | kill t s' ht hcont hfinish =>
      obtain ⟨-, -, hev, -⟩ := finish_cores hfinish ht
      exact Or.inl (hev.unstarted hu)

theorem run_nextTid {s s' : Sys} {a : SpaceId} (h : s.run a = some s') :
    s'.nextTid = s.nextTid := by
  unfold run at h
  split at h
  · cases h
  · dsimp only at h
    split at h
    · cases h
      rfl
    · exact (deleteCarcass_cases h).2.1

theorem runNext_nextTid {s s' : Sys} (h : s.runNext = some s') :
    s'.nextTid = s.nextTid := by
  unfold runNext at h
  split at h
  · cases h
  · rename_i l _
    exact run_nextTid (s := { s with readyList := l }) h

theorem finish_nextTid {s s' : Sys} (h : s.finish = some s') :
    s'.nextTid = s.nextTid ∧ s'.currentThread = s.currentThread := by
  obtain ⟨t, s₁, t₁, ht, hdel, -, rfl⟩ := finish_steps h
  obtain ⟨hcur, hnext, -⟩ := deleteCarcass_cases hdel
  exact ⟨hnext, hcur⟩

theorem joinLoop_nextTid {s s' : Sys} {t : Thread} {sid : SpaceId} {spid : BitVec 32}
    (h : s.joinLoop sid spid = some s') (ht : s.heap s.currentThread = some t) :
    s'.nextTid = s.nextTid := by
  obtain ⟨pos, -, ⟨-, -, rfl⟩ | ⟨-, -, rfl⟩⟩ := joinLoop_steps h ht
  · rfl
  · rfl

theorem yield_nextTid {s s' : Sys} (h : s.yield = some s') : s'.nextTid = s.nextTid := by
  obtain ⟨u, s₁, hu, hready, hrun⟩ := yield_steps h
  exact (runNext_nextTid hrun).trans (readyToRun_sameJoin hready).1.nextTid

/-- Identities are given out in order, by `Exec`. -/
theorem step_nextTid {s s' : Sys} {a : Act} (hstep : s.step a = some s') :
    s.nextTid ≤ s'.nextTid := by
  cases step_cases hstep with
  | tick => exact le_rfl
  | yield t s' ht hyield => exact (yield_nextTid hyield).ge
  | dispatch t s' ht hrun => exact (runNext_nextTid hrun).ge
  | start t ht hcont => exact le_rfl
  | exec tmp prio t s' ht hst hcont hnull hfree hexec =>
      obtain ⟨pos, -, -, -, -, hnext, -⟩ := exec_steps hexec ht
      omega
  | exit code t s' ht hcont hexit =>
      rcases exit_steps hexit ht with ⟨-, hfin⟩ |
        ⟨-, p, pos, s₁, -, -, -, -, -, hnext, -, -, hfin⟩
      · exact (finish_nextTid hfin).1.ge
      · exact ((finish_nextTid hfin).1.trans hnext).ge
  | join sid stale t s' ht hcont hjoin => exact (joinLoop_nextTid hjoin ht).ge
  | resume sid spid t s' ht hcont hjoin => exact (joinLoop_nextTid hjoin ht).ge
  | kill t s' ht hcont hfinish => exact (finish_nextTid hfinish).1.ge

/-- No such process has reached user code: it is not there yet, or not started. -/
def Unborn (s : Sys) (id : ℕ) : Prop := s.nextTid ≤ id ∨ s.Unstarted id

theorem step_unborn {s s' : Sys} {a : Act} (hstep : s.step a = some s') {id : ℕ}
    (hu : s'.Unborn id) : s.Unborn id := by
  rcases hu with hle | hu
  · exact Or.inl ((step_nextTid hstep).trans hle)
  · rcases step_unstarted hstep hu with hu | ⟨rfl, -⟩
    · exact Or.inr hu
    · exact Or.inl le_rfl

theorem At.not_unborn {s : Sys} (hi : Inv s log) (h : s.At .user) {t : Thread}
    (ht : s.heap s.currentThread = some t) : ¬ s.Unborn t.tid := by
  rintro (hle | hu)
  · obtain ⟨⟨owner, hj⟩, -⟩ := hi
    exact absurd (hj.tid_lt _ _ (cores_of_heap ht)) (Nat.not_lt.mpr hle)
  · exact h.not_unstarted hi ht hu

/-! ## §2  Who is unfinished -/

theorem unfinished_congr {s s' : Sys} (h : s'.cores = s.cores) (id : ℕ) :
    s'.Unfinished id ↔ s.Unfinished id := by
  rw [Unfinished, Unfinished, h]

/-- The carcass is finished. -/
theorem Inv.carcass_done {s : Sys} (hi : Inv s log) {c : Core}
    (hne : s.threadToBeDestroyed ≠ NULL)
    (hc : s.cores s.threadToBeDestroyed = some c) : c.done = true := by
  obtain ⟨⟨owner, hj⟩, halive, -⟩ := hi
  obtain ⟨d, hd, hterm, -⟩ := hj.carcass hne
  obtain rfl : c = d := Option.some.inj (hc.symm.trans hd)
  by_contra hdone
  exact halive _ c hc (by simpa using hdone) hterm

theorem unfinished_deleteCarcass {s s' : Sys}
    (hdone : s.threadToBeDestroyed ≠ NULL →
      ∀ c, s.cores s.threadToBeDestroyed = some c → c.done = true)
    (h : s.deleteCarcass = some s') (id : ℕ) :
    s'.Unfinished id ↔ s.Unfinished id := by
  obtain ⟨-, -, -, ⟨-, hcores⟩ | ⟨hne, -, hcores⟩⟩ := deleteCarcass_cases h
  · exact unfinished_congr hcores id
  · constructor
    · rintro ⟨a, c, hc, hrest⟩
      exact ⟨a, c, deleteCarcass_cores h hc, hrest⟩
    · rintro ⟨a, c, hc, htid, hcd⟩
      refine ⟨a, c, ?_, htid, hcd⟩
      rw [hcores]
      refine update_eq_some.mpr (Or.inr ⟨?_, hc⟩)
      rintro rfl
      rw [hdone hne c hc] at hcd
      exact Bool.noConfusion hcd

theorem unfinished_run {s s' : Sys} {a : SpaceId} (hi : Inv s log)
    (h : s.run a = some s') (id : ℕ) : s'.Unfinished id ↔ s.Unfinished id := by
  unfold run at h
  split at h
  · cases h
  rename_i t ht
  dsimp only at h
  let s₁ : Sys := { s with quantum := 0, currentThread := a }
  split at h
  · rename_i hfresh
    cases h
    exact unfinished_congr (s := s) (cores_set_same (s := s₁) ht
      (by simp [Thread.core, hfresh])) id
  · have hcores : (s₁.set a { t with status := .RUNNING }).cores = s.cores :=
      cores_set_same (s := s₁) ht rfl
    rw [unfinished_deleteCarcass ?_ h id]
    · exact unfinished_congr hcores id
    · rw [hcores]
      exact fun hne c hc => hi.carcass_done hne hc

theorem unfinished_runNext {s s' : Sys} (hi : Inv s log) (h : s.runNext = some s')
    (id : ℕ) : s'.Unfinished id ↔ s.Unfinished id := by
  unfold runNext at h
  split at h
  · cases h
  · rename_i l _
    exact unfinished_run (s := { s with readyList := l })
      (SameJoin.inv (s := s) ⟨rfl, rfl, rfl⟩ hi) h id

theorem unfinished_finish {s s' : Sys} {t : Thread}
    (hdone : s.threadToBeDestroyed ≠ NULL →
      ∀ c, s.cores s.threadToBeDestroyed = some c → c.done = true)
    (hinj : ∀ a b c d, s.cores a = some c → s.cores b = some d → c.tid = d.tid →
      a = b)
    (h : s.finish = some s') (ht : s.heap s.currentThread = some t) (id : ℕ) :
    s'.Unfinished id ↔ s.Unfinished id ∧ id ≠ t.tid := by
  obtain ⟨-, -, -, -, ⟨p, hp, -, hpd, -⟩, hback, hforth⟩ := finish_cores h ht
  constructor
  · rintro ⟨a, c, hc, rfl, hcd⟩
    have ha : a ≠ s.currentThread := by
      rintro rfl
      rw [hp] at hc
      cases hc
      rw [hpd] at hcd
      exact Bool.noConfusion hcd
    obtain ⟨d, hd, hk⟩ := hback a c ha hc
    refine ⟨⟨a, d, hd, hk.tid.symm, hk.done ▸ hcd⟩, fun htid => ha ?_⟩
    exact hinj a _ d _ hd (cores_of_heap ht) (hk.tid.symm.trans htid)
  · rintro ⟨⟨a, d, hd, rfl, hdd⟩, hne⟩
    have ha : a ≠ s.currentThread := by
      rintro rfl
      rw [cores_of_heap ht] at hd
      cases hd
      exact hne rfl
    obtain ⟨c, hc, hk⟩ := hforth a d ha (by
      rintro hcar rfl
      rw [hdone hcar d hd] at hdd
      exact Bool.noConfusion hdd) hd
    exact ⟨a, c, hc, hk.tid, hk.done.trans hdd⟩

theorem unfinished_joinLoop {s s' : Sys} {t : Thread} {sid : SpaceId}
    {spid : BitVec 32} (h : s.joinLoop sid spid = some s')
    (ht : s.heap s.currentThread = some t) (hdone : t.core.done = false) (id : ℕ) :
    s'.Unfinished id ↔ s.Unfinished id := by
  have hcore := cores_of_heap ht
  have hset : ∀ t' : Thread, t'.tid = t.tid → t'.cont ≠ .finished →
      ((s.set s.currentThread t').Unfinished id ↔ s.Unfinished id) := by
    intro t' htid hc'
    have hd' : t'.core.done = false := by simp [Thread.core, hc']
    rw [Unfinished, Unfinished, cores_set]
    constructor
    · rintro ⟨a, c, hc, rfl, hcd⟩
      rcases update_eq_some.mp hc with ⟨rfl, heq⟩ | ⟨-, hc⟩
      · cases heq
        exact ⟨_, _, hcore, htid.symm, hdone⟩
      · exact ⟨a, c, hc, rfl, hcd⟩
    · rintro ⟨a, c, hc, rfl, hcd⟩
      by_cases ha : a = s.currentThread
      · subst ha
        rw [hcore] at hc
        cases hc
        exact ⟨_, _, Function.update_self .., htid, hd'⟩
      · exact ⟨a, c, update_eq_some.mpr (Or.inr ⟨ha, hc⟩), rfl, hcd⟩
  obtain ⟨pos, -, ⟨-, -, rfl⟩ | ⟨-, -, rfl⟩⟩ := joinLoop_steps h ht
  · exact hset _ rfl (by simp)
  · exact hset _ rfl (by simp)

/-- `Exit` writes into the parent's table before it finishes: identities and
ends are as they were. -/
theorem unfinished_exit {s s' : Sys} {t : Thread} {code : BitVec 32} (hi : Inv s log)
    (h : s.exit code = some s') (ht : s.heap s.currentThread = some t) (id : ℕ) :
    (s'.Unfinished id ↔ s.Unfinished id ∧ id ≠ t.tid) ∧ s'.nextTid = s.nextTid := by
  rcases exit_steps h ht with ⟨-, hfin⟩ |
    ⟨-, p, pos, s₁, hp, -, hcores, hcur, hcar, hnext, -, -, hfin⟩
  · exact ⟨unfinished_finish (fun hne c => hi.carcass_done hne) hi.cores_inj hfin ht id,
      (finish_cores hfin ht).2.1⟩
  -- every core of s₁ has the identity and the end of one of s, and conversely
  have hback : ∀ a c, s₁.cores a = some c →
      ∃ d, s.cores a = some d ∧ c.tid = d.tid ∧ c.done = d.done := by
    intro a c hc
    rw [hcores] at hc
    rcases update_eq_some.mp hc with ⟨rfl, heq⟩ | ⟨-, hc⟩
    · cases heq
      exact ⟨p.core, cores_of_heap hp, rfl, rfl⟩
    · exact ⟨c, hc, rfl, rfl⟩
  have hforth : ∀ a d, s.cores a = some d →
      ∃ c, s₁.cores a = some c ∧ c.tid = d.tid ∧ c.done = d.done := by
    intro a d hd
    rw [hcores]
    by_cases ha : a = t.parent
    · subst ha
      rw [cores_of_heap hp] at hd
      cases hd
      exact ⟨_, Function.update_self .., rfl, rfl⟩
    · exact ⟨d, update_eq_some.mpr (Or.inr ⟨ha, hd⟩), rfl, rfl⟩
  have hsame : s₁.Unfinished id ↔ s.Unfinished id := by
    constructor
    · rintro ⟨a, c, hc, rfl, hcd⟩
      obtain ⟨d, hd, htid, hdone⟩ := hback a c hc
      exact ⟨a, d, hd, htid.symm, hdone ▸ hcd⟩
    · rintro ⟨a, d, hd, rfl, hdd⟩
      obtain ⟨c, hc, htid, hdone⟩ := hforth a d hd
      exact ⟨a, c, hc, htid, hdone.trans hdd⟩
  obtain ⟨t₁, -, -, ht₁, -⟩ := finish_steps hfin
  obtain ⟨d, hd, htid, -⟩ := hback _ _ (cores_of_heap ht₁)
  rw [hcur, cores_of_heap ht] at hd
  cases hd
  have htid₁ : t₁.tid = t.tid := htid
  refine ⟨?_, (finish_cores hfin ht₁).2.1.trans hnext⟩
  rw [← hsame, ← htid₁]
  refine unfinished_finish ?_ ?_ hfin ht₁ id
  · intro hne c hc
    rw [hcar] at hne hc
    obtain ⟨d, hd, -, hdone⟩ := hback _ c hc
    exact hdone.trans (hi.carcass_done hne hd)
  · intro a b c d hc hd heq
    obtain ⟨c', hc', hct, -⟩ := hback a c hc
    obtain ⟨d', hd', hdt, -⟩ := hback b d hd
    exact hi.cores_inj a b c' d' hc' hd' (hct.symm.trans (heq.trans hdt))

theorem unfinished_yield {s s' : Sys} (hi : Inv s log) (h : s.yield = some s') (id : ℕ) :
    s'.Unfinished id ↔ s.Unfinished id := by
  obtain ⟨u, s₁, hu, hready, hrun⟩ := yield_steps h
  have hset : SameJoin s (s.set s.currentThread
      { u with cpu := u.cpu + s.quantum }) := sameJoin_set hu rfl
  have hsame := hset.trans (readyToRun_sameJoin hready).1
  rw [unfinished_runNext (hsame.inv hi) hrun]
  exact unfinished_congr hsame.cores id

/-- `Exec` writes into the running process's table, and adds the new process. -/
theorem unfinished_exec {s s' : Sys} {t : Thread} {tmp : SpaceId} {prio : BitVec 32}
    (h : s.exec tmp prio = some s') (ht : s.heap s.currentThread = some t)
    (hdone : t.core.done = false) (hfree : s.heap tmp = none) (id : ℕ) :
    (s'.Unfinished id ↔ s.Unfinished id ∨ id = s.nextTid) ∧ s'.nextTid = s.nextTid + 1 := by
  obtain ⟨pos, -, -, hcores, -, hnext, -, -⟩ := exec_steps h ht
  have htmp : s.cores tmp = none := by simp [Sys.cores, hfree]
  have hcur := cores_of_heap ht
  refine ⟨⟨?_, ?_⟩, hnext⟩
  · rintro ⟨a, c, hc, rfl, hcd⟩
    rw [hcores] at hc
    rcases update_eq_some.mp hc with ⟨rfl, heq⟩ | ⟨-, hc⟩
    · cases heq
      exact Or.inr rfl
    rcases update_eq_some.mp hc with ⟨rfl, heq⟩ | ⟨-, hc⟩
    · cases heq
      exact Or.inl ⟨_, _, hcur, rfl, hdone⟩
    · exact Or.inl ⟨a, c, hc, rfl, hcd⟩
  · rintro (⟨a, c, hc, rfl, hcd⟩ | rfl)
    · have hat : a ≠ tmp := by
        rintro rfl
        rw [htmp] at hc
        cases hc
      by_cases ha : a = s.currentThread
      · subst ha
        rw [hcur] at hc
        cases hc
        refine ⟨s.currentThread, { t.core with
          jtable := Function.update t.jtable pos
            ⟨true, tmp, s.serialPid, CODENOTENDED⟩ }, ?_, rfl, hdone⟩
        rw [hcores, Function.update_of_ne hat, Function.update_self]
      · refine ⟨a, c, ?_, rfl, hcd⟩
        rw [hcores, Function.update_of_ne hat, Function.update_of_ne ha, hc]
    · refine ⟨tmp, ⟨s.nextTid, s.serialPid, s.currentThread, JoinTable.new, false⟩,
        ?_, rfl, rfl⟩
      rw [hcores, Function.update_self]

/-- **One step and the processes still running**: `Exec` adds one, the end of the
running process takes it away. -/
theorem step_unfinished {s s' : Sys} {a : Act} (hi : Inv s log)
    (hstep : s.step a = some s') (id : ℕ) :
    s'.Unfinished id ↔
      (s.Unfinished id ∧ ¬ (a.ends = true ∧ s.runningTid = some id)) ∨
      (id = s.nextTid ∧ s'.nextTid = s.nextTid + 1) := by
  -- a step that ends and creates nobody
  have hkeep : a.ends = false → s'.nextTid = s.nextTid →
      (s'.Unfinished id ↔ s.Unfinished id) →
      (s'.Unfinished id ↔
        (s.Unfinished id ∧ ¬ (a.ends = true ∧ s.runningTid = some id)) ∨
        (id = s.nextTid ∧ s'.nextTid = s.nextTid + 1)) := by
    intro hends hnext hsame
    rw [hsame, hends, hnext]
    simp
  -- a step that ends the running process
  have hend : ∀ t, s.heap s.currentThread = some t → a.ends = true →
      s'.nextTid = s.nextTid → (s'.Unfinished id ↔ s.Unfinished id ∧ id ≠ t.tid) →
      (s'.Unfinished id ↔
        (s.Unfinished id ∧ ¬ (a.ends = true ∧ s.runningTid = some id)) ∨
        (id = s.nextTid ∧ s'.nextTid = s.nextTid + 1)) := by
    intro t ht hends hnext hiff
    rw [hiff, hends, hnext, runningTid, ht]
    simp [eq_comm]
  cases step_cases hstep with
  | tick => exact hkeep rfl rfl Iff.rfl
  | yield t s' ht hyield =>
      exact hkeep rfl (yield_nextTid hyield) (unfinished_yield hi hyield id)
  | dispatch t s' ht hrun =>
      exact hkeep rfl (runNext_nextTid hrun) (unfinished_runNext hi hrun id)
  | start t ht hcont =>
      have hcores : (s.set s.currentThread { t with cont := .user }).cores = s.cores :=
        cores_set_same ht (by simp [Thread.core, hcont])
      exact hkeep rfl rfl (unfinished_congr hcores id)
  | exec tmp prio t s' ht hst hcont hnull hfree hexec =>
      obtain ⟨hiff, hnext⟩ :=
        unfinished_exec hexec ht (t.not_done (by simp [hcont])) hfree id
      rw [hiff, hnext]
      simp [Act.ends]
  | exit code t s' ht hcont hexit =>
      obtain ⟨hiff, hnext⟩ := unfinished_exit hi hexit ht id
      exact hend t ht rfl hnext hiff
  | join sid stale t s' ht hcont hjoin =>
      exact hkeep rfl (joinLoop_nextTid hjoin ht)
        (unfinished_joinLoop hjoin ht (t.not_done (by simp [hcont])) id)
  | resume sid spid t s' ht hcont hjoin =>
      exact hkeep rfl (joinLoop_nextTid hjoin ht)
        (unfinished_joinLoop hjoin ht (t.not_done (by simp [hcont])) id)
  | kill t s' ht hcont hfinish =>
      exact hend t ht rfl (finish_cores hfinish ht).2.1
        (unfinished_finish (fun hne c => hi.carcass_done hne) hi.cores_inj hfinish ht id)

/-! ## §3  Who is running -/

/-- The thread has reached user code and not left it. -/
def InUser (t : Thread) : Prop := t.cont = .user ∨ ∃ id spid, t.cont = .joining id spid

theorem Evolves.inUser {t t' : Thread} (h : Evolves t t') (hu : InUser t') :
    InUser t := by
  rcases h.cont with heq | ⟨-, hs⟩ | hf
  · rwa [InUser, heq] at hu
  · simp [InUser, hs] at hu
  · simp [InUser, hf] at hu

/-- **One step without a switch**: the same thread runs, and if it is in user
code now, it was there before. -/
theorem step_same_thread {s s' : Sys} {a : Act} (hstep : s.step a = some s')
    (hy : a ≠ .yield) (hd : a ≠ .dispatch) (hs : a ≠ .start) {t' : Thread}
    (ht' : s'.heap s'.currentThread = some t') (hu : InUser t') :
    ∃ t, s.heap s.currentThread = some t ∧ t'.tid = t.tid ∧ InUser t := by
  have hev : ∀ {s₁ : Sys}, Evolved s s₁ → s₁.currentThread = s.currentThread →
      s₁.heap s₁.currentThread = some t' →
      ∃ t, s.heap s.currentThread = some t ∧ t'.tid = t.tid ∧ InUser t := by
    intro s₁ hev hcur ht'
    rw [hcur] at ht'
    obtain ⟨t, ht, hev⟩ := hev _ _ ht'
    exact ⟨t, ht, hev.tid, hev.inUser hu⟩
  have hjoinLoop : ∀ {t sid spid}, s.heap s.currentThread = some t → InUser t →
      s.joinLoop sid spid = some s' →
      ∃ t, s.heap s.currentThread = some t ∧ t'.tid = t.tid ∧ InUser t := by
    intro t sid spid ht hut hj
    refine ⟨t, ht, ?_, hut⟩
    obtain ⟨pos, -, ⟨-, -, rfl⟩ | ⟨-, -, rfl⟩⟩ := joinLoop_steps hj ht <;>
      simp only [currentThread_set, heap_set_self, Option.some.injEq] at ht' <;>
      rw [← ht']
  cases step_cases hstep with
  | tick => exact ⟨t', ht', rfl, hu⟩
  | yield => exact absurd rfl hy
  | dispatch => exact absurd rfl hd
  | start => exact absurd rfl hs
  | exec tmp prio t s' ht hst hcont hnull hfree hexec =>
      obtain ⟨pos, -, -, -, -, -, hcur, hall⟩ := exec_steps hexec ht
      rw [hcur] at ht'
      rcases hall _ _ ht' with ⟨heq, -⟩ | ⟨u, hu₀, hev⟩
      · rw [heq, hfree] at ht
        cases ht
      · exact ⟨u, hu₀, hev.tid, hev.inUser hu⟩
  | exit code t s' ht hcont hexit =>
      rcases exit_steps hexit ht with ⟨-, hfin⟩ |
        ⟨-, p, pos, s₁, -, -, -, hcur, -, -, hev₁, -, hfin⟩
      · obtain ⟨-, -, hev₂, -⟩ := finish_cores hfin ht
        exact hev hev₂ (finish_nextTid hfin).2 ht'
      · obtain ⟨t₁, -, -, ht₁, -⟩ := finish_steps hfin
        obtain ⟨-, -, hev₂, -⟩ := finish_cores hfin ht₁
        exact hev (hev₁.trans hev₂) ((finish_nextTid hfin).2.trans hcur) ht'
  | join sid stale t s' ht hcont hjoin => exact hjoinLoop ht (Or.inl hcont) hjoin
  | resume sid spid t s' ht hcont hjoin =>
      exact hjoinLoop ht (Or.inr ⟨sid, spid, hcont⟩) hjoin
  | kill t s' ht hcont hfinish =>
      obtain ⟨-, -, hev₂, -⟩ := finish_cores hfinish ht
      exact hev hev₂ (finish_nextTid hfinish).2 ht'

end Sys

end OsAssignments.MemoryManagement
