import OsAssignments.MemoryManagement.Scheduling

/-!
# Statuses and the ready list

`Scheduler::ReadyToRun` appends whatever it is given, `Thread::WakeUp` asks only
for the status, and the list holds raw addresses. `ListInv` says how the two
agree, between the steps and inside them: `awake` tells whether the current
thread has the processor or has just given it up.

Each operation of the scheduler has one lemma here. What makes them go through
at the calls — that a parent is alive, and that the carcass is over — is in
`Carcass.lean`.
-/

namespace OsAssignments.MemoryManagement

/-! ## §1  The invariant -/

/-- What the list is about. -/
def Thread.listView (t : Thread) : ThreadStatus × Bool :=
  (t.status, decide (t.cont = .finished))

namespace Sys

/-- The threads of the ready list, first to run in front. -/
def listed (s : Sys) : List SpaceId := s.readyList.map Prod.snd

structure ListInv (s : Sys) (awake : Prop) : Prop where
  current : ∃ t, s.heap s.currentThread = some t
  running : ∀ a t, s.heap a = some t →
    (t.status = .RUNNING ↔ a = s.currentThread ∧ awake)
  ready : ∀ a t, s.heap a = some t → (t.status = .READY ↔ a ∈ s.listed)
  once : s.listed.Nodup
  lives : ∀ a ∈ s.listed, ∃ t, s.heap a = some t
  blocked : ∀ a t, s.heap a = some t → t.cont = .finished → t.status = .BLOCKED

variable {s s' : Sys} {awake : Prop}

theorem ListInv.congr (h : ListInv s awake)
    (hview : ∀ a, (s'.heap a).map Thread.listView = (s.heap a).map Thread.listView)
    (hlist : s'.readyList = s.readyList) (hcur : s'.currentThread = s.currentThread) :
    ListInv s' awake := by
  -- each thread stands for an old one with the same view
  have hback : ∀ a t', s'.heap a = some t' →
      ∃ t, s.heap a = some t ∧ t.listView = t'.listView := by
    intro a t' ht'
    have hv := hview a
    rw [ht', Option.map_some] at hv
    exact Option.map_eq_some_iff.mp hv.symm
  have hforth : ∀ a t, s.heap a = some t → ∃ t', s'.heap a = some t' := by
    intro a t ht
    have hv := hview a
    rw [ht, Option.map_some] at hv
    obtain ⟨t', ht', -⟩ := Option.map_eq_some_iff.mp hv
    exact ⟨t', ht'⟩
  have hlisted : s'.listed = s.listed := by rw [listed, listed, hlist]
  refine ⟨?_, ?_, ?_, ?_, ?_, ?_⟩
  · obtain ⟨t, ht⟩ := h.current
    rw [hcur]
    exact hforth _ t ht
  · intro a t' ht'
    obtain ⟨t, ht, hv⟩ := hback a t' ht'
    rw [hcur, ← (Prod.mk.inj hv).1]
    exact h.running a t ht
  · intro a t' ht'
    obtain ⟨t, ht, hv⟩ := hback a t' ht'
    rw [hlisted, ← (Prod.mk.inj hv).1]
    exact h.ready a t ht
  · rw [hlisted]
    exact h.once
  · rw [hlisted]
    intro a ha
    obtain ⟨t, ht⟩ := h.lives a ha
    exact hforth a t ht
  · intro a t' ht' hc'
    obtain ⟨t, ht, hv⟩ := hback a t' ht'
    obtain ⟨hst, hfin⟩ := Prod.mk.inj hv
    rw [← hst]
    refine h.blocked a t ht ?_
    simpa [hc'] using hfin

theorem ListInv.set (h : ListInv s awake) {a : SpaceId} {t t' : Thread}
    (ht : s.heap a = some t) (hview : t'.listView = t.listView) :
    ListInv (s.set a t') awake := by
  refine h.congr (fun b => ?_) rfl rfl
  by_cases hb : b = a
  · subst hb
    simp [ht, hview]
  · simp [Sys.set, hb]

/-! ## §2  One lemma for each operation -/

theorem ListInv.not_listed (h : ListInv s awake) {a : SpaceId} {t : Thread}
    (ht : s.heap a = some t) (hst : t.status ≠ .READY) : a ∉ s.listed :=
  fun ha => hst ((h.ready a t ht).mpr ha)

/-- The thread that has the processor goes to sleep, or is over. -/
theorem ListInv.block (h : ListInv s True) {t t' : Thread}
    (ht : s.heap s.currentThread = some t) (hst : t'.status = .BLOCKED) :
    ListInv (s.set s.currentThread t') False := by
  have hrun : t.status = .RUNNING := (h.running _ t ht).mpr ⟨rfl, trivial⟩
  have hno : s.currentThread ∉ s.listed := h.not_listed ht (by simp [hrun])
  have hcases : ∀ a u, (s.set s.currentThread t').heap a = some u →
      (a = s.currentThread ∧ u = t') ∨ (a ≠ s.currentThread ∧ s.heap a = some u) := by
    intro a u hu
    by_cases ha : a = s.currentThread
    · subst ha
      rw [heap_set_self] at hu
      exact Or.inl ⟨rfl, (Option.some.inj hu).symm⟩
    · exact Or.inr ⟨ha, by simpa [Sys.set, ha] using hu⟩
  refine ⟨⟨t', heap_set_self ..⟩, ?_, ?_, h.once, ?_, ?_⟩
  · intro a u hu
    rcases hcases a u hu with ⟨rfl, rfl⟩ | ⟨ha, hu⟩
    · simp [hst]
    · simp [h.running a u hu, ha]
  · intro a u hu
    rcases hcases a u hu with ⟨rfl, rfl⟩ | ⟨ha, hu⟩
    · rw [hst]
      exact iff_of_false (by simp) hno
    · exact h.ready a u hu
  · intro a ha
    obtain ⟨u, hu⟩ := h.lives a ha
    refine ⟨u, ?_⟩
    have hne : a ≠ s.currentThread := by
      rintro rfl
      exact hno ha
    simpa [Sys.set, hne] using hu
  · intro a u hu hc
    rcases hcases a u hu with ⟨rfl, rfl⟩ | ⟨-, hu⟩
    · exact hst
    · exact h.blocked a u hu hc

/-- A new thread is on no list. -/
theorem ListInv.add (h : ListInv s awake) {tmp : SpaceId} {t : Thread}
    (hfree : s.heap tmp = none) (hst : t.status = .JUST_CREATED)
    (hc : t.cont ≠ .finished) : ListInv (s.set tmp t) awake := by
  have hne : ∀ {a u}, s.heap a = some u → a ≠ tmp := by
    rintro a u hu rfl
    rw [hfree] at hu
    cases hu
  have hno : tmp ∉ s.listed := by
    intro ha
    obtain ⟨u, hu⟩ := h.lives tmp ha
    exact hne hu rfl
  have hkeep : ∀ {a u}, s.heap a = some u → (s.set tmp t).heap a = some u := by
    intro a u hu
    simpa [Sys.set, hne hu] using hu
  have hcases : ∀ a u, (s.set tmp t).heap a = some u →
      (a = tmp ∧ u = t) ∨ s.heap a = some u := by
    intro a u hu
    by_cases ha : a = tmp
    · subst ha
      rw [heap_set_self] at hu
      exact Or.inl ⟨rfl, (Option.some.inj hu).symm⟩
    · exact Or.inr (by simpa [Sys.set, ha] using hu)
  obtain ⟨c, hcur⟩ := h.current
  refine ⟨⟨c, hkeep hcur⟩, ?_, ?_, h.once, ?_, ?_⟩
  · intro a u hu
    rcases hcases a u hu with ⟨rfl, rfl⟩ | hu
    · rw [hst]
      exact iff_of_false (by simp) fun ha => hne hcur ha.1.symm
    · exact h.running a u hu
  · intro a u hu
    rcases hcases a u hu with ⟨rfl, rfl⟩ | hu
    · rw [hst]
      exact iff_of_false (by simp) hno
    · exact h.ready a u hu
  · intro a ha
    obtain ⟨u, hu⟩ := h.lives a ha
    exact ⟨u, hkeep hu⟩
  · intro a u hu hfin
    rcases hcases a u hu with ⟨rfl, rfl⟩ | hu
    · exact absurd hfin hc
    · exact h.blocked a u hu hfin

theorem sortedInsert_perm (a : SpaceId) (key : ℤ) (l : List (ℤ × SpaceId)) :
    (sortedInsert a key l).Perm ((key, a) :: l) := by
  induction l with
  | nil => exact List.Perm.refl _
  | cons e l ih =>
      unfold sortedInsert
      split
      · exact List.Perm.refl _
      · exact (ih.cons e).trans (List.Perm.swap ..)

theorem readyToRun_heap {a : SpaceId} {t : Thread} (ht : s.heap a = some t)
    (hready : s.readyToRun a = some s') :
    s'.heap = Function.update s.heap a (some { t with status := .READY }) := by
  obtain ⟨u, hu, rfl⟩ := Option.map_eq_some_iff.mp hready
  rw [ht] at hu
  cases hu
  rfl

/-- A thread that is made and made ready: the others are as they were. -/
theorem heap_of_ready_new {s₁ : Sys} {a x : SpaceId} {t t' : Thread}
    (hready : s₁.readyToRun a = some s') (hheap : s₁.heap = (s.set a t).heap)
    (hx : s'.heap x = some t') :
    (x = a ∧ t' = { t with status := .READY }) ∨ s.heap x = some t' := by
  have ht : s₁.heap a = some t := by
    rw [hheap]
    exact heap_set_self ..
  rw [readyToRun_heap ht hready, hheap] at hx
  by_cases hxa : x = a
  · subst hxa
    rw [Function.update_self] at hx
    cases hx
    exact Or.inl ⟨rfl, rfl⟩
  · exact Or.inr (by simpa [Sys.set, hxa] using hx)

theorem readyToRun_listed {a : SpaceId} (hready : s.readyToRun a = some s') :
    s'.listed.Perm (a :: s.listed) := by
  obtain ⟨t, -, rfl⟩ := Option.map_eq_some_iff.mp hready
  simp only [listed]
  split
  · rw [List.map_append]
    exact List.perm_append_singleton a s.listed
  · exact (sortedInsert_perm a _ s.readyList).map Prod.snd
  · exact (sortedInsert_perm a _ s.readyList).map Prod.snd

/-- **`ReadyToRun`** of a thread that is not on the list, and not over. -/
theorem ListInv.readyToRun (h : ListInv s awake) {a : SpaceId} {t : Thread}
    (ht : s.heap a = some t) (hst : t.status ≠ .READY) (hc : t.cont ≠ .finished)
    (hready : s.readyToRun a = some s') :
    ListInv s' (awake ∧ a ≠ s.currentThread) := by
  have hperm := readyToRun_listed hready
  have hno := h.not_listed ht hst
  have hmem : ∀ b, b ∈ s'.listed ↔ b = a ∨ b ∈ s.listed := by
    intro b
    rw [hperm.mem_iff, List.mem_cons]
  have hheap := readyToRun_heap ht hready
  have hcur : s'.currentThread = s.currentThread := (readyToRun_sameJoin hready).2
  have hcases : ∀ b u, s'.heap b = some u →
      (b = a ∧ u = { t with status := .READY }) ∨ (b ≠ a ∧ s.heap b = some u) := by
    intro b u hu
    rw [hheap] at hu
    by_cases hb : b = a
    · subst hb
      exact Or.inl ⟨rfl, by simpa using hu.symm⟩
    · exact Or.inr ⟨hb, by simpa [hb] using hu⟩
  have hkeep : ∀ b, (∃ u, s.heap b = some u) → ∃ u, s'.heap b = some u := by
    rintro b ⟨u, hu⟩
    rw [hheap]
    by_cases hb : b = a
    · exact ⟨_, by rw [hb, Function.update_self]⟩
    · exact ⟨u, by rw [Function.update_of_ne hb, hu]⟩
  refine ⟨?_, ?_, ?_, ?_, ?_, ?_⟩
  · rw [hcur]
    exact hkeep _ h.current
  · intro b u hu
    rw [hcur]
    rcases hcases b u hu with ⟨rfl, rfl⟩ | ⟨hb, hu⟩
    · exact iff_of_false (by simp) fun ⟨hb, _, hne⟩ => hne hb
    · rw [h.running b u hu]
      refine and_congr_right fun hbc => ?_
      simp [← hbc, Ne.symm hb]
  · intro b u hu
    rw [hmem]
    rcases hcases b u hu with ⟨rfl, rfl⟩ | ⟨hb, hu⟩
    · simp
    · simp [h.ready b u hu, hb]
  · exact hperm.nodup_iff.mpr (List.nodup_cons.mpr ⟨hno, h.once⟩)
  · intro b hb
    rcases (hmem b).mp hb with rfl | hb
    · exact hkeep _ ⟨t, ht⟩
    · exact hkeep b (h.lives b hb)
  · intro b u hu hfin
    rcases hcases b u hu with ⟨rfl, rfl⟩ | ⟨-, hu⟩
    · exact absurd hfin hc
    · exact h.blocked b u hu hfin

/-- The first thread of the list, and the state without it. -/
theorem nextSwitch_eq_some (hs : s.nextSwitch = some s') :
    ∃ key a l t, s.readyList = (key, a) :: l ∧ s.heap a = some t ∧
      s' = { s with readyList := l, quantum := 0, currentThread := a }.set a
        { t with status := .RUNNING } := by
  unfold nextSwitch at hs
  split at hs
  · cases hs
  · rename_i key a l hl
    obtain ⟨t, ht, rfl⟩ := Option.map_eq_some_iff.mp hs
    exact ⟨key, a, l, t, hl, ht, rfl⟩

/-- **`FindNextToRun` and `Run`**, up to `SWITCH`: one thread runs again. -/
theorem ListInv.nextSwitch (h : ListInv s False) (hs : s.nextSwitch = some s') :
    ListInv s' True := by
  obtain ⟨key, a, l, t, hl, ht, rfl⟩ := nextSwitch_eq_some hs
  have hlisted : s.listed = a :: l.map Prod.snd := by simp [listed, hl]
  have honce := h.once
  rw [hlisted, List.nodup_cons] at honce
  have hready : t.status = .READY := (h.ready a t ht).mpr (by simp [hlisted])
  have hnofin : t.cont ≠ .finished := by
    intro hc
    rw [h.blocked a t ht hc] at hready
    cases hready
  have hcases : ∀ b u, Function.update s.heap a
      (some { t with status := .RUNNING }) b = some u →
      (b = a ∧ u = { t with status := .RUNNING }) ∨ (b ≠ a ∧ s.heap b = some u) := by
    intro b u hu
    by_cases hb : b = a
    · subst hb
      exact Or.inl ⟨rfl, by simpa using hu.symm⟩
    · exact Or.inr ⟨hb, by simpa [hb] using hu⟩
  refine ⟨⟨_, heap_set_self ..⟩, ?_, ?_, honce.2, ?_, ?_⟩
  · intro b u hu
    rcases hcases b u hu with ⟨rfl, rfl⟩ | ⟨hb, hu⟩
    · simp
    · have hnot : ¬ u.status = .RUNNING := fun hrun => ((h.running b u hu).mp hrun).2
      exact iff_of_false hnot fun hba => hb hba.1
  · intro b u hu
    have hold : b ≠ a → (b ∈ s.listed ↔ b ∈ l.map Prod.snd) := by
      intro hb
      simp [hlisted, hb]
    rcases hcases b u hu with ⟨rfl, rfl⟩ | ⟨hb, hu⟩
    · exact iff_of_false (by simp) honce.1
    · rw [h.ready b u hu]
      exact hold hb
  · intro b hb
    obtain ⟨u, hu⟩ := h.lives b (by simp only [hlisted]; exact List.mem_cons_of_mem a hb)
    have hne : b ≠ a := by
      rintro rfl
      exact honce.1 hb
    exact ⟨u, by simpa [Sys.set, hne] using hu⟩
  · intro b u hu hfin
    rcases hcases b u hu with ⟨rfl, rfl⟩ | ⟨-, hu⟩
    · exact absurd hfin hnofin
    · exact h.blocked b u hu hfin

/-- With a thread on the list, `SWITCH` is reached. -/
theorem ListInv.exists_nextSwitch (h : ListInv s awake) (hne : s.readyList ≠ []) :
    ∃ s', s.nextSwitch = some s' := by
  obtain ⟨⟨key, a⟩, l, hl⟩ := List.exists_cons_of_ne_nil hne
  obtain ⟨t, ht⟩ := h.lives a (by simp [listed, hl])
  unfold Sys.nextSwitch
  rw [hl]
  exact ⟨_, Option.map_eq_some_iff.mpr ⟨t, ht, rfl⟩⟩

/-- **The carcass goes**, which is over and on no list. -/
theorem ListInv.deleteCarcass (h : ListInv s awake)
    (hcarcass : s.threadToBeDestroyed ≠ NULL →
      ∃ t, s.heap s.threadToBeDestroyed = some t ∧ t.cont = .finished)
    (hdel : s.deleteCarcass = some s') : ListInv s' awake := by
  unfold Sys.deleteCarcass deleteThread at hdel
  split at hdel
  · cases hdel
    exact h
  rename_i hne
  split at hdel
  · cases hdel
  rename_i hcur
  cases hdel
  obtain ⟨d, hd, hdfin⟩ := hcarcass hne
  have hno := h.not_listed hd (by simp [h.blocked _ d hd hdfin])
  have hold : ∀ {b u}, Function.update s.heap s.threadToBeDestroyed none b = some u →
      s.heap b = some u := by
    intro b u hu
    by_cases hb : b = s.threadToBeDestroyed
    · subst hb
      simp at hu
    · simpa [hb] using hu
  have hkeep : ∀ {b u}, b ≠ s.threadToBeDestroyed → s.heap b = some u →
      Function.update s.heap s.threadToBeDestroyed none b = some u := by
    intro b u hb hu
    rw [Function.update_of_ne hb, hu]
  obtain ⟨c, hc⟩ := h.current
  refine ⟨⟨c, hkeep (Ne.symm hcur) hc⟩, fun a t ht => h.running a t (hold ht),
    fun a t ht => h.ready a t (hold ht), h.once, ?_,
    fun a t ht => h.blocked a t (hold ht)⟩
  intro a ha
  obtain ⟨t, ht⟩ := h.lives a ha
  refine ⟨t, hkeep ?_ ht⟩
  rintro rfl
  exact hno ha

/-- **After `SWITCH`**, in a new thread or in an old one. -/
theorem ListInv.afterSwitch (h : ListInv s awake)
    (hcarcass : s.threadToBeDestroyed ≠ NULL →
      ∃ t, s.heap s.threadToBeDestroyed = some t ∧ t.cont = .finished)
    (hs : s.afterSwitch = some s') : ListInv s' awake := by
  unfold Sys.afterSwitch at hs
  split at hs
  · cases hs
  rename_i t ht
  split at hs
  · rename_i hfresh
    cases hs
    exact h.set ht (by simp [Thread.listView, hfresh])
  · exact h.deleteCarcass hcarcass hs

/-- `ClearChildren` does not touch the statuses. -/
theorem ListInv.clearParents (h : ListInv s awake) (entries : JoinTable) :
    ListInv { s with heap := clearParents s.heap entries } awake := by
  refine h.congr (fun b => ?_) rfl rfl
  obtain ⟨hin, hout⟩ := clearParents_loop entries b (List.finRange MAXENTRIES) s.heap
  by_cases hb : ∃ i ∈ List.finRange MAXENTRIES, entries.Holds i b
  · have hb' : Sys.clearParents s.heap entries b = _ := hin hb
    simp only [hb', Option.map_map]
    rfl
  · have hb' : Sys.clearParents s.heap entries b = _ := hout hb
    simp only [hb']

end Sys

end OsAssignments.MemoryManagement
