import OsAssignments.Lib.PartialMachine
import OsAssignments.Filesys.DiskTurn
import OsAssignments.Filesys.SynchDisk

/-!
# One request at a time

The threads of the kernel take turns on the disk: `view` forgets the scheduler, and
every step of the kernel is an event of `Turn` there, or leaves it as it is. Only a
thread that is `READY` is on the ready list (`ThreadInv`), so the scheduler does not wake
a thread out of its `Sleep`.

- `run_view` — what the threads of a run do with the disk is a run of `Turn`.
- `serves_run` — **at most one request is outstanding, a call returns after its own
  completion, the lock goes round in the order of its queue, and no `ASSERT` fails**,
  in every run.
-/

namespace OsAssignments.Filesys.SynchDisk

open PartialMachine

/-! ## §1  The turn a kernel is in -/

/-- The thread is inside a call of `ReadSector` or `WriteSector`. -/
def Pc.inCall : Pc → Bool
  | .out => false
  | .away => false
  | .finished => false
  | _ => true

/-- Waiting and woken threads differ in their status. -/
def Thread.role (t : Thread) : Option Role :=
  match t.pc with
  | .lockSleep _ => some (if t.status = .BLOCKED then .waiting else .handed)
  | .acquired _ => some .acquired
  | .requested r => some (.requested r)
  | .semSleep r => some (if t.status = .BLOCKED then .sleeping r else .woken r)
  | .got r => some (.got r)
  | _ => none

theorem Thread.role_ready (t : Thread) :
    Thread.role { t with status := .READY } = Turn.wakeRole t.role := by
  obtain ⟨status, pc, started⟩ := t
  cases pc <;> cases status <;> rfl

namespace Kernel

variable {s s' : Kernel} {k : ℕ} {t : Thread}

def view (s : Kernel) : Turn where
  role := (fun o => o.bind Thread.role) ∘ s.threads
  holder := s.lock.state
  waiters := s.lock.queue
  value := s.semaphore.value
  sleepers := s.semaphore.queue
  active := s.disk.active
  pending := s.pending
  completed := s.completed
  queued := s.queued
  obtained := s.obtained

theorem view_role (hk : s.threads k = some t) : s.view.role k = t.role := by
  simp [view, hk]

theorem view_modify (s : Kernel) (k : ℕ) (f : Thread → Thread) :
    (s.modify k f).view = s.view.setRole k (((s.threads k).map f).bind Thread.role) := by
  unfold view modify Turn.setRole
  rw [Function.comp_update]

theorem view_readyToRun (s : Kernel) (k : ℕ) :
    (s.readyToRun k).view = s.view.setRole k (Turn.wakeRole (s.view.role k)) := by
  change (s.modify k fun t => { t with status := .READY }).view = _
  rw [view_modify]
  congr 1
  cases hk : s.threads k with
  | none => simp [view, hk, Turn.wakeRole]
  | some t => simpa [view, hk] using t.role_ready

/-! ## §2  The ready list -/

structure ThreadInv (s : Kernel) : Prop where
  nodup : s.readyList.Nodup
  ready : ∀ k ∈ s.readyList, ∃ t, s.threads k = some t ∧ t.status = .READY
  doomed : ∀ k, s.threadToBeDestroyed = some k →
    ∃ t, s.threads k = some t ∧ t.status = .BLOCKED ∧ t.pc = .finished

/-- Only the threads of the ready list, and the one to be destroyed, matter. -/
theorem ThreadInv.frame (h : s.ThreadInv) (hlist : s'.readyList = s.readyList)
    (hdoomed : s'.threadToBeDestroyed = s.threadToBeDestroyed)
    (hthreads : ∀ j, j ∈ s.readyList ∨ s.threadToBeDestroyed = some j →
      s'.threads j = s.threads j) : s'.ThreadInv := by
  refine ⟨hlist ▸ h.nodup, ?_, ?_⟩
  · intro j hj
    rw [hlist] at hj
    rw [hthreads j (.inl hj)]
    exact h.ready j hj
  · intro j hj
    rw [hdoomed] at hj
    rw [hthreads j (.inr hj)]
    exact h.doomed j hj

/-- A thread that is not `READY` is not on the ready list, and a thread that has not
finished is not to be destroyed. -/
theorem ThreadInv.not_listed (h : s.ThreadInv) (hk : s.threads k = some t)
    (hstatus : t.status ≠ .READY) (hpc : t.status ≠ .BLOCKED ∨ t.pc ≠ .finished) :
    k ∉ s.readyList ∧ s.threadToBeDestroyed ≠ some k := by
  refine ⟨?_, ?_⟩
  · intro hmem
    obtain ⟨t', ht', hready⟩ := h.ready k hmem
    rw [hk] at ht'
    cases ht'
    exact hstatus hready
  · intro hdoomed
    obtain ⟨t', ht', hblocked, hfinished⟩ := h.doomed k hdoomed
    rw [hk] at ht'
    cases ht'
    rcases hpc with hpc | hpc
    · exact hpc hblocked
    · exact hpc hfinished

/-- A thread that is running can do to itself what it likes. -/
theorem ThreadInv.update_running (h : s.ThreadInv) (hk : s.threads k = some t)
    (ht : t.status = .RUNNING) (o : Option Thread) (hlist : s'.readyList = s.readyList)
    (hdoomed : s'.threadToBeDestroyed = s.threadToBeDestroyed)
    (hthreads : s'.threads = Function.update s.threads k o) : s'.ThreadInv := by
  obtain ⟨hnot, hdoom⟩ := h.not_listed hk (by simp [ht]) (.inl (by simp [ht]))
  refine h.frame hlist hdoomed ?_
  intro j hj
  rw [hthreads, Function.update_of_ne]
  rintro rfl
  rcases hj with hj | hj
  · exact hnot hj
  · exact hdoom hj

theorem ThreadInv.readyToRun (h : s.ThreadInv) (hk : s.threads k = some t)
    (hstatus : t.status ≠ .READY) (hpc : t.pc ≠ .finished) : (s.readyToRun k).ThreadInv := by
  obtain ⟨hnot, hdoom⟩ := h.not_listed hk hstatus (.inr hpc)
  refine ⟨?_, ?_, ?_⟩
  · refine List.nodup_append.mpr ⟨h.nodup, List.nodup_singleton k, ?_⟩
    rintro a ha b hb rfl
    exact hnot (List.mem_singleton.mp hb ▸ ha)
  · intro j hj
    by_cases hjk : j = k
    · subst hjk
      exact ⟨{ t with status := .READY }, by simp [Kernel.readyToRun, modify, hk], rfl⟩
    · have hj' : j ∈ s.readyList := by simpa [Kernel.readyToRun, hjk] using hj
      simpa [Kernel.readyToRun, modify, Function.update_of_ne hjk] using h.ready j hj'
  · intro j hj
    have hjk : j ≠ k := by
      rintro rfl
      exact hdoom hj
    simpa [Kernel.readyToRun, modify, Function.update_of_ne hjk] using h.doomed j hj

/-- The thread to be destroyed has no part in any turn. -/
theorem ThreadInv.deleteCarcass (h : s.ThreadInv) :
    s.deleteCarcass.ThreadInv ∧ s.deleteCarcass.view = s.view := by
  cases hdoomed : s.threadToBeDestroyed with
  | none =>
      rw [Kernel.deleteCarcass, hdoomed]
      exact ⟨h, rfl⟩
  | some k =>
      obtain ⟨t, hk, hblocked, hfinished⟩ := h.doomed k hdoomed
      rw [Kernel.deleteCarcass, hdoomed]
      refine ⟨⟨h.nodup, ?_, (fun j hj => by cases hj)⟩, ?_⟩
      · intro j hj
        obtain ⟨t', ht', hready⟩ := h.ready j hj
        have hjk : j ≠ k := by
          rintro rfl
          rw [hk] at ht'
          cases ht'
          rw [hblocked] at hready
          cases hready
        exact ⟨t', by simpa [Function.update_of_ne hjk] using ht', hready⟩
      · have hrole : none = s.view.role k := by simp [view, hk, Thread.role, hfinished]
        unfold view
        simp only
        rw [Function.comp_update, Option.bind_none, hrole]
        simp [view]

/-- Running the head of the ready list changes nobody's turn. -/
theorem ThreadInv.run (h : s.ThreadInv) {readyList : List ℕ}
    (hlist : s.readyList = k :: readyList) :
    ({ s with readyList }.run k).ThreadInv ∧ ({ s with readyList }.run k).view = s.view := by
  obtain ⟨t, hk, hready⟩ := h.ready k (by simp [hlist])
  have hnodup : k ∉ readyList ∧ readyList.Nodup := by simpa [hlist] using h.nodup
  let s₁ : Kernel := { s with
    readyList
    currentThread := k
    threads := Function.update s.threads k (some { t with status := .RUNNING, started := true }) }
  have hinv : s₁.ThreadInv := by
    refine ⟨hnodup.2, ?_, ?_⟩
    · intro j hj
      have hjk : j ≠ k := fun hc => hnodup.1 (hc ▸ hj)
      have hmem : j ∈ s.readyList := hlist ▸ List.mem_cons_of_mem k hj
      simpa [s₁, Function.update_of_ne hjk] using h.ready j hmem
    · intro j hj
      obtain ⟨t', ht', hblocked, hfinished⟩ := h.doomed j hj
      have hjk : j ≠ k := by
        rintro rfl
        rw [hk] at ht'
        cases ht'
        rw [hready] at hblocked
        cases hblocked
      exact ⟨t', by simpa [s₁, Function.update_of_ne hjk] using ht', hblocked, hfinished⟩
  have hview : s₁.view = s.view := by
    have hrole : Thread.role { t with status := .RUNNING, started := true } = s.view.role k := by
      rw [view_role hk]
      simp [Thread.role, hready]
    unfold view
    simp only [s₁]
    rw [Function.comp_update, Option.bind_some, hrole]
    simp [view]
  have hrun : { s with readyList }.run k = if t.started then s₁.deleteCarcass else s₁ := by
    simp only [Kernel.run, hk, s₁]
  rw [hrun]
  split_ifs
  · exact ⟨hinv.deleteCarcass.1, hinv.deleteCarcass.2.trans hview⟩
  · exact ⟨hinv, hview⟩

/-! ## §3  The invariant -/

/-- Every request has a number of its own, and completes once. -/
structure IdInv (pending completed : List ℕ) (nextRequest : ℕ) : Prop where
  nodup : (pending ++ completed).Nodup
  lt : ∀ r ∈ pending ++ completed, r < nextRequest

theorem IdInv.request {pending completed : List ℕ} {n : ℕ} (h : IdInv pending completed n) :
    IdInv (pending ++ [n]) completed (n + 1) := by
  have hperm : (pending ++ [n] ++ completed).Perm (n :: (pending ++ completed)) := by
    rw [List.append_assoc]
    exact List.perm_middle
  refine ⟨?_, ?_⟩
  · have hnot : n ∉ pending ++ completed := fun hmem => Nat.lt_irrefl n (h.lt n hmem)
    exact hperm.nodup_iff.mpr (List.nodup_cons.mpr ⟨hnot, h.nodup⟩)
  · intro r hr
    rcases List.mem_cons.mp (hperm.mem_iff.mp hr) with rfl | hr
    · exact Nat.lt_succ_self r
    · exact Nat.lt_succ_of_lt (h.lt r hr)

theorem IdInv.complete {pending completed : List ℕ} {n r : ℕ} (h : IdInv pending completed n)
    (hr : r ∈ pending) : IdInv (pending.erase r) (completed ++ [r]) n := by
  have hperm : (pending.erase r ++ (completed ++ [r])).Perm (pending ++ completed) := by
    rw [← List.append_assoc]
    refine (List.perm_append_singleton r _).trans ?_
    exact (List.perm_cons_erase hr).symm.append_right completed
  exact ⟨hperm.nodup_iff.mpr h.nodup, fun x hx => h.lt x (hperm.mem_iff.mp hx)⟩

structure KernelInv (s : Kernel) : Prop where
  threads : s.ThreadInv
  turn : s.view.TurnInv
  ids : IdInv s.pending s.completed s.nextRequest

theorem runningPc_eq_some {pc : Pc} :
    s.runningPc = some pc ↔
      ∃ t, s.threads s.currentThread = some t ∧ t.status = .RUNNING ∧ t.pc = pc := by
  unfold runningPc
  rcases hk : s.threads s.currentThread with _ | ⟨status, pc', started⟩
  · simp
  · cases status <;> simp

theorem view_goTo (hk : s.threads s.currentThread = some t) (pc : Pc) :
    (s.goTo pc).view = s.view.setRole s.currentThread (Thread.role { t with pc }) := by
  rw [goTo, view_modify, hk]
  rfl

theorem view_sleep (hk : s.threads s.currentThread = some t) (pc : Pc) :
    (s.sleep pc).view =
      s.view.setRole s.currentThread (Thread.role { t with status := .BLOCKED, pc }) := by
  rw [sleep, view_modify, hk]
  rfl

theorem setRole_self (d : Turn) (k : ℕ) : d.setRole k (d.role k) = d := by
  simp [Turn.setRole]

/-- Whoever waking makes a difference to is blocked, inside a call. -/
theorem blocked_of_role {ρ : Role} (hrole : s.view.role k = some ρ)
    (hρ : Turn.wakeRole (some ρ) ≠ some ρ) :
    ∃ t, s.threads k = some t ∧ t.status = .BLOCKED ∧ t.pc ≠ .finished := by
  rcases hk : s.threads k with _ | ⟨status, pc, started⟩
  · simp [view, hk] at hrole
  · rw [view_role hk] at hrole
    refine ⟨_, rfl, ?_, ?_⟩
    · by_contra hstatus
      cases pc <;> simp_all [Thread.role] <;> subst hrole <;> simp [Turn.wakeRole] at hρ
    · rintro rfl
      simp [Thread.role] at hrole

/-! ## §4  The steps of a call -/

/-- The step is the event `e` of the turn, or one that the turn does not see. -/
structure Refines (s s' : Kernel) (e : Option Event) : Prop where
  inv : s'.KernelInv
  view : e.elim (some s.view) s.view.next = some s'.view

/-- A step that is an event keeps the invariant of the turn. -/
theorem KernelInv.refines (h : s.KernelInv) (hthreads : s'.ThreadInv) {e : Event}
    (hview : s.view.next e = some s'.view)
    (hids : IdInv s'.pending s'.completed s'.nextRequest) : s.Refines s' (some e) :=
  ⟨⟨hthreads, h.turn.next hview, hids⟩, hview⟩

theorem acquire_of_free {call : Call} (hstate : s.lock.state = none) :
    s.acquire call =
      { s with lock := { s.lock with state := some s.currentThread } }.goTo (.acquired call) := by
  rw [acquire, hstate]

theorem acquire_of_held {call : Call} {j : ℕ} (hstate : s.lock.state = some j) :
    s.acquire call = { s with
      lock := { s.lock with queue := s.lock.queue ++ [s.currentThread] }
      queued := s.queued ++ [s.currentThread] }.sleep (.lockSleep call) := by
  rw [acquire, hstate]

theorem KernelInv.acquire (h : s.KernelInv) (hpc : s.runningPc = some .out) (call : Call) :
    s.Refines (s.acquire call) (some (.enter s.currentThread)) := by
  obtain ⟨t, hk, ht, hout⟩ := runningPc_eq_some.mp hpc
  have hrole : s.view.role s.currentThread = none := by
    rw [view_role hk, Thread.role, hout]
  cases hstate : s.lock.state with
  | none =>
      rw [acquire_of_free hstate]
      apply h.refines
      · exact h.threads.update_running hk ht _ rfl rfl rfl
      · rw [Turn.next, if_pos hrole, Turn.enter_of_free hstate, view_goTo (t := t)]
        · rfl
        · exact hk
      · exact h.ids
  | some j =>
      rw [acquire_of_held hstate]
      apply h.refines
      · exact h.threads.update_running hk ht _ rfl rfl rfl
      · rw [Turn.next, if_pos hrole, Turn.enter_of_held hstate, view_sleep (t := t)]
        · rfl
        · exact hk
      · exact h.ids

theorem KernelInv.acquireSlept (h : s.KernelInv) {call : Call}
    (hpc : s.runningPc = some (.lockSleep call)) :
    s.Refines (s.acquireSlept call) (some (.resume s.currentThread)) := by
  obtain ⟨t, hk, ht, hsleep⟩ := runningPc_eq_some.mp hpc
  have hrole : s.view.role s.currentThread = some .handed := by
    rw [view_role hk, Thread.role, hsleep, ht]
    rfl
  apply h.refines
  · exact h.threads.update_running hk ht _ rfl rfl rfl
  · rw [Turn.next, if_pos hrole, Kernel.acquireSlept, view_goTo (t := t)]
    · rfl
    · exact hk
  · exact h.ids

theorem KernelInv.request (h : s.KernelInv) {call : Call} {n : ℤ}
    (hpc : s.runningPc = some (.acquired call)) (hreq : s.request n = some s') :
    s.Refines s' (some (.request s.currentThread s.nextRequest)) := by
  obtain ⟨t, hk, ht, hacquired⟩ := runningPc_eq_some.mp hpc
  have hrole : s.view.role s.currentThread = some .acquired := by
    rw [view_role hk, Thread.role, hacquired]
  rw [Kernel.request, Option.ite_none_left_eq_some, Option.ite_none_right_eq_some] at hreq
  obtain ⟨hidle, -, heq⟩ := hreq
  have hactive : s.view.active = false := by
    rw [← Bool.not_eq_true]
    exact hidle
  cases heq
  apply h.refines
  · exact h.threads.update_running hk ht _ rfl rfl rfl
  · rw [Turn.next, if_pos ⟨hrole, hactive⟩, view_goTo (t := t)]
    · rfl
    · exact hk
  · exact h.ids.request

theorem KernelInv.P (h : s.KernelInv) {r : ℕ}
    (hpc : s.runningPc = some (.requested r) ∨ s.runningPc = some (.semSleep r)) :
    s.Refines (s.P r) (some (.wait s.currentThread r)) := by
  obtain ⟨t, hk, ht, hrole⟩ : ∃ t, s.threads s.currentThread = some t ∧ t.status = .RUNNING ∧
      (s.view.role s.currentThread = some (.requested r) ∨
        s.view.role s.currentThread = some (.woken r)) := by
    rcases hpc with hpc | hpc
    · obtain ⟨t, hk, ht, hat⟩ := runningPc_eq_some.mp hpc
      exact ⟨t, hk, ht, .inl (by rw [view_role hk, Thread.role, hat])⟩
    · obtain ⟨t, hk, ht, hat⟩ := runningPc_eq_some.mp hpc
      refine ⟨t, hk, ht, .inr ?_⟩
      rw [view_role hk, Thread.role, hat, ht]
      rfl
  unfold Kernel.P
  by_cases hvalue : s.semaphore.value = 0
  · rw [if_pos hvalue]
    apply h.refines
    · exact h.threads.update_running hk ht _ rfl rfl rfl
    · rw [Turn.next, if_pos hrole, Turn.wait, if_pos (show s.view.value = 0 from hvalue),
        view_sleep (t := t)]
      · rfl
      · exact hk
    · exact h.ids
  · rw [if_neg hvalue]
    apply h.refines
    · exact h.threads.update_running hk ht _ rfl rfl rfl
    · rw [Turn.next, if_pos hrole, Turn.wait, if_neg (show s.view.value ≠ 0 from hvalue),
        view_goTo (t := t)]
      · rfl
      · exact hk
    · exact h.ids

theorem V_of_nil (hqueue : s.semaphore.queue = []) :
    s.V = { s with semaphore := ⟨s.semaphore.value + 1, []⟩ } := by
  rw [V, hqueue]

theorem V_of_cons {queue : List ℕ} (hqueue : s.semaphore.queue = k :: queue) :
    s.V = { s.readyToRun k with semaphore := ⟨s.semaphore.value + 1, queue⟩ } := by
  rw [V, hqueue]

/-- The thread that the interrupt wakes is asleep in `P`. -/
theorem KernelInv.handleInterrupt (h : s.KernelInv) {r : ℕ} (hr : r ∈ s.pending) :
    s.Refines (s.handleInterrupt r) (some (.complete r)) := by
  have hids := h.ids.complete hr
  rw [Kernel.handleInterrupt, requestDone]
  rcases hqueue : s.semaphore.queue with _ | ⟨k, queue⟩
  · rw [V_of_nil (by exact hqueue)]
    apply h.refines
    · exact ⟨h.threads.nodup, h.threads.ready, h.threads.doomed⟩
    · rw [Turn.next, if_pos (show r ∈ s.view.pending from hr), Turn.complete_of_nil hqueue,
        show s.view.sleepers = [] from hqueue]
      rfl
    · exact hids
  · obtain ⟨r', hrole⟩ := h.turn.sleeping hqueue
    obtain ⟨t, hk, hblocked, hpc⟩ := blocked_of_role hrole (by simp [Turn.wakeRole])
    rw [V_of_cons (by exact hqueue)]
    have hready := h.threads.readyToRun hk (by simp [hblocked]) hpc
    apply h.refines
    · exact ⟨hready.nodup, hready.ready, hready.doomed⟩
    · rw [Turn.next, if_pos (show r ∈ s.view.pending from hr), Turn.complete_of_cons hqueue]
      have hview := congrArg Turn.role (s.view_readyToRun k)
      congr 1
      ext1
      · exact hview.symm
      all_goals rfl
    · exact hids

/-- The thread that gets the lock is asleep in `Acquire`. -/
theorem KernelInv.release (h : s.KernelInv) {r : ℕ} (hpc : s.runningPc = some (.got r))
    (hrelease : s.release = some s') :
    s.Refines (s'.goTo .out) (some (.release s.currentThread r)) := by
  obtain ⟨t, hk, ht, hgot⟩ := runningPc_eq_some.mp hpc
  have hrole : s.view.role s.currentThread = some (.got r) := by
    rw [view_role hk, Thread.role, hgot]
  rw [Kernel.release, Option.ite_none_right_eq_some] at hrelease
  obtain ⟨hholder, heq⟩ := hrelease
  have hguard : s.view.role s.currentThread = some (.got r) ∧
      s.view.holder = some s.currentThread := ⟨hrole, hholder⟩
  rcases hqueue : s.lock.queue with _ | ⟨k, queue⟩
  · rw [hqueue] at heq
    cases heq
    apply h.refines
    · exact h.threads.update_running hk ht _ rfl rfl rfl
    · rw [Turn.next, if_pos hguard, Turn.release_of_nil hqueue, view_goTo (t := t)]
      · congr 1
        ext1 <;> first | rfl | exact hqueue
      · exact hk
    · exact h.ids
  · rw [hqueue] at heq
    cases heq
    have hwaiting : s.view.role k = some .waiting :=
      (h.turn.waiters k).mp (by rw [show s.view.waiters = k :: queue from hqueue]; simp)
    obtain ⟨t', hk', hblocked, hpc'⟩ := blocked_of_role hwaiting (by simp [Turn.wakeRole])
    have hne : k ≠ s.currentThread := by
      rintro rfl
      rw [hrole] at hwaiting
      cases hwaiting
    have hready := h.threads.readyToRun hk' (by simp [hblocked]) hpc'
    have hcur : (s.readyToRun k).threads s.currentThread = some t := by
      simp [readyToRun, modify, Function.update_of_ne hne.symm, hk]
    apply h.refines
    · exact hready.update_running hcur ht _ rfl rfl rfl
    · rw [Turn.next, if_pos hguard, Turn.release_of_cons hqueue, view_goTo (t := t)]
      · have hview := congrArg Turn.role (s.view_readyToRun k)
        congr 1
        ext1
        · exact congrArg (fun f => Function.update f s.currentThread none) hview.symm
        all_goals rfl
      · exact hcur
    · exact h.ids

/-! ## §5  The scheduler leaves the turns alone -/

theorem KernelInv.of_view (h : s.KernelInv) (hthreads : s'.ThreadInv) (hview : s'.view = s.view)
    (hnext : s'.nextRequest = s.nextRequest) : s.Refines s' none := by
  refine ⟨⟨hthreads, hview ▸ h.turn, ?_⟩, congrArg some hview.symm⟩
  have hpending : s'.pending = s.pending := congrArg Turn.pending hview
  have hcompleted : s'.completed = s.completed := congrArg Turn.completed hview
  rw [hpending, hcompleted, hnext]
  exact h.ids

theorem Refines.trans {s₁ : Kernel} (h : s.Refines s₁ none) (h₁ : s₁.Refines s' none) :
    s.Refines s' none :=
  ⟨h₁.inv, h.view.trans h₁.view⟩

@[simp] theorem nextRequest_run (s : Kernel) (k : ℕ) : (s.run k).nextRequest = s.nextRequest := by
  rw [run]
  cases s.threads k with
  | none => rfl
  | some t =>
      simp only
      split_ifs
      · rw [deleteCarcass]
        split <;> rfl
      · rfl

theorem KernelInv.run (h : s.KernelInv) {readyList : List ℕ}
    (hlist : s.readyList = k :: readyList) : s.Refines ({ s with readyList }.run k) none := by
  obtain ⟨hthreads, hview⟩ := h.threads.run hlist
  exact h.of_view hthreads hview (nextRequest_run _ k)

/-- Only a blocked thread is in the middle of a `Sleep`. -/
theorem wakeRole_of_ne_blocked (ht : t.status ≠ .BLOCKED) : Turn.wakeRole t.role = t.role := by
  obtain ⟨status, pc, started⟩ := t
  cases pc <;> simp_all [Thread.role, Turn.wakeRole]

theorem KernelInv.readyToRun (h : s.KernelInv) (hk : s.threads k = some t)
    (hstatus : t.status ≠ .READY) (hpc : t.pc ≠ .finished)
    (hrole : Turn.wakeRole t.role = t.role) : s.Refines (s.readyToRun k) none := by
  refine h.of_view (h.threads.readyToRun hk hstatus hpc) ?_ rfl
  rw [view_readyToRun, view_role hk, hrole, ← view_role hk, setRole_self]

theorem KernelInv.yield (h : s.KernelInv) (htick : s.runningPc.any Pc.tick = true) :
    s.Refines s.yield none := by
  obtain ⟨pc, hpc, htick⟩ := (Option.any_eq_true _ _).mp htick
  obtain ⟨t, hk, ht, rfl⟩ := runningPc_eq_some.mp hpc
  rcases hlist : s.readyList with _ | ⟨k, readyList⟩
  · rw [Kernel.yield, hlist]
    exact ⟨h, rfl⟩
  · have hready : s.Refines (s.readyToRun s.currentThread) none := by
      refine h.readyToRun hk (by simp [ht]) ?_ (wakeRole_of_ne_blocked (by simp [ht]))
      intro hfinished
      rw [hfinished] at htick
      cases htick
    have hcons : (s.readyToRun s.currentThread).readyList =
        k :: (readyList ++ [s.currentThread]) := by
      rw [Kernel.readyToRun, hlist, List.cons_append]
    rw [Kernel.yield, hlist]
    exact hready.trans (hready.inv.run hcons)

/-- What a thread does outside the calls. -/
theorem KernelInv.update (h : s.KernelInv)
    (hk : k ∉ s.readyList ∧ s.threadToBeDestroyed ≠ some k) {o : Option Thread}
    (ho : o.bind Thread.role = s.view.role k) :
    s.Refines { s with threads := Function.update s.threads k o } none := by
  refine h.of_view (h.threads.frame rfl rfl ?_) ?_ rfl
  · intro j hj
    refine Function.update_of_ne ?_ _ _
    rintro rfl
    rcases hj with hj | hj
    · exact hk.1 hj
    · exact hk.2 hj
  · unfold view
    simp only
    rw [Function.comp_update, ho]
    simp [view]

theorem KernelInv.sleep (h : s.KernelInv) (hpc : s.runningPc = some .out) :
    s.Refines (s.sleep .away) none := by
  obtain ⟨t, hk, ht, hout⟩ := runningPc_eq_some.mp hpc
  refine h.update (h.threads.not_listed hk (by simp [ht]) (.inl (by simp [ht]))) ?_
  rw [view_role hk, hk, Thread.role, hout]
  rfl

theorem KernelInv.finish (h : s.KernelInv) (hpc : s.runningPc = some .out) :
    s.Refines ({ s with threadToBeDestroyed := some s.currentThread }.sleep .finished)
      none := by
  obtain ⟨t, hk, ht, hout⟩ := runningPc_eq_some.mp hpc
  have hsleep : s.Refines (s.sleep .finished) none := by
    refine h.update (h.threads.not_listed hk (by simp [ht]) (.inl (by simp [ht]))) ?_
    rw [view_role hk, hk, Thread.role, hout]
    rfl
  refine hsleep.trans (hsleep.inv.of_view
    ⟨hsleep.inv.threads.nodup, hsleep.inv.threads.ready, ?_⟩ rfl rfl)
  intro j hj
  cases hj
  exact ⟨{ t with status := .BLOCKED, pc := .finished }, by simp [Kernel.sleep, modify, hk],
    rfl, rfl⟩

theorem KernelInv.fork (h : s.KernelInv) (hk : s.threads k = none) :
    s.Refines ({ s with
      threads := Function.update s.threads k (some ⟨.JUST_CREATED, .out, false⟩) }.readyToRun
        k) none := by
  have hfree : k ∉ s.readyList ∧ s.threadToBeDestroyed ≠ some k := by
    refine ⟨?_, ?_⟩
    · intro hmem
      obtain ⟨t, ht, -⟩ := h.threads.ready k hmem
      rw [hk] at ht
      cases ht
    · intro hdoomed
      obtain ⟨t, ht, -⟩ := h.threads.doomed k hdoomed
      rw [hk] at ht
      cases ht
  have hnew := h.update (o := some ⟨.JUST_CREATED, .out, false⟩) hfree (by simp [view, hk]; rfl)
  exact hnew.trans
    (hnew.inv.readyToRun (Function.update_self _ _ _) (by simp) (by simp) rfl)

theorem KernelInv.wake (h : s.KernelInv)
    (hk : (s.threads k).map (fun t => (t.status, t.pc)) = some (.BLOCKED, .away)) :
    s.Refines ((s.modify k fun t => { t with pc := .out }).readyToRun k) none := by
  obtain ⟨t, hk, hat⟩ := Option.map_eq_some_iff.mp hk
  obtain ⟨hblocked, haway⟩ := Prod.mk.inj hat
  have hout : s.Refines (s.modify k fun t => { t with pc := .out }) none := by
    refine h.update (h.threads.not_listed hk (by simp [hblocked]) (.inr (by simp [haway]))) ?_
    rw [view_role hk, hk, Thread.role, haway]
    rfl
  refine hout.trans (hout.inv.readyToRun (t := { t with pc := .out }) ?_ (by simp [hblocked])
    (by simp) rfl)
  simp [modify, hk]

/-! ## §6  Every run -/

theorem KernelInv.next (h : s.KernelInv) (hnext : s.next = some s') :
    ∃ e, s.Refines s' e := by
  unfold Kernel.next at hnext
  split at hnext
  next call hpc =>
    cases hnext
    exact ⟨_, h.acquireSlept hpc⟩
  next writing n hpc =>
    have hreq : s.request n = some s' := by
      split_ifs at hnext
      · exact hnext
      · exact hnext
    exact ⟨_, h.request hpc hreq⟩
  next r hpc =>
    cases hnext
    exact ⟨_, h.P (.inl hpc)⟩
  next r hpc =>
    cases hnext
    exact ⟨_, h.P (.inr hpc)⟩
  next r hpc =>
    obtain ⟨s₁, hrelease, heq⟩ := Option.map_eq_some_iff.mp hnext
    exact ⟨_, heq ▸ h.release hpc hrelease⟩
  next => cases hnext

/-- **A step of the kernel** is an event of the turn, or none. -/
theorem KernelInv.step {a : Act} (h : s.KernelInv) (hstep : s.step a = some s') :
    ∃ e, s.Refines s' e := by
  cases a with
  | call call =>
      rw [Kernel.step, Option.ite_none_right_eq_some] at hstep
      obtain ⟨hpc, heq⟩ := hstep
      cases heq
      exact ⟨_, h.acquire hpc call⟩
  | next => exact h.next hstep
  | interrupt r =>
      rw [Kernel.step, Option.ite_none_right_eq_some] at hstep
      obtain ⟨⟨-, hr⟩, heq⟩ := hstep
      cases heq
      exact ⟨_, h.handleInterrupt hr⟩
  | yield =>
      rw [Kernel.step, Option.ite_none_right_eq_some] at hstep
      obtain ⟨htick, heq⟩ := hstep
      cases heq
      exact ⟨_, h.yield htick⟩
  | dispatch =>
      rw [Kernel.step, Option.ite_none_right_eq_some] at hstep
      obtain ⟨-, heq⟩ := hstep
      rcases hlist : s.readyList with _ | ⟨k, readyList⟩
      · rw [hlist] at heq
        cases heq
      · rw [hlist] at heq
        cases heq
        exact ⟨_, h.run hlist⟩
  | fork k =>
      rw [Kernel.step, Option.ite_none_right_eq_some] at hstep
      obtain ⟨⟨-, hk⟩, heq⟩ := hstep
      cases heq
      exact ⟨_, h.fork hk⟩
  | sleep =>
      rw [Kernel.step, Option.ite_none_right_eq_some] at hstep
      obtain ⟨hpc, heq⟩ := hstep
      cases heq
      exact ⟨_, h.sleep hpc⟩
  | wake k =>
      rw [Kernel.step, Option.ite_none_right_eq_some] at hstep
      obtain ⟨⟨-, hk⟩, heq⟩ := hstep
      cases heq
      exact ⟨_, h.wake hk⟩
  | finish =>
      rw [Kernel.step, Option.ite_none_right_eq_some] at hstep
      obtain ⟨hpc, heq⟩ := hstep
      cases heq
      exact ⟨_, h.finish hpc⟩

theorem KernelInv.init (main : ℕ) : (Kernel.init main).KernelInv := by
  have hrole : ∀ k, (Kernel.init main).view.role k = none := by
    intro k
    by_cases hk : k = main
    · subst hk
      simp [view, Kernel.init, Thread.role]
    · simp [view, Kernel.init, Function.update_of_ne hk]
  refine ⟨⟨List.nodup_nil, (fun k hk => by cases hk), (fun k hk => by cases hk)⟩, ?_,
    ⟨List.nodup_nil, (fun r hr => by cases hr)⟩⟩
  refine ⟨?_, List.nodup_nil, ?_, (fun k hk => by cases hk),
    fun _ => ⟨rfl, ⟨rfl, rfl, rfl, rfl⟩, rfl⟩⟩
  · intro k
    rw [hrole k]
    simp [view, Kernel.init]
  · intro k ρ hk
    rw [hrole k] at hk
    cases hk

/-- The disk has one request at a time, and each request was made by the thread that holds
the lock; a call that is about to return has seen its own completion; the lock was
obtained in the order of the queue, and is only free when nobody waits; and the current
thread can go on with its call, unless it asks for a sector that does not exist. -/
structure Serves (s : Kernel) : Prop where
  one_request : s.pending.length ≤ 1
  inactive : ∀ (k : ℕ) (t : Thread) (call : Call), s.threads k = some t →
    t.pc = .acquired call → s.disk.active = false
  completed : ∀ (k : ℕ) (t : Thread) (r : ℕ), s.threads k = some t →
    t.pc = .got r → r ∈ s.completed
  uncompleted : ∀ r ∈ s.pending, r ∉ s.completed
  owner : ∀ (k : ℕ) (t : Thread) (r : ℕ), s.threads k = some t →
    t.pc = .got r → s.lock.state = some k
  in_order : s.obtained <+: s.queued
  free : s.lock.state = none → s.obtained = s.queued
  aborts : ∀ pc : Pc, s.runningPc = some pc → pc.inCall = true → s.next = none →
    ∃ writing n, pc = .acquired ⟨writing, n⟩ ∧ ¬ (0 ≤ n ∧ n < NumSectors)

theorem KernelInv.acquired (h : s.KernelInv) {call : Call} (hk : s.threads k = some t)
    (hpc : t.pc = .acquired call) : s.disk.active = false := by
  have hrole : s.view.role k = some .acquired := by
    rw [view_role hk, Thread.role, hpc]
  exact (h.turn.phase hrole (fun hc => by cases hc)).2.1.active

theorem KernelInv.got (h : s.KernelInv) {r : ℕ} (hk : s.threads k = some t)
    (hpc : t.pc = .got r) : s.lock.state = some k ∧ r ∈ s.completed := by
  have hrole : s.view.role k = some (.got r) := by
    rw [view_role hk, Thread.role, hpc]
  obtain ⟨hstate, ⟨-, hcompleted⟩, -⟩ := h.turn.phase hrole (fun hc => by cases hc)
  exact ⟨hstate, hcompleted⟩

/-- Only a sector out of range stops a call. -/
theorem KernelInv.aborts (h : s.KernelInv) {pc : Pc} (hpc : s.runningPc = some pc)
    (hcall : pc.inCall = true) (hnext : s.next = none) :
    ∃ writing n, pc = .acquired ⟨writing, n⟩ ∧ ¬ (0 ≤ n ∧ n < NumSectors) := by
  obtain ⟨t, hk, -, hat⟩ := runningPc_eq_some.mp hpc
  rw [Kernel.next, hpc] at hnext
  cases pc with
  | out => cases hcall
  | away => cases hcall
  | finished => cases hcall
  | lockSleep call => cases hnext
  | acquired call =>
      obtain ⟨writing, n⟩ := call
      have hreq : s.request n = none := by
        cases writing with
        | false => exact hnext
        | true => exact hnext
      refine ⟨writing, n, rfl, ?_⟩
      intro hrange
      rw [Kernel.request, h.acquired hk hat, if_neg (by simp), if_pos hrange] at hreq
      cases hreq
  | requested r => cases hnext
  | semSleep r => cases hnext
  | got r =>
      simp only [Option.map_eq_none_iff] at hnext
      rw [Kernel.release, if_pos (h.got hk hat).1] at hnext
      rcases hqueue : s.lock.queue with _ | ⟨j, queue⟩
      · rw [hqueue] at hnext
        cases hnext
      · rw [hqueue] at hnext
        cases hnext

theorem KernelInv.serves (h : s.KernelInv) : s.Serves where
  one_request := h.turn.length_pending
  inactive := fun _ _ _ hk hpc => h.acquired hk hpc
  completed := fun _ _ _ hk hpc => (h.got hk hpc).2
  uncompleted := fun _ hr hr' => List.disjoint_of_nodup_append h.ids.nodup hr hr'
  owner := fun _ _ _ hk hpc => (h.got hk hpc).1
  in_order := h.turn.prefix_queued
  free := by
    intro hfree
    obtain ⟨hnil, -, hl⟩ := h.turn.free hfree
    have hqueued : s.queued = s.obtained ++ s.view.waiters := hl
    rw [hqueued, hnil, List.append_nil]
  aborts := fun _ hpc hcall hnext => h.aborts hpc hcall hnext

/-- **A run of the kernel is a run of the turn**, and the scheduler does not show. -/
theorem run_view (main : ℕ) :
    ∀ acts s, PartialMachine.run step (Kernel.init main) acts = some s →
      s.KernelInv ∧
        ∃ es, PartialMachine.run Turn.next (Kernel.init main).view es = some s.view := by
  refine run_invariant ⟨KernelInv.init main, [], rfl⟩ ?_
  rintro s a s' ⟨h, es, hrun⟩ hstep
  obtain ⟨e, hrefines⟩ := h.step hstep
  refine ⟨hrefines.inv, ?_⟩
  cases e with
  | none => exact ⟨es, hrun.trans hrefines.view⟩
  | some e => exact ⟨es ++ [e], run_snoc_eq_some.mpr ⟨_, hrun, hrefines.view⟩⟩

/-- **The synchronous disk serves its callers**, in every run. -/
theorem serves_run (main : ℕ) (acts : List Act) (s : Kernel)
    (hrun : PartialMachine.run step (Kernel.init main) acts = some s) : s.Serves :=
  (run_view main acts s hrun).1.serves

/-- Thread 1 queues while the main thread's request is served, and is served next. -/
def twoThreads : List Act :=
  [.fork 1, .call ⟨false, 0⟩, .next, .next, .dispatch, .call ⟨true, 1⟩, .interrupt 0,
    .dispatch, .next, .next, .yield, .next, .next, .next, .dispatch, .interrupt 1,
    .yield, .next, .next]

theorem serves_run_twoThreads :
    ∃ s, PartialMachine.run step (Kernel.init 0) twoThreads = some s ∧
      s.completed = [0, 1] ∧ s.obtained = [1] ∧ s.lock.state = none ∧ s.Serves := by
  have hend : (PartialMachine.run step (Kernel.init 0) twoThreads).map
      (fun s => decide (s.completed = [0, 1] ∧ s.obtained = [1] ∧ s.lock.state = none)) =
        some true := by decide +kernel
  obtain ⟨s, hrun, hend⟩ := Option.map_eq_some_iff.mp hend
  obtain ⟨hcompleted, hobtained, hfree⟩ := of_decide_eq_true hend
  exact ⟨s, hrun, hcompleted, hobtained, hfree, serves_run 0 twoThreads s hrun⟩

end Kernel

end OsAssignments.Filesys.SynchDisk
