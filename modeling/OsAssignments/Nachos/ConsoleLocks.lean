import OsAssignments.Nachos.SyncConsole

/-!
# The synchronous console: the locks

A thread inside a half of the console holds the lock of that half, or sleeps in its queue;
the queue of the semaphore has at most the holder in it (`LocksInv`). Every step of a
thread, and `V`, keep this.
-/

namespace OsAssignments.SyncConsole

/-! ## §1  Roles -/

/-- The call that the thread is in. -/
def Pc.call : Pc → Option Call
  | .out => none
  | .acquiring call | .acquired call | .waiting call | .passed call => some call
  | .put car => some (.ecrirechar car)
  | .took _ => some .lirechar

def Pc.isAcquiring : Pc → Bool
  | .acquiring _ => true
  | _ => false

/-- Where the thread stands at the lock of that half. -/
def Thread.role (side : Side) (t : Thread) : LockRole :=
  if t.pc.call.map Call.side = some side then
    if t.blocked ∧ t.pc.isAcquiring then .waiting else .inside
  else .outside

namespace Kernel

/-- Who waits for a lock or a semaphore is where the queue says. -/
structure LocksInv (s : Kernel) : Prop where
  lock : ∀ side, (s.lock side).Inv fun k => (s.threads k).role side
  sleepers : ∀ side, (s.sem side).queue = [] ∨ ∃ k call, (s.sem side).queue = [k] ∧
    s.threads k = ⟨true, .waiting call⟩ ∧ call.side = side

variable {s s' : Kernel} {k j : ℕ} {t : Thread} {call : Call} {side other : Side}

/-! ## §2  The parts of a step -/

@[simp] theorem threads_setThread (s : Kernel) (k : ℕ) (t : Thread) :
    (s.setThread k t).threads = Function.update s.threads k t := rfl
@[simp] theorem lock_setThread (s : Kernel) (k : ℕ) (t : Thread) :
    (s.setThread k t).lock = s.lock := rfl
@[simp] theorem sem_setThread (s : Kernel) (k : ℕ) (t : Thread) :
    (s.setThread k t).sem = s.sem := rfl
@[simp] theorem threads_setLock (s : Kernel) (side : Side) (l : HandoffLock ℕ) :
    (s.setLock side l).threads = s.threads := rfl
@[simp] theorem lock_setLock (s : Kernel) (side : Side) (l : HandoffLock ℕ) :
    (s.setLock side l).lock = Function.update s.lock side l := rfl
@[simp] theorem sem_setLock (s : Kernel) (side : Side) (l : HandoffLock ℕ) :
    (s.setLock side l).sem = s.sem := rfl
@[simp] theorem threads_setSem (s : Kernel) (side : Side) (q : Semaphore) :
    (s.setSem side q).threads = s.threads := rfl
@[simp] theorem lock_setSem (s : Kernel) (side : Side) (q : Semaphore) :
    (s.setSem side q).lock = s.lock := rfl
@[simp] theorem sem_setSem (s : Kernel) (side : Side) (q : Semaphore) :
    (s.setSem side q).sem = Function.update s.sem side q := rfl

/-- The first of the queue, if there is one, is woken. -/
def wakeHead (s : Kernel) (queue : List ℕ) : Kernel :=
  match queue.head? with
  | none => s
  | some k => s.readyToRun k

theorem threads_wakeHead (s : Kernel) (queue : List ℕ) (k : ℕ) :
    (s.wakeHead queue).threads k =
      if queue.head? = some k then { s.threads k with blocked := false } else s.threads k := by
  unfold wakeHead
  cases queue.head? with
  | none => simp
  | some j =>
      by_cases hj : k = j
      · subst hj
        simp [readyToRun]
      · simp [readyToRun, hj, Ne.symm hj]

theorem release_eq_some : s.release k side = some s' ↔ (s.lock side).state = some k ∧
    s' = (s.wakeHead (s.lock side).queue).setLock side (s.lock side).handOver := by
  unfold release wakeHead HandoffLock.handOver
  by_cases hk : (s.lock side).state = some k
  · rw [if_pos hk]
    cases hq : (s.lock side).queue with
    | nil => simp [hk, eq_comm]
    | cons j queue => simp [hk, eq_comm]
  · rw [if_neg hk]
    simp [hk]

theorem V_eq (s : Kernel) (side : Side) : s.V side =
    (s.wakeHead (s.sem side).queue).setSem side
      ⟨(s.sem side).value + 1, (s.sem side).queue.tail⟩ := by
  unfold V wakeHead
  cases hq : (s.sem side).queue with
  | nil => simp [hq]
  | cons j queue => simp [hq]

/-! ## §3  The locks -/

theorem role_of_call (hcall : t.pc.call = some call) : t.role side =
    if call.side = side then
      if t.blocked ∧ t.pc.isAcquiring then .waiting else .inside
    else .outside := by
  simp [Thread.role, hcall]

theorem role_out (blocked : Bool) : Thread.role side ⟨blocked, .out⟩ = .outside := by
  simp [Thread.role, Pc.call]

/-- A thread that is awake inside a call holds the lock. -/
theorem role_awake (hblocked : t.blocked = false) (hcall : t.pc.call = some call) :
    t.role call.side = .inside := by
  simp [role_of_call hcall, hblocked]

theorem role_waiting (hpc : t.pc = .waiting call) : t.role call.side = .inside := by
  have hcall : t.pc.call = some call := by rw [hpc]; rfl
  simp [role_of_call hcall, hpc, Pc.isAcquiring]

theorem role_woken (t : Thread) : Thread.role side { t with blocked := false } =
    if t.role side = .waiting then .inside else t.role side := by
  unfold Thread.role
  by_cases hside : t.pc.call.map Call.side = some side
  · by_cases hwait : t.blocked ∧ t.pc.isAcquiring
    · simp [hside, hwait]
    · simp [hside, hwait]
  · simp [hside]

/-- The half that the thread is in. -/
theorem side_of_role (side : Side) (h : t.role side ≠ .outside) :
    t.pc.call.map Call.side = some side := by
  by_contra hside
  exact h (by simp [Thread.role, hside])

/-- The holder moves on: it stays inside. -/
theorem LocksInv.move (h : LocksInv s) (hlock : s'.lock = s.lock)
    (hthreads : s'.threads = Function.update s.threads k t)
    (hrole : ∀ side, t.role side = (s.threads k).role side)
    (hsleepers : ∀ side, (s'.sem side).queue = [] ∨ ∃ j call, (s'.sem side).queue = [j] ∧
      s'.threads j = ⟨true, .waiting call⟩ ∧ call.side = side) : LocksInv s' := by
  refine ⟨fun side => ?_, hsleepers⟩
  rw [hlock]
  refine (h.lock side).congr fun j => ?_
  rw [hthreads]
  by_cases hj : j = k
  · rw [hj, Function.update_self, hrole side]
  · rw [Function.update_of_ne hj]

/-- A thread that is awake is on no queue of a semaphore. -/
theorem LocksInv.queue_nil (h : LocksInv s) (hblocked : (s.threads k).blocked = false)
    (hcall : (s.threads k).pc.call = some call) : (s.sem call.side).queue = [] := by
  rcases h.sleepers call.side with hnil | ⟨j, call', -, hj, hside⟩
  · exact hnil
  · have hin : (s.threads j).role call.side = .inside := by
      rw [hj, ← hside]
      exact role_waiting rfl
    have heq := (h.lock call.side).unique hin (role_awake hblocked hcall)
    rw [heq] at hj
    rw [hj] at hblocked
    cases hblocked

/-- The sleepers stay, when a thread that is awake moves and no semaphore changes. -/
theorem LocksInv.sleepers_move (h : LocksInv s) (s' : Kernel)
    (hblocked : (s.threads k).blocked = false)
    (hsem : ∀ side, (s'.sem side).queue = (s.sem side).queue)
    (hthreads : s'.threads = Function.update s.threads k t) (side : Side) :
    (s'.sem side).queue = [] ∨ ∃ j call, (s'.sem side).queue = [j] ∧
      s'.threads j = ⟨true, .waiting call⟩ ∧ call.side = side := by
  rw [hsem side, hthreads]
  rcases h.sleepers side with hnil | ⟨j, call, hone, hj, hside⟩
  · exact Or.inl hnil
  · refine Or.inr ⟨j, call, hone, ?_, hside⟩
    have hjk : j ≠ k := by
      rintro rfl
      rw [hj] at hblocked
      cases hblocked
    rw [Function.update_of_ne hjk, hj]

/-- The holder of a lock, by its role. -/
theorem LocksInv.state_eq (h : LocksInv s) (hblocked : (s.threads k).blocked = false)
    (hcall : (s.threads k).pc.call = some call) : (s.lock call.side).state = some k :=
  ((h.lock call.side).inside k).mp (role_awake hblocked hcall)

theorem acquireSlept_eq (hstate : (s.lock call.side).state = some k) :
    s.acquireSlept k call = s.setThread k ⟨false, .acquired call⟩ := by
  have hlock : ({ s.lock call.side with state := some k } : HandoffLock ℕ) = s.lock call.side := by
    rw [← hstate]
  unfold acquireSlept setLock
  rw [hlock, Function.update_eq_self]

theorem acquire_of_free (hstate : (s.lock call.side).state = none) :
    s.acquire k call = (s.setLock call.side { s.lock call.side with state := some k }).setThread k
      ⟨false, .acquired call⟩ := by
  rw [acquire, hstate]

theorem acquire_of_held (hstate : (s.lock call.side).state = some j) :
    s.acquire k call = (s.setLock call.side { s.lock call.side with
      queue := (s.lock call.side).queue ++ [k] }).setThread k ⟨true, .acquiring call⟩ := by
  unfold acquire
  dsimp only
  split
  · rfl
  · rename_i hnone
    rw [hstate] at hnone
    cases hnone

theorem LocksInv.acquire (h : LocksInv s) (hk : s.threads k = ⟨false, .out⟩) (call : Call) :
    LocksInv (s.acquire k call) := by
  have hout (side : Side) : (s.threads k).role side = .outside := by rw [hk, role_out]
  -- a thread outside is on no queue of a semaphore
  have hsleepers (t : Thread) (side : Side) : (s.sem side).queue = [] ∨ ∃ j call',
      (s.sem side).queue = [j] ∧ Function.update s.threads k t j = ⟨true, .waiting call'⟩ ∧
        call'.side = side :=
    h.sleepers_move (s.setThread k t) (by rw [hk]) (fun _ => rfl) rfl side
  have hother {t : Thread} {side : Side} (hside : side ≠ call.side)
      (ht : t.pc.call = some call) :
      (s.lock side).Inv fun j => (Function.update s.threads k t j).role side := by
    refine (h.lock side).congr fun j => ?_
    by_cases hj : j = k
    · rw [hj, Function.update_self, hout, role_of_call ht, if_neg (Ne.symm hside)]
    · rw [Function.update_of_ne hj]
  cases hstate : (s.lock call.side).state with
  | none =>
      rw [acquire_of_free hstate]
      refine ⟨fun side => ?_, hsleepers _⟩
      by_cases hside : side = call.side
      · subst hside
        simp only [lock_setThread, lock_setLock, threads_setThread, threads_setLock,
          Function.update_self]
        refine (h.lock call.side).take hstate ?_ fun j hj => ?_
        · rw [Function.update_self]
          exact role_awake rfl rfl
        · rw [Function.update_of_ne hj]
      · simpa [hside] using hother hside (t := ⟨false, .acquired call⟩) rfl
  | some i =>
      rw [acquire_of_held hstate]
      refine ⟨fun side => ?_, hsleepers _⟩
      by_cases hside : side = call.side
      · subst hside
        simp only [lock_setThread, lock_setLock, threads_setThread, threads_setLock,
          Function.update_self]
        refine (h.lock call.side).enqueue (by rw [hstate]; simp) (hout _) ?_ fun j hj => ?_
        · rw [Function.update_self]
          simp [Thread.role, Pc.call, Pc.isAcquiring]
        · rw [Function.update_of_ne hj]
      · simpa [hside] using hother hside (t := ⟨true, .acquiring call⟩) rfl

theorem LocksInv.P (h : LocksInv s) (hblocked : (s.threads k).blocked = false)
    (hcall : (s.threads k).pc.call = some call) : LocksInv (s.P k call) := by
  have hin := role_awake hblocked hcall
  have hrole {t : Thread} (ht : t.pc.call = some call) (hacq : t.pc.isAcquiring = false)
      (side : Side) : t.role side = (s.threads k).role side := by
    rw [role_of_call ht, role_of_call hcall, hacq, hblocked]
    simp
  unfold Kernel.P
  dsimp only
  split
  · refine h.move (t := ⟨true, .waiting call⟩) rfl rfl (hrole rfl rfl) fun side => ?_
    by_cases hside : side = call.side
    · subst hside
      exact Or.inr ⟨k, call, by simp [h.queue_nil hblocked hcall], by simp, rfl⟩
    · have hsame := h.sleepers_move (s.setThread k ⟨true, .waiting call⟩) hblocked
        (fun _ => rfl) rfl side
      simpa [hside] using hsame
  · refine h.move (t := ⟨false, .passed call⟩) rfl rfl (hrole rfl rfl) fun side => ?_
    refine h.sleepers_move _ hblocked (fun side => ?_) rfl side
    by_cases hside : side = call.side
    · subst hside
      simp
    · simp [hside]

@[simp] theorem lock_wakeHead (s : Kernel) (queue : List ℕ) : (s.wakeHead queue).lock = s.lock := by
  unfold wakeHead
  split <;> rfl
@[simp] theorem sem_wakeHead (s : Kernel) (queue : List ℕ) : (s.wakeHead queue).sem = s.sem := by
  unfold wakeHead
  split <;> rfl

/-- What `Release` leaves, and the caller outside. -/
def leave (s : Kernel) (k : ℕ) (side : Side) : Kernel :=
  ((s.wakeHead (s.lock side).queue).setLock side (s.lock side).handOver).setThread k ⟨false, .out⟩

/-- The first of the queue of a lock sleeps in `Acquire`. -/
theorem LocksInv.head_role (h : LocksInv s) (hj : (s.lock side).queue.head? = some j) :
    (s.threads j).role side = .waiting :=
  ((h.lock side).waiting j).mp (List.mem_of_mem_head? hj)

theorem LocksInv.leave (h : LocksInv s) (hblocked : (s.threads k).blocked = false)
    (hcall : (s.threads k).pc.call = some call) : LocksInv (s.leave k call.side) := by
  have hstate := h.state_eq hblocked hcall
  have hthreads (j : ℕ) : (s.leave k call.side).threads j =
      if j = k then ⟨false, .out⟩
      else if (s.lock call.side).queue.head? = some j then { s.threads j with blocked := false }
      else s.threads j := by
    rw [Kernel.leave, threads_setThread]
    by_cases hj : j = k
    · rw [hj, Function.update_self, if_pos rfl]
    · rw [Function.update_of_ne hj, if_neg hj, threads_setLock, threads_wakeHead]
  have hhead {j : ℕ} (hj : (s.lock call.side).queue.head? = some j) : j ≠ k := by
    rintro rfl
    exact (h.lock call.side).not_mem_queue hstate (List.mem_of_mem_head? hj)
  constructor
  · intro side
    by_cases hside : side = call.side
    · subst hside
      have hlock : (s.leave k call.side).lock call.side = (s.lock call.side).handOver := by
        simp [Kernel.leave]
      rw [hlock]
      apply (h.lock call.side).leave hstate
      · rw [hthreads, if_pos rfl, role_out]
      · intro j hj
        rw [hthreads, if_neg (hhead hj), if_pos hj, role_woken, h.head_role hj, if_pos rfl]
      · intro j hj hne
        rw [hthreads, if_neg hj, if_neg hne]
    · have hlock : (s.leave k call.side).lock side = s.lock side := by
        simp [Kernel.leave, hside]
      rw [hlock]
      refine (h.lock side).congr fun j => ?_
      rw [hthreads]
      split
      · rename_i hj
        rw [role_out, hj, role_of_call hcall, if_neg (Ne.symm hside)]
      · split
        · rename_i hj
          -- whoever waits for this lock is outside the other
          have hwait := side_of_role call.side (t := s.threads j)
            (by rw [h.head_role hj]; exact LockRole.noConfusion)
          simp [Thread.role, hwait, Ne.symm hside]
        · rfl
  · intro side
    rcases h.sleepers side with hnil | ⟨j, call', hone, hj, hside⟩
    · exact Or.inl (by simpa [Kernel.leave] using hnil)
    · refine Or.inr ⟨j, call', by simpa [Kernel.leave] using hone, ?_, hside⟩
      rw [hthreads, if_neg, if_neg, hj]
      · intro hj'
        have hwait := h.head_role hj'
        rw [hj] at hwait
        simp [Thread.role, Pc.call, Pc.isAcquiring] at hwait
        split at hwait <;> cases hwait
      · rintro rfl
        rw [hj] at hblocked
        cases hblocked

/-- A thread that sleeps in `P`, or none. -/
theorem LocksInv.V (h : LocksInv s) (side : Side) : LocksInv (s.V side) := by
  rw [V_eq]
  have hthreads (j : ℕ) (τ : Side) : (((s.wakeHead (s.sem side).queue).setSem side
      ⟨(s.sem side).value + 1, (s.sem side).queue.tail⟩).threads j).role τ =
        (s.threads j).role τ := by
    rw [threads_setSem, threads_wakeHead]
    split
    · rename_i hj
      rcases h.sleepers side with hnil | ⟨i, call, hone, hi, hside⟩
      · rw [hnil] at hj
        cases hj
      · rw [hone] at hj
        obtain rfl := Option.some.inj hj
        rw [role_woken, hi]
        by_cases hτ : call.side = τ <;> simp [Thread.role, Pc.call, Pc.isAcquiring, hτ]
    · rfl
  refine ⟨fun τ => ?_, fun τ => ?_⟩
  · rw [lock_setSem, lock_wakeHead]
    exact (h.lock τ).congr fun j => hthreads j τ
  · by_cases hτ : τ = side
    · subst hτ
      left
      rcases h.sleepers τ with hnil | ⟨i, call, hone, -⟩
      · simp [hnil]
      · simp [hone]
    · rcases h.sleepers τ with hnil | ⟨i, call, hone, hi, hside⟩
      · exact Or.inl (by simpa [hτ] using hnil)
      · refine Or.inr ⟨i, call, by simpa [hτ] using hone, ?_, hside⟩
        rw [threads_setSem, threads_wakeHead, if_neg, hi]
        intro hj
        rcases h.sleepers side with hnil | ⟨j, call', hone', hj', hside'⟩
        · rw [hnil] at hj
          cases hj
        · rw [hone'] at hj
          obtain rfl := Option.some.inj hj
          rw [hi] at hj'
          cases hj'
          exact hτ (hside.symm.trans hside')

end Kernel

end OsAssignments.SyncConsole
