import Mathlib.Data.List.Nodup
import Mathlib.Logic.Function.Basic

/-!
# A lock that is handed over

Whoever releases the lock gives it to the first of the queue, which owns it before it
runs again; so nobody gets in between. `role` says where each thread stands: outside,
in the queue, or inside, from the moment the lock is its own.

- `Inv.unique` — there is at most one thread inside.
- `Inv.take`, `Inv.enqueue`, `Inv.leave` — the three things that change the lock.
-/

structure HandoffLock (τ : Type) where
  state : Option τ
  queue : List τ

inductive LockRole where
  | outside
  | waiting
  | inside
deriving DecidableEq, Repr

namespace HandoffLock

variable {τ : Type}

/-- The lock goes to the first of the queue; with no queue it is free. -/
def handOver (l : HandoffLock τ) : HandoffLock τ := ⟨l.queue.head?, l.queue.tail⟩

structure Inv (role : τ → LockRole) (l : HandoffLock τ) : Prop where
  waiting : ∀ k, k ∈ l.queue ↔ role k = .waiting
  nodup : l.queue.Nodup
  inside : ∀ k, role k = .inside ↔ l.state = some k
  free : l.state = none → l.queue = []

variable {role role' : τ → LockRole} {l : HandoffLock τ} {j k : τ}

/-- **Mutual exclusion.** -/
theorem Inv.unique (h : Inv role l) (hj : role j = .inside) (hk : role k = .inside) : j = k := by
  rw [h.inside] at hj hk
  exact Option.some.inj (hj.symm.trans hk)

theorem Inv.congr (h : Inv role l) (hrole : ∀ k, role' k = role k) : Inv role' l := by
  have heq : role' = role := funext hrole
  rwa [heq]

theorem Inv.not_mem_queue (h : Inv role l) (hk : l.state = some k) : k ∉ l.queue := by
  intro hmem
  have hwait := (h.waiting k).mp hmem
  rw [(h.inside k).mpr hk] at hwait
  cases hwait

/-- The lock was free. -/
theorem Inv.take (h : Inv role l) (hfree : l.state = none) (hk : role' k = .inside)
    (hrole : ∀ j, j ≠ k → role' j = role j) : Inv role' { l with state := some k } := by
  have hnone : ∀ j, role j ≠ .waiting ∧ role j ≠ .inside := by
    intro j
    rw [Ne, Ne, ← h.waiting j, h.inside j, h.free hfree, hfree]
    simp
  constructor
  · intro j
    rw [h.waiting j]
    by_cases hj : j = k
    · subst hj
      simp [hk, (hnone j).1]
    · rw [hrole j hj]
  · exact h.nodup
  · intro j
    by_cases hj : j = k
    · subst hj
      simp [hk]
    · rw [hrole j hj]
      simp [(hnone j).2, Ne.symm hj]
  · intro hc
    cases hc

/-- The lock was held. -/
theorem Inv.enqueue (h : Inv role l) (hheld : l.state ≠ none) (hout : role k = .outside)
    (hk : role' k = .waiting) (hrole : ∀ j, j ≠ k → role' j = role j) :
    Inv role' { l with queue := l.queue ++ [k] } := by
  have hmem : k ∉ l.queue := by
    rw [h.waiting k, hout]
    exact LockRole.noConfusion
  constructor
  · intro j
    rw [List.mem_append, List.mem_singleton]
    by_cases hj : j = k
    · simp [hj, hk]
    · rw [hrole j hj, h.waiting j]
      simp [hj]
  · refine List.nodup_append.mpr ⟨h.nodup, List.nodup_singleton k, ?_⟩
    rintro a ha b hb rfl
    exact hmem (List.mem_singleton.mp hb ▸ ha)
  · intro j
    by_cases hj : j = k
    · subst hj
      have hstate := (h.inside j).not.mp (by rw [hout]; exact LockRole.noConfusion)
      simp [hk, hstate]
    · rw [hrole j hj, h.inside j]
  · exact fun hc => absurd hc hheld

/-- The owner leaves, and the first of the queue, if there is one, is inside. -/
theorem Inv.leave (h : Inv role l) (hk : l.state = some k) (hout : role' k = .outside)
    (hhead : ∀ j, l.queue.head? = some j → role' j = .inside)
    (hrole : ∀ j, j ≠ k → l.queue.head? ≠ some j → role' j = role j) : Inv role' l.handOver := by
  have hnot := h.not_mem_queue hk
  have hnodup := h.nodup
  have hothers : ∀ j, j ≠ k → role j ≠ .inside := by
    intro j hj hin
    rw [h.inside j, hk] at hin
    exact hj (Option.some.inj hin).symm
  cases hq : l.queue with
  | nil =>
      rw [handOver, hq]
      have hwait := h.waiting
      rw [hq] at hwait hrole
      refine ⟨fun j => ?_, List.nodup_nil, fun j => ?_, fun _ => rfl⟩
      · by_cases hj : j = k
        · simp [hj, hout]
        · rw [hrole j hj (by simp), ← hwait j]
          rfl
      · by_cases hj : j = k
        · simp [hj, hout]
        · rw [hrole j hj (by simp)]
          simp [hothers j hj]
  | cons i queue =>
      rw [handOver, hq]
      have hwait := h.waiting
      rw [hq] at hwait hrole hhead hnodup hnot
      obtain ⟨hi, hnodup⟩ := List.nodup_cons.mp hnodup
      have hin : role' i = .inside := hhead i rfl
      refine ⟨fun j => ?_, hnodup, fun j => ?_, fun hc => by cases hc⟩
      · change j ∈ queue ↔ _
        by_cases hji : j = i
        · subst hji
          simp [hi, hin]
        · by_cases hj : j = k
          · subst hj
            have hmem : j ∉ queue := fun hmem => hnot (List.mem_cons_of_mem i hmem)
            simp [hout, hmem]
          · rw [hrole j hj (by simpa using Ne.symm hji), ← hwait j, List.mem_cons]
            simp [hji]
      · change _ ↔ some i = some j
        by_cases hji : j = i
        · simp [hji, hin]
        · by_cases hj : j = k
          · simp [hj, hout, Ne.symm (hj ▸ hji)]
          · rw [hrole j hj (by simpa using Ne.symm hji)]
            simp [hothers j hj, Ne.symm hji]

end HandoffLock
