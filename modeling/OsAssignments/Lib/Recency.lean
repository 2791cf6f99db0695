import Mathlib.Data.List.Dedup

/-!
# First in, first out, by the last arrival

A log of arrivals and the elements that are still there: in the order of their most
recent arrival, each once.

- `byRecency_snoc` — an element that was not there arrives.
- `byRecency_drop_head` — the oldest one leaves.
-/

namespace Recency

variable {α : Type*} [DecidableEq α]

/-- The elements of `log` that satisfy `here`, by their last occurrence. -/
def byRecency (log : List α) (here : α → Bool) : List α := log.dedup.filter here

theorem nodup_byRecency (log : List α) (here : α → Bool) : (byRecency log here).Nodup :=
  (List.nodup_dedup log).filter here

theorem mem_byRecency {log : List α} {here : α → Bool} {a : α} :
    a ∈ byRecency log here ↔ a ∈ log ∧ here a = true := by
  rw [byRecency, List.mem_filter, List.mem_dedup]

theorem dedup_snoc (log : List α) (a : α) :
    (log ++ [a]).dedup = log.dedup.filter (fun x => x ≠ a) ++ [a] := by
  induction log with
  | nil => rfl
  | cons b log ih =>
      rw [List.cons_append]
      by_cases hb : b ∈ log
      · rw [List.dedup_cons_of_mem (List.mem_append_left _ hb), List.dedup_cons_of_mem hb, ih]
      · by_cases hba : b = a
        · subst hba
          have hmem : b ∈ log ++ [b] := by simp
          rw [List.dedup_cons_of_mem hmem, ih, List.dedup_cons_of_notMem hb,
            List.filter_cons_of_neg (by simp)]
        · have hnot : b ∉ log ++ [a] := by simp [hb, hba]
          rw [List.dedup_cons_of_notMem hnot, ih, List.dedup_cons_of_notMem hb,
            List.filter_cons_of_pos (by simpa using hba), List.cons_append]

/-- **An arrival**: the element goes to the end. -/
theorem byRecency_snoc {log : List α} {here here' : α → Bool} {a : α} (ha : here a = false)
    (hhere : ∀ x, here' x = (here x || decide (x = a))) :
    byRecency (log ++ [a]) here' = byRecency log here ++ [a] := by
  rw [byRecency, dedup_snoc, List.filter_append, List.filter_filter, byRecency]
  congr 1
  · refine List.filter_congr fun x _ => ?_
    rw [hhere]
    by_cases hx : x = a
    · subst hx
      simp [ha]
    · simp [hx]
  · simp [hhere]

/-- **The oldest one leaves**: the rest moves up. -/
theorem byRecency_drop_head {log : List α} {here here' : α → Bool} {v : α} {rest : List α}
    (hlist : byRecency log here = v :: rest)
    (hhere : ∀ x, here' x = (here x && decide (x ≠ v))) : byRecency log here' = rest := by
  have hnodup := nodup_byRecency log here
  rw [hlist] at hnodup
  have hfilter : byRecency log here' = (byRecency log here).filter (fun x => x ≠ v) := by
    rw [byRecency, byRecency, List.filter_filter]
    exact List.filter_congr fun x _ => by rw [hhere, Bool.and_comm]
  rw [hfilter, hlist, List.filter_cons_of_neg (by simp), List.filter_eq_self]
  intro x hx
  have hne : x ≠ v := by
    rintro rfl
    exact (List.nodup_cons.mp hnodup).1 hx
  simpa using hne

theorem byRecency_congr {log : List α} {here here' : α → Bool} (h : ∀ x, here' x = here x) :
    byRecency log here' = byRecency log here := by
  rw [byRecency, byRecency, List.filter_congr fun x _ => h x]

end Recency
