import Mathlib.Data.List.MinMax
import Mathlib.Data.List.Sort
import Mathlib.Tactic.Common

/-!
# Sorted queues, first come first served

A queue sorted by key in which a newcomer goes behind those with the same key, against
the plain list of who has come, in the order of arrival: the first of the queue is
the first to have come among those with the least key.

- `Sorts.insert`, `Sorts.remove` — what keeps the two in step.
-/

namespace ArrivalOrder

variable {α κ : Type*} [LinearOrder κ] {key : α → κ} {q : List (κ × α)}
  {pending : List α}

/-- The queue holds those of `pending`, the least key first, with equal keys in the
order of arrival. -/
structure Sorts (key : α → κ) (q : List (κ × α)) (pending : List α) : Prop where
  sorted : q.Pairwise (·.1 ≤ ·.1)
  current : ∀ e ∈ q, e.1 = key e.2
  fifo : ∀ k, (q.map Prod.snd).filter (key · = k) = pending.filter (key · = k)

/-- Where a newcomer goes. -/
def Before (e e' : κ × α) : Prop := e.1 < e'.1

instance : DecidableRel (Before (α := α) (κ := κ)) := fun e e' =>
  inferInstanceAs (Decidable (e.1 < e'.1))

theorem Sorts.nil (key : α → κ) : Sorts key [] [] :=
  ⟨List.Pairwise.nil, by simp, fun _ => rfl⟩

theorem Sorts.perm [DecidableEq α] (h : Sorts key q pending) : (q.map Prod.snd).Perm pending := by
  rw [List.perm_iff_count]
  intro a
  have hcount : ∀ l : List α, l.count a = (l.filter (key · = key a)).count a := by
    intro l
    rw [List.count_filter]
    simp
  rw [hcount, hcount pending, h.fifo]

theorem Sorts.congr [DecidableEq α] {key' : α → κ} (h : Sorts key q pending)
    (hkey : ∀ a ∈ pending, key' a = key a) : Sorts key' q pending := by
  have hq : ∀ a ∈ q.map Prod.snd, key' a = key a := fun a ha => hkey a (h.perm.mem_iff.mp ha)
  refine ⟨h.sorted, ?_, ?_⟩
  · intro e he
    rw [h.current e he, hq e.2 (List.mem_map_of_mem he)]
  · intro k
    have hfilter : ∀ l : List α, (∀ a ∈ l, key' a = key a) →
        l.filter (key' · = k) = l.filter (key · = k) := by
      intro l hl
      refine List.filter_congr fun a ha => ?_
      rw [hl a ha]
    rw [hfilter _ hq, hfilter _ hkey, h.fifo]

/-- A newcomer that comes before none of the first ones. -/
theorem orderedInsert_behind {β : Type*} {r : β → β → Prop} [DecidableRel r] {x : β}
    {l₁ l₂ : List β} (hle : ∀ y ∈ l₁, ¬ r x y) :
    (l₁ ++ l₂).orderedInsert r x = l₁ ++ l₂.orderedInsert r x := by
  induction l₁ with
  | nil => rfl
  | cons y l₁ ih =>
      rw [List.cons_append, List.orderedInsert_of_not_le _ _ (hle y List.mem_cons_self),
        ih fun z hz => hle z (List.mem_cons_of_mem _ hz), List.cons_append]

/-- A newcomer between the last one that it does not come before and the next. -/
theorem orderedInsert_between {β : Type*} {r : β → β → Prop} [DecidableRel r] {x y : β}
    {l₁ l₂ : List β} (hle : ∀ z ∈ l₁, ¬ r x z) (hbefore : r x y) :
    (l₁ ++ y :: l₂).orderedInsert r x = l₁ ++ x :: y :: l₂ := by
  rw [orderedInsert_behind hle, List.orderedInsert_cons_of_le (r := r) l₂ hbefore]

/-- A newcomer goes behind those with its key. -/
theorem filter_orderedInsert (hsorted : q.Pairwise (·.1 ≤ ·.1))
    (hcurrent : ∀ e ∈ q, e.1 = key e.2) (a : α) (k : κ) :
    ((q.orderedInsert Before (key a, a)).map Prod.snd).filter (key · = k) =
      (q.map Prod.snd).filter (key · = k) ++ [a].filter (key · = k) := by
  induction q with
  | nil => rfl
  | cons e q ih =>
      rw [List.pairwise_cons] at hsorted
      by_cases hlt : key a < e.1
      · have hbefore : Before (key a, a) e := hlt
        rw [List.orderedInsert_cons_of_le (r := Before) q hbefore]
        by_cases hk : key a = k
        · -- nobody else has this key
          have hnone : ((e :: q).map Prod.snd).filter (key · = k) = [] := by
            rw [List.filter_eq_nil_iff]
            intro b hb
            obtain ⟨e', he', rfl⟩ := List.mem_map.mp hb
            have hle : e.1 ≤ e'.1 := by
              rcases List.mem_cons.mp he' with rfl | hmem
              · exact le_refl _
              · exact hsorted.1 e' hmem
            rw [decide_eq_true_eq, ← hcurrent e' he', ← hk]
            exact (lt_of_lt_of_le hlt hle).ne'
          rw [List.map_cons, List.filter_cons, hnone]
          simp [hk]
        · simp [hk]
      · have hbehind : ¬ Before (key a, a) e := hlt
        have hrest := ih hsorted.2 fun e' he' => hcurrent e' (List.mem_cons_of_mem _ he')
        rw [List.orderedInsert_of_not_le (r := Before) q hbehind, List.map_cons, List.map_cons]
        by_cases hk : key e.2 = k
        · have hkeep : ∀ l, (e.2 :: l).filter (key · = k) = e.2 :: l.filter (key · = k) :=
            fun l => List.filter_cons_of_pos (by simpa using hk)
          rw [hkeep, hkeep, hrest, List.cons_append]
        · have hdrop : ∀ l, (e.2 :: l).filter (key · = k) = l.filter (key · = k) :=
            fun l => List.filter_cons_of_neg (by simpa using hk)
          rw [hdrop, hdrop, hrest]

theorem sorted_orderedInsert (hsorted : q.Pairwise (·.1 ≤ ·.1)) (e : κ × α) :
    (q.orderedInsert Before e).Pairwise (·.1 ≤ ·.1) := by
  induction q with
  | nil => exact List.pairwise_singleton _ _
  | cons e' q ih =>
      have hhead := List.pairwise_cons.mp hsorted
      by_cases hlt : e.1 < e'.1
      · have hbefore : Before e e' := hlt
        rw [List.orderedInsert_cons_of_le (r := Before) q hbefore, List.pairwise_cons]
        refine ⟨?_, hsorted⟩
        intro b hb
        rcases List.mem_cons.mp hb with rfl | hb
        · exact hlt.le
        · exact hlt.le.trans (hhead.1 b hb)
      · have hbehind : ¬ Before e e' := hlt
        rw [List.orderedInsert_of_not_le (r := Before) q hbehind, List.pairwise_cons]
        refine ⟨?_, ih hhead.2⟩
        intro b hb
        rcases List.mem_orderedInsert _ |>.mp hb with rfl | hb
        · exact le_of_not_gt hlt
        · exact hhead.1 b hb

/-- **Someone comes.** -/
theorem Sorts.insert (h : Sorts key q pending) (a : α) :
    Sorts key (q.orderedInsert Before (key a, a)) (pending ++ [a]) := by
  refine ⟨sorted_orderedInsert h.sorted _, ?_, ?_⟩
  · intro e he
    rcases List.mem_orderedInsert _ |>.mp he with rfl | he
    · rfl
    · exact h.current e he
  · intro k
    rw [filter_orderedInsert h.sorted h.current, List.filter_append, h.fifo]

/-- The first with a property comes before the others that have it. -/
theorem idxOf_le_of_filter [DecidableEq α] {p : α → Bool} {a b : α} {l rest : List α}
    (hfirst : l.filter p = a :: rest) (hb : p b = true) : l.idxOf a ≤ l.idxOf b := by
  induction l with
  | nil => simp at hfirst
  | cons x l ih =>
      rw [List.filter_cons] at hfirst
      split at hfirst
      · obtain rfl := (List.cons.inj hfirst).1
        simp
      · rename_i hx
        have hxb : x ≠ b := by
          rintro rfl
          exact hx hb
        have hxa : x ≠ a := by
          rintro rfl
          have hmem : x ∈ l.filter p := by
            rw [hfirst]
            exact List.mem_cons_self
          exact hx (List.mem_filter.mp hmem).2
        rw [List.idxOf_cons_ne _ hxb, List.idxOf_cons_ne _ hxa]
        exact Nat.succ_le_succ (ih hfirst)

/-- **The first one goes**: the first to have come among those with the least key. -/
theorem Sorts.remove [DecidableEq α] {k : κ} {a : α} (h : Sorts key ((k, a) :: q) pending) :
    pending.argmin key = some a ∧ Sorts key q (pending.erase a) := by
  have hk : k = key a := h.current _ List.mem_cons_self
  have hsorted := List.pairwise_cons.mp h.sorted
  have hfifo := h.fifo (key a)
  rw [List.map_cons, List.filter_cons, if_pos (by simp)] at hfifo
  constructor
  · rw [List.argmin_eq_some_iff]
    refine ⟨h.perm.mem_iff.mp List.mem_cons_self, ?_, ?_⟩
    · intro b hb
      obtain ⟨e, he, rfl⟩ := List.mem_map.mp (h.perm.mem_iff.mpr hb)
      rw [← h.current e he, ← hk]
      rcases List.mem_cons.mp he with rfl | he
      · exact le_refl _
      · exact hsorted.1 e he
    · intro b hb hle
      refine idxOf_le_of_filter hfifo.symm ?_
      obtain ⟨e, he, rfl⟩ := List.mem_map.mp (h.perm.mem_iff.mpr hb)
      have hle' : key a ≤ key e.2 := by
        rw [← h.current e he, ← hk]
        rcases List.mem_cons.mp he with rfl | he
        · exact le_refl _
        · exact hsorted.1 e he
      simpa using le_antisymm hle hle'
  · refine ⟨hsorted.2, fun e he => h.current e (List.mem_cons_of_mem _ he), ?_⟩
    intro k'
    rw [← List.erase_filter, ← h.fifo, List.map_cons, List.filter_cons]
    split
    · rw [List.erase_cons_head]
    · rename_i hne
      refine (List.erase_of_not_mem fun hmem => hne ?_).symm
      exact (List.mem_filter.mp hmem).2

end ArrivalOrder
