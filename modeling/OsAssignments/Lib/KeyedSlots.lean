import Mathlib.Logic.Function.Basic
import OsAssignments.Lib.PartialMachine

/-!
# Maps in a table of slots

A table has `n` slots; a slot is free or holds a key with its value. It represents a
map if the bindings of the map are what its slots hold, and no key is in two slots.

The map itself is given by its history: a list of bindings `(k, some v)` and removals
`(k, none)`, of which the last one of a key counts.

- `replay_eq_some_iff` — what the map of a history says of a key.
- `Represents.put`, `Represents.clear` — a slot is filled, or made free.
-/

namespace KeyedSlots

open PartialMachine

variable {κ ν : Type*}

/-! ## §1  Histories -/

section

variable [DecidableEq κ]

/-- The map that the changes leave, from the empty one. -/
def replay (history : List (κ × Option ν)) : κ → Option ν :=
  history.foldl (fun m change => Function.update m change.1 change.2) fun _ => none

theorem replay_snoc (history : List (κ × Option ν)) (change : κ × Option ν) :
    replay (history ++ [change]) = Function.update (replay history) change.1 change.2 := by
  rw [replay, List.foldl_append]
  rfl

/-- **A key is bound** if the last change of it bound it. -/
theorem replay_eq_some_iff {history : List (κ × Option ν)} {k : κ} {v : ν} :
    replay history k = some v ↔ Since (fun change => change.1 = k) (k, some v) history := by
  induction history using List.reverseRecOn with
  | nil => simp [replay, Since]
  | append_singleton history change ih =>
      rw [replay_snoc]
      by_cases hk : change.1 = k
      · subst hk
        rw [Function.update_self]
        constructor
        · intro hv
          rw [← hv]
          exact since_snoc_self _ change history
        · intro hsince
          have hlast := hsince.unique
            (since_snoc_self (fun c : κ × Option ν => c.1 = change.1) change history) rfl rfl
          exact (congrArg Prod.snd hlast).symm
      · rw [Function.update_of_ne (Ne.symm hk), ih]
        refine ⟨fun hsince => hsince.snoc hk, fun hsince => (hsince.of_snoc ?_).1⟩
        rintro rfl
        exact hk rfl

end

/-! ## §2  Slots -/

/-- The first `n` slots hold the bindings of `m`, each key once. -/
structure Represents (n : ℕ) (slots : ℕ → Option (κ × ν)) (m : κ → Option ν) : Prop where
  unique : ∀ i < n, ∀ j < n, ∀ k v w, slots i = some (k, v) → slots j = some (k, w) → i = j
  bound : ∀ k v, m k = some v ↔ ∃ i < n, slots i = some (k, v)

variable {n : ℕ} {slots slots' : ℕ → Option (κ × ν)} {m : κ → Option ν}

theorem represents_empty (h : ∀ i < n, slots i = none) :
    Represents n slots fun _ => none := by
  constructor
  · intro i hi j _ k v w hslot
    rw [h i hi] at hslot
    cases hslot
  · intro k v
    refine ⟨fun hnone => (by cases hnone), ?_⟩
    rintro ⟨i, hi, hslot⟩
    rw [h i hi] at hslot
    cases hslot

namespace Represents

theorem congr (h : Represents n slots m) (heq : ∀ i < n, slots' i = slots i) :
    Represents n slots' m := by
  constructor
  · intro i hi j hj k v w hslot hslot'
    exact h.unique i hi j hj k v w (heq i hi ▸ hslot) (heq j hj ▸ hslot')
  · intro k v
    rw [h.bound]
    exact exists_congr fun i => and_congr_right fun hi => by rw [heq i hi]

/-- A key is not bound if no slot has it. -/
theorem eq_none_iff (h : Represents n slots m) (k : κ) :
    m k = none ↔ ∀ i < n, ∀ v, slots i ≠ some (k, v) := by
  rw [Option.eq_none_iff_forall_ne_some]
  refine ⟨fun hnone i hi v hslot => hnone v ((h.bound k v).mpr ⟨i, hi, hslot⟩), ?_⟩
  intro hno v hv
  obtain ⟨i, hi, hslot⟩ := (h.bound k v).mp hv
  exact hno i hi v hslot

variable [DecidableEq κ]

/-- **A free slot** takes a key that is not bound. -/
theorem put (h : Represents n slots m) {i : ℕ} {k : κ} {v : ν} (hi : i < n)
    (hfree : slots i = none) (hk : m k = none) (hnew : slots' i = some (k, v))
    (hother : ∀ j ≠ i, slots' j = slots j) :
    Represents n slots' (Function.update m k (some v)) := by
  have hno := (h.eq_none_iff k).mp hk
  have hslots : ∀ j key w, slots' j = some (key, w) ↔
      (j = i ∧ key = k ∧ w = v) ∨ slots j = some (key, w) := by
    intro j key w
    by_cases hji : j = i
    · subst hji
      rw [hnew, hfree, Option.some.injEq, Prod.mk.injEq]
      simp [eq_comm]
    · simp [hother j hji, hji]
  constructor
  · intro a ha b hb key w w' hslot hslot'
    rcases (hslots a key w).mp hslot with ⟨rfl, rfl, -⟩ | hold
    · rcases (hslots b key w').mp hslot' with ⟨rfl, -, -⟩ | hold'
      · rfl
      · exact absurd hold' (hno b hb w')
    · rcases (hslots b key w').mp hslot' with ⟨rfl, rfl, -⟩ | hold'
      · exact absurd hold (hno a ha w)
      · exact h.unique a ha b hb key w w' hold hold'
  · intro key w
    simp only [hslots]
    by_cases hkey : key = k
    · subst hkey
      rw [Function.update_self, Option.some.injEq]
      constructor
      · rintro rfl
        exact ⟨i, hi, Or.inl ⟨rfl, rfl, rfl⟩⟩
      · rintro ⟨j, hj, ⟨-, -, rfl⟩ | hold⟩
        · rfl
        · exact absurd hold (hno j hj w)
    · rw [Function.update_of_ne hkey, h.bound]
      simp [hkey]

/-- **A slot is made free**, and its key is bound no more. -/
theorem clear (h : Represents n slots m) {i : ℕ} {k : κ} {v : ν} (hi : i < n)
    (hslot : slots i = some (k, v)) (hnew : slots' i = none)
    (hother : ∀ j ≠ i, slots' j = slots j) :
    Represents n slots' (Function.update m k none) := by
  have hslots : ∀ j key w, slots' j = some (key, w) ↔ j ≠ i ∧ slots j = some (key, w) := by
    intro j key w
    by_cases hji : j = i
    · subst hji
      simp [hnew]
    · simp [hother j hji, hji]
  constructor
  · intro a ha b hb key w w' hslot₁ hslot₂
    exact h.unique a ha b hb key w w' ((hslots a key w).mp hslot₁).2
      ((hslots b key w').mp hslot₂).2
  · intro key w
    simp only [hslots]
    by_cases hkey : key = k
    · subst hkey
      rw [Function.update_self]
      refine ⟨fun hnone => (by cases hnone), ?_⟩
      rintro ⟨j, hj, hji, hold⟩
      exact absurd (h.unique j hj i hi key w v hold hslot) hji
    · rw [Function.update_of_ne hkey, h.bound]
      refine exists_congr fun j => and_congr_right fun _ => ?_
      refine ⟨fun hold => ⟨?_, hold⟩, And.right⟩
      rintro rfl
      rw [hslot, Option.some.injEq, Prod.mk.injEq] at hold
      exact hkey hold.1.symm

end Represents

end KeyedSlots
