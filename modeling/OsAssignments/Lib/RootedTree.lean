import Mathlib.Logic.ExistsUnique
import Mathlib.Tactic.Common

/-!
# Nodes reachable from a root

A graph is given by `child n e`, the node that edge `e` of node `n` leads to, if
there is one. Only what is reachable from the root counts: the lemmas ask nothing
of other nodes.

- `reach_insert_leaf`, `reach_remove_leaf` — one edge to a leaf more or less is
  one reachable node more or less.
- `IsTree.existsUnique_path` — where no reachable node has two incoming edges
  and the root has none, each is reached on exactly one path.
-/

namespace RootedTree

variable {N E : Type*}

inductive Reach (child : N → E → Option N) (root : N) : N → Prop
  | root : Reach child root root
  | step {n c : N} {e : E} : Reach child root n → child n e = some c →
      Reach child root c

/-- `Path l n`: the edges `l`, the last one first, lead from the root to `n`. -/
inductive Path (child : N → E → Option N) (root : N) : List E → N → Prop
  | nil : Path child root [] root
  | cons {l : List E} {n c : N} {e : E} : Path child root l n → child n e = some c →
      Path child root (e :: l) c

variable {child child' : N → E → Option N} {root : N}

theorem Path.reach {l : List E} {n : N} (h : Path child root l n) :
    Reach child root n := by
  induction h with
  | nil => exact Reach.root
  | cons _ hc ih => exact Reach.step ih hc

theorem Reach.exists_path {n : N} (h : Reach child root n) :
    ∃ l, Path child root l n := by
  induction h with
  | root => exact ⟨[], Path.nil⟩
  | step _ hc ih =>
      obtain ⟨l, hl⟩ := ih
      exact ⟨_, Path.cons hl hc⟩

/-! ## Changing the graph -/

/-- Edges that lead somewhere keep doing so: what was reachable still is. -/
theorem Reach.mono (h : ∀ n, Reach child root n → ∀ e c, child n e = some c →
      child' n e = some c) {n : N} (hn : Reach child root n) : Reach child' root n := by
  induction hn with
  | root => exact Reach.root
  | step hp hc ih => exact Reach.step ih (h _ hp _ _ hc)

theorem reach_congr (h : ∀ n, Reach child root n → ∀ e, child' n e = child n e)
    {n : N} : Reach child' root n ↔ Reach child root n := by
  constructor
  · intro hn
    induction hn with
    | root => exact Reach.root
    | step _ hc ih => exact Reach.step ih (h _ ih _ ▸ hc)
  · exact Reach.mono fun n hn e c hc => (h n hn e).trans hc

/-- **A new edge to a leaf.** -/
theorem reach_insert_leaf {p c : N} {e : E} (hp : Reach child root p)
    (hfree : child p e = none) (hnew : child' p e = some c)
    (hother : ∀ n, Reach child root n → ∀ e', ¬ (n = p ∧ e' = e) →
      child' n e' = child n e')
    (hleaf : ∀ e', child' c e' = none) {n : N} :
    Reach child' root n ↔ Reach child root n ∨ n = c := by
  constructor
  · intro hn
    induction hn with
    | root => exact Or.inl Reach.root
    | @step m d e' _ hd ih =>
        rcases ih with hm | rfl
        · by_cases hedge : m = p ∧ e' = e
          · obtain ⟨rfl, rfl⟩ := hedge
            rw [hnew] at hd
            exact Or.inr (Option.some.inj hd).symm
          · rw [hother m hm e' hedge] at hd
            exact Or.inl (Reach.step hm hd)
        · rw [hleaf] at hd
          exact absurd hd (by simp)
  · have hold : ∀ {m}, Reach child root m → Reach child' root m :=
      Reach.mono fun m hm e' d hd => by
        rw [hother m hm e', hd]
        rintro ⟨rfl, rfl⟩
        rw [hfree] at hd
        exact absurd hd (by simp)
    rintro (hn | rfl)
    · exact hold hn
    · exact Reach.step (hold hp) hnew

/-- **One edge to a leaf less.** The edge is the only one that leads there. -/
theorem reach_remove_leaf {p c : N} {e : E} (hchild : child p e = some c)
    (hnew : child' p e = none)
    (hother : ∀ n, Reach child root n → ∀ e', ¬ (n = p ∧ e' = e) →
      child' n e' = child n e')
    (hleaf : ∀ e', child c e' = none)
    (honly : ∀ n, Reach child root n → ∀ e', child n e' = some c → n = p ∧ e' = e)
    (hroot : c ≠ root) {n : N} :
    Reach child' root n ↔ Reach child root n ∧ n ≠ c := by
  constructor
  · intro hn
    induction hn with
    | root => exact ⟨Reach.root, hroot.symm⟩
    | @step m d e' _ hd ih =>
        have hedge : ¬ (m = p ∧ e' = e) := by
          rintro ⟨rfl, rfl⟩
          rw [hnew] at hd
          exact absurd hd (by simp)
        rw [hother m ih.1 e' hedge] at hd
        refine ⟨Reach.step ih.1 hd, ?_⟩
        rintro rfl
        exact hedge (honly m ih.1 e' hd)
  · rintro ⟨hn, hne⟩
    induction hn with
    | root => exact Reach.root
    | @step m d e' hm hd ih =>
        have hmc : m ≠ c := by
          rintro rfl
          rw [hleaf] at hd
          exact absurd hd (by simp)
        refine Reach.step (e := e') (ih hmc) ?_
        rw [hother m hm e', hd]
        rintro ⟨rfl, rfl⟩
        rw [hchild] at hd
        exact hne (Option.some.inj hd).symm

/-! ## Trees -/

/-- No reachable node has two incoming edges, and the root has none. -/
structure IsTree (child : N → E → Option N) (root : N) : Prop where
  root_no_parent : ∀ n, Reach child root n → ∀ e, child n e ≠ some root
  parent_unique : ∀ n n' e e' c, Reach child root n → Reach child root n' →
    child n e = some c → child n' e' = some c → n = n' ∧ e = e'

theorem IsTree.path_unique (h : IsTree child root) {l l' : List E} {n : N}
    (hl : Path child root l n) (hl' : Path child root l' n) : l = l' := by
  induction hl generalizing l' with
  | nil =>
      cases hl' with
      | nil => rfl
      | cons hm hc => exact absurd hc (h.root_no_parent _ hm.reach _)
  | cons hm hc ih =>
      cases hl' with
      | nil => exact absurd hc (h.root_no_parent _ hm.reach _)
      | cons hm' hc' =>
          obtain ⟨rfl, rfl⟩ := h.parent_unique _ _ _ _ _ hm.reach hm'.reach hc hc'
          rw [ih hm']

/-- **A tree**: each node is reached on exactly one path. -/
theorem IsTree.existsUnique_path (h : IsTree child root) {n : N}
    (hn : Reach child root n) : ∃! l, Path child root l n := by
  obtain ⟨l, hl⟩ := hn.exists_path
  exact ⟨l, hl, fun l' hl' => h.path_unique hl' hl⟩

/-- A node is not its own child. -/
theorem IsTree.child_ne (h : IsTree child root) {n c : N} {e : E}
    (hn : Reach child root n) (hc : child n e = some c) : c ≠ n := by
  rintro rfl
  obtain ⟨l, hl⟩ := hn.exists_path
  have := congrArg List.length (h.path_unique hl (Path.cons hl hc))
  simp at this

end RootedTree
