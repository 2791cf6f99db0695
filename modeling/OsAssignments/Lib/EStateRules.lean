/-!
# Computations with a state that can stop

What a sequence of two computations in `EStateM` does, read off what the first one does. A
proof about a call goes through its parts with these, and unfolds none of them.
-/

namespace EStateM

variable {ε σ α β : Type} {s t : σ} {x : EStateM ε σ α} {f : α → EStateM ε σ β}

theorem bind_of_ok {a : α} (h : x s = .ok a t) : (x >>= f) s = f a t := by
  change EStateM.bind x f s = _
  rw [EStateM.bind, h]

theorem bind_of_error {e : ε} (h : x s = .error e t) : (x >>= f) s = .error e t := by
  change EStateM.bind x f s = _
  rw [EStateM.bind, h]

theorem bind_eq_ok_iff {b : β} :
    (x >>= f) s = .ok b t ↔ ∃ a r, x s = .ok a r ∧ f a r = .ok b t := by
  cases h : x s with
  | ok a r =>
      rw [bind_of_ok h]
      constructor
      · exact fun hf => ⟨a, r, rfl, hf⟩
      · rintro ⟨_, _, heq, hf⟩
        cases heq
        exact hf
  | error e r => simp [bind_of_error h]

/-! ## Where a computation leads -/

/-- `R` relates the states before and after `x`, whenever `x` goes on. -/
def Ensures (R : σ → σ → Prop) (x : EStateM ε σ α) : Prop :=
  ∀ s a t, x s = .ok a t → R s t

variable {R R' R'' : σ → σ → Prop}

theorem ensures_throw (R : σ → σ → Prop) (e : ε) : Ensures R (throw e : EStateM ε σ α) := by
  intro s a t h
  cases h

theorem ensures_pure (hrefl : ∀ s, R s s) (a : α) : Ensures R (pure a : EStateM ε σ α) := by
  intro s b t h
  cases h
  exact hrefl s

theorem ensures_modify {g : σ → σ} (h : ∀ s, R s (g s)) :
    Ensures R (modify g : EStateM ε σ PUnit) := by
  intro s a t heq
  cases heq
  exact h s

/-- **Sequences.** -/
theorem Ensures.bind (hx : Ensures R x) (hf : ∀ a, Ensures R' (f a))
    (htrans : ∀ s t r, R s t → R' t r → R'' s r) : Ensures R'' (x >>= f) := by
  intro s b r h
  obtain ⟨a, t, hok, hrest⟩ := bind_eq_ok_iff.mp h
  exact htrans s t r (hx s a t hok) (hf a t b r hrest)

/-- Behind a `get` the state is known. -/
theorem ensures_get_bind {f : σ → EStateM ε σ β}
    (hf : ∀ s b t, f s s = .ok b t → R s t) : Ensures R (get >>= f) := by
  intro s b t h
  obtain ⟨a, r, hget, hrest⟩ := bind_eq_ok_iff.mp h
  cases hget
  exact hf s b t hrest

/-- A check that throws. -/
theorem ensures_guard {c : Prop} [Decidable c] {e : ε} {f : α → EStateM ε σ β} {a : α}
    (hf : ¬ c → Ensures R (f a)) : Ensures R (if c then throw e >>= f else f a) := by
  by_cases hc : c
  · rw [if_pos hc]
    intro s b t h
    cases h
  · rw [if_neg hc]
    exact hf hc

theorem Ensures.ite {c : Prop} [Decidable c] {x y : EStateM ε σ α} (hx : c → Ensures R x)
    (hy : ¬ c → Ensures R y) : Ensures R (if c then x else y) := by
  by_cases hc : c
  · rw [if_pos hc]
    exact hx hc
  · rw [if_neg hc]
    exact hy hc

end EStateM
