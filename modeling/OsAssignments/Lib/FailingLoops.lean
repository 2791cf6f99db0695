import Mathlib.Data.List.Induction
import Mathlib.Tactic.Common

/-!
# Loops that can fail

A loop over a list whose body may stop with an error is a fold in `Except`. What holds of
its state is a statement about the part of the list that is done.

- `foldlM_ok_induction` — an invariant that the body keeps holds at the end.
- `foldlM_isOk_iff` — the loop gets through iff the body does for every element, given
  what came before it.
-/

namespace Except

variable {ε α β : Type}

theorem bind_eq_ok_iff {x : Except ε α} {f : α → Except ε β} {b : β} :
    (x >>= f) = .ok b ↔ ∃ a, x = .ok a ∧ f a = .ok b := by
  cases x with
  | error e => simp [bind, Except.bind]
  | ok a => simp [bind, Except.bind]

end Except

namespace List

variable {ε σ α : Type} {f : σ → α → Except ε σ} {s s' : σ} {x : α} {l : List α}

/-- One more round. -/
theorem foldlM_snoc_eq_ok :
    (l ++ [x]).foldlM f s = .ok s' ↔ ∃ t, l.foldlM f s = .ok t ∧ f t x = .ok s' := by
  rw [foldlM_append, Except.bind_eq_ok_iff]
  simp only [foldlM_cons, foldlM_nil, bind_pure]

variable {Inv : List α → σ → Prop}

/-- `Inv` is about the elements that were handled and the state they led to. -/
theorem foldlM_ok_induction (hstart : Inv [] s)
    (hkeep : ∀ done x t t', done ++ [x] <+: l → Inv done t → f t x = .ok t' →
      Inv (done ++ [x]) t')
    (h : l.foldlM f s = .ok s') : Inv l s' := by
  induction l using List.reverseRecOn generalizing s' with
  | nil =>
      cases h
      exact hstart
  | append_singleton done x ih =>
      obtain ⟨t, hdone, hx⟩ := foldlM_snoc_eq_ok.mp h
      refine hkeep done x t s' (List.prefix_refl _) (ih (fun d y u u' hd => ?_) hdone) hx
      exact hkeep d y u u' (hd.trans (List.prefix_append done [x]))

/-- **When a loop gets through.** -/
theorem foldlM_isOk_iff {Accepts : List α → α → Prop} (hstart : Inv [] s)
    (hkeep : ∀ done x t t', done ++ [x] <+: l → Inv done t → f t x = .ok t' →
      Inv (done ++ [x]) t')
    (haccepts : ∀ done x t, done ++ [x] <+: l → Inv done t →
      ((∃ t', f t x = .ok t') ↔ Accepts done x)) :
    (∃ s', l.foldlM f s = .ok s') ↔ ∀ pre x post, l = pre ++ x :: post → Accepts pre x := by
  induction l using List.reverseRecOn with
  | nil => simp [pure, Except.pure]
  | append_singleton done x ih =>
      have hpre : ∀ d y, d ++ [y] <+: done → d ++ [y] <+: done ++ [x] :=
        fun d y hd => hd.trans (List.prefix_append done [x])
      have hkeep' := fun d y t t' hd => hkeep d y t t' (hpre d y hd)
      have ih := ih hkeep' fun d y t hd => haccepts d y t (hpre d y hd)
      constructor
      · rintro ⟨s', h⟩ pre y post hsplit
        obtain ⟨t, hdone, hx⟩ := foldlM_snoc_eq_ok.mp h
        rcases List.eq_nil_or_concat post with rfl | ⟨post, z, rfl⟩
        · obtain ⟨rfl, heq⟩ := List.append_inj' hsplit rfl
          cases heq
          have hinv := foldlM_ok_induction hstart hkeep' hdone
          exact (haccepts done x t (List.prefix_refl _) hinv).mp ⟨s', hx⟩
        · rw [List.concat_eq_append, ← List.cons_append, ← List.append_assoc] at hsplit
          exact ih.mp ⟨t, hdone⟩ pre y post (List.append_inj' hsplit rfl).1
      · intro h
        obtain ⟨t, hdone⟩ := ih.mpr fun pre y post hsplit =>
          h pre y (post ++ [x]) (by rw [hsplit, List.append_assoc, List.cons_append])
        have hinv := foldlM_ok_induction hstart hkeep' hdone
        obtain ⟨s', hx⟩ := (haccepts done x t (List.prefix_refl _) hinv).mpr (h done x [] rfl)
        exact ⟨s', foldlM_snoc_eq_ok.mpr ⟨t, hdone, hx⟩⟩

end List
