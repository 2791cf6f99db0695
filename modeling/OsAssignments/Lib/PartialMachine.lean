import Mathlib.Data.List.Induction

/-!
# Partial state machines and their runs

A machine is a step function `σ → α → Option σ`: the action carries every
choice the environment makes, and `none` says the step is not enabled (or that
the program aborts in it). A run is the fold of the step over a list of
actions, so a state is reachable exactly when some list of actions reaches it.

- `run_invariant` — one preservation lemma per step gives the invariant of
  every reachable state.
- `StepsMeet` — the runs all of whose steps meet a condition on the state they
  are taken from; `run_invariant_of_stepsMeet` is the invariant rule for them,
  and `always_iff_stepsMeet` the rule for a condition that is exact;
  `run_always_iff_stepsMeet` also asks that no step of the run fails.
- `run_rel_of_stepsMeet` — two machines that take related steps, along a whole run.
- `logged` — the machine with a ghost log of events, for properties that speak
  of what happened earlier; `LogAll` says each event fits the log before it,
  `LogExtends` the same of the events of one step, `Since` that an event
  happened and none of some kind has happened since.
-/

namespace PartialMachine

variable {σ α ε : Type*}

/-! ## Runs -/

/-- The state after a list of actions, if every one of them is enabled. -/
def run (step : σ → α → Option σ) : σ → List α → Option σ
  | s, [] => some s
  | s, a :: as => (step s a).bind fun s' => run step s' as

variable {step : σ → α → Option σ}

@[simp] theorem run_nil (s : σ) : run step s [] = some s := rfl

theorem run_cons (s : σ) (a : α) (as : List α) :
    run step s (a :: as) = (step s a).bind fun s' => run step s' as := rfl

theorem run_append (s : σ) (as bs : List α) :
    run step s (as ++ bs) = (run step s as).bind fun s' => run step s' bs := by
  induction as generalizing s with
  | nil => rfl
  | cons a as ih =>
      rw [List.cons_append, run_cons, run_cons, Option.bind_assoc]
      cases h : step s a with
      | none => rfl
      | some s' => simpa using ih s'

/-- The last step of a run, taken apart. -/
theorem run_snoc_eq_some {s t : σ} {as : List α} {a : α} :
    run step s (as ++ [a]) = some t ↔
      ∃ r, run step s as = some r ∧ step r a = some t := by
  rw [run_append, Option.bind_eq_some_iff]
  simp [run_cons]

/-- **Run induction.** What holds at the start and is kept by one more step
holds after every run. The step sees the run that led to its state. -/
theorem run_induction {s₀ : σ} {motive : List α → σ → Prop}
    (nil : motive [] s₀)
    (snoc : ∀ as s a s', run step s₀ as = some s → motive as s →
      step s a = some s' → motive (as ++ [a]) s') :
    ∀ as s, run step s₀ as = some s → motive as s := by
  intro as
  induction as using List.reverseRecOn with
  | nil =>
      intro s h
      cases h
      exact nil
  | append_singleton as a ih =>
      intro s h
      obtain ⟨r, hr, hs⟩ := run_snoc_eq_some.mp h
      exact snoc as r a s hr (ih r hr) hs

/-- An invariant of the step is an invariant of the run. -/
theorem run_invariant {s₀ : σ} {I : σ → Prop} (h₀ : I s₀)
    (hstep : ∀ s a s', I s → step s a = some s' → I s') :
    ∀ as s, run step s₀ as = some s → I s :=
  run_induction h₀ fun _ s a s' _ hs h => hstep s a s' hs h

/-! ## Runs whose steps meet a condition -/

/-- Every step of the run is taken from a state that meets `C`. -/
def StepsMeet (step : σ → α → Option σ) (C : σ → α → Prop) (s₀ : σ)
    (as : List α) : Prop :=
  ∀ pre a post, as = pre ++ a :: post →
    ∀ s, run step s₀ pre = some s → C s a

theorem stepsMeet_nil (C : σ → α → Prop) (s₀ : σ) : StepsMeet step C s₀ [] := by
  intro pre a post hsplit
  simp at hsplit

theorem stepsMeet_snoc {C : σ → α → Prop} {s₀ : σ} {as : List α} {a : α} :
    StepsMeet step C s₀ (as ++ [a]) ↔
      StepsMeet step C s₀ as ∧ ∀ s, run step s₀ as = some s → C s a := by
  constructor
  · intro h
    refine ⟨?_, fun s hs => h as a [] rfl s hs⟩
    intro pre b post hsplit s hs
    exact h pre b (post ++ [a]) (by simp [hsplit]) s hs
  · rintro ⟨h, hlast⟩ pre b post hsplit s hs
    rcases List.eq_nil_or_concat post with rfl | ⟨post', c, rfl⟩
    · obtain ⟨rfl, hb⟩ := List.append_inj' hsplit rfl
      cases hb
      exact hlast s hs
    · have hsplit' : as ++ [a] = (pre ++ b :: post') ++ [c] := by
        simpa using hsplit
      obtain ⟨rfl, -⟩ := List.append_inj' hsplit' rfl
      exact h pre b post' rfl s hs

/-- Dropping the last actions keeps the condition. -/
theorem StepsMeet.of_append {C : σ → α → Prop} {s₀ : σ} {as bs : List α}
    (h : StepsMeet step C s₀ (as ++ bs)) : StepsMeet step C s₀ as := by
  intro pre a post hsplit s hs
  exact h pre a (post ++ bs) (by simp [hsplit]) s hs

theorem StepsMeet.mono {C C' : σ → α → Prop} {s₀ : σ} {as : List α}
    (h : StepsMeet step C s₀ as) (himp : ∀ s a, C s a → C' s a) : StepsMeet step C' s₀ as :=
  fun pre a post hsplit s hs => himp s a (h pre a post hsplit s hs)

/-- The invariant rule for the runs whose steps all meet `C`. -/
theorem run_invariant_of_stepsMeet {C : σ → α → Prop} {s₀ : σ} {I : σ → Prop}
    (h₀ : I s₀)
    (hstep : ∀ s a s', I s → C s a → step s a = some s' → I s') :
    ∀ as s, StepsMeet step C s₀ as → run step s₀ as = some s → I s := by
  intro as s hmeet hrun
  refine run_induction
    (motive := fun as s => StepsMeet step C s₀ as → I s)
    (fun _ => h₀) ?_ as s hrun hmeet
  intro as s a s' hs ih ha hmeet
  obtain ⟨hpre, hlast⟩ := stepsMeet_snoc.mp hmeet
  exact hstep s a s' (ih hpre) (hlast s hs) ha

theorem stepsMeet_cons {C : σ → α → Prop} {s₀ : σ} {a : α} {as : List α} :
    StepsMeet step C s₀ (a :: as) ↔
      C s₀ a ∧ ∀ s, step s₀ a = some s → StepsMeet step C s as := by
  constructor
  · intro h
    refine ⟨h [] a as rfl s₀ rfl, ?_⟩
    intro s hs pre b post hsplit t ht
    exact h (a :: pre) b post (by simp [hsplit]) t (by simp [run_cons, hs, ht])
  · rintro ⟨ha, h⟩ pre b post hsplit t ht
    cases pre with
    | nil =>
        obtain ⟨rfl, rfl⟩ := List.cons.inj hsplit
        cases ht
        exact ha
    | cons c pre =>
        obtain ⟨rfl, rfl⟩ := List.cons.inj hsplit
        obtain ⟨s, hs, hrun⟩ := Option.bind_eq_some_iff.mp (run_cons s₀ a _ ▸ ht)
        exact h s hs pre b post rfl t hrun

/-- **Two machines in step.** If from related states a step that meets `C` is enabled in
both machines or in neither, and leads to related states, then so does a run. -/
theorem run_rel_of_stepsMeet {τ : Type*} {step' : τ → α → Option τ} {C : σ → α → Prop}
    {R : σ → τ → Prop}
    (hstep : ∀ s t a, R s t → C s a → Option.Rel R (step s a) (step' t a)) :
    ∀ as s t, R s t → StepsMeet step C s as → Option.Rel R (run step s as) (run step' t as) := by
  intro as
  induction as with
  | nil => exact fun s t hR _ => .some hR
  | cons a as ih =>
      intro s t hR hmeet
      obtain ⟨ha, hrest⟩ := stepsMeet_cons.mp hmeet
      have hrel := hstep s t a hR ha
      rw [run_cons, run_cons]
      revert hrest hrel
      cases step s a with
      | none =>
          cases step' t a with
          | none => exact fun _ _ => .none
          | some t' => exact fun _ hrel => by cases hrel
      | some s' =>
          cases step' t a with
          | none => exact fun _ hrel => by cases hrel
          | some t' =>
              intro hrest hrel
              cases hrel with
              | some hR' => exact ih s' t' hR' (hrest s' rfl)

/-- Two conditions that agree wherever an invariant holds. -/
theorem stepsMeet_congr {C C' : σ → α → Prop} {s₀ : σ} {I : σ → Prop} (h₀ : I s₀)
    (hstep : ∀ s a s', I s → step s a = some s' → I s')
    (hiff : ∀ s a, I s → (C s a ↔ C' s a)) (as : List α) :
    StepsMeet step C s₀ as ↔ StepsMeet step C' s₀ as := by
  constructor
  · intro h pre a post hsplit s hs
    exact (hiff s a (run_invariant h₀ hstep pre s hs)).mp (h pre a post hsplit s hs)
  · intro h pre a post hsplit s hs
    exact (hiff s a (run_invariant h₀ hstep pre s hs)).mpr (h pre a post hsplit s hs)

/-- Of the runs whose steps meet `B`: two conditions that agree wherever the invariant
holds, which the steps that meet them keep. -/
theorem stepsMeet_iff_of_stepsMeet {B C C' : σ → α → Prop} {s₀ : σ} {I : σ → Prop}
    (h₀ : I s₀)
    (hstep : ∀ s a s', I s → B s a → C' s a → step s a = some s' → I s')
    (hiff : ∀ s a, I s → (C s a ↔ C' s a)) (as : List α) :
    StepsMeet step B s₀ as → (StepsMeet step C s₀ as ↔ StepsMeet step C' s₀ as) := by
  induction as using List.reverseRecOn with
  | nil => exact fun _ => ⟨fun _ => stepsMeet_nil C' s₀, fun _ => stepsMeet_nil C s₀⟩
  | append_singleton as a ih =>
      intro hB
      rw [stepsMeet_snoc, stepsMeet_snoc, ih hB.of_append]
      refine and_congr_right fun hC' => forall₂_congr fun s hs => hiff s a ?_
      refine run_invariant_of_stepsMeet (C := fun s a => B s a ∧ C' s a) h₀
        (fun s a s' hI hBC => hstep s a s' hI hBC.1 hBC.2) as s ?_ hs
      exact fun pre b post hsplit t ht =>
        ⟨hB.of_append pre b post hsplit t ht, hC' pre b post hsplit t ht⟩

/-- `P` holds at the start, at the end, and in between. -/
def Always (step : σ → α → Option σ) (P : σ → Prop) (s₀ : σ) (as : List α) : Prop :=
  ∀ pre post, as = pre ++ post → ∀ s, run step s₀ pre = some s → P s

theorem always_nil {P : σ → Prop} {s₀ : σ} : Always step P s₀ [] ↔ P s₀ := by
  constructor
  · exact fun h => h [] [] rfl s₀ rfl
  · rintro h pre post hsplit s hs
    obtain ⟨rfl, -⟩ := List.append_eq_nil_iff.mp hsplit.symm
    cases hs
    exact h

theorem always_snoc {P : σ → Prop} {s₀ : σ} {as : List α} {a : α} :
    Always step P s₀ (as ++ [a]) ↔
      Always step P s₀ as ∧ ∀ s, run step s₀ (as ++ [a]) = some s → P s := by
  constructor
  · intro h
    refine ⟨?_, h (as ++ [a]) [] (by simp)⟩
    intro pre post hsplit
    exact h pre (post ++ [a]) (by simp [hsplit])
  · rintro ⟨h, hlast⟩ pre post hsplit
    rcases List.eq_nil_or_concat post with rfl | ⟨post', b, rfl⟩
    · obtain rfl : as ++ [a] = pre := by simpa using hsplit
      exact hlast
    · have hsplit' : as ++ [a] = (pre ++ post') ++ [b] := by simpa using hsplit
      obtain ⟨rfl, -⟩ := List.append_inj' hsplit' rfl
      exact h pre post' rfl

theorem Always.last {P : σ → Prop} {s₀ s : σ} {as : List α}
    (h : Always step P s₀ as) (hs : run step s₀ as = some s) : P s :=
  h as [] (by simp) s hs

/-- **The exact condition.** Under an invariant `I`, a step from a `P`-state
leads to a `P`-state iff it meets `C`; then a run stays inside `P` iff all its
steps meet `C`. -/
theorem always_iff_stepsMeet {C : σ → α → Prop} {s₀ : σ} {I P : σ → Prop}
    (hI : I s₀) (hP : P s₀)
    (hstepI : ∀ s a s', I s → step s a = some s' → I s')
    (hstepP : ∀ s a s', I s → P s → step s a = some s' → (P s' ↔ C s a)) :
    ∀ as s, run step s₀ as = some s →
      (Always step P s₀ as ↔ StepsMeet step C s₀ as) := by
  refine run_induction
    ⟨fun _ => stepsMeet_nil C s₀, fun _ => always_nil.mpr hP⟩ ?_
  intro as s a s' hs ih ha
  have hrun : run step s₀ (as ++ [a]) = some s' := run_snoc_eq_some.mpr ⟨s, hs, ha⟩
  rw [always_snoc, stepsMeet_snoc, ih]
  refine and_congr_right fun hmeet => ?_
  have hiff := hstepP s a s' (run_invariant hI hstepI as s hs)
    ((ih.mpr hmeet).last hs) ha
  constructor
  · intro h t ht
    obtain rfl : s = t := Option.some.inj (hs.symm.trans ht)
    exact hiff.mp (h s' hrun)
  · intro h t ht
    obtain rfl : s' = t := Option.some.inj (hrun.symm.trans ht)
    exact hiff.mpr (h s hs)

section

variable {C : σ → α → Prop} {s₀ : σ} {I P : σ → Prop} {V : α → Prop}

/-- Where the steps that meet `C` are enabled and keep `I`, a run of such steps
goes through to its end. -/
theorem exists_run_of_stepsMeet (h₀ : I s₀)
    (hgood : ∀ s a, I s → V a → C s a → ∃ s', step s a = some s' ∧ I s') :
    ∀ as, (∀ a ∈ as, V a) → StepsMeet step C s₀ as →
      ∃ s, run step s₀ as = some s ∧ I s := by
  intro as
  induction as using List.reverseRecOn with
  | nil => exact fun _ _ => ⟨s₀, rfl, h₀⟩
  | append_singleton as a ih =>
      intro hV hmeet
      obtain ⟨hpre, hlast⟩ := stepsMeet_snoc.mp hmeet
      obtain ⟨s, hs, hI⟩ := ih (fun b hb => hV b (List.mem_append_left _ hb)) hpre
      obtain ⟨s', hs', hI'⟩ := hgood s a hI (hV a (by simp)) (hlast s hs)
      exact ⟨s', run_snoc_eq_some.mpr ⟨s, hs, hs'⟩, hI'⟩

/-- If such steps keep an invariant that gives `P`, the run also stays inside `P`. -/
theorem run_always_of_stepsMeet (h₀ : I s₀) (hP : ∀ s, I s → P s)
    (hgood : ∀ s a, I s → V a → C s a → ∃ s', step s a = some s' ∧ I s') :
    ∀ as, (∀ a ∈ as, V a) → StepsMeet step C s₀ as →
      (∃ s, run step s₀ as = some s) ∧ Always step P s₀ as := by
  intro as hV hmeet
  obtain ⟨s, hs, -⟩ := exists_run_of_stepsMeet h₀ hgood as hV hmeet
  refine ⟨⟨s, hs⟩, ?_⟩
  rintro pre post rfl t ht
  obtain ⟨r, hr, hI⟩ := exists_run_of_stepsMeet h₀ hgood pre
    (fun b hb => hV b (List.mem_append_left _ hb)) hmeet.of_append
  obtain rfl : r = t := Option.some.inj (hr.symm.trans ht)
  exact hP r hI

/-- **The exact condition, for steps that may fail.** If the steps that meet `C` are
enabled and keep an invariant that gives `P`, and the others break `P`, then a run
goes through and stays inside `P` iff all its steps meet `C`. -/
theorem run_always_iff_stepsMeet (h₀ : I s₀) (hP : ∀ s, I s → P s)
    (hgood : ∀ s a, I s → V a → C s a → ∃ s', step s a = some s' ∧ I s')
    (hbad : ∀ s a s', I s → V a → ¬ C s a → step s a = some s' → ¬ P s') :
    ∀ as, (∀ a ∈ as, V a) →
      (((∃ s, run step s₀ as = some s) ∧ Always step P s₀ as) ↔
        StepsMeet step C s₀ as) := by
  intro as hV
  constructor
  · induction as using List.reverseRecOn with
    | nil => exact fun _ => stepsMeet_nil C s₀
    | append_singleton as a ih =>
        rintro ⟨⟨s', hs'⟩, halways⟩
        obtain ⟨s, hs, ha⟩ := run_snoc_eq_some.mp hs'
        have hVpre : ∀ b ∈ as, V b := fun b hb => hV b (List.mem_append_left _ hb)
        have hpre := ih hVpre ⟨⟨s, hs⟩, (always_snoc.mp halways).1⟩
        refine stepsMeet_snoc.mpr ⟨hpre, fun t ht => ?_⟩
        obtain ⟨r, hr, hI⟩ := exists_run_of_stepsMeet h₀ hgood as hVpre hpre
        obtain rfl : s = r := Option.some.inj (hs.symm.trans hr)
        obtain rfl : s = t := Option.some.inj (hs.symm.trans ht)
        by_contra hC
        exact hbad s a s' hI (hV a (by simp)) hC ha (halways.last hs')
  · exact run_always_of_stepsMeet h₀ hP hgood as hV

end

/-- `StepsMeet`, computed. -/
def stepsMeet (step : σ → α → Option σ) (C : σ → α → Prop)
    [∀ s a, Decidable (C s a)] : σ → List α → Bool
  | _, [] => true
  | s, a :: as =>
      decide (C s a) &&
        match step s a with
        | some s' => stepsMeet step C s' as
        | none => true

theorem stepsMeet_iff {C : σ → α → Prop} [∀ s a, Decidable (C s a)] :
    ∀ (as : List α) (s₀ : σ), stepsMeet step C s₀ as = true ↔ StepsMeet step C s₀ as
  | [], s₀ => by simp [stepsMeet, stepsMeet_nil]
  | a :: as, s₀ => by
      rw [stepsMeet_cons, stepsMeet, Bool.and_eq_true, decide_eq_true_eq]
      refine and_congr_right fun _ => ?_
      cases h : step s₀ a with
      | none => simp
      | some s => simp [stepsMeet_iff as s]

/-! ## A ghost log of events -/

/-- The machine that also records the events of its steps. -/
def logged (step : σ → α → Option σ) (event : σ → α → List ε) :
    σ × List ε → α → Option (σ × List ε) :=
  fun c a => (step c.1 a).map fun s' => (s', c.2 ++ event c.1 a)

theorem logged_eq_some {event : σ → α → List ε} {c c' : σ × List ε} {a : α} :
    logged step event c a = some c' ↔
      step c.1 a = some c'.1 ∧ c'.2 = c.2 ++ event c.1 a := by
  obtain ⟨s', l'⟩ := c'
  simp only [logged, Option.map_eq_some_iff, Prod.mk.injEq]
  constructor
  · rintro ⟨t, ht, rfl, rfl⟩
    exact ⟨ht, rfl⟩
  · rintro ⟨ht, rfl⟩
    exact ⟨s', ht, rfl, rfl⟩

/-- Each event of the log stands in relation `Q` to the log before it. -/
def LogAll (Q : List ε → ε → Prop) (l : List ε) : Prop :=
  ∀ pre e post, l = pre ++ e :: post → Q pre e

theorem logAll_nil (Q : List ε → ε → Prop) : LogAll Q [] := by
  intro pre e post h
  simp at h

/-- The events of `m` fit when they come after `l`. -/
def LogExtends (Q : List ε → ε → Prop) (l m : List ε) : Prop :=
  ∀ pre e post, m = pre ++ e :: post → Q (l ++ pre) e

theorem logExtends_nil (Q : List ε → ε → Prop) (l : List ε) : LogExtends Q l [] := by
  intro pre e post h
  simp at h

theorem logExtends_cons {Q : List ε → ε → Prop} {l m : List ε} {e : ε} (he : Q l e)
    (hm : LogExtends Q (l ++ [e]) m) : LogExtends Q l (e :: m) := by
  intro pre e' post h
  cases pre with
  | nil =>
      obtain ⟨rfl, -⟩ := List.cons.inj h
      simpa using he
  | cons x pre =>
      obtain ⟨rfl, hsplit⟩ := List.cons.inj h
      simpa using hm pre e' post hsplit

theorem logAll_append {Q : List ε → ε → Prop} {l m : List ε} :
    LogAll Q (l ++ m) ↔ LogAll Q l ∧ LogExtends Q l m := by
  constructor
  · intro h
    refine ⟨fun pre e post hl => h pre e (post ++ m) (by simp [hl]), ?_⟩
    intro pre e post hm
    exact h (l ++ pre) e post (by simp [hm])
  · rintro ⟨hl, hm⟩ pre e post heq
    rcases List.append_eq_append_iff.mp heq with ⟨as, rfl, hm'⟩ | ⟨cs, rfl, hcs⟩
    · exact hm as e post hm'
    · cases cs with
      | nil => simpa using hm [] e post (by simpa using hcs.symm)
      | cons c cs =>
          obtain ⟨rfl, rfl⟩ := List.cons.inj hcs
          exact hl pre e cs rfl

theorem logAll_snoc {Q : List ε → ε → Prop} {l : List ε} {e : ε} :
    LogAll Q (l ++ [e]) ↔ LogAll Q l ∧ Q l e := by
  rw [logAll_append]
  refine and_congr_right fun _ => ⟨fun h => by simpa using h [] e [] rfl, ?_⟩
  intro h pre e' post hsplit
  obtain ⟨rfl, rfl, rfl⟩ : pre = [] ∧ e' = e ∧ post = [] := by
    cases pre with
    | nil => simpa using hsplit.symm
    | cons p ps => simp at hsplit
  simpa using h

/-- `e` happened, and nothing that `P` names has happened since. -/
def Since (P : ε → Prop) (e : ε) (l : List ε) : Prop :=
  ∃ l₁ l₂, l = l₁ ++ e :: l₂ ∧ ∀ x ∈ l₂, ¬ P x

theorem since_snoc_self (P : ε → Prop) (e : ε) (l : List ε) :
    Since P e (l ++ [e]) := ⟨l, [], rfl, by simp⟩

theorem Since.snoc {P : ε → Prop} {e x : ε} {l : List ε} (h : Since P e l)
    (hx : ¬ P x) : Since P e (l ++ [x]) := by
  obtain ⟨l₁, l₂, rfl, hl⟩ := h
  refine ⟨l₁, l₂ ++ [x], by simp, fun y hy => ?_⟩
  rcases List.mem_append.mp hy with hy | hy
  · exact hl y hy
  · rw [List.mem_singleton.mp hy]
    exact hx

theorem Since.of_snoc {P : ε → Prop} {e x : ε} {l : List ε}
    (h : Since P e (l ++ [x])) (hne : x ≠ e) : Since P e l ∧ ¬ P x := by
  obtain ⟨l₁, l₂, heq, hl⟩ := h
  rcases List.eq_nil_or_concat l₂ with rfl | ⟨l₂, y, rfl⟩
  · obtain ⟨-, hx⟩ := List.append_inj' heq rfl
    exact absurd (List.cons.inj hx).1 hne
  · have heq' : l ++ [x] = (l₁ ++ e :: l₂) ++ [y] := by simpa using heq
    obtain ⟨rfl, hx⟩ := List.append_inj' heq' rfl
    obtain rfl := (List.cons.inj hx).1
    exact ⟨⟨l₁, l₂, rfl, fun z hz => hl z (by simp [hz])⟩, hl x (by simp)⟩

theorem Since.mono {P P' : ε → Prop} {e : ε} {l : List ε} (h : Since P e l)
    (hP : ∀ x, P' x → P x) : Since P' e l := by
  obtain ⟨l₁, l₂, rfl, hl⟩ := h
  exact ⟨l₁, l₂, rfl, fun x hx hPx => hl x hx (hP x hPx)⟩

/-- The last event of a kind is one event. -/
theorem Since.unique {P : ε → Prop} {e e' : ε} {l : List ε} (h : Since P e l)
    (h' : Since P e' l) (he : P e) (he' : P e') : e = e' := by
  obtain ⟨l₁, l₂, rfl, hl⟩ := h
  obtain ⟨m₁, m₂, heq, hm⟩ := h'
  rcases List.append_eq_append_iff.mp heq with ⟨as, -, has⟩ | ⟨cs, -, hcs⟩
  · cases as with
    | nil => exact (List.cons.inj has).1
    | cons a as =>
        obtain ⟨-, rfl⟩ := List.cons.inj has
        exact absurd he' (hl e' (by simp))
  · cases cs with
    | nil => exact (List.cons.inj hcs).1.symm
    | cons c cs =>
        obtain ⟨-, rfl⟩ := List.cons.inj hcs
        exact absurd he (hm e (by simp))

theorem Since.mem {P : ε → Prop} {e : ε} {l : List ε} (h : Since P e l) :
    e ∈ l := by
  obtain ⟨l₁, l₂, rfl, -⟩ := h
  simp

end PartialMachine
