import OsAssignments.ProcessManagement.Threads

/-!
# What `Join` returns

`SysCallJoin` returns as soon as any process has exited, and returns the code of
the last one. So it returns the right code exactly when its own child has
exited by then and nobody has since exited with another code.

- `exits_once` — a process exits once, so that it has one code.
- `JoinsRight` — every `Join` that has returned did so after the process that
  it named had exited, and with that process's code.
- `joins_right_iff` — **the condition under which a run has this property**.
-/

namespace OsAssignments.ProcessManagement

open PartialMachine

namespace Sys

/-! ## §1  What an operation does to the threads -/

@[simp] theorem heap_set_self (s : Sys) (a : SpaceId) (t : Thread) :
    (s.set a t).heap a = some t := by simp [set]
@[simp] theorem currentThread_set (s : Sys) (a : SpaceId) (t : Thread) :
    (s.set a t).currentThread = s.currentThread := rfl
@[simp] theorem ENDED_set (s : Sys) (a : SpaceId) (t : Thread) :
    (s.set a t).ENDED = s.ENDED := rfl
@[simp] theorem EXIT_CODE_set (s : Sys) (a : SpaceId) (t : Thread) :
    (s.set a t).EXIT_CODE = s.EXIT_CODE := rfl
@[simp] theorem nextTid_set (s : Sys) (a : SpaceId) (t : Thread) :
    (s.set a t).nextTid = s.nextTid := rfl

@[simp] theorem awaits_join (s : Sys) (id : SpaceId) :
    s.awaits (.join id) = if id = NULL then none else s.named id := rfl
@[simp] theorem awaits_resume (s : Sys) :
    s.awaits .resume = (s.heap s.currentThread).bind fun t => t.cont.target := rfl

/-- Every thread that is left was there before, and is still finished if it
was; the globals and the counter stay. -/
structure Evolved (s s' : Sys) : Prop where
  threads : ∀ a t', s'.heap a = some t' → ∃ t, s.heap a = some t ∧
    t'.tid = t.tid ∧ (t.cont = .finished → t'.cont = .finished)
  ended : s'.ENDED = s.ENDED
  code : s'.EXIT_CODE = s.EXIT_CODE
  nextTid : s'.nextTid = s.nextTid

theorem Evolved.trans {s s' s'' : Sys} (h : Evolved s s') (h' : Evolved s' s'') :
    Evolved s s'' := by
  refine ⟨fun a t'' ht'' => ?_, h'.ended.trans h.ended, h'.code.trans h.code,
    h'.nextTid.trans h.nextTid⟩
  obtain ⟨t', ht', htid', hfin'⟩ := h'.threads a t'' ht''
  obtain ⟨t, ht, htid, hfin⟩ := h.threads a t' ht'
  exact ⟨t, ht, htid'.trans htid, hfin' ∘ hfin⟩

theorem evolved_set {s : Sys} {a : SpaceId} {t t' : Thread} (ht : s.heap a = some t)
    (htid : t'.tid = t.tid) (hfin : t.cont = .finished → t'.cont = .finished) :
    Evolved s (s.set a t') := by
  refine ⟨fun b u hu => ?_, rfl, rfl, rfl⟩
  by_cases hb : b = a
  · subst hb
    obtain rfl : t' = u := by simpa using hu
    exact ⟨t, ht, htid, hfin⟩
  · exact ⟨u, by simpa [set, hb] using hu, rfl, id⟩

/-- What the scheduler does: it deletes a thread, changes where one waits, and starts a
fresh one. -/
structure Rescheduled (s s' : Sys) : Prop where
  threads : ∀ a t', s'.heap a = some t' → ∃ t, s.heap a = some t ∧ t'.tid = t.tid ∧
    (t'.cont = t.cont ∨ t.cont = .fresh ∧ t'.cont = .starting)
  ended : s'.ENDED = s.ENDED
  code : s'.EXIT_CODE = s.EXIT_CODE
  nextTid : s'.nextTid = s.nextTid

theorem Rescheduled.refl (s : Sys) : Rescheduled s s :=
  ⟨fun _ t ht => ⟨t, ht, rfl, .inl rfl⟩, rfl, rfl, rfl⟩

theorem Rescheduled.trans {s s' s'' : Sys} (h : Rescheduled s s')
    (h' : Rescheduled s' s'') : Rescheduled s s'' := by
  refine ⟨fun a t'' ht'' => ?_, h'.ended.trans h.ended, h'.code.trans h.code,
    h'.nextTid.trans h.nextTid⟩
  obtain ⟨t', ht', htid', hcont'⟩ := h'.threads a t'' ht''
  obtain ⟨t, ht, htid, hcont⟩ := h.threads a t' ht'
  refine ⟨t, ht, htid'.trans htid, ?_⟩
  rcases hcont' with hsame' | ⟨hfresh', hstarting'⟩
  · rw [hsame']
    exact hcont
  · rcases hcont with hsame | ⟨-, hstarting⟩
    · exact .inr ⟨hsame.symm.trans hfresh', hstarting'⟩
    · rw [hstarting] at hfresh'
      cases hfresh'

theorem Rescheduled.evolved {s s' : Sys} (h : Rescheduled s s') : Evolved s s' := by
  refine ⟨fun a t' ht' => ?_, h.ended, h.code, h.nextTid⟩
  obtain ⟨t, ht, htid, hcont⟩ := h.threads a t' ht'
  refine ⟨t, ht, htid, fun hfin => ?_⟩
  rcases hcont with hsame | ⟨hfresh, -⟩
  · exact hsame.trans hfin
  · rw [hfin] at hfresh
    cases hfresh

theorem rescheduled_set {s : Sys} {a : SpaceId} {t t' : Thread} (ht : s.heap a = some t)
    (htid : t'.tid = t.tid)
    (hcont : t'.cont = t.cont ∨ t.cont = .fresh ∧ t'.cont = .starting) :
    Rescheduled s (s.set a t') := by
  refine ⟨fun b u hu => ?_, rfl, rfl, rfl⟩
  by_cases hb : b = a
  · subst hb
    obtain rfl : t' = u := by simpa using hu
    exact ⟨t, ht, htid, hcont⟩
  · exact ⟨u, by simpa [set, hb] using hu, rfl, .inl rfl⟩

theorem readyToRun_rescheduled {s s' : Sys} {a : SpaceId}
    (h : s.readyToRun a = some s') : Rescheduled s s' := by
  obtain ⟨t, ht, rfl⟩ := Option.map_eq_some_iff.mp h
  have hset : Rescheduled s (s.set a { t with status := .READY }) :=
    rescheduled_set ht rfl (.inl rfl)
  exact ⟨hset.threads, rfl, rfl, rfl⟩

theorem deleteCarcass_rescheduled {s s' : Sys} (h : s.deleteCarcass = some s') :
    Rescheduled s s' := by
  unfold deleteCarcass at h
  split at h
  · cases h
    exact Rescheduled.refl s
  · split at h
    · cases h
    · cases h
      refine ⟨fun b t ht => ?_, rfl, rfl, rfl⟩
      by_cases hb : b = s.threadToBeDestroyed
      · subst hb
        simp at ht
      · exact ⟨t, by simpa [hb] using ht, rfl, .inl rfl⟩

theorem run_rescheduled {s s' : Sys} {a : SpaceId} (h : s.run a = some s') :
    Rescheduled s s' := by
  unfold run at h
  split at h
  · cases h
  rename_i t ht
  dsimp only at h
  let s₁ : Sys := { s with currentThread := a }
  have h₁ : Rescheduled s s₁ := ⟨fun _ t ht => ⟨t, ht, rfl, .inl rfl⟩, rfl, rfl, rfl⟩
  split at h
  · rename_i hfresh
    cases h
    exact h₁.trans (rescheduled_set (s := s₁) ht rfl (.inr ⟨hfresh, rfl⟩))
  · have hrunning : Rescheduled s₁ (s₁.set a { t with status := .RUNNING }) :=
      rescheduled_set ht rfl (.inl rfl)
    exact h₁.trans (hrunning.trans (deleteCarcass_rescheduled h))

theorem runNext_rescheduled {s s' : Sys} (h : s.runNext = some s') : Rescheduled s s' := by
  unfold runNext at h
  split at h
  · cases h
  · rename_i l _
    have h₁ : Rescheduled s { s with readyList := l } :=
      ⟨fun _ t ht => ⟨t, ht, rfl, .inl rfl⟩, rfl, rfl, rfl⟩
    exact h₁.trans (run_rescheduled h)

theorem yield_rescheduled {s s' : Sys} (h : s.yield = some s') : Rescheduled s s' := by
  obtain ⟨s₁, hready, hrun⟩ := Option.bind_eq_some_iff.mp h
  exact (readyToRun_rescheduled hready).trans (runNext_rescheduled hrun)

/-- **`Finish`**: the current thread is finished. -/
theorem finish_evolved {s s' : Sys} {t : Thread} (h : s.finish = some s')
    (ht : s.heap s.currentThread = some t) :
    Evolved s s' ∧ ∃ t', s'.heap s.currentThread = some t' ∧ t'.tid = t.tid ∧
      t'.cont = .finished := by
  obtain ⟨u, hu, rfl⟩ := Option.map_eq_some_iff.mp h
  obtain rfl : u = t := Option.some.inj (hu.symm.trans ht)
  have hset : Evolved s (s.set s.currentThread
      { u with status := .BLOCKED, cont := .finished }) :=
    evolved_set hu rfl fun _ => rfl
  exact ⟨⟨hset.threads, rfl, rfl, rfl⟩,
    { u with status := .BLOCKED, cont := .finished }, by simp [set], rfl, rfl⟩

/-- **The loop of `Join`**: it returns when `ENDED` is set, and yields else. -/
theorem joinLoop_evolved {s s' : Sys} {t : Thread} (h : s.joinLoop = some s')
    (ht : s.heap s.currentThread = some t) (hc : t.cont ≠ .finished) :
    Evolved s s' := by
  simp only [joinLoop, ht, Option.bind_eq_bind, Option.bind_some] at h
  split at h
  · cases h
    exact evolved_set ht rfl fun hf => absurd hf hc
  · exact (yield_rescheduled h).evolved

/-! ## §2  One step -/

/-- What a step does: the running process exits, or creates one, or neither. -/
inductive Effect (s : Sys) (a : Act) (s' : Sys) : Prop where
  | exit (t : Thread) (code : BitVec 32) (ht : s.heap s.currentThread = some t)
      (hc : t.cont = .user)
      (hev : Evolved { s with ENDED := true, EXIT_CODE := code } s')
      (hfin : ∃ t', s'.heap s.currentThread = some t' ∧ t'.tid = t.tid ∧
        t'.cont = .finished)
      (hevent : s.event a = [.exit t.tid code]) (hawaits : s.awaits a = none)
  | exec (tmp : SpaceId)
      (hev : ∀ b t', s'.heap b = some t' → (b = tmp ∧ t'.tid = s.nextTid) ∨
        ∃ t, s.heap b = some t ∧ t'.tid = t.tid ∧
          (t.cont = .finished → t'.cont = .finished))
      (hended : s'.ENDED = s.ENDED) (hcode : s'.EXIT_CODE = s.EXIT_CODE)
      (hnext : s'.nextTid = s.nextTid + 1) (hevent : s.event a = [])
      (hawaits : s.awaits a = none)
  /-- A `Join` returns. -/
  | joined (t : Thread) (id : SpaceId) (hev : Evolved s s') (hended : s.ENDED = true)
      (hevent : s.event a = [.joined t.tid id (s.awaits a) s.EXIT_CODE])
  /-- A `Join` goes on waiting. -/
  | waits (hev : Evolved s s') (hended : s.ENDED = false) (hevent : s.event a = [])
  | other (hev : Evolved s s') (hevent : s.event a = []) (hawaits : s.awaits a = none)

theorem sysCallExit_effect {s s' : Sys} {a : Act} {code : BitVec 32} {t : Thread}
    (ht : s.heap s.currentThread = some t) (hc : t.cont = .user)
    (hevent : s.event a = [.exit t.tid code]) (hawaits : s.awaits a = none)
    (h : s.sysCallExit code = some s') : Effect s a s' := by
  obtain ⟨hev, hfin⟩ :=
    finish_evolved (s := { s with ENDED := true, EXIT_CODE := code }) h ht
  exact .exit t code ht hc hev hfin hevent hawaits

theorem step_effect {s s' : Sys} {a : Act} (h : s.step a = some s') :
    Effect s a s' := by
  cases a with
  | yield =>
      simp only [step, Option.bind_eq_bind, Option.bind_eq_some_iff] at h
      obtain ⟨t, ht, h⟩ := h
      split at h
      · exact .other (yield_rescheduled h).evolved (by simp [event, ht]) rfl
      · cases h
  | dispatch =>
      simp only [step, Option.bind_eq_bind, Option.bind_eq_some_iff] at h
      obtain ⟨t, ht, h⟩ := h
      split at h
      · exact .other (runNext_rescheduled h).evolved (by simp [event, ht]) rfl
      · cases h
  | start =>
      simp only [step, Option.bind_eq_bind, Option.bind_eq_some_iff] at h
      obtain ⟨t, ht, h⟩ := h
      split at h
      · rename_i hc
        cases h
        exact .other (evolved_set ht rfl fun hf => by rw [hc.2] at hf; cases hf)
          (by simp [event, ht]) rfl
      · cases h
  | exec tmp =>
      simp only [step, Option.ite_none_right_eq_some] at h
      obtain ⟨⟨⟨t, ht, -⟩, -, hfree⟩, h⟩ := h
      have hready := (readyToRun_rescheduled h).evolved
      refine .exec tmp (fun b t' ht' => ?_) hready.ended hready.code hready.nextTid
        (by simp [event, ht]) rfl
      obtain ⟨u, hu, htid, hfin⟩ := hready.threads b t' ht'
      by_cases hb : b = tmp
      · subst hb
        obtain rfl : (⟨s.nextTid, .JUST_CREATED, .fresh⟩ : Thread) = u := by
          simpa [set] using hu
        exact Or.inl ⟨rfl, htid⟩
      · exact Or.inr ⟨u, by simpa [set, hb] using hu, htid, hfin⟩
  | exit code =>
      simp only [step, Option.ite_none_right_eq_some] at h
      obtain ⟨⟨t, ht, -, hc⟩, h⟩ := h
      exact sysCallExit_effect ht hc (by simp [event, ht]) rfl h
  | join id =>
      simp only [step, Option.ite_none_right_eq_some] at h
      obtain ⟨⟨t, ht, -, hc⟩, h⟩ := h
      simp only [sysCallJoin, ht, Option.bind_eq_bind, Option.bind_some] at h
      split at h
      · rename_i hnull
        exact sysCallExit_effect ht hc (by simp [event, ht, hnull])
          (by simp [hnull]) h
      · rename_i hnull
        have hset : Evolved s (s.set s.currentThread
            { t with cont := .joining id (s.named id) }) :=
          evolved_set ht rfl fun hf => by rw [hc] at hf; cases hf
        have hev := hset.trans (joinLoop_evolved h (heap_set_self ..) (by simp))
        cases hended : s.ENDED with
        | true =>
            exact .joined t id hev hended (by simp [event, ht, hnull, hended])
        | false => exact .waits hev hended (by simp [event, ht, hnull, hended])
  | resume =>
      simp only [step, Option.bind_eq_bind, Option.bind_eq_some_iff] at h
      obtain ⟨t, ht, h⟩ := h
      split at h
      · rename_i id target _ hc
        have hev := joinLoop_evolved h ht (by simp [hc])
        cases hended : s.ENDED with
        | true =>
            exact .joined t id hev hended
              (by simp [event, Cont.target, ht, hc, hended])
        | false => exact .waits hev hended (by simp [event, ht, hc, hended])
      · cases h

/-! ## §3  A process exits once -/

/-- The code that some process passed to the last `Exit` of all. -/
def LastExit (log : List Event) (code : BitVec 32) : Prop :=
  ∃ c, Since (fun e => ∃ c v, e = .exit c v) (.exit c code) log

/-- **The invariant**: the globals tell of the last exit, and an exited process
is finished. -/
structure Inv (s : Sys) (log : List Event) : Prop where
  ended : s.ENDED = true ↔ ∃ code, LastExit log code
  code : ∀ code, LastExit log code → s.EXIT_CODE = code
  tid_lt : ∀ a t, s.heap a = some t → t.tid < s.nextTid
  tid_inj : ∀ a b t u, s.heap a = some t → s.heap b = some u → t.tid = u.tid → a = b
  exit_lt : ∀ c v, .exit c v ∈ log → c < s.nextTid
  exited : ∀ a t v, s.heap a = some t → .exit t.tid v ∈ log → t.cont = .finished

theorem lastExit_snoc_exit {log : List Event} {c : ℕ} {v code : BitVec 32} :
    LastExit (log ++ [.exit c v]) code ↔ code = v := by
  constructor
  · rintro ⟨d, hd⟩
    have := hd.unique (since_snoc_self _ (Event.exit c v) log) ⟨d, code, rfl⟩ ⟨c, v, rfl⟩
    cases this
    rfl
  · rintro rfl
    exact ⟨c, since_snoc_self _ _ _⟩

theorem lastExit_snoc_joined {log : List Event} {p : ℕ} {id : SpaceId}
    {target : Option ℕ} {v code : BitVec 32} :
    LastExit (log ++ [.joined p id target v]) code ↔ LastExit log code := by
  refine exists_congr fun c => ⟨fun h => (h.of_snoc (by simp)).1, fun h => h.snoc ?_⟩
  rintro ⟨d, w, heq⟩
  cases heq

/-- Steps that neither exit nor create. -/
theorem Inv.of_evolved {s s' : Sys} {log log' : List Event} (h : Inv s log)
    (hev : Evolved s s') (hlast : ∀ code, LastExit log' code ↔ LastExit log code)
    (hmem : ∀ c v, .exit c v ∈ log' → Event.exit c v ∈ log) : Inv s' log' := by
  refine ⟨?_, ?_, ?_, ?_, ?_, ?_⟩
  · simp only [hev.ended, hlast, h.ended]
  · intro code hcode
    rw [hev.code]
    exact h.code code ((hlast code).mp hcode)
  · intro a t' ht'
    obtain ⟨t, ht, htid, -⟩ := hev.threads a t' ht'
    rw [htid, hev.nextTid]
    exact h.tid_lt a t ht
  · intro a b t' u' ht' hu' heq
    obtain ⟨t, ht, htid, -⟩ := hev.threads a t' ht'
    obtain ⟨u, hu, huid, -⟩ := hev.threads b u' hu'
    exact h.tid_inj a b t u ht hu (htid.symm.trans (heq.trans huid))
  · intro c v hc
    rw [hev.nextTid]
    exact h.exit_lt c v (hmem c v hc)
  · intro a t' v ht' hc
    obtain ⟨t, ht, htid, hfin⟩ := hev.threads a t' ht'
    exact hfin (h.exited a t v ht (hmem _ v (htid ▸ hc)))

/-- **One step keeps the invariant**, and only a process that has not exited
exits. -/
theorem inv_step {s s' : Sys} {a : Act} {log : List Event} (h : Inv s log)
    (hstep : s.step a = some s') :
    Inv s' (log ++ s.event a) ∧
      ∀ c v, .exit c v ∈ s.event a → ∀ w, Event.exit c w ∉ log := by
  cases step_effect hstep with
  | exit t code ht hc hev hfin hevent hawaits =>
      have hnew : ∀ w, Event.exit t.tid w ∉ log := by
        intro w hw
        rw [h.exited _ t w ht hw] at hc
        cases hc
      rw [hevent]
      refine ⟨⟨?_, ?_, ?_, ?_, ?_, ?_⟩, ?_⟩
      · simp [hev.ended, lastExit_snoc_exit]
      · intro v hv
        rw [hev.code]
        exact (lastExit_snoc_exit.mp hv).symm
      · intro b u' hu'
        obtain ⟨u, hu, htid, -⟩ := hev.threads b u' hu'
        rw [htid, hev.nextTid]
        exact h.tid_lt b u hu
      · intro b b' u' w' hu' hw' heq
        obtain ⟨u, hu, huid, -⟩ := hev.threads b u' hu'
        obtain ⟨w, hw, hwid, -⟩ := hev.threads b' w' hw'
        exact h.tid_inj b b' u w hu hw (huid.symm.trans (heq.trans hwid))
      · intro c v hcv
        rw [hev.nextTid]
        rcases List.mem_append.mp hcv with hcv | hcv
        · exact h.exit_lt c v hcv
        · cases List.mem_singleton.mp hcv
          exact h.tid_lt _ t ht
      · intro b u' v hu' hcv
        obtain ⟨u, hu, htid, hkeep⟩ := hev.threads b u' hu'
        rcases List.mem_append.mp hcv with hcv | hcv
        · exact hkeep (h.exited b u v hu (htid ▸ hcv))
        · -- it is the thread that has just finished
          have hsame : u.tid = t.tid := by
            have heq := (Event.exit.inj (List.mem_singleton.mp hcv)).1
            exact htid.symm.trans heq
          obtain rfl := h.tid_inj b _ u t hu ht hsame
          obtain ⟨t', ht', -, hcont⟩ := hfin
          obtain rfl : t' = u' := Option.some.inj (ht'.symm.trans hu')
          exact hcont
      · intro c v hcv
        cases List.mem_singleton.mp hcv
        exact hnew
  | exec tmp hev hended hcode hnext hevent hawaits =>
      rw [hevent, List.append_nil]
      refine ⟨⟨?_, ?_, ?_, ?_, ?_, ?_⟩, by simp⟩
      · rw [hended]
        exact h.ended
      · rw [hcode]
        exact h.code
      · intro b u' hu'
        rw [hnext]
        rcases hev b u' hu' with ⟨-, htid⟩ | ⟨u, hu, htid, -⟩
        · omega
        · have := h.tid_lt b u hu
          omega
      · intro b b' u' w' hu' hw' heq
        rcases hev b u' hu' with ⟨rfl, huid⟩ | ⟨u, hu, huid, -⟩ <;>
          rcases hev b' w' hw' with ⟨rfl, hwid⟩ | ⟨w, hw, hwid, -⟩
        · rfl
        · have := h.tid_lt b' w hw
          omega
        · have := h.tid_lt b u hu
          omega
        · exact h.tid_inj b b' u w hu hw (huid.symm.trans (heq.trans hwid))
      · intro c v hcv
        have := h.exit_lt c v hcv
        omega
      · intro b u' v hu' hcv
        rcases hev b u' hu' with ⟨-, htid⟩ | ⟨u, hu, htid, hkeep⟩
        · have := h.exit_lt _ v hcv
          omega
        · exact hkeep (h.exited b u v hu (htid ▸ hcv))
  | joined t id hev hended hevent =>
      rw [hevent]
      exact ⟨h.of_evolved hev (fun _ => lastExit_snoc_joined) (by simp), by simp⟩
  | waits hev hended hevent =>
      rw [hevent, List.append_nil]
      exact ⟨h.of_evolved hev (fun _ => Iff.rfl) (fun _ _ => id), by simp⟩
  | other hev hevent hawaits =>
      rw [hevent, List.append_nil]
      exact ⟨h.of_evolved hev (fun _ => Iff.rfl) (fun _ _ => id), by simp⟩

theorem inv_init (main : SpaceId) : Inv (init main) [] := by
  have hlast : ∀ code, ¬ LastExit [] code := by
    rintro code ⟨c, hc⟩
    simpa using hc.mem
  have hheap : ∀ a t, (init main).heap a = some t → a = main ∧ t.tid = 0 := by
    intro a t ht
    by_cases ha : a = main
    · subst ha
      obtain rfl : (⟨0, .RUNNING, .starting⟩ : Thread) = t := by simpa [init] using ht
      exact ⟨rfl, rfl⟩
    · simp [init, ha] at ht
  refine ⟨?_, fun code hc => absurd hc (hlast code), ?_, ?_, by simp, by simp⟩
  · simp [init, hlast]
  · intro a t ht
    simp [(hheap a t ht).2, init]
  · intro a b t u ht hu _
    exact (hheap a t ht).1.trans (hheap b u hu).1.symm

/-- A step leaves at most one event. -/
theorem event_cases {s s' : Sys} {a : Act} (hstep : s.step a = some s') :
    s.event a = [] ∨ ∃ e, s.event a = [e] := by
  cases step_effect hstep with
  | exit t code ht hc hev hfin hevent => exact Or.inr ⟨_, hevent⟩
  | joined t id hev hended hevent => exact Or.inr ⟨_, hevent⟩
  | exec tmp hev hended hcode hnext hevent => exact Or.inl hevent
  | waits hev hended hevent => exact Or.inl hevent
  | other hev hevent => exact Or.inl hevent

/-- **A process exits at most once**: its code is one code. -/
theorem exits_once (main : SpaceId) (as : List Act) (s : Sys) (log : List Event)
    (hrun : PartialMachine.run (logged step event) (init main, []) as =
      some (s, log)) :
    LogAll (fun pre e => ∀ c v, e = .exit c v → ∀ w, Event.exit c w ∉ pre) log := by
  have hmotive : Inv s log ∧
      LogAll (fun pre e => ∀ c v, e = .exit c v → ∀ w, Event.exit c w ∉ pre) log := by
    refine run_invariant (I := fun c => Inv c.1 c.2 ∧ LogAll
      (fun pre e => ∀ c v, e = .exit c v → ∀ w, Event.exit c w ∉ pre) c.2)
      ⟨inv_init main, logAll_nil _⟩ ?_ as (s, log) hrun
    rintro ⟨s, log⟩ a ⟨s', log'⟩ ⟨h, hlog⟩ hstep
    obtain ⟨hstep, rfl⟩ := logged_eq_some.mp hstep
    obtain ⟨h', hnew⟩ := inv_step h hstep
    refine ⟨h', ?_⟩
    rcases event_cases hstep with hev | ⟨e, hev⟩
    · simpa [hev] using hlog
    · rw [hev] at hnew ⊢
      refine logAll_snoc.mpr ⟨hlog, ?_⟩
      rintro c v rfl
      exact hnew c v (List.mem_singleton.mpr rfl)
  exact hmotive.2

/-! ## §4  When `Join` returns the right code -/

/-- Every `Join` that has returned, and that named process `c`, did so after
`c` had called `Exit`, with the code that `c` passed. -/
def JoinsRight (log : List Event) : Prop :=
  LogAll (fun pre e => ∀ p id c v, e = .joined p id (some c) v → .exit c v ∈ pre) log

/-- When a `Join` that named process `c` tests `ENDED` after some process has
exited, `c` has exited too, and with the code of the last exit of all. -/
def ExitedLast (log : List Event) (s : Sys) (a : Act) : Prop :=
  ∀ c, s.awaits a = some c → ∀ code, LastExit log code → .exit c code ∈ log

theorem joinsRight_step {s s' : Sys} {a : Act} {log : List Event} (h : Inv s log)
    (hlog : JoinsRight log) (hstep : s.step a = some s') :
    JoinsRight (log ++ s.event a) ↔ ExitedLast log s a := by
  cases step_effect hstep with
  | exit t code ht hc hev hfin hevent hawaits =>
      rw [hevent]
      refine ⟨fun _ c hcw => ?_, fun _ => logAll_snoc.mpr ⟨hlog, by simp⟩⟩
      rw [hawaits] at hcw
      cases hcw
  | exec tmp hev hended hcode hnext hevent hawaits =>
      rw [hevent, List.append_nil]
      refine ⟨fun _ c hcw => ?_, fun _ => hlog⟩
      rw [hawaits] at hcw
      cases hcw
  | joined t id hev hended hevent =>
      obtain ⟨last, hlast⟩ := h.ended.mp hended
      have hcode := h.code last hlast
      rw [hevent]
      constructor
      · intro hright c hcw code hcode'
        have hone := (logAll_snoc.mp hright).2 t.tid id c s.EXIT_CODE (by rw [hcw])
        rwa [h.code code hcode'] at hone
      · intro hc
        refine logAll_snoc.mpr ⟨hlog, ?_⟩
        rintro p id' c v heq
        obtain ⟨-, -, hcw, rfl⟩ := Event.joined.inj heq
        rw [hcode]
        exact hc c hcw last hlast
  | waits hev hended hevent =>
      rw [hevent, List.append_nil]
      refine ⟨fun _ c _ code hcode => ?_, fun _ => hlog⟩
      rw [h.ended.mpr ⟨code, hcode⟩] at hended
      cases hended
  | other hev hevent hawaits =>
      rw [hevent, List.append_nil]
      refine ⟨fun _ c hcw => ?_, fun _ => hlog⟩
      rw [hawaits] at hcw
      cases hcw

/-- **When `Join` delivers the right child's code.** All along a run every `Join`
returns after the process that it named has exited, and with its code, if and
only if each time a `Join` tests `ENDED` after some process has exited, the
process that it named has exited, with the code of the last exit of all. -/
theorem joins_right_iff (main : SpaceId) (as : List Act) (s : Sys) (log : List Event)
    (hrun : PartialMachine.run (logged step event) (init main, []) as =
      some (s, log)) :
    Always (logged step event) (fun c => JoinsRight c.2) (init main, []) as ↔
      StepsMeet (logged step event) (fun c a => ExitedLast c.2 c.1 a)
        (init main, []) as := by
  have hnil : JoinsRight [] := logAll_nil _
  refine always_iff_stepsMeet (σ := Sys × List Event) (I := fun c => Inv c.1 c.2)
    (inv_init main) hnil ?_ ?_ as (s, log) hrun
  · rintro ⟨s, log⟩ a ⟨s', log'⟩ h hstep
    obtain ⟨hstep, rfl⟩ := logged_eq_some.mp hstep
    exact (inv_step h hstep).1
  · rintro ⟨s, log⟩ a ⟨s', log'⟩ h hlog hstep
    obtain ⟨hstep, rfl⟩ := logged_eq_some.mp hstep
    exact joinsRight_step h hlog hstep

/-- The main process starts two children and joins the first, which only
yields; the second exits with 7. -/
def joinFirst : List Act :=
  [.start, .exec 2, .exec 3, .join 2, .start, .yield, .start, .exit 7, .dispatch,
    .resume]

theorem joins_right_iff_joinFirst : ∃ s log,
    PartialMachine.run (logged step event) (init 1, []) joinFirst = some (s, log) ∧
    (Always (logged step event) (fun c => JoinsRight c.2) (init 1, []) joinFirst ↔
      StepsMeet (logged step event) (fun c a => ExitedLast c.2 c.1 a)
        (init 1, []) joinFirst) := by
  have hsome : (PartialMachine.run (logged step event) (init 1, [])
      joinFirst).isSome = true := by decide +kernel
  obtain ⟨⟨s, log⟩, hrun⟩ := Option.isSome_iff_exists.mp hsome
  exact ⟨s, log, hrun, joins_right_iff 1 _ s log hrun⟩

/-- **`Join` of the first child returns the second one's code**, while the first
is still running. -/
theorem join_wrong_joinFirst : ∃ s log,
    PartialMachine.run (logged step event) (init 1, []) joinFirst = some (s, log) ∧
    log = [.exit 2 7, .joined 0 2 (some 1) 7] ∧ ¬ JoinsRight log := by
  have hlog : (PartialMachine.run (logged step event) (init 1, [])
      joinFirst).map Prod.snd = some [.exit 2 7, .joined 0 2 (some 1) 7] := by
    decide +kernel
  obtain ⟨⟨s, log⟩, hrun, rfl⟩ := Option.map_eq_some_iff.mp hlog
  refine ⟨s, _, hrun, rfl, fun hright => ?_⟩
  simpa using hright [.exit 2 7] _ [] rfl 0 2 1 7 rfl

end Sys

end OsAssignments.ProcessManagement
