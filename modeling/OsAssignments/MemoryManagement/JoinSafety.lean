import OsAssignments.MemoryManagement.Cores

/-!
# `Join` never returns a wrong code

The address of a dead child can be handed out again, and the serial that
`Join` compares may be read from freed memory. What saves the result is which
entries with one id can stand in a table together: at most one is ended, and
while it stands no running child of the same parent has that address.

`JoinInv` says so. It speaks of the threads only through their `Core` (who
they are, their parent and their table), so the scheduler does not occur in
it. An existential `owner` tells which child an entry was made for.

- `inv_step` — every action keeps the invariant, with the log of events.
- `join_returns_exit_code` — **the result**, for every run.
-/

namespace OsAssignments.MemoryManagement

open PartialMachine

namespace Sys

/-! ## §1  The invariant -/

/-- The process has called `Exit` or was killed. -/
def Terminated (log : List Event) (c : ℕ) : Prop :=
  (∃ v, Event.exit c v ∈ log) ∨ Event.killed c ∈ log

/-- `c` is the child last `Exec`ed by `p` under `id`, and no `Join` of `p` on
`id` has returned since. -/
def Pending (log : List Event) (p : ℕ) (id : SpaceId) (c : ℕ) : Prop :=
  Since (fun e => (∃ c', e = .exec p c' id) ∨ ∃ v, e = .joined p id v)
    (.exec p c id) log

variable {owner : ℕ → Fin MAXENTRIES → ℕ} {cores : SpaceId → Option Core}
  {carcass : SpaceId} {nextTid : ℕ} {log : List Event}

/-- The child at address `b` has its entry: the one that `Find` returns when it
exits. -/
def HasEntry (owner : ℕ → Fin MAXENTRIES → ℕ) (log : List Event) (p : Core)
    (b : SpaceId) (c : Core) : Prop :=
  ∃ i, p.jtable.Holds i b ∧ (p.jtable i).serial = c.pid ∧
    owner p.tid i = c.tid ∧ Pending log p.tid b c.tid

/-- What one table of a live thread satisfies. -/
structure TableInv (owner : ℕ → Fin MAXENTRIES → ℕ)
    (cores : SpaceId → Option Core) (nextTid : ℕ) (log : List Event)
    (a : SpaceId) (p : Core) : Prop where
  distinct : ∀ i j id, p.jtable.Holds i id → p.jtable.Holds j id →
    (p.jtable i).serial = (p.jtable j).serial → i = j
  owner_lt : ∀ i, (p.jtable i).inUse = true → owner p.tid i < nextTid
  exited : ∀ i id, p.jtable.Holds i id → (p.jtable i).code ≠ CODENOTENDED →
    .exit (owner p.tid i) (p.jtable i).code ∈ log ∧
      Pending log p.tid id (owner p.tid i)
  /-- At most one ended entry for an id. -/
  ended_unique : ∀ i j id, p.jtable.Holds i id → p.jtable.Holds j id →
    (p.jtable i).code ≠ CODENOTENDED → (p.jtable j).code ≠ CODENOTENDED → i = j
  /-- While it stands, no running child of this parent has the address. -/
  ended_no_child : ∀ i id c, p.jtable.Holds i id →
    (p.jtable i).code ≠ CODENOTENDED → cores id = some c → c.parent = a →
    Terminated log c.tid
  /-- No child that is still to be joined has lost its entry. -/
  pending : p.done = false → ∀ id c, Pending log p.tid id c →
    ∃ i, p.jtable.Holds i id ∧ owner p.tid i = c

theorem TableInv.of_empty {a : SpaceId} {p : Core}
    (h : ∀ i, (p.jtable i).inUse = false)
    (hpend : p.done = false → ∀ id c, ¬ Pending log p.tid id c) :
    TableInv owner cores nextTid log a p := by
  have hno : ∀ i id, ¬ p.jtable.Holds i id := by
    intro i id hi
    have := h i
    rw [hi.1] at this
    exact Bool.noConfusion this
  exact ⟨fun i j id hi => absurd hi (hno i id),
    fun i hi => absurd ⟨hi, rfl⟩ (hno i _), fun i id hi => absurd hi (hno i id),
    fun i j id hi => absurd hi (hno i id), fun i id d hi => absurd hi (hno i id),
    fun hdone id c hpe => absurd hpe (hpend hdone id c)⟩

/-- **The invariant of the join protocol.** -/
structure JoinInv (owner : ℕ → Fin MAXENTRIES → ℕ)
    (cores : SpaceId → Option Core) (carcass : SpaceId) (nextTid : ℕ)
    (log : List Event) : Prop where
  null : cores NULL = none
  tid_lt : ∀ a c, cores a = some c → c.tid < nextTid
  tid_inj : ∀ a b c d, cores a = some c → cores b = some d → c.tid = d.tid → a = b
  table : ∀ a p, cores a = some p → TableInv owner cores nextTid log a p
  child : ∀ b c, cores b = some c → ¬ Terminated log c.tid → c.parent ≠ NULL →
    ∃ p, cores c.parent = some p ∧ HasEntry owner log p b c
  carcass : carcass ≠ NULL → ∃ c, cores carcass = some c ∧
    Terminated log c.tid ∧ ∀ i, (c.jtable i).inUse = false
  exec_lt : ∀ p c id, .exec p c id ∈ log → p < nextTid

/-- The invariant of a state and its log. -/
structure Inv (s : Sys) (log : List Event) : Prop where
  join : ∃ owner, JoinInv owner s.cores s.threadToBeDestroyed s.nextTid log
  alive : ∀ a c, s.cores a = some c → c.done = false → ¬ Terminated log c.tid
  term_lt : ∀ c, Terminated log c → c < s.nextTid

theorem SameJoin.inv {s s' : Sys} (h : SameJoin s s') (hi : Inv s log) :
    Inv s' log := by
  obtain ⟨⟨owner, hj⟩, ha, hlt⟩ := hi
  refine ⟨⟨owner, ?_⟩, ?_, ?_⟩
  · rw [h.cores, h.carcass, h.nextTid]
    exact hj
  · rw [h.cores]
    exact ha
  · rw [h.nextTid]
    exact hlt

/-! ## §2  The log grows -/

theorem Terminated.mono {log' : List Event} {c : ℕ} (h : Terminated log c) :
    Terminated (log ++ log') c := by
  rcases h with ⟨v, hv⟩ | hk
  · exact Or.inl ⟨v, List.mem_append_left _ hv⟩
  · exact Or.inr (List.mem_append_left _ hk)

theorem pending_snoc {p c : ℕ} {id : SpaceId} {e : Event}
    (hexec : ∀ c', e ≠ .exec p c' id) (hjoin : ∀ v, e ≠ .joined p id v) :
    Pending (log ++ [e]) p id c ↔ Pending log p id c := by
  constructor
  · exact fun h => (Since.of_snoc h (hexec c)).1
  · intro h
    refine Since.snoc h ?_
    rintro (⟨c', rfl⟩ | ⟨v, rfl⟩)
    · exact hexec c' rfl
    · exact hjoin v rfl

/-- A termination is logged: the entries stand, and fewer children count as
running. -/
theorem JoinInv.log_terminated (h : JoinInv owner cores carcass nextTid log)
    {e : Event} (he : (∃ c v, e = .exit c v) ∨ ∃ c, e = .killed c) :
    JoinInv owner cores carcass nextTid (log ++ [e]) := by
  have hexec : ∀ p c' id, e ≠ .exec p c' id := by
    rintro p c' id rfl
    rcases he with ⟨c, v, he⟩ | ⟨c, he⟩ <;> cases he
  have hjoin : ∀ p id v, e ≠ .joined p id v := by
    rintro p id v rfl
    rcases he with ⟨c, w, he⟩ | ⟨c, he⟩ <;> cases he
  have hpend : ∀ p id c, Pending (log ++ [e]) p id c ↔ Pending log p id c :=
    fun p id c => pending_snoc (fun _ => hexec _ _ _) fun _ => hjoin _ _ _
  refine ⟨h.null, h.tid_lt, h.tid_inj, fun a p hp => ?_, ?_, ?_, ?_⟩
  · have ht := h.table a p hp
    refine ⟨ht.distinct, ht.owner_lt, ?_, ht.ended_unique, ?_, ?_⟩
    · intro i id hi hcode
      obtain ⟨hexit, hpe⟩ := ht.exited i id hi hcode
      exact ⟨List.mem_append_left _ hexit, (hpend _ _ _).mpr hpe⟩
    · intro i id c hi hcode hc hparent
      exact (ht.ended_no_child i id c hi hcode hc hparent).mono
    · intro hdone id c hpe
      exact ht.pending hdone id c ((hpend _ _ _).mp hpe)
  · intro b c hc hterm hparent
    obtain ⟨p, hp, i, hi, hser, hown, hpe⟩ :=
      h.child b c hc (fun ht => hterm ht.mono) hparent
    exact ⟨p, hp, i, hi, hser, hown, (hpend _ _ _).mpr hpe⟩
  · intro hne
    obtain ⟨c, hc, hterm, huse⟩ := h.carcass hne
    exact ⟨c, hc, hterm.mono, huse⟩
  · intro p c id hmem
    rcases List.mem_append.mp hmem with hmem | hmem
    · exact h.exec_lt p c id hmem
    · exact absurd (List.mem_singleton.mp hmem).symm (hexec p c id)

/-! ## §3  What the operations do to it -/

theorem JoinInv.ne_null (h : JoinInv owner cores carcass nextTid log)
    {a : SpaceId} {p : Core} (hp : cores a = some p) : a ≠ NULL := by
  rintro rfl
  rw [h.null] at hp
  cases hp

/-- The carcass can go: nobody waits for it and it waits for nobody. -/
theorem JoinInv.delete (h : JoinInv owner cores carcass nextTid log)
    (hne : carcass ≠ NULL) :
    JoinInv owner (Function.update cores carcass none) NULL nextTid log := by
  obtain ⟨d, hd, hdterm, hduse⟩ := h.carcass hne
  have hold : ∀ {b c}, Function.update cores carcass none b = some c →
      cores b = some c := by
    intro b c hc
    rcases update_eq_some.mp hc with ⟨-, hc⟩ | ⟨-, hc⟩
    · cases hc
    · exact hc
  refine ⟨?_, fun a c hc => h.tid_lt a c (hold hc),
    fun a b c d hc hd => h.tid_inj a b c d (hold hc) (hold hd),
    fun a p hp => ?_, ?_, fun hnull => absurd rfl hnull, h.exec_lt⟩
  · rw [Function.update_of_ne (Ne.symm hne)]
    exact h.null
  · have ht := h.table a p (hold hp)
    exact { ht with
      ended_no_child := fun i id c hi hcode hc => ht.ended_no_child i id c hi hcode (hold hc) }
  · intro b c hc hterm hparent
    obtain ⟨p, hp, i, hi, hrest⟩ := h.child b c (hold hc) hterm hparent
    refine ⟨p, update_eq_some.mpr (Or.inr ⟨?_, hp⟩), i, hi, hrest⟩
    -- the table of the carcass is empty, so it is nobody's parent
    intro heq
    rw [heq, hd] at hp
    cases hp
    have := hduse i
    rw [hi.1] at this
    exact Bool.noConfusion this

theorem deleteCarcass_join {s s' : Sys} (h : s.deleteCarcass = some s')
    (hj : JoinInv owner s.cores s.threadToBeDestroyed s.nextTid log) :
    JoinInv owner s'.cores s'.threadToBeDestroyed s'.nextTid log := by
  obtain ⟨-, htid, hnull, ⟨hcar, hcores⟩ | ⟨hne, -, hcores⟩⟩ :=
    deleteCarcass_cases h
  · rw [hcores, hnull, htid, ← hcar]
    exact hj
  · rw [hcores, hnull, htid]
    exact hj.delete hne

theorem deleteCarcass_inv {s s' : Sys} (h : s.deleteCarcass = some s')
    (hi : Inv s log) : Inv s' log := by
  obtain ⟨⟨owner, hj⟩, ha, hlt⟩ := hi
  obtain ⟨-, htid, -⟩ := deleteCarcass_cases h
  exact ⟨⟨owner, deleteCarcass_join h hj⟩,
    fun a c hc => ha a c (deleteCarcass_cores h hc), htid ▸ hlt⟩

/-- **One table changes**, at address `a`, perhaps with an event of that
process in the log. What must be shown is about that table and about the
running children of that process. -/
theorem JoinInv.update_table (h : JoinInv owner cores carcass nextTid log)
    {owner' : ℕ → Fin MAXENTRIES → ℕ} {log' : List Event} {a : SpaceId}
    {p p' : Core} (hp : cores a = some p) (htid : p'.tid = p.tid)
    (hparent : p'.parent = p.parent) (hpid : p'.pid = p.pid)
    (hown : ∀ q ≠ p.tid, owner' q = owner q)
    (hsub : ∀ e ∈ log, e ∈ log')
    (hpend : ∀ q ≠ p.tid, ∀ id c, Pending log' q id c ↔ Pending log q id c)
    (hexec : ∀ q c id, .exec q c id ∈ log' → q < nextTid)
    (hcar : carcass ≠ NULL → carcass ≠ a)
    (htable : TableInv owner' cores nextTid log' a p')
    (hchild : ∀ b c, cores b = some c → ¬ Terminated log' c.tid → c.parent = a →
      HasEntry owner' log' p' b c) :
    JoinInv owner' (Function.update cores a (some p')) carcass nextTid log' := by
  have hmono : ∀ c, Terminated log c → Terminated log' c := by
    rintro c (⟨v, hv⟩ | hk)
    · exact Or.inl ⟨v, hsub _ hv⟩
    · exact Or.inr (hsub _ hk)
  have hne : ∀ {b q}, b ≠ a → cores b = some q → q.tid ≠ p.tid :=
    fun hb hq htid => hb (h.tid_inj _ _ _ _ hq hp htid)
  -- an old core with the same identity and the same parent
  have hold : ∀ {b c}, Function.update cores a (some p') b = some c →
      ∃ d, cores b = some d ∧ d.tid = c.tid ∧ d.parent = c.parent ∧ d.pid = c.pid := by
    intro b c hc
    rcases update_eq_some.mp hc with ⟨rfl, heq⟩ | ⟨-, hc⟩
    · cases heq
      exact ⟨p, hp, htid.symm, hparent.symm, hpid.symm⟩
    · exact ⟨c, hc, rfl, rfl, rfl⟩
  refine ⟨?_, ?_, ?_, ?_, ?_, ?_, hexec⟩
  · rw [Function.update_of_ne (h.ne_null hp).symm, h.null]
  · intro b c hc
    obtain ⟨d, hd, hdt, -⟩ := hold hc
    exact hdt ▸ h.tid_lt b d hd
  · intro b b' c c' hc hc' heq
    obtain ⟨d, hd, hdt, -⟩ := hold hc
    obtain ⟨d', hd', hdt', -⟩ := hold hc'
    exact h.tid_inj b b' d d' hd hd' (by rw [hdt, hdt', heq])
  · intro b q hq
    rcases update_eq_some.mp hq with ⟨rfl, heq⟩ | ⟨hb, hq⟩
    · cases heq
      exact { htable with
        ended_no_child := fun i id c hi hcode hc hpar => by
          obtain ⟨d, hd, hdt, hdp, -⟩ := hold hc
          exact hdt ▸ htable.ended_no_child i id d hi hcode hd (hdp.trans hpar) }
    · have ht := h.table b q hq
      have hqt := hne hb hq
      refine ⟨ht.distinct, ?_, ?_, ht.ended_unique, ?_, ?_⟩
      · rw [hown _ hqt]
        exact ht.owner_lt
      · intro i id hi hcode
        obtain ⟨hexit, hpe⟩ := ht.exited i id hi hcode
        rw [hown _ hqt]
        exact ⟨hsub _ hexit, (hpend _ hqt _ _).mpr hpe⟩
      · intro i id c hi hcode hc hpar
        obtain ⟨d, hd, hdt, hdp, -⟩ := hold hc
        exact hdt ▸ hmono _ (ht.ended_no_child i id d hi hcode hd (hdp.trans hpar))
      · intro hdone id c hpe
        rw [hown _ hqt]
        exact ht.pending hdone id c ((hpend _ hqt _ _).mp hpe)
  · intro b c hc hct hpar
    obtain ⟨d, hd, hdt, hdp, hdpid⟩ := hold hc
    have hentry : ∃ q, Function.update cores a (some p') c.parent = some q ∧
        HasEntry owner' log' q b d := by
      by_cases hpa : c.parent = a
      · refine ⟨p', ?_, hchild b d hd (hdt ▸ hct) (hdp.trans hpa)⟩
        rw [hpa, Function.update_self]
      · obtain ⟨q, hq, i, hi, hser, ho, hpe⟩ := h.child b d hd
          (fun ht => hct (hdt ▸ hmono _ ht)) (hdp ▸ hpar)
        rw [hdp] at hq
        have hqt := hne hpa hq
        refine ⟨q, by rw [Function.update_of_ne hpa, hq], i, hi, hser, ?_, ?_⟩
        · rw [hown _ hqt, ho]
        · exact (hpend _ hqt _ _).mpr hpe
    obtain ⟨q, hq, i, hi, hser, ho, hpe⟩ := hentry
    exact ⟨q, hq, i, hi, hser.trans hdpid, ho.trans hdt, hdt ▸ hpe⟩
  · intro hcne
    obtain ⟨c, hc, hct, huse⟩ := h.carcass hcne
    exact ⟨c, update_eq_some.mpr (Or.inr ⟨hcar hcne, hc⟩), hmono _ hct, huse⟩

/-- **`Find` returns the entry that was made for the child** that is running, and
no entry for its address is ended. -/
theorem JoinInv.find_child (h : JoinInv owner cores carcass nextTid log)
    {b : SpaceId} {c p : Core} (hc : cores b = some c)
    (halive : ¬ Terminated log c.tid) (hpar : c.parent ≠ NULL)
    (hp : cores c.parent = some p) :
    ∃ i, p.jtable.Find b c.pid = some i ∧ p.jtable.Holds i b ∧
      owner p.tid i = c.tid ∧ Pending log p.tid b c.tid ∧
      ∀ j, p.jtable.Holds j b → (p.jtable j).code = CODENOTENDED := by
  obtain ⟨q, hq, i, hhold, hser, hown, hpend⟩ := h.child b c hc halive hpar
  obtain rfl : p = q := Option.some.inj (hp.symm.trans hq)
  have htab := h.table _ _ hp
  have hopen : ∀ j, p.jtable.Holds j b → (p.jtable j).code = CODENOTENDED := by
    intro j hhj
    by_contra hcode
    exact halive (htab.ended_no_child j _ _ hhj hcode hc rfl)
  refine ⟨i, ?_, hhold, hown, hpend, hopen⟩
  refine JoinTable.find_eq_some ⟨hhold, Or.inl hser⟩ ?_
  rintro j ⟨hhj, hserj | hcode⟩
  · exact htab.distinct j i _ hhj hhold (hserj.trans hser.symm)
  · exact absurd (hopen j hhj) hcode

/-- The exit code goes into the one entry that was made for the child. -/
theorem JoinInv.setEndCode (h : JoinInv owner cores carcass nextTid log)
    {a b : SpaceId} {p c : Core} {i : Fin MAXENTRIES} {code : BitVec 32}
    (hp : cores a = some p) (hi : p.jtable.Holds i b)
    (hopen : ∀ j, p.jtable.Holds j b → (p.jtable j).code = CODENOTENDED)
    (hc : cores b = some c) (hown : owner p.tid i = c.tid)
    (hexit : .exit c.tid code ∈ log) (hpend : Pending log p.tid b c.tid) :
    JoinInv owner (Function.update cores a (some { p with
      jtable := Function.update p.jtable i { p.jtable i with code := code } }))
      carcass nextTid log := by
  have ht := h.table a p hp
  have hholds : ∀ j id, JoinTable.Holds
      (Function.update p.jtable i { p.jtable i with code := code }) j id ↔
      p.jtable.Holds j id := by
    intro j id
    by_cases hj : j = i
    · subst hj
      simp [JoinTable.Holds]
    · simp [JoinTable.Holds, hj]
  -- an ended entry of the new table is the one just written, or an old one
  have hended : ∀ j id, p.jtable.Holds j id →
      (Function.update p.jtable i { p.jtable i with code := code } j).code ≠
        CODENOTENDED →
      (j = i ∧ id = b) ∨ (j ≠ i ∧ id ≠ b ∧ (p.jtable j).code ≠ CODENOTENDED) := by
    intro j id hj hcode
    by_cases hji : j = i
    · subst hji
      exact Or.inl ⟨rfl, hj.2.symm.trans hi.2⟩
    · rw [Function.update_of_ne hji] at hcode
      refine Or.inr ⟨hji, ?_, hcode⟩
      rintro rfl
      exact hcode (hopen j hj)
  refine h.update_table hp rfl rfl rfl (fun _ _ => rfl) (fun _ he => he)
    (fun _ _ _ _ => Iff.rfl) h.exec_lt ?_ ⟨?_, ?_, ?_, ?_, ?_, ?_⟩ ?_
  · rintro hne rfl
    obtain ⟨d, hd, -, huse⟩ := h.carcass hne
    rw [hp] at hd
    cases hd
    have := huse i
    rw [hi.1] at this
    exact Bool.noConfusion this
  · intro j k id hj hk hser
    refine ht.distinct j k id ((hholds j id).mp hj) ((hholds k id).mp hk) ?_
    by_cases hji : j = i <;> by_cases hki : k = i <;> simp_all
  · intro j huse
    exact ht.owner_lt j ((hholds j _).mp ⟨huse, rfl⟩).1
  · intro j id hj hcode
    rcases hended j id ((hholds j id).mp hj) hcode with ⟨rfl, rfl⟩ | ⟨hji, -, hcode'⟩
    · simp only [Function.update_self]
      rw [hown]
      exact ⟨hexit, hpend⟩
    · simp only [Function.update_of_ne hji]
      exact ht.exited j id ((hholds j id).mp hj) hcode'
  · intro j k id hj hk hcj hck
    rcases hended j id ((hholds j id).mp hj) hcj with ⟨rfl, hid⟩ | ⟨-, hid, hcj'⟩ <;>
      rcases hended k id ((hholds k id).mp hk) hck with ⟨rfl, hid'⟩ | ⟨-, hid', hck'⟩
    · rfl
    · exact absurd hid hid'
    · exact absurd hid' hid
    · exact ht.ended_unique j k id ((hholds j id).mp hj) ((hholds k id).mp hk) hcj' hck'
  · intro j id d hj hcode hd hpar
    rcases hended j id ((hholds j id).mp hj) hcode with ⟨-, rfl⟩ | ⟨-, -, hcode'⟩
    · rw [hc] at hd
      cases hd
      exact Or.inl ⟨code, hexit⟩
    · exact ht.ended_no_child j id d ((hholds j id).mp hj) hcode' hd hpar
  · intro hdone id d hpe
    obtain ⟨j, hj, ho⟩ := ht.pending hdone id d hpe
    exact ⟨j, (hholds j id).mpr hj, ho⟩
  · rintro b' d hd hdt rfl
    have hdpar : d.parent ≠ NULL := h.ne_null hp
    obtain ⟨q, hq, j, hj, hser, ho, hpe⟩ := h.child b' d hd hdt hdpar
    rw [hp] at hq
    cases hq
    refine ⟨j, (hholds j b').mpr hj, ?_, ho, hpe⟩
    by_cases hji : j = i
    · subst hji
      simpa using hser
    · simpa [hji] using hser

/-- A `Join` returns: its entry is the last word on that id, so dropping it
leaves nothing that was pending. -/
theorem JoinInv.joined (h : JoinInv owner cores carcass nextTid log)
    {a id : SpaceId} {p : Core} {i : Fin MAXENTRIES}
    (hp : cores a = some p) (halive : ¬ Terminated log p.tid)
    (hi : p.jtable.Holds i id) (hcode : (p.jtable i).code ≠ CODENOTENDED) :
    JoinInv owner (Function.update cores a (some { p with
      jtable := Function.update p.jtable i { p.jtable i with inUse := false } }))
      carcass nextTid (log ++ [.joined p.tid id (p.jtable i).code]) := by
  have ht := h.table a p hp
  have hholds : ∀ j k, JoinTable.Holds
      (Function.update p.jtable i { p.jtable i with inUse := false }) j k →
      j ≠ i ∧ p.jtable.Holds j k := by
    intro j k hj
    by_cases hji : j = i
    · subst hji
      simp [JoinTable.Holds] at hj
    · exact ⟨hji, by simpa [JoinTable.Holds, hji] using hj⟩
  have hsnoc : ∀ q c k, (q ≠ p.tid ∨ k ≠ id) →
      (Pending (log ++ [.joined p.tid id (p.jtable i).code]) q k c ↔
        Pending log q k c) := by
    intro q c k hne
    refine pending_snoc (fun _ => by simp) fun v heq => ?_
    obtain ⟨rfl, rfl, -⟩ := Event.joined.inj heq
    tauto
  refine h.update_table hp rfl rfl rfl (fun _ _ => rfl)
    (fun e he => List.mem_append_left _ he)
    (fun q hq k c => hsnoc q c k (Or.inl hq)) (fun q c k hmem => ?_) ?_
    ⟨?_, ?_, ?_, ?_, ?_, ?_⟩ ?_
  · exact h.exec_lt q c k (by simpa using hmem)
  · rintro hne rfl
    obtain ⟨d, hd, hdt, -⟩ := h.carcass hne
    rw [hp] at hd
    cases hd
    exact halive hdt
  · intro j k id' hj hk hser
    obtain ⟨hji, hj⟩ := hholds j id' hj
    obtain ⟨hki, hk⟩ := hholds k id' hk
    exact ht.distinct j k id' hj hk (by simpa [hji, hki] using hser)
  · intro j huse
    exact ht.owner_lt j (hholds j _ ⟨huse, rfl⟩).2.1
  · intro j id' hj hcj
    obtain ⟨hji, hj⟩ := hholds j id' hj
    simp only [Function.update_of_ne hji] at hcj ⊢
    obtain ⟨hexit, hpe⟩ := ht.exited j id' hj hcj
    refine ⟨List.mem_append_left _ hexit, (hsnoc _ _ _ (Or.inr ?_)).mpr hpe⟩
    rintro rfl
    exact hji (ht.ended_unique j i id' hj hi hcj hcode)
  · intro j k id' hj hk hcj hck
    obtain ⟨hji, hj⟩ := hholds j id' hj
    obtain ⟨hki, hk⟩ := hholds k id' hk
    simp only [Function.update_of_ne hji, Function.update_of_ne hki] at hcj hck
    exact ht.ended_unique j k id' hj hk hcj hck
  · intro j id' d hj hcj hd hpar
    obtain ⟨hji, hj⟩ := hholds j id' hj
    simp only [Function.update_of_ne hji] at hcj
    exact (ht.ended_no_child j id' d hj hcj hd hpar).mono
  · intro hdone id' d hpe
    have hid : id' ≠ id := by
      rintro rfl
      exact (Since.of_snoc hpe (by simp)).2 (Or.inr ⟨_, rfl⟩)
    obtain ⟨j, hj, ho⟩ := ht.pending hdone id' d ((hsnoc _ _ _ (Or.inr hid)).mp hpe)
    have hji : j ≠ i := by
      rintro rfl
      exact hid (hj.2.symm.trans hi.2)
    exact ⟨j, by simpa [JoinTable.Holds, hji] using hj, ho⟩
  · rintro b d hd hdt rfl
    have hdt' : ¬ Terminated log d.tid := fun h => hdt h.mono
    have hdpar : d.parent ≠ NULL := h.ne_null hp
    obtain ⟨q, hq, j, hj, hser, ho, hpe⟩ := h.child b d hd hdt' hdpar
    rw [hp] at hq
    cases hq
    have hb : b ≠ id := by
      rintro rfl
      exact hdt' (ht.ended_no_child i b d hi hcode hd rfl)
    have hji : j ≠ i := by
      rintro rfl
      exact hb (hj.2.symm.trans hi.2)
    exact ⟨j, by simpa [JoinTable.Holds, hji] using hj, by simpa [hji] using hser, ho,
      (hsnoc _ _ _ (Or.inr hb)).mpr hpe⟩

theorem JoinInv.mono_nextTid (h : JoinInv owner cores carcass nextTid log) :
    JoinInv owner cores carcass (nextTid + 1) log where
  null := h.null
  tid_lt a c hc := Nat.lt_succ_of_lt (h.tid_lt a c hc)
  tid_inj := h.tid_inj
  table a p hp :=
    { h.table a p hp with
      owner_lt := fun i hi => Nat.lt_succ_of_lt ((h.table a p hp).owner_lt i hi) }
  child := h.child
  carcass := h.carcass
  exec_lt p c id hmem := Nat.lt_succ_of_lt (h.exec_lt p c id hmem)

/-- A new thread appears, with an empty table and an entry in its parent's, if it
has a parent. -/
theorem JoinInv.add (h : JoinInv owner cores carcass nextTid log) {b : SpaceId}
    {c : Core} (hb : cores b = none) (hbnull : b ≠ NULL) (hlt : c.tid < nextTid)
    (hfresh : ∀ a d, cores a = some d → d.tid ≠ c.tid)
    (hempty : ∀ i, (c.jtable i).inUse = false)
    (hnopend : ∀ id d, ¬ Pending log c.tid id d)
    (hparent : c.parent ≠ NULL → ∃ p, cores c.parent = some p ∧
      HasEntry owner log p b c ∧
      ∀ i, p.jtable.Holds i b → (p.jtable i).code = CODENOTENDED) :
    JoinInv owner (Function.update cores b (some c)) carcass nextTid log := by
  have hkeep : ∀ {a q}, cores a = some q →
      Function.update cores b (some c) a = some q := by
    intro a q hq
    refine update_eq_some.mpr (Or.inr ⟨?_, hq⟩)
    rintro rfl
    rw [hb] at hq
    cases hq
  refine ⟨?_, ?_, ?_, ?_, ?_, ?_, h.exec_lt⟩
  · rw [Function.update_of_ne hbnull.symm, h.null]
  · intro a d hd
    rcases update_eq_some.mp hd with ⟨-, heq⟩ | ⟨-, hd⟩
    · cases heq
      exact hlt
    · exact h.tid_lt a d hd
  · intro a a' d d' hd hd' heq
    rcases update_eq_some.mp hd with ⟨ha, heq₁⟩ | ⟨-, hold⟩ <;>
      rcases update_eq_some.mp hd' with ⟨ha', heq₂⟩ | ⟨-, hold'⟩
    · exact ha.trans ha'.symm
    · cases heq₁
      exact absurd heq.symm (hfresh a' d' hold')
    · cases heq₂
      exact absurd heq (hfresh a d hold)
    · exact h.tid_inj a a' d d' hold hold' heq
  · intro a q hq
    rcases update_eq_some.mp hq with ⟨-, heq⟩ | ⟨-, hqold⟩
    · cases heq
      exact TableInv.of_empty hempty fun _ => hnopend
    · have ht := h.table a q hqold
      refine { ht with ended_no_child := fun i id d hi hcode hd hpar => ?_ }
      rcases update_eq_some.mp hd with ⟨hid, heq⟩ | ⟨-, hdold⟩
      · -- the new child: its parent has no ended entry for this address
        cases heq
        obtain ⟨p, hp, -, hopen⟩ := hparent (hpar ▸ h.ne_null hqold)
        rw [hpar, hqold] at hp
        cases hp
        exact absurd (hopen i (hid ▸ hi)) hcode
      · exact ht.ended_no_child i id d hi hcode hdold hpar
  · intro a d hd hdt hpar
    rcases update_eq_some.mp hd with ⟨rfl, heq⟩ | ⟨-, hd⟩
    · cases heq
      obtain ⟨p, hp, hentry, -⟩ := hparent hpar
      exact ⟨p, hkeep hp, hentry⟩
    · obtain ⟨q, hq, hrest⟩ := h.child a d hd hdt hpar
      exact ⟨q, hkeep hq, hrest⟩
  · intro hne
    obtain ⟨d, hd, hrest⟩ := h.carcass hne
    exact ⟨d, hkeep hd, hrest⟩

/-- An entry of a table with a new entry is the new one or an old one. -/
theorem holds_update {t : JoinTable} {pos j : Fin MAXENTRIES} {b id : SpaceId}
    {pid code : BitVec 32}
    (hj : JoinTable.Holds (Function.update t pos ⟨true, b, pid, code⟩) j id) :
    (j = pos ∧ id = b) ∨ (j ≠ pos ∧ t.Holds j id) := by
  by_cases hjp : j = pos
  · subst hjp
    have hj' : b = id := by simpa [JoinTable.Holds] using hj
    exact Or.inl ⟨rfl, hj'.symm⟩
  · exact Or.inr ⟨hjp, by simpa [JoinTable.Holds, hjp] using hj⟩

theorem open_of_not_answers {t : JoinTable} {b : SpaceId} {pid : BitVec 32}
    (hno : ∀ i, ¬ t.Answers i b pid) {j : Fin MAXENTRIES} (hj : t.Holds j b) :
    (t j).code = CODENOTENDED := by
  by_contra hcode
  exact hno j ⟨hj, Or.inr hcode⟩

/-- An `Exec` changes what is pending for its process and its address only. -/
theorem pending_snoc_exec {p c q d : ℕ} {b k : SpaceId} (hne : q ≠ p ∨ k ≠ b) :
    Pending (log ++ [.exec p c b]) q k d ↔ Pending log q k d := by
  refine pending_snoc (fun c' heq => ?_) fun _ => by simp
  obtain ⟨rfl, -, rfl⟩ := Event.exec.inj heq
  tauto

/-- The parent's table gets an entry for the new child. -/
theorem TableInv.exec {owner' : ℕ → Fin MAXENTRIES → ℕ} {a b : SpaceId} {p : Core}
    {pos : Fin MAXENTRIES} {pid : BitVec 32}
    (h : TableInv owner cores nextTid log a p) (hfree : (p.jtable pos).inUse = false)
    (hno : ∀ i, ¬ p.jtable.Answers i b pid) (hpos : owner' p.tid pos = nextTid)
    (hold : ∀ j ≠ pos, owner' p.tid j = owner p.tid j) :
    TableInv owner' cores (nextTid + 1) (log ++ [.exec p.tid nextTid b]) a
      { p with jtable := Function.update p.jtable pos ⟨true, b, pid, CODENOTENDED⟩ } := by
  refine ⟨?_, ?_, ?_, ?_, ?_, ?_⟩
  · intro j k id hj hk hser
    rcases holds_update hj with ⟨hjp, hid⟩ | ⟨hjp, hjold⟩ <;>
      rcases holds_update hk with ⟨hkp, hid'⟩ | ⟨hkp, hkold⟩
    · exact hjp.trans hkp.symm
    · -- an old entry with this id and serial would have stopped `AddChild`
      simp only [hjp, Function.update_self, Function.update_of_ne hkp] at hser
      exact absurd ⟨hid ▸ hkold, Or.inl hser.symm⟩ (hno k)
    · simp only [hkp, Function.update_self, Function.update_of_ne hjp] at hser
      exact absurd ⟨hid' ▸ hjold, Or.inl hser⟩ (hno j)
    · simp only [Function.update_of_ne hjp, Function.update_of_ne hkp] at hser
      exact h.distinct j k id hjold hkold hser
  · intro j huse
    rcases holds_update ⟨huse, rfl⟩ with ⟨rfl, -⟩ | ⟨hjp, hj⟩
    · simp only [hpos]
      exact Nat.lt_succ_self _
    · simp only [hold j hjp]
      exact Nat.lt_succ_of_lt (h.owner_lt j hj.1)
  · intro j id hj hcode
    rcases holds_update hj with ⟨rfl, -⟩ | ⟨hjp, hjold⟩
    · simp at hcode
    · simp only [Function.update_of_ne hjp, hold j hjp] at hcode ⊢
      obtain ⟨hexit, hpe⟩ := h.exited j id hjold hcode
      refine ⟨List.mem_append_left _ hexit, (pending_snoc_exec (Or.inr ?_)).mpr hpe⟩
      intro hid
      exact hcode (open_of_not_answers hno (hid ▸ hjold))
  · intro j k id hj hk hcj hck
    rcases holds_update hj with ⟨rfl, -⟩ | ⟨hjp, hj⟩
    · simp at hcj
    rcases holds_update hk with ⟨rfl, -⟩ | ⟨hkp, hk⟩
    · simp at hck
    simp only [Function.update_of_ne hjp, Function.update_of_ne hkp] at hcj hck
    exact h.ended_unique j k id hj hk hcj hck
  · intro j id d hj hcode hd hpar
    rcases holds_update hj with ⟨rfl, -⟩ | ⟨hjp, hj⟩
    · simp at hcode
    · simp only [Function.update_of_ne hjp] at hcode
      exact (h.ended_no_child j id d hj hcode hd hpar).mono
  · intro hdone id d hpe
    by_cases hid : id = b
    · -- the new child is the last one under this address
      subst hid
      by_cases hd : d = nextTid
      · exact ⟨pos, by simp [JoinTable.Holds], hpos.trans hd.symm⟩
      · exfalso
        refine (Since.of_snoc hpe fun heq => hd ?_).2 (Or.inl ⟨_, rfl⟩)
        exact (Event.exec.inj heq).2.1.symm
    · obtain ⟨j, hj, ho⟩ := h.pending hdone id d ((pending_snoc_exec (Or.inr hid)).mp hpe)
      have hjp : j ≠ pos := by
        rintro rfl
        rw [hj.1] at hfree
        exact Bool.noConfusion hfree
      exact ⟨j, by simpa [JoinTable.Holds, hjp] using hj, (hold j hjp).trans ho⟩

/-- The running children that the parent had before keep their entries. -/
theorem HasEntry.exec {owner' : ℕ → Fin MAXENTRIES → ℕ} {b b' : SpaceId} {p d : Core}
    {c : ℕ} {pos : Fin MAXENTRIES} {pid : BitVec 32} (h : HasEntry owner log p b' d)
    (hb : b' ≠ b) (hfree : (p.jtable pos).inUse = false)
    (hold : ∀ j ≠ pos, owner' p.tid j = owner p.tid j) :
    HasEntry owner' (log ++ [.exec p.tid c b])
      { p with jtable := Function.update p.jtable pos ⟨true, b, pid, CODENOTENDED⟩ }
      b' d := by
  obtain ⟨j, hj, hser, ho, hpe⟩ := h
  have hjp : j ≠ pos := by
    rintro rfl
    rw [hj.1] at hfree
    exact Bool.noConfusion hfree
  exact ⟨j, by simpa [JoinTable.Holds, hjp] using hj, by simpa [hjp] using hser,
    (hold j hjp).trans ho, (pending_snoc_exec (Or.inr hb)).mpr hpe⟩

/-- **`Exec`**: the parent's table gets an entry, and the new child appears. -/
theorem JoinInv.exec (h : JoinInv owner cores carcass nextTid log)
    {a b : SpaceId} {p c : Core} {pos : Fin MAXENTRIES} {pid : BitVec 32}
    (hp : cores a = some p) (halive : ¬ Terminated log p.tid)
    (hb : cores b = none) (hbnull : b ≠ NULL)
    (hfree : (p.jtable pos).inUse = false)
    (hno : ∀ i, ¬ p.jtable.Answers i b pid)
    (hc : c = ⟨nextTid, pid, a, JoinTable.new, false⟩) :
    ∃ owner', JoinInv owner'
      (Function.update (Function.update cores a (some { p with
        jtable := Function.update p.jtable pos ⟨true, b, pid, CODENOTENDED⟩ }))
        b (some c)) carcass (nextTid + 1) (log ++ [.exec p.tid nextTid b]) := by
  subst hc
  have hptid := h.tid_lt a p hp
  have hab : a ≠ b := by
    rintro rfl
    rw [hp] at hb
    cases hb
  have hexeclt : ∀ q d k, .exec q d k ∈ log ++ [.exec p.tid nextTid b] → q < nextTid := by
    intro q d k hmem
    rcases List.mem_append.mp hmem with hmem | hmem
    · exact h.exec_lt q d k hmem
    · obtain ⟨rfl, -, -⟩ := Event.exec.inj (List.mem_singleton.mp hmem)
      exact hptid
  let owner' := Function.update owner p.tid
    (Function.update (owner p.tid) pos nextTid)
  have hownpos : owner' p.tid pos = nextTid := by simp [owner']
  have hownne : ∀ j ≠ pos, owner' p.tid j = owner p.tid j := by
    intro j hj
    simp [owner', hj]
  refine ⟨owner', ?_⟩
  have htable : JoinInv owner' (Function.update cores a (some { p with
      jtable := Function.update p.jtable pos ⟨true, b, pid, CODENOTENDED⟩ }))
      carcass (nextTid + 1) (log ++ [.exec p.tid nextTid b]) := by
    refine h.mono_nextTid.update_table hp rfl rfl rfl
      (fun q hq => Function.update_of_ne hq _ _)
      (fun e he => List.mem_append_left _ he)
      (fun q hq k d => pending_snoc_exec (Or.inl hq))
      (fun q d k hmem => Nat.lt_succ_of_lt (hexeclt q d k hmem)) ?_
      ((h.table a p hp).exec hfree hno hownpos hownne) ?_
    · rintro hne rfl
      obtain ⟨d, hd, hdt, -⟩ := h.carcass hne
      rw [hp] at hd
      cases hd
      exact halive hdt
    · rintro b' d hd hdt rfl
      obtain ⟨q, hq, hentry⟩ := h.child b' d hd (fun h => hdt h.mono) (h.ne_null hp)
      rw [hp] at hq
      cases hq
      refine hentry.exec ?_ hfree hownne
      rintro rfl
      rw [hd] at hb
      cases hb
  refine htable.add ?_ hbnull (Nat.lt_succ_self _) ?_ (fun _ => rfl) ?_
    fun _ => ⟨_, Function.update_self .., ?_, ?_⟩
  · rw [Function.update_of_ne hab.symm, hb]
  · intro a' d hd
    rcases update_eq_some.mp hd with ⟨-, heq⟩ | ⟨-, hd⟩
    · cases heq
      exact Nat.ne_of_lt hptid
    · exact Nat.ne_of_lt (h.tid_lt a' d hd)
  · intro id d hpe
    exact absurd (hexeclt _ _ _ hpe.mem) (Nat.lt_irrefl _)
  · exact ⟨pos, by simp [JoinTable.Holds], by simp, hownpos, since_snoc_self _ _ _⟩
  · intro j hj
    rcases holds_update hj with ⟨rfl, -⟩ | ⟨hjp, hj⟩
    · simp
    · simp only [Function.update_of_ne hjp]
      exact open_of_not_answers hno hj

/-! ## §4  Finishing -/

theorem JoinInv.orphans {cores₁ : SpaceId → Option Core} {entries : JoinTable}
    (h : JoinInv owner cores carcass nextTid log)
    (ho : Orphans entries cores cores₁) :
    JoinInv owner cores₁ carcass nextTid log := by
  -- a parent that is still there was there before
  have hpar : ∀ {b d c}, Kept entries b d c → c.parent ≠ NULL →
      d.parent = c.parent := by
    intro b d c hk hne
    by_cases hb : ∃ i, entries.Holds i b
    · exact absurd (hk.orphan hb) hne
    · exact (hk.parent hb).symm
  refine ⟨?_, ?_, ?_, ?_, ?_, ?_, h.exec_lt⟩
  · cases hc : cores₁ NULL with
    | none => rfl
    | some c =>
        obtain ⟨d, hd, -⟩ := ho.back hc
        rw [h.null] at hd
        cases hd
  · intro a c hc
    obtain ⟨d, hd, hk⟩ := ho.back hc
    exact hk.tid ▸ h.tid_lt a d hd
  · intro a b c c' hc hc' heq
    obtain ⟨d, hd, hk⟩ := ho.back hc
    obtain ⟨d', hd', hk'⟩ := ho.back hc'
    exact h.tid_inj a b d d' hd hd' (by rw [← hk.tid, ← hk'.tid, heq])
  · intro a p hp
    obtain ⟨q, hq, hk⟩ := ho.back hp
    have ht := h.table a q hq
    have hane := h.ne_null hq
    constructor
    · rw [hk.jtable]
      exact ht.distinct
    · rw [hk.jtable, hk.tid]
      exact ht.owner_lt
    · rw [hk.jtable, hk.tid]
      exact ht.exited
    · rw [hk.jtable]
      exact ht.ended_unique
    · rw [hk.jtable]
      intro i id c hi hcode hc hca
      obtain ⟨d, hd, hkc⟩ := ho.back hc
      have hda : d.parent = a := (hpar hkc (hca ▸ hane)).trans hca
      exact hkc.tid ▸ ht.ended_no_child i id d hi hcode hd hda
    · rw [hk.jtable, hk.tid, hk.done]
      exact ht.pending
  · intro b c hc hct hne
    obtain ⟨d, hd, hk⟩ := ho.back hc
    have hdp := hpar hk hne
    obtain ⟨p, hp, i, hi, hser, hown, hpe⟩ :=
      h.child b d hd (hk.tid ▸ hct) (hdp ▸ hne)
    rw [hdp] at hp
    obtain ⟨q, hq, hkq⟩ := ho.forth hp
    refine ⟨q, hq, i, ?_, ?_, ?_, ?_⟩
    · rw [hkq.jtable]
      exact hi
    · rw [hkq.jtable, hser, hk.pid]
    · rw [hkq.tid, hown, hk.tid]
    · rw [hkq.tid, hk.tid]
      exact hpe
  · intro hne
    obtain ⟨c, hc, hct, huse⟩ := h.carcass hne
    obtain ⟨d, hd, hk⟩ := ho.forth hc
    exact ⟨d, hd, hk.tid ▸ hct, hk.jtable ▸ huse⟩

/-- A terminated process whose children have lost it empties its table and
becomes the carcass. -/
theorem JoinInv.bury (h : JoinInv owner cores NULL nextTid log)
    {a : SpaceId} {p : Core} (p' : Core) (hp : cores a = some p)
    (hterm : Terminated log p.tid) (htid : p'.tid = p.tid)
    (hparent : p'.parent = p.parent) (hpid : p'.pid = p.pid)
    (hdone : p'.done = true) (hempty : ∀ i, (p'.jtable i).inUse = false)
    (horphan : ∀ i b c, p.jtable.Holds i b → cores b = some c → c.parent = NULL) :
    JoinInv owner (Function.update cores a (some p')) a nextTid log := by
  have hnew : JoinInv owner (Function.update cores a (some p')) NULL nextTid log := by
    refine h.update_table hp htid hparent hpid (fun _ _ => rfl) (fun _ he => he)
      (fun _ _ _ _ => Iff.rfl) h.exec_lt (fun hne => absurd rfl hne) ?_ ?_
    · exact TableInv.of_empty hempty fun h => by simp [hdone] at h
    · rintro b c hc hct rfl
      obtain ⟨q, hq, i, hi, -⟩ := h.child b c hc hct (h.ne_null hp)
      rw [hp] at hq
      cases hq
      exact absurd (horphan i b c hi hc) (h.ne_null hp)
  exact { hnew with
    carcass := fun _ => ⟨p', Function.update_self .., htid ▸ hterm, hempty⟩ }

/-- **`Finish` of a process whose end is in the log.** -/
theorem finish_inv {s s' : Sys} (hstep : s.finish = some s')
    (hj : JoinInv owner s.cores s.threadToBeDestroyed s.nextTid log)
    (halive : ∀ a c, s.cores a = some c → a ≠ s.currentThread → c.done = false →
      ¬ Terminated log c.tid)
    (hterm : ∀ p, s.cores s.currentThread = some p → Terminated log p.tid)
    (hlt : ∀ c, Terminated log c → c < s.nextTid) : Inv s' log := by
  obtain ⟨t, s₁, t₁, ht, hdel, ht₁, rfl⟩ := finish_steps hstep
  obtain ⟨hcur, hnext, hnull, -⟩ := deleteCarcass_cases hdel
  have horph := orphans_clearParents s t.jtable
  have hj₁ := deleteCarcass_join hdel (hj.orphans horph)
  rw [hnull] at hj₁
  -- who was there before, and lost its parent if the table mentioned it
  have hback : ∀ b c, s₁.cores b = some c →
      ∃ d, s.cores b = some d ∧ Kept t.jtable b d c :=
    fun b c hc => horph.back (deleteCarcass_cores hdel hc)
  have hcore₁ := cores_of_heap ht₁
  obtain ⟨d, hd, hkept⟩ := hback _ _ hcore₁
  rw [hcur] at hd
  have hdt : d = t.core := Option.some.inj (hd.symm.trans (cores_of_heap ht))
  subst hdt
  have hbury := hj₁.bury (a := s₁.currentThread) (p := t₁.core)
    { t₁ with
      jtable := t₁.jtable.clear, status := .BLOCKED, cont := .finished : Thread }.core
    hcore₁ (hkept.tid ▸ hterm _ hd) rfl rfl rfl (by simp [Thread.core]) (fun _ => rfl) (by
      intro i b c hi hc
      obtain ⟨d, -, hk⟩ := hback b c hc
      rw [hkept.jtable] at hi
      exact hk.orphan ⟨i, hi⟩)
  refine ⟨⟨owner, ?_⟩, ?_, fun c hc => hnext.symm ▸ hlt c hc⟩
  · rw [← cores_set] at hbury
    exact hbury
  · intro a c hc hdone
    have hc' : Function.update s₁.cores s₁.currentThread (some { t₁ with
        jtable := t₁.jtable.clear, status := .BLOCKED, cont := .finished :
        Thread }.core) a = some c := by
      rw [← cores_set]
      exact hc
    rcases update_eq_some.mp hc' with ⟨-, heq⟩ | ⟨hne, hold⟩
    · cases heq
      exact absurd hdone (by simp [Thread.core])
    · obtain ⟨d, hd, hk⟩ := hback a c hold
      exact hk.tid ▸ halive a d hd (hcur ▸ hne) (hk.done ▸ hdone)

/-! ## §5  Every action -/

theorem run_inv {s s' : Sys} {a : SpaceId} (hstep : s.run a = some s')
    (hi : Inv s log) : Inv s' log := by
  unfold run at hstep
  split at hstep
  · cases hstep
  rename_i t ht
  dsimp only at hstep
  split at hstep
  · rename_i hfresh
    cases hstep
    refine SameJoin.inv (s := s) ⟨?_, rfl, rfl⟩ hi
    have hcore : { t with status := .RUNNING, cont := .starting : Thread }.core = t.core := by
      simp [Thread.core, hfresh]
    exact cores_set_same (s := s) ht hcore
  · refine deleteCarcass_inv hstep (SameJoin.inv (s := s) ⟨?_, rfl, rfl⟩ hi)
    have hcore : { t with status := .RUNNING : Thread }.core = t.core := rfl
    exact cores_set_same (s := s) ht hcore

theorem runNext_inv {s s' : Sys} (hstep : s.runNext = some s') (hi : Inv s log) :
    Inv s' log := by
  unfold runNext at hstep
  split at hstep
  · cases hstep
  · exact run_inv hstep (SameJoin.inv (s := s) ⟨rfl, rfl, rfl⟩ hi)

theorem yield_inv {s s' : Sys} (hstep : s.yield = some s') (hi : Inv s log) :
    Inv s' log := by
  obtain ⟨t, s₁, ht, hready, hrun⟩ := yield_steps hstep
  have hset : SameJoin s (s.set s.currentThread { t with cpu := t.cpu + s.quantum }) :=
    sameJoin_set ht rfl
  exact runNext_inv hrun ((readyToRun_sameJoin hready).1.inv (hset.inv hi))

theorem terminated_snoc_other {c : ℕ} {e : Event} (hexit : ∀ v, e ≠ .exit c v)
    (hkill : e ≠ .killed c) : Terminated (log ++ [e]) c ↔ Terminated log c := by
  constructor
  · rintro (⟨v, hv⟩ | hk)
    · rcases List.mem_append.mp hv with hv | hv
      · exact Or.inl ⟨v, hv⟩
      · exact absurd (List.mem_singleton.mp hv).symm (hexit v)
    · rcases List.mem_append.mp hk with hk | hk
      · exact Or.inr hk
      · exact absurd (List.mem_singleton.mp hk).symm hkill
  · exact Terminated.mono

/-- What `Join` may return: the code with which the child last `Exec`ed under
that id has exited, and which no `Join` has returned yet. -/
def JoinOk (log : List Event) (p : ℕ) (id : SpaceId) (v : BitVec 32) : Prop :=
  ∃ c, .exit c v ∈ log ∧ Pending log p id c

/-- **One turn of `Join`.** -/
theorem joinLoop_inv {s s' : Sys} {t : Thread} {id : SpaceId} {spid : BitVec 32}
    (hstep : s.joinLoop id spid = some s') (hi : Inv s log)
    (ht : s.heap s.currentThread = some t) (hdone : t.core.done = false) :
    Inv s' (log ++ joinEvent t id spid) ∧
      ∀ p id' v, .joined p id' v ∈ joinEvent t id spid → JoinOk log p id' v := by
  obtain ⟨⟨owner, hj⟩, ha, hlt⟩ := hi
  have hcore := cores_of_heap ht
  have halive := ha _ _ hcore hdone
  have hdone' : t.cont ≠ .finished := by simpa [Thread.core] using hdone
  obtain ⟨pos, hans, ⟨-, hev, rfl⟩ | ⟨hcode, hev, rfl⟩⟩ := joinLoop_steps hstep ht
  · rw [hev, List.append_nil]
    refine ⟨SameJoin.inv (sameJoin_set ht ?_) ⟨⟨owner, hj⟩, ha, hlt⟩, by simp⟩
    simp [Thread.core, hdone']
  · have hnoterm : ∀ c, Terminated (log ++ [.joined t.tid id (t.jtable pos).code]) c →
        Terminated log c :=
      fun c => (terminated_snoc_other (by simp) (by simp)).mp
    rw [hev]
    refine ⟨⟨⟨owner, ?_⟩, ?_, fun c hc => hlt c (hnoterm c hc)⟩, ?_⟩
    · have hnew := hj.joined hcore halive hans.1 hcode
      rw [cores_set]
      simpa [Thread.core, hdone'] using hnew
    · intro a c hc hcd hct
      rw [cores_set] at hc
      rcases update_eq_some.mp hc with ⟨-, heq⟩ | ⟨-, hc⟩
      · cases heq
        exact halive (hnoterm _ hct)
      · exact ha a c hc hcd (hnoterm _ hct)
    · intro p id' v hmem
      obtain ⟨rfl, rfl, rfl⟩ := Event.joined.inj (List.mem_singleton.mp hmem)
      obtain ⟨hexit, hpend⟩ := (hj.table _ _ hcore).exited pos id' hans.1 hcode
      exact ⟨_, hexit, hpend⟩

theorem exec_inv {s s' : Sys} {t : Thread} {tmp : SpaceId} {prio : BitVec 32}
    (hstep : s.exec tmp prio = some s') (hi : Inv s log)
    (ht : s.heap s.currentThread = some t) (hdone : t.core.done = false)
    (hnull : tmp ≠ NULL) (hfree : s.heap tmp = none) :
    Inv s' (log ++ [.exec t.tid s.nextTid tmp]) := by
  obtain ⟨⟨owner, hj⟩, ha, hlt⟩ := hi
  have hcore := cores_of_heap ht
  have halive := ha _ _ hcore hdone
  obtain ⟨pos, hpos, hno, hcores, hcar, hnext, -, -⟩ := exec_steps hstep ht
  have hfree' : s.cores tmp = none := by simp [Sys.cores, hfree]
  obtain ⟨owner', hnew⟩ := hj.exec hcore halive hfree' hnull hpos hno rfl
  have hnoterm : ∀ c, Terminated (log ++ [.exec t.tid s.nextTid tmp]) c →
      Terminated log c :=
    fun c => (terminated_snoc_other (by simp) (by simp)).mp
  refine ⟨⟨owner', ?_⟩, ?_, ?_⟩
  · rw [hcores, hcar, hnext]
    exact hnew
  · intro a c hc hcd hct
    rw [hcores] at hc
    rcases update_eq_some.mp hc with ⟨-, heq⟩ | ⟨-, hc⟩
    · cases heq
      exact absurd (hlt _ (hnoterm _ hct)) (Nat.lt_irrefl _)
    rcases update_eq_some.mp hc with ⟨-, heq⟩ | ⟨-, hc⟩
    · cases heq
      exact halive (hnoterm _ hct)
    · exact ha a c hc hcd (hnoterm _ hct)
  · intro c hc
    rw [hnext]
    exact Nat.lt_succ_of_lt (hlt c (hnoterm c hc))

/-- The running process calls `Exit`: its code goes into the entry that its
parent has for it, if it has a parent. -/
theorem exit_inv {s s' : Sys} {t : Thread} {code : BitVec 32}
    (hstep : s.exit code = some s') (hi : Inv s log)
    (ht : s.heap s.currentThread = some t) (hdone : t.core.done = false) :
    Inv s' (log ++ [.exit t.tid code]) := by
  obtain ⟨⟨owner, hj⟩, ha, hlt⟩ := hi
  have hcore := cores_of_heap ht
  have halive := ha _ _ hcore hdone
  have hj' := hj.log_terminated (e := .exit t.tid code) (Or.inl ⟨_, _, rfl⟩)
  have hexit : Event.exit t.tid code ∈ log ++ [.exit t.tid code] := by simp
  -- nobody else has terminated
  have hother : ∀ c, c ≠ t.tid → Terminated (log ++ [.exit t.tid code]) c →
      Terminated log c := by
    intro c hne
    refine (terminated_snoc_other (fun v heq => ?_) (by simp)).mp
    exact hne (Event.exit.inj heq).1.symm
  have hlt' : ∀ c, Terminated (log ++ [.exit t.tid code]) c → c < s.nextTid := by
    intro c hc
    by_cases hct : c = t.tid
    · exact hct ▸ hj.tid_lt _ _ hcore
    · exact hlt c (hother c hct hc)
  have halive' : ∀ a c, s.cores a = some c → a ≠ s.currentThread →
      c.done = false → ¬ Terminated (log ++ [.exit t.tid code]) c.tid := by
    intro a c hc hne hcd hct
    refine ha a c hc hcd (hother _ (fun heq => hne ?_) hct)
    exact hj.tid_inj a _ c _ hc hcore heq
  rcases exit_steps hstep ht with ⟨-, hfin⟩ |
    ⟨hpar, p, pos, s₁, hp, hfind, hcores, hcur, hcar, hnext, -, -, hfin⟩
  · refine finish_inv hfin hj' halive' (fun p hp => ?_) hlt'
    rw [hcore] at hp
    cases hp
    exact Or.inl ⟨code, hexit⟩
  · -- the entry that `Find` returns is the one of this child
    have hpcore := cores_of_heap hp
    obtain ⟨i, hfind', hhold, hown, hpend, hopen⟩ :=
      hj.find_child hcore halive hpar hpcore
    obtain rfl : i = pos := Option.some.inj (hfind'.symm.trans hfind)
    have hnew : JoinInv owner s₁.cores s₁.threadToBeDestroyed s₁.nextTid
        (log ++ [.exit t.tid code]) := by
      rw [hcores, hcar, hnext]
      exact hj'.setEndCode hpcore hhold hopen hcore hown hexit
        ((pending_snoc (by simp) (by simp)).mpr hpend)
    have hback : ∀ a c, s₁.cores a = some c →
        ∃ d, s.cores a = some d ∧ c.tid = d.tid ∧ c.done = d.done := by
      intro a c hc
      rw [hcores] at hc
      rcases update_eq_some.mp hc with ⟨ha', heq⟩ | ⟨-, hc⟩
      · cases heq
        exact ⟨p.core, ha' ▸ hpcore, rfl, rfl⟩
      · exact ⟨c, hc, rfl, rfl⟩
    refine finish_inv hfin hnew ?_ ?_ ?_
    · intro a c hc hne hcd
      obtain ⟨d, hd, hdt, hdd⟩ := hback a c hc
      rw [hdt]
      exact halive' a d hd (hcur ▸ hne) (hdd ▸ hcd)
    · intro c hc
      obtain ⟨d, hd, hdt, -⟩ := hback _ c hc
      rw [hcur, hcore] at hd
      cases hd
      exact hdt ▸ Or.inl ⟨code, hexit⟩
    · rw [hnext]
      exact hlt'

theorem kill_inv {s s' : Sys} {t : Thread} (hstep : s.finish = some s')
    (hi : Inv s log) (ht : s.heap s.currentThread = some t) :
    Inv s' (log ++ [.killed t.tid]) := by
  obtain ⟨⟨owner, hj⟩, ha, hlt⟩ := hi
  have hcore := cores_of_heap ht
  have hother : ∀ c, c ≠ t.tid → Terminated (log ++ [.killed t.tid]) c →
      Terminated log c := by
    intro c hne
    refine (terminated_snoc_other (by simp) fun heq => ?_).mp
    exact hne (Event.killed.inj heq).symm
  refine finish_inv hstep (hj.log_terminated (Or.inr ⟨_, rfl⟩)) ?_ ?_ ?_
  · intro a c hc hne hcd hct
    refine ha a c hc hcd (hother _ (fun heq => hne ?_) hct)
    exact hj.tid_inj a _ c _ hc hcore heq
  · intro p hp
    rw [hcore] at hp
    cases hp
    exact Or.inr (by simp [Thread.core])
  · intro c hc
    by_cases hct : c = t.tid
    · exact hct ▸ hj.tid_lt _ _ hcore
    · exact hlt c (hother c hct hc)

/-! ## §6  Every run -/

/-- **The step lemma.** Every action keeps the invariant, and a `Join` that
returns in it returns the right code. -/
theorem inv_step {s s' : Sys} {a : Act} (hi : Inv s log)
    (hstep : s.step a = some s') :
    Inv s' (log ++ s.event a) ∧
      ∀ p id v, .joined p id v ∈ s.event a → JoinOk log p id v := by
  -- the actions that leave no event
  have quiet : s.event a = [] → Inv s' log →
      Inv s' (log ++ s.event a) ∧
        ∀ p id v, .joined p id v ∈ s.event a → JoinOk log p id v := by
    intro hev hi'
    rw [hev, List.append_nil]
    exact ⟨hi', by simp⟩
  cases step_cases hstep with
  | tick =>
      refine quiet ?_ (SameJoin.inv (s := s) ⟨rfl, rfl, rfl⟩ hi)
      unfold event
      split <;> rfl
  | yield t s' ht hyield => exact quiet (by simp [event, ht]) (yield_inv hyield hi)
  | dispatch t s' ht hrun => exact quiet (by simp [event, ht]) (runNext_inv hrun hi)
  | start t ht hc =>
      refine quiet (by simp [event, ht]) (SameJoin.inv (sameJoin_set ht ?_) hi)
      simp [Thread.core, hc]
  | exec tmp prio t s' ht hst hc hnull hfree hexec =>
      rw [event_exec ht tmp prio]
      exact ⟨exec_inv hexec hi ht (t.not_done (by simp [hc])) hnull hfree, by simp⟩
  | exit code t s' ht hc hexit =>
      rw [event_exit ht code]
      exact ⟨exit_inv hexit hi ht (t.not_done (by simp [hc])), by simp⟩
  | join id stale t s' ht hc hjoin =>
      rw [event_join ht id stale]
      exact joinLoop_inv hjoin hi ht (t.not_done (by simp [hc]))
  | resume id spid t s' ht hc hjoin =>
      rw [event_resume ht hc]
      exact joinLoop_inv hjoin hi ht (t.not_done (by simp [hc]))
  | kill t s' ht hc hfinish =>
      rw [event_kill ht]
      exact ⟨kill_inv hfinish hi ht, by simp⟩

/-- There is the main thread only. -/
theorem heap_init {algorithm : Algorithm} {main a : SpaceId} {t : Thread}
    (ht : (init algorithm main).heap a = some t) :
    a = main ∧ t = { Thread.new 0 0 10 with status := .RUNNING, cont := .starting } := by
  by_cases ha : a = main
  · subst ha
    exact ⟨rfl, by simpa [init] using ht.symm⟩
  · simp [init, ha] at ht

theorem inv_init (algorithm : Algorithm) {main : SpaceId} (hmain : main ≠ NULL) :
    Inv (init algorithm main) [] := by
  have hcores : ∀ a c, (init algorithm main).cores a = some c →
      a = main ∧ c = ⟨0, 0, NULL, JoinTable.new, false⟩ := by
    intro a c hc
    obtain ⟨t, ht, rfl⟩ := Option.map_eq_some_iff.mp hc
    obtain ⟨rfl, rfl⟩ := heap_init ht
    exact ⟨rfl, by simp [Thread.core, Thread.new]⟩
  have hnoterm : ∀ c, ¬ Terminated [] c := by simp [Terminated]
  refine ⟨⟨fun _ _ => 0, ?_, ?_, ?_, ?_, ?_, ?_, by simp⟩, fun a c _ _ => hnoterm _,
    fun c hc => absurd hc (hnoterm c)⟩
  · cases hc : (init algorithm main).cores NULL with
    | none => rfl
    | some c => exact absurd (hcores _ _ hc).1.symm hmain
  · intro a c hc
    simp [(hcores a c hc).2, init]
  · intro a b c d hc hd _
    exact (hcores a c hc).1.trans (hcores b d hd).1.symm
  · intro a p hp
    exact TableInv.of_empty (fun i => by simp [(hcores a p hp).2, JoinTable.new])
      fun _ _ _ hpe => by simpa using hpe.mem
  · intro b c hc _ hpar
    exact absurd (by simp [(hcores b c hc).2]) hpar
  · intro hne
    exact absurd rfl hne

/-- A step leaves at most one event. -/
theorem event_cases (s : Sys) (a : Act) : s.event a = [] ∨ ∃ e, s.event a = [e] := by
  have hjoin : ∀ t id spid, joinEvent t id spid = [] ∨ ∃ e, joinEvent t id spid = [e] := by
    intro t id spid
    unfold joinEvent
    split
    · split
      · exact Or.inl rfl
      · exact Or.inr ⟨_, rfl⟩
    · exact Or.inl rfl
  unfold event
  split
  · exact Or.inl rfl
  · cases a with
    | join id stale => exact hjoin _ _ _
    | resume =>
        dsimp only
        split
        · exact hjoin _ _ _
        · exact Or.inl rfl
    | _ => simp

/-- **`Join` never returns a wrong code.** In every run, whatever the order of
the actions, the addresses that are reused and the serials read from freed
memory: when `Join(id)` of process `p` returns `v`, the child that `p` last
`Exec`ed with that id has executed `Exit(v)`, and no `Join` of `p` on that id
has returned since that `Exec`. -/
theorem join_returns_exit_code (algorithm : Algorithm) (main : SpaceId)
    (hmain : main ≠ NULL) (as : List Act) (s : Sys) (log : List Event)
    (hrun : PartialMachine.run (logged step event) (init algorithm main, []) as =
      some (s, log)) :
    LogAll (fun pre e => ∀ p id v, e = .joined p id v → JoinOk pre p id v) log := by
  have hmotive : Inv s log ∧
      LogAll (fun pre e => ∀ p id v, e = .joined p id v → JoinOk pre p id v) log := by
    refine run_induction (motive := fun _ c => Inv c.1 c.2 ∧
      LogAll (fun pre e => ∀ p id v, e = .joined p id v → JoinOk pre p id v) c.2)
      ⟨inv_init algorithm hmain, logAll_nil _⟩ ?_ as (s, log) hrun
    rintro as ⟨s, log⟩ a ⟨s', log'⟩ - ⟨hi, hlog⟩ hstep
    obtain ⟨hstep, rfl⟩ := logged_eq_some.mp hstep
    obtain ⟨hi', hok⟩ := inv_step hi hstep
    refine ⟨hi', ?_⟩
    rcases event_cases s a with hev | ⟨e, hev⟩
    · simpa [hev] using hlog
    · rw [hev] at hok ⊢
      refine logAll_snoc.mpr ⟨hlog, ?_⟩
      rintro p id v rfl
      exact hok p id v (List.mem_singleton.mpr rfl)
  exact hmotive.2

/-- The main thread starts a child at address 2, which exits with 7 and is
destroyed; then the main thread joins it, reading 99 from the freed memory. -/
def execExitJoin : List Act :=
  [.start, .exec 2 0, .yield, .start, .exit 7, .dispatch, .join 2 99]

theorem join_returns_exit_code_execExitJoin : ∃ s log,
    PartialMachine.run (logged step event) (init .a1 1, []) execExitJoin =
      some (s, log) ∧
    Event.joined 0 2 7 ∈ log ∧
    LogAll (fun pre e => ∀ p id v, e = .joined p id v → JoinOk pre p id v) log := by
  have hlog : (PartialMachine.run (logged step event) (init .a1 1, [])
      execExitJoin).map Prod.snd =
      some [.exec 0 1 2, .exit 1 7, .joined 0 2 7] := by decide +kernel
  obtain ⟨⟨s, log⟩, hrun, hlog⟩ := Option.map_eq_some_iff.mp hlog
  refine ⟨s, log, hrun, ?_, join_returns_exit_code .a1 1 (by decide) _ s log hrun⟩
  rw [show log = _ from hlog]
  decide

end Sys

end OsAssignments.MemoryManagement
