import OsAssignments.Lib.ArrivalOrder
import Mathlib.Logic.Function.Basic
import Mathlib.Tactic.Common

/-!
# Linked lists with a first and a last pointer

Cells with a key and a pointer to the next cell, in a heap of cells by address. The
operations follow the pointers, and are `none` at an address that holds no cell.
`Represents` says which list of entries they stand for.

- `Valid.append`, `Valid.sortedInsert`, `Valid.sortedRemove` — what the operations do to
  that list. An entry is inserted before the first one with a larger key, so behind
  those with the same key.
-/

namespace LinkedList

/-! ## §1  The operations -/

structure Cell (α : Type) where
  item : α
  key : ℤ
  next : Option ℕ

end LinkedList

structure LinkedList (α : Type) where
  cells : ℕ → Option (LinkedList.Cell α)
  first : Option ℕ
  last : Option ℕ
  /-- How many cells there are, which bounds the loop. -/
  size : ℕ

namespace LinkedList

variable {α : Type}

def empty : LinkedList α := ⟨fun _ => none, none, none, 0⟩

/-- The cell at address `p` points to `next` from now on. -/
def setNext (cells : ℕ → Option (Cell α)) (p : ℕ) (next : Option ℕ) :
    Option (ℕ → Option (Cell α)) :=
  (cells p).map fun c => Function.update cells p (some { c with next })

/-- Put a new cell at address `element` at the end. -/
def append (l : LinkedList α) (element : ℕ) (item : α) (key : ℤ) : Option (LinkedList α) :=
  let cells := Function.update l.cells element (some ⟨item, key, none⟩)
  match l.first with
  | none => some ⟨cells, some element, some element, l.size + 1⟩
  | some first => do
      let last ← l.last
      let cells ← setNext cells last (some element)
      some ⟨cells, some first, some element, l.size + 1⟩

/-- The loop: from `ptr` on, the cell behind which the key goes, unless that is the
last one. -/
def findBefore (cells : ℕ → Option (Cell α)) (sortKey : ℤ) :
    ℕ → ℕ → Option (Option (ℕ × ℕ))
  | 0, _ => none
  | fuel + 1, ptr => do
      let c ← cells ptr
      match c.next with
      | none => some none
      | some q => do
          let d ← cells q
          if sortKey < d.key then some (some (ptr, q)) else findBefore cells sortKey fuel q

def sortedInsert (l : LinkedList α) (element : ℕ) (item : α) (sortKey : ℤ) :
    Option (LinkedList α) :=
  match l.first with
  | none => l.append element item sortKey
  | some first => do
      let c ← l.cells first
      if sortKey < c.key then
        some ⟨Function.update l.cells element (some ⟨item, sortKey, some first⟩),
          some element, l.last, l.size + 1⟩
      else
        match ← findBefore l.cells sortKey l.size first with
        | some (ptr, next) => do
            let cells := Function.update l.cells element (some ⟨item, sortKey, some next⟩)
            let cells ← setNext cells ptr (some element)
            some ⟨cells, some first, l.last, l.size + 1⟩
        | none => l.append element item sortKey

/-- The item of the first cell and its key, and the list without it. -/
def sortedRemove (l : LinkedList α) : Option (Option (ℤ × α) × LinkedList α) :=
  match l.first with
  | none => some (none, l)
  | some first => do
      let c ← l.cells first
      let cells := Function.update l.cells first none
      some (some (c.key, c.item),
        if l.first = l.last then ⟨cells, none, none, l.size - 1⟩
        else ⟨cells, c.next, l.last, l.size - 1⟩)

/-! ## §2  What they stand for -/

/-- An address, with the key and the item there. -/
abbrev Entry (α : Type) := ℕ × ℤ × α

/-- The pointers lead from `p` through the entries to `q`. -/
def Path (cells : ℕ → Option (Cell α)) : Option ℕ → List (Entry α) → Option ℕ → Prop
  | p, [], q => p = q
  | p, (a, key, item) :: es, q =>
      p = some a ∧ ∃ next, cells a = some ⟨item, key, next⟩ ∧ Path cells next es q

structure Represents (l : LinkedList α) (es : List (Entry α)) : Prop where
  path : Path l.cells l.first es none
  last : l.last = (es.map Prod.fst).getLast?
  nodup : (es.map Prod.fst).Nodup
  size : l.size = es.length

variable {cells cells' : ℕ → Option (Cell α)} {l : LinkedList α} {es es₁ es₂ : List (Entry α)}
  {p q : Option ℕ} {e : Entry α}

theorem represents_empty : Represents (empty : LinkedList α) [] :=
  ⟨rfl, rfl, List.nodup_nil, rfl⟩

theorem path_append : Path cells p (es₁ ++ es₂) q ↔
    ∃ r, Path cells p es₁ r ∧ Path cells r es₂ q := by
  induction es₁ generalizing p with
  | nil => simp [Path]
  | cons e es ih =>
      obtain ⟨a, key, item⟩ := e
      simp only [List.cons_append, Path, ih]
      constructor
      · rintro ⟨hp, next, hcell, r, h₁, h₂⟩
        exact ⟨r, ⟨hp, next, hcell, h₁⟩, h₂⟩
      · rintro ⟨r, ⟨hp, next, hcell, h₁⟩, h₂⟩
        exact ⟨hp, next, hcell, r, h₁, h₂⟩

theorem Path.congr (h : Path cells p es q)
    (hcells : ∀ a ∈ es.map Prod.fst, cells' a = cells a) : Path cells' p es q := by
  induction es generalizing p with
  | nil => exact h
  | cons e es ih =>
      obtain ⟨a, key, item⟩ := e
      obtain ⟨hp, next, hcell, hrest⟩ := h
      refine ⟨hp, next, ?_, ih hrest fun b hb => hcells b (List.mem_cons_of_mem _ hb)⟩
      rw [hcells a List.mem_cons_self, hcell]

theorem Path.update (h : Path cells p es q) {a : ℕ} (ha : a ∉ es.map Prod.fst)
    (c : Option (Cell α)) : Path (Function.update cells a c) p es q :=
  h.congr fun b hb => Function.update_of_ne (by rintro rfl; exact ha hb) ..

/-- The entries lie at addresses that hold a cell. -/
theorem Path.exists_cell (h : Path cells p es q) :
    ∀ a ∈ es.map Prod.fst, ∃ c, cells a = some c := by
  induction es generalizing p with
  | nil => simp
  | cons e es ih =>
      obtain ⟨b, key, item⟩ := e
      obtain ⟨-, next, hcell, hrest⟩ := h
      intro a ha
      rcases List.mem_cons.mp ha with rfl | ha
      · exact ⟨_, hcell⟩
      · exact ih hrest a ha

theorem Represents.fresh (h : l.Represents es) {element : ℕ} (hfree : l.cells element = none) :
    element ∉ es.map Prod.fst := by
  intro hmem
  obtain ⟨c, hc⟩ := h.path.exists_cell element hmem
  rw [hfree] at hc
  cases hc

/-! ## §3  `append` -/

theorem represents_append (h : l.Represents es) {element : ℕ}
    (hfree : l.cells element = none) (item : α) (key : ℤ) :
    ∃ l', l.append element item key = some l' ∧
      l'.Represents (es ++ [(element, key, item)]) := by
  have hno := h.fresh hfree
  rcases List.eq_nil_or_concat es with rfl | ⟨init, ⟨b, k, x⟩, rfl⟩
  · have hfirst : l.first = none := h.path
    refine ⟨_, by rw [append, hfirst], ⟨?_, rfl, by simp, by simp [h.size]⟩⟩
    exact ⟨rfl, none, Function.update_self .., rfl⟩
  · rw [List.concat_eq_append] at *
    obtain ⟨r, hinit, rfl, next, hcell, hnext⟩ := path_append.mp h.path
    obtain rfl : next = none := hnext
    have hlast : l.last = some b := by
      rw [h.last]
      simp
    have hnodup := h.nodup
    simp only [List.map_append, List.map_cons, List.map_nil, List.nodup_append,
      List.mem_singleton, List.mem_append, not_or] at hnodup hno
    have hb : b ∉ init.map Prod.fst := fun hmem => hnodup.2.2 b hmem b rfl rfl
    obtain ⟨first, hfirst⟩ : ∃ first, l.first = some first := by
      cases init with
      | nil => exact ⟨b, hinit⟩
      | cons e es => exact ⟨e.1, hinit.1⟩
    refine ⟨⟨Function.update (Function.update l.cells element (some ⟨item, key, none⟩)) b
      (some ⟨x, k, some element⟩), some first, some element, l.size + 1⟩, ?_, ?_⟩
    · simp only [append, hfirst, hlast, setNext, Option.bind_eq_bind, Option.bind_some,
        Function.update_of_ne (Ne.symm hno.2), hcell, Option.map_some]
    · refine ⟨?_, by simp, ?_, by simp [h.size]⟩
      · rw [List.append_assoc]
        refine path_append.mpr ⟨some b, ?_, rfl, some element, Function.update_self .., rfl,
          none, ?_, rfl⟩
        · rw [hfirst] at hinit
          exact (hinit.update hno.1 _).update hb _
        · change Function.update (Function.update _ _ _) b _ element = _
          rw [Function.update_of_ne hno.2, Function.update_self]
      · rw [List.map_append, List.map_append, List.nodup_append]
        refine ⟨by simpa using h.nodup, by simp, ?_⟩
        intro a ha a' ha'
        obtain rfl : a' = element := by simpa using ha'
        rintro rfl
        simp only [List.mem_append, List.map_cons, List.map_nil, List.mem_singleton] at ha
        exact ha.elim hno.1 hno.2

/-! ## §4  `sortedInsert` -/

/-- An entry goes before the first one with a larger key. -/
def Before (e e' : Entry α) : Prop := e.2.1 < e'.2.1

instance : DecidableRel (Before (α := α)) := fun e e' =>
  inferInstanceAs (Decidable (e.2.1 < e'.2.1))

/-- The loop finds the last entry before the place of the key, or runs to the end. -/
theorem findBefore_spec (sortKey : ℤ) : ∀ {fuel a : ℕ} {key : ℤ} {item : α}
    {es : List (Entry α)}, Path cells (some a) ((a, key, item) :: es) none →
    es.length < fuel →
    (findBefore cells sortKey fuel a = some none ∧ ∀ e ∈ es, ¬ sortKey < e.2.1) ∨
    ∃ init p k x n k' x' rest, (a, key, item) :: es =
        init ++ (p, k, x) :: (n, k', x') :: rest ∧
      findBefore cells sortKey fuel a = some (some (p, n)) ∧ sortKey < k' ∧
      ∀ e ∈ (init ++ [(p, k, x)]).tail, ¬ sortKey < e.2.1 := by
  intro fuel
  induction fuel with
  | zero => intro _ _ _ _ _ hlt; omega
  | succ fuel ih =>
      intro a key item es hpath hlt
      obtain ⟨-, next, hcell, hrest⟩ := hpath
      cases es with
      | nil =>
          obtain rfl : next = none := hrest
          exact Or.inl ⟨by simp [findBefore, hcell], by simp⟩
      | cons e es =>
          obtain ⟨b, k, x⟩ := e
          have hb := hrest
          obtain ⟨rfl, next', hcell', -⟩ := hb
          by_cases hk : sortKey < k
          · refine Or.inr ⟨[], a, key, item, b, k, x, es, rfl, ?_, hk, by simp⟩
            simp [findBefore, hcell, hcell', hk]
          · have hstep : findBefore cells sortKey (fuel + 1) a =
                findBefore cells sortKey fuel b := by
              simp [findBefore, hcell, hcell', hk]
            rw [hstep]
            rcases ih hrest (by simpa using hlt) with ⟨hend, hall⟩ |
              ⟨init, p, k₁, x₁, n, k', x', rest, heq, hfound, hlt', hall⟩
            · refine Or.inl ⟨hend, ?_⟩
              intro e he
              rcases List.mem_cons.mp he with rfl | he
              · exact hk
              · exact hall e he
            · refine Or.inr ⟨(a, key, item) :: init, p, k₁, x₁, n, k', x', rest, by rw [heq]; rfl,
                hfound, hlt', ?_⟩
              intro e he
              rw [List.cons_append, List.tail_cons] at he
              cases init with
              | nil =>
                  simp only [List.nil_append, List.cons.injEq, Prod.mk.injEq] at heq
                  obtain rfl : e = (p, k₁, x₁) := by simpa using he
                  simpa [← heq.1.2.1] using hk
              | cons e₁ init =>
                  rw [List.cons_append] at heq he
                  rcases List.mem_cons.mp he with rfl | he
                  · rw [← (List.cons.inj heq).1]
                    exact hk
                  · exact hall e he

/-- One more entry, with an address of its own. -/
theorem Represents.nodup_size_insert (h : l.Represents es) (he : e.1 ∉ es.map Prod.fst) :
    ((es.orderedInsert Before e).map Prod.fst).Nodup ∧
      l.size + 1 = (es.orderedInsert Before e).length := by
  have hperm := List.perm_orderedInsert Before e es
  constructor
  · rw [(hperm.map Prod.fst).nodup_iff]
    exact List.nodup_cons.mpr ⟨he, h.nodup⟩
  · rw [hperm.length_eq, h.size, List.length_cons]

/-- Into the middle: between `p` and the entry that `p` points to. -/
theorem Represents.link {init rest : List (Entry α)} {p n : ℕ} {k k' : ℤ} {x x' : α}
    (h : l.Represents (init ++ (p, k, x) :: (n, k', x') :: rest)) {element : ℕ}
    (hfree : l.cells element = none) (item : α) (key : ℤ) :
    ∃ cells, setNext (Function.update l.cells element (some ⟨item, key, some n⟩)) p
        (some element) = some cells ∧
      Path cells l.first (init ++ (p, k, x) :: (element, key, item) :: (n, k', x') :: rest)
        none := by
  have hno := h.fresh hfree
  have hnodup := h.nodup
  obtain ⟨r, hinit, rfl, next, hcell, hrest⟩ := path_append.mp h.path
  obtain rfl : next = some n := hrest.1
  simp only [List.map_append, List.map_cons, List.mem_append, List.mem_cons, not_or] at hno
  simp only [List.map_append, List.map_cons, List.nodup_append, List.nodup_cons,
    List.mem_cons, not_or] at hnodup
  have hp : p ∉ init.map Prod.fst := fun hmem => hnodup.2.2 p hmem p (Or.inl rfl) rfl
  have hp' : p ∉ ((n, k', x') :: rest).map Prod.fst := by simpa using hnodup.2.1.1
  have he' : element ∉ ((n, k', x') :: rest).map Prod.fst := by simpa using hno.2.2
  refine ⟨Function.update (Function.update l.cells element (some ⟨item, key, some n⟩)) p
    (some ⟨x, k, some element⟩), ?_, ?_⟩
  · rw [setNext, Function.update_of_ne (Ne.symm hno.2.1), hcell, Option.map_some]
  · refine path_append.mpr ⟨some p, (hinit.update hno.1 _).update hp _, rfl, some element,
      Function.update_self .., rfl, some n, ?_, (hrest.update he' _).update hp' _⟩
    rw [Function.update_of_ne hno.2.1, Function.update_self]

theorem represents_sortedInsert (h : l.Represents es) {element : ℕ}
    (hfree : l.cells element = none) (item : α) (key : ℤ) :
    ∃ l', l.sortedInsert element item key = some l' ∧
      l'.Represents (es.orderedInsert Before (element, key, item)) := by
  have hno := h.fresh hfree
  cases es with
  | nil =>
      have hfirst : l.first = none := h.path
      rw [sortedInsert, hfirst]
      exact represents_append h hfree item key
  | cons e es =>
  obtain ⟨a, k, x⟩ := e
  obtain ⟨hfirst, next, hcell, hrest⟩ := h.path
  simp only [sortedInsert, hfirst, Option.bind_eq_bind, hcell, Option.bind_some]
  obtain ⟨hnodup, hsize⟩ := h.nodup_size_insert (e := (element, key, item)) hno
  by_cases hk : key < k
  · -- in front
    have hbefore : Before (element, key, item) (a, k, x) := hk
    rw [if_pos hk]
    rw [List.orderedInsert_cons_of_le (r := Before) es hbefore] at hnodup hsize ⊢
    refine ⟨_, rfl, ⟨⟨rfl, some a, Function.update_self .., ?_⟩, ?_, hnodup, hsize⟩⟩
    · have hpath := h.path
      rw [hfirst] at hpath
      exact hpath.update hno _
    · rw [h.last]
      rfl
  rw [if_neg hk]
  have hpath := h.path
  rw [hfirst] at hpath
  have hfuel : es.length < l.size := by simp [h.size]
  rcases findBefore_spec key hpath hfuel with
    ⟨hend, hall⟩ | ⟨init, p, k₁, x₁, n, k', x', rest, heq, hfound, hlt, hall⟩
  · -- at the end
    rw [hend]
    have hbehind : (((a, k, x) :: es) ++ []).orderedInsert Before (element, key, item) =
        ((a, k, x) :: es) ++ [].orderedInsert Before (element, key, item) := by
      apply ArrivalOrder.orderedInsert_behind
      intro e' he'
      rcases List.mem_cons.mp he' with rfl | he'
      · exact hk
      · exact hall e' he'
    rw [List.append_nil, List.orderedInsert_nil] at hbehind
    rw [hbehind]
    exact represents_append h hfree item key
  · -- in the middle
    rw [hfound]
    have hhead : ∀ e' ∈ init ++ [(p, k₁, x₁)], ¬ Before (element, key, item) e' := by
      intro e' he'
      cases init with
      | nil =>
          obtain rfl : e' = (p, k₁, x₁) := by simpa using he'
          rw [List.nil_append] at heq
          rw [← (List.cons.inj heq).1]
          exact hk
      | cons e₁ init =>
          rw [List.cons_append] at heq he'
          rcases List.mem_cons.mp he' with rfl | he'
          · rw [← (List.cons.inj heq).1]
            exact hk
          · exact hall e' he'
    have hinsert : ((a, k, x) :: es).orderedInsert Before (element, key, item) =
        init ++ (p, k₁, x₁) :: (element, key, item) :: (n, k', x') :: rest := by
      have hbefore : Before (element, key, item) (n, k', x') := hlt
      rw [heq, List.append_cons,
        ArrivalOrder.orderedInsert_between (r := Before) hhead hbefore, List.append_assoc,
        List.singleton_append]
    rw [hinsert] at hnodup hsize ⊢
    rw [heq] at h
    obtain ⟨cells, hset, hlinked⟩ := h.link hfree item key
    refine ⟨⟨cells, some a, l.last, l.size + 1⟩, ?_, ⟨?_, ?_, hnodup, hsize⟩⟩
    · simp only [hset, Option.bind_some]
    · rw [← hfirst]
      exact hlinked
    · rw [h.last]
      simp [List.getLast?_append]

/-! ## §5  `sortedRemove` -/

theorem sortedRemove_nil (h : l.Represents []) : l.sortedRemove = some (none, l) := by
  have hfirst : l.first = none := h.path
  rw [sortedRemove, hfirst]

theorem represents_sortedRemove {a : ℕ} {key : ℤ} {item : α}
    (h : l.Represents ((a, key, item) :: es)) :
    ∃ l', l.sortedRemove = some (some (key, item), l') ∧ l'.Represents es := by
  obtain ⟨hfirst, next, hcell, hrest⟩ := h.path
  have hnodup := h.nodup
  rw [List.map_cons, List.nodup_cons] at hnodup
  have hpath := hrest.update hnodup.1 none
  have hsize : l.size - 1 = es.length := by rw [h.size, List.length_cons, Nat.add_sub_cancel]
  simp only [sortedRemove, hfirst, Option.bind_eq_bind, hcell, Option.bind_some]
  refine ⟨_, rfl, ?_⟩
  cases es with
  | nil =>
      have hlast : l.last = some a := h.last
      rw [if_pos hlast.symm]
      exact ⟨rfl, rfl, hnodup.2, hsize⟩
  | cons e es =>
      have hlast : l.last = ((e :: es).map Prod.fst).getLast? := by
        rw [h.last]
        rfl
      have hne : some a ≠ l.last := by
        intro heq
        rw [hlast] at heq
        exact hnodup.1 (List.mem_of_getLast? heq.symm)
      rw [if_neg hne]
      exact ⟨hpath, hlast, hnodup.2, hsize⟩

/-! ## §6  The keys and the items -/

/-- What the pointers lead through from `p` on, in at most `fuel` steps. -/
def walk (cells : ℕ → Option (Cell α)) : ℕ → Option ℕ → List (ℤ × α)
  | fuel + 1, some a =>
      match cells a with
      | some c => (c.key, c.item) :: walk cells fuel c.next
      | none => []
  | _, _ => []

/-- The keys and the items, first to last. -/
def toList (l : LinkedList α) : List (ℤ × α) := walk l.cells l.size l.first

/-- The pointers are in order. -/
def Valid (l : LinkedList α) : Prop := ∃ es, l.Represents es

theorem walk_eq (h : Path cells p es none) : walk cells es.length p = es.map Prod.snd := by
  induction es generalizing p with
  | nil => rfl
  | cons e es ih =>
      obtain ⟨a, key, item⟩ := e
      obtain ⟨rfl, next, hcell, hrest⟩ := h
      simp only [List.length_cons, walk, hcell, ih hrest, List.map_cons]

theorem Represents.toList (h : l.Represents es) : l.toList = es.map Prod.snd := by
  rw [LinkedList.toList, h.size, walk_eq h.path]

theorem valid_empty : (empty : LinkedList α).Valid := ⟨[], represents_empty⟩

theorem Valid.append (h : l.Valid) {element : ℕ} (hfree : l.cells element = none) (item : α)
    (key : ℤ) : ∃ l', l.append element item key = some l' ∧ l'.Valid ∧
      l'.toList = l.toList ++ [(key, item)] := by
  obtain ⟨es, hes⟩ := h
  obtain ⟨l', happend, hl'⟩ := represents_append hes hfree item key
  refine ⟨l', happend, ⟨_, hl'⟩, ?_⟩
  rw [hl'.toList, hes.toList, List.map_append, List.map_cons, List.map_nil]

theorem Valid.sortedInsert (h : l.Valid) {element : ℕ} (hfree : l.cells element = none)
    (item : α) (key : ℤ) : ∃ l', l.sortedInsert element item key = some l' ∧ l'.Valid ∧
      l'.toList = l.toList.orderedInsert ArrivalOrder.Before (key, item) := by
  obtain ⟨es, hes⟩ := h
  obtain ⟨l', hinsert, hl'⟩ := represents_sortedInsert hes hfree item key
  refine ⟨l', hinsert, ⟨_, hl'⟩, ?_⟩
  rw [hl'.toList, hes.toList]
  apply List.map_orderedInsert <;> exact fun _ _ => Iff.rfl

theorem Valid.sortedRemove_nil (h : l.Valid) (hnil : l.toList = []) :
    l.sortedRemove = some (none, l) := by
  obtain ⟨es, hes⟩ := h
  rw [hes.toList, List.map_eq_nil_iff] at hnil
  subst hnil
  exact LinkedList.sortedRemove_nil hes

theorem Valid.sortedRemove (h : l.Valid) {e : ℤ × α} {q : List (ℤ × α)}
    (hcons : l.toList = e :: q) :
    ∃ l', l.sortedRemove = some (some e, l') ∧ l'.Valid ∧ l'.toList = q := by
  obtain ⟨es, hes⟩ := h
  rw [hes.toList] at hcons
  cases es with
  | nil => cases hcons
  | cons e' es =>
      obtain ⟨a, key, item⟩ := e'
      obtain ⟨l', hremove, hl'⟩ := represents_sortedRemove hes
      rw [List.map_cons] at hcons
      obtain ⟨rfl, rfl⟩ := List.cons.inj hcons
      exact ⟨l', hremove, ⟨es, hl'⟩, hl'.toList⟩

end LinkedList
