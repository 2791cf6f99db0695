import OsAssignments.Lib.PartialMachine

/-!
# Flat memory, as a log of loads and stores

Clients of type `ι` load and store runs of bytes, each at addresses of its own.
A flat memory answers every load with the bytes that the client stored last;
`Flat` says so of a log, for the bytes that the client has stored at all.
-/

namespace MemoryLog

variable {ι β : Type*} [DecidableEq ι]

inductive Access (ι β : Type*) where
  | load (p : ι) (a : ℕ) (bytes : List β)
  | store (p : ι) (a : ℕ) (bytes : List β)
deriving DecidableEq, Repr

/-- The byte that one access leaves at address `a` of client `p`. -/
def Access.stores (p : ι) (a : ℕ) : Access ι β → Option β
  | .load _ _ _ => none
  | .store q a₀ bytes => if q = p ∧ a₀ ≤ a then bytes[a - a₀]? else none

/-- The byte that client `p` stored last at address `a`. -/
def lastStored (l : List (Access ι β)) (p : ι) (a : ℕ) : Option β :=
  l.foldl (fun b e => (e.stores p a).or b) none

/-- **Flat memory**: what a load returns is what was stored last. -/
def Flat (l : List (Access ι β)) : Prop :=
  PartialMachine.LogAll (fun pre e =>
    match e with
    | .load p a bytes =>
        ∀ i < bytes.length, ∀ b, lastStored pre p (a + i) = some b → bytes[i]? = some b
    | .store _ _ _ => True) l

@[simp] theorem lastStored_nil (p : ι) (a : ℕ) :
    lastStored ([] : List (Access ι β)) p a = none := rfl

theorem lastStored_snoc (l : List (Access ι β)) (e : Access ι β) (p : ι) (a : ℕ) :
    lastStored (l ++ [e]) p a = (e.stores p a).or (lastStored l p a) := by
  simp [lastStored]

@[simp] theorem lastStored_snoc_load (l : List (Access ι β)) (q : ι) (a₀ : ℕ)
    (bytes : List β) (p : ι) (a : ℕ) :
    lastStored (l ++ [.load q a₀ bytes]) p a = lastStored l p a := by
  simp [lastStored_snoc, Access.stores]

/-- A store by one client is not seen by the others. -/
theorem lastStored_snoc_store_ne (l : List (Access ι β)) {p q : ι} (a₀ : ℕ)
    (bytes : List β) (a : ℕ) (h : q ≠ p) :
    lastStored (l ++ [.store q a₀ bytes]) p a = lastStored l p a := by
  simp [lastStored_snoc, Access.stores, h]

theorem lastStored_snoc_store (l : List (Access ι β)) (p : ι) (a₀ : ℕ)
    (bytes : List β) (a : ℕ) :
    lastStored (l ++ [.store p a₀ bytes]) p a =
      if a₀ ≤ a ∧ a < a₀ + bytes.length then bytes[a - a₀]?
      else lastStored l p a := by
  rw [lastStored_snoc, Access.stores]
  by_cases hle : a₀ ≤ a
  · by_cases hlt : a < a₀ + bytes.length
    · have hin : a - a₀ < bytes.length := by omega
      simp [hle, hlt, List.getElem?_eq_getElem hin]
    · have hout : bytes.length ≤ a - a₀ := by omega
      simp [hle, hlt, List.getElem?_eq_none hout]
  · simp [hle]

theorem flat_nil : Flat ([] : List (Access ι β)) := PartialMachine.logAll_nil _

theorem Flat.store {l : List (Access ι β)} (h : Flat l) (p : ι) (a : ℕ)
    (bytes : List β) : Flat (l ++ [.store p a bytes]) :=
  PartialMachine.logAll_snoc.mpr ⟨h, trivial⟩

/-- A load that agrees with what was stored last may be appended. -/
theorem Flat.load {l : List (Access ι β)} (h : Flat l) {p : ι} {a : ℕ}
    {bytes : List β}
    (hload : ∀ i < bytes.length, ∀ b, lastStored l p (a + i) = some b →
      bytes[i]? = some b) : Flat (l ++ [.load p a bytes]) :=
  PartialMachine.logAll_snoc.mpr ⟨h, hload⟩

end MemoryLog
