import Mathlib.Algebra.Group.Nat.Defs
import Mathlib.Data.BitVec
import Mathlib.Tactic.Ring
import OsAssignments.MemoryManagement.Mips

/-!
# The arithmetic of the processor

- `multLoop_eq` — the loop of `Mult`, turn by turn.
- `mult_exact` — its result is the whole product, signed or unsigned, for all operands.
- `overflow_iff` — `ADD`, `ADDI` and `SUB` raise their exception exactly where the
  result does not fit, and no other instruction does.
-/

namespace OsAssignments.MemoryManagement

/-! ## §1  Double words -/

theorem toNat_append_word (hi lo : BitVec 32) :
    (hi ++ lo : BitVec (32 + 32)).toNat = hi.toNat * 4294967296 + lo.toNat := by
  rw [BitVec.toNat_append, ← Nat.shiftLeft_add_eq_or_of_lt lo.isLt, Nat.shiftLeft_eq]

/-- Addition of double words, with the carry as the loop finds it. -/
theorem append_add_carry (hi lo bHi bLo : BitVec 32) :
    ((if lo + bLo < bLo then hi + 1 else hi) + bHi) ++ (lo + bLo) =
      (hi ++ lo) + (bHi ++ bLo) := by
  apply BitVec.eq_of_toNat_eq
  rw [BitVec.toNat_add, toNat_append_word, toNat_append_word, toNat_append_word]
  have hlt : lo + bLo < bLo ↔ 4294967296 ≤ lo.toNat + bLo.toNat := by
    rw [BitVec.lt_def, BitVec.toNat_add]
    omega
  split
  · rename_i h
    rw [hlt] at h
    simp only [BitVec.toNat_add, BitVec.reduceToNat]
    omega
  · rename_i h
    rw [hlt] at h
    simp only [BitVec.toNat_add]
    omega

theorem and_signBit (x : BitVec 32) : x &&& SIGN_BIT = 0 ↔ x.msb = false := by
  have htwo : SIGN_BIT = BitVec.twoPow 32 31 := by decide
  rw [htwo, BitVec.and_twoPow, BitVec.msb_eq_getLsbD_last]
  cases x.getLsbD 31 with
  | false => simp
  | true => decide

theorem or_one_shiftLeft (x : BitVec 32) : x <<< 1 ||| 1#32 = x <<< 1 + 1#32 := by
  rw [BitVec.add_eq_or_of_and_eq_zero]
  apply BitVec.eq_of_getLsbD_eq
  intro i hi
  simp
  omega

theorem append_shiftLeft_one (bHi bLo : BitVec 32) :
    (bHi <<< 1 ||| if bLo &&& SIGN_BIT ≠ 0 then 1#32 else 0#32) ++ bLo <<< 1 =
      (bHi ++ bLo) + (bHi ++ bLo) := by
  have hor : (bHi <<< 1 ||| if bLo &&& SIGN_BIT ≠ 0 then 1#32 else 0#32) =
      bHi <<< 1 + if bLo.msb then 1#32 else 0#32 := by
    cases hm : bLo.msb with
    | false => simp [(and_signBit bLo).mpr hm]
    | true =>
        have hne : bLo &&& SIGN_BIT ≠ 0 := by
          intro h
          rw [(and_signBit bLo).mp h] at hm
          cases hm
        rw [if_pos hne, or_one_shiftLeft, if_pos rfl]
  rw [hor]
  apply BitVec.eq_of_toNat_eq
  rw [BitVec.toNat_add, toNat_append_word, toNat_append_word, BitVec.msb_eq_decide]
  simp only [BitVec.toNat_add, BitVec.toNat_shiftLeft, Nat.shiftLeft_eq, decide_eq_true_eq]
  split
  · rename_i h
    simp only [BitVec.reduceToNat]
    omega
  · simp only [BitVec.reduceToNat]
    omega

/-- The two's complement of a double word, as `Mult` computes it. -/
theorem append_neg (hi lo : BitVec 32) :
    (if ~~~lo + 1 = 0 then ~~~hi + 1 else ~~~hi) ++ (~~~lo + 1) = -(hi ++ lo) := by
  apply BitVec.eq_of_toNat_eq
  have h0 : ~~~lo + 1 = 0 ↔ lo.toNat = 0 := by
    constructor
    · intro h
      have := congrArg BitVec.toNat h
      simp only [BitVec.toNat_add, BitVec.toNat_not, BitVec.reduceToNat] at this
      have := lo.isLt
      omega
    · intro h
      have : lo = 0 := BitVec.eq_of_toNat_eq h
      subst this
      decide
  rw [BitVec.toNat_neg, toNat_append_word, toNat_append_word]
  have h1 := lo.isLt
  have h2 := hi.isLt
  split
  · rename_i h
    rw [h0] at h
    simp only [BitVec.toNat_add, BitVec.toNat_not, BitVec.reduceToNat]
    omega
  · rename_i h
    rw [h0] at h
    simp only [BitVec.toNat_add, BitVec.toNat_not, BitVec.reduceToNat]
    omega
/-! ## §2  Multiplication -/

theorem and_one (x : BitVec 32) : x &&& 1 = 0 ↔ x.toNat % 2 = 0 := by
  rw [← BitVec.toNat_inj, BitVec.toNat_and]
  simp [Nat.and_one_is_mod]

theorem and_not_one {x : BitVec 32} (h : x &&& 0xfffffffe = 0) : x.toNat < 2 := by
  have hzero : x >>> 1 = 0 := by
    apply BitVec.eq_of_getLsbD_eq
    intro i hi
    have hbit := congrArg (fun y => BitVec.getLsbD y (1 + i)) h
    rw [show (0xfffffffe : BitVec 32) = ~~~1#32 by decide] at hbit
    simp only [BitVec.getLsbD_and, BitVec.getLsbD_not, BitVec.getLsbD_one] at hbit
    by_cases hlt : 1 + i < 32
    · simpa [hlt] using hbit
    · rw [BitVec.getLsbD_ushiftRight, BitVec.getLsbD_of_ge _ _ (by omega)]
      simp
  have := congrArg BitVec.toNat hzero
  rw [BitVec.toNat_ushiftRight, Nat.shiftRight_eq_div_pow] at this
  have hnum : BitVec.toNat (0 : BitVec 32) = 0 := rfl
  omega

/-- The arithmetic shift of `a` goes unnoticed in the 32 turns that there are. -/
theorem sshiftRight_one_mod (a : BitVec 32) {n : ℕ} (hn : n ≤ 31) :
    (a.sshiftRight 1).toNat % 2 ^ n = a.toNat / 2 % 2 ^ n := by
  have hdvd : 2 ^ n ∣ 2147483648 := by
    rw [show 2147483648 = 2 ^ 31 by norm_num]
    exact Nat.pow_dvd_pow 2 hn
  have hlt := a.isLt
  rw [BitVec.toNat_sshiftRight]
  split
  · have hval : 2 ^ 32 - 1 - (2 ^ 32 - 1 - a.toNat) >>> 1 = a.toNat / 2 + 2147483648 := by
      rw [Nat.shiftRight_eq_div_pow]
      rename_i h
      omega
    rw [hval, Nat.add_mod, Nat.mod_eq_zero_of_dvd hdvd, Nat.add_zero, Nat.mod_mod]
  · rw [Nat.shiftRight_eq_div_pow, Nat.pow_one]

theorem multLoop_eq : ∀ n ≤ 32, ∀ a bLo bHi lo hi : BitVec 32,
    ((multLoop n a bLo bHi lo hi).1 ++ (multLoop n a bLo bHi lo hi).2 : BitVec (32 + 32)) =
      (hi ++ lo) + ((a.toNat % 2 ^ n : ℕ) : BitVec (32 + 32)) * (bHi ++ bLo) := by
  intro n
  induction n with
  | zero =>
      intro _ a bLo bHi lo hi
      simp [multLoop, Nat.mod_one]
  | succ n ih =>
      intro hn a bLo bHi lo hi
      have hbits : a.toNat % 2 ^ (n + 1) = a.toNat % 2 + 2 * ((a.sshiftRight 1).toNat % 2 ^ n) := by
        rw [sshiftRight_one_mod a (by omega), Nat.pow_succ', Nat.mod_mul]
      rw [hbits]
      unfold multLoop
      dsimp only
      split
      · rename_i hodd
        have hodd : a.toNat % 2 = 1 := by
          rw [Ne, and_one] at hodd
          omega
        split
        · rename_i hlast
          have hone : (a.sshiftRight 1).toNat % 2 ^ n = 0 := by
            have := and_not_one hlast
            rw [sshiftRight_one_mod a (by omega), Nat.div_eq_of_lt this, Nat.zero_mod]
          rw [append_add_carry, hone, hodd]
          simp
        · rw [ih (by omega), append_add_carry, append_shiftLeft_one, hodd]
          simp only [Nat.cast_add, Nat.cast_mul, Nat.cast_ofNat, Nat.cast_one]
          ring
      · rename_i heven
        have heven : a.toNat % 2 = 0 := by
          rw [← and_one]
          simpa using heven
        rw [ih (by omega), append_shiftLeft_one, heven]
        simp only [Nat.cast_add, Nat.cast_mul, Nat.cast_ofNat, Nat.cast_zero]
        ring

/-- The whole loop. -/
theorem multLoop_product (a b : BitVec 32) :
    ((multLoop 32 a b 0 0 0).1 ++ (multLoop 32 a b 0 0 0).2 : BitVec (32 + 32)) =
      ((a.toNat * b.toNat : ℕ) : BitVec (32 + 32)) := by
  have hzero : (0 : BitVec 32) ++ (0 : BitVec 32) = (0 : BitVec (32 + 32)) := rfl
  have hb : (0 : BitVec 32) ++ b = ((b.toNat : ℕ) : BitVec (32 + 32)) := by
    apply BitVec.eq_of_toNat_eq
    have := b.isLt
    rw [toNat_append_word, BitVec.natCast_eq_ofNat, BitVec.toNat_ofNat]
    simp only [BitVec.reduceToNat]
    omega
  rw [multLoop_eq 32 le_rfl, hzero, zero_add, hb, Nat.mod_eq_of_lt a.isLt, Nat.cast_mul]

/-- `a = -a` makes the magnitude, of the least integer too. -/
theorem toNat_magnitude (a : BitVec 32) :
    (if a.toInt < 0 then -a else a).toNat = a.toInt.natAbs := by
  have := a.isLt
  rw [BitVec.toInt_eq_toNat_cond]
  split
  · rw [if_neg (by omega)]
    omega
  · rw [if_pos (by omega), BitVec.toNat_neg]
    omega

theorem mult_unsigned (a b : BitVec 32) :
    ((mult a b false).1 ++ (mult a b false).2 : BitVec (32 + 32)).toNat =
      a.toNat * b.toNat := by
  unfold mult
  split
  · rename_i h
    rcases h with rfl | rfl <;> simp
  · have hlt : a.toNat * b.toNat < 2 ^ (32 + 32) := by
      rw [Nat.pow_add]
      exact Nat.mul_lt_mul'' a.isLt b.isLt
    simp only [Bool.false_and, Bool.false_eq_true, false_and, if_false]
    rw [multLoop_product, BitVec.natCast_eq_ofNat, BitVec.toNat_ofNat, Nat.mod_eq_of_lt hlt]

theorem toInt_mul_bounds (a b : BitVec 32) :
    -4611686018427387904 ≤ a.toInt * b.toInt ∧ a.toInt * b.toInt ≤ 4611686018427387904 := by
  have ha : a.toInt.natAbs ≤ 2147483648 := by
    have := BitVec.le_toInt a
    have := BitVec.toInt_lt (x := a)
    omega
  have hb : b.toInt.natAbs ≤ 2147483648 := by
    have := BitVec.le_toInt b
    have := BitVec.toInt_lt (x := b)
    omega
  have hmul := Nat.mul_le_mul ha hb
  rw [← Int.natAbs_mul] at hmul
  omega

/-- The sign that `Mult` puts on the product of the magnitudes. -/
theorem sign_mul (x y : ℤ) :
    x * y = if (decide (x < 0) ^^ decide (y < 0)) = true then -((x * y).natAbs : ℤ)
      else (x * y).natAbs := by
  split
  · rename_i h
    have hle : x * y ≤ 0 := by
      by_cases hx : x < 0
      · have hy : ¬ y < 0 := by simpa [hx] using h
        exact Int.mul_nonpos_of_nonpos_of_nonneg (by omega) (by omega)
      · have hy : y < 0 := by simpa [hx] using h
        exact Int.mul_nonpos_of_nonneg_of_nonpos (by omega) (by omega)
    omega
  · rename_i h
    have hge : 0 ≤ x * y := by
      by_cases hx : x < 0
      · have hy : y < 0 := by simpa [hx] using h
        exact Int.mul_nonneg_of_nonpos_of_nonpos (by omega) (by omega)
      · have hy : ¬ y < 0 := by simpa [hx] using h
        exact Int.mul_nonneg (by omega) (by omega)
    omega

theorem mult_signed (a b : BitVec 32) :
    ((mult a b true).1 ++ (mult a b true).2 : BitVec (32 + 32)).toInt =
      a.toInt * b.toInt := by
  have hofInt : ((mult a b true).1 ++ (mult a b true).2 : BitVec (32 + 32)) =
      BitVec.ofInt (32 + 32) (a.toInt * b.toInt) := by
    unfold mult
    split
    · rename_i h
      rcases h with rfl | rfl <;> simp
    · simp only [Bool.true_and, true_and]
      have hprod := multLoop_product (if a.toInt < 0 then -a else a)
        (if b.toInt < 0 then -b else b)
      rw [toNat_magnitude, toNat_magnitude, ← Int.natAbs_mul] at hprod
      rw [sign_mul a.toInt b.toInt]
      split
      · rw [append_neg, hprod, BitVec.ofInt_neg, BitVec.ofInt_natCast]
        rfl
      · rw [hprod, BitVec.ofInt_natCast]
        rfl
  obtain ⟨hl, hu⟩ := toInt_mul_bounds a b
  rw [hofInt, BitVec.toInt_ofInt]
  apply Int.bmod_eq_of_le <;> norm_num <;> omega

/-- **`Mult` is exact**: for all operands, the least integer among them, `Hi` and `Lo`
hold the whole product of the signed or of the unsigned operands. -/
theorem mult_exact (a b : BitVec 32) :
    ((mult a b true).1 ++ (mult a b true).2 : BitVec (32 + 32)).toInt = a.toInt * b.toInt ∧
      ((mult a b false).1 ++ (mult a b false).2 : BitVec (32 + 32)).toNat =
        a.toNat * b.toNat :=
  ⟨mult_signed a b, mult_unsigned a b⟩

example : mult 0x80000000 0xffffffff true = (0, 0x80000000) := by decide

/-! ## §3  Overflow -/

theorem xor_signBit (x y : BitVec 32) :
    (x ^^^ y) &&& SIGN_BIT = 0 ↔ (x.toInt < 0 ↔ y.toInt < 0) := by
  rw [and_signBit, BitVec.msb_xor, BitVec.msb_eq_toInt, BitVec.msb_eq_toInt]
  by_cases hx : x.toInt < 0 <;> by_cases hy : y.toInt < 0 <;> simp [hx, hy]

/-- A result that a signed word can hold. -/
def Fits (v : ℤ) : Prop := -2147483648 ≤ v ∧ v < 2147483648

instance (v : ℤ) : Decidable (Fits v) := inferInstanceAs (Decidable (_ ∧ _))

theorem toInt_ofInt_of_fits {v : ℤ} (h : Fits v) : (BitVec.ofInt 32 v).toInt = v := by
  unfold Fits at h
  rw [BitVec.toInt_ofInt]
  apply Int.bmod_eq_of_le <;> omega

theorem add_overflow_iff (x y : BitVec 32) :
    ((x ^^^ y) &&& SIGN_BIT = 0 ∧ (x ^^^ (x + y)) &&& SIGN_BIT ≠ 0) ↔
      ¬ Fits (x.toInt + y.toInt) := by
  have := BitVec.le_toInt x
  have := BitVec.toInt_lt (x := x)
  have := BitVec.le_toInt y
  have := BitVec.toInt_lt (x := y)
  rw [Ne, xor_signBit, xor_signBit, BitVec.toInt_add, Int.bmod_def, Fits]
  split <;> omega

theorem sub_overflow_iff (x y : BitVec 32) :
    ((x ^^^ y) &&& SIGN_BIT ≠ 0 ∧ (x ^^^ (x - y)) &&& SIGN_BIT ≠ 0) ↔
      ¬ Fits (x.toInt - y.toInt) := by
  have := BitVec.le_toInt x
  have := BitVec.toInt_lt (x := x)
  have := BitVec.le_toInt y
  have := BitVec.toInt_lt (x := y)
  rw [Ne, Ne, xor_signBit, xor_signBit, BitVec.toInt_sub, Int.bmod_def, Fits]
  split <;> omega

/-- The three instructions with an overflow check: the register that they assign and
the exact result. -/
def Instruction.checkedResult (i : Instruction) (r : Registers) :
    Option (Fin NumTotalRegs × ℤ) :=
  match i.opCode with
  | .OP_ADD => some (gpr i.rd, (r (gpr i.rs)).toInt + (r (gpr i.rt)).toInt)
  | .OP_ADDI => some (gpr i.rt, (r (gpr i.rs)).toInt + i.extra.toInt)
  | .OP_SUB => some (gpr i.rd, (r (gpr i.rs)).toInt - (r (gpr i.rt)).toInt)
  | _ => none

theorem ofInt_toInt_add (x y : BitVec 32) : x + y = BitVec.ofInt 32 (x.toInt + y.toInt) := by
  rw [BitVec.ofInt_add, BitVec.ofInt_toInt, BitVec.ofInt_toInt]

theorem ofInt_toInt_sub (x y : BitVec 32) : x - y = BitVec.ofInt 32 (x.toInt - y.toInt) := by
  rw [Int.sub_eq_add_neg, BitVec.ofInt_add, BitVec.ofInt_neg, BitVec.ofInt_toInt,
    BitVec.ofInt_toInt, BitVec.sub_eq_add_neg]

/-- An instruction with an overflow check. -/
theorem execute_checked {i : Instruction} {r : Registers} {dest : Fin NumTotalRegs} {v : ℤ}
    (h : i.checkedResult r = some (dest, v)) :
    i.execute r = if Fits v then .next [(dest, BitVec.ofInt 32 v)] (r NextPCReg + 4)
      else .raise .OverflowException 0 := by
  unfold Instruction.checkedResult at h
  split at h
  · rename_i hop
    cases h
    simp only [Instruction.execute, hop, add_overflow_iff, ← ofInt_toInt_add, ite_not]
  · rename_i hop
    cases h
    have hadd : i.extra + r (gpr i.rs) = r (gpr i.rs) + i.extra := BitVec.add_comm ..
    have hxor : i.extra ^^^ r (gpr i.rs) = r (gpr i.rs) ^^^ i.extra := BitVec.xor_comm ..
    have hover := add_overflow_iff i.extra (r (gpr i.rs))
    rw [hadd, hxor, Int.add_comm] at hover
    simp only [Instruction.execute, hop, hover, ← ofInt_toInt_add, ite_not]
  · rename_i hop
    cases h
    simp only [Instruction.execute, hop, sub_overflow_iff, ← ofInt_toInt_sub, ite_not]
  · cases h

/-- No other instruction overflows. -/
theorem execute_ne_overflow {i : Instruction} {r : Registers}
    (h : i.checkedResult r = none) (badVAddr : BitVec 32) :
    i.execute r ≠ .raise .OverflowException badVAddr := by
  unfold Instruction.checkedResult at h
  unfold Instruction.execute
  cases hop : i.opCode <;> simp only [hop, reduceCtorEq] at h ⊢
  all_goals
    repeat' split
    all_goals simp

/-- **When `OverflowException` is raised**: by `ADD`, `ADDI` and `SUB`, exactly where the
signed result does not fit in 32 bits; otherwise the register is assigned that result. -/
theorem overflow_iff (i : Instruction) (r : Registers) :
    (∀ badVAddr, i.execute r = .raise .OverflowException badVAddr ↔
      badVAddr = 0 ∧ ∃ dest v, i.checkedResult r = some (dest, v) ∧ ¬ Fits v) ∧
    ∀ dest v, i.checkedResult r = some (dest, v) → Fits v →
      ∃ w, w.toInt = v ∧ i.execute r = .next [(dest, w)] (r NextPCReg + 4) := by
  constructor
  · intro badVAddr
    cases hres : i.checkedResult r with
    | none => simp [execute_ne_overflow hres]
    | some p =>
        obtain ⟨dest, v⟩ := p
        rw [execute_checked hres]
        by_cases hfits : Fits v
        · rw [if_pos hfits]
          constructor
          · intro h
            cases h
          · rintro ⟨-, dest', v', heq, hno⟩
            cases heq
            exact absurd hfits hno
        · rw [if_neg hfits]
          constructor
          · intro h
            cases h
            exact ⟨rfl, dest, v, rfl, hfits⟩
          · rintro ⟨rfl, -⟩
            rfl
  · intro dest v hres hfits
    refine ⟨_, toInt_ofInt_of_fits hfits, ?_⟩
    rw [execute_checked hres, if_pos hfits]

end OsAssignments.MemoryManagement
