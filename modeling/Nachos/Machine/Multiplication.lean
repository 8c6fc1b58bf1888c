import Nachos.Machine.Mips
import Nachos.Lib.DoubleWord

/-!
# The simulated multiplication

The loop of `Mult` adds doubles of `b` to a number of two words. An arithmetic shift fills the
multiplier up with copies of its sign from above, and the 32 iterations do not come to see them.
-/

namespace Nachos

namespace Mips

open Lib

theorem and_twoPow_ne_zero_iff (x : BitVec 32) {i : ℕ} (hi : i < 32) :
    x &&& BitVec.twoPow 32 i ≠ 0#32 ↔ x.getLsbD i = true := by
  have hne : BitVec.twoPow 32 i ≠ 0#32 := by
    intro h
    have := congrArg (BitVec.getLsbD · i) h
    simp [hi] at this
  rw [BitVec.and_twoPow]
  cases x.getLsbD i <;> simp [hne]

theorem and_signBit_ne_zero_iff (x : BitVec 32) : x &&& 0x80000000#32 ≠ 0#32 ↔ x.msb = true := by
  rw [BitVec.msb_eq_getLsbD_last]
  exact and_twoPow_ne_zero_iff x (by decide : 31 < 32)

theorem and_one_ne_zero_iff (x : BitVec 32) : x &&& 1#32 ≠ 0#32 ↔ x.toNat % 2 = 1 := by
  have hbit := and_twoPow_ne_zero_iff x (by decide : 0 < 32)
  rwa [BitVec.twoPow_zero, BitVec.getLsbD, Nat.testBit_zero, decide_eq_true_eq] at hbit

/-- The test with which `Mult` leaves its loop. -/
theorem eq_one_of_and {a : BitVec 32} (hodd : a &&& 1#32 ≠ 0#32)
    (h : a &&& 0xfffffffe#32 = 0#32) : a = 1#32 := by
  have hsplit : a = (a &&& 1#32) ||| (a &&& 0xfffffffe#32) := by
    rw [← BitVec.and_or_distrib_left, show 1#32 ||| 0xfffffffe#32 = BitVec.allOnes 32 by decide,
      BitVec.and_allOnes]
  have hlow : a &&& 1#32 = 1#32 := by
    apply BitVec.eq_of_toNat_eq
    rw [BitVec.toNat_and]
    simpa [Nat.and_one_is_mod] using (and_one_ne_zero_iff a).1 hodd
  rw [hsplit, h, hlow, BitVec.or_zero]

/-- A step of the loop goes to the next bit of the multiplier. -/
theorem sshiftRight_one_mod (a : BitVec 32) {n : ℕ} (hn : n < 32) :
    (a.sshiftRight 1).toNat % 2 ^ n = a.toNat % 2 ^ (n + 1) / 2 := by
  apply Nat.eq_of_testBit_eq
  intro i
  rw [Nat.testBit_mod_two_pow, Nat.testBit_div_two, Nat.testBit_mod_two_pow, BitVec.testBit_toNat,
    BitVec.testBit_toNat, BitVec.getLsbD_sshiftRight]
  by_cases hi : i < n
  · have hlt : i + 1 < 32 := by omega
    have hge : ¬ 32 ≤ i := by omega
    simp [-BitVec.getLsbD_eq_getElem, hi, hlt, hge, Nat.add_comm 1 i]
  · simp [hi]

/-- An iteration on numbers of two words, with what it adds and whether it is the last one. -/
theorem multLoop_succ (n : ℕ) (a bLo bHi lo hi : BitVec 32) :
    multLoop (n + 1) a bLo bHi lo hi =
      if a &&& 1#32 ≠ 0#32 then
        if a &&& 0xfffffffe#32 = 0#32 then (hi + carry lo bLo + bHi, lo + bLo)
        else multLoop n (a.sshiftRight 1) (bLo <<< 1)
          (if bLo.msb then bHi <<< 1 ||| 1#32 else bHi <<< 1) (lo + bLo) (hi + carry lo bLo + bHi)
      else multLoop n (a.sshiftRight 1) (bLo <<< 1)
        (if bLo.msb then bHi <<< 1 ||| 1#32 else bHi <<< 1) lo hi := by
  rw [multLoop]
  simp only [and_signBit_ne_zero_iff]
  by_cases h : a &&& 1#32 = 0#32
  · simp only [ne_eq, h, not_true_eq_false, false_and, ↓reduceIte]
  · simp only [ne_eq, h, not_false_eq_true, true_and, ↓reduceIte, carry]

theorem multLoop_eq (n : ℕ) (hn : n ≤ 32) (a bLo bHi lo hi : BitVec 32) :
    (multLoop n a bLo bHi lo hi).1 ++ (multLoop n a bLo bHi lo hi).2 =
      shiftAdd n (a.toNat % 2 ^ n) (bHi ++ bLo) (hi ++ lo) := by
  induction n generalizing a bLo bHi lo hi with
  | zero => rfl
  | succ n ih =>
      have hodd : a.toNat % 2 ^ (n + 1) % 2 = 1 ↔ a &&& 1#32 ≠ 0#32 := by
        rw [and_one_ne_zero_iff, Nat.mod_mod_of_dvd _ (dvd_pow_self 2 n.succ_ne_zero)]
      have hrest := ih (by omega) (a.sshiftRight 1) (bLo <<< 1)
        (if bLo.msb then bHi <<< 1 ||| 1#32 else bHi <<< 1)
      rw [sshiftRight_one_mod a (by omega)] at hrest
      rw [shiftAdd, append_add_self, append_add_append, multLoop_succ]
      by_cases h : a &&& 1#32 ≠ 0#32
      · rw [if_pos h, if_pos (hodd.2 h)]
        by_cases hlast : a &&& 0xfffffffe#32 = 0#32
        · -- the loop is left, and the bits of `a` that are not seen are zero
          have hzero : a.toNat % 2 ^ (n + 1) / 2 = 0 := by
            rw [eq_one_of_and h hlast]
            exact Nat.div_eq_of_lt (by simp)
          rw [if_pos hlast, hzero, shiftAdd_zero]
        · rw [if_neg hlast, hrest]
      · rw [if_neg h, if_neg (mt hodd.1 h), hrest]

/-- What the loop leaves after its 32 iterations. -/
theorem multLoop_toNat (x y : BitVec 32) :
    ((multLoop 32 x y 0#32 0#32 0#32).1 ++ (multLoop 32 x y 0#32 0#32 0#32).2).toNat =
      x.toNat * y.toNat := by
  have hx := x.isLt
  have hlt : x.toNat * y.toNat < 2 ^ 32 * 2 ^ 32 := Nat.mul_lt_mul'' hx y.isLt
  have hy : (0#32 ++ y).toNat = y.toNat := by
    rw [toNat_append_eq]
    simp
  rw [multLoop_eq 32 le_rfl, shiftAdd_eq, Nat.mod_mod, Nat.mod_eq_of_lt hx, BitVec.zero_append_zero,
    BitVec.zero_add, nsmul_eq_mul, BitVec.toNat_mul, hy, BitVec.natCast_eq_ofNat,
    BitVec.toNat_ofNat, Nat.mod_eq_of_lt (by omega : x.toNat < 2 ^ (32 + 32)),
    Nat.mod_eq_of_lt (by omega)]

/-- The operand that `Mult` works with in signed arithmetic. The least number is its own negative,
and that is its absolute value as an unsigned word. -/
theorem toNat_neg_if (x : BitVec 32) :
    (if x.slt 0#32 then -x else x).toNat = x.toInt.natAbs := by
  have hlt := x.isLt
  rw [BitVec.slt_zero_eq_msb, BitVec.msb_eq_decide]
  by_cases h : 2 ^ 31 ≤ x.toNat
  · simp only [h, decide_true, if_true, BitVec.toNat_neg, BitVec.toInt_eq_toNat_cond]
    omega
  · simp only [h, decide_false, BitVec.toInt_eq_toNat_cond]
    rw [if_neg (by decide)]
    omega

theorem mult_unsigned (a b : BitVec 32) :
    ((mult a b false).1 ++ (mult a b false).2).toNat = a.toNat * b.toNat := by
  by_cases h : a = 0#32 ∨ b = 0#32
  · rw [mult, if_pos h]
    rcases h with rfl | rfl <;> simp
  · simp [mult, if_neg h, multLoop_toNat]

theorem slt_zero_iff (x : BitVec 32) : x.slt 0#32 = true ↔ x.toInt < 0 := by
  rw [BitVec.slt_iff_toInt_lt, BitVec.toInt_zero]

theorem natAbs_toInt_le (x : BitVec 32) : x.toInt.natAbs ≤ 2 ^ 31 := by
  have hlo := BitVec.le_toInt x
  have hhi := BitVec.toInt_lt (x := x)
  omega

theorem mult_signed (a b : BitVec 32) :
    ((mult a b true).1 ++ (mult a b true).2).toInt = a.toInt * b.toInt := by
  by_cases h : a = 0#32 ∨ b = 0#32
  · rw [mult, if_pos h]
    rcases h with rfl | rfl <;> simp
  · have hprod := multLoop_toNat (if a.slt 0#32 then -a else a) (if b.slt 0#32 then -b else b)
    rw [toNat_neg_if, toNat_neg_if, ← Int.natAbs_mul] at hprod
    have hsmall : (a.toInt * b.toInt).natAbs ≤ 2 ^ 31 * 2 ^ 31 := by
      rw [Int.natAbs_mul]
      exact Nat.mul_le_mul (natAbs_toInt_le a) (natAbs_toInt_le b)
    rw [mult, if_neg h]
    simp only [Bool.true_and]
    generalize multLoop 32 (if a.slt 0#32 then -a else a) (if b.slt 0#32 then -b else b) 0#32 0#32
      0#32 = p at hprod ⊢
    have hint : (p.1 ++ p.2).toInt = ((a.toInt * b.toInt).natAbs : ℤ) := by
      rw [BitVec.toInt_eq_toNat_of_lt (by omega), hprod]
    by_cases hsign : (a.slt 0#32 != b.slt 0#32) = true
    · have hneg : a.toInt * b.toInt ≤ 0 := by
        rw [bne_iff_ne, ne_eq, Bool.eq_iff_iff, slt_zero_iff, slt_zero_iff] at hsign
        rcases Int.lt_or_le a.toInt 0 with ha | ha
        · exact Int.mul_nonpos_of_nonpos_of_nonneg ha.le (by omega)
        · exact Int.mul_nonpos_of_nonneg_of_nonpos ha (by omega)
      have hmin : p.1 ++ p.2 ≠ BitVec.intMin (32 + 32) := by
        intro heq
        rw [heq] at hint
        have : (BitVec.intMin (32 + 32)).toInt = -2 ^ 63 := by decide
        omega
      rw [if_pos hsign]
      change (((if ~~~p.2 + 1#32 = 0#32 then ~~~p.1 + 1#32 else ~~~p.1) ++
        (~~~p.2 + 1#32)).toInt = _)
      rw [← neg_append, BitVec.toInt_neg_of_ne_intMin hmin, hint]
      omega
    · have hnonneg : 0 ≤ a.toInt * b.toInt := by
        rw [bne_iff_ne, ne_eq, not_not, Bool.eq_iff_iff, slt_zero_iff, slt_zero_iff] at hsign
        rcases Int.lt_or_le a.toInt 0 with ha | ha
        · exact Int.mul_nonneg_of_nonpos_of_nonpos ha.le (hsign.1 ha).le
        · exact Int.mul_nonneg ha (by omega)
      rw [if_neg hsign, hint]
      omega

/-- `Mult` stores the product of the two words, read as signed or as unsigned numbers. -/
theorem mult_exact (a b : BitVec 32) :
    ((mult a b true).1 ++ (mult a b true).2).toInt = a.toInt * b.toInt ∧
      ((mult a b false).1 ++ (mult a b false).2).toNat = a.toNat * b.toNat :=
  ⟨mult_signed a b, mult_unsigned a b⟩

end Mips

end Nachos
