import Mathlib.Algebra.Group.Basic
import Mathlib.Algebra.Order.Group.Nat
import Mathlib.Data.BitVec
import Mathlib.Tactic.Linarith
import Mathlib.Tactic.Ring

/-!
# Numbers of two words

A number of two words is `hi ++ lo`. Its sum, its double and its negative are computed a word at a
time, with a carry between the words, and a product is a sum of doubles.
-/

namespace Lib

/-! ## Shift and add -/

/-- The sum of `acc` and of those doubles of `b` that the `n` low bits of `a` select. -/
def shiftAdd {M : Type*} [AddMonoid M] : ℕ → ℕ → M → M → M
  | 0, _, _, acc => acc
  | n + 1, a, b, acc => shiftAdd n (a / 2) (b + b) (if a % 2 = 1 then acc + b else acc)

theorem shiftAdd_eq {M : Type*} [AddCommMonoid M] (n a : ℕ) (b acc : M) :
    shiftAdd n a b acc = acc + (a % 2 ^ n) • b := by
  induction n generalizing a b acc with
  | zero => simp [shiftAdd, Nat.mod_one]
  | succ n ih =>
      have hmod : a % 2 ^ (n + 1) = a % 2 + (a / 2 % 2 ^ n) * 2 := by
        rw [pow_succ', Nat.mod_mul]
        ring
      have htwo : (a / 2 % 2 ^ n) • (b + b) = ((a / 2 % 2 ^ n) * 2) • b := by
        rw [mul_nsmul', two_nsmul]
      rw [shiftAdd, ih, htwo, hmod, add_nsmul, ← add_assoc]
      rcases Nat.mod_two_eq_zero_or_one a with h | h
      · rw [h, if_neg Nat.zero_ne_one, zero_nsmul, add_zero]
      · rw [h, if_pos rfl, one_nsmul]

/-- No bit of `a` is left, and nothing is added any more. -/
theorem shiftAdd_zero {M : Type*} [AddCommMonoid M] (n : ℕ) (b acc : M) :
    shiftAdd n 0 b acc = acc := by
  rw [shiftAdd_eq, Nat.zero_mod, zero_nsmul, add_zero]

/-! ## Word by word -/

variable {v w : ℕ}

theorem toNat_append_eq (hi : BitVec v) (lo : BitVec w) :
    (hi ++ lo).toNat = hi.toNat * 2 ^ w + lo.toNat := by
  rw [BitVec.toNat_append, Nat.shiftLeft_eq, Nat.mul_comm, Nat.two_pow_add_eq_or_of_lt lo.isLt]

theorem ofNat_mul_add {x y : ℕ} (hy : y < 2 ^ w) :
    BitVec.ofNat (w + w) (x * 2 ^ w + y) = BitVec.ofNat w x ++ BitVec.ofNat w y := by
  apply BitVec.eq_of_toNat_eq
  have hlow : (x * 2 ^ w + y) % 2 ^ w = y := by
    rw [Nat.mul_comm, Nat.mul_add_mod, Nat.mod_eq_of_lt hy]
  have hhigh : (x * 2 ^ w + y) / 2 ^ w = x := by
    rw [Nat.mul_comm, Nat.mul_add_div (Nat.two_pow_pos w), Nat.div_eq_of_lt hy, add_zero]
  rw [toNat_append_eq, BitVec.toNat_ofNat, BitVec.toNat_ofNat, BitVec.toNat_ofNat, pow_add,
    Nat.mod_mul, hlow, hhigh, Nat.mod_eq_of_lt hy]
  ring

theorem append_eq_ofNat (hi lo : BitVec w) :
    hi ++ lo = BitVec.ofNat (w + w) (hi.toNat * 2 ^ w + lo.toNat) := by
  rw [ofNat_mul_add lo.isLt, BitVec.ofNat_toNat, BitVec.ofNat_toNat, BitVec.setWidth_eq,
    BitVec.setWidth_eq]

/-- The carry out of `lo + bLo`: a sum that wraps around is below its summands. -/
def carry (lo bLo : BitVec w) : BitVec w := if (lo + bLo).ult bLo then 1#w else 0#w

theorem carry_eq (lo bLo : BitVec w) :
    carry lo bLo = if 2 ^ w ≤ lo.toNat + bLo.toNat then 1#w else 0#w := by
  have hlo := lo.isLt
  have hbLo := bLo.isLt
  have hsum : (lo + bLo).toNat = (lo.toNat + bLo.toNat) % 2 ^ w := BitVec.toNat_add lo bLo
  simp only [carry, BitVec.ult_eq_decide, decide_eq_true_eq]
  by_cases hover : 2 ^ w ≤ lo.toNat + bLo.toNat
  · rw [Nat.mod_eq_sub_mod hover, Nat.mod_eq_of_lt (by omega)] at hsum
    rw [if_pos hover, if_pos (by omega)]
  · rw [Nat.mod_eq_of_lt (by omega)] at hsum
    rw [if_neg hover, if_neg (by omega)]

theorem toNat_add_toNat (lo bLo : BitVec w) :
    lo.toNat + bLo.toNat = (carry lo bLo).toNat * 2 ^ w + (lo + bLo).toNat := by
  have hlo := lo.isLt
  have hbLo := bLo.isLt
  rw [carry_eq, BitVec.toNat_add]
  by_cases hover : 2 ^ w ≤ lo.toNat + bLo.toNat
  · have hone : (1#w).toNat = 1 := BitVec.toNat_one <| by
      rcases Nat.eq_zero_or_pos w with rfl | hw <;> omega
    rw [if_pos hover, hone, Nat.mod_eq_sub_mod hover, Nat.mod_eq_of_lt (by omega)]
    omega
  · rw [if_neg hover, Nat.mod_eq_of_lt (by omega)]
    simp

theorem append_add_append (hi lo bHi bLo : BitVec w) :
    (hi ++ lo) + (bHi ++ bLo) = (hi + carry lo bLo + bHi) ++ (lo + bLo) := by
  have hsum : hi.toNat * 2 ^ w + lo.toNat + (bHi.toNat * 2 ^ w + bLo.toNat) =
      (hi.toNat + (carry lo bLo).toNat + bHi.toNat) * 2 ^ w + (lo + bLo).toNat := by
    have := toNat_add_toNat lo bLo
    linarith
  rw [append_eq_ofNat, append_eq_ofNat bHi, ← BitVec.ofNat_add, hsum, ofNat_mul_add (lo + bLo).isLt]
  simp only [BitVec.ofNat_add, BitVec.ofNat_toNat, BitVec.setWidth_eq]

/-- A number carries when it is doubled if its top bit is set. -/
theorem carry_self (bLo : BitVec w) : carry bLo bLo = if bLo.msb then 1#w else 0#w := by
  have hlt := bLo.isLt
  rcases Nat.eq_zero_or_pos w with rfl | hw
  · exact BitVec.eq_of_zero_length rfl
  · have hpow : 2 ^ w = 2 * 2 ^ (w - 1) := by
      rw [← pow_succ', Nat.sub_add_cancel hw]
    have hiff : 2 ^ w ≤ bLo.toNat + bLo.toNat ↔ bLo.msb = true := by
      rw [BitVec.msb_eq_decide, decide_eq_true_eq]
      omega
    simp only [carry_eq, hiff]

theorem shiftLeft_one_or_one (x : BitVec w) : x <<< 1 ||| 1#w = x <<< 1 + 1#w := by
  rw [BitVec.add_eq_or_of_and_eq_zero]
  ext i hi
  rcases i with _ | i <;> simp

theorem shiftLeft_one_eq_add (x : BitVec w) : x <<< 1 = x + x := by
  apply BitVec.eq_of_toNat_eq
  rw [BitVec.toNat_shiftLeft, BitVec.toNat_add, Nat.shiftLeft_eq, pow_one, Nat.mul_two]

theorem append_add_self (bHi bLo : BitVec w) :
    (bHi ++ bLo) + (bHi ++ bLo) =
      (if bLo.msb then bHi <<< 1 ||| 1#w else bHi <<< 1) ++ (bLo <<< 1) := by
  rw [append_add_append, carry_self, shiftLeft_one_or_one, shiftLeft_one_eq_add bHi,
    shiftLeft_one_eq_add bLo]
  split
  · rw [add_right_comm]
  · rw [BitVec.add_zero]

theorem neg_append (hi lo : BitVec w) :
    -(hi ++ lo) = (if ~~~lo + 1#w = 0#w then ~~~hi + 1#w else ~~~hi) ++ (~~~lo + 1#w) := by
  rcases Nat.eq_zero_or_pos w with rfl | hw
  · exact BitVec.eq_of_zero_length rfl
  · have hone : 1#(w + w) = 0#w ++ 1#w := by
      apply BitVec.eq_of_toNat_eq
      rw [toNat_append_eq, BitVec.toNat_one hw, BitVec.toNat_one (by omega)]
      simp
    have hcarry : carry (~~~lo) 1#w = if ~~~lo + 1#w = 0#w then 1#w else 0#w := by
      simp only [carry, BitVec.ult_iff_lt, BitVec.lt_one_iff hw]
    rw [BitVec.neg_eq_not_add, BitVec.not_append, hone, append_add_append, hcarry, BitVec.add_zero]
    split
    · rfl
    · rw [BitVec.add_zero]

end Lib
