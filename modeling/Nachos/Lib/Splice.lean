import Mathlib.Data.Nat.Notation

/-!
# Blocks in an array

An array without a bound is a function of the index, and `splice f start len g` is `f`
with the `len` cells from `start` on taken from `g`. Two arrays that hold the same
block, at different places, still hold the same block after the same change in it.
-/

namespace Lib

variable {α : Type*}

/-- The cells `start, .., start + len - 1` of `f` are replaced by `g 0, .., g (len - 1)`. -/
def splice (f : ℕ → α) (start len : ℕ) (g : ℕ → α) : ℕ → α :=
  fun a => if start ≤ a ∧ a < start + len then g (a - start) else f a

theorem splice_add {f g : ℕ → α} {start len k : ℕ} (hk : k < len) :
    splice f start len g (start + k) = g k := by
  have hin : start ≤ start + k ∧ start + k < start + len := by omega
  rw [splice, if_pos hin, Nat.add_sub_cancel_left]

theorem splice_front {f g : ℕ → α} {len k : ℕ} (hk : k < len) : splice f 0 len g k = g k := by
  have h : splice f 0 len g (0 + k) = g k := splice_add hk
  rwa [Nat.zero_add] at h

theorem splice_of_not_mem {f g : ℕ → α} {start len a : ℕ}
    (ha : ¬ (start ≤ a ∧ a < start + len)) : splice f start len g a = f a := if_neg ha

theorem splice_of_lt {f g : ℕ → α} {start len a : ℕ} (ha : a < start) :
    splice f start len g a = f a := splice_of_not_mem (by omega)

theorem splice_of_le {f g : ℕ → α} {start len a : ℕ} (ha : start + len ≤ a) :
    splice f start len g a = f a := splice_of_not_mem (by omega)

theorem splice_congr {f g g' : ℕ → α} {start len : ℕ} (h : ∀ k < len, g k = g' k) :
    splice f start len g = splice f start len g' := by
  funext a
  by_cases ha : start ≤ a ∧ a < start + len
  · simp only [splice, if_pos ha]
    exact h (a - start) (by omega)
  · simp only [splice, if_neg ha]

theorem splice_self (f : ℕ → α) (start len : ℕ) :
    splice f start len (fun k => f (start + k)) = f := by
  funext a
  by_cases ha : start ≤ a ∧ a < start + len
  · simp only [splice, if_pos ha]
    congr 1
    omega
  · simp only [splice, if_neg ha]

theorem splice_splice (f g g' : ℕ → α) (start len : ℕ) :
    splice (splice f start len g) start len g' = splice f start len g' := by
  funext a
  by_cases ha : start ≤ a ∧ a < start + len
  · simp only [splice, if_pos ha]
  · simp only [splice, if_neg ha]

theorem splice_zero (f g : ℕ → α) (start : ℕ) : splice f start 0 g = f := by
  funext a
  exact splice_of_not_mem (by omega)

/-- Two blocks that follow each other are one block. -/
theorem splice_append (f g : ℕ → α) (start len len' : ℕ) :
    splice f start (len + len') g =
      splice (splice f start len g) (start + len) len' fun k => g (len + k) := by
  funext a
  unfold splice
  by_cases hlt : a < start + len
  · by_cases hin : start ≤ a
    · rw [if_pos (by omega), if_neg (by omega), if_pos ⟨hin, hlt⟩]
    · rw [if_neg (by omega), if_neg (by omega), if_neg (by omega)]
  · by_cases hin : a < start + (len + len')
    · rw [if_pos (by omega), if_pos (by omega)]
      exact congrArg g (by omega)
    · rw [if_neg (by omega), if_neg (by omega), if_neg (by omega)]

/-- The first cell is written before the others. -/
theorem splice_succ (f g : ℕ → α) (start len : ℕ) :
    splice f start (len + 1) g =
      splice (splice f start 1 g) (start + 1) len fun k => g (k + 1) := by
  funext a
  unfold splice
  by_cases ha : a = start
  · subst ha
    rw [if_pos (by omega), if_neg (by omega), if_pos (by omega)]
  · by_cases hin : start ≤ a ∧ a < start + (len + 1)
    · rw [if_pos hin, if_pos (by omega), show a - start = a - (start + 1) + 1 by omega]
    · rw [if_neg hin, if_neg (by omega), if_neg (by omega)]

/-- The same change in two arrays that agree on a block, at the same place in it. -/
theorem splice_shift {f f' g : ℕ → α} {a a' off len k : ℕ} (h : f (a + k) = f' (a' + k)) :
    splice f (a + off) len g (a + k) = splice f' (a' + off) len g (a' + k) := by
  unfold splice
  by_cases hk : off ≤ k ∧ k < off + len
  · rw [if_pos (by omega), if_pos (by omega)]
    congr 1
    omega
  · rw [if_neg (by omega), if_neg (by omega), h]

/-- A change inside one of the blocks of a size leaves the others alone. -/
theorem splice_inside_block {f g : ℕ → α} {size i j off len k : ℕ} (hij : i ≠ j) (hk : k < size)
    (hlen : off + len ≤ size) :
    splice f (j * size + off) len g (i * size + k) = f (i * size + k) := by
  rcases Nat.lt_or_gt_of_ne hij with hlt | hgt
  · refine splice_of_lt ?_
    have : (i + 1) * size ≤ j * size := Nat.mul_le_mul_right size hlt
    rw [Nat.add_mul] at this
    omega
  · refine splice_of_le ?_
    have : (j + 1) * size ≤ i * size := Nat.mul_le_mul_right size hgt
    rw [Nat.add_mul] at this
    omega

theorem splice_block {f g : ℕ → α} {size i j k : ℕ} (hij : i ≠ j) (hk : k < size) :
    splice f (j * size) size g (i * size + k) = f (i * size + k) := by
  have hlen : 0 + size ≤ size := by omega
  have := splice_inside_block (f := f) (g := g) hij hk hlen
  rwa [Nat.add_zero] at this

end Lib
