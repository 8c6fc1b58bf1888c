import Mathlib.Data.Int.ModEq
import Mathlib.Order.Bounds.Basic
import Mathlib.Tactic.Ring

/-!
# Rotation

A wheel with `N` slots that pass one after the other, each in `R` units of time: when the next slot
begins to pass, and when a given one does.
-/

namespace Lib

variable {R N : ℤ}

theorem isLeast_emod (hN : 0 < N) (c : ℤ) : IsLeast {y | 0 ≤ y ∧ y ≡ c [ZMOD N]} (c % N) := by
  refine ⟨⟨Int.emod_nonneg c hN.ne', Int.mod_modEq c N⟩, ?_⟩
  rintro y ⟨hy, hmod⟩
  rw [← Int.ModEq.eq hmod]
  have hdecomp := Int.mul_ediv_add_emod y N
  have hquot : 0 ≤ N * (y / N) := Int.mul_nonneg hN.le (Int.ediv_nonneg hy hN.le)
  omega

/-- The first time from `T` on at which a slot begins to pass. -/
def nextBoundary (R T : ℤ) : ℤ := T + -T % R

theorem isLeast_nextBoundary (hR : 0 < R) (T : ℤ) :
    IsLeast {x | R ∣ x ∧ T ≤ x} (nextBoundary R T) := by
  obtain ⟨⟨hnonneg, hmod⟩, hleast⟩ := isLeast_emod hR (-T)
  refine ⟨⟨?_, by unfold nextBoundary; omega⟩, ?_⟩
  · have hdvd := hmod.symm.dvd
    rwa [sub_neg_eq_add, add_comm] at hdvd
  · rintro x ⟨hdvd, hx⟩
    have hcongr : x - T ≡ -T [ZMOD R] := by
      rw [Int.modEq_iff_dvd, show -T - (x - T) = -x by omega]
      exact Int.dvd_neg.2 hdvd
    have := hleast ⟨sub_nonneg.2 hx, hcongr⟩
    unfold nextBoundary
    omega

/-- The slot begins to pass at the time `x`. -/
def Starts (R N slot x : ℤ) : Prop := R ∣ x ∧ x / R ≡ slot [ZMOD N]

/-- The first time from `T` on at which the slot begins to pass. -/
def nextStart (R N slot T : ℤ) : ℤ :=
  nextBoundary R T + (slot - nextBoundary R T / R) % N * R

theorem isLeast_nextStart (hR : 0 < R) (hN : 0 < N) (slot T : ℤ) :
    IsLeast {x | Starts R N slot x ∧ T ≤ x} (nextStart R N slot T) := by
  obtain ⟨⟨⟨k, hk⟩, hle⟩, hboundary⟩ := isLeast_nextBoundary hR T
  obtain ⟨⟨hnonneg, hmod⟩, hleast⟩ := isLeast_emod hN (slot - k)
  have hdiv : nextBoundary R T / R = k := by rw [hk, Int.mul_ediv_cancel_left _ hR.ne']
  have hstart : nextStart R N slot T = R * (k + (slot - k) % N) := by
    rw [nextStart, hdiv, hk]
    ring
  refine ⟨⟨⟨⟨_, hstart⟩, ?_⟩, ?_⟩, ?_⟩
  · rw [hstart, Int.mul_ediv_cancel_left _ hR.ne']
    simpa using hmod.add_left k
  · have : 0 ≤ (slot - k) % N * R := Int.mul_nonneg hnonneg hR.le
    unfold nextStart
    rw [hdiv]
    omega
  · rintro x ⟨⟨⟨j, rfl⟩, hslot⟩, hx⟩
    rw [Int.mul_ediv_cancel_left _ hR.ne'] at hslot
    have hkj : k ≤ j := by
      have := hboundary ⟨⟨j, rfl⟩, hx⟩
      rw [hk] at this
      exact Int.le_of_mul_le_mul_left this hR
    have := hleast ⟨sub_nonneg.2 hkj, hslot.sub_right k⟩
    rw [hstart]
    exact Int.mul_le_mul_of_nonneg_left (by omega) hR.le

end Lib
