import Mathlib.Data.Nat.Count

/-!
# Counting below a bound

`Nat.count p n` when the predicate changes at one place.
-/

namespace Lib

variable {p q : ℕ → Prop} [DecidablePred p] [DecidablePred q] {n t : ℕ}

theorem count_congr (h : ∀ u < n, p u ↔ q u) : Nat.count p n = Nat.count q n := by
  induction n with
  | zero => simp
  | succ n ih =>
      rw [Nat.count_succ, Nat.count_succ, ih fun u hu => h u (hu.trans n.lt_succ_self)]
      simp [h n n.lt_succ_self]

/-- What the count loses and gains when the predicate changes at `t` only. -/
theorem count_change (ht : t < n) (h : ∀ u, u ≠ t → (p u ↔ q u)) :
    Nat.count q n + (if p t then 1 else 0) = Nat.count p n + (if q t then 1 else 0) := by
  induction n with
  | zero => cases ht
  | succ n ih =>
      rw [Nat.count_succ, Nat.count_succ]
      by_cases htn : t = n
      · subst htn
        rw [count_congr fun u hu => h u hu.ne]
        omega
      · have hlt : t < n := lt_of_le_of_ne (Nat.le_of_lt_succ ht) htn
        have hn : p n ↔ q n := h n (Ne.symm htn)
        have := ih hlt
        simp only [hn]
        omega

theorem count_enter (ht : t < n) (h : ∀ u, u ≠ t → (p u ↔ q u)) (hp : ¬ p t) (hq : q t) :
    Nat.count q n = Nat.count p n + 1 := by
  simpa [hp, hq] using count_change ht h

/-- One member may be lost. -/
theorem count_le_succ (ht : t < n) (h : ∀ u, u ≠ t → p u → q u) :
    Nat.count p n ≤ Nat.count q n + 1 := by
  have hmono : Nat.count (fun u => p u ∧ u ≠ t) n ≤ Nat.count q n :=
    Nat.count_mono_left fun u _ hu => h u hu.2 hu.1
  have hchange := count_change (q := fun u => p u ∧ u ≠ t) (p := p) ht (by simp +contextual)
  split at hchange <;> split at hchange <;> omega

/-- One member is new. -/
theorem succ_count_le (ht : t < n) (h : ∀ u, p u → q u) (hp : ¬ p t) (hq : q t) :
    Nat.count p n + 1 ≤ Nat.count q n := by
  have hmono : Nat.count (fun u => p u ∨ u = t) n ≤ Nat.count q n := by
    refine Nat.count_mono_left ?_
    rintro u - (hu | rfl)
    · exact h u hu
    · exact hq
  have henter := count_enter (q := fun u => p u ∨ u = t) (p := p) ht (by simp +contextual) hp
    (.inr rfl)
  omega

/-- Nobody is counted above the bound. -/
theorem count_grow {m : ℕ} (hnm : n ≤ m) (h : ∀ u, n ≤ u → ¬ p u) :
    Nat.count p m = Nat.count p n := by
  obtain ⟨d, rfl⟩ := Nat.exists_eq_add_of_le hnm
  rw [Nat.count_add, Nat.add_eq_left, Nat.count_iff_forall_not]
  exact fun u _ => h _ (Nat.le_add_right n u)

theorem count_pos (ht : t < n) (hp : p t) : 0 < Nat.count p n := by
  by_contra hzero
  exact Nat.count_ne_iff_exists.2 ⟨t, ht, hp⟩ (by omega)

end Lib
