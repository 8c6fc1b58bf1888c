import Mathlib.Data.Int.ModEq
import Mathlib.Data.List.Range
import Mathlib.Logic.Function.Basic

/-!
# Circular buffers

`ring cells capacity start n` lists the `n` cells of a circular buffer from the index
`start` on, which counts modulo the capacity.
-/

namespace Lib

variable {α : Type*} {cells : ℤ → α} {capacity start : ℤ} {n : ℕ}

def ring (cells : ℤ → α) (capacity start : ℤ) (n : ℕ) : List α :=
  (List.range n).map fun i : ℕ => cells ((start + i) % capacity)

@[simp] theorem ring_zero : ring cells capacity start 0 = [] := rfl

theorem ring_succ : ring cells capacity start (n + 1) =
    cells (start % capacity) :: ring cells capacity (start + 1) n := by
  rw [ring, List.range_succ_eq_map, List.map_cons, List.map_map, Nat.cast_zero, add_zero]
  congr 1
  refine List.map_congr_left ?_
  intro i _
  simp [add_assoc, add_comm (1 : ℤ)]

/-- The index counts modulo the capacity. -/
theorem ring_emod_add (i : ℤ) :
    ring cells capacity (start % capacity + i) n = ring cells capacity (start + i) n := by
  simp [ring, add_assoc, Int.emod_add_emod]

/-- Two cells that are less than the capacity apart are different. -/
theorem emod_ne {i j : ℤ} (h : i < j) (hj : j < i + capacity) :
    (start + i) % capacity ≠ (start + j) % capacity := by
  intro heq
  have hdvd : capacity ∣ (start + j) - (start + i) := Int.ModEq.dvd heq
  have := Int.le_of_dvd (by omega) hdvd
  omega

/-- A write to the next free cell appends to the buffer. -/
theorem ring_push (hn : (n : ℤ) < capacity) (x : α) :
    ring (Function.update cells ((start + n) % capacity) x) capacity start (n + 1) =
      ring cells capacity start n ++ [x] := by
  rw [ring, List.range_succ, List.map_append]
  simp only [List.map_cons, List.map_nil, Function.update_self]
  congr 1
  refine List.map_congr_left ?_
  intro i hi
  have hlt : (i : ℤ) < n := by
    have := List.mem_range.1 hi
    omega
  exact Function.update_of_ne (emod_ne hlt (by omega)) _ _

/-- A write to the cell that has been read leaves the rest alone. -/
theorem ring_pop (hn : (n : ℤ) < capacity) (x : α) :
    ring (Function.update cells (start % capacity) x) capacity (start + 1) n =
      ring cells capacity (start + 1) n := by
  refine List.map_congr_left ?_
  intro i hi
  have hlt : (i : ℤ) < n := by
    have := List.mem_range.1 hi
    omega
  have hne : (start + 0) % capacity ≠ (start + (1 + i)) % capacity :=
    emod_ne (by omega) (by omega)
  rw [add_zero, ← add_assoc] at hne
  exact Function.update_of_ne hne.symm _ _

end Lib
