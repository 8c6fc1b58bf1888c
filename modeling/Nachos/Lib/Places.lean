import Mathlib.Data.List.Induction
import Mathlib.Data.Set.Function
import Mathlib.Order.Interval.Set.Defs

/-!
# Elements in their places

Some elements of a list are kept and the others are dropped. `inPlaces` puts each element that is
kept in the place of its own index, so there is a gap where an element has been dropped; the places
are the consecutive ones exactly when nothing that is kept follows something that is dropped.
-/

namespace Lib

variable {α β γ : Type*}

/-- The elements that are kept, with the places of their indices, which begin at `k`. -/
def inPlaces (place : ℕ → β) (item : α → γ) (keep : α → Bool) : ℕ → List α → List (β × γ)
  | _, [] => []
  | k, x :: xs =>
      if keep x then
        (place k, item x) :: inPlaces place item keep (k + 1) xs
      else
        inPlaces place item keep (k + 1) xs

variable {place : ℕ → β} {item : α → γ} {keep : α → Bool}

theorem inPlaces_concat (k : ℕ) (xs : List α) (x : α) :
    inPlaces place item keep k (xs ++ [x]) =
      inPlaces place item keep k xs ++
        if keep x then [(place (k + xs.length), item x)] else [] := by
  induction xs generalizing k with
  | nil => simp [inPlaces]
  | cons y xs ih =>
      have hlength : k + 1 + xs.length = k + (y :: xs).length := by
        rw [List.length_cons]
        omega
      rw [List.cons_append, inPlaces, inPlaces, ih, hlength]
      split <;> simp

/-- The elements that are kept are in consecutive places from `m` on, if nothing has been dropped so
far and what is kept comes first, or if nothing is kept. -/
theorem inPlaces_eq_mapIdx_iff {n k m : ℕ} {xs : List α} (hplace : Set.InjOn place (Set.Iio n))
    (hmk : m ≤ k) (hn : k + xs.length ≤ n) :
    inPlaces place item keep k xs =
        (xs.filter keep).mapIdx (fun j x => (place (m + j), item x)) ↔
      (∀ x ∈ xs, keep x = true → m = k) ∧ xs.Pairwise fun x y => keep y = true → keep x = true := by
  induction xs generalizing k m with
  | nil => simp [inPlaces]
  | cons x xs ih =>
      rw [List.length_cons] at hn
      cases hx : keep x with
      | false =>
          -- the next element that is kept is not in its place any more
          have hne : m ≠ k + 1 := by omega
          rw [inPlaces, hx, if_neg Bool.false_ne_true, List.filter_cons_of_neg (by simp [hx]),
            ih (by omega) (by omega)]
          simp only [List.mem_cons, forall_eq_or_imp, hx,
            Bool.false_eq_true, false_imp_iff, true_and,
            List.pairwise_cons, imp_false]
          constructor
          · rintro ⟨hnone, hrest⟩
            exact ⟨fun y hy hkeep => absurd (hnone y hy hkeep) hne,
              fun y hy hkeep => hne (hnone y hy hkeep), hrest⟩
          · rintro ⟨-, hnone, hrest⟩
            exact ⟨fun y hy hkeep => absurd hkeep (hnone y hy), hrest⟩
      | true =>
          have hnext : (fun (j : ℕ) (y : α) => (place (m + (j + 1)), item y)) =
              fun j y => (place (m + 1 + j), item y) := by
            funext j y
            rw [Nat.add_right_comm, Nat.add_assoc]
          rw [inPlaces, hx, if_pos rfl, List.filter_cons_of_pos hx, List.mapIdx_cons,
            List.cons.injEq,
            hnext, ih (by omega) (by omega), Prod.mk.injEq, Nat.add_zero, hplace.eq_iff
            (Set.mem_Iio.2 (by omega)) (Set.mem_Iio.2 (by omega)), List.pairwise_cons]
          constructor
          · rintro ⟨⟨hmk, -⟩, -, hrest⟩
            exact ⟨fun _ _ _ => hmk.symm, fun _ _ _ => hx, hrest⟩
          · rintro ⟨hall, -, hrest⟩
            obtain rfl := hall x List.mem_cons_self hx
            exact ⟨⟨rfl, rfl⟩, fun _ _ _ => rfl, hrest⟩

variable [DecidableEq β]

/-- The array after the stores. -/
def stored (stores : List (β × γ)) (mem : β → γ) : β → γ :=
  stores.foldl (fun mem s => Function.update mem s.1 s.2) mem

theorem stored_concat (stores : List (β × γ)) (s : β × γ) (mem : β → γ) :
    stored (stores ++ [s]) mem = Function.update (stored stores mem) s.1 s.2 := by
  rw [stored, List.foldl_append]
  rfl

theorem stored_of_notMem {stores : List (β × γ)} {b : β} (mem : β → γ)
    (h : b ∉ stores.map Prod.fst) :
    stored stores mem b = mem b := by
  induction stores using List.reverseRecOn with
  | nil => rfl
  | append_singleton stores s ih =>
      rw [List.map_append, List.mem_append, not_or, List.map_singleton, List.mem_singleton] at h
      rw [stored_concat, Function.update_of_ne h.2, ih h.1]

theorem stored_of_mem {stores : List (β × γ)} {s : β × γ} (mem : β → γ)
    (hnodup : (stores.map Prod.fst).Nodup) (h : s ∈ stores) : stored stores mem s.1 = s.2 := by
  induction stores using List.reverseRecOn with
  | nil => cases h
  | append_singleton stores r ih =>
      rw [List.map_append, List.nodup_append, List.map_singleton] at hnodup
      obtain ⟨hnodup, -, hdisjoint⟩ := hnodup
      rw [stored_concat]
      rcases List.mem_append.1 h with h | h
      · have hne : s.1 ≠ r.1 := hdisjoint s.1 (List.mem_map_of_mem h) r.1
          (List.mem_singleton_self _)
        rw [Function.update_of_ne hne, ih hnodup h]
      · obtain rfl := List.mem_singleton.1 h
        exact Function.update_self ..

end Lib
