import Nachos.Lib.Seating
import Mathlib.Data.List.Induction

/-!
# Stable priority queues

A queue is a list of keyed items in the order of their arrival. The item that leaves has the least
key, and is the first of those with this key. `arranged q` are the items in the order in which they
will leave: each is inserted behind those whose key is not larger when it arrives, and the front of
what this makes is the one that leaves.
-/

namespace Lib

variable {α : Type*} {q r : List (Keyed α)} {d e : Keyed α}

/-- `e` leaves the queue `q`, and `r` is left. -/
def Leaves (q : List (Keyed α)) (e : Keyed α) (r : List (Keyed α)) : Prop :=
  ∃ before after, q = before ++ e :: after ∧ r = before ++ after ∧
    (∀ d ∈ before, e.key < d.key) ∧ ∀ d ∈ after, e.key ≤ d.key

/-- The last to arrive leaves first when its key is the least one. -/
theorem leaves_append_singleton (h : ∀ d ∈ q, e.key < d.key) : Leaves (q ++ [e]) e q :=
  ⟨q, [], rfl, (List.append_nil q).symm, h, by simp⟩

/-- An item with a key that is not less may arrive. -/
theorem Leaves.append_singleton (h : Leaves q e r) (hle : e.key ≤ d.key) :
    Leaves (q ++ [d]) e (r ++ [d]) := by
  obtain ⟨before, after, rfl, rfl, hbefore, hafter⟩ := h
  refine ⟨before, after ++ [d], by simp, by simp, hbefore, ?_⟩
  intro c hc
  rcases List.mem_append.1 hc with hc | hc
  · exact hafter c hc
  · rwa [List.mem_singleton.1 hc]

/-- The items in the order in which they leave. -/
def arranged (q : List (Keyed α)) : List (Keyed α) :=
  q.foldl (fun es e => sortedInsert e es) []

@[simp] theorem arranged_nil : arranged ([] : List (Keyed α)) = [] := rfl

@[simp] theorem arranged_append_singleton (q : List (Keyed α)) (e : Keyed α) :
    arranged (q ++ [e]) = sortedInsert e (arranged q) := by
  rw [arranged, List.foldl_append]
  rfl

theorem perm_arranged (q : List (Keyed α)) : (arranged q).Perm q := by
  induction q using List.reverseRecOn with
  | nil => exact .nil
  | append_singleton q e ih =>
      rw [arranged_append_singleton]
      exact (perm_sortedInsert e _).trans ((ih.cons e).trans (List.perm_append_singleton e q).symm)

theorem sortedKeys_arranged (q : List (Keyed α)) : SortedKeys (arranged q) := by
  induction q using List.reverseRecOn with
  | nil => exact .nil
  | append_singleton q e ih =>
      rw [arranged_append_singleton]
      exact ih.insert e

/-- The front leaves, and the others stay in their order. -/
theorem leaves_of_arranged {es : List (Keyed α)} (h : arranged q = e :: es) :
    ∃ r, Leaves q e r ∧ arranged r = es := by
  induction q using List.reverseRecOn generalizing es with
  | nil => cases h
  | append_singleton q x ih =>
      have hperm := perm_arranged q
      have hsorted := sortedKeys_arranged q
      rw [arranged_append_singleton] at h
      cases hq : arranged q with
      | nil =>
          rw [hq] at h hperm
          cases h
          refine ⟨q, leaves_append_singleton ?_, hq⟩
          simp [hperm.nil_eq.symm]
      | cons d ds =>
          rw [hq, sortedInsert_cons] at h
          by_cases hlt : x.key < d.key
          · rw [if_pos hlt] at h
            cases h
            refine ⟨q, leaves_append_singleton ?_, hq⟩
            intro b hb
            rw [hq] at hsorted hperm
            rcases List.mem_cons.1 (hperm.mem_iff.2 hb) with rfl | hb
            · exact hlt
            · exact hlt.trans_le ((List.pairwise_cons.1 hsorted).1 b hb)
          · rw [if_neg hlt] at h
            cases h
            obtain ⟨r, hleaves, hr⟩ := ih hq
            exact ⟨r ++ [x], hleaves.append_singleton (not_lt.1 hlt), by simp [hr]⟩

end Lib
