import Mathlib.Data.List.Sort
import Mathlib.Logic.Function.Basic

/-!
# Families of sorted queues in which every item has at most one seat

A queue is a list of keyed items. `sortedInsert` puts an item behind every
element whose key is not larger, so equal keys keep their order of arrival, and
the front of the queue is the next to leave. A family of queues `Q` is seated
by `seat` when every item `t` occurs once in the queue `seat t` and in no other
queue. Sitting down and leaving are the only two moves, and each of them keeps
the family seated.
-/

namespace Lib

/-- An item with the key it was inserted under. -/
structure Keyed (α : Type*) where
  item : α
  key : ℤ
  deriving DecidableEq

/-- Insert behind every element whose key is not larger. -/
def sortedInsert {α : Type*} (e : Keyed α) (q : List (Keyed α)) : List (Keyed α) :=
  q.orderedInsert (fun a b => a.key < b.key) e

theorem perm_sortedInsert {α : Type*} (e : Keyed α) (q : List (Keyed α)) :
    (sortedInsert e q).Perm (e :: q) :=
  List.perm_orderedInsert _ e q

@[simp] theorem length_sortedInsert {α : Type*} (e : Keyed α) (q : List (Keyed α)) :
    (sortedInsert e q).length = q.length + 1 :=
  List.orderedInsert_length _ q e

theorem sortedInsert_cons {α : Type*} (e d : Keyed α) (q : List (Keyed α)) :
    sortedInsert e (d :: q) = if e.key < d.key then e :: d :: q else d :: sortedInsert e q :=
  List.orderedInsert_cons _ e d q

/-- The items may be replaced. -/
theorem map_sortedInsert {α β : Type*} (g : α → β) (e : Keyed α) (q : List (Keyed α)) :
    (sortedInsert e q).map (fun d => (⟨g d.item, d.key⟩ : Keyed β)) =
      sortedInsert ⟨g e.item, e.key⟩ (q.map fun d => ⟨g d.item, d.key⟩) := by
  refine List.map_orderedInsert _ _ _ q e ?_ ?_ <;> exact fun _ _ => Iff.rfl

theorem mem_sortedInsert {α : Type*} {e d : Keyed α} {q : List (Keyed α)} :
    d ∈ sortedInsert e q ↔ d = e ∨ d ∈ q :=
  List.mem_orderedInsert _

/-- The keys of a sorted queue do not decrease from the front to the back. -/
def SortedKeys {α : Type*} (q : List (Keyed α)) : Prop :=
  q.Pairwise fun a b => a.key ≤ b.key

theorem SortedKeys.insert {α : Type*} {q : List (Keyed α)} (h : SortedKeys q) (e : Keyed α) :
    SortedKeys (sortedInsert e q) := by
  induction q with
  | nil => simp [sortedInsert, SortedKeys]
  | cons d q ih =>
      obtain ⟨hd, hq⟩ := List.pairwise_cons.1 h
      by_cases hlt : e.key < d.key
      · rw [sortedInsert_cons, if_pos hlt]
        refine List.pairwise_cons.2 ⟨?_, h⟩
        intro b hb
        rcases List.mem_cons.1 hb with rfl | hb
        · exact hlt.le
        · exact hlt.le.trans (hd b hb)
      · rw [sortedInsert_cons, if_neg hlt]
        refine List.pairwise_cons.2 ⟨?_, ih hq⟩
        intro b hb
        rcases mem_sortedInsert.1 hb with rfl | hb
        · exact not_lt.1 hlt
        · exact hd b hb

/-- Equal keys stand in the order of their items. -/
def Stable {α : Type*} [LT α] (q : List (Keyed α)) : Prop :=
  q.Pairwise fun a b => a.key < b.key ∨ a.key = b.key ∧ a.item < b.item

theorem Stable.sortedKeys {α : Type*} [LT α] {q : List (Keyed α)} (h : Stable q) :
    SortedKeys q := by
  refine h.imp fun {a b} hab => ?_
  rcases hab with hlt | ⟨heq, -⟩
  · exact hlt.le
  · exact heq.le

/-- An item that is larger than the others comes behind those with its key. -/
theorem Stable.insert {α : Type*} [LT α] {q : List (Keyed α)} (h : Stable q) {e : Keyed α}
    (hnew : ∀ d ∈ q, d.item < e.item) : Stable (sortedInsert e q) := by
  induction q with
  | nil => simp [sortedInsert, Stable]
  | cons d q ih =>
      obtain ⟨hd, hq⟩ := List.pairwise_cons.1 h
      by_cases hlt : e.key < d.key
      · rw [sortedInsert_cons, if_pos hlt]
        refine List.pairwise_cons.2 ⟨?_, h⟩
        intro b hb
        left
        rcases List.mem_cons.1 hb with rfl | hb
        · exact hlt
        · exact hlt.trans_le ((List.pairwise_cons.1 h.sortedKeys).1 b hb)
      · rw [sortedInsert_cons, if_neg hlt]
        refine List.pairwise_cons.2 ⟨?_, ih hq fun b hb => hnew b (by simp [hb])⟩
        intro b hb
        rcases mem_sortedInsert.1 hb with rfl | hb
        · rcases (not_lt.1 hlt).lt_or_eq with hlt' | heq
          · exact .inl hlt'
          · exact .inr ⟨heq, hnew d (by simp)⟩
        · exact hd b hb

section Seated

variable {α κ : Type*} [DecidableEq α] [DecidableEq κ]

/-- How often the item `t` stands in the queue `q`. -/
def occ (Q : κ → List (Keyed α)) (q : κ) (t : α) : ℕ :=
  ((Q q).map Keyed.item).count t

/-- Every item stands exactly once in its seat and nowhere else. -/
def Seated (Q : κ → List (Keyed α)) (seat : α → Option κ) : Prop :=
  ∀ q t, occ Q q t = if seat t = some q then 1 else 0

theorem occ_update_insert (Q : κ → List (Keyed α)) (q r : κ) (e : Keyed α) (t : α) :
    occ (Function.update Q q (sortedInsert e (Q q))) r t =
      occ Q r t + if r = q ∧ e.item = t then 1 else 0 := by
  by_cases hr : r = q
  · subst hr
    have hperm : (sortedInsert e (Q r)).map Keyed.item |>.Perm
        (e.item :: (Q r).map Keyed.item) := by
      simpa using (perm_sortedInsert e (Q r)).map Keyed.item
    rw [occ, Function.update_self, hperm.count_eq, List.count_cons]
    simp [occ]
  · simp [occ, hr]

theorem occ_of_cons {Q : κ → List (Keyed α)} {q : κ} {e : Keyed α} {es : List (Keyed α)}
    (h : Q q = e :: es) (r : κ) (t : α) :
    occ Q r t = occ (Function.update Q q es) r t + if r = q ∧ e.item = t then 1 else 0 := by
  by_cases hr : r = q
  · subst hr
    rw [occ, occ, Function.update_self, h, List.map_cons, List.count_cons]
    simp
  · simp [occ, hr]

theorem Seated.mem_iff {Q : κ → List (Keyed α)} {seat : α → Option κ} (h : Seated Q seat)
    (q : κ) (t : α) : t ∈ (Q q).map Keyed.item ↔ seat t = some q := by
  rw [← List.count_pos_iff]
  have := h q t
  unfold occ at this
  rw [this]
  split <;> simp_all

theorem Seated.nodup {Q : κ → List (Keyed α)} {seat : α → Option κ} (h : Seated Q seat) (q : κ) :
    ((Q q).map Keyed.item).Nodup := by
  rw [List.nodup_iff_count_le_one]
  intro t
  have hocc := h q t
  unfold occ at hocc
  rw [hocc]
  split
  · exact le_rfl
  · exact Nat.zero_le 1

/-- An item without a seat may sit down in any queue. -/
theorem Seated.sit {Q : κ → List (Keyed α)} {seat : α → Option κ} (h : Seated Q seat)
    {e : Keyed α} (hnone : seat e.item = none) (q : κ) :
    Seated (Function.update Q q (sortedInsert e (Q q)))
      (Function.update seat e.item (some q)) := by
  intro r t
  rw [occ_update_insert, h r t]
  by_cases ht : t = e.item
  · subst ht
    simp [hnone, eq_comm]
  · simp [Function.update_of_ne ht, Ne.symm ht]

theorem Seated.front {Q : κ → List (Keyed α)} {seat : α → Option κ} (h : Seated Q seat)
    {q : κ} {e : Keyed α} {es : List (Keyed α)} (hq : Q q = e :: es) :
    seat e.item = some q := by
  rw [← h.mem_iff, hq]
  simp

/-- The front of a queue leaves and has no seat any more. -/
theorem Seated.leave {Q : κ → List (Keyed α)} {seat : α → Option κ} (h : Seated Q seat)
    {q : κ} {e : Keyed α} {es : List (Keyed α)} (hq : Q q = e :: es) :
    Seated (Function.update Q q es) (Function.update seat e.item none) := by
  intro r t
  have hocc := occ_of_cons hq r t
  rw [h r t] at hocc
  by_cases ht : t = e.item
  · subst ht
    rw [h.front hq] at hocc
    by_cases hr : r = q
    · subst hr
      simp at hocc
      simp [hocc]
    · simp [hr, Ne.symm hr] at hocc
      simp [hocc]
  · rw [Function.update_of_ne ht]
    simpa [Ne.symm ht] using hocc.symm

theorem Seated.front_not_mem {Q : κ → List (Keyed α)} {seat : α → Option κ} (h : Seated Q seat)
    {q : κ} {e : Keyed α} {es : List (Keyed α)} (hq : Q q = e :: es) :
    e.item ∉ es.map Keyed.item := by
  have := ((h.leave hq).mem_iff q e.item).not
  simpa using this

end Seated

end Lib
