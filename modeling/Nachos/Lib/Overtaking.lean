import Nachos.Lib.Run
import Nachos.Lib.Seating
import Mathlib.Data.List.Nodup

/-!
# Overtaking in a sorted queue

An item waits in a sorted queue while those at the front leave and new ones are inserted. Only an
item with a smaller key is inserted ahead of it, so its place is known from two counts: the items
that have left, each of which brings it one place to the front, and those that have overtaken it.
The law for one change of the queue is added up over a run by `tally`.
-/

namespace Lib

/-- The sum of `f` over the moves of a run. -/
def tally {S L E : Type*} (step : S → L → Except E S) (f : S → S → ℕ) : S → List L → ℕ
  | _, [] => 0
  | s, a :: as =>
      match step s a with
      | .ok s' => f s s' + tally step f s' as
      | .error _ => 0

theorem tally_cons {S L E : Type*} {step : S → L → Except E S} {f : S → S → ℕ} {s s' : S} {a : L}
    (h : step s a = .ok s') (as : List L) :
    tally step f s (a :: as) = f s s' + tally step f s' as := by
  simp only [tally, h]

/-- A balance that every move keeps, from states with the invariant and as long as the moves meet
a condition, is kept by a run. -/
theorem tally_balance {S L E : Type*} {step : S → L → Except E S} {P : S → L → Prop} {I : S → Prop}
    {place : S → ℕ} {f g : S → S → ℕ}
    (hstep : ∀ s a s', I s → P s a → step s a = .ok s' →
      I s' ∧ f s s' + place s' = place s + g s s')
    {s₀ s : S} (h₀ : I s₀) {as : List L} (h : Meets step P s₀ as)
    (hs : runFrom step s₀ as = .ok s) :
    tally step f s₀ as + place s = place s₀ + tally step g s₀ as := by
  induction as generalizing s₀ with
  | nil =>
      cases hs
      simp [tally]
  | cons a as ih =>
      obtain ⟨m, hm, hs⟩ := (runFrom_cons_ok step s₀ s a as).1 hs
      obtain ⟨hi, hone⟩ := hstep s₀ a m h₀ h.1 hm
      have hrest := ih hi (h.2 m hm) hs
      rw [tally_cons hm, tally_cons hm]
      omega

variable {α : Type*}

/-- The items of `new` are inserted one after the other. -/
def insertAll (new q : List (Keyed α)) : List (Keyed α) :=
  new.foldl (fun q e => sortedInsert e q) q

@[simp] theorem insertAll_nil (q : List (Keyed α)) : insertAll [] q = q := rfl

@[simp] theorem insertAll_cons (e : Keyed α) (new q : List (Keyed α)) :
    insertAll (e :: new) q = insertAll new (sortedInsert e q) := rfl

theorem insertAll_append (new new' q : List (Keyed α)) :
    insertAll (new ++ new') q = insertAll new' (insertAll new q) :=
  List.foldl_append

theorem perm_insertAll (new q : List (Keyed α)) : (insertAll new q).Perm (new ++ q) := by
  induction new generalizing q with
  | nil => exact .refl q
  | cons e new ih =>
      have hone : (new ++ sortedInsert e q).Perm (new ++ e :: q) :=
        (perm_sortedInsert e q).append_left new
      exact ((ih (sortedInsert e q)).trans hone).trans List.perm_middle

theorem SortedKeys.insertAll {q : List (Keyed α)} (h : SortedKeys q) (new : List (Keyed α)) :
    SortedKeys (insertAll new q) := by
  induction new generalizing q with
  | nil => exact h
  | cons e new ih => exact ih (h.insert e)

/-- Some items have left the queue at the front, and others have been inserted after that. -/
def Passes (q q' : List (Keyed α)) : Prop :=
  ∃ gone rest new, q = gone ++ rest ∧ q' = insertAll new rest ∧
    ∀ e ∈ new, e.item ∉ gone.map Keyed.item

theorem Passes.refl (q : List (Keyed α)) : Passes q q :=
  ⟨[], q, [], rfl, rfl, fun _ he => absurd he List.not_mem_nil⟩

theorem Passes.of_suffix {q q' : List (Keyed α)} (h : q' <:+ q) : Passes q q' := by
  obtain ⟨gone, rfl⟩ := h
  exact ⟨gone, q', [], rfl, rfl, fun _ he => absurd he List.not_mem_nil⟩

theorem passes_insertAll (new q : List (Keyed α)) : Passes q (insertAll new q) :=
  ⟨[], q, new, rfl, rfl, fun _ _ => List.not_mem_nil⟩

/-- The front leaves, and another item is inserted. -/
theorem passes_rotate {d e : Keyed α} {q : List (Keyed α)} (h : e.item ≠ d.item) :
    Passes (d :: q) (sortedInsert e q) := by
  refine ⟨[d], q, [e], rfl, rfl, ?_⟩
  intro x hx
  rw [List.mem_singleton.1 hx]
  simpa using h

theorem Passes.sortedKeys {q q' : List (Keyed α)} (h : Passes q q') (hq : SortedKeys q) :
    SortedKeys q' := by
  obtain ⟨gone, rest, new, rfl, rfl, -⟩ := h
  exact SortedKeys.insertAll (hq.sublist (List.sublist_append_right gone rest)) new

section Counts

variable [DecidableEq α]

/-- The number of items ahead of `t`. -/
def ahead (t : α) (q : List (Keyed α)) : ℕ := (q.map Keyed.item).idxOf t

/-- The number of items that have left. -/
def departed (q q' : List (Keyed α)) : ℕ :=
  q.countP fun d => d.item ∉ q'.map Keyed.item

/-- The number of items that have been inserted ahead of one with the key `κ`. -/
def overtaking (κ : ℤ) (q q' : List (Keyed α)) : ℕ :=
  q'.countP fun d => d.item ∉ q.map Keyed.item ∧ d.key < κ

theorem ahead_lt {e : Keyed α} {q : List (Keyed α)} (he : e ∈ q) : ahead e.item q < q.length := by
  have hlt := List.idxOf_lt_length_of_mem (List.mem_map_of_mem (f := Keyed.item) he)
  rwa [List.length_map] at hlt

theorem ahead_cons_self (e : Keyed α) (q : List (Keyed α)) : ahead e.item (e :: q) = 0 :=
  List.idxOf_cons_self

theorem ahead_cons_ne {t : α} {d : Keyed α} (h : d.item ≠ t) (q : List (Keyed α)) :
    ahead t (d :: q) = ahead t q + 1 :=
  List.idxOf_cons_ne _ h

theorem ahead_append {t : α} {gone : List (Keyed α)} (h : t ∉ gone.map Keyed.item)
    (q : List (Keyed α)) : ahead t (gone ++ q) = gone.length + ahead t q := by
  rw [ahead, List.map_append, List.idxOf_append_of_notMem h, List.length_map]
  rfl

/-- An item is inserted ahead of those with larger keys only. -/
theorem ahead_sortedInsert {d e : Keyed α} {q : List (Keyed α)} (hq : SortedKeys q)
    (hnodup : (q.map Keyed.item).Nodup) (he : e ∈ q) (hne : d.item ≠ e.item) :
    ahead e.item (sortedInsert d q) = ahead e.item q + if d.key < e.key then 1 else 0 := by
  induction q with
  | nil => exact absurd he List.not_mem_nil
  | cons b q ih =>
      obtain ⟨hb, hq⟩ := List.pairwise_cons.1 hq
      obtain ⟨hnew, hnodup⟩ := List.nodup_cons.1 hnodup
      by_cases hlt : d.key < b.key
      · have hkey : d.key < e.key := by
          rcases List.mem_cons.1 he with rfl | he
          · exact hlt
          · exact hlt.trans_le (hb e he)
        rw [sortedInsert_cons, if_pos hlt, if_pos hkey, ahead_cons_ne hne]
      · rw [sortedInsert_cons, if_neg hlt]
        rcases List.mem_cons.1 he with rfl | he
        · rw [if_neg hlt, ahead_cons_self, ahead_cons_self]
        · have hbe : b.item ≠ e.item := by
            intro heq
            exact hnew (heq ▸ List.mem_map_of_mem he)
          rw [ahead_cons_ne hbe, ahead_cons_ne hbe, ih hq hnodup he]
          omega

theorem ahead_insertAll {e : Keyed α} {new q : List (Keyed α)} (hq : SortedKeys q)
    (hnodup : ((new ++ q).map Keyed.item).Nodup) (he : e ∈ q) :
    ahead e.item (insertAll new q) = ahead e.item q + new.countP fun d => d.key < e.key := by
  induction new generalizing q with
  | nil => rfl
  | cons d new ih =>
      have hperm : (new ++ sortedInsert d q).Perm (d :: new ++ q) :=
        ((perm_sortedInsert d q).append_left new).trans List.perm_middle
      have hrest : (q.map Keyed.item).Nodup := by
        rw [List.map_append] at hnodup
        exact hnodup.of_append_right
      have hne : d.item ≠ e.item := by
        rintro heq
        rw [List.cons_append, List.map_cons, List.nodup_cons] at hnodup
        exact hnodup.1 (heq ▸ List.mem_map_of_mem (List.mem_append_right new he))
      rw [insertAll_cons, ih (hq.insert d) ((hperm.map _).nodup_iff.2 hnodup)
        (mem_sortedInsert.2 (.inr he)), ahead_sortedInsert hq hrest he hne, List.countP_cons]
      simp only [decide_eq_true_eq]
      omega

theorem departed_append {gone rest q' : List (Keyed α)}
    (hgone : ∀ d ∈ gone, d.item ∉ q'.map Keyed.item)
    (hrest : ∀ d ∈ rest, d.item ∈ q'.map Keyed.item) :
    departed (gone ++ rest) q' = gone.length := by
  have hall : gone.countP (fun d => decide (d.item ∉ q'.map Keyed.item)) = gone.length :=
    List.countP_eq_length.2 fun d hd => decide_eq_true (hgone d hd)
  have hnone : rest.countP (fun d => decide (d.item ∉ q'.map Keyed.item)) = 0 :=
    List.countP_eq_zero.2 fun d hd => by simpa using hrest d hd
  rw [departed, List.countP_append, hall, hnone, Nat.add_zero]

theorem overtaking_of_perm {κ : ℤ} {new rest q q' : List (Keyed α)} (h : q'.Perm (new ++ rest))
    (hnew : ∀ d ∈ new, d.item ∉ q.map Keyed.item) (hrest : ∀ d ∈ rest, d.item ∈ q.map Keyed.item) :
    overtaking κ q q' = new.countP fun d => d.key < κ := by
  have hnone : rest.countP (fun d => decide (d.item ∉ q.map Keyed.item ∧ d.key < κ)) = 0 :=
    List.countP_eq_zero.2 fun d hd => by simp [hrest d hd]
  rw [overtaking, h.countP_eq, List.countP_append, hnone, Nat.add_zero]
  exact List.countP_congr fun d hd => by simp [hnew d hd]

/-- While an item stays, those that leave were ahead of it and those that overtake it are ahead
of it. -/
theorem Passes.place {e : Keyed α} {q q' : List (Keyed α)} (h : Passes q q') (hq : SortedKeys q)
    (hnodup : (q.map Keyed.item).Nodup) (hnodup' : (q'.map Keyed.item).Nodup) (he : e ∈ q)
    (hstay : e.item ∈ q'.map Keyed.item) :
    e ∈ q' ∧ departed q q' + ahead e.item q' = ahead e.item q + overtaking e.key q q' := by
  obtain ⟨gone, rest, new, rfl, rfl, hnew⟩ := h
  have hperm := perm_insertAll new rest
  have hmem : ∀ {d}, d ∈ insertAll new rest ↔ d ∈ new ∨ d ∈ rest := by
    intro d
    rw [hperm.mem_iff, List.mem_append]
  have hnodup'' := (hperm.map Keyed.item).nodup_iff.1 hnodup'
  have hgone : ∀ d ∈ gone, d.item ∉ (insertAll new rest).map Keyed.item := by
    intro d hd hin
    obtain ⟨d', hd', heq⟩ := List.mem_map.1 hin
    rcases hmem.1 hd' with hd' | hd'
    · exact hnew d' hd' (heq ▸ List.mem_map_of_mem hd)
    · rw [List.map_append, List.nodup_append] at hnodup
      exact hnodup.2.2 _ (List.mem_map_of_mem hd) _ (List.mem_map_of_mem hd') heq.symm
  have hnewer : ∀ d ∈ new, d.item ∉ (gone ++ rest).map Keyed.item := by
    intro d hd hin
    obtain ⟨d', hd', heq⟩ := List.mem_map.1 hin
    rcases List.mem_append.1 hd' with hd' | hd'
    · exact hnew d hd (heq ▸ List.mem_map_of_mem hd')
    · rw [List.map_append, List.nodup_append] at hnodup''
      exact hnodup''.2.2 _ (List.mem_map_of_mem hd) _ (List.mem_map_of_mem hd') heq.symm
  have hegone : e.item ∉ gone.map Keyed.item := by
    intro hin
    obtain ⟨d, hd, heq⟩ := List.mem_map.1 hin
    exact hgone d hd (heq ▸ hstay)
  have herest : e ∈ rest :=
    (List.mem_append.1 he).resolve_left fun hin => hegone (List.mem_map_of_mem hin)
  have hleft : departed (gone ++ rest) (insertAll new rest) = gone.length :=
    departed_append hgone fun d hd => List.mem_map_of_mem (hmem.2 (.inr hd))
  have hcame : overtaking e.key (gone ++ rest) (insertAll new rest) =
      new.countP fun d => d.key < e.key :=
    overtaking_of_perm hperm hnewer fun d hd => List.mem_map_of_mem (List.mem_append_right gone hd)
  have hplace : ahead e.item (insertAll new rest) =
      ahead e.item rest + new.countP fun d => d.key < e.key :=
    ahead_insertAll (hq.sublist (List.sublist_append_right gone rest)) hnodup'' herest
  refine ⟨hmem.2 (.inr herest), ?_⟩
  rw [hleft, hcame, hplace, ahead_append hegone]
  omega

end Counts

end Lib
