import Nachos.Lib.StableQueue
import Nachos.Threads.SortedList

/-!
# A sorted list is a stable priority queue

Calls of `SortedInsert`, `SortedRemove` and `Remove` on a list, in any order. The queue that the
list stands for is in the order of arrival; the elements of the list are in the order in which they
will leave.
-/

namespace Nachos

open Lib

namespace SortedList

inductive Call (ι : Type) where
  | sortedInsert (item : Option ι) (sortKey : ℤ)
  | sortedRemove
  | remove

variable {ι : Type}

/-- A call, with the item that it returns and what it stores in `*keyPtr`. -/
def step (l : SortedList ι) :
    Call ι → Except ListFault (SortedList ι × (Option ι × Option ℤ))
  | .sortedInsert item sortKey =>
      match l.sortedInsert item sortKey with
      | .error e => .error e
      | .ok l' => .ok (l', (none, none))
  | .sortedRemove => .ok (l.sortedRemove.2.2, (l.sortedRemove.1, l.sortedRemove.2.1))
  | .remove => .ok (l.remove.2, (l.remove.1, none))

/-- The list after the calls, and what they have returned. -/
def run (l : SortedList ι) :
    List (Call ι) → Except ListFault (SortedList ι × List (Option ι × Option ℤ))
  | [] => .ok (l, [])
  | c :: cs =>
      match l.step c with
      | .error e => .error e
      | .ok (l', out) =>
          match run l' cs with
          | .error e => .error e
          | .ok (l'', outs) => .ok (l'', out :: outs)

/-! ## The queue -/

/-- What a call does to a stable priority queue, and what it returns. -/
inductive Serves : List (Keyed (Option ι)) → Call ι → Option ι × Option ℤ →
    List (Keyed (Option ι)) → Prop
  | sortedInsert (q : List (Keyed (Option ι))) (item : Option ι) (sortKey : ℤ) :
      Serves q (.sortedInsert item sortKey) (none, none) (q ++ [⟨item, sortKey⟩])
  | sortedRemove {q r : List (Keyed (Option ι))} {e : Keyed (Option ι)} (h : Leaves q e r) :
      Serves q .sortedRemove (e.item, some e.key) r
  | remove {q r : List (Keyed (Option ι))} {e : Keyed (Option ι)} (h : Leaves q e r) :
      Serves q .remove (e.item, none) r
  | sortedRemove_empty : Serves [] .sortedRemove (none, none) []
  | remove_empty : Serves [] .remove (none, none) []

/-- What a list of calls does. -/
inductive ServesAll : List (Keyed (Option ι)) → List (Call ι) → List (Option ι × Option ℤ) →
    List (Keyed (Option ι)) → Prop
  | nil (q : List (Keyed (Option ι))) : ServesAll q [] [] q
  | cons {q r s : List (Keyed (Option ι))} {c : Call ι} {out : Option ι × Option ℤ}
      {cs : List (Call ι)} {outs : List (Option ι × Option ℤ)} (h : Serves q c out r)
      (hrest : ServesAll r cs outs s) : ServesAll q (c :: cs) (out :: outs) s

/-- The pointers of the list form one chain, with keys that do not decrease, and its items are
those of the queue. -/
structure Chained (l : SortedList ι) (q : List (Keyed (Option ι))) (chain : List ℕ) : Prop where
  path : Path (fun a => (l.element a).next) l.first chain
  nodup : chain.Nodup
  last : l.last = chain.getLast?
  first_none : l.first = none ↔ q = []
  last_none : l.last = none ↔ q = []
  keys : (chain.map fun a => (l.element a).key).Pairwise (· ≤ ·)
  items : (chain.map fun a => (⟨(l.element a).item, (l.element a).key⟩ : Keyed (Option ι))).Perm q

variable {l l' : SortedList ι} {q r : List (Keyed (Option ι))} {c : Call ι}

/-- The first item on the list leaves. -/
theorem Keeps.leave (h : l.Keeps (arranged q)) :
    (q = [] ∧ l.sortedRemove = (none, none, l)) ∨
      ∃ e r l', Leaves q e r ∧ l.sortedRemove = (e.item, some e.key, l') ∧
        l'.Keeps (arranged r) := by
  cases hq : arranged q with
  | nil =>
      rw [hq] at h
      exact .inl ⟨(hq ▸ perm_arranged q).nil_eq.symm, h.sortedRemove_nil⟩
  | cons e es =>
      rw [hq] at h
      obtain ⟨r, hleaves, rfl⟩ := leaves_of_arranged hq
      obtain ⟨l', hok, hkeeps⟩ := h.sortedRemove
      exact .inr ⟨e, r, l', hleaves, hok, hkeeps⟩

theorem Keeps.step (h : l.Keeps (arranged q)) (c : Call ι) :
    ∃ l' out r, l.step c = .ok (l', out) ∧ Serves q c out r ∧ l'.Keeps (arranged r) := by
  cases c with
  | sortedInsert item sortKey =>
      obtain ⟨l', hok, hkeeps⟩ := h.sortedInsert ⟨item, sortKey⟩
      rw [← arranged_append_singleton] at hkeeps
      exact ⟨l', _, _, by simp only [SortedList.step, hok], .sortedInsert q item sortKey, hkeeps⟩
  | sortedRemove =>
      rcases h.leave with ⟨rfl, hok⟩ | ⟨e, r, l', hleaves, hok, hkeeps⟩
      · exact ⟨l, _, [], by rw [SortedList.step, hok], .sortedRemove_empty, h⟩
      · exact ⟨l', _, r, by rw [SortedList.step, hok], .sortedRemove hleaves, hkeeps⟩
  | remove =>
      rcases h.leave with ⟨rfl, hok⟩ | ⟨e, r, l', hleaves, hok, hkeeps⟩
      · exact ⟨l, _, [], by rw [SortedList.step, SortedList.remove, hok], .remove_empty, h⟩
      · exact ⟨l', _, r, by rw [SortedList.step, SortedList.remove, hok], .remove hleaves, hkeeps⟩

theorem Keeps.run (h : l.Keeps (arranged q)) (calls : List (Call ι)) :
    ∃ l' outs r, l.run calls = .ok (l', outs) ∧ ServesAll q calls outs r ∧
      l'.Keeps (arranged r) := by
  induction calls generalizing l q with
  | nil => exact ⟨l, [], q, rfl, .nil q, h⟩
  | cons c calls ih =>
      obtain ⟨l₁, out, r₁, hstep, hserves, h₁⟩ := h.step c
      obtain ⟨l₂, outs, r₂, hrun, hall, h₂⟩ := ih h₁
      exact ⟨l₂, out :: outs, r₂, by simp only [SortedList.run, hstep, hrun],
        .cons hserves hall, h₂⟩

theorem Keeps.chained (h : l.Keeps (arranged q)) : ∃ chain, l.Chained q chain := by
  obtain ⟨ns, hrep, hns⟩ := h
  have hitems : (ns.map Keyed.item).map
      (fun a => (⟨(l.element a).item, (l.element a).key⟩ : Keyed (Option ι))) = arranged q := by
    rw [← hns, List.map_map]
    refine List.map_congr_left fun n hn => ?_
    simp only [Function.comp_apply, hrep.key n hn]
  have hlength : ns.length = q.length := by
    rw [← (perm_arranged q).length_eq, ← hns, List.length_map]
  have hempty : ns = [] ↔ q = [] := by
    rw [← List.length_eq_zero_iff, hlength, List.length_eq_zero_iff]
  refine ⟨ns.map Keyed.item, hrep.path, hrep.nodup, hrep.last, ?_, ?_, ?_, ?_⟩
  · rw [hrep.path.head_eq, List.head?_eq_none_iff, List.map_eq_nil_iff, hempty]
  · rw [hrep.last, List.getLast?_eq_none_iff, List.map_eq_nil_iff, hempty]
  · have hsorted := sortedKeys_arranged q
    rw [← hitems, SortedKeys, List.pairwise_map] at hsorted
    rwa [List.pairwise_map]
  · rw [hitems]
    exact perm_arranged q

/-- A list that was new serves any calls as a stable priority queue. -/
theorem sortedList_serves (calls : List (Call ι)) :
    ∃ l outs q chain, run (new : SortedList ι) calls = .ok (l, outs) ∧
      ServesAll [] calls outs q ∧ l.Chained q chain := by
  have hnew : (new : SortedList ι).Keeps (arranged []) := keeps_new
  obtain ⟨l, outs, q, hrun, hall, hkeeps⟩ := hnew.run calls
  obtain ⟨chain, hchain⟩ := hkeeps.chained
  exact ⟨l, outs, q, chain, hrun, hall, hchain⟩

end SortedList

end Nachos
