import Mathlib.Data.List.Chain
import Mathlib.Logic.Function.Basic

/-!
# Singly linked lists in a heap

`next` gives the successor of every node, and `Path next p l` says that following
it from the pointer `p` visits the nodes of `l`, in this order, and ends. A change of
`next` is described by what it does to the nodes of the list, so that the
lemmas do not depend on how the heap is stored.

`skipping` is what is left of a list when a walk takes elements out of it and never looks
at the one behind an element that it has taken.
-/

namespace Lib

variable {α : Type*} {next next' : α → Option α} {p : Option α}

/-- The nodes that are reached from `p` are those of the list. -/
def Path (next : α → Option α) : Option α → List α → Prop
  | p, [] => p = none
  | p, a :: l => p = some a ∧ Path next (next a) l

theorem Path.head_eq {l : List α} (h : Path next p l) : p = l.head? := by
  cases l with
  | nil => exact h
  | cons a l => exact h.1

theorem Path.unique {l l' : List α} (h : Path next p l) (h' : Path next p l') : l = l' := by
  induction l generalizing p l' with
  | nil =>
      cases l' with
      | nil => rfl
      | cons b l' =>
          have := h.symm.trans h'.1
          cases this
  | cons a l ih =>
      cases l' with
      | nil =>
          have := h.1.symm.trans h'
          cases this
      | cons b l' =>
          obtain rfl : a = b := Option.some.inj (h.1.symm.trans h'.1)
          rw [ih h.2 h'.2]

theorem Path.next_eq {l r : List α} {a : α} (h : Path next p (l ++ a :: r)) :
    next a = r.head? := by
  induction l generalizing p with
  | nil => exact h.2.head_eq
  | cons b l ih => exact ih h.2

theorem Path.suffix {l r : List α} {a : α} (h : Path next p (l ++ a :: r)) :
    Path next (some a) (a :: r) := by
  induction l generalizing p with
  | nil => exact ⟨rfl, h.2⟩
  | cons b l ih => exact ih h.2

/-- The path reads `next` at its own nodes only. -/
theorem Path.congr {l : List α} (h : Path next p l) (heq : ∀ a ∈ l, next' a = next a) :
    Path next' p l := by
  induction l generalizing p with
  | nil => exact h
  | cons a l ih =>
      refine ⟨h.1, ?_⟩
      rw [heq a (by simp)]
      exact ih h.2 fun b hb => heq b (by simp [hb])

/-- The node `b` is linked behind `a`. -/
theorem Path.link {l r : List α} {a b : α} (h : Path next p (l ++ a :: r))
    (hl : ∀ x ∈ l, next' x = next x) (ha : next' a = some b) (hb : next' b = next a)
    (hr : ∀ x ∈ r, next' x = next x) : Path next' p (l ++ a :: b :: r) := by
  induction l generalizing p with
  | nil =>
      refine ⟨h.1, ha, ?_⟩
      rw [hb]
      exact h.2.congr hr
  | cons c l ih =>
      refine ⟨h.1, ?_⟩
      rw [hl c (by simp)]
      exact ih h.2 fun x hx => hl x (by simp [hx])

/-- A node is linked behind the last one. -/
theorem Path.snoc {l : List α} {a b : α} (h : Path next p (l ++ [a]))
    (hl : ∀ x ∈ l, next' x = next x) (ha : next' a = some b) (hb : next' b = none) :
    Path next' p (l ++ [a, b]) :=
  h.link hl ha (hb.trans h.next_eq.symm) (by simp)

/-- The node after `a` is taken out. -/
theorem Path.unlink {l r : List α} {a b : α} (h : Path next p (l ++ a :: b :: r))
    (hl : ∀ x ∈ l, next' x = next x) (ha : next' a = next b) (hr : ∀ x ∈ r, next' x = next x) :
    Path next' p (l ++ a :: r) := by
  induction l generalizing p with
  | nil =>
      refine ⟨h.1, ?_⟩
      rw [ha]
      exact h.2.2.congr hr
  | cons c l ih =>
      refine ⟨h.1, ?_⟩
      rw [hl c (by simp)]
      exact ih h.2 fun x hx => hl x (by simp [hx])

/-! ## A deletion that skips -/

section

variable {β : Type*} {out : β → Bool}

/-- What is left when the elements with `out` are taken and the one behind each is passed over. -/
def skipping (out : β → Bool) : List β → List β
  | [] => []
  | [a] => if out a then [] else [a]
  | a :: b :: l => if out a then b :: skipping out l else a :: skipping out (b :: l)

/-- What has been taken. -/
def taken (out : β → Bool) : List β → List β
  | [] => []
  | [a] => if out a then [a] else []
  | a :: b :: l => if out a then a :: taken out l else taken out (b :: l)

/-- No two neighbours are to be taken. -/
def Sparse (out : β → Bool) (l : List β) : Prop :=
  l.IsChain fun a b => out a = false ∨ out b = false

instance (out : β → Bool) (l : List β) : Decidable (Sparse out l) :=
  inferInstanceAs (Decidable (List.IsChain _ l))

/-- Everything has been taken when no two neighbours are to be taken, and only then. -/
theorem skipping_eq_filter_iff (l : List β) :
    skipping out l = l.filter (fun a => !out a) ↔ Sparse out l := by
  induction l using skipping.induct out with
  | case1 => simp [skipping, Sparse]
  | case2 a h => simp [skipping, Sparse, h]
  | case3 a h => simp [skipping, Sparse, h]
  | case4 a b l h ih =>
      cases hb : out b with
      | false =>
          have hl : Sparse out (a :: b :: l) ↔ Sparse out l := by
            unfold Sparse
            rw [List.isChain_cons_cons]
            cases l with
            | nil => simp [hb]
            | cons c l => simp [hb, List.isChain_cons_cons]
          rw [hl, ← ih]
          simp [skipping, h, hb]
      | true =>
          refine iff_of_false ?_ ?_
          · intro heq
            have hmem : b ∈ (a :: b :: l).filter fun a => !out a := by
              rw [← heq]
              simp [skipping, h]
            simp [hb] at hmem
          · simp [Sparse, h, hb]
  | case5 a b l h ih =>
      have ha : out a = false := by simpa using h
      have hl : Sparse out (a :: b :: l) ↔ Sparse out (b :: l) := by
        unfold Sparse
        rw [List.isChain_cons_cons]
        simp [ha]
      rw [hl, ← ih]
      simp [skipping, ha]

theorem taken_eq_filter {l : List β} (h : Sparse out l) : taken out l = l.filter out := by
  induction l using skipping.induct out with
  | case1 => rfl
  | case2 a ha => simp [taken, ha]
  | case3 a ha => simp [taken, ha]
  | case4 a b l ha ih =>
      have hb : out b = false := by
        have := (List.isChain_cons_cons.1 h).1
        simpa [ha] using this
      have hl : Sparse out l := (List.isChain_cons_cons.1 h).2.tail
      simp [taken, ha, hb, ih hl]
  | case5 a b l ha ih =>
      have hl : Sparse out (b :: l) := (List.isChain_cons_cons.1 h).2
      simp [taken, ha, ih hl]

end

end Lib
