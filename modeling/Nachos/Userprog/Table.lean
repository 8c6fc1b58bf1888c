import Mathlib.Data.List.Basic
import Mathlib.Data.Int.Notation

/-!
# Tables

`Table` of `Table.h` and `exception.cc`: a fixed number of slots, each of which holds an
object or nothing. The calls are what happens between `lock->Acquire()` and
`lock->Release()`.
-/

namespace Nachos

def TABLESIZE : ℕ := 50

structure Table (α : Type) where
  tableptr : List (Option α)

namespace Table

variable {α : Type}

/-- The constructor of `Table`. -/
def new (size : ℕ) : Table α where
  tableptr := List.replicate size none

def tableSize (t : Table α) : ℕ := t.tableptr.length

/-- `Table::Alloc`. -/
def alloc (t : Table α) (object : α) : ℤ × Table α :=
  match t.tableptr.findIdx? Option.isNone with
  | some i => (i, { tableptr := t.tableptr.set i (some object) })
  | none => (-1, t)

/-- `Table::Get`. -/
def get (t : Table α) (index : ℤ) : Option α :=
  if index ≥ t.tableSize ∨ index < 0 then
    none
  else
    t.tableptr.getD index.toNat none

/-- `Table::Release`. -/
def release (t : Table α) (index : ℤ) : Table α :=
  if index ≥ t.tableSize ∨ index < 0 then
    t
  else
    { tableptr := t.tableptr.set index.toNat none }

/-- The number of slots in use. -/
def used (t : Table α) : ℕ := t.tableptr.countP Option.isSome

@[simp] theorem tableSize_new (size : ℕ) : (new size : Table α).tableSize = size := by
  simp [new, tableSize]

@[simp] theorem used_new (size : ℕ) : (new size : Table α).used = 0 := by
  simp [new, used, List.countP_replicate]

@[simp] theorem tableSize_release (t : Table α) (index : ℤ) :
    (t.release index).tableSize = t.tableSize := by
  unfold release
  split
  · rfl
  · simp [tableSize]

theorem get_natCast (t : Table α) (i : ℕ) : t.get i = t.tableptr.getD i none := by
  unfold get tableSize
  by_cases h : i < t.tableptr.length
  · rw [if_neg (by omega)]
    simp
  · rw [if_pos (by omega), List.getD_eq_getElem?_getD, List.getElem?_eq_none (by omega)]
    rfl

theorem used_le (t : Table α) : t.used ≤ t.tableSize := List.countP_le_length

/-- `Alloc` takes a free slot, and returns -1 only when there is none. -/
theorem alloc_spec (t : Table α) (object : α) :
    (t.alloc object = (-1, t) ∧ t.used = t.tableSize) ∨
      ∃ (i : ℕ) (t' : Table α), t.alloc object = ((i : ℤ), t') ∧ i < t.tableSize ∧
        t.get i = none ∧ t'.tableSize = t.tableSize ∧ t'.used = t.used + 1 ∧
          ∀ j : ℕ, t'.get j = if j = i then some object else t.get j := by
  cases hfind : t.tableptr.findIdx? Option.isNone with
  | none =>
      refine .inl ⟨by simp only [alloc, hfind], ?_⟩
      have h := List.findIdx?_eq_none_iff.1 hfind
      unfold used tableSize
      rw [List.countP_eq_length]
      intro a ha
      have := h a ha
      cases a with
      | none => simp at this
      | some x => rfl
  | some i =>
      obtain ⟨hlt, hnone, -⟩ := List.findIdx?_eq_some_iff_getElem.1 hfind
      have hfree : t.tableptr[i] = none := by simpa using hnone
      refine .inr ⟨i, { tableptr := t.tableptr.set i (some object) }, by simp only [alloc, hfind],
        hlt, ?_, ?_, ?_, ?_⟩
      · simp [get_natCast, hlt, hfree]
      · simp [tableSize]
      · simp [used, List.countP_set hlt, hfree]
      · intro j
        rw [get_natCast, get_natCast]
        by_cases hj : j = i
        · subst hj
          simp [hlt]
        · simp [hj, List.getElem?_set_ne (Ne.symm hj)]

theorem alloc_eq_neg_one_iff (t : Table α) (object : α) :
    (t.alloc object).1 = -1 ↔ t.used = t.tableSize := by
  rcases t.alloc_spec object with ⟨halloc, hfull⟩ | ⟨i, t', halloc, -, -, hsize, hused, -⟩
  · simp [halloc, hfull]
  · have hle := t'.used_le
    rw [halloc]
    exact iff_of_false (by simp only; omega) (by omega)

/-- A slot that is given back at once leaves the table as it was. -/
theorem release_alloc (t : Table α) (object : α) :
    (t.alloc object).2.release (t.alloc object).1 = t := by
  unfold alloc
  split
  · rename_i i hfind
    obtain ⟨hlt, hnone, -⟩ := List.findIdx?_eq_some_iff_getElem.1 hfind
    have hfree : t.tableptr[i] = none := by simpa using hnone
    have hself : t.tableptr.set i none = t.tableptr := by
      rw [← hfree]
      exact List.set_getElem_self hlt
    rw [release, if_neg (by simp [tableSize, hlt])]
    simp only [Int.toNat_natCast, List.set_set, hself]
  · rw [release, if_pos (.inr (by simp))]

@[simp] theorem get_of_neg (t : Table α) {index : ℤ} (h : index < 0) : t.get index = none := by
  rw [get, if_pos (.inr h)]

@[simp] theorem get_new (size : ℕ) (index : ℤ) : (new size : Table α).get index = none := by
  unfold get new
  split
  · rfl
  · rw [List.getD_eq_getElem?_getD, List.getElem?_replicate]
    split <;> rfl

/-- What is in the table after `Alloc` has been there before, or is the new object. -/
theorem get_alloc {t : Table α} {object x : α} {index : ℤ}
    (h : (t.alloc object).2.get index = some x) : t.get index = some x ∨ x = object := by
  have hpos : 0 ≤ index := by
    by_contra hneg
    rw [get_of_neg _ (by omega)] at h
    cases h
  obtain ⟨n, rfl⟩ := Int.eq_ofNat_of_zero_le hpos
  rcases t.alloc_spec object with ⟨heq, -⟩ | ⟨i, t', heq, -, -, -, -, hget⟩
  · exact .inl (by simpa [heq] using h)
  · simp only [heq, hget] at h
    split at h
    · exact .inr (Option.some.inj h).symm
    · exact .inl h

/-- The same for a slot, which then is the one that `Alloc` returns. -/
theorem get_alloc_cases {t : Table α} {object x : α} {i : ℕ}
    (h : (t.alloc object).2.get i = some x) :
    t.get i = some x ∨ x = object ∧ (t.alloc object).1 = i := by
  rcases t.alloc_spec object with ⟨heq, -⟩ | ⟨j, t', heq, -, -, -, -, hget⟩
  · exact .inl (by simpa [heq] using h)
  · simp only [heq, hget] at h ⊢
    split at h
    · rename_i hij
      exact .inr ⟨(Option.some.inj h).symm, by rw [hij]⟩
    · exact .inl h

theorem exists_nat_of_get {t : Table α} {index : ℤ} {x : α} (h : t.get index = some x) :
    ∃ i : ℕ, t.get i = some x := by
  have hpos : 0 ≤ index := by
    by_contra hneg
    rw [get_of_neg _ (by omega)] at h
    cases h
  obtain ⟨n, rfl⟩ := Int.eq_ofNat_of_zero_le hpos
  exact ⟨n, h⟩

theorem tableSize_alloc (t : Table α) (object : α) :
    (t.alloc object).2.tableSize = t.tableSize := by
  rcases t.alloc_spec object with ⟨heq, -⟩ | ⟨j, t', heq, -, -, hsize, -⟩
  · rw [heq]
  · rw [heq]
    exact hsize

theorem get_of_tableSize_le (t : Table α) {i : ℕ} (h : t.tableSize ≤ i) : t.get i = none := by
  rw [get, if_pos (.inl (by exact_mod_cast h))]

theorem get_release (t : Table α) (i j : ℕ) :
    (t.release i).get j = if j = i then none else t.get j := by
  by_cases hi : i < t.tableSize
  · rw [release, if_neg (by omega), get_natCast, get_natCast]
    by_cases hj : j = i
    · subst hj
      simp [show j < t.tableptr.length from hi]
    · simp [hj, List.getElem?_set_ne (Ne.symm hj)]
  · rw [release, if_pos (by omega)]
    by_cases hj : j = i
    · subst hj
      rw [if_pos rfl, get, if_pos (by omega)]
    · rw [if_neg hj]

theorem get_of_release {t : Table α} {i : ℕ} {index : ℤ} {x : α}
    (h : (t.release i).get index = some x) : t.get index = some x := by
  have hpos : 0 ≤ index := by
    by_contra hneg
    rw [get_of_neg _ (by omega)] at h
    cases h
  obtain ⟨n, rfl⟩ := Int.eq_ofNat_of_zero_le hpos
  rw [get_release] at h
  split at h
  · cases h
  · exact h

theorem used_release (t : Table α) (i : ℕ) :
    (t.release i).used = t.used - if (t.get i).isSome then 1 else 0 := by
  by_cases hi : i < t.tableSize
  · have hlt : i < t.tableptr.length := hi
    rw [release, if_neg (by omega), get_natCast]
    simp [used, List.countP_set hlt, hlt]
  · have hnone : t.get i = none := by rw [get, if_pos (by omega)]
    rw [release, if_pos (by omega), hnone]
    simp

end Table

end Nachos
