import Nachos.Lib.Splice
import Mathlib.Data.List.Nodup

/-!
# Stores that are lost on the first touch

A memory is divided into pages of one size, and the first store into each page only makes
the page present: what it was to store is lost. When no two stores overlap, a store is
kept if and only if an earlier one was for the same page.
-/

namespace Lib

variable {α : Type*}

/-- `len` cells from `addr` on are to hold `cell`. -/
structure Put (α : Type*) where
  addr : ℕ
  len : ℕ
  cell : ℕ → α

namespace Put

/-- The page of a store, which does not leave it. -/
def page (size : ℕ) (w : Put α) : ℕ := w.addr / size

/-- The cells of the stores are different ones. -/
def Apart (w u : Put α) : Prop := w.addr + w.len ≤ u.addr ∨ u.addr + u.len ≤ w.addr

theorem Apart.symm {w u : Put α} (h : w.Apart u) : u.Apart w := Or.symm h

theorem splice_of_apart {w u : Put α} (h : w.Apart u) {f : ℕ → α} {k : ℕ} (hk : k < u.len) :
    splice f w.addr w.len w.cell (u.addr + k) = f (u.addr + k) := by
  rcases h with h | h
  · exact splice_of_le (by omega)
  · exact splice_of_lt (by omega)

end Put

variable {size : ℕ} {mem : ℕ → α} {pages : List ℕ} {w u : Put α} {l r ws : List (Put α)}

/-- A store, with the pages that are present. -/
def touch (size : ℕ) (m : (ℕ → α) × List ℕ) (w : Put α) : (ℕ → α) × List ℕ :=
  if w.page size ∈ m.2 then
    (splice m.1 w.addr w.len w.cell, m.2)
  else
    (m.1, m.2 ++ [w.page size])

/-- The pages that have been touched are present. -/
theorem mem_pages_touches {v : ℕ} :
    v ∈ (ws.foldl (touch size) (mem, pages)).2 ↔ v ∈ pages ∨ ∃ w ∈ ws, w.page size = v := by
  induction ws generalizing mem pages with
  | nil => simp
  | cons w ws ih =>
      rw [List.foldl_cons, touch]
      simp only
      split
      · rename_i hin
        rw [ih]
        constructor
        · rintro (h | ⟨u, hu, rfl⟩)
          · exact .inl h
          · exact .inr ⟨u, List.mem_cons_of_mem _ hu, rfl⟩
        · rintro (h | ⟨u, hu, rfl⟩)
          · exact .inl h
          · rcases List.mem_cons.1 hu with rfl | hu
            · exact .inl hin
            · exact .inr ⟨u, hu, rfl⟩
      · rw [ih, List.mem_append, List.mem_singleton]
        constructor
        · rintro ((h | rfl) | ⟨u, hu, rfl⟩)
          · exact .inl h
          · exact .inr ⟨w, List.mem_cons_self, rfl⟩
          · exact .inr ⟨u, List.mem_cons_of_mem _ hu, rfl⟩
        · rintro (h | ⟨u, hu, rfl⟩)
          · exact .inl (.inl h)
          · rcases List.mem_cons.1 hu with rfl | hu
            · exact .inl (.inr rfl)
            · exact .inr ⟨u, hu, rfl⟩

/-- No page is present twice. -/
theorem nodup_pages_touches (h : pages.Nodup) :
    (ws.foldl (touch size) (mem, pages)).2.Nodup := by
  induction ws generalizing mem pages with
  | nil => exact h
  | cons w ws ih =>
      rw [List.foldl_cons, touch]
      simp only
      split
      · exact ih h
      · rename_i hnot
        refine ih (h.append (List.nodup_singleton _) ?_)
        simpa using hnot

/-- The cells of a store that is apart from all the others are as they were. -/
theorem touches_of_apart (h : ∀ w ∈ ws, w.Apart u) {k : ℕ} (hk : k < u.len) :
    (ws.foldl (touch size) (mem, pages)).1 (u.addr + k) = mem (u.addr + k) := by
  induction ws generalizing mem pages with
  | nil => rfl
  | cons w ws ih =>
      have hrest : ∀ w ∈ ws, w.Apart u := fun w hw => h w (List.mem_cons_of_mem _ hw)
      rw [List.foldl_cons, touch]
      simp only
      split
      · rw [ih hrest, Put.splice_of_apart (h w List.mem_cons_self) hk]
      · exact ih hrest

/-- A store is kept when its page was present or an earlier store was for the same page, and
lost otherwise. -/
theorem touches_apply (hl : ∀ u ∈ l, u.Apart w) (hr : ∀ u ∈ r, u.Apart w) {k : ℕ}
    (hk : k < w.len) :
    ((l ++ w :: r).foldl (touch size) (mem, pages)).1 (w.addr + k) =
      if w.page size ∈ pages ∨ ∃ u ∈ l, u.page size = w.page size then
        w.cell k
      else
        mem (w.addr + k) := by
  rw [List.foldl_append, List.foldl_cons, touch]
  have hpages : w.page size ∈ (l.foldl (touch size) (mem, pages)).2 ↔
    w.page size ∈ pages ∨ ∃ u ∈ l, u.page size = w.page size := mem_pages_touches
  by_cases hin : w.page size ∈ pages ∨ ∃ u ∈ l, u.page size = w.page size
  · rw [if_pos (hpages.2 hin), if_pos hin, touches_of_apart hr hk, splice_add hk]
  · rw [if_neg fun h => hin (hpages.1 h), if_neg hin, touches_of_apart hr hk,
      touches_of_apart hl hk]

end Lib
