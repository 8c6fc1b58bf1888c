import Nachos.Lib.Chain
import Mathlib.Data.List.Nodup
import Mathlib.Data.List.Perm.Subperm
import Mathlib.Data.List.Range

/-!
# The lists of `list.cc`

A `List` holds its items in `ListElement`s that are linked by their `next` pointers, with a pointer
to the first of them and one to the last. The elements are numbered in the order in which they are
made, and one that has been deleted holds nothing. `Holds` says which items the list has, and every
routine is described by what it does to them. The keys are left out, since nothing here sorts.
-/

namespace Nachos

open Lib

/-- `item` is a `void *`, and `none` stands for `NULL`. -/
structure ListElement (ι : Type) where
  next : Option ℕ
  item : Option ι

structure ItemList (ι : Type) where
  element : ℕ → ListElement ι
  /-- The number of elements that have been made. -/
  made : ℕ
  first : Option ℕ
  last : Option ℕ

namespace ItemList

variable {ι : Type}

/-- The constructor of `List`. -/
def new : ItemList ι where
  element _ := ⟨none, none⟩
  made := 0
  first := none
  last := none

/-- `List::IsEmpty`. -/
def isEmpty (l : ItemList ι) : Bool := l.first.isNone

/-- `new ListElement(item, 0)`. -/
def newElement (l : ItemList ι) (item : Option ι) : ItemList ι :=
  { l with element := Function.update l.element l.made ⟨none, item⟩, made := l.made + 1 }

/-- `p->next = a`. -/
def setNext (l : ItemList ι) (p : Option ℕ) (a : ℕ) : ItemList ι :=
  match p with
  | none => l
  | some b => { l with element := Function.update l.element b { l.element b with next := some a } }

/-- `List::Append`. -/
def append (l : ItemList ι) (item : Option ι) : ItemList ι :=
  let element := l.made
  if l.isEmpty then
    { l.newElement item with first := some element, last := some element }
  else
    { (l.newElement item).setNext l.last element with last := some element }

/-- `List::Remove`, which is `SortedRemove` without the key. -/
def remove (l : ItemList ι) : Option ι × ItemList ι :=
  match l.first with
  | none => (none, l)
  | some a =>
      let thing := (l.element a).item
      let l' :=
        if l.first = l.last then
          { l with first := none, last := none }
        else
          { l with first := (l.element a).next }
      (thing, { l' with element := Function.update l'.element a ⟨none, none⟩ })

/-- The items that are met from the pointer `p` on. -/
def walk (element : ℕ → ListElement ι) : ℕ → Option ℕ → List (Option ι)
  | 0, _ => []
  | _ + 1, none => []
  | n + 1, some a => (element a).item :: walk element n (element a).next

/-- The items on the list. -/
def items (l : ItemList ι) : List (Option ι) := walk l.element l.made l.first

/-- The elements of the list are those of `as`, and they hold the items of `xs`. -/
structure Rep (l : ItemList ι) (as : List ℕ) (xs : List (Option ι)) : Prop where
  path : Path (fun a => (l.element a).next) l.first as
  nodup : as.Nodup
  lt : ∀ a ∈ as, a < l.made
  last : l.last = as.getLast?
  items : as.map (fun a => (l.element a).item) = xs

/-- The list has the items of `xs`, in this order. -/
def Holds (l : ItemList ι) (xs : List (Option ι)) : Prop := ∃ as, l.Rep as xs

theorem walk_eq {element : ℕ → ListElement ι} {as : List ℕ} {p : Option ℕ} {n : ℕ}
    (h : Path (fun a => (element a).next) p as) (hn : as.length ≤ n) :
    walk element n p = as.map fun a => (element a).item := by
  induction as generalizing p n with
  | nil =>
      obtain rfl : p = none := h
      cases n <;> rfl
  | cons a as ih =>
      obtain ⟨rfl, h⟩ := h
      cases n with
      | zero => simp at hn
      | succ n => simp [walk, ih h (Nat.le_of_succ_le_succ hn)]

variable {l : ItemList ι} {xs : List (Option ι)}

theorem Holds.items_eq (h : l.Holds xs) : l.items = xs := by
  obtain ⟨as, h⟩ := h
  have hlength : as.length ≤ l.made := by
    have hsub : as ⊆ List.range l.made := fun a ha => List.mem_range.2 (h.lt a ha)
    simpa using (List.subperm_of_subset h.nodup hsub).length_le
  rw [items, walk_eq h.path hlength, h.items]

theorem holds_new : (new : ItemList ι).Holds [] := ⟨[], rfl, .nil, by simp, rfl, rfl⟩

theorem Holds.isEmpty_iff (h : l.Holds xs) : l.isEmpty = true ↔ xs = [] := by
  obtain ⟨as, h⟩ := h
  rw [← h.items, isEmpty, h.path.head_eq]
  cases as <;> simp

/-- `Append` puts the item behind the others. -/
theorem Holds.append (h : l.Holds xs) (item : Option ι) : (l.append item).Holds (xs ++ [item]) := by
  obtain ⟨as, h⟩ := h
  have hfresh : l.made ∉ as := fun hmem => lt_irrefl _ (h.lt _ hmem)
  rcases List.eq_nil_or_concat' as with rfl | ⟨as, b, rfl⟩
  · have hempty : l.isEmpty = true := by simp [isEmpty, h.path.head_eq]
    obtain rfl : [] = xs := h.items
    refine ⟨[l.made], ?_⟩
    simp only [ItemList.append, hempty, if_true]
    refine ⟨⟨rfl, ?_⟩, by simp, by simp [newElement], rfl, ?_⟩
    · simp [newElement, Lib.Path]
    · simp [newElement]
  · have hempty : l.isEmpty = false := by simp [isEmpty, h.path.head_eq]
    have hlast : l.last = some b := by simp [h.last]
    simp only [List.mem_append, List.mem_singleton, not_or] at hfresh
    have hb : b ∉ as := by
      have hapart := (List.nodup_append.1 h.nodup).2.2
      exact fun hmem => hapart b hmem b (by simp) rfl
    refine ⟨as ++ [b, l.made], ?_⟩
    simp only [ItemList.append, hempty, hlast, setNext, newElement, Bool.false_eq_true, if_false]
    have hold : ∀ a ∈ as, a ≠ l.made ∧ a ≠ b := by
      intro a ha
      exact ⟨fun heq => hfresh.1 (heq ▸ ha), fun heq => hb (heq ▸ ha)⟩
    refine ⟨?_, ?_, ?_, by simp, ?_⟩
    · refine h.path.snoc ?_ ?_ ?_
      · intro a ha
        simp [hold a ha]
      · simp
      · simp [hfresh.2, Ne.symm hfresh.2]
    · rw [show as ++ [b, l.made] = as ++ [b] ++ [l.made] by simp]
      refine List.Nodup.append h.nodup (List.nodup_singleton _) ?_
      simp [hfresh]
    · intro a ha
      simp only [List.mem_append, List.mem_cons, List.not_mem_nil, or_false] at ha
      rcases ha with ha | rfl | rfl
      · exact (h.lt a (by simp [ha])).trans (Nat.lt_succ_self _)
      · exact (h.lt a (by simp)).trans (Nat.lt_succ_self _)
      · exact Nat.lt_succ_self _
    · have hmap : (as.map fun a => (l.element a).item) ++ [(l.element b).item] = xs := by
        simpa using h.items
      rw [← hmap, List.map_append, List.append_assoc]
      congr 1
      · refine List.map_congr_left ?_
        intro a ha
        simp [hold a ha]
      · simp [hfresh.2, Ne.symm hfresh.2]

/-- `Remove` takes the first item. -/
theorem Holds.remove {x : Option ι} (h : l.Holds (x :: xs)) :
    l.remove.1 = x ∧ l.remove.2.Holds xs := by
  obtain ⟨as, h⟩ := h
  cases as with
  | nil => cases h.items
  | cons a as =>
      have hfirst : l.first = some a := h.path.head_eq
      have hitem : (l.element a).item = x ∧ as.map (fun a => (l.element a).item) = xs := by
        simpa using h.items
      obtain ⟨ha, hnodup⟩ := List.nodup_cons.1 h.nodup
      have hother : ∀ b ∈ as, b ≠ a := fun b hb heq => ha (heq ▸ hb)
      refine ⟨by simp [ItemList.remove, hfirst, hitem.1], as, ?_⟩
      have hpath : Path (fun b => (l.element b).next) (l.element a).next as := h.path.2
      have hitems : as.map (fun b => (Function.update l.element a ⟨none, none⟩ b).item) = xs := by
        rw [← hitem.2]
        refine List.map_congr_left ?_
        intro b hb
        simp [hother b hb]
      have hpath' : Path (fun b => (Function.update l.element a ⟨none, none⟩ b).next)
          (l.element a).next as := by
        refine hpath.congr ?_
        intro b hb
        simp [hother b hb]
      cases as with
      | nil =>
          have hlast : l.last = some a := h.last
          have hsame : l.first = l.last := hfirst.trans hlast.symm
          simp only [ItemList.remove, hfirst, hlast, if_true]
          exact ⟨rfl, .nil, by simp, rfl, hitems⟩
      | cons b as =>
          have hlast : l.last = (b :: as).getLast? := by simpa using h.last
          have hne : ¬ some a = l.last := by
            rw [hlast]
            intro heq
            exact ha (List.mem_of_getLast? heq.symm)
          simp only [ItemList.remove, hfirst, if_neg hne]
          exact ⟨hpath', hnodup, fun c hc => h.lt c (by simp [hc]), hlast, hitems⟩

end ItemList

end Nachos
