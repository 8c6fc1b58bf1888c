import Nachos.Lib.Chain
import Nachos.Lib.Seating

/-!
# Sorted lists

`List::SortedInsert` walks from element to element until it finds one with a larger key, and links
the new `ListElement` before it; behind the last element it is the pointer `last` that says where to
link. `SortedRemove` takes the first element. The elements are numbered in the order in which they
are made, so an element is also the age of its item on the list.

`Rep` says which elements a list has and under which keys, and an insertion is then a
`sortedInsert` of the new element. `Holds` forgets the elements and keeps their items.
-/

namespace Nachos

open Lib

/-- A `ListElement` with its key. The item is a `void *`, and `none` stands for `NULL`. -/
structure SortedElement (ι : Type) where
  next : Option ℕ
  key : ℤ
  item : Option ι

structure SortedList (ι : Type) where
  element : ℕ → SortedElement ι
  /-- The number of elements that have been made. -/
  made : ℕ
  first : Option ℕ
  last : Option ℕ

/-- What ends the program inside a list routine, or keeps it there. -/
inductive ListFault where
  | nullPointer
  | endlessLoop
  deriving DecidableEq

namespace SortedList

variable {ι : Type}

/-- The constructor of `List`. -/
def new : SortedList ι where
  element _ := ⟨none, 0, none⟩
  made := 0
  first := none
  last := none

/-- `List::IsEmpty`. -/
def isEmpty (l : SortedList ι) : Bool := l.first.isNone

/-- `new ListElement(item, sortKey)`. -/
def newElement (l : SortedList ι) (item : Option ι) (sortKey : ℤ) : SortedList ι :=
  { l with element := Function.update l.element l.made ⟨none, sortKey, item⟩, made := l.made + 1 }

/-- `a->next = p`. -/
def setNext (l : SortedList ι) (a : ℕ) (p : Option ℕ) : SortedList ι :=
  { l with element := Function.update l.element a { l.element a with next := p } }

/-- The loop of `SortedInsert` from `ptr` on, and what follows it. -/
def insertLoop (l : SortedList ι) (element : ℕ) (sortKey : ℤ) :
    ℕ → ℕ → Except ListFault (SortedList ι)
  | 0, _ => .error .endlessLoop
  | n + 1, ptr =>
      match (l.element ptr).next with
      | some b =>
          if sortKey < (l.element b).key then
            .ok ((l.setNext element (some b)).setNext ptr (some element))
          else
            insertLoop l element sortKey n b
      | none =>
          match l.last with
          | none => .error .nullPointer
          | some b => .ok { l.setNext b (some element) with last := some element }

/-- `List::SortedInsert`. -/
def sortedInsert (l : SortedList ι) (item : Option ι) (sortKey : ℤ) :
    Except ListFault (SortedList ι) :=
  let element := l.made
  let l' := l.newElement item sortKey
  match l.first with
  | none => .ok { l' with first := some element, last := some element }
  | some a =>
      if sortKey < (l.element a).key then
        .ok { l'.setNext element (some a) with first := some element }
      else
        l'.insertLoop element sortKey l'.made a

/-- `List::SortedRemove`: the item, what is stored in `*keyPtr`, and the list that is left. -/
def sortedRemove (l : SortedList ι) : Option ι × Option ℤ × SortedList ι :=
  match l.first with
  | none => (none, none, l)
  | some a =>
      let l' :=
        if l.first = l.last then
          { l with first := none, last := none }
        else
          { l with first := (l.element a).next }
      ((l.element a).item, some (l.element a).key,
        { l' with element := Function.update l'.element a ⟨none, 0, none⟩ })

/-- `List::Remove`. -/
def remove (l : SortedList ι) : Option ι × SortedList ι := (l.sortedRemove.1, l.sortedRemove.2.2)

/-- The items that are met from the pointer `p` on, with their keys. -/
def walk (element : ℕ → SortedElement ι) : ℕ → Option ℕ → List (Option ι × ℤ)
  | 0, _ => []
  | _ + 1, none => []
  | n + 1, some a => ((element a).item, (element a).key) :: walk element n (element a).next

/-- The items on the list with their keys. -/
def entries (l : SortedList ι) : List (Option ι × ℤ) := walk l.element l.made l.first

/-- The elements of the list and their keys are those of `es`. -/
structure Rep (l : SortedList ι) (es : List (Keyed ℕ)) : Prop where
  path : Path (fun a => (l.element a).next) l.first (es.map Keyed.item)
  nodup : (es.map Keyed.item).Nodup
  key : ∀ e ∈ es, (l.element e.item).key = e.key
  lt : ∀ e ∈ es, e.item < l.made
  last : l.last = (es.map Keyed.item).getLast?

theorem rep_new : (new : SortedList ι).Rep [] := ⟨rfl, .nil, by simp, by simp, rfl⟩

/-- The same elements with the same items and keys, except for their order. -/
structure Relinked (l l' : SortedList ι) : Prop where
  key : ∀ a, (l'.element a).key = (l.element a).key
  item : ∀ a, (l'.element a).item = (l.element a).item
  made : l'.made = l.made

theorem Relinked.trans {l l' l'' : SortedList ι} (h : l.Relinked l') (h' : l'.Relinked l'') :
    l.Relinked l'' :=
  ⟨fun a => (h'.key a).trans (h.key a), fun a => (h'.item a).trans (h.item a),
    h'.made.trans h.made⟩

theorem relinked_setNext (l : SortedList ι) (a : ℕ) (p : Option ℕ) :
    l.Relinked (l.setNext a p) := by
  refine ⟨?_, ?_, rfl⟩
  · intro b
    by_cases hb : b = a
    · subst hb
      simp [setNext]
    · simp [setNext, hb]
  · intro b
    by_cases hb : b = a
    · subst hb
      simp [setNext]
    · simp [setNext, hb]

variable {l l' : SortedList ι} {es : List (Keyed ℕ)}

/-- The new element and the one at `ptr` are different from each other and from the rest. -/
theorem apart_of_nodup {element : ℕ} {pre r : List (Keyed ℕ)} {a : Keyed ℕ}
    (hnodup : ((pre ++ a :: r).map Keyed.item).Nodup)
    (hfresh : element ∉ (pre ++ a :: r).map Keyed.item) :
    element ≠ a.item ∧ ∀ e, e ∈ pre ∨ e ∈ r → e.item ≠ a.item ∧ e.item ≠ element := by
  have hmem : ∀ e, e ∈ pre ∨ e ∈ r → e ∈ pre ++ a :: r := by
    intro e he
    rcases he with he | he
    · exact List.mem_append_left _ he
    · exact List.mem_append_right _ (List.mem_cons_of_mem a he)
  refine ⟨?_, fun e he => ⟨fun heq => ?_, fun heq => ?_⟩⟩
  · rintro rfl
    simp at hfresh
  · rw [List.map_append, List.map_cons] at hnodup
    rcases he with he | he
    · exact (List.nodup_append.1 hnodup).2.2 _ (List.mem_map_of_mem he) _ (by simp) heq
    · refine (List.nodup_cons.1 (List.nodup_append.1 hnodup).2.1).1 ?_
      exact heq ▸ List.mem_map_of_mem he
  · exact hfresh (heq ▸ List.mem_map_of_mem (hmem e he))

/-- The new element is linked behind the last one. -/
theorem path_linkLast {element : ℕ} {pre : List (Keyed ℕ)} {a : Keyed ℕ}
    (hpath : Path (fun b => (l.element b).next) l.first ((pre ++ [a]).map Keyed.item))
    (hnodup : ((pre ++ [a]).map Keyed.item).Nodup)
    (hfresh : element ∉ (pre ++ [a]).map Keyed.item) (hnext : (l.element element).next = none) :
    Path (fun b => ((l.setNext a.item (some element)).element b).next) l.first
      (pre.map Keyed.item ++ [a.item] ++ [element]) := by
  obtain ⟨hne, hapart⟩ := apart_of_nodup hnodup hfresh
  rw [List.map_append] at hpath
  simp only [List.append_assoc, List.singleton_append]
  refine hpath.snoc ?_ ?_ ?_
  · intro x hx
    obtain ⟨e, he, rfl⟩ := List.mem_map.1 hx
    simp [setNext, hapart e (.inl he)]
  · simp [setNext]
  · simp [setNext, hne, hnext]

/-- The new element is linked between two elements that follow each other. -/
theorem path_linkBetween {element : ℕ} {pre r : List (Keyed ℕ)} {a b : Keyed ℕ}
    (hpath : Path (fun b => (l.element b).next) l.first ((pre ++ a :: b :: r).map Keyed.item))
    (hnodup : ((pre ++ a :: b :: r).map Keyed.item).Nodup)
    (hfresh : element ∉ (pre ++ a :: b :: r).map Keyed.item) :
    Path (fun x => (((l.setNext element (some b.item)).setNext a.item (some element)).element
      x).next) l.first (pre.map Keyed.item ++ a.item :: element :: (b :: r).map Keyed.item) := by
  obtain ⟨hne, hapart⟩ := apart_of_nodup hnodup hfresh
  have hsome : (l.element a.item).next = some b.item := by
    rw [List.map_append, List.map_cons] at hpath
    exact hpath.next_eq
  simp only [List.map_append, List.map_cons] at hpath ⊢
  refine hpath.link ?_ ?_ ?_ ?_
  · intro x hx
    obtain ⟨e, he, rfl⟩ := List.mem_map.1 hx
    simp [setNext, hapart e (.inl he)]
  · simp [setNext]
  · simp [setNext, hne, hsome]
  · rw [← List.map_cons]
    intro x hx
    obtain ⟨e, he, rfl⟩ := List.mem_map.1 hx
    simp [setNext, hapart e (.inr he)]

/-- The loop links the new element before the first one with a larger key behind `ptr`. -/
theorem insertLoop_ok {element n : ℕ} (sortKey : ℤ) {pre r : List (Keyed ℕ)} {a : Keyed ℕ}
    (hpath : Path (fun b => (l.element b).next) l.first ((pre ++ a :: r).map Keyed.item))
    (hnodup : ((pre ++ a :: r).map Keyed.item).Nodup)
    (hfresh : element ∉ (pre ++ a :: r).map Keyed.item) (hnext : (l.element element).next = none)
    (hkey : ∀ e ∈ r, (l.element e.item).key = e.key)
    (hlast : l.last = ((pre ++ a :: r).map Keyed.item).getLast?) (hn : r.length < n) :
    ∃ l', l.insertLoop element sortKey n a.item = .ok l' ∧ l.Relinked l' ∧
      Path (fun b => (l'.element b).next) l'.first
        ((pre ++ a :: Lib.sortedInsert ⟨element, sortKey⟩ r).map Keyed.item) ∧
      l'.last = ((pre ++ a :: Lib.sortedInsert ⟨element, sortKey⟩ r).map Keyed.item).getLast? := by
  induction r generalizing pre a n with
  | nil =>
      obtain ⟨n, rfl⟩ := Nat.exists_eq_succ_of_ne_zero (Nat.pos_iff_ne_zero.1 hn)
      have hend : (l.element a.item).next = none := by
        rw [List.map_append, List.map_cons] at hpath
        exact hpath.next_eq
      have hlast' : l.last = some a.item := by simp [hlast]
      refine ⟨{ l.setNext a.item (some element) with last := some element }, ?_,
        ⟨(relinked_setNext l _ _).key, (relinked_setNext l _ _).item, rfl⟩, ?_, ?_⟩
      · simp [insertLoop, hend, hlast']
      · have hlinked := path_linkLast hpath hnodup hfresh hnext
        simpa [Lib.sortedInsert, setNext] using hlinked
      · simp [Lib.sortedInsert]
  | cons b r ih =>
      obtain ⟨n, rfl⟩ := Nat.exists_eq_succ_of_ne_zero (Nat.ne_of_gt (Nat.zero_lt_of_lt hn))
      have hsome : (l.element a.item).next = some b.item := by
        rw [List.map_append, List.map_cons] at hpath
        exact hpath.next_eq
      by_cases hlt : sortKey < b.key
      · refine ⟨(l.setNext element (some b.item)).setNext a.item (some element), ?_,
          (relinked_setNext l _ _).trans (relinked_setNext _ _ _), ?_, ?_⟩
        · simp [insertLoop, hsome, hkey b (by simp), hlt]
        · rw [sortedInsert_cons, if_pos hlt, List.map_append]
          exact path_linkBetween hpath hnodup hfresh
        · rw [sortedInsert_cons, if_pos hlt]
          change l.last = _
          rw [hlast]
          simp
      · have hsplit : pre ++ a :: b :: r = (pre ++ [a]) ++ b :: r := by simp
        rw [hsplit] at hpath hnodup hfresh hlast
        obtain ⟨l', hok, hre, hpath', hlast'⟩ := ih hpath hnodup hfresh
          (fun e he => hkey e (by simp [he])) hlast (by simpa using hn)
        have hsplit' : pre ++ a :: Lib.sortedInsert ⟨element, sortKey⟩ (b :: r) =
            (pre ++ [a]) ++ b :: Lib.sortedInsert ⟨element, sortKey⟩ r := by
          rw [sortedInsert_cons, if_neg hlt]
          simp
        refine ⟨l', ?_, hre, ?_, ?_⟩
        · rw [insertLoop, hsome]
          simpa [hkey b (by simp), hlt] using hok
        · rw [hsplit']
          exact hpath'
        · rw [hsplit']
          exact hlast'

theorem Rep.length_le (h : l.Rep es) : es.length ≤ l.made := by
  have hsub : es.map Keyed.item ⊆ List.range l.made := by
    intro a ha
    obtain ⟨e, he, rfl⟩ := List.mem_map.1 ha
    exact List.mem_range.2 (h.lt e he)
  simpa using (List.subperm_of_subset h.nodup hsub).length_le

theorem Rep.ne_made (h : l.Rep es) : ∀ e ∈ es, e.item ≠ l.made := fun e he => (h.lt e he).ne

theorem Rep.made_notMem (h : l.Rep es) : l.made ∉ es.map Keyed.item := by
  intro hmem
  obtain ⟨e, he, heq⟩ := List.mem_map.1 hmem
  exact h.ne_made e he heq

theorem newElement_self (l : SortedList ι) (item : Option ι) (sortKey : ℤ) :
    (l.newElement item sortKey).element l.made = ⟨none, sortKey, item⟩ := by
  simp [newElement]

theorem newElement_of_ne (l : SortedList ι) (item : Option ι) (sortKey : ℤ) {a : ℕ}
    (ha : a ≠ l.made) : (l.newElement item sortKey).element a = l.element a := by
  simp [newElement, ha]

/-- `SortedInsert` always returns, with the elements in the order of `sortedInsert`. -/
theorem Rep.sortedInsert_linked (h : l.Rep es) (item : Option ι) (sortKey : ℤ) :
    ∃ l', l.sortedInsert item sortKey = .ok l' ∧ (l.newElement item sortKey).Relinked l' ∧
      Path (fun b => (l'.element b).next) l'.first
        ((Lib.sortedInsert ⟨l.made, sortKey⟩ es).map Keyed.item) ∧
      l'.last = ((Lib.sortedInsert ⟨l.made, sortKey⟩ es).map Keyed.item).getLast? := by
  have hne := h.ne_made
  have hfresh := h.made_notMem
  have hkeep : ∀ a ≠ l.made, (l.newElement item sortKey).element a = l.element a :=
    fun a ha => newElement_of_ne l item sortKey ha
  have hnew := newElement_self l item sortKey
  cases es with
  | nil =>
      have hfirst : l.first = none := h.path
      refine ⟨{ l.newElement item sortKey with first := some l.made, last := some l.made }, ?_,
        ⟨fun _ => rfl, fun _ => rfl, rfl⟩, ?_, ?_⟩
      · simp only [SortedList.sortedInsert, hfirst]
      · exact ⟨rfl, by simp [newElement, Lib.Path]⟩
      · simp [Lib.sortedInsert]
  | cons d es =>
      have hfirst : l.first = some d.item := h.path.1
      by_cases hlt : sortKey < d.key
      · refine ⟨{ (l.newElement item sortKey).setNext l.made (some d.item) with
            first := some l.made }, ?_,
          ⟨(relinked_setNext _ _ _).key, (relinked_setNext _ _ _).item, rfl⟩, ?_, ?_⟩
        · simp [SortedList.sortedInsert, hfirst, h.key d (by simp), hlt]
        · rw [sortedInsert_cons, if_pos hlt]
          refine ⟨rfl, ?_⟩
          have hpath : Path (fun b => (l.element b).next) (some d.item)
              ((d :: es).map Keyed.item) := ⟨rfl, h.path.2⟩
          simp only [setNext, Function.update_self]
          refine hpath.congr ?_
          intro x hx
          obtain ⟨e, he, rfl⟩ := List.mem_map.1 hx
          simp [newElement, hne e he]
        · rw [sortedInsert_cons, if_pos hlt]
          change l.last = _
          rw [h.last]
          simp
      · have hpath : Path (fun b => ((l.newElement item sortKey).element b).next)
            (l.newElement item sortKey).first (([] ++ d :: es).map Keyed.item) := by
          have hpath₀ : Path (fun b => (l.element b).next) l.first ((d :: es).map Keyed.item) :=
            h.path
          refine hpath₀.congr ?_
          intro x hx
          obtain ⟨e, he, rfl⟩ := List.mem_map.1 hx
          rw [hkeep _ (hne e he)]
        have hlen := h.length_le
        obtain ⟨l', hok, hre, hpath', hlast'⟩ := insertLoop_ok (n := l.made + 1) sortKey
          hpath h.nodup hfresh (by rw [hnew])
          (fun e he => by rw [hkeep _ (hne e (by simp [he])), h.key e (by simp [he])]) h.last
          (by rw [List.length_cons] at hlen; omega)
        refine ⟨l', ?_, hre, ?_, ?_⟩
        · simpa [SortedList.sortedInsert, hfirst, h.key d (by simp), hlt, newElement] using hok
        · rw [sortedInsert_cons, if_neg hlt]
          exact hpath'
        · rw [sortedInsert_cons, if_neg hlt]
          exact hlast'

/-- The new element has the item, and it comes where `sortedInsert` puts it. -/
theorem Rep.sortedInsert (h : l.Rep es) (item : Option ι) (sortKey : ℤ) :
    ∃ l', l.sortedInsert item sortKey = .ok l' ∧ l'.Rep (Lib.sortedInsert ⟨l.made, sortKey⟩ es) ∧
      l'.made = l.made + 1 ∧ (l'.element l.made).item = item ∧
      ∀ a ≠ l.made, (l'.element a).item = (l.element a).item := by
  have hperm : ((Lib.sortedInsert ⟨l.made, sortKey⟩ es).map Keyed.item).Perm
      (l.made :: es.map Keyed.item) := by
    simpa using (perm_sortedInsert ⟨l.made, sortKey⟩ es).map Keyed.item
  have hnodup := hperm.nodup_iff.2 (List.nodup_cons.2 ⟨h.made_notMem, h.nodup⟩)
  obtain ⟨l', hok, hre, hpath, hlast⟩ := h.sortedInsert_linked item sortKey
  refine ⟨l', hok, ⟨hpath, hnodup, ?_, ?_, hlast⟩, hre.made, ?_, ?_⟩
  · intro e he
    rw [hre.key]
    rcases mem_sortedInsert.1 he with rfl | he
    · rw [newElement_self]
    · rw [newElement_of_ne l item sortKey (h.ne_made e he), h.key e he]
  · intro e he
    rw [hre.made]
    rcases mem_sortedInsert.1 he with rfl | he
    · exact Nat.lt_succ_self _
    · exact (h.lt e he).trans (Nat.lt_succ_self _)
  · rw [hre.item, newElement_self]
  · intro a ha
    rw [hre.item, newElement_of_ne l item sortKey ha]

theorem Rep.first_eq (h : l.Rep es) : l.first = es.head?.map Keyed.item := by
  rw [h.path.head_eq, List.head?_map]

theorem Rep.sortedRemove_nil (h : l.Rep []) : l.sortedRemove = (none, none, l) := by
  have hfirst : l.first = none := h.path
  simp [SortedList.sortedRemove, hfirst]

/-- `SortedRemove` takes the first element. -/
theorem Rep.sortedRemove {e : Keyed ℕ} (h : l.Rep (e :: es)) :
    ∃ l', l.sortedRemove = ((l.element e.item).item, some e.key, l') ∧ l'.Rep es ∧
      l'.made = l.made ∧ ∀ a ≠ e.item, (l'.element a).item = (l.element a).item := by
  have hfirst : l.first = some e.item := h.path.1
  obtain ⟨ha, hnodup⟩ := List.nodup_cons.1 h.nodup
  have hother : ∀ d ∈ es, d.item ≠ e.item := fun d hd heq => ha (heq ▸ List.mem_map_of_mem hd)
  have hpath : Path (fun b => (Function.update l.element e.item ⟨none, 0, none⟩ b).next)
      (l.element e.item).next (es.map Keyed.item) := by
    have hpath₀ : Path (fun b => (l.element b).next) (l.element e.item).next
        (es.map Keyed.item) := h.path.2
    refine hpath₀.congr ?_
    intro x hx
    obtain ⟨d, hd, rfl⟩ := List.mem_map.1 hx
    simp [hother d hd]
  have hkey : ∀ d ∈ es, (Function.update l.element e.item ⟨none, 0, none⟩ d.item).key = d.key := by
    intro d hd
    rw [Function.update_of_ne (hother d hd), h.key d (by simp [hd])]
  have hitem : ∀ a ≠ e.item,
      (Function.update l.element e.item ⟨none, 0, none⟩ a).item = (l.element a).item := by
    intro a hne
    rw [Function.update_of_ne hne]
  cases es with
  | nil =>
      have hlast : l.last = some e.item := h.last
      refine ⟨{ l with
          first := none
          last := none
          element := Function.update l.element e.item ⟨none, 0, none⟩ }, ?_,
        ⟨rfl, .nil, by simp, by simp, rfl⟩, rfl, hitem⟩
      simp [SortedList.sortedRemove, hfirst, hlast, h.key e (by simp)]
  | cons d es =>
      have hlast : l.last = ((d :: es).map Keyed.item).getLast? := by simpa using h.last
      have hne : ¬ some e.item = l.last := by
        rw [hlast]
        intro heq
        exact ha (List.mem_of_getLast? heq.symm)
      refine ⟨{ l with
          first := (l.element e.item).next
          element := Function.update l.element e.item ⟨none, 0, none⟩ }, ?_,
        ⟨hpath, hnodup, hkey, fun c hc => h.lt c (by simp [hc]), hlast⟩, rfl, hitem⟩
      simp [SortedList.sortedRemove, hfirst, hne, h.key e (by simp)]

/-! ## Items -/

/-- The list has the items and keys of `xs`, in this order. -/
def Keeps (l : SortedList ι) (xs : List (Keyed (Option ι))) : Prop :=
  ∃ ns, l.Rep ns ∧ ns.map (fun n => ⟨(l.element n.item).item, n.key⟩) = xs

theorem keeps_new : (new : SortedList ι).Keeps [] := ⟨[], rep_new, rfl⟩

theorem Keeps.sortedInsert {xs : List (Keyed (Option ι))} (h : l.Keeps xs)
    (x : Keyed (Option ι)) :
    ∃ l', l.sortedInsert x.item x.key = .ok l' ∧ l'.Keeps (Lib.sortedInsert x xs) := by
  obtain ⟨ns, h, rfl⟩ := h
  obtain ⟨l', hok, hrep, -, hitem, hother⟩ := h.sortedInsert x.item x.key
  refine ⟨l', hok, _, hrep, ?_⟩
  rw [map_sortedInsert fun a => (l'.element a).item, hitem]
  congr 1
  refine List.map_congr_left fun n hn => ?_
  rw [hother _ (h.lt n hn).ne]

theorem Keeps.sortedRemove_nil (h : l.Keeps []) : l.sortedRemove = (none, none, l) := by
  obtain ⟨ns, h, hns⟩ := h
  cases List.map_eq_nil_iff.1 hns
  exact h.sortedRemove_nil

theorem Keeps.sortedRemove {x : Keyed (Option ι)} {xs : List (Keyed (Option ι))}
    (h : l.Keeps (x :: xs)) :
    ∃ l', l.sortedRemove = (x.item, some x.key, l') ∧ l'.Keeps xs := by
  obtain ⟨ns, h, hns⟩ := h
  obtain ⟨n, ns, rfl, rfl, rfl⟩ := List.map_eq_cons_iff.1 hns
  obtain ⟨l', hok, hrep, -, hother⟩ := h.sortedRemove
  refine ⟨l', hok, ns, hrep, List.map_congr_left fun m hm => ?_⟩
  have hne : m.item ≠ n.item := by
    intro heq
    exact (List.nodup_cons.1 h.nodup).1 (heq ▸ List.mem_map_of_mem hm)
  rw [hother _ hne]

/-- The list has the items of `es` with their keys, in this order. -/
def Holds (l : SortedList ι) (es : List (Keyed ι)) : Prop :=
  ∃ ns, l.Rep ns ∧
    List.Forall₂ (fun n e => (l.element n.item).item = some e.item ∧ n.key = e.key) ns es

theorem holds_iff {xs : List (Keyed ι)} :
    l.Holds xs ↔ l.Keeps (xs.map fun x => ⟨some x.item, x.key⟩) := by
  refine exists_congr fun ns => and_congr_right fun _ => ?_
  rw [← List.forall₂_eq_eq_eq, List.forall₂_map_left_iff, List.forall₂_map_right_iff]
  simp only [Keyed.mk.injEq]

theorem holds_new : (new : SortedList ι).Holds [] := ⟨[], rep_new, .nil⟩

theorem Holds.isEmpty_iff {xs : List (Keyed ι)} (h : l.Holds xs) : l.isEmpty = true ↔ xs = [] := by
  obtain ⟨ns, h, hxs⟩ := h
  rw [isEmpty, h.first_eq]
  cases hxs <;> simp

theorem walk_eq {element : ℕ → SortedElement ι} {as : List ℕ} {p : Option ℕ} {n : ℕ}
    (h : Path (fun a => (element a).next) p as) (hn : as.length ≤ n) :
    walk element n p = as.map fun a => ((element a).item, (element a).key) := by
  induction as generalizing p n with
  | nil =>
      obtain rfl : p = none := h
      cases n <;> rfl
  | cons a as ih =>
      obtain ⟨rfl, h⟩ := h
      cases n with
      | zero => simp at hn
      | succ n => simp [walk, ih h (Nat.le_of_succ_le_succ hn)]

theorem Holds.entries_eq {xs : List (Keyed ι)} (h : l.Holds xs) :
    l.entries = xs.map fun x => (some x.item, x.key) := by
  obtain ⟨ns, h, hxs⟩ := h
  have hkey : ∀ n ∈ ns, (l.element n.item).key = n.key := h.key
  rw [entries, walk_eq h.path (by simpa using h.length_le), List.map_map]
  clear h
  induction hxs with
  | nil => rfl
  | @cons n x ns xs hn hns ih =>
      rw [List.map_cons, List.map_cons, ih fun m hm => hkey m (by simp [hm])]
      simp [hn.1, hn.2, hkey n (by simp)]

theorem Holds.sortedInsert {xs : List (Keyed ι)} (h : l.Holds xs) (x : Keyed ι) :
    ∃ l', l.sortedInsert (some x.item) x.key = .ok l' ∧ l'.Holds (Lib.sortedInsert x xs) := by
  obtain ⟨l', hok, hkeeps⟩ := (holds_iff.1 h).sortedInsert ⟨some x.item, x.key⟩
  refine ⟨l', hok, holds_iff.2 ?_⟩
  rwa [map_sortedInsert some]

theorem Holds.sortedRemove_nil (h : l.Holds []) : l.sortedRemove = (none, none, l) :=
  (holds_iff.1 h).sortedRemove_nil

theorem Holds.sortedRemove {x : Keyed ι} {xs : List (Keyed ι)} (h : l.Holds (x :: xs)) :
    ∃ l', l.sortedRemove = (some x.item, some x.key, l') ∧ l'.Holds xs := by
  obtain ⟨l', hok, hkeeps⟩ := (holds_iff.1 h).sortedRemove
  exact ⟨l', hok, holds_iff.2 hkeeps⟩

end SortedList

end Nachos
