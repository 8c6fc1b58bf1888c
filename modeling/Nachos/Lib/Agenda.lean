import Nachos.Lib.Seating
import Mathlib.Data.List.Count

/-!
# Agendas

An agenda is a sorted queue of numbered entries beside a clock. The key of an entry is the time at
which it is due. The clock goes forward, entries are added, the first entry is fired when it is
due, and one that is not yet due may be taken off and put back.

`Moves T P Q` are the sequences of such moves in which `T` holds of the clock before and after it is
moved, `P` of the time of every new entry, and `Q` of every entry that is put back and of the
entries behind it. What has been fired and what is to come are one list, `history`, and the
invariants are about its order.
-/

namespace Lib

structure Agenda where
  entries : List (Keyed ℕ)
  /-- The entries that have been fired, and when. -/
  fired : List (Keyed ℕ × ℤ)
  now : ℤ
  /-- The number of entries that have been made. -/
  next : ℕ

namespace Agenda

def empty : Agenda := ⟨[], [], 0, 0⟩

def wait (A : Agenda) (t : ℤ) : Agenda := { A with now := t }

def add (A : Agenda) (w : ℤ) : Agenda :=
  { A with entries := sortedInsert ⟨A.next, w⟩ A.entries, next := A.next + 1 }

def addAll (A : Agenda) (ws : List ℤ) : Agenda := ws.foldl add A

/-- The first entry `e` is fired, and those of `es` are left. -/
def fire (A : Agenda) (e : Keyed ℕ) (es : List (Keyed ℕ)) : Agenda :=
  { A with entries := es, fired := A.fired ++ [(e, A.now)] }

/-- The first entry `e` is taken off and put back among those of `es`. -/
def putBack (A : Agenda) (e : Keyed ℕ) (es : List (Keyed ℕ)) : Agenda :=
  { A with entries := sortedInsert e es }

/-- The entries that have been fired and then those that are to come. -/
def history (A : Agenda) : List (Keyed ℕ) := A.fired.map Prod.fst ++ A.entries

inductive Moves (T : ℤ → ℤ → Prop) (P : Agenda → ℤ → Prop) (Q : Keyed ℕ → List (Keyed ℕ) → Prop)
    (A : Agenda) : Agenda → Prop
  | refl : Moves T P Q A A
  | wait {B t} (h : Moves T P Q A B) (ht : T B.now t) : Moves T P Q A (B.wait t)
  | add {B w} (h : Moves T P Q A B) (hw : P B w) : Moves T P Q A (B.add w)
  | fire {B e es} (h : Moves T P Q A B) (he : B.entries = e :: es) (hdue : e.key ≤ B.now) :
      Moves T P Q A (B.fire e es)
  | putBack {B e es} (h : Moves T P Q A B) (he : B.entries = e :: es) (hq : Q e es) :
      Moves T P Q A (B.putBack e es)

variable {T : ℤ → ℤ → Prop} {P : Agenda → ℤ → Prop} {Q : Keyed ℕ → List (Keyed ℕ) → Prop}
  {A B : Agenda} {e : Keyed ℕ} {es : List (Keyed ℕ)}

@[simp] theorem addAll_now (A : Agenda) (ws : List ℤ) : (A.addAll ws).now = A.now := by
  induction ws generalizing A with
  | nil => rfl
  | cons w ws ih => exact ih (A.add w)

theorem Moves.addAll (h : Moves T P Q A B) {ws : List ℤ}
    (hw : ∀ w ∈ ws, ∀ C : Agenda, C.now = B.now → P C w) : Moves T P Q A (B.addAll ws) := by
  induction ws generalizing B with
  | nil => exact h
  | cons w ws ih =>
      have hadd : Moves T P Q A (B.add w) := h.add (hw w (by simp) B rfl)
      exact ih hadd fun v hv C hC => hw v (by simp [hv]) C hC

/-- What holds of the times of all new entries holds of the times of all entries. -/
theorem Moves.forall_key {R : ℤ → Prop} (hmoves : Moves T P Q A B) (h : ∀ e ∈ A.entries, R e.key)
    (hnew : ∀ C w, P C w → R w) : ∀ e ∈ B.entries, R e.key := by
  induction hmoves with
  | refl => exact h
  | wait _ _ ih => exact ih
  | @add B w _ hw ih =>
      intro e he
      rcases mem_sortedInsert.1 he with rfl | he
      · exact hnew B w hw
      · exact ih e he
  | @fire B e es _ he _ ih =>
      intro d hd
      exact ih d (he ▸ List.mem_cons_of_mem e hd)
  | @putBack B e es _ he _ ih =>
      intro d hd
      exact ih d (he ▸ List.mem_cons.2 (mem_sortedInsert.1 hd))

/-! ## Every entry once -/

/-- No entry occurs twice, and none is fired too early. -/
structure Distinct (A : Agenda) : Prop where
  sorted : SortedKeys A.entries
  nodup : (A.history.map Keyed.item).Nodup
  lt : ∀ e ∈ A.history, e.item < A.next
  due : ∀ f ∈ A.fired, f.1.key ≤ f.2

theorem distinct_empty : empty.Distinct :=
  ⟨List.Pairwise.nil, List.nodup_nil, by simp [history, empty], by simp [empty]⟩

theorem history_fire (he : A.entries = e :: es) : (A.fire e es).history = A.history := by
  simp [history, fire, he]

theorem perm_history_add (A : Agenda) (w : ℤ) :
    (A.add w).history.Perm (⟨A.next, w⟩ :: A.history) := by
  refine ((perm_sortedInsert _ A.entries).append_left _).trans ?_
  exact List.perm_middle

theorem perm_history_putBack (he : A.entries = e :: es) :
    (A.putBack e es).history.Perm A.history := by
  rw [history, history, he]
  exact (perm_sortedInsert e es).append_left _

theorem Distinct.moves (h : A.Distinct) (hmoves : Moves T P Q A B) : B.Distinct := by
  induction hmoves with
  | refl => exact h
  | wait _ _ ih => exact ⟨ih.sorted, ih.nodup, ih.lt, ih.due⟩
  | @add B w _ _ ih =>
      have hperm := perm_history_add B w
      refine ⟨ih.sorted.insert _, ?_, ?_, ih.due⟩
      · refine (hperm.map Keyed.item).nodup_iff.2 (List.nodup_cons.2 ⟨?_, ih.nodup⟩)
        intro hmem
        obtain ⟨d, hd, hitem⟩ := List.mem_map.1 hmem
        exact (ih.lt d hd).ne hitem
      · intro d hd
        rcases List.mem_cons.1 (hperm.subset hd) with rfl | hd
        · exact Nat.lt_succ_self _
        · exact (ih.lt d hd).trans (Nat.lt_succ_self _)
  | @fire B e es _ he hdue ih =>
      refine ⟨?_, ?_, ?_, ?_⟩
      · have hsorted := ih.sorted
        rw [he] at hsorted
        exact (List.pairwise_cons.1 hsorted).2
      · rw [history_fire he]
        exact ih.nodup
      · rw [history_fire he]
        exact ih.lt
      · intro f hf
        rcases List.mem_append.1 hf with hf | hf
        · exact ih.due f hf
        · rw [List.mem_singleton.1 hf]
          exact hdue
  | @putBack B e es _ he _ ih =>
      have hperm := perm_history_putBack he
      have hsorted := ih.sorted
      rw [he] at hsorted
      refine ⟨SortedKeys.insert (List.pairwise_cons.1 hsorted).2 e, ?_, ?_, ih.due⟩
      · exact (hperm.map Keyed.item).nodup_iff.2 ih.nodup
      · exact fun d hd => ih.lt d (hperm.subset hd)

/-! ## In the order of time -/

/-- The history is in the order of time, and what has been fired was due. -/
structure Chronological (A : Agenda) : Prop where
  order : SortedKeys A.history
  past : ∀ f ∈ A.fired, f.1.key ≤ A.now

theorem chronological_empty : empty.Chronological := ⟨List.Pairwise.nil, by simp [empty]⟩

/-- When the clock is not moved back and every new entry lies in the future, the order of time is
kept. -/
theorem Chronological.moves (h : A.Chronological) (hclock : ∀ s t, T s t → s ≤ t)
    (hfuture : ∀ C w, P C w → C.now < w) (hmoves : Moves T P Q A B) : B.Chronological := by
  induction hmoves with
  | refl => exact h
  | wait _ ht ih => exact ⟨ih.order, fun f hf => (ih.past f hf).trans (hclock _ _ ht)⟩
  | @add B w _ hw ih =>
      obtain ⟨hfired, hentries, hbetween⟩ := List.pairwise_append.1 ih.order
      refine ⟨List.pairwise_append.2 ⟨hfired, SortedKeys.insert hentries _, ?_⟩, ih.past⟩
      intro d hd c hc
      rcases mem_sortedInsert.1 hc with rfl | hc
      · obtain ⟨f, hf, rfl⟩ := List.mem_map.1 hd
        exact (ih.past f hf).trans (hfuture B w hw).le
      · exact hbetween d hd c hc
  | @fire B e es _ he hdue ih =>
      refine ⟨?_, ?_⟩
      · rw [history_fire he]
        exact ih.order
      · intro f hf
        rcases List.mem_append.1 hf with hf | hf
        · exact ih.past f hf
        · rw [List.mem_singleton.1 hf]
          exact hdue
  | @putBack B e es _ he _ ih =>
      have horder := ih.order
      rw [history, he] at horder
      obtain ⟨hfired, hentries, hbetween⟩ := List.pairwise_append.1 horder
      have hentries' : SortedKeys (sortedInsert e es) :=
        SortedKeys.insert (List.pairwise_cons.1 hentries).2 e
      refine ⟨List.pairwise_append.2 ⟨hfired, hentries', ?_⟩, ih.past⟩
      intro d hd c hc
      exact hbetween d hd c (List.mem_cons.2 (mem_sortedInsert.1 hc))

/-! ## Entries that are due -/

/-- How many entries are due. -/
def due (A : Agenda) : ℕ := A.entries.countP fun e => e.key ≤ A.now

theorem due_add {w : ℤ} (hw : A.now < w) : (A.add w).due = A.due := by
  have hnot : ¬ w ≤ A.now := hw.not_ge
  rw [due, add, (perm_sortedInsert _ _).countP_eq, List.countP_cons]
  simp [due, hnot]

theorem due_addAll {ws : List ℤ} (hw : ∀ w ∈ ws, A.now < w) : (A.addAll ws).due = A.due := by
  induction ws generalizing A with
  | nil => rfl
  | cons w ws ih =>
      have hrest : ((A.add w).addAll ws).due = (A.add w).due :=
        ih fun v hv => hw v (List.mem_cons_of_mem w hv)
      exact hrest.trans (due_add (hw w List.mem_cons_self))

theorem due_fire (he : A.entries = e :: es) (hdue : e.key ≤ A.now) :
    (A.fire e es).due + 1 = A.due := by
  have hcount : A.due = (A.fire e es).due + 1 := by
    rw [due, he]
    exact List.countP_cons_of_pos (by simpa using hdue)
  exact hcount.symm

/-- If the first entry is not due, then none is. -/
theorem Distinct.not_due (h : A.Distinct) (hfirst : ∀ e ∈ A.entries.head?, A.now < e.key) :
    ∀ e ∈ A.entries, A.now < e.key := by
  have hsorted := h.sorted
  intro d hd
  cases hentries : A.entries with
  | nil =>
      rw [hentries] at hd
      cases hd
  | cons e es =>
      rw [hentries] at hd hsorted
      have hlt : A.now < e.key := hfirst e (by simp [hentries])
      rcases List.mem_cons.1 hd with rfl | hd
      · exact hlt
      · exact hlt.trans_le ((List.pairwise_cons.1 hsorted).1 d hd)

/-! ## Entries for the same time -/

/-- Entries for the same time are fired in the order in which they were added. -/
def InTurn (A : Agenda) : Prop := A.history.Pairwise fun a b => a.key = b.key → a.item < b.item

theorem inTurn_empty : empty.InTurn := List.Pairwise.nil

/-- An entry comes back to the front exactly when no other one is for the same time. -/
theorem sortedInsert_eq_cons_iff (hsorted : SortedKeys (e :: es)) (hmem : e ∉ es) :
    sortedInsert e es = e :: es ↔ ∀ d ∈ es, d.key ≠ e.key := by
  cases es with
  | nil => simp [sortedInsert]
  | cons d es =>
      obtain ⟨hle, hes⟩ := List.pairwise_cons.1 hsorted
      rw [sortedInsert_cons]
      split
      · rename_i hlt
        refine iff_of_true rfl fun c hc => ?_
        rcases List.mem_cons.1 hc with rfl | hc
        · exact hlt.ne'
        · exact (hlt.trans_le ((List.pairwise_cons.1 hes).1 c hc)).ne'
      · rename_i hnot
        refine iff_of_false ?_ ?_
        · intro heq
          exact hmem ((List.cons.inj heq).1 ▸ List.mem_cons_self)
        · intro hne
          exact hne d List.mem_cons_self (le_antisymm (not_lt.1 hnot) (hle d List.mem_cons_self))

theorem inTurn_insert {q : List (Keyed ℕ)} (hsorted : SortedKeys q)
    (h : q.Pairwise fun a b => a.key = b.key → a.item < b.item) (hnew : ∀ d ∈ q, d.item < e.item) :
    (sortedInsert e q).Pairwise fun a b => a.key = b.key → a.item < b.item := by
  have hstable : Stable q := by
    refine (hsorted.and h).imp fun {a b} hab => ?_
    rcases hab.1.lt_or_eq with hlt | heq
    · exact .inl hlt
    · exact .inr ⟨heq, hab.2 heq⟩
  refine (hstable.insert hnew).imp fun {a b} hab heq => ?_
  rcases hab with hlt | ⟨-, hlt⟩
  · exact absurd heq hlt.ne
  · exact hlt

/-- The first entry goes back to its place if and only if no other one is for its time. -/
theorem Distinct.sortedInsert_eq_iff (h : A.Distinct) {e : Keyed ℕ} {es : List (Keyed ℕ)}
    (he : A.entries = e :: es) : sortedInsert e es = e :: es ↔ ∀ d ∈ es, d.key ≠ e.key := by
  have hsorted := h.sorted
  have hnodup := h.nodup
  rw [he] at hsorted
  rw [history, he, List.map_append, List.map_cons] at hnodup
  refine sortedInsert_eq_cons_iff hsorted fun hmem => ?_
  exact (List.nodup_cons.1 (List.nodup_append.1 hnodup).2.1).1 (List.mem_map_of_mem hmem)

/-- When an entry is put back only if no other one is for the same time, the turn is kept. -/
theorem InTurn.moves (h : A.InTurn) (hd : A.Distinct)
    (hq : ∀ e es, Q e es → ∀ d ∈ es, d.key ≠ e.key)
    (hmoves : Moves T P Q A B) : B.InTurn := by
  induction hmoves with
  | refl => exact h
  | wait _ _ ih => exact ih
  | @add B w hAB _ ih =>
      have hB := hd.moves hAB
      obtain ⟨hfired, hentries, hbetween⟩ := List.pairwise_append.1 ih
      refine List.pairwise_append.2 ⟨hfired, inTurn_insert hB.sorted hentries ?_, ?_⟩
      · exact fun d hd => hB.lt d (List.mem_append_right _ hd)
      · intro d hd c hc heq
        rcases mem_sortedInsert.1 hc with rfl | hc
        · exact hB.lt d (List.mem_append_left _ hd)
        · exact hbetween d hd c hc heq
  | @fire B e es _ he _ ih =>
      rw [InTurn, history_fire he]
      exact ih
  | @putBack B e es hAB he hQ ih =>
      have hB := hd.moves hAB
      have hsame : B.putBack e es = B := by
        rw [putBack, (hB.sortedInsert_eq_iff he).2 (hq e es hQ), ← he]
      rw [hsame]
      exact ih

end Agenda

end Lib
