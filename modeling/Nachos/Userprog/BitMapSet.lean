import Nachos.Lib.Run
import Nachos.Userprog.BitMap
import Mathlib.Data.Finset.Card
import Mathlib.Order.Bounds.Basic

/-!
# A bit map is a finite set

The calls of a `BitMap` on a set of numbers below `numBits`. `Represents b S` says that the bits
of `b` tell which numbers are in `S`; every call keeps it, so that a bit map that has been made
from any words and any calls shows the set that the calls make.
-/

namespace Nachos

namespace BitMap

open Lib

inductive Call where
  | mark (which : ℤ)
  | clear (which : ℤ)
  | find
  deriving DecidableEq, Repr

namespace Call

/-- The argument is a number below `numBits`. -/
def InRange (numBits : ℕ) : Call → Prop
  | mark which | clear which => 0 ≤ which ∧ which < numBits
  | find => True

instance (numBits : ℕ) : DecidablePred (InRange numBits)
  | mark _ | clear _ => inferInstanceAs (Decidable (_ ∧ _))
  | find => inferInstanceAs (Decidable True)

end Call

def step (b : BitMap) : Call → Except Fault BitMap
  | .mark which => b.mark which
  | .clear which => b.clear which
  | .find =>
      match b.find with
      | .error e => .error e
      | .ok (_, b') => .ok b'

/-! ## On sets -/

/-- The least number below `n` that is not in the set. -/
def leastFree (n : ℕ) (S : Finset ℕ) : Option ℕ := (List.range n).find? fun i => i ∉ S

/-- What a call does to the set. -/
def act (n : ℕ) (S : Finset ℕ) : Call → Finset ℕ
  | .mark which => insert which.toNat S
  | .clear which => S.erase which.toNat
  | .find =>
      match leastFree n S with
      | none => S
      | some i => insert i S

variable {b b' : BitMap} {S : Finset ℕ} {n i : ℕ}

theorem leastFree_eq_some_iff :
    leastFree n S = some i ↔ IsLeast {j | j < n ∧ j ∉ S} i := by
  rw [leastFree, List.find?_range_eq_some]
  simp only [decide_eq_true_eq, List.mem_range, Bool.not_eq_true', decide_eq_false_iff_not,
    not_not]
  constructor
  · rintro ⟨hfree, hlt, hall⟩
    refine ⟨⟨hlt, hfree⟩, ?_⟩
    rintro j ⟨-, hj⟩
    by_contra hji
    exact hj (hall j (by omega))
  · rintro ⟨⟨hlt, hfree⟩, hleast⟩
    refine ⟨hfree, hlt, ?_⟩
    intro j hj
    by_contra hjS
    have := hleast ⟨by omega, hjS⟩
    omega

theorem leastFree_eq_none_iff : leastFree n S = none ↔ ∀ i < n, i ∈ S := by
  simp [leastFree]

/-! ## The words show the set -/

structure Represents (b : BitMap) (n : ℕ) (S : Finset ℕ) : Prop where
  numBits : b.numBits = n
  lt : ∀ i ∈ S, i < n
  bit : ∀ i < n, b.bit i = decide (i ∈ S)

theorem Represents.test (h : Represents b n S) (hi : i < n) : b.test i = .ok (decide (i ∈ S)) := by
  rw [test_eq (by rw [h.numBits]; exact hi), h.bit i hi]

theorem Represents.mark (h : Represents b n S) (hi : i < n) :
    ∃ b', b.mark i = .ok b' ∧ Represents b' n (insert i S) := by
  obtain ⟨b', hb', hbits, hbit⟩ := mark_spec (b := b) (i := i) (by rw [h.numBits]; exact hi)
  refine ⟨b', hb', hbits.trans h.numBits, ?_, ?_⟩
  · intro j hj
    rcases Finset.mem_insert.1 hj with rfl | hj
    · exact hi
    · exact h.lt j hj
  · intro j hj
    rw [hbit, h.bit j hj]
    simp

theorem Represents.clear (h : Represents b n S) (hi : i < n) :
    ∃ b', b.clear i = .ok b' ∧ Represents b' n (S.erase i) := by
  obtain ⟨b', hb', hbits, hbit⟩ := clear_spec (b := b) (i := i) (by rw [h.numBits]; exact hi)
  refine ⟨b', hb', hbits.trans h.numBits, fun j hj => h.lt j (Finset.mem_of_mem_erase hj), ?_⟩
  intro j hj
  rw [hbit, h.bit j hj]
  simp

theorem Represents.find (h : Represents b n S) :
    (leastFree n S = none ∧ b.find = .ok (-1, b)) ∨
      ∃ i b', leastFree n S = some i ∧ b.find = .ok ((i : ℕ), b') ∧
        Represents b' n (insert i S) := by
  rcases b.find_spec with ⟨hfind, hall⟩ | ⟨i, b', hfind, hlt, hclear, hset, hbits, hbit⟩
  · refine .inl ⟨leastFree_eq_none_iff.2 fun i hi => ?_, hfind⟩
    have := hall i (by rw [h.numBits]; exact hi)
    rwa [h.bit i hi, decide_eq_true_eq] at this
  · rw [h.numBits] at hlt hbits
    refine .inr ⟨i, b', leastFree_eq_some_iff.2 ⟨⟨hlt, ?_⟩, ?_⟩, hfind, hbits, ?_, ?_⟩
    · rwa [h.bit i hlt, decide_eq_false_iff_not] at hclear
    · rintro j ⟨hj, hfree⟩
      by_contra hji
      have := hset j (by omega)
      rw [h.bit j hj, decide_eq_true_eq] at this
      exact hfree this
    · intro j hj
      rcases Finset.mem_insert.1 hj with rfl | hj
      · exact hlt
      · exact h.lt j hj
    · intro j hj
      rw [hbit, h.bit j hj]
      simp

theorem Represents.numClear (h : Represents b n S) : b.numClear = .ok (n - S.card) := by
  have hsub : S ⊆ Finset.range n := fun i hi => Finset.mem_range.2 (h.lt i hi)
  have hclear : (Finset.range n).filter (fun i => b.bit i = false) = Finset.range n \ S := by
    ext i
    simp only [Finset.mem_filter, Finset.mem_sdiff, Finset.mem_range, and_congr_right_iff]
    intro hi
    rw [h.bit i hi, decide_eq_false_iff_not]
  rw [numClear_eq, h.numBits, Nat.count_eq_card_filter_range, hclear,
    Finset.card_sdiff_of_subset hsub, Finset.card_range]

theorem represents_new (nitems : ℕ) (raw : ℕ → BitVec 32) :
    ∃ b, new nitems raw = .ok b ∧ Represents b nitems ∅ := by
  obtain ⟨b, hb, hbits, hbit⟩ := new_spec nitems raw
  exact ⟨b, hb, hbits, fun i hi => absurd hi (Finset.notMem_empty i),
    fun i hi => by simp [hbit i hi]⟩

/-- A call on the bit map is the call on the set. -/
theorem Represents.step (h : Represents b n S) {c : Call} (hrange : c.InRange n) :
    ∃ b', b.step c = .ok b' ∧ Represents b' n (act n S c) := by
  cases c with
  | mark which =>
      obtain ⟨i, rfl⟩ := Int.eq_ofNat_of_zero_le hrange.1
      exact h.mark (by exact_mod_cast hrange.2)
  | clear which =>
      obtain ⟨i, rfl⟩ := Int.eq_ofNat_of_zero_le hrange.1
      exact h.clear (by exact_mod_cast hrange.2)
  | find =>
      rcases h.find with ⟨hnone, hfind⟩ | ⟨i, b', hsome, hfind, hb'⟩
      · refine ⟨b, by rw [BitMap.step, hfind], ?_⟩
        rwa [act, hnone]
      · refine ⟨b', by rw [BitMap.step, hfind], ?_⟩
        rwa [act, hsome]

theorem Represents.run {calls : List Call} (h : Represents b n S)
    (hrange : ∀ c ∈ calls, c.InRange n) :
    ∃ b', runFrom BitMap.step b calls = .ok b' ∧ Represents b' n (calls.foldl (act n) S) := by
  induction calls generalizing b S with
  | nil => exact ⟨b, rfl, h⟩
  | cons c calls ih =>
      obtain ⟨b₁, hstep, h₁⟩ := h.step (hrange c List.mem_cons_self)
      obtain ⟨b₂, hrun, h₂⟩ := ih h₁ fun c' hc' => hrange c' (List.mem_cons_of_mem c hc')
      exact ⟨b₂, (runFrom_cons_ok BitMap.step b b₂ c calls).2 ⟨b₁, hstep, hrun⟩, h₂⟩

/-- A bit map refines a finite set. -/
theorem bitMap_refines_set (nitems : ℕ) (raw : ℕ → BitVec 32) (calls : List Call)
    (hrange : ∀ c ∈ calls, c.InRange nitems) :
    ∃ b₀ b, new nitems raw = .ok b₀ ∧ runFrom step b₀ calls = .ok b ∧
      (∀ i < nitems, b.test i = .ok (decide (i ∈ calls.foldl (act nitems) ∅))) ∧
        (((∀ i < nitems, i ∈ calls.foldl (act nitems) ∅) ∧ b.find = .ok (-1, b)) ∨
          ∃ i b', IsLeast {j | j < nitems ∧ j ∉ calls.foldl (act nitems) ∅} i ∧
            b.find = .ok ((i : ℕ), b') ∧
              ∀ j < nitems, b'.test j = .ok (decide (j ∈ insert i (calls.foldl (act nitems) ∅)))) ∧
          b.numClear = .ok (nitems - (calls.foldl (act nitems) ∅).card) := by
  obtain ⟨b₀, hnew, h₀⟩ := represents_new nitems raw
  obtain ⟨b, hrun, h⟩ := h₀.run hrange
  refine ⟨b₀, b, hnew, hrun, fun i => h.test, ?_, h.numClear⟩
  rcases h.find with ⟨hnone, hfind⟩ | ⟨i, b', hsome, hfind, hb'⟩
  · exact .inl ⟨leastFree_eq_none_iff.1 hnone, hfind⟩
  · exact .inr ⟨i, b', leastFree_eq_some_iff.1 hsome, hfind, fun j => hb'.test⟩

/-- Bits of two words. -/
theorem bitMap_refines_set_words :
    ∃ b₀ b, new 33 (fun _ => 0xffffffff#32) = .ok b₀ ∧
      runFrom step b₀ [.mark 32, .find, .mark 31, .clear 32] = .ok b ∧
        b.test 31 = .ok true ∧ b.numClear = .ok 31 := by
  obtain ⟨b₀, b, hnew, hrun, htest, -, hclear⟩ := bitMap_refines_set 33 (fun _ => 0xffffffff#32)
    [.mark 32, .find, .mark 31, .clear 32] (by decide)
  exact ⟨b₀, b, hnew, hrun, htest 31 (by decide), hclear⟩

end BitMap

end Nachos
