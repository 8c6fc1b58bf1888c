import Nachos.Lib.Count
import Mathlib.Data.Nat.Notation
import Mathlib.Data.Int.Notation
import Mathlib.Logic.Function.Basic

/-!
# Bit maps

`BitMap` of `bitmap.cc`, on the 32-bit words in which it is stored. An `ASSERT` that
fails stops the machine, so every call that has one is fallible. `bit` reads a bit map
as a set of numbers, and each call has one lemma that says what it does to this set.
-/

namespace Nachos

/-- What stops the machine. -/
inductive Fault where
  | assertion
  | nullPointer
  | endlessLoop
  | useAfterFree
  | wildAddress
  | divideError
  deriving DecidableEq, Repr

def bitsInWord : ℕ := 32

structure BitMap where
  numBits : ℕ
  map : ℕ → BitVec 32

namespace BitMap

/-- `ASSERT(which >= 0 && which < numBits)`. -/
def InRange (b : BitMap) (which : ℤ) : Prop := 0 ≤ which ∧ which < b.numBits

instance (b : BitMap) (which : ℤ) : Decidable (b.InRange which) :=
  inferInstanceAs (Decidable (_ ∧ _))

/-- `map[which / BitsInWord]`. -/
def word (b : BitMap) (which : ℤ) : BitVec 32 := b.map (which.toNat / bitsInWord)

/-- `1 << (which % BitsInWord)`. -/
def mask (which : ℤ) : BitVec 32 := 1#32 <<< (which.toNat % bitsInWord)

/-- `map[which / BitsInWord] = w`. -/
def setWord (b : BitMap) (which : ℤ) (w : BitVec 32) : BitMap :=
  { b with map := Function.update b.map (which.toNat / bitsInWord) w }

/-- `BitMap::Mark`. -/
def mark (b : BitMap) (which : ℤ) : Except Fault BitMap :=
  if b.InRange which then
    .ok (b.setWord which (b.word which ||| mask which))
  else
    .error .assertion

/-- `BitMap::Clear`. -/
def clear (b : BitMap) (which : ℤ) : Except Fault BitMap :=
  if b.InRange which then
    .ok (b.setWord which (b.word which &&& ~~~ mask which))
  else
    .error .assertion

/-- `BitMap::Test`. -/
def test (b : BitMap) (which : ℤ) : Except Fault Bool :=
  if b.InRange which then
    .ok (b.word which &&& mask which != 0#32)
  else
    .error .assertion

/-- The loop of the constructor: `Clear(i)` for the `k` numbers from `i` on. -/
def clearFrom (b : BitMap) : ℕ → ℕ → Except Fault BitMap
  | 0, _ => .ok b
  | k + 1, i =>
      match b.clear i with
      | .error e => .error e
      | .ok b' => clearFrom b' k (i + 1)

/-- The constructor of `BitMap`; `raw` is what the new words happen to hold. -/
def new (nitems : ℕ) (raw : ℕ → BitVec 32) : Except Fault BitMap :=
  clearFrom { numBits := nitems, map := raw } nitems 0

/-- The loop of `Find`, on the `k` numbers from `i` on. -/
def findFrom (b : BitMap) : ℕ → ℕ → Except Fault (ℤ × BitMap)
  | 0, _ => .ok (-1, b)
  | k + 1, i =>
      match b.test i with
      | .error e => .error e
      | .ok true => findFrom b k (i + 1)
      | .ok false =>
          match b.mark i with
          | .error e => .error e
          | .ok b' => .ok (i, b')

/-- `BitMap::Find`. -/
def find (b : BitMap) : Except Fault (ℤ × BitMap) := b.findFrom b.numBits 0

/-- The loop of `NumClear`, on the `k` numbers from `i` on. -/
def numClearFrom (b : BitMap) : ℕ → ℕ → ℕ → Except Fault ℕ
  | 0, _, count => .ok count
  | k + 1, i, count =>
      match b.test i with
      | .error e => .error e
      | .ok true => numClearFrom b k (i + 1) count
      | .ok false => numClearFrom b k (i + 1) (count + 1)

/-- `BitMap::NumClear`. -/
def numClear (b : BitMap) : Except Fault ℕ := b.numClearFrom b.numBits 0 0

/-! ## As a set of numbers -/

def bit (b : BitMap) (i : ℕ) : Bool := (b.map (i / bitsInWord)).getLsbD (i % bitsInWord)

theorem inRange_natCast {b : BitMap} {i : ℕ} : b.InRange i ↔ i < b.numBits := by
  unfold InRange
  omega

theorem bitsInWord_pos (i : ℕ) : i % bitsInWord < 32 := Nat.mod_lt i (by decide)

theorem getLsbD_mask (i : ℕ) (k : ℕ) :
    (mask i).getLsbD k = decide (k = i % bitsInWord) := by
  have hi := bitsInWord_pos i
  simp only [mask, Int.toNat_natCast, BitVec.getLsbD_shiftLeft, BitVec.getLsbD_one]
  by_cases h : k = i % bitsInWord
  · subst h
    simp [hi]
  · by_cases hlt : k < i % bitsInWord
    · simp [hlt, h]
    · have : k - i % bitsInWord ≠ 0 := by omega
      simp [this, h]

theorem test_eq {b : BitMap} {i : ℕ} (h : i < b.numBits) : b.test i = .ok (b.bit i) := by
  rw [test, if_pos (inRange_natCast.2 h)]
  congr 1
  rw [Bool.eq_iff_iff, bne_iff_ne, ne_eq, BitVec.eq_of_getLsbD_eq_iff]
  simp only [BitVec.getLsbD_and, getLsbD_mask, BitVec.getLsbD_zero]
  constructor
  · intro hne
    by_contra hbit
    refine hne ?_
    intro k _
    by_cases hk : k = i % bitsInWord
    · subst hk
      simpa [bit, word] using hbit
    · simp [hk]
  · intro hbit hzero
    have := hzero (i % bitsInWord) (bitsInWord_pos i)
    simp [bit, word] at this hbit
    simp [hbit] at this

/-- Two numbers of one word have different places in it. -/
theorem mod_ne {i j : ℕ} (hne : j ≠ i) (hword : j / bitsInWord = i / bitsInWord) :
    j % bitsInWord ≠ i % bitsInWord := by
  intro hmod
  refine hne ?_
  rw [← Nat.div_add_mod j bitsInWord, hword, hmod, Nat.div_add_mod]

theorem bit_setWord (b : BitMap) (i j : ℕ) (w : BitVec 32) :
    (b.setWord i w).bit j =
      if j / bitsInWord = i / bitsInWord then w.getLsbD (j % bitsInWord) else b.bit j := by
  by_cases h : j / bitsInWord = i / bitsInWord
  · simp [bit, setWord, h]
  · simp [bit, setWord, h]

theorem mark_spec {b : BitMap} {i : ℕ} (h : i < b.numBits) :
    ∃ b', b.mark i = .ok b' ∧ b'.numBits = b.numBits ∧
      ∀ j, b'.bit j = (decide (j = i) || b.bit j) := by
  refine ⟨_, if_pos (inRange_natCast.2 h), rfl, ?_⟩
  intro j
  rw [bit_setWord, BitVec.getLsbD_or, getLsbD_mask]
  by_cases hji : j = i
  · subst hji
    simp
  · by_cases hword : j / bitsInWord = i / bitsInWord
    · simp [hword, hji, mod_ne hji hword, bit, word]
    · simp [hword, hji]

theorem clear_spec {b : BitMap} {i : ℕ} (h : i < b.numBits) :
    ∃ b', b.clear i = .ok b' ∧ b'.numBits = b.numBits ∧
      ∀ j, b'.bit j = (!decide (j = i) && b.bit j) := by
  refine ⟨_, if_pos (inRange_natCast.2 h), rfl, ?_⟩
  intro j
  rw [bit_setWord, BitVec.getLsbD_and, BitVec.getLsbD_not, getLsbD_mask]
  by_cases hji : j = i
  · subst hji
    simp
  · by_cases hword : j / bitsInWord = i / bitsInWord
    · have hlt := bitsInWord_pos j
      simp [hword, hji, mod_ne hji hword, bit, word, hlt]
    · simp [hword, hji]

theorem clearFrom_spec {b : BitMap} {k i : ℕ} (h : i + k ≤ b.numBits) :
    ∃ b', b.clearFrom k i = .ok b' ∧ b'.numBits = b.numBits ∧
      ∀ j, b'.bit j = (!decide (i ≤ j ∧ j < i + k) && b.bit j) := by
  induction k generalizing b i with
  | zero =>
      refine ⟨b, rfl, rfl, ?_⟩
      intro j
      have hnone : ¬ (i ≤ j ∧ j < i + 0) := by omega
      simp only [hnone, decide_false, Bool.not_false, Bool.true_and]
  | succ k ih =>
      obtain ⟨b₁, h₁, hbits, hb₁⟩ := clear_spec (b := b) (i := i) (by omega)
      obtain ⟨b₂, h₂, hbits', hb₂⟩ := ih (b := b₁) (i := i + 1) (by omega)
      refine ⟨b₂, by simp only [clearFrom, h₁, h₂], hbits'.trans hbits, ?_⟩
      intro j
      rw [hb₂, hb₁, ← Bool.and_assoc]
      congr 1
      rw [Bool.eq_iff_iff]
      simp only [Bool.and_eq_true, Bool.not_eq_true', decide_eq_false_iff_not]
      omega

/-- A new bit map is empty, whatever the words held. -/
theorem new_spec (nitems : ℕ) (raw : ℕ → BitVec 32) :
    ∃ b, new nitems raw = .ok b ∧ b.numBits = nitems ∧ ∀ j < nitems, b.bit j = false := by
  obtain ⟨b, hb, hbits, hbit⟩ :=
    clearFrom_spec (b := { numBits := nitems, map := raw }) (k := nitems) (i := 0) (by simp)
  refine ⟨b, hb, hbits, ?_⟩
  intro j hj
  simp [hbit j, hj]

theorem findFrom_spec {b : BitMap} {k i : ℕ} (h : i + k = b.numBits) :
    (b.findFrom k i = .ok (-1, b) ∧ ∀ j, i ≤ j → j < b.numBits → b.bit j = true) ∨
      ∃ f b', b.findFrom k i = .ok ((f : ℕ), b') ∧ i ≤ f ∧ f < b.numBits ∧ b.bit f = false ∧
        (∀ j, i ≤ j → j < f → b.bit j = true) ∧ b'.numBits = b.numBits ∧
          ∀ j, b'.bit j = (decide (j = f) || b.bit j) := by
  induction k generalizing i with
  | zero =>
      refine .inl ⟨rfl, ?_⟩
      intro j hj hlt
      omega
  | succ k ih =>
      rw [findFrom, test_eq (by omega)]
      cases hbit : b.bit i with
      | false =>
          obtain ⟨b', hb', hbits, hmark⟩ := mark_spec (b := b) (i := i) (by omega)
          refine .inr ⟨i, b', by rw [hb'], Nat.le_refl i, by omega, hbit, ?_, hbits, hmark⟩
          intro j hj hlt
          omega
      | true =>
          have hstep : ∀ {P : ℕ → Prop}, (∀ j, i + 1 ≤ j → P j → b.bit j = true) →
              ∀ j, i ≤ j → P j → b.bit j = true := by
            intro P hall j hj hp
            by_cases hji : j = i
            · rw [hji, hbit]
            · exact hall j (by omega) hp
          rcases ih (i := i + 1) (by omega) with ⟨heq, hall⟩ | ⟨f, b', heq, hif, hf⟩
          · exact .inl ⟨heq, hstep hall⟩
          · exact .inr ⟨f, b', heq, by omega, hf.1, hf.2.1, hstep hf.2.2.1, hf.2.2.2⟩

/-- `Find` takes the first clear bit, and returns -1 only when there is none. -/
theorem find_spec (b : BitMap) :
    (b.find = .ok (-1, b) ∧ ∀ j < b.numBits, b.bit j = true) ∨
      ∃ f b', b.find = .ok ((f : ℕ), b') ∧ f < b.numBits ∧ b.bit f = false ∧
        (∀ j < f, b.bit j = true) ∧ b'.numBits = b.numBits ∧
          ∀ j, b'.bit j = (decide (j = f) || b.bit j) := by
  rcases findFrom_spec (b := b) (k := b.numBits) (i := 0) (by simp) with
    ⟨heq, hall⟩ | ⟨f, b', heq, -, hf, hbit, hall, hb'⟩
  · exact .inl ⟨heq, fun j hj => hall j (Nat.zero_le j) hj⟩
  · exact .inr ⟨f, b', heq, hf, hbit, fun j hj => hall j (Nat.zero_le j) hj, hb'⟩

theorem numClearFrom_eq {b : BitMap} {k i : ℕ} (h : i + k ≤ b.numBits) :
    b.numClearFrom k i (Nat.count (fun j => b.bit j = false) i) =
      .ok (Nat.count (fun j => b.bit j = false) (i + k)) := by
  induction k generalizing i with
  | zero => rfl
  | succ k ih =>
      have hnext := ih (i := i + 1) (by omega)
      rw [Nat.count_succ, Nat.add_assoc, Nat.add_comm 1 k] at hnext
      rw [numClearFrom, test_eq (by omega), ← hnext]
      cases hbit : b.bit i with
      | false => simp
      | true => simp

/-- `NumClear` counts the clear bits. -/
theorem numClear_eq (b : BitMap) :
    b.numClear = .ok (Nat.count (fun j => b.bit j = false) b.numBits) := by
  have h := numClearFrom_eq (b := b) (k := b.numBits) (i := 0) (by simp)
  rwa [Nat.count_zero, Nat.zero_add] at h

/-- There is one clear bit less when a clear bit has been marked. -/
theorem count_mark {b b' : BitMap} {i : ℕ} (hi : i < b.numBits) (hclear : b.bit i = false)
    (hbits : b'.numBits = b.numBits) (hbit : ∀ j, b'.bit j = (decide (j = i) || b.bit j)) :
    Nat.count (fun j => b.bit j = false) b.numBits =
      Nat.count (fun j => b'.bit j = false) b'.numBits + 1 := by
  rw [hbits]
  refine Lib.count_enter hi ?_ ?_ hclear
  · intro u hu
    simp [hbit, hu]
  · simp [hbit]

/-- `Find` succeeds when a bit is clear, and then there is one clear bit less. -/
theorem find_of_clear {b : BitMap} (h : 0 < Nat.count (fun j => b.bit j = false) b.numBits) :
    ∃ f b', b.find = .ok ((f : ℕ), b') ∧ f < b.numBits ∧ b.bit f = false ∧
      b'.numBits = b.numBits ∧ (∀ j, b'.bit j = (decide (j = f) || b.bit j)) ∧
        Nat.count (fun j => b.bit j = false) b.numBits =
          Nat.count (fun j => b'.bit j = false) b'.numBits + 1 := by
  rcases b.find_spec with ⟨-, hall⟩ | ⟨f, b', hfind, hlt, hclear, -, hbits, hbit⟩
  · obtain ⟨j, hj, hbit⟩ := Nat.count_ne_iff_exists.1 h.ne'
    rw [hall j hj] at hbit
    cases hbit
  · exact ⟨f, b', hfind, hlt, hclear, hbits, hbit, count_mark hlt hclear hbits hbit⟩

end BitMap

end Nachos
