import Nachos.Userprog.FlatMemory
import Mathlib.Data.Nat.Digits.Lemmas

/-!
# The names of the backing files

`BackingStore::Initialize` writes the name of its file into two new arrays, digit by digit. The
cells behind the end of an array are there too, so that the name of every store is built; what has
been written is kept.
-/

namespace Nachos

namespace BackingStore

/-- A cell of the array `filename` of 15 bytes or of the array `charID` of 10 bytes, or one
behind them. -/
inductive Cell where
  | filename (j : ℕ)
  | charID (i : ℕ)
  deriving DecidableEq, Repr

/-- The cell belongs to its array. -/
def Cell.Inside : Cell → Prop
  | filename j => j < 15
  | charID i => i < 10

structure Arrays where
  cell : Cell → Byte
  /-- The cells that have been written. -/
  written : List Cell

namespace Arrays

def put (b : Arrays) (c : Cell) (v : Byte) : Arrays where
  cell := Function.update b.cell c v
  written := c :: b.written

/-- The new arrays; `raw` is what they happen to hold. -/
def new (raw : Cell → Byte) : Arrays where
  cell := raw
  written := []

def char (c : Char) : Byte := BitVec.ofNat 8 c.toNat

/-- The loop of `Initialize` and what follows it, with `n` tests of its condition at most. -/
def digitLoop : ℕ → ℤ → ℕ → ℕ → Arrays → Except Fault Arrays
  | 0, _, _, _, _ => .error .endlessLoop
  | n + 1, ID, i, j, b =>
      if ID ≠ 0 then
        let b := b.put (.charID i) (BitVec.ofInt 8 (ID.tmod 10 + 48))
        let b := b.put (.filename j) (b.cell (.charID i))
        digitLoop n (ID.tdiv 10) (i + 1) (j + 1) b
      else
        .ok ((b.put (.charID i) 0).put (.filename j) 0)

/-- The arrays before the loop. -/
def ajnr (raw : Cell → Byte) : Arrays :=
  let b := (new raw).put (.filename 0) (char 'a')
  let b := b.put (.filename 1) (char 'j')
  let b := b.put (.filename 2) (char 'n')
  let b := b.put (.filename 3) (char 'r')
  b.put (.filename 4) (char '_')

/-- `BackingStore::Initialize`, as far as it builds the name. -/
def initializeName (n : ℕ) (raw : Cell → Byte) (ID : ℤ) : Except Fault Arrays :=
  digitLoop n ID 0 5 (ajnr raw)

/-- The array `filename` is the string `name` from the index `j` on. -/
def Spells (b : Arrays) : ℕ → List Byte → Prop
  | j, [] => b.cell (.filename j) = 0
  | j, c :: name => b.cell (.filename j) = c ∧ c ≠ 0 ∧ Spells b (j + 1) name

/-- The digits of a number as characters, the last one first. -/
def digitChars (ID : ℕ) : List Byte := (Nat.digits 10 ID).map fun d => BitVec.ofNat 8 (d + 48)

variable {b b' : Arrays} {ID n i j : ℕ} {name name' : List Byte}

@[simp] theorem put_cell_self (b : Arrays) (c : Cell) (v : Byte) : (b.put c v).cell c = v := by
  simp [put]

@[simp] theorem put_cell_of_ne (b : Arrays) {c c' : Cell} (v : Byte) (h : c' ≠ c) :
    (b.put c v).cell c' = b.cell c' := by
  simp [put, h]

@[simp] theorem put_written (b : Arrays) (c : Cell) (v : Byte) :
    (b.put c v).written = c :: b.written := rfl

theorem digitChars_zero : digitChars 0 = [] := by simp [digitChars]

theorem digitChars_of_pos (h : 0 < ID) :
    digitChars ID = BitVec.ofNat 8 (ID % 10 + 48) :: digitChars (ID / 10) := by
  rw [digitChars, Nat.digits_def' (by decide) h, List.map_cons]
  rfl

theorem digit_ne_zero (ID : ℕ) : BitVec.ofNat 8 (ID % 10 + 48) ≠ 0 := by
  intro h
  have h' := congrArg BitVec.toNat h
  rw [BitVec.toNat_ofNat] at h'
  have : ID % 10 < 10 := Nat.mod_lt _ (by decide)
  simp at h'
  omega

/-- One character is written into both arrays. -/
def putBoth (b : Arrays) (i j : ℕ) (v : Byte) : Arrays := (b.put (.charID i) v).put (.filename j) v

theorem putBoth_filename_self (b : Arrays) (i j : ℕ) (v : Byte) :
    (b.putBoth i j v).cell (.filename j) = v := by simp [putBoth]

theorem putBoth_filename_of_ne (b : Arrays) {i j k : ℕ} (v : Byte) (h : k ≠ j) :
    (b.putBoth i j v).cell (.filename k) = b.cell (.filename k) := by simp [putBoth, h]

theorem mem_putBoth_written {c : Cell} {v : Byte} :
    c ∈ (b.putBoth i j v).written ↔ c = .filename j ∨ c = .charID i ∨ c ∈ b.written := by
  simp [putBoth]

theorem digitLoop_zero (n i j : ℕ) (b : Arrays) :
    digitLoop (n + 1) (0 : ℕ) i j b = .ok (b.putBoth i j 0) := rfl

theorem digitLoop_of_pos (h : 0 < ID) (n i j : ℕ) (b : Arrays) :
    digitLoop (n + 1) ID i j b =
      digitLoop n (ID / 10 : ℕ) (i + 1) (j + 1)
        (b.putBoth i j (BitVec.ofNat 8 (ID % 10 + 48))) := by
  have hne : (ID : ℤ) ≠ 0 := by omega
  have hdigit : (ID : ℤ).tmod 10 + 48 = ((ID % 10 + 48 : ℕ) : ℤ) := by
    rw [Int.tmod_eq_emod_of_nonneg (by omega)]
    omega
  have hnext : (ID : ℤ).tdiv 10 = ((ID / 10 : ℕ) : ℤ) := by
    rw [Int.tdiv_eq_ediv_of_nonneg (by omega)]
    omega
  rw [digitLoop, if_pos hne, hdigit, hnext, BitVec.ofInt_natCast]
  simp only [put_cell_self, putBoth]

/-- The loop has written the digits of `ID` from the indices `i` and `j` on, and a zero. -/
structure Built (b b' : Arrays) (ID i j : ℕ) : Prop where
  spells : b'.Spells j (digitChars ID)
  kept : ∀ k < j, b'.cell (.filename k) = b.cell (.filename k)
  written : ∀ c ∈ b'.written, c ∈ b.written ∨
    ∃ k ≤ (digitChars ID).length, c = .charID (i + k) ∨ c = .filename (j + k)

theorem built_zero (b : Arrays) (i j : ℕ) : Built b (b.putBoth i j 0) 0 i j := by
  refine ⟨?_, fun k hk => putBoth_filename_of_ne b 0 hk.ne, ?_⟩
  · rw [digitChars_zero]
    exact putBoth_filename_self b i j 0
  · intro c hc
    rcases mem_putBoth_written.1 hc with rfl | rfl | hc
    · exact .inr ⟨0, Nat.zero_le _, .inr rfl⟩
    · exact .inr ⟨0, Nat.zero_le _, .inl rfl⟩
    · exact .inl hc

/-- One turn of the loop. -/
theorem Built.digit (hpos : 0 < ID)
    (h : Built (b.putBoth i j (BitVec.ofNat 8 (ID % 10 + 48))) b' (ID / 10) (i + 1) (j + 1)) :
    Built b b' ID i j := by
  have hchars := digitChars_of_pos hpos
  refine ⟨?_, ?_, ?_⟩
  · rw [hchars]
    refine ⟨?_, digit_ne_zero ID, h.spells⟩
    rw [h.kept j (Nat.lt_succ_self j), putBoth_filename_self]
  · intro k hk
    rw [h.kept k (hk.trans (Nat.lt_succ_self j)), putBoth_filename_of_ne b _ hk.ne]
  · intro c hc
    rcases h.written c hc with hc | ⟨k, hk, hc⟩
    · rcases mem_putBoth_written.1 hc with rfl | rfl | hc
      · exact .inr ⟨0, Nat.zero_le _, .inr rfl⟩
      · exact .inr ⟨0, Nat.zero_le _, .inl rfl⟩
      · exact .inl hc
    · refine .inr ⟨k + 1, by rw [hchars]; exact Nat.succ_le_succ hk, ?_⟩
      simpa only [Nat.add_assoc, Nat.add_comm 1 k] using hc

/-- The loop ends when every digit has been taken. -/
theorem digitLoop_built (h : ID < 10 ^ n) (i j : ℕ) (b : Arrays) :
    ∃ b', digitLoop (n + 1) ID i j b = .ok b' ∧ Built b b' ID i j := by
  induction n generalizing ID i j b with
  | zero =>
      obtain rfl : ID = 0 := by simpa using h
      exact ⟨_, digitLoop_zero 0 i j b, built_zero b i j⟩
  | succ n ih =>
      rcases Nat.eq_zero_or_pos ID with rfl | hpos
      · exact ⟨_, digitLoop_zero (n + 1) i j b, built_zero b i j⟩
      · have hlt : ID / 10 < 10 ^ n := by
          rw [Nat.pow_succ] at h
          omega
        obtain ⟨b', hb', hbuilt⟩ := ih hlt (i + 1) (j + 1)
          (b.putBoth i j (BitVec.ofNat 8 (ID % 10 + 48)))
        exact ⟨b', by rw [digitLoop_of_pos hpos, hb'], hbuilt.digit hpos⟩

/-- The characters of the name of a store. -/
def nameOf (ID : ℕ) : List Byte := (filenameOf ID).map char

theorem nameOf_eq (ID : ℕ) :
    nameOf ID = [char 'a', char 'j', char 'n', char 'r', char '_'] ++ digitChars ID := by
  rw [nameOf, filenameOf, List.map_append, List.map_map]
  congr 1
  refine List.map_congr_left fun d hd => ?_
  have hdigit : ∀ d < 10, char (Char.ofNat (d + 48)) = BitVec.ofNat 8 (d + 48) := by decide
  exact hdigit d (Nat.digits_lt_base (by decide) hd)

theorem nameOf_injective : Function.Injective nameOf := by
  intro a b h
  rw [nameOf_eq, nameOf_eq] at h
  have hchars := List.append_cancel_left h
  have hdigits : ∀ ID, (digitChars ID).map (fun c => c.toNat - 48) = Nat.digits 10 ID := by
    intro ID
    rw [digitChars, List.map_map]
    refine (List.map_congr_left fun d hd => ?_).trans (List.map_id _)
    have hdigit : ∀ d < 10, (BitVec.ofNat 8 (d + 48)).toNat - 48 = d := by decide
    exact hdigit d (Nat.digits_lt_base (by decide) hd)
  rw [← Nat.digits_inj_iff, ← hdigits a, ← hdigits b, hchars]

theorem length_digitChars_le (h : ID < 10 ^ n) : (digitChars ID).length ≤ n := by
  rw [digitChars, List.length_map]
  exact (Nat.digits_length_le_iff (by decide) ID).2 h

/-- An array is one string only. -/
theorem Spells.unique (h : b.Spells j name) (h' : b.Spells j name') : name = name' := by
  induction name generalizing j name' with
  | nil =>
      cases name' with
      | nil => rfl
      | cons c' name' => exact absurd (h'.1.symm.trans h) h'.2.1
  | cons c name ih =>
      cases name' with
      | nil => exact absurd (h.1.symm.trans h') h.2.1
      | cons c' name' =>
          obtain rfl : c = c' := h.1.symm.trans h'.1
          rw [ih h.2.2 h'.2.2]

/-- Stores with different numbers have different names, and the name of a store is built within
its arrays when its number has at most 9 digits. -/
theorem backing_stores_never_share :
    Function.Injective nameOf ∧ ∀ (ID n : ℕ) (raw : Cell → Byte), ID < 10 ^ n →
      ∃ b, initializeName (n + 1) raw ID = .ok b ∧ (∀ name, b.Spells 0 name ↔ name = nameOf ID) ∧
        (ID < 10 ^ 9 → ∀ c ∈ b.written, c.Inside) := by
  refine ⟨nameOf_injective, fun ID n raw hID => ?_⟩
  obtain ⟨b, hb, hbuilt⟩ := digitLoop_built hID 0 5 (ajnr raw)
  have hspells : b.Spells 0 (nameOf ID) := by
    rw [nameOf_eq]
    refine ⟨?_, by decide, ?_, by decide, ?_, by decide, ?_, by decide, ?_, by decide,
      hbuilt.spells⟩ <;>
      (rw [hbuilt.kept _ (by decide)]; simp [ajnr])
  refine ⟨b, hb, fun name => ⟨fun h => h.unique hspells, ?_⟩, fun hshort c hc => ?_⟩
  · rintro rfl
    exact hspells
  · have hlength := length_digitChars_le hshort
    rcases hbuilt.written c hc with hc | ⟨k, hk, rfl | rfl⟩
    · simp only [ajnr, new, put_written, List.mem_cons, List.not_mem_nil, or_false] at hc
      rcases hc with rfl | rfl | rfl | rfl | rfl <;> simp [Cell.Inside]
    · simp only [Cell.Inside]
      omega
    · simp only [Cell.Inside]
      omega

end Arrays

end BackingStore

end Nachos
