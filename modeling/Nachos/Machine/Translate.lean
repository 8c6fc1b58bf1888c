import Nachos.Lib.Splice
import Nachos.Userprog.BitMap
import Mathlib.Algebra.Group.Int.Defs
import Mathlib.Algebra.Group.Nat.Defs

/-!
# Address translation

`Machine::Translate`, `ReadMem` and `WriteMem` of `translate.cc`, for a machine with a
page table and no TLB, on a little-endian host whose `char` is signed. Main memory
is an array of bytes and addresses are 32-bit words.
-/

namespace Nachos

open Lib

abbrev Byte := BitVec 8

/-- The machine has `NumTotalRegs` registers, and the numerals name them. -/
instance (priority := high) neZero_numTotalRegs : @NeZero ℕ Zero.ofOfNat0 40 := ⟨by decide⟩

def pageSize : ℕ := 128

structure TranslationEntry where
  virtualPage : ℕ
  physicalPage : ℤ
  valid : Bool
  readOnly : Bool
  use : Bool
  dirty : Bool

inductive ExceptionType where
  | syscall
  | pageFault
  | readOnly
  | busError
  | addressError
  | overflow
  | illegalInstr
  deriving DecidableEq, Repr

/-- What `Translate` comes to: an exception, or the physical address and the entry with
its bits set. -/
inductive Translation where
  | exception (which : ExceptionType)
  | physical (physAddr : ℕ) (entry : TranslationEntry)

/-- The alignment error of `Translate`. -/
def misaligned (virtAddr : BitVec 32) (size : ℕ) : Prop :=
  (size = 4 ∧ virtAddr &&& 3#32 ≠ 0#32) ∨ (size = 2 ∧ virtAddr &&& 1#32 ≠ 0#32)

instance (virtAddr : BitVec 32) (size : ℕ) : Decidable (misaligned virtAddr size) :=
  inferInstanceAs (Decidable (_ ∨ _))

def vpnOf (virtAddr : BitVec 32) : ℕ := virtAddr.toNat / pageSize

def offsetOf (virtAddr : BitVec 32) : ℕ := virtAddr.toNat % pageSize

/-- `(unsigned int) entry->physicalPage`. -/
def pageFrame (entry : TranslationEntry) : ℕ :=
  if entry.physicalPage < 0 then
    (entry.physicalPage + 2 ^ 32).toNat
  else
    entry.physicalPage.toNat

/-- `Machine::Translate`. -/
def translate (numPhysPages : ℕ) (pageTable : ℕ → TranslationEntry) (pageTableSize : ℕ)
    (virtAddr : BitVec 32) (size : ℕ) (writing : Bool) : Except Fault Translation :=
  if misaligned virtAddr size then
    .ok (.exception .addressError)
  else if pageTableSize ≤ vpnOf virtAddr then
    .ok (.exception .addressError)
  else
    let entry := pageTable (vpnOf virtAddr)
    if entry.valid = false then
      .ok (.exception .pageFault)
    else if entry.readOnly && writing then
      .ok (.exception .readOnly)
    else if numPhysPages ≤ pageFrame entry then
      .ok (.exception .busError)
    else
      let physAddr := pageFrame entry * pageSize + offsetOf virtAddr
      if physAddr + size ≤ numPhysPages * pageSize then
        .ok (.physical physAddr { entry with use := true, dirty := entry.dirty || writing })
      else
        .error .assertion

/-- The `switch` of `ReadMem`: a `char` is sign-extended, the other two are unsigned. -/
def load (mem : ℕ → Byte) (a : ℕ) : ℕ → Except Fault (BitVec 32)
  | 1 => .ok ((mem a).signExtend 32)
  | 2 => .ok ((mem (a + 1) ++ mem a).setWidth 32)
  | 4 => .ok (mem (a + 3) ++ mem (a + 2) ++ mem (a + 1) ++ mem a)
  | _ => .error .assertion

/-- The `switch` of `WriteMem`. -/
def store (mem : ℕ → Byte) (a : ℕ) (value : BitVec 32) (size : ℕ) : Except Fault (ℕ → Byte) :=
  if size = 1 ∨ size = 2 ∨ size = 4 then
    .ok (splice mem a size fun k => value.extractLsb' (8 * k) 8)
  else
    .error .assertion

/-! ## What a translation comes to -/

/-- The sizes that the instructions use. -/
def Sized (size : ℕ) : Prop := size = 1 ∨ size = 2 ∨ size = 4

instance (size : ℕ) : Decidable (Sized size) := inferInstanceAs (Decidable (_ ∨ _))

theorem virtAddr_eq (virtAddr : BitVec 32) :
    vpnOf virtAddr * pageSize + offsetOf virtAddr = virtAddr.toNat := by
  rw [Nat.mul_comm]
  exact Nat.div_add_mod virtAddr.toNat pageSize

theorem toNat_mod_of_and {virtAddr : BitVec 32} {k : ℕ} (hk : k ≤ 32)
    (h : virtAddr &&& BitVec.ofNat 32 (2 ^ k - 1) = 0#32) : virtAddr.toNat % 2 ^ k = 0 := by
  have hnat := congrArg BitVec.toNat h
  have hlt : 2 ^ k - 1 < 2 ^ 32 := by
    have : 2 ^ k ≤ 2 ^ 32 := Nat.pow_le_pow_right (by decide) hk
    have : 0 < 2 ^ k := Nat.two_pow_pos k
    omega
  rw [BitVec.toNat_and, BitVec.toNat_ofNat, Nat.mod_eq_of_lt hlt, Nat.and_two_pow_sub_one_eq_mod]
    at hnat
  simpa using hnat

/-- An aligned request stays inside its page. -/
theorem offset_add_size_le {virtAddr : BitVec 32} {size : ℕ} (hsize : Sized size)
    (h : ¬ misaligned virtAddr size) : offsetOf virtAddr + size ≤ pageSize := by
  unfold offsetOf pageSize
  rcases hsize with rfl | rfl | rfl
  · omega
  · have : virtAddr &&& BitVec.ofNat 32 (2 ^ 1 - 1) = 0#32 := by
      by_contra hne
      exact h (.inr ⟨rfl, hne⟩)
    have := toNat_mod_of_and (k := 1) (by decide) this
    omega
  · have : virtAddr &&& BitVec.ofNat 32 (2 ^ 2 - 1) = 0#32 := by
      by_contra hne
      exact h (.inl ⟨rfl, hne⟩)
    have := toNat_mod_of_and (k := 2) (by decide) this
    omega

variable {numPhysPages pageTableSize size : ℕ} {pageTable : ℕ → TranslationEntry}
  {virtAddr : BitVec 32} {writing : Bool}

theorem pageFrame_eq {entry : TranslationEntry} {f : ℕ} (h : entry.physicalPage = f) :
    pageFrame entry = f := by
  have hnonneg : ¬ entry.physicalPage < 0 := by omega
  rw [pageFrame, if_neg hnonneg]
  omega

/-- An aligned request beyond the page table. -/
theorem translate_addressError (halign : ¬ misaligned virtAddr size)
    (hvpn : pageTableSize ≤ vpnOf virtAddr) :
    translate numPhysPages pageTable pageTableSize virtAddr size writing =
      .ok (.exception .addressError) := by
  unfold translate
  simp only [halign, hvpn, if_true, if_false]

/-- A page that is not valid makes an aligned request inside the page table fault. -/
theorem translate_pageFault (halign : ¬ misaligned virtAddr size)
    (hvpn : vpnOf virtAddr < pageTableSize)
    (hvalid : (pageTable (vpnOf virtAddr)).valid = false) :
    translate numPhysPages pageTable pageTableSize virtAddr size writing =
      .ok (.exception .pageFault) := by
  unfold translate
  simp only [halign, Nat.not_le.2 hvpn, hvalid, if_true, if_false]

/-- An aligned request stays inside main memory. -/
theorem physAddr_add_size_le (hsize : Sized size) (halign : ¬ misaligned virtAddr size) {f : ℕ}
    (hf : f < numPhysPages) :
    f * pageSize + offsetOf virtAddr + size ≤ numPhysPages * pageSize := by
  have hoff := offset_add_size_le hsize halign
  have : (f + 1) * pageSize ≤ numPhysPages * pageSize := Nat.mul_le_mul_right pageSize hf
  rw [Nat.add_mul] at this
  omega

/-- A valid page with a frame of main memory is found. -/
theorem translate_physical {f : ℕ} (hsize : Sized size) (halign : ¬ misaligned virtAddr size)
    (hvpn : vpnOf virtAddr < pageTableSize)
    (hvalid : (pageTable (vpnOf virtAddr)).valid = true)
    (hwrite : (pageTable (vpnOf virtAddr)).readOnly = false)
    (hframe : pageFrame (pageTable (vpnOf virtAddr)) = f) (hf : f < numPhysPages) :
    translate numPhysPages pageTable pageTableSize virtAddr size writing =
      .ok (.physical (f * pageSize + offsetOf virtAddr)
        { pageTable (vpnOf virtAddr) with
          use := true
          dirty := (pageTable (vpnOf virtAddr)).dirty || writing }) := by
  have hle := physAddr_add_size_le hsize halign hf
  unfold translate
  simp only [halign, Nat.not_le.2 hvpn, hvalid, hwrite, hframe, Nat.not_le.2 hf, hle, if_true,
    if_false, Bool.false_and, Bool.true_eq_false, Bool.false_eq_true]

/-- The assertion of `Translate` holds. -/
theorem translate_ne_error (hsize : Sized size) (fault : Fault) :
    translate numPhysPages pageTable pageTableSize virtAddr size writing ≠ .error fault := by
  unfold translate
  by_cases halign : misaligned virtAddr size
  · simp only [halign, if_true, ne_eq, reduceCtorEq, not_false_eq_true]
  · by_cases hframe : numPhysPages ≤ pageFrame (pageTable (vpnOf virtAddr))
    · simp only [halign, hframe, if_true, if_false]
      split_ifs <;> exact fun h => by cases h
    · have hle := physAddr_add_size_le hsize halign (Nat.not_le.1 hframe)
      simp only [halign, hframe, hle, if_true, if_false]
      split_ifs <;> exact fun h => by cases h

/-- A page fault is raised inside the page table, for a page that is not valid. -/
theorem of_translate_pageFault
    (h : translate numPhysPages pageTable pageTableSize virtAddr size writing =
      .ok (.exception .pageFault)) :
    vpnOf virtAddr < pageTableSize ∧ (pageTable (vpnOf virtAddr)).valid = false := by
  unfold translate at h
  grind

/-- A translation that succeeds changes the use bit and the dirty bit only. -/
theorem of_translate_physical {physAddr : ℕ} {entry : TranslationEntry}
    (h : translate numPhysPages pageTable pageTableSize virtAddr size writing =
      .ok (.physical physAddr entry)) :
    vpnOf virtAddr < pageTableSize ∧ (pageTable (vpnOf virtAddr)).valid = true ∧
      entry = { pageTable (vpnOf virtAddr) with
        use := true
        dirty := (pageTable (vpnOf virtAddr)).dirty || writing } := by
  unfold translate at h
  grind

/-- The value read depends on the bytes read. -/
theorem load_congr {m m' : ℕ → Byte} {a a' : ℕ} (h : ∀ k < size, m (a + k) = m' (a' + k)) :
    load m a size = load m' a' size := by
  unfold load
  split
  · rw [show m a = m' a' from h 0 (by decide)]
  · rw [show m a = m' a' from h 0 (by decide), h 1 (by decide)]
  · rw [show m a = m' a' from h 0 (by decide), h 1 (by decide), h 2 (by decide), h 3 (by decide)]
  · rfl

theorem load_eq_ok (hsize : Sized size) (mem : ℕ → Byte) (a : ℕ) :
    ∃ v, load mem a size = .ok v := by
  rcases hsize with rfl | rfl | rfl
  · exact ⟨_, rfl⟩
  · exact ⟨_, rfl⟩
  · exact ⟨_, rfl⟩

end Nachos
