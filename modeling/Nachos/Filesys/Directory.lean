import Nachos.Filesys.OpenFile

/-!
# The directory

`Directory` of `directory.cc`: a table of entries of twenty bytes, with the flag `inUse`, the
`sector` of the header at 4 and the `name` at 8. The table is stored as it lies in memory, so it is
an array of bytes here too, and the members of an entry are read from it. A name is the memory from
a `char *` on: `strncmp` and `strncpy` stop at its first zero.
-/

namespace Nachos

open Lib

namespace Filesys

def FileNameMaxLen : ℕ := 9

/-- `sizeof(DirectoryEntry)`. -/
def entrySize : ℕ := 20

/-! ## Names -/

/-- `strncmp`. -/
def strncmp (s t : ℕ → Byte) : ℕ → ℤ
  | 0 => 0
  | n + 1 =>
      if s 0 ≠ t 0 then (s 0).toNat - (t 0).toNat
      else if s 0 = 0 then 0
      else strncmp (fun k => s (k + 1)) (fun k => t (k + 1)) n

/-- The characters that `strncpy` writes: after the end of the name there are zeros. -/
def padded (s : ℕ → Byte) : ℕ → Byte
  | 0 => s 0
  | k + 1 => if s 0 = 0 then 0 else padded (fun k => s (k + 1)) k

theorem padded_of_end {s : ℕ → Byte} (h : s 0 = 0) (k : ℕ) : padded s k = 0 := by
  cases k with
  | zero => exact h
  | succ k => rw [padded, if_pos h]

/-- `strncmp` finds no difference when the padded names agree. -/
theorem strncmp_eq_zero_iff {s t : ℕ → Byte} {n : ℕ} :
    strncmp s t n = 0 ↔ ∀ k < n, padded s k = padded t k := by
  induction n generalizing s t with
  | zero => simp [strncmp]
  | succ n ih =>
      unfold strncmp
      by_cases hne : s 0 = t 0
      · rw [if_neg (not_not.2 hne)]
        by_cases hend : s 0 = 0
        · rw [if_pos hend]
          simp only [true_iff]
          intro k _
          rw [padded_of_end hend, padded_of_end (hne ▸ hend)]
        · rw [if_neg hend, ih]
          have hend' : t 0 ≠ 0 := hne ▸ hend
          constructor
          · intro h k hk
            cases k with
            | zero => exact hne
            | succ k => rw [padded, if_neg hend, padded, if_neg hend', h k (by omega)]
          · intro h k hk
            have := h (k + 1) (by omega)
            rwa [padded, if_neg hend, padded, if_neg hend'] at this
      · rw [if_pos hne]
        refine iff_of_false ?_ ?_
        · intro hzero
          exact hne (BitVec.eq_of_toNat_eq (by omega))
        · exact fun h => hne (h 0 (Nat.succ_pos n))

theorem strncmp_eq_zero_comm {s t : ℕ → Byte} {n : ℕ} : strncmp s t n = 0 ↔ strncmp t s n = 0 := by
  rw [strncmp_eq_zero_iff, strncmp_eq_zero_iff]
  exact forall₂_congr fun k _ => eq_comm

theorem padded_congr {s t : ℕ → Byte} {n : ℕ} (h : ∀ k < n, s k = t k) :
    ∀ k < n, padded s k = padded t k := by
  induction n generalizing s t with
  | zero => exact fun k hk => absurd hk (Nat.not_lt_zero k)
  | succ n ih =>
      have h0 : s 0 = t 0 := h 0 (Nat.succ_pos n)
      intro k hk
      cases k with
      | zero => exact h0
      | succ k =>
          rw [padded, padded, h0, ih (fun j hj => h (j + 1) (by omega)) k (by omega)]

/-- What `strncpy` writes is padded. -/
theorem padded_of_copy {s t : ℕ → Byte} {n : ℕ} (h : ∀ k < n, s k = padded t k) :
    ∀ k < n, padded s k = padded t k := by
  induction n generalizing s t with
  | zero => exact fun k hk => absurd hk (Nat.not_lt_zero k)
  | succ n ih =>
      have h0 : s 0 = t 0 := h 0 (Nat.succ_pos n)
      intro k hk
      by_cases hend : t 0 = 0
      · rw [padded_of_end hend, padded_of_end (h0 ▸ hend)]
      · cases k with
        | zero => exact h0
        | succ k =>
            rw [padded, if_neg (h0 ▸ hend), padded, if_neg hend]
            refine ih (fun j hj => ?_) k (by omega)
            have := h (j + 1) (by omega)
            rwa [padded, if_neg hend] at this

/-! ## The table -/

structure Directory where
  tableSize : ℕ
  table : ℕ → Byte

namespace Directory

/-- `table[i].inUse`. -/
def inUse (d : Directory) (i : ℕ) : Bool := d.table (i * entrySize) != 0

/-- `table[i].sector`. -/
def sector (d : Directory) (i : ℕ) : BitVec 32 := wordAt d.table (i * entrySize + 4)

/-- `table[i].name`. -/
def name (d : Directory) (i : ℕ) : ℕ → Byte := fun k => d.table (i * entrySize + 8 + k)

/-- `table[i].inUse = value`. -/
def setInUse (d : Directory) (i : ℕ) (value : Bool) : Directory :=
  { d with table := splice d.table (i * entrySize) 1 fun _ => if value then 1 else 0 }

/-- `strncpy(table[i].name, name, FileNameMaxLen)`. -/
def setName (d : Directory) (i : ℕ) (name : ℕ → Byte) : Directory :=
  { d with table := splice d.table (i * entrySize + 8) FileNameMaxLen (padded name) }

/-- `table[i].sector = sector`. -/
def setSector (d : Directory) (i : ℕ) (sector : ℤ) : Directory :=
  { d with table := splice d.table (i * entrySize + 4) 4 (bytesOf fun _ => BitVec.ofInt 32 sector) }

/-- The loop of the constructor, for the `k` entries from `i` on. -/
def newFrom (d : Directory) : ℕ → ℕ → Directory
  | 0, _ => d
  | k + 1, i => newFrom (d.setInUse i false) k (i + 1)

/-- The constructor of `Directory`; `raw` is what the new table happens to hold. -/
def new (size : ℕ) (raw : ℕ → Byte) : Directory := newFrom ⟨size, raw⟩ size 0

/-- The loop of `FindIndex`, for the `k` entries from `i` on. -/
def findIndexFrom (d : Directory) (name : ℕ → Byte) : ℕ → ℕ → ℤ
  | 0, _ => -1
  | k + 1, i =>
      if d.inUse i && strncmp (d.name i) name FileNameMaxLen == 0 then i
      else findIndexFrom d name k (i + 1)

/-- `Directory::FindIndex`. -/
def findIndex (d : Directory) (name : ℕ → Byte) : ℤ := d.findIndexFrom name d.tableSize 0

/-- `Directory::Find`. -/
def find (d : Directory) (name : ℕ → Byte) : ℤ :=
  let i := d.findIndex name
  if i ≠ -1 then (d.sector i.toNat).toInt else -1

/-- The loop of `Add`, for the `k` entries from `i` on. -/
def addFrom (d : Directory) (name : ℕ → Byte) (newSector : ℤ) : ℕ → ℕ → Bool × Directory
  | 0, _ => (false, d)
  | k + 1, i =>
      if d.inUse i then addFrom d name newSector k (i + 1)
      else (true, ((d.setInUse i true).setName i name).setSector i newSector)

/-- `Directory::Add`. -/
def add (d : Directory) (name : ℕ → Byte) (newSector : ℤ) : Bool × Directory :=
  if d.findIndex name ≠ -1 then (false, d) else d.addFrom name newSector d.tableSize 0

/-- `Directory::Remove`. -/
def remove (d : Directory) (name : ℕ → Byte) : Bool × Directory :=
  let i := d.findIndex name
  if i = -1 then (false, d) else (true, d.setInUse i.toNat false)

/-- `Directory::FetchFrom`. -/
def fetchFrom (d : Directory) (file : OpenFile) (disk : Disk) : Except Fault Directory :=
  match file.readAt disk d.table 0 (d.tableSize * entrySize : ℕ) 0 with
  | .error e => .error e
  | .ok (_, table) => .ok { d with table := table }

/-- `Directory::WriteBack`. -/
def writeBack (d : Directory) (file : OpenFile) (disk : Disk) (raw : ℕ → Byte) :
    Except Fault Disk :=
  match file.writeAt disk raw d.table (d.tableSize * entrySize : ℕ) 0 with
  | .error e => .error e
  | .ok (_, disk') => .ok disk'

/-! ## Entries -/

/-- The two tables have the same entry. -/
def SameEntry (d d' : Directory) (i : ℕ) : Prop :=
  ∀ k < entrySize, d'.table (i * entrySize + k) = d.table (i * entrySize + k)

variable {d d' : Directory} {i j : ℕ}

theorem SameEntry.symm (h : SameEntry d d' i) : SameEntry d' d i := fun k hk => (h k hk).symm

theorem SameEntry.trans {d'' : Directory} (h : SameEntry d d' i) (h' : SameEntry d' d'' i) :
    SameEntry d d'' i := fun k hk => (h' k hk).trans (h k hk)

theorem SameEntry.inUse (h : SameEntry d d' i) : d'.inUse i = d.inUse i := by
  have h0 := h 0 (by decide)
  rw [Nat.add_zero] at h0
  unfold Directory.inUse
  rw [h0]

theorem SameEntry.sector (h : SameEntry d d' i) : d'.sector i = d.sector i := by
  refine wordAt_congr fun k hk => ?_
  rw [Nat.add_assoc]
  exact h (4 + k) (by rw [entrySize]; omega)

theorem SameEntry.padded (h : SameEntry d d' i) {k : ℕ} (hk : k < FileNameMaxLen) :
    padded (d'.name i) k = padded (d.name i) k := by
  refine padded_congr (n := FileNameMaxLen) (fun k hk => ?_) k hk
  unfold Directory.name
  rw [Nat.add_assoc]
  exact h (8 + k) (by rw [FileNameMaxLen] at hk; rw [entrySize]; omega)

theorem SameEntry.strncmp_iff (h : SameEntry d d' i) (s : ℕ → Byte) :
    strncmp (d'.name i) s FileNameMaxLen = 0 ↔ strncmp (d.name i) s FileNameMaxLen = 0 := by
  rw [strncmp_eq_zero_iff, strncmp_eq_zero_iff]
  exact forall₂_congr fun k hk => by rw [h.padded hk]

/-- A change inside an entry. -/
theorem sameEntry_splice {off len : ℕ} (g : ℕ → Byte) (hij : j ≠ i) (hlen : off + len ≤ entrySize) :
    SameEntry d { d with table := splice d.table (i * entrySize + off) len g } j :=
  fun _ hk => splice_inside_block hij hk hlen

theorem sameEntry_setInUse (hij : j ≠ i) (value : Bool) : SameEntry d (d.setInUse i value) j := by
  intro k hk
  have hlen : 0 + 1 ≤ entrySize := by decide
  have h := splice_inside_block (f := d.table) (g := fun _ => if value then 1 else 0) hij hk hlen
  rwa [Nat.add_zero] at h

/-- The entry that `Add` fills in. -/
def setEntry (d : Directory) (i : ℕ) (name : ℕ → Byte) (sector : ℤ) : Directory :=
  ((d.setInUse i true).setName i name).setSector i sector

theorem sameEntry_setEntry (hij : j ≠ i) (name : ℕ → Byte) (sector : ℤ) :
    SameEntry d (d.setEntry i name sector) j := by
  have hname : SameEntry (d.setInUse i true) ((d.setInUse i true).setName i name) j :=
    sameEntry_splice _ hij (by decide)
  have hsector : SameEntry ((d.setInUse i true).setName i name) (d.setEntry i name sector) j :=
    sameEntry_splice _ hij (by decide)
  exact (sameEntry_setInUse hij true).trans (hname.trans hsector)

theorem inUse_setInUse (d : Directory) (i : ℕ) (value : Bool) :
    (d.setInUse i value).inUse i = value := by
  have hbyte : (d.setInUse i value).table (i * entrySize + 0) = if value then 1 else 0 :=
    splice_add (g := fun _ => if value then 1 else 0) Nat.one_pos
  unfold inUse
  rw [Nat.add_zero] at hbyte
  rw [hbyte]
  cases value <;> rfl

theorem inUse_setEntry (d : Directory) (i : ℕ) (name : ℕ → Byte) (sector : ℤ) :
    (d.setEntry i name sector).inUse i = true := by
  have hbyte : (d.setEntry i name sector).table (i * entrySize) =
      (d.setInUse i true).table (i * entrySize) := by
    refine (splice_of_lt ?_).trans (splice_of_lt ?_)
    · omega
    · omega
  unfold inUse
  rw [hbyte]
  exact d.inUse_setInUse i true

theorem sector_setEntry (d : Directory) (i : ℕ) (name : ℕ → Byte) (sector : ℤ) :
    (d.setEntry i name sector).sector i = BitVec.ofInt 32 sector := by
  refine Eq.trans ?_ (wordAt_bytesOf (fun _ => BitVec.ofInt 32 sector) 0)
  refine wordAt_congr fun k hk => ?_
  rw [Nat.mul_zero, Nat.zero_add]
  exact splice_add hk

theorem padded_setEntry (d : Directory) (i : ℕ) (name : ℕ → Byte) (sector : ℤ) {k : ℕ}
    (hk : k < FileNameMaxLen) :
    Filesys.padded ((d.setEntry i name sector).name i) k = Filesys.padded name k := by
  refine padded_of_copy (n := FileNameMaxLen) (fun k hk => ?_) k hk
  refine (splice_of_le ?_).trans (splice_add hk)
  omega

theorem newFrom_spec (d : Directory) (k i : ℕ) : (newFrom d k i).tableSize = d.tableSize ∧
    ∀ j, (newFrom d k i).inUse j = (!decide (i ≤ j ∧ j < i + k) && d.inUse j) := by
  induction k generalizing d i with
  | zero =>
      refine ⟨rfl, fun j => ?_⟩
      have hnone : ¬ (i ≤ j ∧ j < i + 0) := by omega
      simp only [newFrom, hnone, decide_false, Bool.not_false, Bool.true_and]
  | succ k ih =>
      obtain ⟨hsize, huse⟩ := ih (d.setInUse i false) (i + 1)
      refine ⟨hsize, fun j => ?_⟩
      rw [newFrom, huse]
      by_cases hij : j = i
      · subst hij
        have hin : j ≤ j ∧ j < j + (k + 1) := by omega
        simp [inUse_setInUse, hin]
      · have hiff : i + 1 ≤ j ∧ j < i + 1 + k ↔ i ≤ j ∧ j < i + (k + 1) := by omega
        rw [(sameEntry_setInUse hij false).inUse]
        simp only [hiff]

/-- A new directory is empty, whatever the table held. -/
theorem new_spec (size : ℕ) (raw : ℕ → Byte) :
    (new size raw).tableSize = size ∧ ∀ i < size, (new size raw).inUse i = false := by
  obtain ⟨hsize, huse⟩ := newFrom_spec ⟨size, raw⟩ size 0
  refine ⟨hsize, fun i hi => ?_⟩
  rw [new, huse]
  simp [hi]

theorem findIndexFrom_spec (name : ℕ → Byte) {k : ℕ} (hk : i + k = d.tableSize) :
    (d.findIndexFrom name k i = -1 ∧ ∀ j, i ≤ j → j < d.tableSize → d.inUse j = true →
      strncmp (d.name j) name FileNameMaxLen ≠ 0) ∨
      ∃ j < d.tableSize, d.findIndexFrom name k i = (j : ℕ) ∧ d.inUse j = true ∧
        strncmp (d.name j) name FileNameMaxLen = 0 := by
  induction k generalizing i with
  | zero => exact .inl ⟨rfl, fun j hj hlt => by omega⟩
  | succ k ih =>
      unfold findIndexFrom
      by_cases hi : d.inUse i = true ∧ strncmp (d.name i) name FileNameMaxLen = 0
      · refine .inr ⟨i, by omega, ?_, hi⟩
        rw [if_pos (by simpa using hi)]
      · rw [if_neg (by simpa using hi)]
        rcases ih (i := i + 1) (by omega) with ⟨heq, hall⟩ | hfound
        · refine .inl ⟨heq, fun j hj hlt huse hcmp => ?_⟩
          by_cases hji : j = i
          · subst hji
            exact hi ⟨huse, hcmp⟩
          · exact hall j (by omega) hlt huse hcmp
        · exact .inr hfound

/-- `FindIndex` finds an entry in use that has the name, and returns -1 when there is none. -/
theorem findIndex_spec (d : Directory) (name : ℕ → Byte) :
    (d.findIndex name = -1 ∧ ∀ j < d.tableSize, d.inUse j = true →
      strncmp (d.name j) name FileNameMaxLen ≠ 0) ∨
      ∃ j < d.tableSize, d.findIndex name = (j : ℕ) ∧ d.inUse j = true ∧
        strncmp (d.name j) name FileNameMaxLen = 0 := by
  rcases findIndexFrom_spec name (Nat.zero_add d.tableSize) with ⟨heq, hall⟩ | h
  · exact .inl ⟨heq, fun j hj => hall j (Nat.zero_le j) hj⟩
  · exact .inr h

theorem addFrom_spec {name : ℕ → Byte} {newSector : ℤ} {k : ℕ} (hk : i + k = d.tableSize) :
    d.addFrom name newSector k i = (false, d) ∨
      ∃ j < d.tableSize, d.inUse j = false ∧
        d.addFrom name newSector k i = (true, d.setEntry j name newSector) := by
  induction k generalizing i with
  | zero => exact .inl rfl
  | succ k ih =>
      unfold addFrom
      cases hi : d.inUse i with
      | false => exact .inr ⟨i, by omega, hi, rfl⟩
      | true => exact ih (i := i + 1) (by omega)

/-- `Add` fails, or it fills in a free entry. -/
theorem add_spec (d : Directory) (name : ℕ → Byte) (newSector : ℤ) :
    d.add name newSector = (false, d) ∨
      ∃ j < d.tableSize, d.inUse j = false ∧
        d.add name newSector = (true, d.setEntry j name newSector) := by
  unfold add
  split
  · exact .inl rfl
  · exact addFrom_spec (Nat.zero_add d.tableSize)

theorem inUse_of_addFrom {name : ℕ → Byte} {newSector : ℤ} {k : ℕ} (hk : i + k = d.tableSize)
    (h : (d.addFrom name newSector k i).1 = false) :
    ∀ j, i ≤ j → j < d.tableSize → d.inUse j = true := by
  induction k generalizing i with
  | zero =>
      intro j hle hlt
      omega
  | succ k ih =>
      unfold addFrom at h
      cases hi : d.inUse i with
      | false => simp [hi] at h
      | true =>
          rw [hi, if_pos rfl] at h
          intro j hle hlt
          rcases hle.eq_or_lt with rfl | hle
          · exact hi
          · exact ih (i := i + 1) (by omega) h j hle hlt

/-- `Add` fails for a new name only when every entry is in use. -/
theorem inUse_of_add {name : ℕ → Byte} {newSector : ℤ} (hnew : d.findIndex name = -1)
    (h : (d.add name newSector).1 = false) : ∀ j < d.tableSize, d.inUse j = true := by
  rw [add, if_neg (not_not.2 hnew)] at h
  exact fun j hj => inUse_of_addFrom (Nat.zero_add d.tableSize) h j (Nat.zero_le j) hj

/-! ## The file of the directory -/

theorem fetchFrom_spec (d : Directory) {file : OpenFile} (hw : file.hdr.WellFormed) (disk : Disk)
    (hlen : (d.tableSize * entrySize : ℕ) ≤ file.hdr.fileLength) :
    ∃ d', d.fetchFrom file disk = .ok d' ∧ d'.tableSize = d.tableSize ∧
      ∀ i < d.tableSize, SameEntry ⟨d.tableSize, file.hdr.contents disk⟩ d' i := by
  unfold fetchFrom
  rw [OpenFile.readAt_eq hw, OpenFile.moved_all hlen]
  refine ⟨_, rfl, rfl, fun i hi k hk => ?_⟩
  have hlt : i * entrySize + k < d.tableSize * entrySize := by
    rw [entrySize] at hk ⊢
    omega
  simp only [splice_front hlt, Nat.zero_add]

theorem writeBack_spec (d : Directory) {file : OpenFile} (hw : file.hdr.WellFormed) (disk : Disk)
    (raw : ℕ → Byte) (hlen : (d.tableSize * entrySize : ℕ) ≤ file.hdr.fileLength) :
    ∃ disk', d.writeBack file disk raw = .ok disk' ∧
      (∀ i < d.tableSize, SameEntry d ⟨d.tableSize, file.hdr.contents disk'⟩ i) ∧
        ∀ s, s ∉ file.hdr.sectors → SameSector disk disk' s := by
  obtain ⟨disk', hwrite, hcontents, hsame⟩ := OpenFile.writeAt_spec hw disk raw d.table
    (d.tableSize * entrySize : ℕ) 0
  refine ⟨disk', by simp only [writeBack, hwrite], fun i hi k hk => ?_, hsame⟩
  have hlt : i * entrySize + k < d.tableSize * entrySize := by
    rw [entrySize] at hk ⊢
    omega
  rw [OpenFile.moved_all hlen] at hcontents
  exact (hcontents _ (by omega)).trans (splice_front hlt)

end Directory

end Filesys

end Nachos
