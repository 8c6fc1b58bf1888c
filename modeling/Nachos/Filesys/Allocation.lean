import Nachos.Filesys.OpenFile

/-!
# The free map and the allocation of sectors

`FileHeader::Allocate` takes the sectors of a file from the free map, and `Deallocate` gives them
back. The free map is stored in a file of its own.
-/

namespace Nachos

open Lib

namespace Filesys

namespace FileHeader

/-- `divRoundUp(fileSize, SectorSize)`. -/
def sectorsFor (fileSize : ℤ) : ℤ :=
  fileSize.tdiv SectorSize + if 0 < fileSize.tmod SectorSize then 1 else 0

/-- `dataSectors[i] = sector`. -/
def setDataSector (h : FileHeader) (i : ℕ) (sector : ℤ) : FileHeader :=
  { h with dataSectors := Function.update h.dataSectors i (BitVec.ofInt 32 sector) }

/-- The loop of `Allocate`, for the `n` sectors of the file from `i` on. -/
def allocateFrom (h : FileHeader) (freeMap : BitMap) : ℕ → ℕ → Except Fault (FileHeader × BitMap)
  | 0, _ => .ok (h, freeMap)
  | n + 1, i =>
      match freeMap.find with
      | .error e => .error e
      | .ok (sector, freeMap') =>
          if i < NumDirect then
            allocateFrom (h.setDataSector i sector) freeMap' n (i + 1)
          else
            .error .wildAddress

/-- `FileHeader::Allocate`. -/
def allocate (h : FileHeader) (freeMap : BitMap) (fileSize : ℤ) :
    Except Fault (Bool × FileHeader × BitMap) :=
  let h := { h with
    numBytes := BitVec.ofInt 32 fileSize
    numSectors := BitVec.ofInt 32 (sectorsFor fileSize) }
  match freeMap.numClear with
  | .error e => .error e
  | .ok numClear =>
      if numClear < sectorsFor fileSize then
        .ok (false, h, freeMap)
      else
        match allocateFrom h freeMap (sectorsFor fileSize).toNat 0 with
        | .error e => .error e
        | .ok (h', freeMap') => .ok (true, h', freeMap')

/-- The loop of `Deallocate`, for the `n` sectors of the file from `i` on. -/
def deallocateFrom (h : FileHeader) : ℕ → ℕ → BitMap → Except Fault BitMap
  | 0, _, freeMap => .ok freeMap
  | n + 1, i, freeMap =>
      if i < NumDirect then
        match freeMap.test (h.dataSectors i).toInt with
        | .error e => .error e
        | .ok false => .error .assertion
        | .ok true =>
            match freeMap.clear (h.dataSectors i).toInt with
            | .error e => .error e
            | .ok freeMap' => deallocateFrom h n (i + 1) freeMap'
      else
        .error .wildAddress

/-- `FileHeader::Deallocate`. -/
def deallocate (h : FileHeader) (freeMap : BitMap) : Except Fault BitMap :=
  h.deallocateFrom h.numSectors.toInt.toNat 0 freeMap

/-- The `n` data sectors from `i` on. -/
def sectorsFrom (h : FileHeader) (i n : ℕ) : List ℕ :=
  (List.range' i n).map fun j => (h.dataSectors j).toNat

theorem sectors_eq (h : FileHeader) : h.sectors = h.sectorsFrom 0 h.numSectors.toNat := by
  rw [sectors, sectorsFrom, List.range_eq_range']

theorem sectorsFrom_succ (h : FileHeader) (i n : ℕ) :
    h.sectorsFrom i (n + 1) = (h.dataSectors i).toNat :: h.sectorsFrom (i + 1) n := rfl

/-- `Allocate` takes sectors that are free. -/
theorem allocateFrom_spec {h : FileHeader} {freeMap : BitMap} {n i : ℕ}
    (hclear : n ≤ Nat.count (fun j => freeMap.bit j = false) freeMap.numBits)
    (hi : i + n ≤ NumDirect) (hbits : freeMap.numBits ≤ NumSectors) :
    ∃ h' freeMap', h.allocateFrom freeMap n i = .ok (h', freeMap') ∧
      h'.numBytes = h.numBytes ∧ h'.numSectors = h.numSectors ∧
        (∀ j < i, h'.dataSectors j = h.dataSectors j) ∧ (h'.sectorsFrom i n).Nodup ∧
          (∀ s ∈ h'.sectorsFrom i n, s < freeMap.numBits ∧ freeMap.bit s = false) ∧
            freeMap'.numBits = freeMap.numBits ∧
              (∀ j, freeMap'.bit j = (decide (j ∈ h'.sectorsFrom i n) || freeMap.bit j)) ∧
                Nat.count (fun j => freeMap.bit j = false) freeMap.numBits =
                  Nat.count (fun j => freeMap'.bit j = false) freeMap'.numBits + n := by
  induction n generalizing h freeMap i with
  | zero => exact ⟨h, freeMap, rfl, rfl, rfl, fun _ _ => rfl, by simp [sectorsFrom]⟩
  | succ n ih =>
      obtain ⟨f, freeMap₁, hfind, hlt, hfree, hbits₁, hbit₁, hcount⟩ :=
        BitMap.find_of_clear (b := freeMap) (by omega)
      have hclear₁ : n ≤ Nat.count (fun j => freeMap₁.bit j = false) freeMap₁.numBits := by omega
      obtain ⟨h', freeMap', hrest, hbytes, hnum, hold, hnodup, hwere, hbits', hbit', hcount'⟩ :=
        ih (h := h.setDataSector i f) (i := i + 1) hclear₁ (by omega) (by omega)
      have hf : (h'.dataSectors i).toNat = f := by
        have hi' : h'.dataSectors i = BitVec.ofInt 32 f :=
          (hold i (Nat.lt_succ_self i)).trans (Function.update_self ..)
        rw [hi']
        rw [NumSectors] at hbits
        simp only [BitVec.ofInt_natCast, BitVec.toNat_ofNat]
        omega
      refine ⟨h', freeMap', ?_, hbytes, hnum, ?_, ?_, ?_, hbits'.trans hbits₁, ?_, by omega⟩
      · rw [allocateFrom, hfind]
        simp only [if_pos (show i < NumDirect by omega), hrest]
      · intro j hj
        exact (hold j (by omega)).trans (Function.update_of_ne hj.ne ..)
      · rw [sectorsFrom_succ, hf, List.nodup_cons]
        refine ⟨fun hmem => ?_, hnodup⟩
        have := (hwere f hmem).2
        simp [hbit₁] at this
      · rw [sectorsFrom_succ, hf]
        intro s hs
        rcases List.mem_cons.1 hs with rfl | hs
        · exact ⟨hlt, hfree⟩
        · obtain ⟨hslt, hsbit⟩ := hwere s hs
          rw [hbit₁, Bool.or_eq_false_iff] at hsbit
          exact ⟨hbits₁ ▸ hslt, hsbit.2⟩
      · intro j
        rw [hbit', hbit₁, sectorsFrom_succ, hf]
        simp only [List.mem_cons, Bool.decide_or]
        rw [← Bool.or_assoc, Bool.or_comm (decide (j ∈ _))]

theorem sectorsFor_natCast (n : ℕ) : sectorsFor n = divRoundUp n SectorSize := by
  unfold sectorsFor divRoundUp
  rw [← Int.ofNat_tdiv, ← Int.ofNat_tmod]
  by_cases h : 0 < n % SectorSize
  · rw [if_pos (by exact_mod_cast h), if_pos h]
    rfl
  · rw [if_neg (by exact_mod_cast h), if_neg h]
    rfl

theorem divRoundUp_le {fileSize : ℕ} (hsize : fileSize ≤ MaxFileSize) :
    divRoundUp fileSize SectorSize ≤ NumDirect := by
  simp only [MaxFileSize, NumDirect, SectorSize] at hsize ⊢
  unfold divRoundUp
  by_cases h : 0 < fileSize % 128
  · rw [if_pos h]
    omega
  · rw [if_neg h]
    omega

/-- `Allocate` fails when there are too few free sectors; otherwise it takes free ones. -/
theorem allocate_spec (h : FileHeader) {freeMap : BitMap} {fileSize : ℕ}
    (hsize : fileSize ≤ MaxFileSize) (hbits : freeMap.numBits ≤ NumSectors) :
    (Nat.count (fun j => freeMap.bit j = false) freeMap.numBits < divRoundUp fileSize SectorSize ∧
      ∃ h', h.allocate freeMap fileSize = .ok (false, h', freeMap)) ∨
      ∃ h' freeMap', h.allocate freeMap fileSize = .ok (true, h', freeMap') ∧
        h'.numBytes = BitVec.ofNat 32 fileSize ∧
          h'.numSectors.toNat = divRoundUp fileSize SectorSize ∧
            h'.sectors.Nodup ∧ (∀ s ∈ h'.sectors, s < freeMap.numBits ∧ freeMap.bit s = false) ∧
              freeMap'.numBits = freeMap.numBits ∧
                (∀ j, freeMap'.bit j = (decide (j ∈ h'.sectors) || freeMap.bit j)) ∧
                  Nat.count (fun j => freeMap.bit j = false) freeMap.numBits =
                    Nat.count (fun j => freeMap'.bit j = false) freeMap'.numBits +
                      divRoundUp fileSize SectorSize := by
  have hn := divRoundUp_le hsize
  unfold allocate
  rw [BitMap.numClear_eq, sectorsFor_natCast]
  simp only [Int.toNat_natCast, BitVec.ofInt_natCast]
  by_cases hfew : (Nat.count (fun j => freeMap.bit j = false) freeMap.numBits : ℤ) <
      divRoundUp fileSize SectorSize
  · rw [if_pos hfew]
    exact .inl ⟨by exact_mod_cast hfew, _, rfl⟩
  · rw [if_neg hfew]
    obtain ⟨h', freeMap', hrest, hbytes, hnum, -, hnodup, hwere, hbits', hbit', hcount⟩ :=
      allocateFrom_spec (h := ⟨BitVec.ofNat 32 fileSize,
        BitVec.ofNat 32 (divRoundUp fileSize SectorSize), h.dataSectors⟩) (i := 0)
        (not_lt.1 (by exact_mod_cast hfew)) (by omega) hbits
    have hnum' : h'.numSectors.toNat = divRoundUp fileSize SectorSize := by
      have hlt : divRoundUp fileSize SectorSize < 2 ^ 32 := hn.trans_lt (by decide)
      rw [hnum, BitVec.toNat_ofNat, Nat.mod_eq_of_lt hlt]
    rw [← hnum', ← sectors_eq] at hnodup hwere hbit'
    rw [hrest]
    exact .inr ⟨h', freeMap', rfl, hbytes, hnum', hnodup, hwere, hbits', hbit', hcount⟩

/-- `Deallocate` frees the sectors when they are marked. -/
theorem deallocateFrom_spec {h : FileHeader} {freeMap : BitMap} {n i : ℕ} (hi : i + n ≤ NumDirect)
    (hbits : freeMap.numBits ≤ NumSectors) (hnodup : (h.sectorsFrom i n).Nodup)
    (hmarked : ∀ s ∈ h.sectorsFrom i n, s < freeMap.numBits ∧ freeMap.bit s = true) :
    ∃ freeMap', h.deallocateFrom n i freeMap = .ok freeMap' ∧
      freeMap'.numBits = freeMap.numBits ∧
        ∀ j, freeMap'.bit j = (!decide (j ∈ h.sectorsFrom i n) && freeMap.bit j) := by
  induction n generalizing freeMap i with
  | zero => exact ⟨freeMap, rfl, rfl, by simp [sectorsFrom]⟩
  | succ n ih =>
      rw [sectorsFrom_succ] at hnodup hmarked
      rw [List.nodup_cons] at hnodup
      obtain ⟨hlt, hbit⟩ := hmarked _ List.mem_cons_self
      have hint : (h.dataSectors i).toInt = ((h.dataSectors i).toNat : ℕ) := by
        rw [NumSectors] at hbits
        exact toInt_of_lt (by omega)
      obtain ⟨freeMap₁, hclear, hbits₁, hbit₁⟩ := BitMap.clear_spec hlt
      have hmarked₁ : ∀ s ∈ h.sectorsFrom (i + 1) n, s < freeMap₁.numBits ∧
        freeMap₁.bit s = true := by
        intro s hs
        have hne : s ≠ (h.dataSectors i).toNat := by
          rintro rfl
          exact hnodup.1 hs
        obtain ⟨hslt, hsbit⟩ := hmarked s (List.mem_cons_of_mem _ hs)
        exact ⟨hbits₁ ▸ hslt, by simp [hbit₁, hne, hsbit]⟩
      obtain ⟨freeMap', hrest, hbits', hbit'⟩ := ih (by omega) (by omega) hnodup.2 hmarked₁
      refine ⟨freeMap', ?_, hbits'.trans hbits₁, ?_⟩
      · rw [deallocateFrom, if_pos (by omega), hint, BitMap.test_eq hlt, hbit]
        simp only [hclear, hrest]
      · intro j
        rw [hbit', hbit₁, sectorsFrom_succ]
        simp only [List.mem_cons, Bool.decide_or, Bool.not_or]
        rw [← Bool.and_assoc, Bool.and_comm (!decide (j ∈ _))]

theorem deallocate_spec {h : FileHeader} {freeMap : BitMap} (hw : h.numSectors.toNat ≤ NumDirect)
    (hbits : freeMap.numBits ≤ NumSectors) (hnodup : h.sectors.Nodup)
    (hmarked : ∀ s ∈ h.sectors, s < freeMap.numBits ∧ freeMap.bit s = true) :
    ∃ freeMap', h.deallocate freeMap = .ok freeMap' ∧ freeMap'.numBits = freeMap.numBits ∧
      ∀ j, freeMap'.bit j = (!decide (j ∈ h.sectors) && freeMap.bit j) := by
  have hint : h.numSectors.toInt.toNat = h.numSectors.toNat := by
    rw [NumDirect, SectorSize] at hw
    rw [toInt_of_lt (by omega), Int.toNat_natCast]
  unfold deallocate
  rw [hint]
  rw [sectors_eq] at hnodup hmarked ⊢
  exact deallocateFrom_spec (by omega) hbits hnodup hmarked

end FileHeader

end Filesys

/-! ## The file of the free map -/

namespace BitMap

open Filesys

def numWords (b : BitMap) : ℕ := divRoundUp b.numBits bitsInWord

/-- `BitMap::FetchFrom`. -/
def fetchFrom (b : BitMap) (file : OpenFile) (disk : Disk) : Except Fault BitMap :=
  match file.readAt disk (bytesOf b.map) 0 (b.numWords * 4 : ℕ) 0 with
  | .error e => .error e
  | .ok (_, mem) => .ok { b with map := fun i => wordAt mem (4 * i) }

/-- `BitMap::WriteBack`. -/
def writeBack (b : BitMap) (file : OpenFile) (disk : Disk) (raw : ℕ → Byte) : Except Fault Disk :=
  match file.writeAt disk raw (bytesOf b.map) (b.numWords * 4 : ℕ) 0 with
  | .error e => .error e
  | .ok (_, disk') => .ok disk'

/-- The bit map that is stored in the bytes. -/
def ofBytes (numBits : ℕ) (bytes : ℕ → Byte) : BitMap where
  numBits := numBits
  map i := wordAt bytes (4 * i)

theorem four_le_numWords {b : BitMap} {j : ℕ} (hj : j < b.numBits) :
    4 * (j / bitsInWord) + 4 ≤ b.numWords * 4 := by
  unfold numWords divRoundUp
  rw [bitsInWord]
  split <;> omega

/-- The words of a bit map that agree with the bytes give its bits. -/
theorem bit_ofBytes_congr {b : BitMap} {bytes bytes' : ℕ → Byte} {numBits j : ℕ}
    (h : ∀ k < b.numWords * 4, bytes k = bytes' k) (hj : j < b.numBits) :
    (ofBytes numBits bytes).bit j = (ofBytes numBits bytes').bit j := by
  have hle := four_le_numWords hj
  simp only [bit, ofBytes]
  rw [wordAt_congr fun a ha => h _ (by omega)]

theorem fetchFrom_spec (b : BitMap) {file : OpenFile} (hw : file.hdr.WellFormed) (disk : Disk)
    (hlen : (b.numWords * 4 : ℕ) ≤ file.hdr.fileLength) :
    ∃ b', b.fetchFrom file disk = .ok b' ∧ b'.numBits = b.numBits ∧
      ∀ j < b.numBits, b'.bit j = (ofBytes b.numBits (file.hdr.contents disk)).bit j := by
  unfold fetchFrom
  rw [OpenFile.readAt_eq hw, OpenFile.moved_all hlen]
  refine ⟨_, rfl, rfl, fun j hj => bit_ofBytes_congr (b := b) ?_ hj⟩
  intro k hk
  rw [splice_front hk, Nat.zero_add]

theorem writeBack_spec (b : BitMap) {file : OpenFile} (hw : file.hdr.WellFormed) (disk : Disk)
    (raw : ℕ → Byte) (hlen : (b.numWords * 4 : ℕ) ≤ file.hdr.fileLength) :
    ∃ disk', b.writeBack file disk raw = .ok disk' ∧
      (∀ j < b.numBits, (ofBytes b.numBits (file.hdr.contents disk')).bit j = b.bit j) ∧
        ∀ s, s ∉ file.hdr.sectors → SameSector disk disk' s := by
  obtain ⟨disk', hwrite, hcontents, hsame⟩ := OpenFile.writeAt_spec hw disk raw
    (bytesOf b.map) (b.numWords * 4 : ℕ) 0
  refine ⟨disk', by simp only [writeBack, hwrite], ?_, hsame⟩
  rw [OpenFile.moved_all hlen] at hcontents
  intro j hj
  have hbytes : ∀ k < b.numWords * 4, file.hdr.contents disk' k = bytesOf b.map k := by
    intro k hk
    rw [hcontents k (by omega), splice_front hk]
  rw [bit_ofBytes_congr hbytes hj]
  simp only [bit, ofBytes, wordAt_bytesOf]

end BitMap

end Nachos
