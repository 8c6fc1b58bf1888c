import Nachos.Filesys.Consistency

/-!
# Files that are too large for a header

A header has room for `NumDirect` sectors, but `FileHeader::Allocate` compares the number of sectors
that a file needs with the free space of the disk only. A file that needs more, on a disk that has
them, makes it write behind the end of `dataSectors`.
-/

namespace Nachos

open Lib

namespace Filesys

/-- The size fits in a header, or one of the checks of `Create` fails: the name is in the directory,
the directory is full, or there are too few free sectors for the header and the data. -/
def Stopped (disk : Disk) (name : ℕ → Byte) (initialSize : ℤ) : Prop :=
  initialSize ≤ MaxFileSize ∨
    (∃ i < NumDirEntries, disk.directory.inUse i = true ∧
      strncmp (disk.directory.name i) name FileNameMaxLen = 0) ∨
    (∀ i < NumDirEntries, disk.directory.inUse i = true) ∨
    (disk.numFree : ℤ) < 1 + FileHeader.sectorsFor initialSize

namespace FileHeader

theorem sectorsFor_le_iff {fileSize : ℤ} :
    sectorsFor fileSize ≤ NumDirect ↔ fileSize ≤ MaxFileSize := by
  unfold sectorsFor MaxFileSize NumDirect SectorSize
  rcases le_total 0 fileSize with h | h
  · obtain ⟨n, rfl⟩ := Int.eq_ofNat_of_zero_le h
    rw [← Int.ofNat_tdiv, ← Int.ofNat_tmod]
    split <;> omega
  · obtain ⟨n, hn⟩ := Int.eq_ofNat_of_zero_le (neg_nonneg.2 h)
    obtain rfl : fileSize = -(n : ℤ) := by omega
    rw [Int.neg_tdiv, Int.neg_tmod, ← Int.ofNat_tdiv, ← Int.ofNat_tmod]
    split <;> omega

/-- The loop writes behind the end of the array when the file has more sectors than the array. -/
theorem allocateFrom_wild {h : FileHeader} {freeMap : BitMap} {n i : ℕ}
    (hclear : n ≤ Nat.count (fun j => freeMap.bit j = false) freeMap.numBits)
    (hi : i ≤ NumDirect) (hn : NumDirect < i + n) :
    h.allocateFrom freeMap n i = .error .wildAddress := by
  induction n generalizing h freeMap i with
  | zero => omega
  | succ n ih =>
      obtain ⟨f, freeMap₁, hfind, -, -, -, -, hcount⟩ :=
        BitMap.find_of_clear (b := freeMap) (by omega)
      rw [allocateFrom, hfind]
      simp only
      split
      · exact ih (by omega) (by omega) (by omega)
      · rfl

/-- When the free space is enough, nothing stops `Allocate`. -/
theorem allocate_wild {h : FileHeader} {freeMap : BitMap} {fileSize : ℤ}
    (hclear : sectorsFor fileSize ≤ Nat.count (fun j => freeMap.bit j = false) freeMap.numBits)
    (hsize : MaxFileSize < fileSize) : h.allocate freeMap fileSize = .error .wildAddress := by
  have hlarge : (NumDirect : ℤ) < sectorsFor fileSize := by
    rw [← not_le, sectorsFor_le_iff]
    exact not_le.2 hsize
  unfold allocate
  rw [BitMap.numClear_eq]
  simp only
  rw [if_neg (not_lt.2 hclear), allocateFrom_wild (by omega) (Nat.zero_le _) (by omega)]

theorem allocateFrom_ok (h : FileHeader) (freeMap : BitMap) {n i : ℕ} (hi : i + n ≤ NumDirect) :
    ∃ r, h.allocateFrom freeMap n i = .ok r := by
  induction n generalizing h freeMap i with
  | zero => exact ⟨_, rfl⟩
  | succ n ih =>
      have hlt : i < NumDirect := by omega
      rcases freeMap.find_spec with ⟨hfind, -⟩ | ⟨f, freeMap₁, hfind, -⟩
      · rw [allocateFrom, hfind]
        simp only [if_pos hlt]
        exact ih _ _ (by omega)
      · rw [allocateFrom, hfind]
        simp only [if_pos hlt]
        exact ih _ _ (by omega)

/-- `Allocate` writes in the array only when the file is small enough for a header, or too large for
the disk. -/
theorem allocate_inRange_iff (h : FileHeader) (freeMap : BitMap) (fileSize : ℤ) :
    h.allocate freeMap fileSize ≠ .error .wildAddress ↔
      fileSize ≤ MaxFileSize ∨
        (Nat.count (fun j => freeMap.bit j = false) freeMap.numBits : ℤ) < sectorsFor fileSize := by
  by_cases hfew : (Nat.count (fun j => freeMap.bit j = false) freeMap.numBits : ℤ) <
      sectorsFor fileSize
  · refine iff_of_true ?_ (.inr hfew)
    unfold allocate
    rw [BitMap.numClear_eq]
    simp [if_pos hfew]
  · by_cases hsize : fileSize ≤ MaxFileSize
    · refine iff_of_true ?_ (.inl hsize)
      have hle := sectorsFor_le_iff.2 hsize
      unfold allocate
      rw [BitMap.numClear_eq]
      simp only [if_neg hfew]
      obtain ⟨⟨h', freeMap'⟩, hok⟩ := allocateFrom_ok ⟨BitVec.ofInt 32 fileSize,
        BitVec.ofInt 32 (sectorsFor fileSize), h.dataSectors⟩ freeMap
        (n := (sectorsFor fileSize).toNat) (i := 0) (by omega)
      rw [hok]
      simp
    · refine iff_of_false ?_ ?_
      · rw [ne_eq, not_not]
        exact allocate_wild (not_lt.1 hfew) (not_le.1 hsize)
      · rintro (hle | hlt)
        · exact hsize hle
        · exact hfew hlt

end FileHeader

namespace Sound

variable {fs : FileSystem}

/-- A file that is too large for a header is refused by one of the other checks, or not at all. -/
theorem create_oversized (h : Sound fs) (name : ℕ → Byte) (initialSize : ℤ)
    (hsize : MaxFileSize < initialSize) (raw : ℕ → ℕ → Byte) :
    (Stopped fs.disk name initialSize ∧ fs.create name initialSize raw = .ok (false, fs)) ∨
      ¬ Stopped fs.disk name initialSize ∧
        fs.create name initialSize raw = .error .wildAddress := by
  have hlarge : (NumDirect : ℤ) < FileHeader.sectorsFor initialSize := by
    rw [← not_le, FileHeader.sectorsFor_le_iff]
    exact not_le.2 hsize
  rcases h.create_cases name initialSize raw with
    ⟨hwhy, hok⟩ | ⟨d, m, f, j, hp, herror, hfails, -⟩
  · refine .inl ⟨.inr (hwhy.imp_right (Or.imp_right fun hzero => ?_)), hok⟩
    omega
  have hcount := hp.numFree
  by_cases hfew : (Nat.count (fun s => m.bit s = false) m.numBits : ℤ) <
      FileHeader.sectorsFor initialSize
  · obtain ⟨hdr, halloc⟩ : ∃ hdr, (FileHeader.ofBytes (raw 2)).allocate m initialSize =
        .ok (false, hdr, m) := by
      unfold FileHeader.allocate
      rw [BitMap.numClear_eq]
      simp only [if_pos hfew]
      exact ⟨_, rfl⟩
    exact .inl ⟨.inr (.inr (.inr (by omega))), hfails hdr m halloc⟩
  · refine .inr ⟨?_, herror _ (FileHeader.allocate_wild (not_lt.1 hfew) hsize)⟩
    rintro (hle | ⟨i, hi, huse, hcmp⟩ | hall | hlt)
    · exact absurd hle (not_le.2 hsize)
    · exact hp.fresh i hi huse hcmp
    · have hunused := hp.unused
      rw [hall j hp.entry_lt] at hunused
      cases hunused
    · omega

end Sound

/-- On a consistent file system, `Create` refuses a file that is too large for a header exactly when
another check fails, and `Allocate` writes in the array only exactly when the file is not too large
or there are too few free sectors. -/
theorem create_refuses_iff (fs : FileSystem) (h : Sound fs) (name : ℕ → Byte) (initialSize : ℤ)
    (raw : ℕ → ℕ → Byte) :
    ((MaxFileSize < initialSize → fs.create name initialSize raw = .ok (false, fs)) ↔
        Stopped fs.disk name initialSize) ∧
      ∀ (hdr : FileHeader) (freeMap : BitMap),
        hdr.allocate freeMap initialSize ≠ .error .wildAddress ↔
          initialSize ≤ MaxFileSize ∨
            (Nat.count (fun s => freeMap.bit s = false) freeMap.numBits : ℤ) <
              FileHeader.sectorsFor initialSize := by
  refine ⟨?_, fun hdr freeMap => hdr.allocate_inRange_iff freeMap initialSize⟩
  by_cases hsize : (MaxFileSize : ℤ) < initialSize
  · rcases h.create_oversized name initialSize hsize raw with ⟨hstop, hok⟩ | ⟨hnot, herror⟩
    · exact iff_of_true (fun _ => hok) hstop
    · refine iff_of_false (fun hrefuse => ?_) hnot
      have hok := hrefuse hsize
      rw [herror] at hok
      cases hok
  · exact iff_of_true (fun hlt => absurd hlt hsize) (.inl (not_lt.1 hsize))

theorem create_refuses_iff_full :
    ∃ fs, FileSystem.format (fun _ => 7) (fun _ _ => 7) = .ok fs ∧ Sound fs ∧
      fs.create nameA 131073 (fun _ _ => 7) = .ok (false, fs) := by
  obtain ⟨fs, hformat, hsound⟩ := format_sound (fun _ => 7) (fun _ _ => 7)
  refine ⟨fs, hformat, hsound, ?_⟩
  refine (create_refuses_iff fs hsound nameA 131073 (fun _ _ => 7)).1.2 ?_ (by decide)
  -- 131073 bytes need 1025 sectors, and the disk has 1024
  have hle : fs.disk.numFree ≤ NumSectors := Nat.count_le _
  have hneed : FileHeader.sectorsFor 131073 = 1025 := by decide
  refine .inr (.inr (.inr ?_))
  rw [hneed]
  rw [NumSectors] at hle
  omega

/-- Every sector is free or in use. -/
theorem Consistent.numFree_add {disk : Disk} (h : Consistent disk) :
    disk.numFree + disk.usedSectors.length = NumSectors := by
  have hset : disk.usedSectors.toFinset =
      (Finset.range NumSectors).filter fun s => disk.freeMap.bit s = true := by
    ext s
    rw [List.mem_toFinset, h.marked, Finset.mem_filter, Finset.mem_range]
  rw [← List.toFinset_card_of_nodup h.nodup, hset, Disk.numFree, Nat.count_eq_card_filter_range,
    add_comm]
  have hsplit := Finset.card_filter_add_card_filter_not (s := Finset.range NumSectors)
    fun s => disk.freeMap.bit s = true
  simpa using hsplit

/-- On a new disk a file of 3841 bytes needs 31 sectors, of which the header can hold 30: the last
one is written behind the end of the array. -/
theorem create_overruns_header :
    ∃ fs, FileSystem.format (fun _ => 7) (fun _ _ => 7) = .ok fs ∧ Consistent fs.disk ∧
      (MaxFileSize : ℤ) < 3841 ∧ fs.create nameA 3841 (fun _ _ => 7) = .error .wildAddress := by
  obtain ⟨fs, hformat, hsound, hempty, hlength⟩ := format_empty (fun _ => 7) (fun _ _ => 7)
  refine ⟨fs, hformat, hsound.consistent, by decide, ?_⟩
  rcases hsound.create_oversized nameA 3841 (by decide) (fun _ _ => 7) with
    ⟨hstop, -⟩ | ⟨-, herror⟩
  · have hfree := hsound.consistent.numFree_add
    rw [hlength, NumSectors] at hfree
    rcases hstop with hle | ⟨i, hi, huse, -⟩ | hall | hfew
    · exact absurd hle (by decide)
    · rw [hempty i hi] at huse
      cases huse
    · have huse := hall 0 (by decide)
      rw [hempty 0 (by decide)] at huse
      cases huse
    · have hneed : FileHeader.sectorsFor 3841 = 31 := by decide
      rw [hneed] at hfew
      omega
  · exact herror

end Filesys

end Nachos
