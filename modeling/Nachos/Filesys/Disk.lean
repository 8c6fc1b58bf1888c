import Nachos.Userprog.AddrSpace

/-!
# The disk and the headers of files

The disk of `disk.cc` is an array of sectors, which are read and written as a whole; a sector number
that is out of range fails an `ASSERT`. `SynchDisk` adds the waiting for the request, so for
operations that are made one at a time it is the disk. A structure is stored as it lies in memory:
an `int` is four bytes, the lowest first.
-/

namespace Nachos

open Lib

namespace Filesys

def SectorSize : ℕ := 128

def NumSectors : ℕ := 1024

/-- The bytes of the disk, sector by sector. -/
abbrev Disk := ℕ → Byte

/-- `ASSERT((sectorNumber >= 0) && (sectorNumber < NumSectors))`. -/
def OnDisk (sectorNumber : ℤ) : Prop := 0 ≤ sectorNumber ∧ sectorNumber < NumSectors

instance (sectorNumber : ℤ) : Decidable (OnDisk sectorNumber) :=
  inferInstanceAs (Decidable (_ ∧ _))

/-- `ReadSector(sectorNumber, data)`, with `data` an index of `mem`. -/
def readSector (disk : Disk) (sectorNumber : ℤ) (mem : ℕ → Byte) (data : ℕ) :
    Except Fault (ℕ → Byte) :=
  if OnDisk sectorNumber then
    .ok (splice mem data SectorSize fun k => disk (sectorNumber.toNat * SectorSize + k))
  else
    .error .assertion

/-- `WriteSector(sectorNumber, data)`. -/
def writeSector (disk : Disk) (sectorNumber : ℤ) (data : ℕ → Byte) : Except Fault Disk :=
  if OnDisk sectorNumber then
    .ok (splice disk (sectorNumber.toNat * SectorSize) SectorSize data)
  else
    .error .assertion

/-- The two disks hold the same in the sector. -/
def SameSector (disk disk' : Disk) (sector : ℕ) : Prop :=
  ∀ k < SectorSize, disk' (sector * SectorSize + k) = disk (sector * SectorSize + k)

theorem SameSector.trans {disk disk' disk'' : Disk} {sector : ℕ}
    (h : SameSector disk disk' sector) (h' : SameSector disk' disk'' sector) :
    SameSector disk disk'' sector := by
  intro k hk
  rw [h' k hk, h k hk]

theorem onDisk_natCast {sector : ℕ} : OnDisk sector ↔ sector < NumSectors := by
  unfold OnDisk
  omega

theorem readSector_eq {sector : ℕ} (h : sector < NumSectors) (disk : Disk) (mem : ℕ → Byte)
    (data : ℕ) : readSector disk sector mem data =
      .ok (splice mem data SectorSize fun k => disk (sector * SectorSize + k)) := by
  rw [readSector, if_pos (onDisk_natCast.2 h), Int.toNat_natCast]

/-- A write changes the sector, and no other. -/
theorem writeSector_spec {sector : ℕ} (h : sector < NumSectors) (disk : Disk) (data : ℕ → Byte) :
    ∃ disk', writeSector disk sector data = .ok disk' ∧
      (∀ k < SectorSize, disk' (sector * SectorSize + k) = data k) ∧
        ∀ s, s ≠ sector → SameSector disk disk' s := by
  refine ⟨_, if_pos (onDisk_natCast.2 h), ?_, ?_⟩
  · intro k hk
    rw [Int.toNat_natCast, splice_add hk]
  · intro s hs k hk
    rw [Int.toNat_natCast, splice_block hs hk]

/-! ## Words -/

/-- The bytes of an array of words. -/
def bytesOf (words : ℕ → BitVec 32) (k : ℕ) : Byte := (words (k / 4)).extractLsb' (8 * (k % 4)) 8

theorem wordAt_bytesOf (words : ℕ → BitVec 32) (i : ℕ) :
    wordAt (bytesOf words) (4 * i) = words i := by
  have hdiv : ∀ j < 4, (4 * i + j) / 4 = i := fun j hj => by omega
  have hmod : ∀ j < 4, (4 * i + j) % 4 = j := fun j hj => by omega
  have hbyte : ∀ j < 4, bytesOf words (4 * i + j) = (words i).extractLsb' (8 * j) 8 := by
    intro j hj
    rw [bytesOf, hdiv j hj, hmod j hj]
  have h0 := hbyte 0 (by decide)
  rw [Nat.add_zero] at h0
  unfold wordAt
  rw [h0, hbyte 1 (by decide), hbyte 2 (by decide), hbyte 3 (by decide)]
  refine BitVec.eq_of_getLsbD_eq fun b hb => ?_
  simp only [BitVec.getLsbD_append, BitVec.getLsbD_extractLsb']
  grind

theorem wordAt_congr {b b' : ℕ → Byte} {k k' : ℕ} (h : ∀ j < 4, b (k + j) = b' (k' + j)) :
    wordAt b k = wordAt b' k' := by
  have h0 := h 0 (by decide)
  rw [Nat.add_zero, Nat.add_zero] at h0
  unfold wordAt
  rw [h0, h 1 (by decide), h 2 (by decide), h 3 (by decide)]

/-! ## Headers -/

def NumDirect : ℕ := (SectorSize - 2 * 4) / 4

def MaxFileSize : ℕ := NumDirect * SectorSize

structure FileHeader where
  numBytes : BitVec 32
  numSectors : BitVec 32
  /-- The array has `NumDirect` cells. -/
  dataSectors : ℕ → BitVec 32

namespace FileHeader

/-- The header in the first `SectorSize` bytes. -/
def ofBytes (b : ℕ → Byte) : FileHeader where
  numBytes := wordAt b 0
  numSectors := wordAt b 4
  dataSectors i := wordAt b (4 * (i + 2))

/-- The header as an array of words. -/
def words (h : FileHeader) : ℕ → BitVec 32
  | 0 => h.numBytes
  | 1 => h.numSectors
  | i + 2 => h.dataSectors i

/-- `FileHeader::FetchFrom`. -/
def fetchFrom (disk : Disk) (sector : ℤ) : Except Fault FileHeader :=
  match readSector disk sector (fun _ => 0) 0 with
  | .error e => .error e
  | .ok b => .ok (ofBytes b)

/-- `FileHeader::WriteBack`. -/
def writeBack (h : FileHeader) (disk : Disk) (sector : ℤ) : Except Fault Disk :=
  writeSector disk sector (bytesOf h.words)

/-- `FileHeader::ByteToSector`. -/
def byteToSector (h : FileHeader) (offset : ℕ) : Except Fault ℤ :=
  if offset / SectorSize < NumDirect then
    .ok (h.dataSectors (offset / SectorSize)).toInt
  else
    .error .wildAddress

/-- `FileHeader::FileLength`. -/
def fileLength (h : FileHeader) : ℤ := h.numBytes.toInt

/-- The data sectors that are listed in the header. -/
def sectors (h : FileHeader) : List ℕ :=
  (List.range h.numSectors.toNat).map fun i => (h.dataSectors i).toNat

end FileHeader

/-- The header in the sector. -/
def Disk.header (disk : Disk) (sector : ℕ) : FileHeader :=
  .ofBytes (splice (fun _ => 0) 0 SectorSize fun k => disk (sector * SectorSize + k))

theorem FileHeader.fetchFrom_eq {disk : Disk} {sector : ℕ} (h : sector < NumSectors) :
    fetchFrom disk sector = .ok (disk.header sector) := by
  unfold fetchFrom
  rw [readSector_eq h]
  rfl

theorem SameSector.header_eq {disk disk' : Disk} {sector : ℕ} (h : SameSector disk disk' sector) :
    disk'.header sector = disk.header sector := by
  unfold Disk.header
  rw [splice_congr h]

theorem FileHeader.sectors_congr {h h' : FileHeader} (hnum : h'.numSectors = h.numSectors)
    (hdata : ∀ i < h.numSectors.toNat, h'.dataSectors i = h.dataSectors i) :
    h'.sectors = h.sectors := by
  unfold sectors
  rw [hnum]
  refine List.map_congr_left fun i hi => ?_
  rw [hdata i (List.mem_range.1 hi)]

/-- A header is fetched as it has been written back. -/
theorem FileHeader.writeBack_spec (h : FileHeader) {sector : ℕ} (hs : sector < NumSectors)
    (hnum : h.numSectors.toNat ≤ NumDirect) (disk : Disk) :
    ∃ disk', h.writeBack disk sector = .ok disk' ∧
      (disk'.header sector).numBytes = h.numBytes ∧
        (disk'.header sector).numSectors = h.numSectors ∧
          (disk'.header sector).sectors = h.sectors ∧ ∀ s, s ≠ sector →
            SameSector disk disk' s := by
  obtain ⟨disk', hwrite, hdata, hsame⟩ := writeSector_spec hs disk (bytesOf h.words)
  have hword : ∀ i, 4 * i + 4 ≤ SectorSize →
      wordAt (splice (fun _ => 0) 0 SectorSize fun k => disk' (sector * SectorSize + k)) (4 * i) =
        h.words i := by
    intro i hi
    rw [← wordAt_bytesOf h.words i, splice_congr hdata]
    refine wordAt_congr fun j hj => ?_
    exact splice_front (by omega)
  have hnum' : (disk'.header sector).numSectors = h.numSectors := hword 1 (by decide)
  refine ⟨disk', hwrite, hword 0 (by decide), hnum', sectors_congr hnum' fun i hi => ?_, hsame⟩
  refine hword (i + 2) ?_
  simp only [NumDirect, SectorSize] at hnum ⊢
  omega

end Filesys

end Nachos
