import Nachos.Filesys.FileSystem

/-!
# Consistency of the file system

The free map, the directory and the headers are on the disk in different sectors, and every
operation writes them back one after the other. `usedSectors` lists the sectors that they use;
`Consistent` says that no sector stands there twice, and that the free map marks just these.
`Create` adds the sectors of one directory entry to the list, and `Remove` takes them out of it.
-/

namespace Nachos

open Lib

namespace Filesys

namespace Disk

/-- The free map on the disk. -/
def freeMap (disk : Disk) : BitMap :=
  .ofBytes NumSectors ((disk.header FreeMapSector).contents disk)

/-- The directory on the disk. -/
def directory (disk : Disk) : Directory :=
  ⟨NumDirEntries, (disk.header DirectorySector).contents disk⟩

/-- The sector of the header of the file in the directory entry `i`. -/
def headerSector (disk : Disk) (i : ℕ) : ℕ := (disk.directory.sector i).toNat

/-- The header of the file in the directory entry `i`. -/
def fileHeader (disk : Disk) (i : ℕ) : FileHeader := disk.header (disk.headerSector i)

/-- The sectors of the file in the directory entry `i`. -/
def entrySectors (disk : Disk) (i : ℕ) : List ℕ :=
  if disk.directory.inUse i then disk.headerSector i :: (disk.fileHeader i).sectors else []

/-- The sectors of the free map and of the directory. -/
def systemSectors (disk : Disk) : List ℕ :=
  FreeMapSector :: DirectorySector ::
    ((disk.header FreeMapSector).sectors ++ (disk.header DirectorySector).sectors)

/-- Every sector that is in use, with its owners one after the other. -/
def usedSectors (disk : Disk) : List ℕ :=
  disk.systemSectors ++ (List.range NumDirEntries).flatMap disk.entrySectors

end Disk

/-- The number of free sectors. -/
def Disk.numFree (disk : Disk) : ℕ := Nat.count (fun s => disk.freeMap.bit s = false) NumSectors

/-- A header that lists as many sectors as the bytes of its file need. -/
def FileHeader.Exact (h : FileHeader) : Prop :=
  0 ≤ h.numBytes.toInt ∧ h.numSectors.toNat = divRoundUp h.numBytes.toInt.toNat SectorSize ∧
    h.numSectors.toNat ≤ NumDirect

/-- The headers of the free map and of the directory are in place. -/
structure Laid (disk : Disk) : Prop where
  mapHeader : (disk.header FreeMapSector).fileLength = FreeMapFileSize ∧
    (disk.header FreeMapSector).Exact
  dirHeader : (disk.header DirectorySector).fileLength = DirectoryFileSize ∧
    (disk.header DirectorySector).Exact
  nodup : disk.systemSectors.Nodup
  lt : ∀ s ∈ disk.systemSectors, s < NumSectors

/-- Every sector that is marked in the free map has one owner, and every other sector has none; the
names of the files are different. -/
structure Consistent (disk : Disk) : Prop where
  mapHeader : (disk.header FreeMapSector).fileLength = FreeMapFileSize ∧
    (disk.header FreeMapSector).Exact
  dirHeader : (disk.header DirectorySector).fileLength = DirectoryFileSize ∧
    (disk.header DirectorySector).Exact
  exact : ∀ i < NumDirEntries, disk.directory.inUse i = true → (disk.fileHeader i).Exact
  nodup : disk.usedSectors.Nodup
  marked : ∀ s, s ∈ disk.usedSectors ↔ s < NumSectors ∧ disk.freeMap.bit s = true
  names : ∀ i < NumDirEntries, ∀ j < NumDirEntries, i ≠ j → disk.directory.inUse i = true →
    disk.directory.inUse j = true →
      strncmp (disk.directory.name i) (disk.directory.name j) FileNameMaxLen ≠ 0

/-! ## Owners -/

/-- A change of one part of a list that is put together from parts. -/
theorem flatMap_range_perm {α : Type*} {g g' : ℕ → List α} {n j : ℕ} (hj : j < n)
    (h : ∀ i < n, i ≠ j → g' i = g i) :
    ((List.range n).flatMap g' ++ g j).Perm ((List.range n).flatMap g ++ g' j) := by
  induction n with
  | zero => exact absurd hj (Nat.not_lt_zero j)
  | succ n ih =>
      rw [List.range_succ, List.flatMap_append, List.flatMap_append, List.flatMap_singleton,
        List.flatMap_singleton]
      by_cases hjn : j = n
      · subst hjn
        have hsame : (List.range j).flatMap g' = (List.range j).flatMap g :=
          List.flatMap_congr fun i hi => by
            have hlt := List.mem_range.1 hi
            exact h i (by omega) hlt.ne
        rw [hsame, List.append_assoc, List.append_assoc]
        exact List.perm_append_comm.append_left _
      · have hrest := ih (by omega) fun i hi hne => h i (by omega) hne
        rw [h n (Nat.lt_succ_self n) (Ne.symm hjn), List.append_assoc, List.append_assoc]
        refine (List.perm_append_comm.append_left _).trans ?_
        refine .trans ?_ (List.perm_append_comm.append_left _)
        rw [← List.append_assoc, ← List.append_assoc]
        exact hrest.append_right _

theorem FileHeader.Exact.wellFormed {h : FileHeader} (he : h.Exact)
    (honDisk : ∀ s ∈ h.sectors, s < NumSectors) (hnodup : h.sectors.Nodup) : h.WellFormed := by
  obtain ⟨hpos, hnum, hle⟩ := he
  refine ⟨hle, hpos, ?_, honDisk, hnodup⟩
  rw [hnum, divRoundUp, SectorSize]
  split <;> omega

theorem FileHeader.WellFormed.contents_congr {h : FileHeader} (hw : h.WellFormed)
    {disk disk' : Disk}
    (hsame : ∀ s ∈ h.sectors, SameSector disk disk' s) {k : ℕ} (hk : k < h.fileLength) :
    h.contents disk' k = h.contents disk k := by
  have hlen : h.fileLength ≤ h.numSectors.toNat * SectorSize := hw.numBytes_le
  have hlt : k / SectorSize < h.numSectors.toNat := by
    rw [SectorSize] at hlen ⊢
    omega
  exact hsame _ (mem_sectors.2 ⟨_, hlt, rfl⟩) _ (Nat.mod_lt k (by decide))

variable {disk disk' : Disk}

/-- The sectors of one directory entry have changed. -/
theorem usedSectors_perm {j : ℕ} (hj : j < NumDirEntries)
    (hsys : disk'.systemSectors = disk.systemSectors)
    (h : ∀ i < NumDirEntries, i ≠ j → disk'.entrySectors i = disk.entrySectors i) :
    (disk'.usedSectors ++ disk.entrySectors j).Perm (disk.usedSectors ++ disk'.entrySectors j) := by
  unfold Disk.usedSectors
  rw [hsys, List.append_assoc, List.append_assoc]
  exact (flatMap_range_perm hj h).append_left _

namespace Laid

theorem map_wellFormed (h : Laid disk) : (disk.header FreeMapSector).WellFormed := by
  refine h.mapHeader.2.wellFormed (fun s hs => h.lt s ?_) ?_
  · simp [Disk.systemSectors, hs]
  · have hnodup := h.nodup
    simp only [Disk.systemSectors, List.nodup_cons, List.nodup_append] at hnodup
    exact hnodup.2.2.1

theorem dir_wellFormed (h : Laid disk) : (disk.header DirectorySector).WellFormed := by
  refine h.dirHeader.2.wellFormed (fun s hs => h.lt s ?_) ?_
  · simp [Disk.systemSectors, hs]
  · have hnodup := h.nodup
    simp only [Disk.systemSectors, List.nodup_cons, List.nodup_append] at hnodup
    exact hnodup.2.2.2.1

/-- The headers of the free map and of the directory, and the sectors of the two files. -/
theorem apart (h : Laid disk) :
    (∀ s ∈ (disk.header FreeMapSector).sectors, s ≠ FreeMapSector ∧ s ≠ DirectorySector ∧
      s ∉ (disk.header DirectorySector).sectors) ∧
      ∀ s ∈ (disk.header DirectorySector).sectors, s ≠ FreeMapSector ∧ s ≠ DirectorySector := by
  have hnodup := h.nodup
  simp only [Disk.systemSectors, List.nodup_cons, List.mem_cons, List.mem_append,
    List.nodup_append, not_or] at hnodup
  obtain ⟨h0, h1, -, -, hd⟩ := hnodup
  refine ⟨fun s hs => ⟨?_, ?_, ?_⟩, fun s hs => ⟨?_, ?_⟩⟩
  · rintro rfl
    exact h0.2.1 hs
  · rintro rfl
    exact h1.1 hs
  · exact fun hs' => hd s hs s hs' rfl
  · rintro rfl
    exact h0.2.2 hs
  · rintro rfl
    exact h1.2 hs

end Laid

namespace Consistent

variable {i j s : ℕ}

theorem mem_system (hs : s ∈ disk.systemSectors) : s ∈ disk.usedSectors :=
  List.mem_append_left _ hs

theorem mem_entry (hi : i < NumDirEntries) (hs : s ∈ disk.entrySectors i) :
    s ∈ disk.usedSectors :=
  List.mem_append_right _ (List.mem_flatMap.2 ⟨i, List.mem_range.2 hi, hs⟩)

theorem lt_of_mem (h : Consistent disk) (hs : s ∈ disk.usedSectors) : s < NumSectors :=
  ((h.marked s).1 hs).1

theorem laid (h : Consistent disk) : Laid disk :=
  ⟨h.mapHeader, h.dirHeader, (List.nodup_append.1 h.nodup).1, fun _ hs =>
    h.lt_of_mem (mem_system hs)⟩

theorem not_mem_system_of_mem_entry (h : Consistent disk) (hi : i < NumDirEntries)
    (hs : s ∈ disk.entrySectors i) : s ∉ disk.systemSectors := by
  intro hsys
  exact (List.nodup_append.1 h.nodup).2.2 s hsys s
    (List.mem_flatMap.2 ⟨i, List.mem_range.2 hi, hs⟩) rfl

theorem entry_nodup (h : Consistent disk) (hi : i < NumDirEntries) :
    (disk.entrySectors i).Nodup :=
  (List.nodup_flatMap.1 (List.nodup_append.1 h.nodup).2.1).1 i (List.mem_range.2 hi)

theorem file_wellFormed (h : Consistent disk) (hi : i < NumDirEntries)
    (huse : disk.directory.inUse i = true) : (disk.fileHeader i).WellFormed := by
  have hentry : disk.entrySectors i = disk.headerSector i :: (disk.fileHeader i).sectors :=
    if_pos huse
  refine (h.exact i hi huse).wellFormed (fun s hs => h.lt_of_mem (mem_entry hi ?_)) ?_
  · rw [hentry]
    exact List.mem_cons_of_mem _ hs
  · have hnodup := h.entry_nodup hi
    rw [hentry, List.nodup_cons] at hnodup
    exact hnodup.2

end Consistent

/-! ## Operations -/

/-- The open files of a file system have the headers that are on its disk. -/
structure Opened (fs : FileSystem) : Prop where
  map : fs.freeMapFile.hdr = fs.disk.header FreeMapSector
  dir : fs.directoryFile.hdr = fs.disk.header DirectorySector
  laid : Laid fs.disk

structure Sound (fs : FileSystem) : Prop extends Opened fs where
  consistent : Consistent fs.disk

/-- The disk after a bit map and a directory have been written back. -/
structure Stored (fs : FileSystem) (disk disk' : Disk) (m : BitMap) (d : Directory) : Prop where
  map : disk'.header FreeMapSector = fs.disk.header FreeMapSector
  dir : disk'.header DirectorySector = fs.disk.header DirectorySector
  directory : ∀ i < NumDirEntries, d.SameEntry disk'.directory i
  freeMap : ∀ s < NumSectors, disk'.freeMap.bit s = m.bit s
  same : ∀ s, s ∉ fs.disk.systemSectors → SameSector disk disk' s

namespace Opened

variable {fs : FileSystem}

theorem map_wellFormed (h : Opened fs) : fs.freeMapFile.hdr.WellFormed :=
  h.map ▸ h.laid.map_wellFormed

theorem dir_wellFormed (h : Opened fs) : fs.directoryFile.hdr.WellFormed :=
  h.dir ▸ h.laid.dir_wellFormed

theorem map_length (h : Opened fs) {m : BitMap} (hm : m.numBits = NumSectors) :
    (m.numWords * 4 : ℕ) ≤ fs.freeMapFile.hdr.fileLength := by
  rw [h.map, h.laid.mapHeader.1, BitMap.numWords, hm]
  decide

theorem dir_length (h : Opened fs) {d : Directory} (hd : d.tableSize = NumDirEntries) :
    (d.tableSize * entrySize : ℕ) ≤ fs.directoryFile.hdr.fileLength := by
  rw [h.dir, h.laid.dirHeader.1, hd]
  decide

theorem fetch_directory (h : Opened fs) (raw : ℕ → Byte) :
    ∃ d, (Directory.new NumDirEntries raw).fetchFrom fs.directoryFile fs.disk = .ok d ∧
      d.tableSize = NumDirEntries ∧ ∀ i < NumDirEntries, fs.disk.directory.SameEntry d i := by
  obtain ⟨hsize, -⟩ := Directory.new_spec NumDirEntries raw
  obtain ⟨d, hd, hsize', hsame⟩ := Directory.fetchFrom_spec (.new NumDirEntries raw)
    h.dir_wellFormed fs.disk (h.dir_length hsize)
  rw [h.dir] at hsame
  exact ⟨d, hd, hsize'.trans hsize, fun i hi => hsame i (hsize ▸ hi)⟩

theorem fetch_map (h : Opened fs) (raw : ℕ → Byte) :
    ∃ m₀ m, newMap raw = .ok m₀ ∧ m₀.fetchFrom fs.freeMapFile fs.disk = .ok m ∧
      m.numBits = NumSectors ∧ ∀ s < NumSectors, m.bit s = fs.disk.freeMap.bit s := by
  obtain ⟨m₀, hm₀, hbits, -⟩ := BitMap.new_spec NumSectors fun i => wordAt raw (4 * i)
  obtain ⟨m, hm, hbits', hbit⟩ := m₀.fetchFrom_spec h.map_wellFormed fs.disk (h.map_length hbits)
  rw [hbits, h.map] at hbit
  exact ⟨m₀, m, hm₀, hm, hbits'.trans hbits, hbit⟩

variable {disk disk' : Disk} {m : BitMap} {d : Directory}

theorem stored (h : Opened fs) (h0 : SameSector fs.disk disk FreeMapSector)
    (h1 : SameSector fs.disk disk DirectorySector)
    (hsame : ∀ s, s ∉ (fs.disk.header FreeMapSector).sectors →
      s ∉ (fs.disk.header DirectorySector).sectors → SameSector disk disk' s)
    (hdir : ∀ i < NumDirEntries,
      d.SameEntry ⟨NumDirEntries, (fs.disk.header DirectorySector).contents disk'⟩ i)
    (hmap : ∀ s < NumSectors,
      (BitMap.ofBytes NumSectors ((fs.disk.header FreeMapSector).contents disk')).bit s = m.bit s) :
    Stored fs disk disk' m d := by
  obtain ⟨hm, hd⟩ := h.laid.apart
  have hmapHeader : disk'.header FreeMapSector = fs.disk.header FreeMapSector :=
    (h0.trans (hsame _ (fun hs => (hm _ hs).1 rfl) fun hs => (hd _ hs).1 rfl)).header_eq
  have hdirHeader : disk'.header DirectorySector = fs.disk.header DirectorySector :=
    (h1.trans (hsame _ (fun hs => (hm _ hs).2.1 rfl) fun hs => (hd _ hs).2 rfl)).header_eq
  refine ⟨hmapHeader, hdirHeader, ?_, ?_, ?_⟩
  · intro i hi
    unfold Disk.directory
    rw [hdirHeader]
    exact hdir i hi
  · intro s hs
    unfold Disk.freeMap
    rw [hmapHeader]
    exact hmap s hs
  · intro s hs
    simp only [Disk.systemSectors, List.mem_cons, List.mem_append, not_or] at hs
    exact hsame s hs.2.2.1 hs.2.2.2

/-- `Create` writes the directory back first. -/
theorem writeBack_dir_map (h : Opened fs) (hm : m.numBits = NumSectors)
    (hd : d.tableSize = NumDirEntries) (h0 : SameSector fs.disk disk FreeMapSector)
    (h1 : SameSector fs.disk disk DirectorySector) (raw raw' : ℕ → Byte) :
    ∃ disk₁ disk₂, d.writeBack fs.directoryFile disk raw = .ok disk₁ ∧
      m.writeBack fs.freeMapFile disk₁ raw' = .ok disk₂ ∧ Stored fs disk disk₂ m d := by
  obtain ⟨disk₁, hwrite₁, hentry, hsame₁⟩ :=
    d.writeBack_spec h.dir_wellFormed disk raw (h.dir_length hd)
  obtain ⟨disk₂, hwrite₂, hbit, hsame₂⟩ :=
    m.writeBack_spec h.map_wellFormed disk₁ raw' (h.map_length hm)
  rw [h.dir] at hentry hsame₁
  rw [h.map, hm] at hbit
  rw [h.map] at hsame₂
  refine ⟨disk₁, disk₂, hwrite₁, hwrite₂, h.stored h0 h1 ?_ ?_ hbit⟩
  · exact fun s hs hs' => (hsame₁ s hs').trans (hsame₂ s hs)
  · intro i hi k hk
    -- the directory is not in the sectors of the free map
    have hlen := h.dir_length hd
    rw [h.dir, hd] at hlen
    have hlt : i * entrySize + k < NumDirEntries * entrySize := by
      rw [entrySize] at hk ⊢
      omega
    refine Eq.trans ?_ (hentry i (hd ▸ hi) k hk)
    refine h.laid.dir_wellFormed.contents_congr (fun s hs => hsame₂ s fun hs' => ?_) (by omega)
    exact (h.laid.apart.1 s hs').2.2 hs

/-- `Remove` writes the free map back first. -/
theorem writeBack_map_dir (h : Opened fs) (hm : m.numBits = NumSectors)
    (hd : d.tableSize = NumDirEntries) (raw raw' : ℕ → Byte) :
    ∃ disk₁ disk₂, m.writeBack fs.freeMapFile fs.disk raw = .ok disk₁ ∧
      d.writeBack fs.directoryFile disk₁ raw' = .ok disk₂ ∧ Stored fs fs.disk disk₂ m d := by
  obtain ⟨disk₁, hwrite₁, hbit, hsame₁⟩ :=
    m.writeBack_spec h.map_wellFormed fs.disk raw (h.map_length hm)
  obtain ⟨disk₂, hwrite₂, hentry, hsame₂⟩ :=
    d.writeBack_spec h.dir_wellFormed disk₁ raw' (h.dir_length hd)
  rw [h.dir] at hentry hsame₂
  rw [h.map, hm] at hbit
  rw [h.map] at hsame₁
  refine ⟨disk₁, disk₂, hwrite₁, hwrite₂,
    h.stored (fun k _ => rfl) (fun k _ => rfl) ?_ (fun i hi => hentry i (hd ▸ hi)) ?_⟩
  · exact fun s hs hs' => (hsame₁ s hs).trans (hsame₂ s hs')
  · intro s hs
    -- the free map is not in the sectors of the directory
    have hlen := h.map_length hm
    rw [h.map] at hlen
    refine Eq.trans (BitMap.bit_ofBytes_congr (b := m) (fun k hk => ?_) (hm ▸ hs)) (hbit s hs)
    refine h.laid.map_wellFormed.contents_congr (fun s hs => hsame₂ s ?_) (by omega)
    exact (h.laid.apart.1 s hs).2.2

end Opened

namespace Stored

variable {fs : FileSystem} {disk disk' : Disk} {m : BitMap} {d : Directory} {i j f : ℕ}
  {name : ℕ → Byte}

/-- A directory entry that has been written back as it was. -/
theorem entry (hst : Stored fs disk disk' m d) (h : Sound fs) (hi : i < NumDirEntries)
    (hsame : fs.disk.directory.SameEntry d i)
    (hkeep : fs.disk.directory.inUse i = true → SameSector fs.disk disk (fs.disk.headerSector i)) :
    fs.disk.directory.SameEntry disk'.directory i ∧
      (fs.disk.directory.inUse i = true → disk'.fileHeader i = fs.disk.fileHeader i) ∧
        disk'.entrySectors i = fs.disk.entrySectors i := by
  have hentry : fs.disk.directory.SameEntry disk'.directory i := hsame.trans (hst.directory i hi)
  have hsector : disk'.headerSector i = fs.disk.headerSector i := by
    unfold Disk.headerSector
    rw [hentry.sector]
  have hheader : fs.disk.directory.inUse i = true → disk'.fileHeader i = fs.disk.fileHeader i := by
    intro huse
    have hmem : fs.disk.headerSector i ∈ fs.disk.entrySectors i := by
      simp [Disk.entrySectors, huse]
    unfold Disk.fileHeader
    rw [hsector]
    refine ((hkeep huse).trans (hst.same _ ?_)).header_eq
    exact h.consistent.not_mem_system_of_mem_entry hi hmem
  refine ⟨hentry, hheader, ?_⟩
  unfold Disk.entrySectors
  rw [hentry.inUse]
  split
  · rw [hsector, hheader ‹_›]
  · rfl

theorem systemSectors_eq (hst : Stored fs disk disk' m d) :
    disk'.systemSectors = fs.disk.systemSectors := by
  unfold Disk.systemSectors
  rw [hst.map, hst.dir]

/-- One directory entry has changed. -/
theorem sound (hst : Stored fs disk disk' m d) (h : Sound fs)
    (hsame : ∀ i < NumDirEntries, i ≠ j → fs.disk.directory.SameEntry d i)
    (hkeep : ∀ i < NumDirEntries, i ≠ j → fs.disk.directory.inUse i = true →
      SameSector fs.disk disk (fs.disk.headerSector i))
    (hexact : disk'.directory.inUse j = true → (disk'.fileHeader j).Exact)
    (hnodup : disk'.usedSectors.Nodup)
    (hmarked : ∀ s, s ∈ disk'.usedSectors ↔ s < NumSectors ∧ m.bit s = true)
    (hname : disk'.directory.inUse j = true → ∀ i < NumDirEntries, i ≠ j →
      fs.disk.directory.inUse i = true →
        strncmp (fs.disk.directory.name i) (disk'.directory.name j) FileNameMaxLen ≠ 0) :
    Sound { fs with disk := disk' } := by
  have hentry : ∀ i < NumDirEntries, i ≠ j → fs.disk.directory.SameEntry disk'.directory i ∧
      (fs.disk.directory.inUse i = true → disk'.fileHeader i = fs.disk.fileHeader i) :=
    fun i hi hij =>
      ⟨(hst.entry h hi (hsame i hi hij) (hkeep i hi hij)).1,
        (hst.entry h hi (hsame i hi hij) (hkeep i hi hij)).2.1⟩
  -- the name of an entry that is as it was, against that of the entry `j`
  have hother : ∀ i < NumDirEntries, i ≠ j → disk'.directory.inUse i = true →
      disk'.directory.inUse j = true →
        strncmp (disk'.directory.name i) (disk'.directory.name j) FileNameMaxLen ≠ 0 := by
    intro i hi hij hui huj hcmp
    have he := (hentry i hi hij).1
    exact hname huj i hi hij (he.inUse ▸ hui) ((he.strncmp_iff _).1 hcmp)
  have hconsistent : Consistent disk' := by
    refine ⟨hst.map ▸ h.laid.mapHeader, hst.dir ▸ h.laid.dirHeader, ?_, hnodup, ?_, ?_⟩
    · intro i hi huse
      by_cases hij : i = j
      · subst hij
        exact hexact huse
      · obtain ⟨he, hheader⟩ := hentry i hi hij
        have huse' : fs.disk.directory.inUse i = true := he.inUse ▸ huse
        rw [hheader huse']
        exact h.consistent.exact i hi huse'
    · intro s
      rw [hmarked]
      exact and_congr_right fun hs => by rw [hst.freeMap s hs]
    · intro i hi i' hi' hne hui hui'
      by_cases hij : i = j
      · subst hij
        rw [ne_eq, strncmp_eq_zero_comm]
        exact hother i' hi' hne.symm hui' hui
      · by_cases hij' : i' = j
        · subst hij'
          exact hother i hi hne hui hui'
        · have he := (hentry i hi hij).1
          have he' := (hentry i' hi' hij').1
          rw [ne_eq, he.strncmp_iff, strncmp_eq_zero_comm, he'.strncmp_iff, strncmp_eq_zero_comm]
          exact h.consistent.names i hi i' hi' hne (he.inUse ▸ hui) (he'.inUse ▸ hui')
  exact ⟨⟨h.map.trans hst.map.symm, h.dir.trans hst.dir.symm, hconsistent.laid⟩, hconsistent⟩

/-- A new file, with its header in a sector `f` that was free and data in sectors that were free. -/
theorem created (hst : Stored fs disk disk' m (d.setEntry j name f)) (h : Sound fs)
    (hj : j < NumDirEntries) (hunused : fs.disk.directory.inUse j = false)
    (hd : ∀ i < NumDirEntries, fs.disk.directory.SameEntry d i)
    (hname : ∀ i < NumDirEntries, fs.disk.directory.inUse i = true →
      strncmp (fs.disk.directory.name i) name FileNameMaxLen ≠ 0)
    (hexact : (disk.header f).Exact) (hsame : ∀ s, s ≠ f → SameSector fs.disk disk s)
    (hnodup : (f :: (disk.header f).sectors).Nodup)
    (hfree : ∀ s ∈ f :: (disk.header f).sectors, s < NumSectors ∧ fs.disk.freeMap.bit s = false)
    (hbit : ∀ s < NumSectors, m.bit s =
      (decide (s ∈ f :: (disk.header f).sectors) || fs.disk.freeMap.bit s)) :
    Sound { fs with disk := disk' } := by
  have hnew : ∀ s ∈ f :: (disk.header f).sectors, s ∉ fs.disk.usedSectors := by
    intro s hs hused
    have := ((h.consistent.marked s).1 hused).2
    rw [(hfree s hs).2] at this
    cases this
  have hf : f ∉ fs.disk.usedSectors := hnew f List.mem_cons_self
  have hkeep : ∀ i < NumDirEntries, fs.disk.directory.inUse i = true →
      SameSector fs.disk disk (fs.disk.headerSector i) := by
    intro i hi huse
    refine hsame _ fun heq => hf ?_
    rw [← heq]
    exact Consistent.mem_entry hi (by simp [Disk.entrySectors, huse])
  have hentry := hst.directory j hj
  have hsector : disk'.headerSector j = f := by
    have hlt := (hfree f List.mem_cons_self).1
    rw [NumSectors] at hlt
    unfold Disk.headerSector
    rw [hentry.sector, Directory.sector_setEntry, BitVec.ofInt_natCast, BitVec.toNat_ofNat]
    omega
  have hheader : disk'.fileHeader j = disk.header f := by
    unfold Disk.fileHeader
    rw [hsector]
    exact (hst.same f fun hs => hf (Consistent.mem_system hs)).header_eq
  have huse : disk'.directory.inUse j = true := by
    rw [hentry.inUse, Directory.inUse_setEntry]
  have hsectors : disk'.entrySectors j = f :: (disk.header f).sectors := by
    unfold Disk.entrySectors
    rw [if_pos huse, hsector, hheader]
  have hothers : ∀ i < NumDirEntries, i ≠ j →
      fs.disk.directory.SameEntry (d.setEntry j name f) i := fun i hi hij =>
    (hd i hi).trans (Directory.sameEntry_setEntry hij name f)
  have hperm : disk'.usedSectors.Perm (fs.disk.usedSectors ++ f :: (disk.header f).sectors) := by
    have hp := usedSectors_perm hj hst.systemSectors_eq fun i hi hij =>
      (hst.entry h hi (hothers i hi hij) (hkeep i hi)).2.2
    rwa [hsectors, Disk.entrySectors, hunused, if_neg (by simp), List.append_nil] at hp
  refine hst.sound h hothers (fun i hi _ => hkeep i hi) ?_ ?_ ?_ ?_
  · rw [hheader]
    exact fun _ => hexact
  · rw [hperm.nodup_iff, List.nodup_append]
    refine ⟨h.consistent.nodup, hnodup, ?_⟩
    rintro s hs t ht rfl
    exact hnew s ht hs
  · intro s
    rw [hperm.mem_iff, List.mem_append, h.consistent.marked]
    constructor
    · rintro (⟨hlt, hmark⟩ | hmem)
      · exact ⟨hlt, by rw [hbit s hlt, hmark, Bool.or_true]⟩
      · have hlt := (hfree s hmem).1
        exact ⟨hlt, by rw [hbit s hlt, decide_eq_true hmem, Bool.true_or]⟩
    · rintro ⟨hlt, hmark⟩
      rw [hbit s hlt, Bool.or_eq_true, decide_eq_true_eq] at hmark
      exact hmark.symm.imp_left fun hmark => ⟨hlt, hmark⟩
  · intro _ i hi _ hui hcmp
    refine hname i hi hui ?_
    rw [strncmp_eq_zero_iff] at hcmp ⊢
    intro k hk
    rw [hcmp k hk, hentry.padded hk, Directory.padded_setEntry _ _ _ _ hk]

/-- The file in the entry `j` is no longer in the directory, and its sectors are free. -/
theorem removed (hst : Stored fs fs.disk disk' m (d.setInUse j false)) (h : Sound fs)
    (hj : j < NumDirEntries) (hd : ∀ i < NumDirEntries, fs.disk.directory.SameEntry d i)
    (hbit : ∀ s < NumSectors, m.bit s =
      (!decide (s ∈ fs.disk.entrySectors j) && fs.disk.freeMap.bit s)) :
    Sound { fs with disk := disk' } := by
  have hunused : disk'.directory.inUse j = false := by
    rw [(hst.directory j hj).inUse, Directory.inUse_setInUse]
  have hothers : ∀ i < NumDirEntries, i ≠ j →
      fs.disk.directory.SameEntry (d.setInUse j false) i := fun i hi hij =>
    (hd i hi).trans (Directory.sameEntry_setInUse hij false)
  have hperm : (disk'.usedSectors ++ fs.disk.entrySectors j).Perm fs.disk.usedSectors := by
    have hp := usedSectors_perm hj hst.systemSectors_eq fun i hi hij =>
      (hst.entry h hi (hothers i hi hij) fun _ k _ => rfl).2.2
    have hnone : disk'.entrySectors j = [] := by simp [Disk.entrySectors, hunused]
    rwa [hnone, List.append_nil] at hp
  have hnodup := hperm.nodup_iff.2 h.consistent.nodup
  rw [List.nodup_append] at hnodup
  refine hst.sound h hothers (fun i hi _ _ k _ => rfl) ?_ hnodup.1 ?_ ?_
  · rw [hunused]
    exact fun hc => absurd hc (by simp)
  · intro s
    have hused := h.consistent.marked s
    rw [← hperm.mem_iff, List.mem_append] at hused
    constructor
    · intro hs
      obtain ⟨hlt, hmark⟩ := hused.1 (.inl hs)
      have hnot : s ∉ fs.disk.entrySectors j := fun hs' => hnodup.2.2 s hs s hs' rfl
      exact ⟨hlt, by simp [hbit s hlt, hnot, hmark]⟩
    · rintro ⟨hlt, hmark⟩
      simp only [hbit s hlt, Bool.and_eq_true, Bool.not_eq_true', decide_eq_false_iff_not] at hmark
      exact (hused.2 ⟨hlt, hmark.2⟩).resolve_right hmark.1
  · rw [hunused]
    exact fun hc => absurd hc (by simp)

end Stored

/-- What `Create` has found when it comes to `Allocate`: the directory `d`, without the name and
with room in the entry `j`, and the free map `m`, in which the sector `f` of the header is
marked. -/
structure Prepared (fs : FileSystem) (name : ℕ → Byte) (d : Directory) (m : BitMap) (f j : ℕ) :
    Prop where
  tableSize : d.tableSize = NumDirEntries
  directory : ∀ i < NumDirEntries, fs.disk.directory.SameEntry d i
  fresh : ∀ i < NumDirEntries, fs.disk.directory.inUse i = true →
    strncmp (fs.disk.directory.name i) name FileNameMaxLen ≠ 0
  entry_lt : j < NumDirEntries
  unused : fs.disk.directory.inUse j = false
  sector_lt : f < NumSectors
  free : fs.disk.freeMap.bit f = false
  numBits : m.numBits = NumSectors
  bit : ∀ s < NumSectors, m.bit s = (decide (s = f) || fs.disk.freeMap.bit s)
  numFree : fs.disk.numFree = Nat.count (fun s => m.bit s = false) m.numBits + 1

namespace Sound

variable {fs : FileSystem} {d : Directory}

/-- `Find` in a directory that has been fetched. -/
theorem find_spec (h : Sound fs) (hsize : d.tableSize = NumDirEntries)
    (hd : ∀ i < NumDirEntries, fs.disk.directory.SameEntry d i) (name : ℕ → Byte) :
    (d.find name = -1 ∧ d.findIndex name = -1 ∧
      ∀ i < NumDirEntries, fs.disk.directory.inUse i = true →
        strncmp (fs.disk.directory.name i) name FileNameMaxLen ≠ 0) ∨
      ∃ j < NumDirEntries, fs.disk.directory.inUse j = true ∧
        strncmp (fs.disk.directory.name j) name FileNameMaxLen = 0 ∧ d.findIndex name = (j : ℕ) ∧
          d.find name = (fs.disk.headerSector j : ℕ) ∧ fs.disk.headerSector j < NumSectors := by
  rcases d.findIndex_spec name with ⟨hidx, hall⟩ | ⟨j, hj, hidx, huse, hcmp⟩
  · refine .inl ⟨by simp [Directory.find, hidx], hidx, fun i hi hui => ?_⟩
    have he := hd i hi
    rw [ne_eq, ← he.strncmp_iff]
    exact hall i (hsize ▸ hi) (he.inUse ▸ hui)
  · rw [hsize] at hj
    have he := hd j hj
    have huse' : fs.disk.directory.inUse j = true := he.inUse ▸ huse
    have hlt : fs.disk.headerSector j < NumSectors :=
      h.consistent.lt_of_mem (Consistent.mem_entry hj (by simp [Disk.entrySectors, huse']))
    refine .inr ⟨j, hj, huse', (he.strncmp_iff name).1 hcmp, hidx, ?_, hlt⟩
    have hint : (d.sector j).toInt = (fs.disk.headerSector j : ℕ) := by
      rw [Disk.headerSector, he.sector] at *
      rw [NumSectors] at hlt
      exact FileHeader.toInt_of_lt (by omega)
    simp only [Directory.find, hidx, Int.toNat_natCast]
    rw [if_pos (by omega), hint]

/-- `Create` of a file of any size: a check before `Allocate` fails, or the rest depends on what
`Allocate` and the calls of `WriteBack` return. -/
theorem create_cases (h : Sound fs) (name : ℕ → Byte) (initialSize : ℤ) (raw : ℕ → ℕ → Byte) :
    (((∃ i < NumDirEntries, fs.disk.directory.inUse i = true ∧
        strncmp (fs.disk.directory.name i) name FileNameMaxLen = 0) ∨
      (∀ i < NumDirEntries, fs.disk.directory.inUse i = true) ∨ fs.disk.numFree = 0) ∧
        fs.create name initialSize raw = .ok (false, fs)) ∨
      ∃ d m f j, Prepared fs name d m f j ∧
        (∀ e, (FileHeader.ofBytes (raw 2)).allocate m initialSize = .error e →
          fs.create name initialSize raw = .error e) ∧
        (∀ hdr m', (FileHeader.ofBytes (raw 2)).allocate m initialSize = .ok (false, hdr, m') →
          fs.create name initialSize raw = .ok (false, fs)) ∧
        ∀ hdr m' disk₁ disk₂ disk₃,
          (FileHeader.ofBytes (raw 2)).allocate m initialSize = .ok (true, hdr, m') →
          hdr.writeBack fs.disk f = .ok disk₁ →
          (d.setEntry j name f).writeBack fs.directoryFile disk₁ (raw 3) = .ok disk₂ →
          m'.writeBack fs.freeMapFile disk₂ (raw 4) = .ok disk₃ →
          fs.create name initialSize raw = .ok (true, { fs with disk := disk₃ }) := by
  obtain ⟨d, hfetch, hdsize, hd⟩ := h.fetch_directory (raw 0)
  unfold FileSystem.create
  rw [hfetch, ok_bind]
  rcases h.find_spec hdsize hd name with ⟨hfind, hidx, hname⟩ | ⟨j, hj, huse, hcmp, -, hfind, -⟩
  swap
  · rw [if_pos (by omega)]
    exact .inl ⟨.inl ⟨j, hj, huse, hcmp⟩, rfl⟩
  rw [if_neg (not_not.2 hfind)]
  obtain ⟨m₀, m, hnew, hmap, hbits, hbit⟩ := h.fetch_map (raw 1)
  have hfree : Nat.count (fun s => m.bit s = false) m.numBits = fs.disk.numFree := by
    rw [hbits, Disk.numFree]
    exact count_congr fun s hs => by rw [hbit s hs]
  rw [hnew, ok_bind, hmap, ok_bind]
  rcases m.find_spec with ⟨hfull, hall⟩ | ⟨f, m₁, hfound, hlt, hclear, -, hbits₁, hbit₁⟩
  · rw [hfull, ok_bind]
    refine .inl ⟨.inr (.inr ?_), rfl⟩
    rw [← hfree]
    by_contra hne
    obtain ⟨j, hj, hbit⟩ := Nat.count_ne_iff_exists.1 hne
    rw [hall j hj] at hbit
    cases hbit
  rw [hfound, ok_bind]
  simp only
  rw [if_neg (by omega)]
  rcases d.add_spec name f with hadd | ⟨j, hj, hunused, hadd⟩
  · rw [hadd]
    refine .inl ⟨.inr (.inl fun i hi => ?_), rfl⟩
    rw [← (hd i hi).inUse]
    exact Directory.inUse_of_add hidx (by rw [hadd]) i (hdsize ▸ hi)
  rw [hadd]
  simp only
  rw [if_neg (by simp)]
  have hcount := BitMap.count_mark hlt hclear hbits₁ hbit₁
  rw [hfree] at hcount
  rw [hdsize] at hj
  rw [hbits] at hlt
  refine .inr ⟨d, m₁, f, j, ?_, ?_, ?_, ?_⟩
  · exact
      { tableSize := hdsize
        directory := hd
        fresh := hname
        entry_lt := hj
        unused := (hd j hj).inUse ▸ hunused
        sector_lt := hlt
        free := (hbit f hlt).symm.trans hclear
        numBits := hbits₁.trans hbits
        bit := fun s hs => by rw [hbit₁, hbit s hs]
        numFree := hcount }
  · intro e halloc
    rw [halloc]
    rfl
  · intro hdr m' halloc
    rw [halloc, ok_bind]
    rfl
  · intro hdr m' disk₁ disk₂ disk₃ halloc hwrite₁ hwrite₂ hwrite₃
    rw [halloc, ok_bind]
    simp only
    rw [if_neg (by simp), hwrite₁, ok_bind, hwrite₂, ok_bind, hwrite₃, ok_bind]
    rfl

end Sound

namespace Prepared

variable {fs : FileSystem} {name : ℕ → Byte} {d : Directory} {m : BitMap} {f j : ℕ}

/-- The sector of the header belongs to nothing. -/
theorem ne_of_marked (hp : Prepared fs name d m f j) {s : ℕ} (hs : fs.disk.freeMap.bit s = true) :
    s ≠ f := by
  rintro rfl
  rw [hp.free] at hs
  cases hs

/-- What `Create` writes when everything has been found. -/
theorem writeBack (hp : Prepared fs name d m f j) (h : Sound fs) {hdr : FileHeader} {m' : BitMap}
    {initialSize : ℕ} (hsize : initialSize ≤ MaxFileSize)
    (hbytes : hdr.numBytes = BitVec.ofNat 32 initialSize)
    (hnum : hdr.numSectors.toNat = divRoundUp initialSize SectorSize) (hnodup : hdr.sectors.Nodup)
    (hwere : ∀ s ∈ hdr.sectors, s < m.numBits ∧ m.bit s = false) (hm : m'.numBits = m.numBits)
    (hbit : ∀ s, m'.bit s = (decide (s ∈ hdr.sectors) || m.bit s)) (raw raw' : ℕ → Byte) :
    ∃ disk₁ disk₂ disk₃, hdr.writeBack fs.disk f = .ok disk₁ ∧
      (d.setEntry j name f).writeBack fs.directoryFile disk₁ raw = .ok disk₂ ∧
      m'.writeBack fs.freeMapFile disk₂ raw' = .ok disk₃ ∧
      Stored fs disk₁ disk₃ m' (d.setEntry j name f) ∧ Sound { fs with disk := disk₃ } ∧
      (disk₁.header f).numBytes.toInt = initialSize ∧
        ∀ s, s ≠ f → SameSector fs.disk disk₁ s := by
  have hused : ∀ s ∈ fs.disk.systemSectors, s ≠ f := fun s hs =>
    hp.ne_of_marked ((h.consistent.marked s).1 (Consistent.mem_system hs)).2
  have hle : hdr.numSectors.toNat ≤ NumDirect := by
    rw [hnum]
    exact FileHeader.divRoundUp_le hsize
  obtain ⟨disk₁, hwrite, hbytes₁, hnum₁, hsectors₁, hsame₁⟩ :=
    hdr.writeBack_spec hp.sector_lt hle fs.disk
  have hint : (disk₁.header f).numBytes.toInt = initialSize := by
    have hmax : initialSize ≤ 3840 := hsize
    rw [hbytes₁, hbytes, FileHeader.toInt_of_lt]
    · rw [BitVec.toNat_ofNat, Nat.mod_eq_of_lt (by omega)]
    · rw [BitVec.toNat_ofNat, Nat.mod_eq_of_lt (by omega)]
      omega
  have hexact : (disk₁.header f).Exact := by
    refine ⟨?_, ?_, ?_⟩
    · omega
    · rw [hnum₁, hint, hnum, Int.toNat_natCast]
    · rw [hnum₁]
      exact hle
  obtain ⟨disk₂, disk₃, hwrite₂, hwrite₃, hst⟩ :=
    h.toOpened.writeBack_dir_map (m := m') (d := d.setEntry j name f) (hm.trans hp.numBits)
      hp.tableSize (hsame₁ _ (hused _ (by simp [Disk.systemSectors])))
      (hsame₁ _ (hused _ (by simp [Disk.systemSectors]))) raw raw'
  rw [hp.numBits] at hwere
  have hfresh : ∀ s ∈ hdr.sectors, s ≠ f ∧ fs.disk.freeMap.bit s = false := by
    intro s hs
    obtain ⟨hslt, hsbit⟩ := hwere s hs
    rw [hp.bit s hslt, Bool.or_eq_false_iff, decide_eq_false_iff_not] at hsbit
    exact hsbit
  have hfree : ∀ s ∈ f :: hdr.sectors, s < NumSectors ∧ fs.disk.freeMap.bit s = false := by
    intro s hs
    rcases List.mem_cons.1 hs with rfl | hs
    · exact ⟨hp.sector_lt, hp.free⟩
    · exact ⟨(hwere s hs).1, (hfresh s hs).2⟩
  have hbit' : ∀ s < NumSectors, m'.bit s =
      (decide (s ∈ f :: hdr.sectors) || fs.disk.freeMap.bit s) := by
    intro s hs
    simp only [hbit, hp.bit s hs, List.mem_cons, Bool.decide_or]
    rw [← Bool.or_assoc, Bool.or_comm (decide (s ∈ _))]
  have hcons : (f :: hdr.sectors).Nodup :=
    List.nodup_cons.2 ⟨fun hs => (hfresh f hs).1 rfl, hnodup⟩
  rw [← hsectors₁] at hcons hfree hbit'
  exact ⟨disk₁, disk₂, disk₃, hwrite, hwrite₂, hwrite₃, hst,
    hst.created h hp.entry_lt hp.unused hp.directory hp.fresh hexact hsame₁ hcons hfree hbit', hint,
    hsame₁⟩

end Prepared

namespace Sound

variable {fs : FileSystem}

/-- `Create` of a file that a header has room for. -/
theorem create_sized (h : Sound fs) (name : ℕ → Byte) {initialSize : ℕ}
    (hsize : initialSize ≤ MaxFileSize) (raw : ℕ → ℕ → Byte) :
    (((∃ i < NumDirEntries, fs.disk.directory.inUse i = true ∧
        strncmp (fs.disk.directory.name i) name FileNameMaxLen = 0) ∨
      (∀ i < NumDirEntries, fs.disk.directory.inUse i = true) ∨
        fs.disk.numFree < 1 + divRoundUp initialSize SectorSize) ∧
          fs.create name initialSize raw = .ok (false, fs)) ∨
      ∃ d m f j m' disk₁ disk₃, Prepared fs name d m f j ∧
        1 + divRoundUp initialSize SectorSize ≤ fs.disk.numFree ∧
        fs.create name initialSize raw = .ok (true, { fs with disk := disk₃ }) ∧
        Stored fs disk₁ disk₃ m' (d.setEntry j name f) ∧ Sound { fs with disk := disk₃ } ∧
        (disk₁.header f).numBytes.toInt = initialSize ∧
          ∀ s, s ≠ f → SameSector fs.disk disk₁ s := by
  rcases h.create_cases name initialSize raw with
    ⟨hwhy, hok⟩ | ⟨d, m, f, j, hp, -, hfails, hwrites⟩
  · exact .inl ⟨hwhy.imp_right (Or.imp_right fun hzero => by omega), hok⟩
  have hcount := hp.numFree
  rcases FileHeader.allocate_spec (.ofBytes (raw 2)) hsize hp.numBits.le with
    ⟨hfew, hdr, halloc⟩ |
      ⟨hdr, m', halloc, hbytes, hnum, hnodup, hwere, hbits, hbit, henough⟩
  · exact .inl ⟨.inr (.inr (by omega)), hfails hdr m halloc⟩
  · obtain ⟨disk₁, disk₂, disk₃, hwrite₁, hwrite₂, hwrite₃, hst, hsound, hint, hsame⟩ :=
      hp.writeBack h hsize hbytes hnum hnodup hwere hbits hbit (raw 3) (raw 4)
    exact .inr ⟨d, m, f, j, m', disk₁, disk₃, hp, by omega,
      hwrites hdr m' disk₁ disk₂ disk₃ halloc hwrite₁ hwrite₂ hwrite₃, hst, hsound, hint, hsame⟩

theorem create (h : Sound fs) (name : ℕ → Byte) {initialSize : ℕ}
    (hsize : initialSize ≤ MaxFileSize) (raw : ℕ → ℕ → Byte) :
    ∃ success fs', fs.create name initialSize raw = .ok (success, fs') ∧ Sound fs' ∧
      (success = false → fs' = fs) := by
  rcases h.create_sized name hsize raw with
    ⟨-, hok⟩ | ⟨-, -, -, -, -, -, disk', -, -, hok, -, hsound, -⟩
  · exact ⟨false, fs, hok, h, fun _ => rfl⟩
  · exact ⟨true, _, hok, hsound, by simp⟩

/-- `Remove` of a name: it is not in the directory, or its entry becomes free. -/
theorem remove_cases (h : Sound fs) (name : ℕ → Byte) (raw : ℕ → ℕ → Byte) :
    ((∀ i < NumDirEntries, fs.disk.directory.inUse i = true →
        strncmp (fs.disk.directory.name i) name FileNameMaxLen ≠ 0) ∧
      fs.remove name raw = .ok (false, fs)) ∨
      ∃ d m j disk', j < NumDirEntries ∧ fs.disk.directory.inUse j = true ∧
        strncmp (fs.disk.directory.name j) name FileNameMaxLen = 0 ∧
        (∀ i < NumDirEntries, fs.disk.directory.SameEntry d i) ∧
        fs.remove name raw = .ok (true, { fs with disk := disk' }) ∧
        Stored fs fs.disk disk' m (d.setInUse j false) ∧ Sound { fs with disk := disk' } := by
  obtain ⟨d, hfetch, hdsize, hd⟩ := h.fetch_directory (raw 0)
  unfold FileSystem.remove
  rw [hfetch, ok_bind]
  rcases h.find_spec hdsize hd name with ⟨hfind, -, hname⟩ | ⟨j, hj, huse, hcmp, hidx, hfind, hlt⟩
  · rw [hfind]
    exact .inl ⟨hname, rfl⟩
  · obtain ⟨m₀, m, hnew, hmap, hbits, hbit⟩ := h.fetch_map (raw 1)
    have hentry : fs.disk.entrySectors j =
        fs.disk.headerSector j :: (fs.disk.fileHeader j).sectors :=
      if_pos huse
    have hmarked : ∀ s ∈ fs.disk.entrySectors j, s < NumSectors ∧ fs.disk.freeMap.bit s = true :=
      fun s hs => (h.consistent.marked s).1 (Consistent.mem_entry hj hs)
    obtain ⟨m₁, hdealloc, hbits₁, hbit₁⟩ := FileHeader.deallocate_spec
      (h.consistent.exact j hj huse).2.2 hbits.le (h.consistent.file_wellFormed hj huse).nodup
      (by
        intro s hs
        obtain ⟨hslt, hsbit⟩ := hmarked s (hentry ▸ List.mem_cons_of_mem _ hs)
        exact ⟨hbits ▸ hslt, (hbit s hslt).trans hsbit⟩)
    obtain ⟨m₂, hclear, hbits₂, hbit₂⟩ := BitMap.clear_spec (b := m₁) (i := fs.disk.headerSector j)
      (by rw [hbits₁, hbits]; exact hlt)
    have hremove : d.remove name = (true, d.setInUse j false) := by
      simp only [Directory.remove, hidx, Int.toNat_natCast]
      rw [if_neg (by omega)]
    have hbit' : ∀ s < NumSectors, m₂.bit s =
        (!decide (s ∈ fs.disk.entrySectors j) && fs.disk.freeMap.bit s) := by
      intro s hs
      simp only [hbit₂, hbit₁, hbit s hs, hentry, List.mem_cons, Bool.decide_or, Bool.not_or,
        Bool.and_assoc]
    obtain ⟨disk₁, disk₂, hwrite₁, hwrite₂, hst⟩ := h.toOpened.writeBack_map_dir (m := m₂)
      (d := d.setInUse j false) (hbits₂.trans (hbits₁.trans hbits)) hdsize (raw 2) (raw 3)
    simp only
    rw [hfind, if_neg (by omega), FileHeader.fetchFrom_eq hlt, ok_bind, hnew, ok_bind,
      hmap, ok_bind]
    rw [← Disk.fileHeader, hdealloc, ok_bind, hclear, ok_bind, hremove]
    simp only
    rw [hwrite₁, ok_bind, hwrite₂, ok_bind]
    exact .inr ⟨d, m₂, j, disk₂, hj, huse, hcmp, hd, rfl, hst, hst.removed h hj hd hbit'⟩

theorem remove (h : Sound fs) (name : ℕ → Byte) (raw : ℕ → ℕ → Byte) :
    ∃ success fs', fs.remove name raw = .ok (success, fs') ∧ Sound fs' ∧
      (success = false → fs' = fs) := by
  rcases h.remove_cases name raw with
    ⟨-, hok⟩ | ⟨-, -, -, disk', -, -, -, -, hok, -, hsound⟩
  · exact ⟨false, fs, hok, h, fun _ => rfl⟩
  · exact ⟨true, _, hok, hsound, by simp⟩

end Sound

/-! ## Formatting -/

/-- The sectors that a new file system takes. -/
theorem format_allocate (raw : ℕ → ℕ → Byte) :
    ∃ m₀ m₁ m₂ m₃ m₄ mapHdr dirHdr, newMap (raw 0) = .ok m₀ ∧
      m₀.mark FreeMapSector = .ok m₁ ∧ m₁.mark DirectorySector = .ok m₂ ∧
        (FileHeader.ofBytes (raw 2)).allocate m₂ FreeMapFileSize = .ok (true, mapHdr, m₃) ∧
          (FileHeader.ofBytes (raw 3)).allocate m₃ DirectoryFileSize = .ok (true, dirHdr, m₄) ∧
            mapHdr.numBytes = BitVec.ofNat 32 FreeMapFileSize ∧ mapHdr.numSectors.toNat = 1 ∧
              dirHdr.numBytes = BitVec.ofNat 32 DirectoryFileSize ∧ dirHdr.numSectors.toNat = 2 ∧
                (FreeMapSector :: DirectorySector :: (mapHdr.sectors ++ dirHdr.sectors)).Nodup ∧
                  m₄.numBits = NumSectors ∧
                    ∀ s, s ∈ FreeMapSector :: DirectorySector ::
                      (mapHdr.sectors ++ dirHdr.sectors) ↔
                      s < NumSectors ∧ m₄.bit s = true := by
  obtain ⟨m₀, hnew, hbits₀, hclear₀⟩ := BitMap.new_spec NumSectors fun i => wordAt (raw 0) (4 * i)
  have hcount₀ : Nat.count (fun j => m₀.bit j = false) m₀.numBits = 1024 := by
    rw [hbits₀]
    exact Nat.count_iff_forall.2 hclear₀
  obtain ⟨m₁, hmark₁, hbits₁, hbit₁⟩ := BitMap.mark_spec (b := m₀) (i := FreeMapSector)
    (by rw [hbits₀]; decide)
  obtain ⟨m₂, hmark₂, hbits₂, hbit₂⟩ := BitMap.mark_spec (b := m₁) (i := DirectorySector)
    (by rw [hbits₁, hbits₀]; decide)
  have hcount₁ := BitMap.count_mark (by rw [hbits₀]; decide) (hclear₀ _ (by decide)) hbits₁ hbit₁
  have hcount₂ := BitMap.count_mark (by rw [hbits₁, hbits₀]; decide)
    (by rw [hbit₁, hclear₀ _ (by decide)]; rfl) hbits₂ hbit₂
  have hnum₂ : m₂.numBits = NumSectors := hbits₂.trans (hbits₁.trans hbits₀)
  have hmap : divRoundUp FreeMapFileSize SectorSize = 1 := by decide
  have hdir : divRoundUp DirectoryFileSize SectorSize = 2 := by decide
  rcases FileHeader.allocate_spec (.ofBytes (raw 2)) (show FreeMapFileSize ≤ MaxFileSize by decide)
    hnum₂.le with ⟨hfew, -⟩ |
      ⟨mapHdr, m₃, halloc₃, hbytes₃, hlen₃, hnodup₃, hwere₃, hbits₃, hbit₃, hcount₃⟩
  · omega
  rcases FileHeader.allocate_spec (.ofBytes (raw 3))
    (show DirectoryFileSize ≤ MaxFileSize by decide)
    (hbits₃.trans hnum₂).le with
      ⟨hfew, -⟩ | ⟨dirHdr, m₄, halloc₄, hbytes₄, hlen₄, hnodup₄, hwere₄, hbits₄, hbit₄, -⟩
  · omega
  rw [hbits₃] at hwere₄
  rw [hnum₂] at hwere₃ hwere₄
  have hbit : ∀ s, m₂.bit s = (decide (s = DirectorySector) ||
      (decide (s = FreeMapSector) || m₀.bit s)) := by
    intro s
    rw [hbit₂, hbit₁]
  have hm : ∀ s ∈ mapHdr.sectors, s ≠ FreeMapSector ∧ s ≠ DirectorySector := by
    intro s hs
    have hfree := (hwere₃ s hs).2
    simp only [hbit, Bool.or_eq_false_iff, decide_eq_false_iff_not] at hfree
    exact ⟨hfree.2.1, hfree.1⟩
  have hd : ∀ s ∈ dirHdr.sectors, s ≠ FreeMapSector ∧ s ≠ DirectorySector ∧ s ∉ mapHdr.sectors := by
    intro s hs
    have hfree := (hwere₄ s hs).2
    simp only [hbit₃, hbit, Bool.or_eq_false_iff, decide_eq_false_iff_not] at hfree
    exact ⟨hfree.2.2.1, hfree.2.1, hfree.1⟩
  refine ⟨m₀, m₁, m₂, m₃, m₄, mapHdr, dirHdr, hnew, hmark₁, hmark₂, halloc₃, halloc₄, hbytes₃,
    hlen₃.trans hmap, hbytes₄, hlen₄.trans hdir, ?_, hbits₄.trans (hbits₃.trans hnum₂), ?_⟩
  · simp only [List.nodup_cons, List.mem_cons, List.mem_append, List.nodup_append, not_or]
    refine ⟨⟨by decide, fun hs => (hm _ hs).1 rfl, fun hs => (hd _ hs).1 rfl⟩,
      ⟨fun hs => (hm _ hs).2 rfl, fun hs => (hd _ hs).2.1 rfl⟩, hnodup₃, hnodup₄, ?_⟩
    rintro s hs t ht rfl
    exact (hd s ht).2.2 hs
  · intro s
    simp only [List.mem_cons, List.mem_append, hbit₄, hbit₃, hbit, Bool.or_eq_true,
      decide_eq_true_eq]
    constructor
    · rintro (rfl | rfl | hs | hs)
      · exact ⟨by decide, .inr (.inr (.inr (.inl rfl)))⟩
      · exact ⟨by decide, .inr (.inr (.inl rfl))⟩
      · exact ⟨(hwere₃ s hs).1, .inr (.inl hs)⟩
      · exact ⟨(hwere₄ s hs).1, .inl hs⟩
    · rintro ⟨hlt, hs | hs | hs | hs | hs⟩
      · exact .inr (.inr (.inr hs))
      · exact .inr (.inr (.inl hs))
      · exact .inr (.inl hs)
      · exact .inl hs
      · rw [hclear₀ s hlt] at hs
        cases hs

/-- `FileSystem(TRUE)` makes a file system without files, whatever is on the disk. -/
theorem format_empty (disk : Disk) (raw : ℕ → ℕ → Byte) :
    ∃ fs, FileSystem.format disk raw = .ok fs ∧ Sound fs ∧
      (∀ i < NumDirEntries, fs.disk.directory.inUse i = false) ∧
        fs.disk.usedSectors.length = 5 := by
  obtain ⟨m₀, m₁, m₂, m₃, m, mapHdr, dirHdr, hnew, hmark₁, hmark₂, hmapAlloc, hdirAlloc, hmapBytes,
    hmapNum, hdirBytes, hdirNum, hnodup, hbits, hmarked⟩ := format_allocate raw
  obtain ⟨diskA, hwriteA, hbytesA, hnumA, hsectorsA, hsameA⟩ := mapHdr.writeBack_spec
    (show FreeMapSector < NumSectors by decide) (by rw [hmapNum]; decide) disk
  obtain ⟨diskB, hwriteB, hbytesB, hnumB, hsectorsB, hsameB⟩ := dirHdr.writeBack_spec
    (show DirectorySector < NumSectors by decide) (by rw [hdirNum]; decide) diskA
  have hkeep : diskB.header FreeMapSector = diskA.header FreeMapSector :=
    (hsameB FreeMapSector (by decide)).header_eq
  have hsystem : diskB.systemSectors =
      FreeMapSector :: DirectorySector :: (mapHdr.sectors ++ dirHdr.sectors) := by
    rw [Disk.systemSectors, hkeep, hsectorsA, hsectorsB]
  have hmapLen : (diskB.header FreeMapSector).numBytes.toInt = FreeMapFileSize := by
    rw [hkeep, hbytesA, hmapBytes]
    decide
  have hdirLen : (diskB.header DirectorySector).numBytes.toInt = DirectoryFileSize := by
    rw [hbytesB, hdirBytes]
    decide
  have hlaid : Laid diskB := by
    refine ⟨⟨hmapLen, ?_⟩, ⟨hdirLen, ?_⟩, hsystem ▸ hnodup, fun s hs => ?_⟩
    · rw [FileHeader.Exact, hmapLen, hkeep, hnumA, hmapNum]
      decide
    · rw [FileHeader.Exact, hdirLen, hnumB, hdirNum]
      decide
    · exact ((hmarked s).1 (hsystem ▸ hs)).1
  have hopened :
      Opened ⟨diskB, ⟨diskB.header FreeMapSector, 0⟩, ⟨diskB.header DirectorySector, 0⟩⟩ :=
    ⟨rfl, rfl, hlaid⟩
  obtain ⟨hdsize, hdnone⟩ := Directory.new_spec NumDirEntries (raw 1)
  obtain ⟨diskC, diskD, hwriteC, hwriteD, hst⟩ :=
    hopened.writeBack_map_dir hbits hdsize (raw 4) (raw 5)
  have hunused : ∀ i < NumDirEntries, diskD.directory.inUse i = false := by
    intro i hi
    rw [(hst.directory i hi).inUse, hdnone i hi]
  have hused : diskD.usedSectors =
      FreeMapSector :: DirectorySector :: (mapHdr.sectors ++ dirHdr.sectors) := by
    have hnone : (List.range NumDirEntries).flatMap diskD.entrySectors = [] := by
      rw [List.flatMap_eq_nil_iff]
      intro i hi
      simp [Disk.entrySectors, hunused i (List.mem_range.1 hi)]
    rw [Disk.usedSectors, hnone, List.append_nil, hst.systemSectors_eq, hsystem]
  have hconsistent : Consistent diskD := by
    refine ⟨hst.map ▸ hlaid.mapHeader, hst.dir ▸ hlaid.dirHeader, ?_, hused ▸ hnodup, ?_, ?_⟩
    · intro i hi huse
      rw [hunused i hi] at huse
      cases huse
    · intro s
      rw [hused, hmarked]
      exact and_congr_right fun hs => by rw [hst.freeMap s hs]
    · intro i hi _ _ _ huse
      rw [hunused i hi] at huse
      cases huse
  refine ⟨⟨diskD, ⟨diskB.header FreeMapSector, 0⟩, ⟨diskB.header DirectorySector, 0⟩⟩, ?_,
    ⟨⟨hst.map.symm, hst.dir.symm, hconsistent.laid⟩, hconsistent⟩, hunused, ?_⟩
  swap
  · rw [hused]
    simp [FileHeader.sectors, hmapNum, hdirNum]
  have hopen : ∀ s < NumSectors, OpenFile.new diskB s = .ok ⟨diskB.header s, 0⟩ := by
    intro s hs
    simp only [OpenFile.new, FileHeader.fetchFrom_eq hs]
  unfold FileSystem.format
  rw [hnew, ok_bind]
  simp only
  rw [hmark₁, ok_bind, hmark₂, ok_bind, hmapAlloc, ok_bind]
  simp only [assert, if_true]
  rw [ok_bind, hdirAlloc, ok_bind]
  simp only [if_true]
  rw [ok_bind, hwriteA, ok_bind, hwriteB, ok_bind, hopen _ (by decide), ok_bind,
    hopen _ (by decide), ok_bind, hwriteC, ok_bind, hwriteD, ok_bind]
  rfl

theorem format_sound (disk : Disk) (raw : ℕ → ℕ → Byte) :
    ∃ fs, FileSystem.format disk raw = .ok fs ∧ Sound fs := by
  obtain ⟨fs, hformat, hsound, -, -⟩ := format_empty disk raw
  exact ⟨fs, hformat, hsound⟩

/-! ## Runs -/

/-- A call with a size that is allowed returns, and a call that fails changes nothing. -/
theorem Sound.call {fs : FileSystem} (h : Sound fs) {op : FileSystem.Op} (hop : op.Sized) :
    ∃ success fs', fs.call op = .ok (success, fs') ∧ Sound fs' ∧ (success = false → fs' = fs) := by
  cases op with
  | create name initialSize raw =>
      obtain ⟨n, rfl⟩ := Int.eq_ofNat_of_zero_le hop.1
      exact h.create name (Int.ofNat_le.1 hop.2) raw
  | remove name raw => exact h.remove name raw

/-- Starting from a formatted disk, whatever was on it, every sequence of `Create` and `Remove` runs
without a failed `ASSERT`: the file system is consistent after it, and the next call returns as well
and leaves the disk as it is when it returns FALSE. -/
theorem file_system_consistent (disk : Disk) (raw : ℕ → ℕ → Byte) :
    ∃ fs₀, FileSystem.format disk raw = .ok fs₀ ∧
      ∀ ops : List FileSystem.Op, (∀ op ∈ ops, op.Sized) →
        ∃ fs, runFrom FileSystem.step fs₀ ops = .ok fs ∧ Consistent fs.disk ∧
          ∀ op : FileSystem.Op, op.Sized → ∃ success fs', fs.call op = .ok (success, fs') ∧
            (success = false → fs'.disk = fs.disk) := by
  obtain ⟨fs₀, hformat, h₀⟩ := format_sound disk raw
  refine ⟨fs₀, hformat, fun ops hops => ?_⟩
  have hstep : ∀ (fs : FileSystem) (op : FileSystem.Op), Sound fs → op.Sized →
      ∃ fs', fs.step op = .ok fs' ∧ Sound fs' := by
    intro fs op h hop
    obtain ⟨success, fs', hcall, hsound, -⟩ := h.call hop
    exact ⟨fs', by simp only [FileSystem.step, hcall], hsound⟩
  obtain ⟨fs, hrun, hsound⟩ := exists_of_meets hstep h₀
    (Meets.of_forall fun op hop _ => hops op hop)
  refine ⟨fs, hrun, hsound.consistent, fun op hop => ?_⟩
  obtain ⟨success, fs', hcall, -, hfail⟩ := hsound.call hop
  exact ⟨success, fs', hcall, fun hf => by rw [hfail hf]⟩

/-- The name `a`. -/
def nameA : ℕ → Byte
  | 0 => 97
  | _ => 0

theorem file_system_consistent_create :
    ∃ fs₀ fs, FileSystem.format (fun _ => 7) (fun _ _ => 7) = .ok fs₀ ∧
      runFrom FileSystem.step fs₀ [.create nameA 200 (fun _ _ => 7), .create nameA 0 (fun _ _ => 7),
        .remove nameA (fun _ _ => 7), .create nameA 3840 (fun _ _ => 7)] = .ok fs ∧
        Consistent fs.disk := by
  obtain ⟨fs₀, hformat, hruns⟩ := file_system_consistent (fun _ => 7) (fun _ _ => 7)
  obtain ⟨fs, hrun, hconsistent, -⟩ := hruns [.create nameA 200 (fun _ _ => 7),
    .create nameA 0 (fun _ _ => 7), .remove nameA (fun _ _ => 7),
    .create nameA 3840 (fun _ _ => 7)] (by
      intro op hop
      simp only [List.mem_cons, List.not_mem_nil, or_false] at hop
      rcases hop with rfl | rfl | rfl | rfl
      · exact ⟨by decide, by decide⟩
      · exact ⟨by decide, by decide⟩
      · trivial
      · exact ⟨by decide, by decide⟩)
  exact ⟨fs₀, fs, hformat, hrun, hconsistent⟩

end Filesys

end Nachos
