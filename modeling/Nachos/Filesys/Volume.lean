import Nachos.Filesys.FileArray
import Nachos.Filesys.FileSize
import Mathlib.Algebra.BigOperators.Group.Finset.Basic

/-!
# The file system as a set of named arrays

What the programs see of the file system: a finite set of names, with an array of bytes for each of
them, and their open files. `World` is what is there, the disk with its free map, its directory and
its headers, and `Volume` is what it stands for. Every call answers as on the volume, over a whole
session, with Nachos started again in between.
-/

namespace Nachos

open Lib

namespace Filesys

/-! ## Entries -/

/-- What the directory keeps of a name. -/
abbrev Key := Fin FileNameMaxLen → Byte

def keyOf (name : ℕ → Byte) : Key := fun k => padded name k

theorem keyOf_eq_iff {s t : ℕ → Byte} : keyOf s = keyOf t ↔ strncmp s t FileNameMaxLen = 0 := by
  rw [strncmp_eq_zero_iff, funext_iff]
  exact ⟨fun h k hk => h ⟨k, hk⟩, fun h k => h k k.isLt⟩

/-- The name of the file in the directory entry `i`. -/
def Disk.key (disk : Disk) (i : ℕ) : Key := keyOf (disk.directory.name i)

/-- The two disks have the same file, or none, in the directory entry `i`. -/
structure KeepsEntry (disk disk' : Disk) (i : ℕ) : Prop where
  inUse : disk'.directory.inUse i = disk.directory.inUse i
  key : disk'.key i = disk.key i
  header : disk.directory.inUse i = true → disk'.fileHeader i = disk.fileHeader i
  contents : disk.directory.inUse i = true → ∀ k : ℕ, k < disk.fileLength i →
    (disk.fileHeader i).contents disk' k = (disk.fileHeader i).contents disk k

theorem Directory.SameEntry.key {d d' : Directory} {i : ℕ} (h : d.SameEntry d' i) :
    keyOf (d'.name i) = keyOf (d.name i) :=
  funext fun k => h.padded k.isLt

theorem FileHeader.length_sectors (h : FileHeader) : h.sectors.length = h.numSectors.toNat := by
  simp [sectors]

variable {disk disk' : Disk} {i j t : ℕ}

theorem KeepsEntry.refl (disk : Disk) (i : ℕ) : KeepsEntry disk disk i :=
  ⟨rfl, rfl, fun _ => rfl, fun _ _ _ => rfl⟩

namespace Consistent

theorem header_mem (huse : disk.directory.inUse i = true) :
    disk.headerSector i ∈ disk.entrySectors i := by
  simp [Disk.entrySectors, huse]

theorem sectors_mem (huse : disk.directory.inUse i = true) (ht : t ∈ (disk.fileHeader i).sectors) :
    t ∈ disk.entrySectors i := by
  rw [Disk.entrySectors, if_pos huse]
  exact List.mem_cons_of_mem _ ht

/-- Different files have different names. -/
theorem key_inj (h : Consistent disk) (hi : i < NumDirEntries) (hj : j < NumDirEntries)
    (hui : disk.directory.inUse i = true) (huj : disk.directory.inUse j = true)
    (hkey : disk.key i = disk.key j) : i = j := by
  by_contra hne
  exact h.names i hi j hj hne hui huj (keyOf_eq_iff.1 hkey)

theorem length_systemSectors (h : Consistent disk) : disk.systemSectors.length = 5 := by
  have hmap : (disk.header FreeMapSector).sectors.length = 1 := by
    rw [FileHeader.length_sectors, h.mapHeader.2.2.1, ← FileHeader.fileLength, h.mapHeader.1]
    decide
  have hdir : (disk.header DirectorySector).sectors.length = 2 := by
    rw [FileHeader.length_sectors, h.dirHeader.2.2.1, ← FileHeader.fileLength, h.dirHeader.1]
    decide
  simp only [Disk.systemSectors, List.length_cons, List.length_append, hmap, hdir]

theorem mapHeader_congr (hsys : ∀ t ∈ disk.systemSectors, SameSector disk disk' t) :
    disk'.header FreeMapSector = disk.header FreeMapSector :=
  (hsys _ (by simp [Disk.systemSectors])).header_eq

theorem dirHeader_congr (hsys : ∀ t ∈ disk.systemSectors, SameSector disk disk' t) :
    disk'.header DirectorySector = disk.header DirectorySector :=
  (hsys _ (by simp [Disk.systemSectors])).header_eq

/-- The directory is in the sectors of the system. -/
theorem entry_congr (h : Consistent disk) (hsys : ∀ t ∈ disk.systemSectors, SameSector disk disk' t)
    (hi : i < NumDirEntries) : disk.directory.SameEntry disk'.directory i := by
  intro k hk
  have hlt : (i * entrySize + k : ℕ) < (disk.header DirectorySector).fileLength := by
    rw [h.dirHeader.1, DirectoryFileSize]
    rw [entrySize] at hk ⊢
    omega
  have hsame := h.laid.dir_wellFormed.contents_congr (fun s hs => hsys s
    (by simp [Disk.systemSectors, hs])) hlt
  simp only [Disk.directory, dirHeader_congr hsys]
  exact hsame

/-- So is the free map. -/
theorem bit_congr (h : Consistent disk) (hsys : ∀ t ∈ disk.systemSectors, SameSector disk disk' t)
    {s : ℕ} (hs : s < NumSectors) : disk'.freeMap.bit s = disk.freeMap.bit s := by
  have hlen : ((disk.freeMap.numWords * 4 : ℕ) : ℤ) = (disk.header FreeMapSector).fileLength := by
    rw [h.mapHeader.1]
    exact congrArg Nat.cast (show divRoundUp NumSectors bitsInWord * 4 = FreeMapFileSize by decide)
  simp only [Disk.freeMap, mapHeader_congr hsys]
  refine BitMap.bit_ofBytes_congr (b := disk.freeMap) (fun k hk => ?_) hs
  refine h.laid.map_wellFormed.contents_congr (fun s hs => hsys s ?_) ?_
  · simp [Disk.systemSectors, hs]
  · rw [← hlen]
    exact_mod_cast hk

/-- The sectors of the free map, of the directory and of the headers are as they were, and so is
everything that is in them. -/
theorem congr (h : Consistent disk) (hsys : ∀ t ∈ disk.systemSectors, SameSector disk disk' t)
    (hheader : ∀ i < NumDirEntries, disk.directory.inUse i = true →
      SameSector disk disk' (disk.headerSector i)) :
    Consistent disk' ∧ ∀ i < NumDirEntries, disk.directory.SameEntry disk'.directory i ∧
      (disk.directory.inUse i = true → disk'.fileHeader i = disk.fileHeader i) := by
  have hentry : ∀ i < NumDirEntries, disk.directory.SameEntry disk'.directory i := fun i hi =>
    h.entry_congr hsys hi
  have hfile : ∀ i < NumDirEntries, disk.directory.inUse i = true →
      disk'.fileHeader i = disk.fileHeader i := by
    intro i hi huse
    unfold Disk.fileHeader Disk.headerSector
    rw [(hentry i hi).sector]
    exact (hheader i hi huse).header_eq
  have hsectors : ∀ i < NumDirEntries, disk'.entrySectors i = disk.entrySectors i := by
    intro i hi
    unfold Disk.entrySectors
    rw [(hentry i hi).inUse]
    split
    · rw [hfile i hi ‹_›, Disk.headerSector, Disk.headerSector, (hentry i hi).sector]
    · rfl
  have hused : disk'.usedSectors = disk.usedSectors := by
    unfold Disk.usedSectors Disk.systemSectors
    rw [mapHeader_congr hsys, dirHeader_congr hsys,
      List.flatMap_congr fun i hi => hsectors i (List.mem_range.1 hi)]
  refine ⟨⟨?_, ?_, ?_, ?_, ?_, ?_⟩, fun i hi => ⟨hentry i hi, hfile i hi⟩⟩
  · rw [mapHeader_congr hsys]
    exact h.mapHeader
  · rw [dirHeader_congr hsys]
    exact h.dirHeader
  · intro i hi huse
    rw [(hentry i hi).inUse] at huse
    rw [hfile i hi huse]
    exact h.exact i hi huse
  · rw [hused]
    exact h.nodup
  · intro s
    rw [hused, h.marked]
    exact and_congr_right fun hs => by rw [h.bit_congr hsys hs]
  · intro i hi j hj hne hui huj
    rw [(hentry i hi).inUse] at hui
    rw [(hentry j hj).inUse] at huj
    rw [ne_eq, (hentry i hi).strncmp_iff, strncmp_eq_zero_comm, (hentry j hj).strncmp_iff,
      strncmp_eq_zero_comm]
    exact h.names i hi j hj hne hui huj

end Consistent

/-! ## What the calls do -/

namespace Stored

variable {fs : FileSystem} {m : BitMap} {d : Directory} {f : ℕ} {name : ℕ → Byte}

/-- An entry that has been written back as it was, with none of its sectors written. -/
theorem keepsEntry (hst : Stored fs disk disk' m d) (h : Sound fs) (hi : i < NumDirEntries)
    (hsame : fs.disk.directory.SameEntry d i)
    (hkeep : ∀ t ∈ fs.disk.entrySectors i, SameSector fs.disk disk t) :
    KeepsEntry fs.disk disk' i := by
  obtain ⟨hentry, hheader, -⟩ := hst.entry h hi hsame fun huse =>
    hkeep _ (Consistent.header_mem huse)
  refine ⟨hentry.inUse, hentry.key, hheader, fun huse k hk => ?_⟩
  refine (h.consistent.file_wellFormed hi huse).contents_congr (fun t ht => ?_) hk
  have hmem := Consistent.sectors_mem huse ht
  exact (hkeep t hmem).trans (hst.same t (h.consistent.not_mem_system_of_mem_entry hi hmem))

/-- The entry of a new file. -/
theorem newEntry {m₀ : BitMap} (hst : Stored fs disk disk' m (d.setEntry j name f)) (h : Sound fs)
    (hp : Prepared fs name d m₀ f j) : disk'.directory.inUse j = true ∧ disk'.key j = keyOf name ∧
      disk'.fileHeader j = disk.header f := by
  have hentry := hst.directory j hp.entry_lt
  have hsector : disk'.headerSector j = f := by
    have hlt := hp.sector_lt
    rw [NumSectors] at hlt
    rw [Disk.headerSector, hentry.sector, Directory.sector_setEntry, BitVec.ofInt_natCast,
      BitVec.toNat_ofNat]
    omega
  have hsystem : f ∉ fs.disk.systemSectors := fun hmem =>
    hp.ne_of_marked ((h.consistent.marked f).1 (Consistent.mem_system hmem)).2 rfl
  refine ⟨by rw [hentry.inUse, Directory.inUse_setEntry], ?_, ?_⟩
  · rw [Disk.key, hentry.key]
    exact funext fun k => Directory.padded_setEntry d j name f k.isLt
  · rw [Disk.fileHeader, hsector]
    exact (hst.same f hsystem).header_eq

end Stored

/-- One of the checks of `Create` fails. -/
def Refuses (disk : Disk) (name : ℕ → Byte) (initialSize : ℕ) : Prop :=
  (∃ i < NumDirEntries, disk.directory.inUse i = true ∧ disk.key i = keyOf name) ∨
    (∀ i < NumDirEntries, disk.directory.inUse i = true) ∨
      disk.numFree < 1 + divRoundUp initialSize SectorSize

namespace Sound

variable {fs : FileSystem} {d : Directory}

/-- `Create` fails when one of its checks does; otherwise a free entry of the directory gets a file
of the size, and the other files stay as they are. -/
theorem create_spec (h : Sound fs) (name : ℕ → Byte) {initialSize : ℕ}
    (hsize : initialSize ≤ MaxFileSize) (raw : ℕ → ℕ → Byte) :
    (Refuses fs.disk name initialSize ∧ fs.create name initialSize raw = .ok (false, fs)) ∨
      ¬ Refuses fs.disk name initialSize ∧ ∃ fs' j,
        fs.create name initialSize raw = .ok (true, fs') ∧ j < NumDirEntries ∧
          fs.disk.directory.inUse j = false ∧ fs'.disk.directory.inUse j = true ∧
            fs'.disk.key j = keyOf name ∧ fs'.disk.fileLength j = initialSize ∧
              ∀ i < NumDirEntries, i ≠ j → KeepsEntry fs.disk fs'.disk i := by
  have hkey : ∀ i, fs.disk.key i = keyOf name ↔
      strncmp (fs.disk.directory.name i) name FileNameMaxLen = 0 := fun i => keyOf_eq_iff
  simp only [Refuses, hkey]
  rcases h.create_sized name hsize raw with
    ⟨hwhy, hok⟩ | ⟨d, m, f, j, m', disk₁, disk', hp, henough, hok, hst, -, hint, hsame⟩
  · exact .inl ⟨hwhy, hok⟩
  refine .inr ⟨?_, _, j, hok, hp.entry_lt, hp.unused, ?_⟩
  · rintro (⟨i, hi, huse, hcmp⟩ | hall | hfew)
    · exact hp.fresh i hi huse hcmp
    · have hunused := hp.unused
      rw [hall j hp.entry_lt] at hunused
      cases hunused
    · omega
  obtain ⟨huse, hname, hheader⟩ := hst.newEntry h hp
  refine ⟨huse, hname, ?_, fun i hi hij => ?_⟩
  · rw [Disk.fileLength, hheader, FileHeader.fileLength, hint]
  · refine hst.keepsEntry h hi ?_ fun t ht => hsame t ?_
    · exact (hp.directory i hi).trans (Directory.sameEntry_setEntry hij name f)
    · exact hp.ne_of_marked ((h.consistent.marked t).1 (Consistent.mem_entry hi ht)).2

/-- `Remove` fails when there is no file of the name; otherwise its entry is free, and the other
files stay as they are. -/
theorem remove_spec (h : Sound fs) (name : ℕ → Byte) (raw : ℕ → ℕ → Byte) :
    ((∀ i < NumDirEntries, fs.disk.directory.inUse i = true → fs.disk.key i ≠ keyOf name) ∧
      fs.remove name raw = .ok (false, fs)) ∨
      ∃ fs' j, fs.remove name raw = .ok (true, fs') ∧ j < NumDirEntries ∧
        fs.disk.directory.inUse j = true ∧ fs.disk.key j = keyOf name ∧
          fs'.disk.directory.inUse j = false ∧
            ∀ i < NumDirEntries, i ≠ j → KeepsEntry fs.disk fs'.disk i := by
  rcases h.remove_cases name raw with
    ⟨hnone, hok⟩ | ⟨d, m, j, disk', hj, huse, hcmp, hd, hok, hst, -⟩
  · exact .inl ⟨fun i hi hui hkey => hnone i hi hui (keyOf_eq_iff.1 hkey), hok⟩
  · refine .inr ⟨_, j, hok, hj, huse, keyOf_eq_iff.2 hcmp, ?_, fun i hi hij => ?_⟩
    · rw [(hst.directory j hj).inUse, Directory.inUse_setInUse]
    · refine hst.keepsEntry h hi ?_ fun t _ k _ => rfl
      exact (hd i hi).trans (Directory.sameEntry_setInUse hij false)

/-- `Open` finds the file of the name. -/
theorem openFile_spec (h : Sound fs) (name : ℕ → Byte) (raw : ℕ → ℕ → Byte) :
    ((∀ i < NumDirEntries, fs.disk.directory.inUse i = true → fs.disk.key i ≠ keyOf name) ∧
      fs.openFile name raw = .ok none) ∨
      ∃ j < NumDirEntries, fs.disk.directory.inUse j = true ∧ fs.disk.key j = keyOf name ∧
        fs.openFile name raw = .ok (some ⟨fs.disk.fileHeader j, 0⟩) := by
  obtain ⟨d, hfetch, hdsize, hd⟩ := h.fetch_directory (raw 0)
  unfold FileSystem.openFile
  rw [hfetch, ok_bind]
  simp only
  rcases h.find_spec hdsize hd name with ⟨hfind, -, hnone⟩ | ⟨j, hj, huse, hcmp, -, hfind, hlt⟩
  · rw [if_neg (by omega)]
    exact .inl ⟨fun i hi hui hkey => hnone i hi hui (keyOf_eq_iff.1 hkey), rfl⟩
  · rw [if_pos (by omega), hfind, OpenFile.new, FileHeader.fetchFrom_eq hlt]
    exact .inr ⟨j, hj, huse, keyOf_eq_iff.2 hcmp, rfl⟩

end Sound

/-! ## The world -/

/-- `FileSystem::FileSystem(FALSE)`. -/
def FileSystem.mount (disk : Disk) : Except Fault FileSystem := do
  let freeMapFile ← OpenFile.new disk FreeMapSector
  let directoryFile ← OpenFile.new disk DirectorySector
  return ⟨disk, freeMapFile, directoryFile⟩

/-- A file that a program has open, under the name with which it has been opened. -/
structure Handle where
  file : OpenFile
  key : Key

/-- The calls of the programs. -/
inductive Call where
  | create (name : ℕ → Byte) (initialSize : ℤ) (raw : ℕ → ℕ → Byte)
  | remove (name : ℕ → Byte) (raw : ℕ → ℕ → Byte)
  | openFile (h : ℕ) (name : ℕ → Byte) (raw : ℕ → ℕ → Byte)
  | use (h : ℕ) (op : FileOp)
  /-- `delete openFile`. -/
  | close (h : ℕ)
  /-- Nachos is started again with the disk as it is. -/
  | mount

inductive Answer where
  | success (success : Bool)
  | number (result : ℕ)
  | nothing
  deriving DecidableEq

/-- The size of a new file fits in a header. -/
def Call.Sized : Call → Prop
  | .create _ initialSize _ => 0 ≤ initialSize ∧ initialSize ≤ MaxFileSize
  | _ => True

structure World where
  fs : FileSystem
  handles : ℕ → Option Handle
  mem : ℕ → Byte

/-- The open files of a file that is removed are not used any longer. -/
def World.call (w : World) : Call → Except Fault (Answer × World)
  | .create name initialSize raw =>
      match w.fs.create name initialSize raw with
      | .error e => .error e
      | .ok (success, fs) => .ok (.success success, { w with fs := fs })
  | .remove name raw =>
      match w.fs.remove name raw with
      | .error e => .error e
      | .ok (false, fs) => .ok (.success false, { w with fs := fs })
      | .ok (true, fs) =>
          .ok (.success true, { w with
            fs := fs
            handles := fun h => (w.handles h).filter fun x => x.key ≠ keyOf name })
  | .openFile h name raw =>
      match w.fs.openFile name raw with
      | .error e => .error e
      | .ok none => .ok (.success false, w)
      | .ok (some file) =>
          .ok (.success true, { w with
            handles := Function.update w.handles h (some ⟨file, keyOf name⟩) })
  | .use h op =>
      match w.handles h with
      | none => .ok (.nothing, w)
      | some x =>
          match (Session.mk w.fs.disk x.file w.mem).call op with
          | .error e => .error e
          | .ok (result, s) =>
              .ok (.number result,
                { fs := { w.fs with disk := s.disk }
                  handles := Function.update w.handles h (some ⟨s.file, x.key⟩)
                  mem := s.mem })
  | .close h => .ok (.nothing, { w with handles := Function.update w.handles h none })
  | .mount =>
      match FileSystem.mount w.fs.disk with
      | .error e => .error e
      | .ok fs => .ok (.nothing, { w with fs := fs, handles := fun _ => none })

/-- The calls one after the other, with their answers. -/
def World.run : World → List Call → Except Fault (List Answer × World)
  | w, [] => .ok ([], w)
  | w, c :: cs =>
      match w.call c with
      | .error e => .error e
      | .ok (answer, w') =>
          match run w' cs with
          | .error e => .error e
          | .ok (answers, w'') => .ok (answer :: answers, w'')

/-! ## The volume -/

structure Content where
  length : ℕ
  bytes : ℕ → Byte

structure Volume where
  names : Finset Key
  content : Key → Content
  /-- The name and the cursor of each open file. -/
  handles : ℕ → Option (Key × ℕ)
  mem : ℕ → Byte

namespace Volume

/-- A file takes the sectors of its bytes, and one for its header. -/
def sectorsOf (length : ℕ) : ℕ := 1 + divRoundUp length SectorSize

def sectors (V : Volume) : ℕ := ∑ n ∈ V.names, sectorsOf (V.content n).length

/-- The free map, the directory and their headers. -/
def systemSize : ℕ := 5

/-- The name is new, and there is room for the file. -/
def Accepts (V : Volume) (key : Key) (length : ℕ) : Prop :=
  key ∉ V.names ∧ V.names.card < NumDirEntries ∧
    systemSize + V.sectors + sectorsOf length ≤ NumSectors

instance (V : Volume) (key : Key) (length : ℕ) : Decidable (V.Accepts key length) :=
  inferInstanceAs (Decidable (_ ∧ _ ∧ _))

/-- A call on the volume; `stale` is what a new file happens to hold. -/
def call (V : Volume) (stale : ℕ → Byte) : Call → Answer × Volume
  | .create name initialSize _ =>
      if V.Accepts (keyOf name) initialSize.toNat then
        (.success true, { V with
          names := insert (keyOf name) V.names
          content := Function.update V.content (keyOf name) ⟨initialSize.toNat, stale⟩ })
      else (.success false, V)
  | .remove name _ =>
      if keyOf name ∈ V.names then
        (.success true, { V with
          names := V.names.erase (keyOf name)
          handles := fun h => (V.handles h).filter fun x => x.1 ≠ keyOf name })
      else (.success false, V)
  | .openFile h name _ =>
      if keyOf name ∈ V.names then
        (.success true, { V with
          handles := Function.update V.handles h (some (keyOf name, 0)) })
      else (.success false, V)
  | .use h op =>
      match V.handles h with
      | none => (.nothing, V)
      | some (key, cursor) =>
          let (result, a) :=
            FileArray.call (V.content key).length ⟨(V.content key).bytes, cursor, V.mem⟩ op
          (.number result, { V with
            content := Function.update V.content key ⟨(V.content key).length, a.bytes⟩
            handles := Function.update V.handles h (some (key, a.cursor))
            mem := a.mem })
  | .close h => (.nothing, { V with handles := Function.update V.handles h none })
  | .mount => (.nothing, { V with handles := fun _ => none })

/-- The calls one after the other, with their answers. -/
inductive Runs : Volume → List Call → List Answer → Volume → Prop
  | nil (V : Volume) : Runs V [] [] V
  | cons {V V' : Volume} {c : Call} {cs : List Call} {as : List Answer} (stale : ℕ → Byte)
      (h : Runs (V.call stale c).2 cs as V') : Runs V (c :: cs) ((V.call stale c).1 :: as) V'

def empty (mem : ℕ → Byte) : Volume := ⟨∅, fun _ => ⟨0, fun _ => 0⟩, fun _ => none, mem⟩

end Volume

/-! ## Refinement -/

/-- The file in the directory entry `i` is the array. -/
def Disk.Holds (disk : Disk) (i : ℕ) (c : Content) : Prop :=
  disk.fileLength i = c.length ∧
    ∀ k < c.length, (disk.fileHeader i).contents disk k = c.bytes k

theorem KeepsEntry.holds (h : KeepsEntry disk disk' i) (huse : disk.directory.inUse i = true)
    {c : Content} (hc : disk.Holds i c) : disk'.Holds i c := by
  have hheader := h.header huse
  refine ⟨?_, fun k hk => ?_⟩
  · rw [Disk.fileLength, hheader]
    exact hc.1
  · rw [hheader, h.contents huse k (by rw [hc.1]; exact_mod_cast hk), hc.2 k hk]

/-- The world stands for the volume. -/
structure World.Shows (w : World) (V : Volume) : Prop where
  sound : Sound w.fs
  names : ∀ n, n ∈ V.names ↔
    ∃ i < NumDirEntries, w.fs.disk.directory.inUse i = true ∧ w.fs.disk.key i = n
  content : ∀ i < NumDirEntries, w.fs.disk.directory.inUse i = true →
    w.fs.disk.Holds i (V.content (w.fs.disk.key i))
  handles : V.handles = fun h => (w.handles h).map fun x => (x.key, x.file.seekPosition)
  opened : ∀ h x, w.handles h = some x → ∃ i < NumDirEntries,
    w.fs.disk.directory.inUse i = true ∧ w.fs.disk.key i = x.key ∧
      x.file.hdr = w.fs.disk.fileHeader i
  mem : V.mem = w.mem

namespace World.Shows

variable {w : World} {V : Volume}

theorem names_eq (hs : w.Shows V) : V.names =
    ((Finset.range NumDirEntries).filter fun i => w.fs.disk.directory.inUse i = true).image
      w.fs.disk.key := by
  ext n
  rw [hs.names, Finset.mem_image]
  simp only [Finset.mem_filter, Finset.mem_range, and_assoc]

theorem key_injOn (hs : w.Shows V) : Set.InjOn w.fs.disk.key
    ((Finset.range NumDirEntries).filter fun i => w.fs.disk.directory.inUse i = true) := by
  intro i hi j hj hkey
  simp only [Finset.coe_filter, Finset.mem_range, Set.mem_ofPred_eq] at hi hj
  exact hs.sound.consistent.key_inj hi.1 hj.1 hi.2 hj.2 hkey

/-- The directory is full when there are as many names as entries. -/
theorem card_lt_iff (hs : w.Shows V) : V.names.card < NumDirEntries ↔
    ¬ ∀ i < NumDirEntries, w.fs.disk.directory.inUse i = true := by
  rw [hs.names_eq, Finset.card_image_of_injOn hs.key_injOn]
  have hle := Finset.card_filter_le (Finset.range NumDirEntries) fun i =>
    w.fs.disk.directory.inUse i = true
  rw [Finset.card_range] at hle
  rw [lt_iff_le_and_ne, and_iff_right hle, ne_eq, not_iff_not]
  constructor
  · intro heq i hi
    have hall := (Finset.card_filter_eq_iff (s := Finset.range NumDirEntries)).1
      (heq.trans (Finset.card_range _).symm)
    exact hall i (Finset.mem_range.2 hi)
  · intro hall
    rw [Finset.filter_true_of_mem fun i hi => hall i (Finset.mem_range.1 hi), Finset.card_range]

/-- The volume counts the sectors in use. -/
theorem usedSectors_eq (hs : w.Shows V) :
    w.fs.disk.usedSectors.length = Volume.systemSize + V.sectors := by
  have hentries : ((List.range NumDirEntries).flatMap w.fs.disk.entrySectors).length =
      ∑ i ∈ Finset.range NumDirEntries, (w.fs.disk.entrySectors i).length := by
    rw [List.length_flatMap, Finset.sum_eq_multiset_sum, Finset.range_val, Multiset.range,
      Multiset.map_coe, Multiset.sum_coe]
  have hentry : ∀ i ∈ Finset.range NumDirEntries, (w.fs.disk.entrySectors i).length =
      if w.fs.disk.directory.inUse i = true then
        Volume.sectorsOf (V.content (w.fs.disk.key i)).length
      else 0 := by
    intro i hi
    rw [Finset.mem_range] at hi
    unfold Disk.entrySectors
    split
    · have huse := ‹w.fs.disk.directory.inUse i = true›
      rw [List.length_cons, FileHeader.length_sectors, (hs.sound.consistent.exact i hi huse).2.1,
        ← FileHeader.fileLength, ← Disk.fileLength, (hs.content i hi huse).1, Int.toNat_natCast,
        Volume.sectorsOf, Nat.add_comm]
    · rfl
  rw [Disk.usedSectors, List.length_append, hs.sound.consistent.length_systemSectors, hentries,
    Finset.sum_congr rfl hentry, ← Finset.sum_filter, Volume.sectors, hs.names_eq,
    Finset.sum_image hs.key_injOn, Volume.systemSize]

theorem accepts_iff (hs : w.Shows V) (name : ℕ → Byte) (initialSize : ℕ) :
    V.Accepts (keyOf name) initialSize ↔ ¬ Refuses w.fs.disk name initialSize := by
  have hfree := hs.sound.consistent.numFree_add
  rw [hs.usedSectors_eq] at hfree
  rw [Volume.Accepts, Refuses, not_or, not_or, hs.names, hs.card_lt_iff, Volume.sectorsOf]
  refine and_congr Iff.rfl (and_congr Iff.rfl ?_)
  omega

/-- The open files of entries that are kept. -/
theorem opened_of_keeps (hs : w.Shows V) {disk' : Disk} {h : ℕ} {x : Handle}
    (hx : w.handles h = some x)
    (hkeeps : ∀ i < NumDirEntries, w.fs.disk.directory.inUse i = true →
      w.fs.disk.key i = x.key → KeepsEntry w.fs.disk disk' i) :
    ∃ i < NumDirEntries, disk'.directory.inUse i = true ∧ disk'.key i = x.key ∧
      x.file.hdr = disk'.fileHeader i := by
  obtain ⟨i, hi, huse, hkey, hhdr⟩ := hs.opened h x hx
  have hkeep := hkeeps i hi huse hkey
  exact ⟨i, hi, hkeep.inUse.trans huse, hkeep.key.trans hkey, hhdr.trans (hkeep.header huse).symm⟩

/-- What a call has to do. -/
def Answers (w : World) (V : Volume) (c : Call) : Prop :=
  ∃ answer w' stale, w.call c = .ok (answer, w') ∧ (V.call stale c).1 = answer ∧
    w'.Shows (V.call stale c).2

theorem create (hs : w.Shows V) (name : ℕ → Byte) {initialSize : ℕ}
    (hsize : initialSize ≤ MaxFileSize) (raw : ℕ → ℕ → Byte) :
    Answers w V (.create name initialSize raw) := by
  have haccepts := hs.accepts_iff name initialSize
  rcases hs.sound.create_spec name hsize raw with
    ⟨hrefuses, hcreate⟩ | ⟨hnot, fs', j, hcreate, hj, hunused, huse, hkey, hlen, hkeeps⟩
  · refine ⟨.success false, w, fun _ => 0, by simp only [World.call, hcreate], ?_⟩
    simp only [Volume.call, Int.toNat_natCast]
    rw [if_neg fun h => haccepts.1 h hrefuses]
    exact ⟨rfl, hs⟩
  have hsound : Sound fs' := by
    obtain ⟨success, fs₁, hcreate₁, hsound, -⟩ := hs.sound.create name hsize raw
    cases hcreate.symm.trans hcreate₁
    exact hsound
  refine ⟨.success true, { w with fs := fs' }, (fs'.disk.fileHeader j).contents fs'.disk,
    by simp only [World.call, hcreate], ?_⟩
  simp only [Volume.call, Int.toNat_natCast]
  rw [if_pos (haccepts.2 hnot)]
  have hne : ∀ i, w.fs.disk.directory.inUse i = true → i ≠ j := by
    rintro i hui rfl
    exact absurd (hunused.symm.trans hui) (by decide)
  refine ⟨rfl, hsound, fun n => ?_, fun i hi hui => ?_, hs.handles, fun h x hx => ?_, hs.mem⟩
  · rw [Finset.mem_insert, hs.names]
    constructor
    · rintro (rfl | ⟨i, hi, hui, rfl⟩)
      · exact ⟨j, hj, huse, hkey⟩
      · have hkeep := hkeeps i hi (hne i hui)
        exact ⟨i, hi, hkeep.inUse.trans hui, hkeep.key⟩
    · rintro ⟨i, hi, hui, rfl⟩
      by_cases hij : i = j
      · subst hij
        exact .inl hkey
      · have hkeep := hkeeps i hi hij
        exact .inr ⟨i, hi, hkeep.inUse.symm.trans hui, hkeep.key.symm⟩
  · dsimp only at hui ⊢
    by_cases hij : i = j
    · subst hij
      rw [hkey, Function.update_self]
      exact ⟨hlen, fun _ _ => rfl⟩
    · have hkeep := hkeeps i hi hij
      have hui' := hkeep.inUse.symm.trans hui
      have hold : w.fs.disk.key i ≠ keyOf name := fun heq =>
        hnot (.inl ⟨i, hi, hui', heq⟩)
      rw [hkeep.key, Function.update_of_ne hold]
      exact hkeep.holds hui' (hs.content i hi hui')
  · exact hs.opened_of_keeps hx fun i hi hui _ => hkeeps i hi (hne i hui)

theorem remove (hs : w.Shows V) (name : ℕ → Byte) (raw : ℕ → ℕ → Byte) :
    Answers w V (.remove name raw) := by
  rcases hs.sound.remove_spec name raw with
    ⟨hnone, hremove⟩ | ⟨fs', j, hremove, hj, huse, hkey, hunused, hkeeps⟩
  · refine ⟨.success false, w, fun _ => 0, by simp only [World.call, hremove], ?_⟩
    have hnot : keyOf name ∉ V.names := by
      rw [hs.names]
      rintro ⟨i, hi, hui, heq⟩
      exact hnone i hi hui heq
    simp only [Volume.call]
    rw [if_neg hnot]
    exact ⟨rfl, hs⟩
  have hsound : Sound fs' := by
    obtain ⟨success, fs₁, hremove₁, hsound, -⟩ := hs.sound.remove name raw
    cases hremove.symm.trans hremove₁
    exact hsound
  refine ⟨.success true, ⟨fs', fun h => (w.handles h).filter fun x => x.key ≠ keyOf name, w.mem⟩,
    fun _ => 0, by simp only [World.call, hremove], ?_⟩
  simp only [Volume.call]
  rw [if_pos ((hs.names _).2 ⟨j, hj, huse, hkey⟩)]
  have hne : ∀ i, i < NumDirEntries → w.fs.disk.directory.inUse i = true →
      w.fs.disk.key i ≠ keyOf name → i ≠ j := by
    rintro i _ _ hold rfl
    exact hold hkey
  have hne' : ∀ i, fs'.disk.directory.inUse i = true → i ≠ j := by
    rintro i hui rfl
    exact absurd (hunused.symm.trans hui) (by decide)
  refine ⟨rfl, hsound, fun n => ?_, fun i hi hui => ?_, ?_, fun h x hx => ?_, hs.mem⟩
  · rw [Finset.mem_erase, hs.names]
    constructor
    · rintro ⟨hn, i, hi, hui, rfl⟩
      have hkeep := hkeeps i hi (hne i hi hui hn)
      exact ⟨i, hi, hkeep.inUse.trans hui, hkeep.key⟩
    · rintro ⟨i, hi, hui, rfl⟩
      have hkeep := hkeeps i hi (hne' i hui)
      have hui' := hkeep.inUse.symm.trans hui
      rw [hkeep.key]
      refine ⟨fun heq => hne' i hui ?_, i, hi, hui', rfl⟩
      exact hs.sound.consistent.key_inj hi hj hui' huse (heq.trans hkey.symm)
  · have hkeep := hkeeps i hi (hne' i hui)
    have hui' := hkeep.inUse.symm.trans hui
    rw [hkeep.key]
    exact hkeep.holds hui' (hs.content i hi hui')
  · rw [hs.handles]
    funext h
    dsimp only
    cases w.handles h with
    | none => rfl
    | some x => by_cases hold : x.key = keyOf name <;> simp [Option.filter, hold]
  · obtain ⟨hx, hold⟩ := Option.filter_eq_some_iff.1 hx
    refine hs.opened_of_keeps hx fun i hi hui hkey' => hkeeps i hi (hne i hi hui ?_)
    rw [hkey']
    exact of_decide_eq_true hold

theorem openFile (hs : w.Shows V) (h : ℕ) (name : ℕ → Byte) (raw : ℕ → ℕ → Byte) :
    Answers w V (.openFile h name raw) := by
  rcases hs.sound.openFile_spec name raw with ⟨hnone, hopen⟩ | ⟨j, hj, huse, hkey, hopen⟩
  · refine ⟨.success false, w, fun _ => 0, by simp only [World.call, hopen], ?_⟩
    have hnot : keyOf name ∉ V.names := by
      rw [hs.names]
      rintro ⟨i, hi, hui, heq⟩
      exact hnone i hi hui heq
    simp only [Volume.call]
    rw [if_neg hnot]
    exact ⟨rfl, hs⟩
  refine ⟨.success true, ⟨w.fs, Function.update w.handles h
    (some ⟨⟨w.fs.disk.fileHeader j, 0⟩, keyOf name⟩), w.mem⟩, fun _ => 0,
    by simp only [World.call, hopen], ?_⟩
  simp only [Volume.call]
  rw [if_pos ((hs.names _).2 ⟨j, hj, huse, hkey⟩)]
  refine ⟨rfl, hs.sound, hs.names, hs.content, ?_, fun h' x hx => ?_, hs.mem⟩
  · rw [hs.handles]
    funext h'
    by_cases hh : h' = h
    · subst hh
      simp
    · simp [hh]
  · dsimp only at hx ⊢
    by_cases hh : h' = h
    · subst hh
      rw [Function.update_self] at hx
      cases hx
      exact ⟨j, hj, huse, hkey, rfl⟩
    · rw [Function.update_of_ne hh] at hx
      exact hs.opened h' x hx

/-- A program uses an open file. -/
theorem use (hs : w.Shows V) (h : ℕ) (op : FileOp) : Answers w V (.use h op) := by
  cases hx : w.handles h with
  | none =>
      have hV : V.handles h = none := by simp [hs.handles, hx]
      exact ⟨.nothing, w, fun _ => 0, by simp only [World.call, hx], by simp only [Volume.call, hV],
        by simpa only [Volume.call, hV] using hs⟩
  | some x =>
      obtain ⟨i, hi, huse, hkey, hhdr⟩ := hs.opened h x hx
      have hV : V.handles h = some (x.key, x.file.seekPosition) := by simp [hs.handles, hx]
      obtain ⟨hlen, hbytes⟩ := hs.content i hi huse
      rw [hkey] at hlen hbytes
      have hlen' : (w.fs.disk.fileHeader i).fileLength = (V.content x.key).length := hlen
      have hshows : (Session.mk w.fs.disk x.file w.mem).Shows (w.fs.disk.fileHeader i)
          ⟨(V.content x.key).bytes, x.file.seekPosition, V.mem⟩ := by
        refine ⟨hhdr, fun k hk => hbytes k ?_, rfl, hs.mem.symm⟩
        rw [hlen'] at hk
        exact_mod_cast hk
      obtain ⟨s, hcall, hshows', hsame⟩ :=
        hshows.call (hs.sound.consistent.file_wellFormed hi huse) op
      rw [hlen'] at hcall hshows'
      obtain ⟨result, a, hra⟩ : ∃ result a, FileArray.call (V.content x.key).length
          ⟨(V.content x.key).bytes, x.file.seekPosition, V.mem⟩ op = (result, a) := ⟨_, _, rfl⟩
      rw [hra] at hcall hshows'
      have hapart := fun t (ht : t ∈ (w.fs.disk.fileHeader i).sectors) =>
        hs.sound.consistent.sectors_apart hi huse ht
      have hsystem : ∀ t ∈ w.fs.disk.systemSectors, SameSector w.fs.disk s.disk t := fun t ht =>
        hsame t fun hmem => (hapart t hmem).1 ht
      have hentry : ∀ j < NumDirEntries, j ≠ i → ∀ t ∈ w.fs.disk.entrySectors j,
          SameSector w.fs.disk s.disk t := fun j hj hne t ht =>
        hsame t fun hmem => (hapart t hmem).2.2 j hj hne ht
      obtain ⟨hconsistent, hkept⟩ := hs.sound.consistent.congr hsystem fun j hj huj => by
        by_cases hji : j = i
        · subst hji
          exact hsame _ fun hmem => (hapart _ hmem).2.1 rfl
        · exact hentry j hj hji _ (Consistent.header_mem huj)
      have hsound : Sound { w.fs with disk := s.disk } :=
        ⟨⟨hs.sound.map.trans (Consistent.mapHeader_congr hsystem).symm,
          hs.sound.dir.trans (Consistent.dirHeader_congr hsystem).symm, hconsistent.laid⟩,
          hconsistent⟩
      have hkeyEq : ∀ j < NumDirEntries, s.disk.key j = w.fs.disk.key j := fun j hj =>
        (hkept j hj).1.key
      have hkeeps : ∀ j < NumDirEntries, j ≠ i → KeepsEntry w.fs.disk s.disk j := by
        intro j hj hji
        refine ⟨(hkept j hj).1.inUse, hkeyEq j hj, (hkept j hj).2, fun huj k hk => ?_⟩
        exact (hs.sound.consistent.file_wellFormed hj huj).contents_congr
          (fun t ht => hentry j hj hji t (Consistent.sectors_mem huj ht)) hk
      refine ⟨.number result, ⟨{ w.fs with disk := s.disk },
        Function.update w.handles h (some ⟨s.file, x.key⟩), s.mem⟩, fun _ => 0,
        by simp only [World.call, hx, hcall], by simp only [Volume.call, hV, hra], ?_⟩
      simp only [Volume.call, hV, hra]
      refine ⟨hsound, fun n => ?_, fun j hj huj => ?_, ?_, fun h' y hy => ?_, hshows'.mem.symm⟩
      · rw [hs.names]
        refine exists_congr fun j => and_congr_right fun hj => ?_
        rw [(hkept j hj).1.inUse, hkeyEq j hj]
      · dsimp only at huj ⊢
        rw [(hkept j hj).1.inUse] at huj
        rw [hkeyEq j hj]
        by_cases hji : j = i
        · subst hji
          rw [hkey, Function.update_self, Disk.Holds, Disk.fileLength, (hkept j hj).2 huj]
          refine ⟨hlen', fun k hk => hshows'.bytes k ?_⟩
          rw [hlen']
          exact_mod_cast hk
        · have hne : w.fs.disk.key j ≠ x.key := fun heq =>
            hji (hs.sound.consistent.key_inj hj hi huj huse (heq.trans hkey.symm))
          rw [Function.update_of_ne hne]
          exact (hkeeps j hj hji).holds huj (hs.content j hj huj)
      · rw [hs.handles]
        funext h'
        by_cases hh : h' = h
        · subst hh
          simp [hshows'.cursor]
        · simp [hh]
      · dsimp only at hy ⊢
        by_cases hh : h' = h
        · subst hh
          rw [Function.update_self] at hy
          cases hy
          exact ⟨i, hi, (hkept i hi).1.inUse.trans huse, (hkeyEq i hi).trans hkey,
            hshows'.hdr.trans ((hkept i hi).2 huse).symm⟩
        · rw [Function.update_of_ne hh] at hy
          obtain ⟨j, hj, huj, hkeyj, hhdrj⟩ := hs.opened h' y hy
          exact ⟨j, hj, (hkept j hj).1.inUse.trans huj, (hkeyEq j hj).trans hkeyj,
            hhdrj.trans ((hkept j hj).2 huj).symm⟩

/-- Nothing is lost when Nachos is started again. -/
theorem mount (hs : w.Shows V) : Answers w V .mount := by
  have hopen : ∀ s < NumSectors, OpenFile.new w.fs.disk s = .ok ⟨w.fs.disk.header s, 0⟩ := by
    intro s hs
    simp only [OpenFile.new, FileHeader.fetchFrom_eq hs]
  have hmount : FileSystem.mount w.fs.disk = .ok ⟨w.fs.disk, ⟨w.fs.disk.header FreeMapSector, 0⟩,
      ⟨w.fs.disk.header DirectorySector, 0⟩⟩ := by
    unfold FileSystem.mount
    rw [hopen _ (by decide), ok_bind, hopen _ (by decide), ok_bind]
    rfl
  refine ⟨.nothing, ⟨⟨w.fs.disk, ⟨w.fs.disk.header FreeMapSector, 0⟩,
    ⟨w.fs.disk.header DirectorySector, 0⟩⟩, fun _ => none, w.mem⟩, fun _ => 0,
    by simp only [World.call, hmount], rfl, ?_⟩
  exact ⟨⟨⟨rfl, rfl, hs.sound.laid⟩, hs.sound.consistent⟩, hs.names, hs.content, rfl,
    fun h x hx => (by cases hx), hs.mem⟩

theorem close (hs : w.Shows V) (h : ℕ) : Answers w V (.close h) := by
  refine ⟨.nothing, _, fun _ => 0, rfl, rfl, hs.sound, hs.names, hs.content, ?_,
    fun h' x hx => ?_, hs.mem⟩
  · simp only [Volume.call, hs.handles]
    funext h'
    by_cases hh : h' = h
    · subst hh
      simp
    · simp [hh]
  · dsimp only at hx
    by_cases hh : h' = h
    · subst hh
      rw [Function.update_self] at hx
      cases hx
    · rw [Function.update_of_ne hh] at hx
      exact hs.opened h' x hx

theorem call (hs : w.Shows V) {c : Call} (hc : c.Sized) : Answers w V c := by
  cases c with
  | create name initialSize raw =>
      obtain ⟨n, rfl⟩ := Int.eq_ofNat_of_zero_le hc.1
      exact hs.create name (Int.ofNat_le.1 hc.2) raw
  | remove name raw => exact hs.remove name raw
  | openFile h name raw => exact hs.openFile h name raw
  | use h op => exact hs.use h op
  | close h => exact hs.close h
  | mount => exact hs.mount

theorem run (hs : w.Shows V) {calls : List Call} (hcalls : ∀ c ∈ calls, c.Sized) :
    ∃ answers w' V', w.run calls = .ok (answers, w') ∧ V.Runs calls answers V' ∧ w'.Shows V' := by
  induction calls generalizing w V with
  | nil => exact ⟨[], w, V, rfl, .nil V, hs⟩
  | cons c calls ih =>
      obtain ⟨answer, w₁, stale, hcall, rfl, hs₁⟩ := hs.call (hcalls c List.mem_cons_self)
      obtain ⟨answers, w', V', hrun, hruns, hs'⟩ :=
        ih hs₁ fun c' hc' => hcalls c' (List.mem_cons_of_mem c hc')
      exact ⟨_, w', V', by simp only [World.run, hcall, hrun], .cons stale hruns, hs'⟩

end World.Shows

theorem formatted (disk : Disk) (raw : ℕ → ℕ → Byte) (mem : ℕ → Byte) :
    ∃ fs, FileSystem.format disk raw = .ok fs ∧
      World.Shows ⟨fs, fun _ => none, mem⟩ (Volume.empty mem) := by
  obtain ⟨fs, hformat, hsound, hunused, -⟩ := format_empty disk raw
  have hnone : ∀ {i : ℕ} {R : Prop}, i < NumDirEntries →
      fs.disk.directory.inUse i = true → R := fun hi huse =>
    absurd ((hunused _ hi).symm.trans huse) (by decide)
  refine ⟨fs, hformat, hsound, fun n => ?_, fun i hi huse => hnone hi huse, rfl,
    fun h x hx => (by cases hx), rfl⟩
  refine iff_of_false (Finset.notMem_empty n) ?_
  rintro ⟨i, hi, huse, -⟩
  exact hnone hi huse

/-- Whatever is on the disk before it is formatted, and however the programs create, open, use,
close and remove files and Nachos is started again: every call returns, answers as on a set of named
arrays, and leaves the disk as it is for these. -/
theorem file_system_maps_names (disk : Disk) (raw : ℕ → ℕ → Byte) (mem : ℕ → Byte) :
    ∃ fs, FileSystem.format disk raw = .ok fs ∧
      ∀ calls : List Call, (∀ c ∈ calls, c.Sized) → ∃ answers w V,
        World.run ⟨fs, fun _ => none, mem⟩ calls = .ok (answers, w) ∧
          (Volume.empty mem).Runs calls answers V ∧ w.Shows V := by
  obtain ⟨fs, hformat, hshows⟩ := formatted disk raw mem
  exact ⟨fs, hformat, fun calls hcalls => World.Shows.run hshows hcalls⟩

/-- A file of 200 bytes. Its last byte is written before Nachos is started again, and read after
that. -/
def session : List Call :=
  [.create nameA 200 fun _ _ => 7, .create nameA 0 fun _ _ => 7, .openFile 0 nameA fun _ _ => 7,
    .use 0 (.writeAt 0 5 199 fun _ => 7), .mount, .openFile 1 nameA fun _ _ => 7,
    .use 1 (.readAt 10 5 199), .remove nameA fun _ _ => 7, .openFile 1 nameA fun _ _ => 7]

set_option maxRecDepth 8000 in
theorem session_answers {answers : List Answer} {V : Volume}
    (h : (Volume.empty nameA).Runs session answers V) :
    answers = [.success true, .success false, .success true, .number 1, .nothing, .success true,
      .number 1, .success true, .success false] ∧ V.mem 10 = 97 := by
  iterate 9 cases h with | cons stale h => ?_
  cases h
  exact ⟨rfl, rfl⟩

theorem file_system_maps_names_session :
    ∃ fs w, FileSystem.format (fun _ => 7) (fun _ _ => 7) = .ok fs ∧
      World.run ⟨fs, fun _ => none, nameA⟩ session =
        .ok ([.success true, .success false, .success true, .number 1, .nothing, .success true,
          .number 1, .success true, .success false], w) ∧ w.mem 10 = 97 := by
  obtain ⟨fs, hformat, hruns⟩ := file_system_maps_names (fun _ => 7) (fun _ _ => 7) nameA
  obtain ⟨answers, w, V, hrun, hvolume, hshows⟩ := hruns session (by
    simp only [session, List.forall_mem_cons, List.not_mem_nil, false_implies, implies_true,
      and_true]
    have hsizes :
        (0 ≤ (200 : ℤ) ∧ (200 : ℤ) ≤ MaxFileSize) ∧ 0 ≤ (0 : ℤ) ∧ (0 : ℤ) ≤ MaxFileSize := by
      decide
    exact ⟨hsizes.1, hsizes.2, trivial, trivial, trivial, trivial, trivial, trivial, trivial⟩)
  obtain ⟨rfl, hmem⟩ := session_answers hvolume
  exact ⟨fs, w, hformat, hrun, hshows.mem ▸ hmem⟩

end Filesys

end Nachos
