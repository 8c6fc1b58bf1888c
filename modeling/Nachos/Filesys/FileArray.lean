import Nachos.Filesys.Consistency
import Mathlib.Data.List.Pairwise

/-!
# An open file is an array with a cursor

What a program can do with a file that it has opened: `Session` holds the disk, the open file and
the memory of the program, and `FileArray` is the same with an array of bytes in the place of the
disk. The calls of a session return what they return on the array, and only the data sectors
of the file change.
-/

namespace Nachos

open Lib

namespace Filesys

/-- A call on an open file, or a change of its own memory by the program. -/
inductive FileOp where
  | readAt (into : ℕ) (numBytes : ℤ) (position : ℕ)
  | writeAt (source : ℕ) (numBytes : ℤ) (position : ℕ) (raw : ℕ → Byte)
  | read (into : ℕ) (numBytes : ℤ)
  | write (source : ℕ) (numBytes : ℤ) (raw : ℕ → Byte)
  | seek (position : ℕ)
  | store (into len : ℕ) (data : ℕ → Byte)

structure Session where
  disk : Disk
  file : OpenFile
  mem : ℕ → Byte

namespace Session

/-- One call, with the number that it returns. -/
def call (s : Session) : FileOp → Except Fault (ℕ × Session)
  | .readAt into numBytes position =>
      match s.file.readAt s.disk s.mem into numBytes position with
      | .error e => .error e
      | .ok (result, mem) => .ok (result, { s with mem := mem })
  | .writeAt source numBytes position raw =>
      match s.file.writeAt s.disk raw (fun k => s.mem (source + k)) numBytes position with
      | .error e => .error e
      | .ok (result, disk) => .ok (result, { s with disk := disk })
  | .read into numBytes =>
      match s.file.read s.disk s.mem into numBytes with
      | .error e => .error e
      | .ok (result, mem, file) => .ok (result, { s with mem := mem, file := file })
  | .write source numBytes raw =>
      match s.file.write s.disk raw (fun k => s.mem (source + k)) numBytes with
      | .error e => .error e
      | .ok (result, disk, file) => .ok (result, { s with disk := disk, file := file })
  | .seek position => .ok (0, { s with file := s.file.seek position })
  | .store into len data => .ok (0, { s with mem := splice s.mem into len data })

/-- The calls one after the other, with the numbers that they return. -/
def run : Session → List FileOp → Except Fault (List ℕ × Session)
  | s, [] => .ok ([], s)
  | s, op :: ops =>
      match s.call op with
      | .error e => .error e
      | .ok (result, s') =>
          match run s' ops with
          | .error e => .error e
          | .ok (results, s'') => .ok (result :: results, s'')

end Session

/-- An array of bytes with a cursor, and the memory of the program that uses it. -/
structure FileArray where
  bytes : ℕ → Byte
  cursor : ℕ
  mem : ℕ → Byte

namespace FileArray

open OpenFile (moved)

/-- The transfer of `numBytes` bytes at `position` to the memory. -/
def readAt (a : FileArray) (length : ℤ) (into : ℕ) (numBytes : ℤ) (position : ℕ) : FileArray :=
  { a with mem := splice a.mem into (moved length numBytes position) fun k =>
    a.bytes (position + k) }

/-- The transfer of `numBytes` bytes at `position` from the memory. -/
def writeAt (a : FileArray) (length : ℤ) (source : ℕ) (numBytes : ℤ) (position : ℕ) : FileArray :=
  { a with
    bytes := splice a.bytes position (moved length numBytes position) fun k => a.mem (source + k) }

/-- One call on an array of the length `length`. -/
def call (length : ℤ) (a : FileArray) : FileOp → ℕ × FileArray
  | .readAt into numBytes position =>
      (moved length numBytes position, a.readAt length into numBytes position)
  | .writeAt source numBytes position _ =>
      (moved length numBytes position, a.writeAt length source numBytes position)
  | .read into numBytes =>
      (moved length numBytes a.cursor,
        { a.readAt length into numBytes a.cursor with
          cursor := a.cursor + moved length numBytes a.cursor })
  | .write source numBytes _ =>
      (moved length numBytes a.cursor,
        { a.writeAt length source numBytes a.cursor with
          cursor := a.cursor + moved length numBytes a.cursor })
  | .seek position => (0, { a with cursor := position })
  | .store into len data => (0, { a with mem := splice a.mem into len data })

def run (length : ℤ) : FileArray → List FileOp → List ℕ × FileArray
  | a, [] => ([], a)
  | a, op :: ops =>
      let (result, a') := a.call length op
      let (results, a'') := run length a' ops
      (result :: results, a'')

end FileArray

/-! ## Refinement -/

/-- The session uses a file whose bytes, cursor and memory are those of the array. -/
structure Session.Shows (s : Session) (h : FileHeader) (a : FileArray) : Prop where
  hdr : s.file.hdr = h
  bytes : ∀ k : ℕ, k < h.fileLength → h.contents s.disk k = a.bytes k
  cursor : s.file.seekPosition = a.cursor
  mem : s.mem = a.mem

namespace Session.Shows

variable {s : Session} {h : FileHeader} {a : FileArray}

theorem moved_lt {length numBytes : ℤ} {position k : ℕ}
    (hk : k < OpenFile.moved length numBytes position) : (position + k : ℕ) < length := by
  unfold OpenFile.moved at hk
  omega

theorem readAt (hs : s.Shows h a) (hw : h.WellFormed) (into : ℕ) (numBytes : ℤ) (position : ℕ) :
    s.file.readAt s.disk s.mem into numBytes position =
      .ok (OpenFile.moved h.fileLength numBytes position,
        (a.readAt h.fileLength into numBytes position).mem) := by
  rw [OpenFile.readAt_eq (hs.hdr ▸ hw), hs.hdr, hs.mem]
  unfold FileArray.readAt
  rw [splice_congr fun k hk => hs.bytes (position + k) (moved_lt hk)]

theorem writeAt (hs : s.Shows h a) (hw : h.WellFormed) (raw : ℕ → Byte) (source : ℕ)
    (numBytes : ℤ) (position : ℕ) :
    ∃ disk, s.file.writeAt s.disk raw (fun k => s.mem (source + k)) numBytes position =
        .ok (OpenFile.moved h.fileLength numBytes position, disk) ∧
      (∀ k : ℕ, k < h.fileLength → h.contents disk k =
        (a.writeAt h.fileLength source numBytes position).bytes k) ∧
        ∀ t, t ∉ h.sectors → SameSector s.disk disk t := by
  have hwrite := OpenFile.writeAt_spec (hs.hdr ▸ hw) s.disk raw (fun k => s.mem (source + k))
    numBytes position
  rw [hs.hdr] at hwrite
  obtain ⟨disk, hdisk, hbytes, hsame⟩ := hwrite
  refine ⟨disk, hdisk, fun k hk => ?_, hsame⟩
  rw [hbytes k hk, hs.mem]
  unfold FileArray.writeAt splice
  simp only [hs.bytes k hk]

/-- A call returns what it returns on the array. -/
theorem call (hs : s.Shows h a) (hw : h.WellFormed) (op : FileOp) :
    ∃ s', s.call op = .ok ((a.call h.fileLength op).1, s') ∧
      s'.Shows h (a.call h.fileLength op).2 ∧ ∀ t, t ∉ h.sectors → SameSector s.disk s'.disk t := by
  cases op with
  | readAt into numBytes position =>
      refine ⟨⟨s.disk, s.file, (a.readAt h.fileLength into numBytes position).mem⟩, ?_,
        ⟨hs.hdr, hs.bytes, hs.cursor, rfl⟩, fun t _ k _ => rfl⟩
      simp only [Session.call, hs.readAt hw]
      rfl
  | writeAt source numBytes position raw =>
      obtain ⟨disk, hdisk, hbytes, hsame⟩ := hs.writeAt hw raw source numBytes position
      refine ⟨⟨disk, s.file, s.mem⟩, ?_, ⟨hs.hdr, hbytes, hs.cursor, hs.mem⟩, hsame⟩
      simp only [Session.call, hdisk]
      rfl
  | read into numBytes =>
      have hread := hs.readAt hw into numBytes a.cursor
      refine ⟨⟨s.disk, ⟨s.file.hdr, a.cursor + OpenFile.moved h.fileLength numBytes a.cursor⟩,
        (a.readAt h.fileLength into numBytes a.cursor).mem⟩, ?_,
        ⟨hs.hdr, hs.bytes, rfl, rfl⟩, fun t _ k _ => rfl⟩
      simp only [Session.call, OpenFile.read, hs.cursor, hread]
      rfl
  | write source numBytes raw =>
      obtain ⟨disk, hdisk, hbytes, hsame⟩ := hs.writeAt hw raw source numBytes a.cursor
      refine ⟨⟨disk, ⟨s.file.hdr, a.cursor + OpenFile.moved h.fileLength numBytes a.cursor⟩, s.mem⟩,
        ?_, ⟨hs.hdr, hbytes, rfl, hs.mem⟩, hsame⟩
      simp only [Session.call, OpenFile.write, hs.cursor, hdisk]
      rfl
  | seek position => exact ⟨_, rfl, ⟨hs.hdr, hs.bytes, rfl, hs.mem⟩, fun t _ k _ => rfl⟩
  | store into len data =>
      refine ⟨_, rfl, ⟨hs.hdr, hs.bytes, hs.cursor, ?_⟩, fun t _ k _ => rfl⟩
      rw [hs.mem]
      rfl

theorem run (hs : s.Shows h a) (hw : h.WellFormed) (ops : List FileOp) :
    ∃ s', s.run ops = .ok ((a.run h.fileLength ops).1, s') ∧
      s'.Shows h (a.run h.fileLength ops).2 ∧ ∀ t, t ∉ h.sectors → SameSector s.disk s'.disk t := by
  induction ops generalizing s a with
  | nil => exact ⟨s, rfl, hs, fun t _ k _ => rfl⟩
  | cons op ops ih =>
      obtain ⟨s₁, hcall, hs₁, hsame₁⟩ := hs.call hw op
      obtain ⟨s₂, hrun, hs₂, hsame₂⟩ := ih hs₁
      refine ⟨s₂, ?_, hs₂, fun t ht => (hsame₁ t ht).trans (hsame₂ t ht)⟩
      simp only [Session.run, hcall, hrun]
      rfl

end Session.Shows

/-! ## Sequential copies -/

/-- The loop of `Copy`: `data` is written to the file in chunks, each of which is in the buffer
first. A chunk comes with what is in the buffer of `WriteAt`. -/
def copyIn (data : ℕ → Byte) (buffer : ℕ) : ℕ → List (ℕ × (ℕ → Byte)) → List FileOp
  | _, [] => []
  | done, (n, raw) :: chunks =>
      .store buffer n (fun k => data (done + k)) :: .write buffer n raw ::
        copyIn data buffer (done + n) chunks

/-- The file is read in chunks, one after the other into the memory. -/
def copyOut : ℕ → List ℕ → List FileOp
  | _, [] => []
  | into, n :: chunks => .read into n :: copyOut (into + n) chunks

namespace FileArray

open OpenFile (moved)

/-- Two transfers that follow each other move as much as one. -/
theorem moved_add (length : ℤ) (m n position : ℕ) :
    moved length (m + n : ℕ) position =
      moved length m position + moved length n (position + moved length m position) := by
  unfold OpenFile.moved
  omega

/-- The second transfer moves nothing, unless the first has been complete. -/
theorem moved_first {length : ℤ} {m n position k : ℕ}
    (hk : k < moved length n (position + moved length m position)) :
    moved length m position = m := by
  unfold OpenFile.moved at *
  omega

/-- A sequential copy to the file does not depend on the chunks. -/
theorem run_copyIn (length : ℤ) (data : ℕ → Byte) (buffer done : ℕ)
    (chunks : List (ℕ × (ℕ → Byte))) (a : FileArray) :
    (a.run length (copyIn data buffer done chunks)).2.bytes =
        splice a.bytes a.cursor (moved length (chunks.map Prod.fst).sum a.cursor)
          (fun k => data (done + k)) ∧
      (a.run length (copyIn data buffer done chunks)).2.cursor =
        a.cursor + moved length (chunks.map Prod.fst).sum a.cursor := by
  induction chunks generalizing done a with
  | nil =>
      have hnone : moved length ((0 : ℕ) : ℤ) a.cursor = 0 := OpenFile.moved_of_check (.inl le_rfl)
      simp only [copyIn, run, List.map_nil, List.sum_nil]
      rw [hnone, splice_zero]
      exact ⟨rfl, rfl⟩
  | cons chunk chunks ih =>
      obtain ⟨n, raw⟩ := chunk
      let a₁ : FileArray := ⟨splice a.bytes a.cursor (moved length n a.cursor) fun k =>
        data (done + k),
        a.cursor + moved length n a.cursor, splice a.mem buffer n fun k => data (done + k)⟩
      have hchunk : (a.run length (copyIn data buffer done ((n, raw) :: chunks))).2 =
          (a₁.run length (copyIn data buffer (done + n) chunks)).2 := by
        have hwritten : splice a.bytes a.cursor (moved length n a.cursor)
            (fun k => splice a.mem buffer n (fun k => data (done + k)) (buffer + k)) =
              splice a.bytes a.cursor (moved length n a.cursor) fun k => data (done + k) := by
          refine splice_congr fun k hk => splice_add ?_
          unfold OpenFile.moved at hk
          omega
        simp only [copyIn, run, call, writeAt]
        rw [hwritten]
      obtain ⟨hbytes, hcursor⟩ := ih (done + n) a₁
      rw [hchunk, hbytes, hcursor]
      simp only [List.map_cons, List.sum_cons, a₁]
      rw [moved_add, splice_append, Nat.add_assoc]
      refine ⟨splice_congr fun k hk => ?_, rfl⟩
      rw [moved_first hk, Nat.add_assoc]

/-- A sequential copy from the file does not depend on the chunks. -/
theorem run_copyOut (length : ℤ) (into : ℕ) (chunks : List ℕ) (a : FileArray) :
    (a.run length (copyOut into chunks)).2.mem =
        splice a.mem into (moved length chunks.sum a.cursor) (fun k => a.bytes (a.cursor + k)) ∧
      (a.run length (copyOut into chunks)).2.cursor =
        a.cursor + moved length chunks.sum a.cursor := by
  induction chunks generalizing into a with
  | nil =>
      have hnone : moved length ((0 : ℕ) : ℤ) a.cursor = 0 := OpenFile.moved_of_check (.inl le_rfl)
      simp only [copyOut, run, List.sum_nil]
      rw [hnone, splice_zero]
      exact ⟨rfl, rfl⟩
  | cons n chunks ih =>
      obtain ⟨hmem, hcursor⟩ := ih (into + n) { a.readAt length into n a.cursor with
        cursor := a.cursor + moved length n a.cursor }
      simp only [copyOut, run, call]
      rw [hmem, hcursor, List.sum_cons, moved_add, splice_append, Nat.add_assoc]
      simp only [readAt, and_true]
      by_cases hfull : moved length n a.cursor = n
      · rw [hfull]
        simp only [Nat.add_assoc]
      · -- the first read has met the end of the file
        have hend : moved length chunks.sum (a.cursor + moved length n a.cursor) = 0 := by
          by_contra hne
          exact hfull (moved_first (Nat.pos_of_ne_zero hne))
        rw [hend, splice_zero, splice_zero]

end FileArray

/-! ## Files of the file system -/

namespace Consistent

variable {disk : Disk} {i j t : ℕ}

/-- The data sectors of a file are neither in another file nor headers, and not in the free map or
the directory. -/
theorem sectors_apart (h : Consistent disk) (hi : i < NumDirEntries)
    (huse : disk.directory.inUse i = true) (ht : t ∈ (disk.fileHeader i).sectors) :
    t ∉ disk.systemSectors ∧ t ≠ disk.headerSector i ∧
      ∀ j < NumDirEntries, j ≠ i → t ∉ disk.entrySectors j := by
  have hentry : disk.entrySectors i = disk.headerSector i :: (disk.fileHeader i).sectors :=
    if_pos huse
  have hmem : t ∈ disk.entrySectors i := hentry ▸ List.mem_cons_of_mem _ ht
  refine ⟨h.not_mem_system_of_mem_entry hi hmem, ?_, ?_⟩
  · rintro rfl
    have hnodup := h.entry_nodup hi
    rw [hentry, List.nodup_cons] at hnodup
    exact hnodup.1 ht
  · intro j hj hne hmem'
    have hfiles := List.nodup_flatMap.1 (List.nodup_append.1 h.nodup).2.1
    have hsymm : Std.Symm (Function.onFun List.Disjoint disk.entrySectors) :=
      ⟨fun _ _ hd => hd.symm⟩
    exact hfiles.2.forall (List.mem_range.2 hj) (List.mem_range.2 hi) hne hmem' hmem

end Consistent

/-- The length of the file in the directory entry `i`. -/
def Disk.fileLength (disk : Disk) (i : ℕ) : ℤ := (disk.fileHeader i).fileLength

/-- A session with the file in the directory entry `i`. -/
def Disk.session (disk : Disk) (i cursor : ℕ) (mem : ℕ → Byte) : Session :=
  ⟨disk, ⟨disk.fileHeader i, cursor⟩, mem⟩

/-- The file in the directory entry `i`, as an array. -/
def Disk.fileArray (disk : Disk) (i cursor : ℕ) (mem : ℕ → Byte) : FileArray :=
  ⟨(disk.fileHeader i).contents disk, cursor, mem⟩

/-- Every sequence of calls on an open file returns what it returns on an array of as many bytes as
the file has, and leaves the file with the bytes of the array. It changes no sector but the data
sectors of the file, and the chunks of a sequential copy do not matter. -/
theorem open_file_byte_array {disk : Disk} (h : Consistent disk) {i : ℕ} (hi : i < NumDirEntries)
    (huse : disk.directory.inUse i = true) :
    OpenFile.new disk (disk.headerSector i) = .ok ⟨disk.fileHeader i, 0⟩ ∧
      ∀ (cursor : ℕ) (mem : ℕ → Byte),
        (∀ ops : List FileOp, ∃ s,
          (disk.session i cursor mem).run ops =
              .ok (((disk.fileArray i cursor mem).run (disk.fileLength i) ops).1, s) ∧
            s.Shows (disk.fileHeader i)
              ((disk.fileArray i cursor mem).run (disk.fileLength i) ops).2 ∧
            (∀ t, t ∉ (disk.fileHeader i).sectors → SameSector disk s.disk t) ∧
            (∀ t ∈ disk.systemSectors, SameSector disk s.disk t) ∧
            SameSector disk s.disk (disk.headerSector i) ∧
            ∀ j < NumDirEntries, j ≠ i → ∀ t ∈ disk.entrySectors j, SameSector disk s.disk t) ∧
        (∀ (data : ℕ → Byte) (buffer : ℕ) (chunks : List (ℕ × (ℕ → Byte))) (total : ℕ),
          total = OpenFile.moved (disk.fileLength i) (chunks.map Prod.fst).sum cursor →
            ∃ results s, (disk.session i cursor mem).run (copyIn data buffer 0 chunks) =
                .ok (results, s) ∧
              (∀ k : ℕ, k < disk.fileLength i → (disk.fileHeader i).contents s.disk k =
                splice ((disk.fileHeader i).contents disk) cursor total data k) ∧
              s.file.seekPosition = cursor + total) ∧
        ∀ (into : ℕ) (chunks : List ℕ) (total : ℕ),
          total = OpenFile.moved (disk.fileLength i) chunks.sum cursor →
            ∃ results s, (disk.session i cursor mem).run (copyOut into chunks) = .ok (results, s) ∧
              s.mem = splice mem into total
                (fun k => (disk.fileHeader i).contents disk (cursor + k)) ∧
              s.file.seekPosition = cursor + total := by
  have hw := h.file_wellFormed hi huse
  have hlt : disk.headerSector i < NumSectors := by
    refine h.lt_of_mem (Consistent.mem_entry hi ?_)
    rw [Disk.entrySectors, if_pos huse]
    exact List.mem_cons_self
  refine ⟨?_, fun cursor mem => ?_⟩
  · simp only [OpenFile.new, FileHeader.fetchFrom_eq hlt]
    rfl
  · have hs₀ : (disk.session i cursor mem).Shows (disk.fileHeader i)
        (disk.fileArray i cursor mem) :=
      ⟨rfl, fun _ _ => rfl, rfl, rfl⟩
    refine ⟨fun ops => ?_, ?_, ?_⟩
    · obtain ⟨s, hrun, hshows, hsame⟩ := hs₀.run hw ops
      refine ⟨s, hrun, hshows, hsame, ?_, ?_, ?_⟩
      · exact fun t ht => hsame t fun hmem => (h.sectors_apart hi huse hmem).1 ht
      · exact hsame _ fun hmem => (h.sectors_apart hi huse hmem).2.1 rfl
      · exact fun j hj hne t ht => hsame t fun hmem =>
          (h.sectors_apart hi huse hmem).2.2 j hj hne ht
    · rintro data buffer chunks _ rfl
      obtain ⟨s, hrun, hshows, -⟩ := hs₀.run hw (copyIn data buffer 0 chunks)
      obtain ⟨hbytes, hcursor⟩ := FileArray.run_copyIn (disk.fileHeader i).fileLength data buffer 0
        chunks (disk.fileArray i cursor mem)
      refine ⟨_, s, hrun, fun k hk => ?_, hshows.cursor.trans hcursor⟩
      rw [hshows.bytes k hk, hbytes]
      simp only [Nat.zero_add, Disk.fileArray, Disk.fileLength]
    · rintro into chunks _ rfl
      obtain ⟨s, hrun, hshows, -⟩ := hs₀.run hw (copyOut into chunks)
      obtain ⟨hmem, hcursor⟩ := FileArray.run_copyOut (disk.fileHeader i).fileLength into chunks
        (disk.fileArray i cursor mem)
      exact ⟨_, s, hrun, hshows.mem.trans hmem, hshows.cursor.trans hcursor⟩

/-- A disk with one file, of three bytes. -/
def smallDisk : Disk := fun a =>
  -- the headers of the free map and of the directory
  if a = 0 then 128 else if a = 4 then 1 else if a = 8 then 2 else
  if a = 128 then 200 else if a = 132 then 2 else if a = 136 then 3 else if a = 140 then 4 else
  -- the free map, and the directory entry of the file
  if a = 256 then 127 else
  if a = 384 then 1 else if a = 388 then 5 else if a = 392 then 97 else
  -- the header of the file
  if a = 640 then 3 else if a = 644 then 1 else if a = 648 then 6 else 0

theorem smallDisk_usedSectors : smallDisk.usedSectors = [0, 1, 2, 3, 4, 5, 6] := by
  decide +kernel

theorem smallDisk_freeMap {w : ℕ} (hw : w < 32) :
    smallDisk.freeMap.map w = if w = 0 then 127#32 else 0#32 := by
  have hwords : ∀ w < 32, smallDisk.freeMap.map w = if w = 0 then 127#32 else 0#32 := by
    decide +kernel
  exact hwords w hw

theorem smallDisk_consistent : Consistent smallDisk where
  mapHeader := by
    unfold FileHeader.Exact
    decide +kernel
  dirHeader := by
    unfold FileHeader.Exact
    decide +kernel
  exact := by
    unfold FileHeader.Exact
    decide +kernel
  nodup := by
    rw [smallDisk_usedSectors]
    decide
  marked := by
    intro s
    rw [smallDisk_usedSectors]
    by_cases hs : s < NumSectors
    · have hbits : ∀ s < NumSectors, s ∈ [0, 1, 2, 3, 4, 5, 6] ↔
          (if s / 32 = 0 then 127#32 else 0#32).getLsbD (s % 32) = true := by
        decide +kernel
      have hword : smallDisk.freeMap.map (s / bitsInWord) = _ :=
        smallDisk_freeMap (Nat.div_lt_of_lt_mul hs)
      rw [hbits s hs, BitMap.bit, hword]
      exact (and_iff_right hs).symm
    · refine iff_of_false (fun hmem => ?_) fun h => hs h.1
      have hsmall : ∀ s ∈ [0, 1, 2, 3, 4, 5, 6], s < NumSectors := by decide
      exact hs (hsmall s hmem)
  names := by
    have honly : ∀ i < NumDirEntries, smallDisk.directory.inUse i = true → i = 0 := by
      decide +kernel
    intro i hi j hj hne hui huj
    exact absurd ((honly i hi hui).trans (honly j hj huj).symm) hne

theorem open_file_byte_array_three :
    ∃ s, (smallDisk.session 0 0 nameA).run [.write 0 10 nameA, .readAt 5 10 0] = .ok ([3, 3], s) ∧
      s.mem 5 = 97 ∧ s.file.seekPosition = 3 ∧ SameSector smallDisk s.disk 5 := by
  obtain ⟨-, hfile⟩ := open_file_byte_array smallDisk_consistent (i := 0) (by decide)
    (by decide +kernel)
  obtain ⟨s, hrun, hshows, -, -, hheader, -⟩ :=
    (hfile 0 nameA).1 [.write 0 10 nameA, .readAt 5 10 0]
  have hresults : ((smallDisk.fileArray 0 0 nameA).run (smallDisk.fileLength 0)
      [.write 0 10 nameA, .readAt 5 10 0]).1 = [3, 3] := by
    decide +kernel
  have hsector : smallDisk.headerSector 0 = 5 := by decide +kernel
  refine ⟨s, hresults ▸ hrun, ?_, ?_, hsector ▸ hheader⟩
  · rw [hshows.mem]
    decide +kernel
  · rw [hshows.cursor]
    decide +kernel

end Filesys

end Nachos
