import Nachos.Filesys.Disk

/-!
# Open files

`OpenFile` of `openfile.cc`. A transfer starts and ends anywhere, and the disk moves whole sectors:
`ReadAt` reads the sectors that the request meets and copies a part of them, and `WriteAt` reads
back the first and the last of them where the request covers only a part of it. What `new` leaves
in the buffer of `WriteAt` is an argument. A position is not negative.

The file as its users see it is the function `contents`: `readAt_spec` and `writeAt_spec` say what
the two calls do to it.
-/

namespace Nachos

open Lib

namespace Filesys

structure OpenFile where
  hdr : FileHeader
  seekPosition : ℕ

namespace OpenFile

/-- The constructor of `OpenFile`. -/
def new (disk : Disk) (sector : ℤ) : Except Fault OpenFile :=
  match FileHeader.fetchFrom disk sector with
  | .error e => .error e
  | .ok hdr => .ok ⟨hdr, 0⟩

/-- The bytes that a request for `numBytes` bytes moves, in a file of the length `fileLength`. -/
def clip (fileLength numBytes : ℤ) (position : ℕ) : ℕ :=
  if position + numBytes > fileLength then (fileLength - position).toNat else numBytes.toNat

/-- The loop of `ReadAt`: the `n` sectors of the file from `i` on are read into `buf`, the first of
them at `k`. -/
def readSectors (hdr : FileHeader) (disk : Disk) :
    ℕ → ℕ → ℕ → (ℕ → Byte) → Except Fault (ℕ → Byte)
  | 0, _, _, buf => .ok buf
  | n + 1, i, k, buf =>
      match hdr.byteToSector (i * SectorSize) with
      | .error e => .error e
      | .ok sector =>
          match readSector disk sector buf k with
          | .error e => .error e
          | .ok buf' => readSectors hdr disk n (i + 1) (k + SectorSize) buf'

/-- `OpenFile::ReadAt`, with `into` an index of `mem`. Its buffer is filled before it is used. -/
def readAt (f : OpenFile) (disk : Disk) (mem : ℕ → Byte) (into : ℕ) (numBytes : ℤ)
    (position : ℕ) : Except Fault (ℕ × (ℕ → Byte)) :=
  if numBytes ≤ 0 ∨ position ≥ f.hdr.fileLength then
    .ok (0, mem)
  else
    let moved := clip f.hdr.fileLength numBytes position
    let firstSector := position / SectorSize
    let lastSector := (position + moved - 1) / SectorSize
    match readSectors f.hdr disk (1 + lastSector - firstSector) firstSector 0 (fun _ => 0) with
    | .error e => .error e
    | .ok buf =>
        .ok (moved, splice mem into moved fun k => buf (position - firstSector * SectorSize + k))

/-- The loop of `WriteAt`: the `n` sectors of the file from `i` on are written from `buf`, the first
of them from `k` on. -/
def writeSectors (hdr : FileHeader) (buf : ℕ → Byte) : ℕ → ℕ → ℕ → Disk → Except Fault Disk
  | 0, _, _, disk => .ok disk
  | n + 1, i, k, disk =>
      match hdr.byteToSector (i * SectorSize) with
      | .error e => .error e
      | .ok sector =>
          match writeSector disk sector fun j => buf (k + j) with
          | .error e => .error e
          | .ok disk' => writeSectors hdr buf n (i + 1) (k + SectorSize) disk'

/-- The buffer of `WriteAt` with the first and the last sector read in, if they are to be partially
modified. -/
def readBack (f : OpenFile) (disk : Disk) (raw : ℕ → Byte) (firstSector lastSector : ℕ)
    (firstAligned lastAligned : Bool) : Except Fault (ℕ → Byte) :=
  match
    if !firstAligned then f.readAt disk raw 0 SectorSize (firstSector * SectorSize)
    else .ok (0, raw) with
  | .error e => .error e
  | .ok (_, buf) =>
      match
        if !lastAligned && (firstSector != lastSector || firstAligned) then
          f.readAt disk buf ((lastSector - firstSector) * SectorSize) SectorSize
            (lastSector * SectorSize)
        else .ok (0, buf) with
      | .error e => .error e
      | .ok (_, buf) => .ok buf

/-- `OpenFile::WriteAt`, with what `new` leaves in the buffer. -/
def writeAt (f : OpenFile) (disk : Disk) (raw : ℕ → Byte) (source : ℕ → Byte) (numBytes : ℤ)
    (position : ℕ) : Except Fault (ℕ × Disk) :=
  if numBytes ≤ 0 ∨ position ≥ f.hdr.fileLength then
    .ok (0, disk)
  else
    let moved := clip f.hdr.fileLength numBytes position
    let firstSector := position / SectorSize
    let lastSector := (position + moved - 1) / SectorSize
    let firstAligned := position == firstSector * SectorSize
    let lastAligned := position + moved == (lastSector + 1) * SectorSize
    match f.readBack disk raw firstSector lastSector firstAligned lastAligned with
    | .error e => .error e
    | .ok buf =>
        let buf' := splice buf (position - firstSector * SectorSize) moved source
        match writeSectors f.hdr buf' (1 + lastSector - firstSector) firstSector 0 disk with
        | .error e => .error e
        | .ok disk' => .ok (moved, disk')

/-- `OpenFile::Seek`. -/
def seek (f : OpenFile) (position : ℕ) : OpenFile := { f with seekPosition := position }

/-- `OpenFile::Read`. -/
def read (f : OpenFile) (disk : Disk) (mem : ℕ → Byte) (into : ℕ) (numBytes : ℤ) :
    Except Fault (ℕ × (ℕ → Byte) × OpenFile) :=
  match f.readAt disk mem into numBytes f.seekPosition with
  | .error e => .error e
  | .ok (result, mem') => .ok (result, mem', { f with seekPosition := f.seekPosition + result })

/-- `OpenFile::Write`. -/
def write (f : OpenFile) (disk : Disk) (raw : ℕ → Byte) (source : ℕ → Byte) (numBytes : ℤ) :
    Except Fault (ℕ × Disk × OpenFile) :=
  match f.writeAt disk raw source numBytes f.seekPosition with
  | .error e => .error e
  | .ok (result, disk') => .ok (result, disk', { f with seekPosition := f.seekPosition + result })

end OpenFile

/-! ## Contents -/

/-- The bytes of the file. -/
def FileHeader.contents (h : FileHeader) (disk : Disk) (k : ℕ) : Byte :=
  disk ((h.dataSectors (k / SectorSize)).toNat * SectorSize + k % SectorSize)

/-- A header with as many data sectors as its file needs, all of them different. -/
structure FileHeader.WellFormed (h : FileHeader) : Prop where
  numSectors_le : h.numSectors.toNat ≤ NumDirect
  numBytes_nonneg : 0 ≤ h.numBytes.toInt
  numBytes_le : h.numBytes.toInt ≤ h.numSectors.toNat * SectorSize
  onDisk : ∀ s ∈ h.sectors, s < NumSectors
  nodup : h.sectors.Nodup

namespace FileHeader

variable {h : FileHeader} {i j : ℕ}

theorem mem_sectors {s : ℕ} :
    s ∈ h.sectors ↔ ∃ i < h.numSectors.toNat, (h.dataSectors i).toNat = s := by
  simp [sectors]

theorem WellFormed.lt (hw : h.WellFormed) (hi : i < h.numSectors.toNat) :
    (h.dataSectors i).toNat < NumSectors :=
  hw.onDisk _ (mem_sectors.2 ⟨i, hi, rfl⟩)

theorem WellFormed.inj (hw : h.WellFormed) (hi : i < h.numSectors.toNat)
    (hj : j < h.numSectors.toNat) (heq : (h.dataSectors i).toNat = (h.dataSectors j).toNat) :
    i = j :=
  List.inj_on_of_nodup_map hw.nodup (List.mem_range.2 hi) (List.mem_range.2 hj) heq

theorem toInt_of_lt {w : BitVec 32} (hw : w.toNat < 2 ^ 31) : w.toInt = w.toNat := by
  rw [BitVec.toInt_eq_toNat_cond, if_pos (by omega)]

theorem WellFormed.byteToSector_eq (hw : h.WellFormed) (hi : i < h.numSectors.toNat) :
    h.byteToSector (i * SectorSize) = .ok ((h.dataSectors i).toNat : ℕ) := by
  have hdiv : i * SectorSize / SectorSize = i := Nat.mul_div_cancel i (by decide)
  have hlt := hw.lt hi
  rw [NumSectors] at hlt
  rw [byteToSector, hdiv, if_pos (hi.trans_le hw.numSectors_le), toInt_of_lt (by omega)]

end FileHeader

namespace OpenFile

variable {f : OpenFile} {disk : Disk}

theorem readSectors_eq (hw : f.hdr.WellFormed) {n i : ℕ} (k : ℕ) (buf : ℕ → Byte)
    (hn : i + n ≤ f.hdr.numSectors.toNat) :
    readSectors f.hdr disk n i k buf =
      .ok (splice buf k (n * SectorSize) fun j => f.hdr.contents disk (i * SectorSize + j)) := by
  induction n generalizing i k buf with
  | zero => rw [readSectors, Nat.zero_mul, splice_zero]
  | succ n ih =>
      have hi : i < f.hdr.numSectors.toNat := by omega
      have hfirst : ∀ j < SectorSize, disk ((f.hdr.dataSectors i).toNat * SectorSize + j) =
          f.hdr.contents disk (i * SectorSize + j) := by
        intro j hj
        unfold FileHeader.contents
        have hdiv : (i * SectorSize + j) / SectorSize = i := by
          rw [SectorSize] at hj ⊢
          omega
        have hmod : (i * SectorSize + j) % SectorSize = j := by
          rw [SectorSize] at hj ⊢
          omega
        rw [hdiv, hmod]
      have hlen : (n + 1) * SectorSize = SectorSize + n * SectorSize := by
        rw [Nat.add_mul, Nat.one_mul, Nat.add_comm]
      simp only [readSectors, hw.byteToSector_eq hi, readSector_eq (hw.lt hi)]
      rw [ih _ _ (by omega), splice_congr hfirst, hlen, splice_append]
      simp only [Nat.add_mul, Nat.one_mul, Nat.add_assoc]

/-- The bytes that a transfer of `numBytes` bytes at `position` moves. -/
def moved (fileLength numBytes : ℤ) (position : ℕ) : ℕ :=
  (min numBytes (fileLength - position)).toNat

theorem moved_of_check {fileLength numBytes : ℤ} {position : ℕ}
    (h : numBytes ≤ 0 ∨ position ≥ fileLength) : moved fileLength numBytes position = 0 := by
  unfold moved
  omega

theorem moved_all {n : ℕ} {fileLength : ℤ} (h : n ≤ fileLength) : moved fileLength n 0 = n := by
  unfold moved
  omega

/-- A request that is not refused meets the sectors of the file only. -/
theorem clip_spec {fileLength numBytes : ℤ} {position : ℕ}
    (h : ¬ (numBytes ≤ 0 ∨ position ≥ fileLength)) :
    clip fileLength numBytes position = moved fileLength numBytes position ∧
      0 < moved fileLength numBytes position ∧
        (position + moved fileLength numBytes position : ℕ) ≤ fileLength := by
  unfold clip moved
  split
  · omega
  · omega

/-- `ReadAt` copies the bytes of the file. -/
theorem readAt_eq (hw : f.hdr.WellFormed) (mem : ℕ → Byte) (into : ℕ) (numBytes : ℤ)
    (position : ℕ) :
    f.readAt disk mem into numBytes position =
      .ok (moved f.hdr.fileLength numBytes position,
        splice mem into (moved f.hdr.fileLength numBytes position)
          fun k => f.hdr.contents disk (position + k)) := by
  unfold readAt
  by_cases h : numBytes ≤ 0 ∨ position ≥ f.hdr.fileLength
  · rw [if_pos h, moved_of_check h, splice_zero]
  · obtain ⟨hclip, hpos, hle⟩ := clip_spec h
    rw [if_neg h, hclip]
    generalize moved f.hdr.fileLength numBytes position = n at hpos hle
    have hlen : f.hdr.fileLength ≤ f.hdr.numSectors.toNat * SectorSize := hw.numBytes_le
    have hfirst : position / SectorSize * SectorSize ≤ position := Nat.div_mul_le_self _ _
    simp only
    rw [readSectors_eq hw]
    · simp only [Except.ok.injEq, Prod.mk.injEq, true_and]
      refine splice_congr fun k hk => ?_
      have hlast : position - position / SectorSize * SectorSize + k <
          (1 + (position + n - 1) / SectorSize - position / SectorSize) * SectorSize := by
        rw [SectorSize]
        omega
      rw [splice_front hlast]
      exact congrArg _ (by omega)
    · rw [SectorSize] at hlen ⊢
      omega

theorem writeSectors_spec (hw : f.hdr.WellFormed) {n i : ℕ} (k : ℕ) (buf : ℕ → Byte) (disk : Disk)
    (hn : i + n ≤ f.hdr.numSectors.toNat) :
    ∃ disk', writeSectors f.hdr buf n i k disk = .ok disk' ∧
      (∀ j < n, ∀ b < SectorSize,
        disk' ((f.hdr.dataSectors (i + j)).toNat * SectorSize + b) = buf (k + j * SectorSize + b)) ∧
        ∀ s, (∀ j < n, s ≠ (f.hdr.dataSectors (i + j)).toNat) → SameSector disk disk' s := by
  induction n generalizing i k disk with
  | zero => exact ⟨disk, rfl, fun j hj => absurd hj (Nat.not_lt_zero j), fun s _ b _ => rfl⟩
  | succ n ih =>
      have hi : i < f.hdr.numSectors.toNat := by omega
      obtain ⟨disk₁, h₁, hdata, hsame⟩ := writeSector_spec (hw.lt hi) disk fun j => buf (k + j)
      obtain ⟨disk₂, h₂, hdata', hsame'⟩ := ih (i := i + 1) (k + SectorSize) disk₁ (by omega)
      refine ⟨disk₂, ?_, ?_, ?_⟩
      · simp only [writeSectors, hw.byteToSector_eq hi, h₁, h₂]
      · intro j hj b hb
        cases j with
        | zero =>
            -- the later sectors are other ones
            have hother : ∀ j < n, (f.hdr.dataSectors i).toNat ≠
                (f.hdr.dataSectors (i + 1 + j)).toNat := by
              intro j hj heq
              have := hw.inj hi (by omega) heq
              omega
            rw [Nat.add_zero, Nat.zero_mul, Nat.add_zero, hsame' _ hother b hb, hdata b hb]
        | succ j =>
            have hj' := hdata' j (by omega) b hb
            rw [Nat.add_assoc i, Nat.add_comm 1 j] at hj'
            rw [hj', Nat.add_mul, Nat.one_mul]
            exact congrArg buf (by omega)
      · intro s hs
        refine (hsame s (hs 0 (by omega))).trans (hsame' s fun j hj => ?_)
        rw [Nat.add_assoc, Nat.add_comm 1 j]
        exact hs (j + 1) (by omega)

/-- The sectors that are written are a block of the file. -/
theorem contents_writeSectors (hw : f.hdr.WellFormed) {n i : ℕ} (buf : ℕ → Byte) (disk : Disk)
    (hn : i + n ≤ f.hdr.numSectors.toNat) :
    ∃ disk', writeSectors f.hdr buf n i 0 disk = .ok disk' ∧
      (∀ k : ℕ, k < f.hdr.fileLength → f.hdr.contents disk' k =
        splice (f.hdr.contents disk) (i * SectorSize) (n * SectorSize) buf k) ∧
        ∀ s, s ∉ f.hdr.sectors → SameSector disk disk' s := by
  obtain ⟨disk', hdisk, hdata, hsame⟩ := writeSectors_spec hw 0 buf disk hn
  refine ⟨disk', hdisk, ?_, ?_⟩
  · intro k hk
    have hmod : k % SectorSize < SectorSize := Nat.mod_lt k (by decide)
    have hsector : k / SectorSize < f.hdr.numSectors.toNat := by
      have hlen : f.hdr.fileLength ≤ f.hdr.numSectors.toNat * SectorSize := hw.numBytes_le
      rw [SectorSize] at hlen ⊢
      omega
    by_cases hin : i ≤ k / SectorSize ∧ k / SectorSize < i + n
    · have hk' := hdata (k / SectorSize - i) (by omega) _ hmod
      rw [Nat.add_sub_cancel' hin.1] at hk'
      have hblock : i * SectorSize ≤ k ∧ k < i * SectorSize + n * SectorSize := by
        rw [SectorSize] at hin ⊢
        omega
      rw [splice, if_pos hblock]
      refine hk'.trans (congrArg buf ?_)
      rw [SectorSize] at hin ⊢
      omega
    · have hother : ∀ j < n,
          (f.hdr.dataSectors (k / SectorSize)).toNat ≠ (f.hdr.dataSectors (i + j)).toNat := by
        intro j hj heq
        have := hw.inj hsector (by omega) heq
        omega
      rw [FileHeader.contents, hsame _ hother _ hmod, splice, if_neg]
      · rfl
      · rw [SectorSize] at hin ⊢
        omega
  · intro s hs
    refine hsame s fun j hj heq => hs ?_
    exact FileHeader.mem_sectors.2 ⟨_, by omega, heq.symm⟩

/-- A sector of the file, as far as it belongs to the file, read into the buffer at `into`. -/
theorem readAt_sector (hw : f.hdr.WellFormed) (disk : Disk) (mem : ℕ → Byte) (into i : ℕ) :
    ∃ m mem', f.readAt disk mem into SectorSize (i * SectorSize) = .ok (m, mem') ∧
      (∀ k, i * SectorSize ≤ k → k < (i + 1) * SectorSize → k < f.hdr.fileLength →
        mem' (into + (k - i * SectorSize)) = f.hdr.contents disk k) ∧
        ∀ a < into, mem' a = mem a := by
  refine ⟨_, _, readAt_eq hw mem into SectorSize (i * SectorSize), ?_, ?_⟩
  · intro k hge hlt hlen
    rw [splice_add]
    · exact congrArg _ (by omega)
    · unfold moved
      rw [Nat.add_mul, Nat.one_mul] at hlt
      omega
  · exact fun a ha => splice_of_lt ha

/-- The buffer holds what the request does not cover of the sectors that it meets. -/
theorem readBack_spec (hw : f.hdr.WellFormed) (disk : Disk) (raw : ℕ → Byte) {position n : ℕ}
    (hn : 0 < n)
    (hle : (position + n : ℕ) ≤ f.hdr.fileLength) {first last : ℕ}
    (hfirst : first = position / SectorSize) (hlast : last = (position + n - 1) / SectorSize) :
    ∃ buf, f.readBack disk raw first last (position == first * SectorSize)
        (position + n == (last + 1) * SectorSize) = .ok buf ∧
      ∀ k, first * SectorSize ≤ k → k < (last + 1) * SectorSize → k < f.hdr.fileLength →
        k < position ∨ position + n ≤ k → buf (k - first * SectorSize) = f.hdr.contents disk k := by
  have hfl : first ≤ last := by
    rw [hfirst, hlast, SectorSize]
    omega
  have hin : first * SectorSize ≤ position ∧ position < (first + 1) * SectorSize := by
    rw [hfirst, SectorSize]
    omega
  have hend : last * SectorSize < position + n ∧ position + n ≤ (last + 1) * SectorSize := by
    rw [hlast, SectorSize]
    omega
  -- the first sector, unless the request begins with it
  obtain ⟨m₁, buf₁, h₁, hbuf₁⟩ : ∃ m buf,
      (if !(position == first * SectorSize) then
        f.readAt disk raw 0 SectorSize (first * SectorSize) else .ok (0, raw)) = .ok (m, buf) ∧
        (position ≠ first * SectorSize → ∀ k, first * SectorSize ≤ k →
          k < (first + 1) * SectorSize → k < f.hdr.fileLength →
            buf (k - first * SectorSize) = f.hdr.contents disk k) := by
    by_cases hal : position = first * SectorSize
    · exact ⟨0, raw, by simp [hal], fun hne => absurd hal hne⟩
    · obtain ⟨m, mem, hm, hmem, -⟩ := readAt_sector hw disk raw 0 first
      refine ⟨m, mem, by simp [hal, hm], fun _ k hge hlt hlen => ?_⟩
      rw [← hmem k hge hlt hlen, Nat.zero_add]
  by_cases hlastRead : position + n ≠ (last + 1) * SectorSize ∧
      (first ≠ last ∨ position = first * SectorSize)
  · obtain ⟨m₂, buf₂, h₂, hbuf₂, hkeep⟩ := readAt_sector hw disk buf₁
      ((last - first) * SectorSize) last
    refine ⟨buf₂, ?_, ?_⟩
    · unfold readBack
      rw [h₁]
      simp [hlastRead, h₂]
    · intro k hge hlt hlen hout
      by_cases hk : last * SectorSize ≤ k
      · rw [← hbuf₂ k hk hlt hlen]
        refine congrArg buf₂ ?_
        rw [SectorSize] at *
        omega
      · -- in the first sector, before the request
        have hidx : k - first * SectorSize < (last - first) * SectorSize := by
          rw [Nat.sub_mul]
          omega
        rw [hkeep _ hidx]
        exact hbuf₁ (by omega) k hge (by omega) hlen
  · refine ⟨buf₁, ?_, ?_⟩
    · unfold readBack
      have hskip : (!(position + n == (last + 1) * SectorSize) &&
          (first != last || position == first * SectorSize)) = false := by
        simpa using hlastRead
      rw [h₁]
      simp [hskip]
    · intro k hge hlt hlen hout
      have hne : position ≠ first * SectorSize := by
        rintro rfl
        refine hlastRead ⟨?_, .inr rfl⟩
        omega
      refine hbuf₁ hne k hge ?_ hlen
      by_cases hk : k < position
      · omega
      · have hsame : first = last := by
          by_contra hd
          exact hlastRead ⟨by omega, .inl hd⟩
        rw [hsame]
        exact hlt

/-- `WriteAt` replaces the bytes of the file that the request covers, and leaves every sector alone
that is not one of the file. -/
theorem writeAt_spec (hw : f.hdr.WellFormed) (disk : Disk) (raw source : ℕ → Byte) (numBytes : ℤ)
    (position : ℕ) :
    ∃ disk', f.writeAt disk raw source numBytes position =
        .ok (moved f.hdr.fileLength numBytes position, disk') ∧
      (∀ k : ℕ, k < f.hdr.fileLength → f.hdr.contents disk' k =
        splice (f.hdr.contents disk) position (moved f.hdr.fileLength numBytes position) source k) ∧
        ∀ s, s ∉ f.hdr.sectors → SameSector disk disk' s := by
  by_cases h : numBytes ≤ 0 ∨ position ≥ f.hdr.fileLength
  · refine ⟨disk, ?_, ?_, fun s _ k _ => rfl⟩
    · rw [writeAt, if_pos h, moved_of_check h]
    · intro k _
      rw [moved_of_check h, splice_zero]
  · obtain ⟨hclip, hpos, hle⟩ := clip_spec h
    unfold writeAt
    rw [if_neg h, hclip]
    generalize moved f.hdr.fileLength numBytes position = n at hpos hle
    obtain ⟨buf, hbuf, hback⟩ := readBack_spec hw disk raw hpos hle rfl rfl
    have hlen : f.hdr.fileLength ≤ f.hdr.numSectors.toNat * SectorSize := hw.numBytes_le
    have hroom : position / SectorSize +
        (1 + (position + n - 1) / SectorSize - position / SectorSize) ≤ f.hdr.numSectors.toNat := by
      rw [SectorSize] at hlen ⊢
      omega
    obtain ⟨disk', hdisk, hdata, hsame⟩ := contents_writeSectors hw
      (splice buf (position - position / SectorSize * SectorSize) n source) disk hroom
    refine ⟨disk', by simp only [hbuf, hdisk], ?_, hsame⟩
    intro k hk
    rw [hdata k hk]
    have hfirst : position / SectorSize * SectorSize ≤ position := Nat.div_mul_le_self _ _
    have hcover : position + n ≤ position / SectorSize * SectorSize +
        (1 + (position + n - 1) / SectorSize - position / SectorSize) * SectorSize := by
      rw [SectorSize]
      omega
    by_cases hcov : position ≤ k ∧ k < position + n
    · rw [splice, if_pos (by omega), splice, if_pos (by omega), splice, if_pos hcov]
      exact congrArg source (by omega)
    · by_cases hin : position / SectorSize * SectorSize ≤ k ∧
        k < position / SectorSize * SectorSize +
          (1 + (position + n - 1) / SectorSize - position / SectorSize) * SectorSize
      · -- around the request, as it has been read back
        rw [splice, if_pos hin, splice, if_neg (by omega), splice, if_neg hcov]
        refine hback k hin.1 ?_ hk (by omega)
        rw [SectorSize] at hin ⊢
        omega
      · rw [splice, if_neg hin, splice, if_neg hcov]

end OpenFile

end Filesys

end Nachos
