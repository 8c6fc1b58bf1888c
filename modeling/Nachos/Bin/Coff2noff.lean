import Nachos.Userprog.FlatMemory
import Nachos.Filesys.Disk
import Mathlib.Data.List.Pairwise

/-!
# From COFF sections to the loaded image

`coff2noff.c` reads a COFF file and writes a NOFF file: a header with three segments, and
behind it the raw data of the sections that have some. `allocVirtualPage` reads the
segments back, one byte at a time. A page that is brought in before it has ever been
written back shows the sections of the COFF file.

The host has a `long` and an `off_t` of 32 bits, as the structures of `coff.h` need.
-/

namespace Nachos

open Lib

namespace Coff

/-! ## Files of the host -/

/-- The largest offset in a file: no byte is written behind it. -/
def offsetMaximum : ℕ := 2 ^ 31 - 1

/-- A file that is open, with the offset of the next byte. -/
structure Fd where
  file : File
  offset : ℕ

namespace Fd

/-- `lseek(fd, offset, 0)`. A negative offset is an error, which the callers ignore. -/
def lseek (fd : Fd) (offset : BitVec 32) : Fd :=
  if offset.toInt < 0 then fd else { fd with offset := offset.toNat }

/-- What `read` returns. A negative count is too large for a buffer. -/
def read (fd : Fd) (nBytes : BitVec 32) : ℤ :=
  if nBytes.toInt < 0 then -1 else min nBytes.toNat (fd.file.length - fd.offset)

/-- What `write` returns. -/
def write (fd : Fd) (nBytes : BitVec 32) : ℤ :=
  if nBytes.toInt < 0 then -1 else min nBytes.toNat (offsetMaximum - fd.offset)

/-- `Read`: what has been read, and the file after it. -/
def Read (fd : Fd) (nBytes : BitVec 32) : Option ((ℕ → Byte) × Fd) :=
  if fd.read nBytes ≠ nBytes.toInt then
    none
  else
    some (fun k => fd.file.byte (fd.offset + k),
      { fd with offset := fd.offset + nBytes.toInt.toNat })

/-- `Write`. -/
def Write (fd : Fd) (buf : ℕ → Byte) (nBytes : BitVec 32) : Option Fd :=
  if fd.write nBytes ≠ nBytes.toInt then
    none
  else if nBytes.toInt ≤ 0 then
    some fd
  else
    some { file := fd.file.writeAt buf nBytes.toNat fd.offset
           offset := fd.offset + nBytes.toNat }

theorem read_some {fd fd' : Fd} {nBytes : BitVec 32} {buf : ℕ → Byte}
    (h : fd.Read nBytes = some (buf, fd')) :
    buf = (fun k => fd.file.byte (fd.offset + k)) ∧
      fd' = { fd with offset := fd.offset + nBytes.toInt.toNat } := by
  unfold Fd.Read at h
  split at h
  · cases h
  · cases h
    exact ⟨rfl, rfl⟩

theorem write_some {fd fd' : Fd} {nBytes : BitVec 32} {buf : ℕ → Byte} (hpos : 0 < nBytes.toInt)
    (h : fd.Write buf nBytes = some fd') :
    fd.offset + nBytes.toNat ≤ offsetMaximum ∧
      fd' =
        { file := fd.file.writeAt buf nBytes.toNat fd.offset
          offset := fd.offset + nBytes.toNat } := by
  obtain ⟨hint, -⟩ := toInt_eq_of_nonneg (Int.le_of_lt hpos)
  unfold Fd.Write Fd.write at h
  rw [if_neg (by omega : ¬ nBytes.toInt < 0), if_neg (by omega : ¬ nBytes.toInt ≤ 0)] at h
  split at h
  · cases h
  · cases h
    exact ⟨by omega, rfl⟩

end Fd

/-! ## Sections -/

/-- The `unsigned short` at the index `k`. -/
def shortAt (b : ℕ → Byte) (k : ℕ) : BitVec 16 := b (k + 1) ++ b k

def MIPSELMAGIC : BitVec 16 := 0x0162#16

def OMAGIC : BitVec 16 := 0o407#16

def sizeofFilehdr : ℕ := 20

def sizeofAouthdr : ℕ := 56

def sizeofScnhdr : ℕ := 40

/-- The fields of `struct scnhdr` that are used. -/
structure Scnhdr where
  /-- The array has 8 cells. -/
  name : ℕ → Byte
  paddr : BitVec 32
  size : BitVec 32
  scnptr : BitVec 32

def scnhdrAt (b : ℕ → Byte) (k : ℕ) : Scnhdr where
  name := fun i => b (k + i)
  paddr := wordAt b (k + 8)
  size := wordAt b (k + 16)
  scnptr := wordAt b (k + 20)

namespace Scnhdr

/-- `!strcmp(s_name, s)`, for an `s` of at most 7 characters. -/
def named (sec : Scnhdr) (s : List Char) : Bool :=
  (List.range (s.length + 1)).map sec.name = s.map (fun c => BitVec.ofNat 8 c.toNat) ++ [0#8]

def isText (sec : Scnhdr) : Bool := sec.named ['.', 't', 'e', 'x', 't']

def isData (sec : Scnhdr) : Bool :=
  sec.named ['.', 'd', 'a', 't', 'a'] || sec.named ['.', 'r', 'd', 'a', 't', 'a']

def isBss (sec : Scnhdr) : Bool :=
  sec.named ['.', 'b', 's', 's'] || sec.named ['.', 's', 'b', 's', 's']

end Scnhdr

/-- The section headers. -/
def sections (coff : File) : List Scnhdr :=
  (List.range (shortAt coff.byte 2).toNat).map fun i =>
    scnhdrAt coff.byte (sizeofFilehdr + sizeofAouthdr + i * sizeofScnhdr)

/-! ## The program -/

/-- The variables of the loop of `main`. -/
structure Main where
  fdIn : Fd
  fdOut : Fd
  inNoffFile : BitVec 32
  noffH : NoffHeader

namespace Main

/-- What a section that has raw data puts into the header. -/
def segment (m : Main) (sec : Scnhdr) : Segment where
  virtualAddr := sec.paddr
  inFileAddr := m.inNoffFile
  size := sec.size

/-- The raw data of a section are copied. -/
def copy (m : Main) (sec : Scnhdr) : Option Main :=
  match (m.fdIn.lseek sec.scnptr).Read sec.size with
  | none => none
  | some (buffer, fdIn) =>
      match m.fdOut.Write buffer sec.size with
      | none => none
      | some fdOut =>
          some { m with
            fdIn := fdIn
            fdOut := fdOut
            inNoffFile := m.inNoffFile + sec.size }

/-- The body of the loop of `main`, nothing when it exits. -/
def load (m : Main) (sec : Scnhdr) : Option Main :=
  if sec.size = 0#32 then
    some m
  else if sec.isText then
    { m with noffH := { m.noffH with code := m.segment sec } }.copy sec
  else if sec.isData then
    if m.noffH.initData.size ≠ 0#32 then
      none
    else
      { m with noffH := { m.noffH with initData := m.segment sec } }.copy sec
  else if sec.isBss then
    let uninitData := m.noffH.uninitData
    if uninitData.size ≠ 0#32 then
      if sec.paddr = uninitData.virtualAddr + uninitData.size then
        none
      else
        some { m with noffH := { m.noffH with
          uninitData := { uninitData with size := uninitData.size + sec.size } } }
    else
      some { m with noffH := { m.noffH with
        uninitData := { uninitData with
          virtualAddr := sec.paddr
          size := sec.size } } }
  else
    none

end Main

/-- The header as an array of words. -/
def headerWords (noffH : NoffHeader) : ℕ → BitVec 32
  | 0 => noffH.noffMagic
  | 1 => noffH.code.virtualAddr
  | 2 => noffH.code.inFileAddr
  | 3 => noffH.code.size
  | 4 => noffH.initData.virtualAddr
  | 5 => noffH.initData.inFileAddr
  | 6 => noffH.initData.size
  | 7 => noffH.uninitData.virtualAddr
  | 8 => noffH.uninitData.inFileAddr
  | _ => noffH.uninitData.size

/-- `main` before its loop. `stack` is the header before it is set. -/
def start (fdIn : Fd) (stack : NoffHeader) : Main where
  fdIn := fdIn
  fdOut :=
    { file := .empty
      offset := sizeofNoffHeader }
  inNoffFile := BitVec.ofNat 32 sizeofNoffHeader
  noffH :=
    { noffMagic := NOFFMAGIC
      code := { stack.code with size := 0 }
      initData := { stack.initData with size := 0 }
      uninitData := { stack.uninitData with size := 0 } }

/-- The part of `main` that reads the headers and checks the magic numbers. -/
def readHeaders (coff : File) : Option (List Scnhdr × Fd) :=
  match (⟨coff, 0⟩ : Fd).Read (BitVec.ofNat 32 sizeofFilehdr) with
  | none => none
  | some (fileh, fdIn) =>
      if shortAt fileh 0 ≠ MIPSELMAGIC then
        none
      else
        match fdIn.Read (BitVec.ofNat 32 sizeofAouthdr) with
        | none => none
        | some (systemh, fdIn) =>
            if shortAt systemh 0 ≠ OMAGIC then
              none
            else
              let numsections := (shortAt fileh 2).toNat
              match fdIn.Read (BitVec.ofNat 32 (numsections * sizeofScnhdr)) with
              | none => none
              | some (headers, fdIn) =>
                  some ((List.range numsections).map fun i => scnhdrAt headers (i * sizeofScnhdr),
                    fdIn)

/-- `main`: the NOFF file, or nothing when it exits with 1. -/
def coff2noff (coff : File) (stack : NoffHeader) : Option File :=
  match readHeaders coff with
  | none => none
  | some (secs, fdIn) =>
      match secs.foldlM Main.load (start fdIn stack) with
      | none => none
      | some m =>
          match { m.fdOut with offset := 0 }.Write (Filesys.bytesOf (headerWords m.noffH))
              (BitVec.ofNat 32 sizeofNoffHeader) with
          | none => none
          | some fdOut => some fdOut.file

/-! ## What is written -/

namespace Scnhdr

/-- A `.text` section that is not empty. -/
def text (sec : Scnhdr) : Bool := sec.size ≠ 0#32 && sec.isText

/-- A `.data` or `.rdata` section that is not empty. -/
def data (sec : Scnhdr) : Bool := sec.size ≠ 0#32 && sec.isData

/-- The address belongs to the section. -/
def Covers (sec : Scnhdr) (a : ℕ) : Prop :=
  sec.paddr.toNat ≤ a ∧ a < sec.paddr.toNat + sec.size.toNat

instance (sec : Scnhdr) (a : ℕ) : Decidable (sec.Covers a) :=
  inferInstanceAs (Decidable (_ ∧ _))

/-- No address belongs to both sections. -/
def Apart (sec sec' : Scnhdr) : Prop := ∀ a, ¬ (sec.Covers a ∧ sec'.Covers a)

instance : Std.Symm Apart := ⟨fun _ _ h a ha => h a ha.symm⟩

theorem isData_of_isText {sec : Scnhdr} (h : sec.isText = true) : sec.isData = false := by
  have hname : sec.name 1 = 116#8 := by
    simp [isText, named, List.range_succ] at h
    exact h.2.1
  simp [isData, named, List.range_succ, hname]

end Scnhdr

/-- The segment holds the raw data of the section, behind the header. -/
structure Copies (coff noff : File) (seg : Segment) (sec : Scnhdr) : Prop where
  virtualAddr : seg.virtualAddr = sec.paddr
  size : seg.size = sec.size
  header_le : sizeofNoffHeader ≤ seg.inFileAddr.toNat
  end_le : seg.inFileAddr.toNat + seg.size.toNat ≤ noff.length
  byte : ∀ k < seg.size.toNat,
    noff.byte (seg.inFileAddr.toNat + k) = coff.byte (sec.scnptr.toNat + k)

/-- The segment is the one section there is, or empty. -/
def Holds (coff noff : File) (seg : Segment) : List Scnhdr → Prop
  | [] => seg.size = 0#32
  | [sec] => Copies coff noff seg sec
  | _ :: _ :: _ => False

/-- The files of `main`: what has been written ends at `inNoffFile`. -/
structure Layout (coff : File) (m : Main) : Prop where
  fdIn : m.fdIn.file = coff
  offset : m.fdOut.offset = m.inNoffFile.toNat
  header_le : sizeofNoffHeader ≤ m.fdOut.offset
  offset_le : m.fdOut.offset ≤ offsetMaximum
  length_le : m.fdOut.file.length ≤ m.fdOut.offset

/-- The state of `main` when it has loaded the sections `done`. -/
structure Loaded (coff : File) (done : List Scnhdr) (m : Main) : Prop where
  layout : Layout coff m
  magic : m.noffH.noffMagic = NOFFMAGIC
  code : Holds coff m.fdOut.file m.noffH.code (done.filter Scnhdr.text)
  initData : Holds coff m.fdOut.file m.noffH.initData (done.filter Scnhdr.data)

variable {coff noff noff' : File} {seg : Segment} {sec : Scnhdr} {m m' : Main}
  {done : List Scnhdr} {n : ℕ}

theorem Copies.congr (h : Copies coff noff seg sec) (hlen : noff.length ≤ noff'.length)
    (hbyte : ∀ k, sizeofNoffHeader ≤ k → k < noff.length → noff'.byte k = noff.byte k) :
    Copies coff noff' seg sec := by
  refine ⟨h.virtualAddr, h.size, h.header_le, Nat.le_trans h.end_le hlen, ?_⟩
  intro k hk
  have hheader := h.header_le
  have hend := h.end_le
  rw [hbyte _ (by omega) (by omega), h.byte k hk]

theorem Holds.congr {secs : List Scnhdr} (h : Holds coff noff seg secs)
    (hlen : noff.length ≤ noff'.length)
    (hbyte : ∀ k, sizeofNoffHeader ≤ k → k < noff.length → noff'.byte k = noff.byte k) :
    Holds coff noff' seg secs := by
  match secs, h with
  | [], h => exact h
  | [_], h => exact Copies.congr h hlen hbyte

/-- A section that is not empty is copied behind the others: the segment that the header
names for it holds it, and the others hold what they held. -/
theorem Layout.copy (h : Layout coff m) (hptr : 0 ≤ sec.scnptr.toInt)
    (hsize : 0 ≤ sec.size.toInt) (hne : sec.size ≠ 0#32) (hcopy : m.copy sec = some m') :
    Layout coff m' ∧ m'.noffH = m.noffH ∧ Copies coff m'.fdOut.file (m.segment sec) sec ∧
      ∀ seg secs, Holds coff m.fdOut.file seg secs → Holds coff m'.fdOut.file seg secs := by
  obtain ⟨hfile, hoffset, hheader, -, hlen⟩ := h
  have hpos : 0 < sec.size.toInt := by
    have : sec.size.toInt ≠ 0 := fun h0 => hne (BitVec.eq_of_toInt_eq h0)
    omega
  unfold Main.copy at hcopy
  split at hcopy
  · cases hcopy
  · rename_i buffer fdIn hread
    split at hcopy
    · cases hcopy
    · rename_i fdOut hwrite
      cases hcopy
      rw [Fd.lseek, if_neg (by omega)] at hread
      obtain ⟨rfl, rfl⟩ := Fd.read_some hread
      obtain ⟨hle, rfl⟩ := Fd.write_some hpos hwrite
      have hat : (m.segment sec).inFileAddr.toNat = m.fdOut.offset := hoffset.symm
      refine ⟨⟨hfile, ?_, ?_, hle, ?_⟩, rfl, ⟨rfl, rfl, ?_, ?_, ?_⟩, ?_⟩
      · have hmax : offsetMaximum = 2 ^ 31 - 1 := rfl
        simp only [BitVec.toNat_add, hoffset] at hle ⊢
        omega
      · exact Nat.le_trans hheader (Nat.le_add_right _ _)
      · exact Nat.max_le.2 ⟨Nat.le_trans hlen (Nat.le_add_right _ _), Nat.le_refl _⟩
      · rw [hat]
        exact hheader
      · rw [hat]
        exact Nat.le_max_right _ _
      · intro k hk
        have hk : k < sec.size.toNat := hk
        rw [hat, ← hfile]
        simp only [File.writeAt]
        rw [splice_add hk]
      · intro seg secs hholds
        refine hholds.congr (Nat.le_max_left _ _) ?_
        intro k _ hk
        simp only [File.writeAt]
        rw [splice_of_lt (Nat.lt_of_lt_of_le hk hlen), if_pos hk]

theorem Layout.header (h : Layout coff m) (noffH : NoffHeader) :
    Layout coff { m with noffH := noffH } :=
  ⟨h.fdIn, h.offset, h.header_le, h.offset_le, h.length_le⟩

/-- A section that is neither a `.text` nor a `.data` section, or empty. -/
theorem Loaded.skip (h : Loaded coff done m) (htext : sec.text = false) (hdata : sec.data = false)
    (uninitData : Segment) :
    Loaded coff (done ++ [sec]) { m with noffH := { m.noffH with uninitData := uninitData } } := by
  refine ⟨h.layout.header _, h.magic, ?_, ?_⟩
  · simpa [List.filter_append, htext] using h.code
  · simpa [List.filter_append, hdata] using h.initData

/-- A `.text` section. -/
theorem Loaded.text (h : Loaded coff done m) (hsize : 0 ≤ sec.size.toInt)
    (hptr : 0 ≤ sec.scnptr.toInt) (htext : sec.text = true) (hdata : sec.data = false)
    (hfirst : done.filter Scnhdr.text = [])
    (hcopy : { m with noffH := { m.noffH with code := m.segment sec } }.copy sec = some m') :
    Loaded coff (done ++ [sec]) m' := by
  have hne : sec.size ≠ 0#32 := by
    intro h0
    simp [Scnhdr.text, h0] at htext
  obtain ⟨hlayout, hH, hcopies, hkept⟩ := (h.layout.header _).copy hptr hsize hne hcopy
  refine ⟨hlayout, ?_, ?_, ?_⟩
  · rw [hH]
    exact h.magic
  · have hlast : (done ++ [sec]).filter Scnhdr.text = [sec] := by
      simp [List.filter_append, hfirst, htext]
    rw [hlast, hH]
    exact hcopies
  · have hsame : (done ++ [sec]).filter Scnhdr.data = done.filter Scnhdr.data := by
      simp [List.filter_append, hdata]
    rw [hsame, hH]
    exact hkept _ _ h.initData

/-- A `.data` or `.rdata` section. -/
theorem Loaded.data (h : Loaded coff done m) (hsize : 0 ≤ sec.size.toInt)
    (hptr : 0 ≤ sec.scnptr.toInt) (htext : sec.text = false) (hdata : sec.data = true)
    (hfirst : m.noffH.initData.size = 0#32)
    (hcopy : { m with noffH := { m.noffH with initData := m.segment sec } }.copy sec = some m') :
    Loaded coff (done ++ [sec]) m' := by
  have hne : sec.size ≠ 0#32 := by
    intro h0
    simp [Scnhdr.data, h0] at hdata
  have hnone : done.filter Scnhdr.data = [] := by
    have hholds := h.initData
    match hl : done.filter Scnhdr.data, hholds with
    | [], _ => rfl
    | [sec'], hcopies =>
        have hmem : sec' ∈ done.filter Scnhdr.data := by
          rw [hl]
          exact List.mem_singleton_self sec'
        have hdata' := (List.mem_filter.1 hmem).2
        rw [Scnhdr.data, ← Copies.size hcopies, hfirst] at hdata'
        simp at hdata'
  obtain ⟨hlayout, hH, hcopies, hkept⟩ := (h.layout.header _).copy hptr hsize hne hcopy
  refine ⟨hlayout, ?_, ?_, ?_⟩
  · rw [hH]
    exact h.magic
  · have hsame : (done ++ [sec]).filter Scnhdr.text = done.filter Scnhdr.text := by
      simp [List.filter_append, htext]
    rw [hsame, hH]
    exact hkept _ _ h.code
  · have hlast : (done ++ [sec]).filter Scnhdr.data = [sec] := by
      simp [List.filter_append, hnone, hdata]
    rw [hlast, hH]
    exact hcopies

/-- One turn of the loop. -/
theorem Loaded.load (h : Loaded coff done m) (hsize : 0 ≤ sec.size.toInt)
    (hptr : sec.text = true ∨ sec.data = true → 0 ≤ sec.scnptr.toInt)
    (hone : ((done ++ [sec]).filter Scnhdr.text).length ≤ 1) (hload : m.load sec = some m') :
    Loaded coff (done ++ [sec]) m' := by
  unfold Main.load at hload
  split at hload
  · rename_i hempty
    cases hload
    exact h.skip (by simp [Scnhdr.text, hempty]) (by simp [Scnhdr.data, hempty]) _
  · rename_i hne
    split at hload
    · rename_i hname
      have htext : sec.text = true := by simp [Scnhdr.text, hne, hname]
      have hdata : sec.data = false := by simp [Scnhdr.data, Scnhdr.isData_of_isText hname]
      have hfirst : done.filter Scnhdr.text = [] := by
        simpa [List.filter_append, htext] using hone
      exact h.text hsize (hptr (.inl htext)) htext hdata hfirst hload
    · rename_i hname
      have htext : sec.text = false := by simp [Scnhdr.text, hname]
      split at hload
      · rename_i hname'
        have hdata : sec.data = true := by simp [Scnhdr.data, hne, hname']
        split at hload
        · cases hload
        · rename_i hfirst
          exact h.data hsize (hptr (.inr hdata)) htext hdata (by simpa using hfirst) hload
      · rename_i hname'
        have hdata : sec.data = false := by simp [Scnhdr.data, hname']
        split at hload
        · simp only at hload
          split at hload
          · split at hload
            · cases hload
            · cases hload
              exact h.skip htext hdata _
          · cases hload
            exact h.skip htext hdata _
        · cases hload

/-- The addresses, in memory and in the file, and the sizes are not negative and the ends are
in the range of `int`; there is at most one `.text` section, and no two sections have an
address in common. Empty sections do not count. -/
structure WellFormed (secs : List Scnhdr) : Prop where
  size : ∀ sec ∈ secs, 0 ≤ sec.size.toInt
  paddr : ∀ sec ∈ secs, sec.size ≠ 0#32 → 0 ≤ sec.paddr.toInt
  end_lt : ∀ sec ∈ secs, sec.size ≠ 0#32 → sec.paddr.toInt + sec.size.toInt < 2 ^ 31
  scnptr : ∀ sec ∈ secs, sec.text = true ∨ sec.data = true → 0 ≤ sec.scnptr.toInt
  text : (secs.filter Scnhdr.text).length ≤ 1
  disjoint : (secs.filter fun sec => sec.size ≠ 0#32).Pairwise Scnhdr.Apart

/-- The loop. -/
theorem Loaded.run {rest : List Scnhdr} (h : Loaded coff done m)
    (hwf : WellFormed (done ++ rest)) (hrun : rest.foldlM Main.load m = some m') :
    Loaded coff (done ++ rest) m' := by
  induction rest generalizing done m with
  | nil =>
      cases hrun
      rwa [List.append_nil]
  | cons sec rest ih =>
      rw [List.foldlM_cons] at hrun
      obtain ⟨m₁, hload, hrun⟩ := Option.bind_eq_some_iff.1 hrun
      rw [List.append_cons] at hwf ⊢
      have hmem : sec ∈ done ++ [sec] ++ rest := by simp
      have hone : ((done ++ [sec]).filter Scnhdr.text).length ≤ 1 := by
        have := hwf.text
        rw [List.filter_append, List.length_append] at this
        omega
      exact ih (h.load (hwf.size sec hmem) (hwf.scnptr sec hmem) hone hload) hwf hrun

theorem loaded_start {fdIn : Fd} (h : fdIn.file = coff) (stack : NoffHeader) :
    Loaded coff [] (start fdIn stack) :=
  ⟨⟨h, rfl, Nat.le_refl _, (by decide : sizeofNoffHeader ≤ offsetMaximum), Nat.zero_le _⟩, rfl, rfl,
    rfl⟩

/-- The header is written last. -/
theorem header_written (noff : File) (noffH : NoffHeader) :
    (noff.writeAt (Filesys.bytesOf (headerWords noffH)) sizeofNoffHeader 0).header = noffH := by
  have hword : ∀ i < 10, wordAt (noff.writeAt (Filesys.bytesOf (headerWords noffH))
      sizeofNoffHeader 0).byte (4 * i) = headerWords noffH i := by
    intro i hi
    rw [← Filesys.wordAt_bytesOf (headerWords noffH) i]
    refine Filesys.wordAt_congr ?_
    intro j hj
    have hlt : 4 * i + j < sizeofNoffHeader := by
      have : sizeofNoffHeader = 40 := rfl
      omega
    simp only [File.writeAt]
    rw [splice_front hlt]
  have h0 := hword 0 (by decide)
  have h1 := hword 1 (by decide)
  have h2 := hword 2 (by decide)
  have h3 := hword 3 (by decide)
  have h4 := hword 4 (by decide)
  have h5 := hword 5 (by decide)
  have h6 := hword 6 (by decide)
  have h7 := hword 7 (by decide)
  have h8 := hword 8 (by decide)
  have h9 := hword 9 (by decide)
  simp only [Nat.reduceMul] at h0 h1 h2 h3 h4 h5 h6 h7 h8 h9
  simp only [File.header, segmentAt, h0, h1, h2, h3, h4, h5, h6, h7, h8, h9, Nat.reduceAdd,
    headerWords]

/-- A NOFF file whose segments are the sections of the COFF file. -/
structure Converted (coff noff : File) : Prop where
  header_le : sizeofNoffHeader ≤ noff.length
  length_le : noff.length ≤ offsetMaximum
  magic : noff.header.noffMagic = NOFFMAGIC
  code : Holds coff noff noff.header.code ((sections coff).filter Scnhdr.text)
  initData : Holds coff noff noff.header.initData ((sections coff).filter Scnhdr.data)

theorem readHeaders_some {secs : List Scnhdr} {fdIn : Fd}
    (h : readHeaders coff = some (secs, fdIn)) : secs = sections coff ∧ fdIn.file = coff := by
  unfold readHeaders at h
  split at h
  · cases h
  · rename_i fileh fdIn₁ hfileh
    split at h
    · cases h
    · split at h
      · cases h
      · rename_i systemh fdIn₂ hsystemh
        split at h
        · cases h
        · simp only at h
          split at h
          · cases h
          · rename_i headers fdIn₃ hheaders
            cases h
            obtain ⟨rfl, rfl⟩ := Fd.read_some hfileh
            obtain ⟨rfl, rfl⟩ := Fd.read_some hsystemh
            obtain ⟨rfl, rfl⟩ := Fd.read_some hheaders
            refine ⟨?_, rfl⟩
            have hfileh : (BitVec.ofNat 32 sizeofFilehdr).toInt.toNat = sizeofFilehdr := by decide
            have hsystemh : (BitVec.ofNat 32 sizeofAouthdr).toInt.toNat = sizeofAouthdr := by decide
            simp only [sections, scnhdrAt, wordAt, shortAt, hfileh, hsystemh, Nat.zero_add,
              Nat.add_assoc]

/-- The output of the loop, with the header in front of it. -/
theorem coff2noff_some {stack : NoffHeader} (h : coff2noff coff stack = some noff) :
    ∃ fdIn m, fdIn.file = coff ∧
      (sections coff).foldlM Main.load (start fdIn stack) = some m ∧
      noff = m.fdOut.file.writeAt (Filesys.bytesOf (headerWords m.noffH)) sizeofNoffHeader 0 := by
  unfold coff2noff at h
  split at h
  · cases h
  · rename_i secs fdIn hread
    obtain ⟨rfl, hfile⟩ := readHeaders_some hread
    split at h
    · cases h
    · rename_i m hrun
      split at h
      · cases h
      · rename_i fdOut hwrite
        cases h
        obtain ⟨-, rfl⟩ := Fd.write_some (by decide) hwrite
        exact ⟨fdIn, m, hfile, hrun, rfl⟩

theorem coff2noff_spec {stack : NoffHeader} (hwf : WellFormed (sections coff))
    (h : coff2noff coff stack = some noff) : Converted coff noff := by
  obtain ⟨fdIn, m, hfile, hrun, rfl⟩ := coff2noff_some h
  obtain ⟨hlayout, hmagic, hcode, hdata⟩ := (loaded_start hfile stack).run hwf hrun
  have hlen : m.fdOut.file.length ≤ (m.fdOut.file.writeAt
      (Filesys.bytesOf (headerWords m.noffH)) sizeofNoffHeader 0).length :=
    Nat.le_max_left _ _
  have hbyte : ∀ k, sizeofNoffHeader ≤ k → k < m.fdOut.file.length →
      (m.fdOut.file.writeAt (Filesys.bytesOf (headerWords m.noffH)) sizeofNoffHeader
        0).byte k = m.fdOut.file.byte k := by
    intro k hle hlt
    simp only [File.writeAt]
    rw [splice_of_le (by omega), if_pos hlt]
  refine ⟨Nat.le_max_right _ _, ?_, ?_, ?_, ?_⟩
  · exact Nat.max_le.2 ⟨Nat.le_trans hlayout.length_le hlayout.offset_le, by decide⟩
  · rw [header_written]
    exact hmagic
  · rw [header_written]
    exact hcode.congr hlen hbyte
  · rw [header_written]
    exact hdata.congr hlen hbyte

/-! ## What is read back -/

theorem Holds.covers_iff {secs : List Scnhdr} {a : ℕ} (h : Holds coff noff seg secs) :
    seg.Covers a ↔ ∃ sec ∈ secs, sec.Covers a := by
  match secs, h with
  | [], h =>
      have hsize : seg.size.toNat = 0 := by
        rw [show seg.size = 0#32 from h]
        rfl
      unfold Segment.Covers
      simp only [List.not_mem_nil, false_and, exists_false, iff_false]
      omega
  | [sec], h =>
      simp only [List.mem_singleton, exists_eq_left]
      rw [Segment.Covers, Scnhdr.Covers, Copies.virtualAddr h, Copies.size h]

theorem Holds.byte_eq {secs : List Scnhdr} {a : ℕ} (h : Holds coff noff seg secs)
    (hmem : sec ∈ secs) (hcovers : sec.Covers a) :
    noff.byte (seg.inFileAddr.toNat + (a - seg.virtualAddr.toNat)) =
      coff.byte (sec.scnptr.toNat + (a - sec.paddr.toNat)) := by
  match secs, h with
  | [_], h =>
      cases List.mem_singleton.1 hmem
      obtain ⟨hlow, hhigh⟩ := hcovers
      rw [Copies.virtualAddr h]
      refine Copies.byte h _ ?_
      rw [Copies.size h]
      omega

/-- The loader does not leave the segment or the file. -/
theorem Holds.inside {secs : List Scnhdr} (h : Holds coff noff seg secs)
    (hlen : noff.length ≤ offsetMaximum) (hsize : ∀ sec ∈ secs, 0 ≤ sec.size.toInt)
    (hpaddr : ∀ sec ∈ secs, 0 ≤ sec.paddr.toInt)
    (hend : ∀ sec ∈ secs, sec.paddr.toInt + sec.size.toInt < 2 ^ 31) : seg.Inside noff := by
  match secs, h with
  | [], h => exact .inl h
  | [sec], h =>
      have hsize := hsize sec (List.mem_singleton_self sec)
      have hpaddr := hpaddr sec (List.mem_singleton_self sec)
      have hend := hend sec (List.mem_singleton_self sec)
      have hfile := Copies.end_le h
      have hmax : offsetMaximum = 2 ^ 31 - 1 := rfl
      rw [← Copies.size h] at hsize hend
      rw [← Copies.virtualAddr h] at hpaddr hend
      obtain ⟨hs, -⟩ := toInt_eq_of_nonneg hsize
      have hf : seg.inFileAddr.toInt = seg.inFileAddr.toNat := toInt_eq_of_lt (by omega)
      exact .inr ⟨⟨hpaddr, by omega, hsize, hend, by omega⟩, by omega⟩

/-- The byte of an address: the one of the `.text`, `.data` or `.rdata` section that covers
it, else zero. -/
structure Shows (coff : File) (a : ℕ) (b : Byte) : Prop where
  covered : ∀ sec ∈ sections coff, sec.isText = true ∨ sec.isData = true → sec.Covers a →
    b = coff.byte (sec.scnptr.toNat + (a - sec.paddr.toNat))
  uncovered : (∀ sec ∈ sections coff, sec.isText = true ∨ sec.isData = true → ¬ sec.Covers a) →
    b = 0

theorem Scnhdr.Covers.ne {a : ℕ} (h : sec.Covers a) : sec.size ≠ 0#32 := by
  intro h0
  obtain ⟨hlow, hhigh⟩ := h
  rw [h0, BitVec.toNat_zero] at hhigh
  omega

theorem Converted.inside (h : Converted coff noff) (hwf : WellFormed (sections coff)) :
    noff.header.code.Inside noff ∧ noff.header.initData.Inside noff := by
  refine ⟨h.code.inside h.length_le ?_ ?_ ?_, h.initData.inside h.length_le ?_ ?_ ?_⟩ <;>
    intro sec hsec <;> obtain ⟨hmem, hkind⟩ := List.mem_filter.1 hsec
  · exact hwf.size sec hmem
  · exact hwf.paddr sec hmem (by simp [Scnhdr.text] at hkind; exact hkind.1)
  · exact hwf.end_lt sec hmem (by simp [Scnhdr.text] at hkind; exact hkind.1)
  · exact hwf.size sec hmem
  · exact hwf.paddr sec hmem (by simp [Scnhdr.data] at hkind; exact hkind.1)
  · exact hwf.end_lt sec hmem (by simp [Scnhdr.data] at hkind; exact hkind.1)

/-- The initial image of the NOFF file. -/
theorem Converted.shows (h : Converted coff noff) (hwf : WellFormed (sections coff)) (a : ℕ) :
    Shows coff a (noff.image a) := by
  refine ⟨?_, ?_⟩
  · intro sec hmem hkind hcovers
    have hne := hcovers.ne
    rcases hkind with htext | hdata
    · have hsec : sec ∈ (sections coff).filter Scnhdr.text :=
        List.mem_filter.2 ⟨hmem, by simp [Scnhdr.text, hne, htext]⟩
      have hcode : noff.header.code.Covers a := h.code.covers_iff.2 ⟨sec, hsec, hcovers⟩
      simp only [File.image, if_pos hcode]
      exact h.code.byte_eq hsec hcovers
    · have hsec : sec ∈ (sections coff).filter Scnhdr.data :=
        List.mem_filter.2 ⟨hmem, by simp [Scnhdr.data, hne, hdata]⟩
      have hinit : noff.header.initData.Covers a := h.initData.covers_iff.2 ⟨sec, hsec, hcovers⟩
      have hcode : ¬ noff.header.code.Covers a := by
        intro hcode
        obtain ⟨sec', hsec', hcovers'⟩ := h.code.covers_iff.1 hcode
        obtain ⟨hmem', hkind'⟩ := List.mem_filter.1 hsec'
        have hdiff : sec ≠ sec' := by
          rintro rfl
          have htext : sec.isText = true := by
            simp [Scnhdr.text] at hkind'
            exact hkind'.2
          rw [Scnhdr.isData_of_isText htext] at hdata
          cases hdata
        have hapart : sec.Apart sec' := hwf.disjoint.forall
          (List.mem_filter.2 ⟨hmem, by simpa using hne⟩)
          (List.mem_filter.2 ⟨hmem', by simpa using hcovers'.ne⟩) hdiff
        exact hapart a ⟨hcovers, hcovers'⟩
      simp only [File.image, if_neg hcode, if_pos hinit]
      exact h.initData.byte_eq hsec hcovers
  · intro hnone
    have hcode : ¬ noff.header.code.Covers a := by
      intro hcode
      obtain ⟨sec, hsec, hcovers⟩ := h.code.covers_iff.1 hcode
      obtain ⟨hmem, hkind⟩ := List.mem_filter.1 hsec
      simp [Scnhdr.text] at hkind
      exact hnone sec hmem (.inl hkind.2) hcovers
    have hinit : ¬ noff.header.initData.Covers a := by
      intro hinit
      obtain ⟨sec, hsec, hcovers⟩ := h.initData.covers_iff.1 hinit
      obtain ⟨hmem, hkind⟩ := List.mem_filter.1 hsec
      simp [Scnhdr.data] at hkind
      exact hnone sec hmem (.inr hkind.2) hcovers
    simp only [File.image, if_neg hcode, if_neg hinit]

end Coff

/-! ## Page faults -/

namespace VM

variable {s s' : VM} {p v : ℕ} {resident : List (VPage × ℤ)} {held : List ℤ}

/-- An eviction marks no page that is not resident. -/
theorem PagedOut.bit_eq {s₁ : VM} (h : PagedOut s p v s₁) {q w : ℕ} (hqw : ¬ (q = p ∧ w = v)) :
    (s₁.procs q).backingStore.pages.bit w = (s.procs q).backingStore.pages.bit w := by
  rcases h with ⟨-, rfl⟩ | ⟨-, pages, -, hbits, rfl⟩
  · rfl
  · rw [(procs_wroteBack s p v pages q).2.2]
    by_cases hq : q = p
    · subst hq
      have hw : w ≠ v := fun h => hqw ⟨rfl, h⟩
      simp [hbits, hw]
    · simp [hq]

/-- The handler makes room, and a page that is not valid stays as it is. -/
theorem Accounts.exists_room (h : s.Accounts resident []) (hfit : StoresFit s)
    (hn : 0 < s.numPhysPages) (hinvalid : (s.pte p v).valid = false) :
    ∃ s₁, (if s.coreMap.isFull then s.evict false else .ok s) = .ok s₁ ∧
      (s₁.procs p).backingStore.pages.bit v = (s.procs p).backingStore.pages.bit v := by
  by_cases hfull : s.coreMap.isFull = true
  · obtain ⟨q, w, f, rest, m', frames, s₁, rfl, hout, heq, -⟩ :=
      h.evict (h.ne_nil_of_full hn hfull) hfit
    obtain ⟨-, -, hvalid, -⟩ := (h.mapped (q, w) f).1 (by simp)
    refine ⟨_, by rw [if_pos hfull, heq], ?_⟩
    show ((s₁.setEntry q w _).procs p).backingStore.pages.bit v = _
    rw [backingStore_setEntry, hout.bit_eq]
    rintro ⟨rfl, rfl⟩
    rw [hinvalid] at hvalid
    cases hvalid
  · exact ⟨s, by rw [if_neg hfull], rfl⟩

/-- A page that is not in the backing store is brought in with the bytes that the loop of
`allocVirtualPage` finds for it. -/
theorem Accounts.placePage_loads {f : ℕ} {noffH : NoffHeader} {image : ℕ → Byte}
    (h : s.Accounts resident ((f : ℤ) :: held)) (hfit : StoresFit s) (hf : f < s.numPhysPages)
    (hp : p < s.numProcs) (hv : v < (s.procs p).space.numPages)
    (hbit : (s.procs p).backingStore.pages.bit v = false)
    (hloads : ∀ k < pageSize, (s.procs p).space.currentExecutable.Loads noffH (v * pageSize + k)
      (image (v * pageSize + k))) :
    ∃ s', s.placePage p v f noffH = .ok s' ∧ s'.Mapped (p, v) f ∧
      ∀ k < pageSize, s'.mainMemory (f * pageSize + k) = image (v * pageSize + k) := by
  obtain ⟨m', -, -, heq⟩ := h.placePage p v noffH
  obtain ⟨t, htdef⟩ : ∃ t, t = s.assigned p v f m' := ⟨_, rfl⟩
  have hexe : (t.procs p).space.currentExecutable = (s.procs p).space.currentExecutable := by
    rw [htdef, executable_assigned]
  have hstore : (t.procs p).backingStore = (s.procs p).backingStore := by
    rw [htdef, backingStore_assigned]
  have hframe : (t.pte p v).physicalPage = f := by
    rw [htdef, physicalPage_assigned]
  obtain ⟨stats, hfill⟩ : ∃ stats, t.fillPage p v noffH = .ok { t with
      mainMemory := splice t.mainMemory (f * pageSize) pageSize fun k => image (v * pageSize + k)
      stats := stats } := by
    refine fillPage_loads hframe ?_ ?_ ?_ ?_
    · rw [htdef]
      exact hf
    · rw [hstore, hfit p hp]
      exact hv
    · rw [hstore]
      exact hbit
    · rw [hexe]
      exact hloads
  rw [← htdef, hfill] at heq
  refine ⟨_, heq, ?_⟩
  rw [setEntry_filled s p v f m' _ stats (t.pte p v).valid
    (by rw [← htdef]; exact (setEntry_pte _ p v).symm)]
  refine ⟨(mapped_allocated hp hv).2 (.inl ⟨rfl, rfl⟩), ?_⟩
  intro k hk
  have hmain : (s.allocated p v f m' (splice t.mainMemory (f * pageSize) pageSize
      fun k => image (v * pageSize + k)) stats).mainMemory = splice t.mainMemory (f * pageSize)
        pageSize fun k => image (v * pageSize + k) := rfl
  rw [hmain, splice_add hk]

/-- A page fault at a page that is not in the backing store. -/
theorem Sound.pageFault_loads (h : Sound s) (virtualAddr : BitVec 32) (stack image : ℕ → Byte)
    (hn : 0 < s.numPhysPages) (hp : p < s.numProcs)
    (hv : vpnOf virtualAddr < (s.procs p).space.numPages)
    (hinvalid : (s.pte p (vpnOf virtualAddr)).valid = false)
    (hbit : (s.procs p).backingStore.pages.bit (vpnOf virtualAddr) = false)
    (hmagic : (readHeader (s.procs p).space.currentExecutable stack).noffMagic = NOFFMAGIC)
    (hloads : ∀ k < pageSize, (s.procs p).space.currentExecutable.Loads
      (readHeader (s.procs p).space.currentExecutable stack) (vpnOf virtualAddr * pageSize + k)
        (image (vpnOf virtualAddr * pageSize + k))) :
    ∃ (f : ℕ) (s' : VM), s.pageFault false p virtualAddr stack = .ok (0, s') ∧
      s'.Mapped (p, vpnOf virtualAddr) f ∧
        ∀ k < pageSize, s'.mainMemory (f * pageSize + k) =
          image (vpnOf virtualAddr * pageSize + k) := by
  obtain ⟨resident, hacc⟩ := h.accounts
  obtain ⟨t, -, hacc₀, hkept₀, hprocs₀, hfault⟩ := hacc.pageFault_eq p virtualAddr stack
  have hfit₀ := h.fit.kept hkept₀
  have hinvalid₀ : (t.pte p (vpnOf virtualAddr)).valid = false := by
    rw [pte, hprocs₀]
    exact hinvalid
  obtain ⟨s₁, hs₁, hbit₁⟩ := hacc₀.exists_room hfit₀ (by rwa [hkept₀.numPhysPages]) hinvalid₀
  obtain ⟨rest, hacc₁, hroom, hkept₁, -⟩ := hacc₀.makeRoom hfit₀ hs₁
  have hkept := hkept₀.trans hkept₁
  have hexe := hkept.executable p
  rw [← hexe] at hmagic hloads
  obtain ⟨f, frames, hf, hacc₂, heq⟩ :=
    @Accounts.allocVirtualPage s₁ p rest hacc₁ hroom virtualAddr stack hmagic
  have hfit₁ : StoresFit s₁ := hfit₀.kept hkept₁
  obtain ⟨s₂, hs₂, hmapped, hbytes⟩ := hacc₂.placePage_loads hfit₁ hf
    (by rwa [← hkept.numProcs] at hp) (by rwa [← hkept.numPages] at hv)
    (by rw [hbit₁, hprocs₀, hbit]) hloads
  refine ⟨f, s₂, ?_, hmapped, hbytes⟩
  rw [hfault]
  simp only [hs₁, heq, hs₂]

/-- The loaded image is the sections of the COFF file: whatever processes run, a page of one
that runs the converted file is brought in, before it has been written back, with the bytes of
the sections. -/
theorem coff_sections_loaded {coff noff : File} {noffH : NoffHeader}
    (hwf : Coff.WellFormed (Coff.sections coff)) (hconv : Coff.coff2noff coff noffH = some noff)
    {numPhysPages maxProcess : ℕ} (hn : 0 < numPhysPages) {words : ℕ → BitVec 32} {s₀ s : VM}
    (h₀ : boot numPhysPages maxProcess words = .ok s₀) (h : Reachable (step false) s₀ s)
    {p : ℕ} (hp : p < s.numProcs) (hexe : (s.procs p).space.currentExecutable = noff)
    (virtualAddr : BitVec 32) (hv : virtualAddr.toNat < (s.procs p).space.numPages * pageSize)
    (hinvalid : (s.pte p (vpnOf virtualAddr)).valid = false)
    (hfirst : (s.procs p).backingStore.pages.test (vpnOf virtualAddr) = .ok false)
    (stack : ℕ → Byte) :
    ∃ (f : ℕ) (s' : VM), s.pageFault false p virtualAddr stack = .ok (0, s') ∧
      s'.Mapped (p, vpnOf virtualAddr) f ∧
        ∀ k < pageSize, Coff.Shows coff (vpnOf virtualAddr * pageSize + k)
          (s'.mainMemory (f * pageSize + k)) := by
  have hconverted := Coff.coff2noff_spec hwf hconv
  obtain ⟨hcode, hdata⟩ := hconverted.inside hwf
  have hheader := readHeader_eq hconverted.header_le stack
  obtain ⟨hsound, hphys⟩ : Sound s ∧ s.numPhysPages = numPhysPages := by
    refine Reachable.invariant (I := fun s => Sound s ∧ s.numPhysPages = numPhysPages)
      ⟨sound_boot h₀, numPhysPages_boot h₀⟩ ?_ h
    intro s op s' _ hs hstep
    exact ⟨hs.1.step hstep, (hs.1.numPhysPages_step hstep).trans hs.2⟩
  have hv : vpnOf virtualAddr < (s.procs p).space.numPages := vpnOf_lt_iff.2 hv
  have hbit : (s.procs p).backingStore.pages.bit (vpnOf virtualAddr) = false := by
    rw [BitMap.test_eq (by rwa [hsound.fit p hp])] at hfirst
    simpa using hfirst
  have hrange : vpnOf virtualAddr * pageSize + pageSize ≤ 2 ^ 32 := by
    have := virtualAddr.isLt
    have hpage : pageSize = 128 := rfl
    simp only [vpnOf, hpage]
    omega
  obtain ⟨f, s', hs', hmapped, hbytes⟩ := hsound.pageFault_loads virtualAddr stack
    noff.image (by rwa [hphys]) hp hv hinvalid hbit
    (by rw [hexe, hheader]; exact hconverted.magic)
    (fun k hk => by
      rw [hexe, hheader]
      exact File.loads_image hcode hdata (by omega))
  refine ⟨f, s', hs', hmapped, ?_⟩
  intro k hk
  rw [hbytes k hk]
  exact hconverted.shows hwf _

/-- A COFF file with a `.text` section of two bytes at 0, an empty `.bss` section and an
`.rdata` section of one byte at 130. -/
def twoSections : File where
  length := 199
  byte := fun i => ([0x62, 0x01, 3, 0] ++ List.replicate 16 0 ++ [0x07, 0x01] ++
    List.replicate 54 0 ++
    [46, 116, 101, 120, 116, 0, 0, 0, 0, 0, 0, 0, 0, 0, 0, 0, 2, 0, 0, 0, 196, 0, 0, 0] ++
    List.replicate 16 0 ++
    [46, 98, 115, 115, 0, 0, 0, 0, 64, 0, 0, 0, 64, 0, 0, 0, 0, 0, 0, 0, 0, 0, 0, 0] ++
    List.replicate 16 0 ++
    [46, 114, 100, 97, 116, 97, 0, 0, 130, 0, 0, 0, 130, 0, 0, 0, 1, 0, 0, 0, 198, 0, 0, 0] ++
    List.replicate 16 0 ++ [11, 12, 13] : List Byte).getD i 0

/-- What the stack of `main` held. -/
def oldHeader : NoffHeader where
  noffMagic := 0
  code := ⟨5, 5, 5⟩
  initData := ⟨5, 5, 5⟩
  uninitData := ⟨5, 5, 5⟩

theorem twoSections_wellFormed : Coff.WellFormed (Coff.sections twoSections) where
  size := by decide +kernel
  paddr := by decide +kernel
  end_lt := by decide +kernel
  scnptr := by decide +kernel
  text := by decide +kernel
  disjoint := by
    have hends : ((Coff.sections twoSections).filter fun sec => sec.size ≠ 0#32).Pairwise
        fun sec sec' => sec.paddr.toNat + sec.size.toNat ≤ sec'.paddr.toNat := by decide +kernel
    refine hends.imp ?_
    rintro sec sec' hle a ⟨⟨-, hhigh⟩, hlow, -⟩
    omega

/-- The page of the `.rdata` section is brought in. -/
theorem coff_sections_loaded_rdata :
    ∃ (noff : File) (s₀ s s' : VM) (f : ℕ),
      Coff.coff2noff twoSections oldHeader = some noff ∧
        boot 2 14 (fun _ => 0) = .ok s₀ ∧
          s₀.step false (.exec noff (fun _ => 0) (fun _ => 0) true) = .ok s ∧
            s.pageFault false 0 130 (fun _ => 0) = .ok (0, s') ∧
              s'.Mapped (0, 1) f ∧ s'.mainMemory (f * pageSize + 2) = 13#8 := by
  obtain ⟨noff, hnoff⟩ : ∃ noff, noff = (Coff.coff2noff twoSections oldHeader).getD .empty :=
    ⟨_, rfl⟩
  have hconv : Coff.coff2noff twoSections oldHeader = some noff := by
    have hsome : (Coff.coff2noff twoSections oldHeader).isSome = true := by decide +kernel
    obtain ⟨file, hfile⟩ := Option.isSome_iff_exists.1 hsome
    rw [hnoff, hfile]
    rfl
  obtain ⟨s₀, h₀⟩ : ∃ s₀, boot 2 14 (fun _ => 0) = .ok s₀ := ⟨_, rfl⟩
  have hpass : passes (step false) s₀ [.exec noff (fun _ => 0) (fun _ => 0) true] (fun s =>
      decide (s.numProcs = 1 ∧ 130 < (s.procs 0).space.numPages * pageSize)) = true := by
    cases h₀
    rw [hnoff]
    decide +kernel
  rcases (sound_boot h₀).tables.exec noff (fun _ => 0) (fun _ => 0) true with
    ⟨t, heq, -⟩ | ⟨space, pages, i, t, t', heq, hinit, hnum, hclear, -, -⟩
  · simp only [passes, runFrom, step, heq] at hpass
    cases h₀
    simp at hpass
  · have hstep : s₀.step false (.exec noff (fun _ => 0) (fun _ => 0) true) =
        .ok (s₀.started space pages i t t') := heq
    simp only [passes, runFrom, hstep, decide_eq_true_eq] at hpass
    have hprocs : s₀.numProcs = 0 := by
      cases h₀
      rfl
    have hspace : (s₀.started space pages i t t').procs 0 =
        { space := space
          backingStore := ⟨pages, BackingStore.filenameOf i, i⟩
          alive := true } := by
      simp [started, hprocs]
    have hpage : vpnOf 130#32 < space.numPages := by
      have hlt := hpass.2
      rw [hspace] at hlt
      exact vpnOf_lt_iff.2 hlt
    have hreach : Reachable (step false) s₀ (s₀.started space pages i t t') := by
      refine ⟨[.exec noff (fun _ => 0) (fun _ => 0) true], ?_⟩
      rw [runFrom, hstep]
      rfl
    obtain ⟨f, s', hs', hmapped, hshows⟩ := coff_sections_loaded
      twoSections_wellFormed hconv (by decide) h₀ hreach (by rw [hpass.1]; decide)
      (by rw [hspace, (initialize_eq hinit).2]) 130#32 hpass.2
      (by rw [pte, hspace, (initialize_eq hinit).2]; rfl)
      (by rw [hspace, BitMap.test_eq (by rw [hnum]; exact hpage), hclear _ hpage])
      fun _ => 0
    refine ⟨noff, s₀, _, s', f, hconv, h₀, hstep, hs', hmapped, ?_⟩
    have hmem : Coff.scnhdrAt twoSections.byte 156 ∈ Coff.sections twoSections :=
      List.mem_map.2 ⟨2, by decide +kernel, rfl⟩
    exact ((hshows 2 (by decide)).covered _ hmem (by decide +kernel) (by decide +kernel)).trans
      (by decide +kernel)

end VM

end Nachos
