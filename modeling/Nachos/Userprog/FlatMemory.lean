import Nachos.Userprog.Paging

/-!
# Demand paging is invisible

What a process sees is a flat memory of its own: its initial image, and over it the
bytes it has written. `Mirrors s` says where the machine `s` keeps the bytes of this
memory: a valid page in its frame, a page that is not valid or not dirty in the
backing store, or in the executable when it has never been written back.
-/

namespace Nachos

open Lib

/-! ## Executables -/

/-- The fields are not negative and the sums are in the range of `int`. -/
structure Segment.Sane (seg : Segment) : Prop where
  virtualAddr : 0 ≤ seg.virtualAddr.toInt
  inFileAddr : 0 ≤ seg.inFileAddr.toInt
  size : 0 ≤ seg.size.toInt
  end_lt : seg.virtualAddr.toInt + seg.size.toInt < 2 ^ 31
  fileEnd_lt : seg.inFileAddr.toInt + seg.size.toInt < 2 ^ 31

/-- The header of a file that is long enough. -/
def File.header (executable : File) : NoffHeader where
  noffMagic := wordAt executable.byte 0
  code := segmentAt executable.byte 4
  initData := segmentAt executable.byte 16
  uninitData := segmentAt executable.byte 28

/-- An executable with a sane header whose segments lie inside the file. -/
structure File.Loadable (executable : File) : Prop where
  header : sizeofNoffHeader ≤ executable.length
  code : executable.header.code.Sane
  initData : executable.header.initData.Sane
  uninitData : executable.header.uninitData.Sane
  size_lt : executable.header.code.size.toInt + executable.header.initData.size.toInt +
    executable.header.uninitData.size.toInt + userStackSize.toInt + argumentSize.toInt < 2 ^ 31
  code_le : executable.header.code.inFileAddr.toInt + executable.header.code.size.toInt ≤
    executable.length
  initData_le : executable.header.initData.inFileAddr.toInt +
    executable.header.initData.size.toInt ≤ executable.length

/-- The bytes that the segments of the executable take. -/
def File.extent (executable : File) : ℕ :=
  executable.header.code.size.toNat + executable.header.initData.size.toNat +
    executable.header.uninitData.size.toNat

/-- The address belongs to the segment. -/
def Segment.Covers (seg : Segment) (a : ℕ) : Prop :=
  seg.virtualAddr.toNat ≤ a ∧ a < seg.virtualAddr.toNat + seg.size.toNat

instance (seg : Segment) (a : ℕ) : Decidable (seg.Covers a) :=
  inferInstanceAs (Decidable (_ ∧ _))

/-- The initial image: the bytes of the code segment, else of the initialised data,
else zero. -/
def File.image (executable : File) (a : ℕ) : Byte :=
  let code := executable.header.code
  let initData := executable.header.initData
  if code.Covers a then
    executable.byte (code.inFileAddr.toNat + (a - code.virtualAddr.toNat))
  else if initData.Covers a then
    executable.byte (initData.inFileAddr.toNat + (a - initData.virtualAddr.toNat))
  else
    0

theorem wordAt_splice {stack b : ℕ → Byte} {n k : ℕ} (h : k + 4 ≤ n) :
    wordAt (splice stack 0 n b) k = wordAt b k := by
  unfold wordAt
  rw [splice_front (by omega), splice_front (by omega), splice_front (by omega),
    splice_front (by omega)]

/-- The header does not depend on what the stack held. -/
theorem readHeader_eq {executable : File} (h : sizeofNoffHeader ≤ executable.length)
    (stack : ℕ → Byte) : readHeader executable stack = executable.header := by
  unfold readHeader File.header segmentAt
  rw [Nat.min_eq_left h]
  simp only [sizeofNoffHeader, Nat.reduceAdd]
  rw [wordAt_splice (by decide), wordAt_splice (by decide), wordAt_splice (by decide),
    wordAt_splice (by decide), wordAt_splice (by decide), wordAt_splice (by decide),
    wordAt_splice (by decide), wordAt_splice (by decide), wordAt_splice (by decide),
    wordAt_splice (by decide)]

theorem toInt_eq_of_nonneg {x : BitVec 32} (h : 0 ≤ x.toInt) :
    x.toInt = x.toNat ∧ x.toNat < 2 ^ 31 := by
  have := x.isLt
  rw [BitVec.toInt_eq_toNat_cond] at h ⊢
  split at h
  · rename_i hlt
    rw [if_pos hlt]
    omega
  · omega

theorem toInt_eq_of_lt {x : BitVec 32} (h : x.toNat < 2 ^ 31) : x.toInt = x.toNat :=
  BitVec.toInt_eq_toNat_of_lt (by omega)

/-- The test of the loop of `allocVirtualPage` finds the addresses of the segment. An address
from `2 ^ 31` on is a negative `int`. -/
theorem Segment.Sane.holds_iff {seg : Segment} (h : seg.Sane) {a : ℕ} (ha : a < 2 ^ 32) :
    seg.holds (BitVec.ofNat 32 a) ↔ seg.Covers a := by
  obtain ⟨hv, hvlt⟩ := toInt_eq_of_nonneg h.virtualAddr
  obtain ⟨hs, hslt⟩ := toInt_eq_of_nonneg h.size
  have hend := h.end_lt
  have hsum : (seg.virtualAddr + seg.size).toNat = seg.virtualAddr.toNat + seg.size.toNat := by
    rw [BitVec.toNat_add]
    omega
  have hsum' := toInt_eq_of_lt (x := seg.virtualAddr + seg.size) (by omega)
  have haddr : (BitVec.ofNat 32 a).toNat = a := by
    rw [BitVec.toNat_ofNat]
    omega
  have haddr' := BitVec.toInt_eq_toNat_cond (BitVec.ofNat 32 a)
  unfold Segment.holds Segment.Covers
  split at haddr' <;> omega

/-- The position that the loop of `allocVirtualPage` computes. -/
theorem Segment.Sane.position_eq {seg : Segment} (h : seg.Sane) {a : ℕ} (hcovers : seg.Covers a) :
    (seg.inFileAddr + (BitVec.ofNat 32 a - seg.virtualAddr)).toInt =
      ((seg.inFileAddr.toNat + (a - seg.virtualAddr.toNat) : ℕ) : ℤ) := by
  obtain ⟨hlow, hhigh⟩ := hcovers
  obtain ⟨hf, hflt⟩ := toInt_eq_of_nonneg h.inFileAddr
  obtain ⟨hs, hslt⟩ := toInt_eq_of_nonneg h.size
  obtain ⟨hv, hvlt⟩ := toInt_eq_of_nonneg h.virtualAddr
  have hend := h.fileEnd_lt
  have hvend := h.end_lt
  have hnat : (seg.inFileAddr + (BitVec.ofNat 32 a - seg.virtualAddr)).toNat =
      seg.inFileAddr.toNat + (a - seg.virtualAddr.toNat) := by
    rw [BitVec.toNat_add, BitVec.toNat_sub, BitVec.toNat_ofNat]
    omega
  rw [toInt_eq_of_lt (by omega), hnat]

/-- The loop of `allocVirtualPage` finds the byte `b` for the address `a`: it reads it at a
position of the file, or it reads nothing and the byte is zero. -/
def File.Loads (executable : File) (noffH : NoffHeader) (a : ℕ) (b : Byte) : Prop :=
  match noffH.source (BitVec.ofNat 32 a) with
  | none => b = 0
  | some position => ∃ n : ℕ, position.toInt = n ∧ n < executable.length ∧ executable.byte n = b

theorem readAt_one {executable : File} {n : ℕ} (hn : n < executable.length) (mem : ℕ → Byte)
    (into : ℕ) :
    executable.readAt mem into 1 n = .ok (splice mem into 1 fun _ => executable.byte n) := by
  have hmin : min 1 (executable.length - n) = 1 := by omega
  rw [File.readAt, if_neg (by omega), Int.toNat_natCast, hmin]
  congr 1
  refine splice_congr ?_
  intro k hk
  rw [Nat.lt_one_iff.1 hk, Nat.add_zero]

/-- The loop of `allocVirtualPage` copies the bytes that it finds to a cleared frame. -/
theorem loadLoop_eq {executable : File} {noffH : NoffHeader} {image : ℕ → Byte}
    {vpAddr frame k written : ℕ} {mem : ℕ → Byte} {flag : Bool}
    (hloads : ∀ j < k, executable.Loads noffH (vpAddr + written + j) (image (vpAddr + written + j)))
    (hzero : ∀ j < k, mem (frame + written + j) = 0) :
    ∃ flag', loadLoop executable noffH vpAddr frame k written mem flag =
      .ok (splice mem (frame + written) k fun j => image (vpAddr + written + j), flag') := by
  induction k generalizing written mem flag with
  | zero =>
      refine ⟨flag, ?_⟩
      rw [loadLoop, splice_zero]
  | succ k ih =>
      -- the rest of the loop, once the first byte is the one of the image
      have hnext : ∀ m' : ℕ → Byte, m' = splice mem (frame + written) 1
          (fun j => image (vpAddr + written + j)) →
          ∀ flag, ∃ flag', loadLoop executable noffH vpAddr frame k (written + 1) m'
            flag = .ok (splice mem (frame + written) (k + 1)
              fun j => image (vpAddr + written + j), flag') := by
        intro m' hm' flag
        have hzero' : ∀ j < k, m' (frame + (written + 1) + j) = 0 := by
          intro j hj
          rw [hm', splice_of_le (by omega), show frame + (written + 1) + j =
            frame + written + (j + 1) by omega]
          exact hzero (j + 1) (by omega)
        have hloads' : ∀ j < k, executable.Loads noffH (vpAddr + (written + 1) + j)
            (image (vpAddr + (written + 1) + j)) := by
          intro j hj
          rw [show vpAddr + (written + 1) + j = vpAddr + written + (j + 1) by omega]
          exact hloads (j + 1) (by omega)
        obtain ⟨flag', hflag'⟩ : ∃ flag', loadLoop executable noffH vpAddr frame k
            (written + 1) m' flag = .ok (splice m' (frame + (written + 1)) k
              fun j => image (vpAddr + (written + 1) + j), flag') := ih hloads' hzero'
        refine ⟨flag', ?_⟩
        rw [hflag', splice_succ, hm']
        congr 2
        refine splice_congr ?_
        intro j _
        congr 1
        omega
      have hfirst : ∀ b : Byte, b = image (vpAddr + written) →
          splice mem (frame + written) 1 (fun _ => b) = splice mem (frame + written) 1
            (fun j => image (vpAddr + written + j)) := by
        intro b hb
        refine splice_congr ?_
        intro j hj
        rw [hb, Nat.lt_one_iff.1 hj, Nat.add_zero]
      have hload := hloads 0 (by omega)
      rw [Nat.add_zero, File.Loads, Nat.add_comm vpAddr written] at hload
      rw [loadLoop]
      cases hsource : noffH.source (BitVec.ofNat 32 (written + vpAddr)) with
      | none =>
          rw [hsource] at hload
          refine hnext mem ?_ flag
          rw [← hfirst 0 (by rw [Nat.add_comm vpAddr]; exact hload.symm)]
          refine (splice_self mem (frame + written) 1).symm.trans (splice_congr ?_)
          intro j hj
          exact hzero j (by omega)
      | some position =>
          rw [hsource] at hload
          obtain ⟨n, hposition, hn, hbyte⟩ := hload
          simp only [hposition, readAt_one hn]
          exact hnext _ (hfirst _ (by rw [Nat.add_comm vpAddr]; exact hbyte)) true

/-- A segment that is empty, or sane and inside the file. -/
def Segment.Inside (seg : Segment) (executable : File) : Prop :=
  seg.size = 0#32 ∨ seg.Sane ∧ seg.inFileAddr.toInt + seg.size.toInt ≤ executable.length

theorem Segment.Inside.holds_iff {seg : Segment} {executable : File} (h : seg.Inside executable)
    {a : ℕ} (ha : a < 2 ^ 32) : seg.holds (BitVec.ofNat 32 a) ↔ seg.Covers a := by
  rcases h with hempty | ⟨hsane, -⟩
  · unfold Segment.holds Segment.Covers
    simp only [hempty, BitVec.toInt_zero, BitVec.toNat_zero]
    omega
  · exact hsane.holds_iff ha

/-- A byte of a segment is inside the file. -/
theorem Segment.Inside.loads {seg : Segment} {executable : File} (h : seg.Inside executable)
    {a : ℕ} (hcovers : seg.Covers a) :
    ∃ n : ℕ, (seg.inFileAddr + (BitVec.ofNat 32 a - seg.virtualAddr)).toInt = n ∧
      n < executable.length ∧ executable.byte n =
        executable.byte (seg.inFileAddr.toNat + (a - seg.virtualAddr.toNat)) := by
  obtain ⟨hlow, hhigh⟩ := hcovers
  rcases h with hempty | ⟨hsane, hinside⟩
  · rw [hempty, BitVec.toNat_zero] at hhigh
    omega
  · refine ⟨_, hsane.position_eq ⟨hlow, hhigh⟩, ?_, rfl⟩
    obtain ⟨hf, -⟩ := toInt_eq_of_nonneg hsane.inFileAddr
    obtain ⟨hs, -⟩ := toInt_eq_of_nonneg hsane.size
    omega

/-- The loop of `allocVirtualPage` finds the initial image. -/
theorem File.loads_image {executable : File} (hcode : executable.header.code.Inside executable)
    (hdata : executable.header.initData.Inside executable) {a : ℕ} (ha : a < 2 ^ 32) :
    executable.Loads executable.header a (executable.image a) := by
  unfold File.Loads NoffHeader.source
  by_cases hin : executable.header.code.Covers a
  · rw [if_pos ((hcode.holds_iff ha).2 hin)]
    simp only [File.image, if_pos hin]
    exact hcode.loads hin
  · rw [if_neg fun hholds => hin ((hcode.holds_iff ha).1 hholds)]
    by_cases hin' : executable.header.initData.Covers a
    · rw [if_pos ((hdata.holds_iff ha).2 hin')]
      simp only [File.image, if_neg hin, if_pos hin']
      exact hdata.loads hin'
    · rw [if_neg fun hholds => hin' ((hdata.holds_iff ha).1 hholds)]
      simp only [File.image, if_neg hin, if_neg hin']

namespace VM

variable {s s' : VM} {p v : ℕ} {resident : List (VPage × ℤ)} {held : List ℤ}

/-! ## Where the bytes are -/

/-- The byte `k` of a page, as it is in the backing store or else in the executable. -/
def stored (s : VM) (p v k : ℕ) : Byte :=
  if (s.procs p).backingStore.pages.bit v then
    (s.files (s.procs p).backingStore.filename).byte (v * pageSize + k)
  else
    (s.procs p).space.currentExecutable.image (v * pageSize + k)

/-- The flat memories are where the machine keeps them. -/
structure Mirrors (s : VM) (flat : ℕ → ℕ → Byte) : Prop where
  frame : ∀ p v f, s.Mapped (p, v) f → ∀ k < pageSize,
    s.mainMemory (f.toNat * pageSize + k) = flat p (v * pageSize + k)
  store : ∀ p < s.numProcs, ∀ v < (s.procs p).space.numPages,
    (s.pte p v).valid = false ∨ (s.pte p v).dirty = false → ∀ k < pageSize,
      s.stored p v k = flat p (v * pageSize + k)
  length : ∀ p < s.numProcs, ∀ v < (s.procs p).space.numPages,
    (s.procs p).backingStore.pages.bit v = true →
      (v + 1) * pageSize ≤ (s.files (s.procs p).backingStore.filename).length
  writable : ∀ p v, (s.pte p v).readOnly = false

/-- The processes run executables that can be loaded. -/
structure Programs (s : VM) : Prop where
  loadable : ∀ p < s.numProcs, (s.procs p).space.currentExecutable.Loadable
  magic : ∀ p < s.numProcs, (s.procs p).space.currentExecutable.header.noffMagic = NOFFMAGIC
  range : ∀ p < s.numProcs, (s.procs p).space.numPages * pageSize ≤ 2 ^ 31
  /-- There is room for the stack and the arguments above the segments. -/
  room : ∀ p < s.numProcs, (s.procs p).space.currentExecutable.extent + userStackSize.toNat +
    argumentSize.toNat ≤ (s.procs p).space.numPages * pageSize

theorem Programs.kept (h : Programs s) (hkept : Kept s s') : Programs s' := by
  refine ⟨?_, ?_, ?_, ?_⟩ <;> intro q hq <;> rw [hkept.numProcs] at hq
  · rw [hkept.executable]
    exact h.loadable q hq
  · rw [hkept.executable]
    exact h.magic q hq
  · rw [hkept.numPages]
    exact h.range q hq
  · rw [hkept.numPages, hkept.executable]
    exact h.room q hq

/-- A page that is not in the backing store is filled with the bytes that the loop of
`allocVirtualPage` finds for it. -/
theorem fillPage_loads {f : ℕ} {noffH : NoffHeader} {image : ℕ → Byte}
    (hframe : (s.pte p v).physicalPage = f) (hf : f < s.numPhysPages)
    (hbits : v < (s.procs p).backingStore.pages.numBits)
    (hbit : (s.procs p).backingStore.pages.bit v = false)
    (hloads : ∀ k < pageSize, (s.procs p).space.currentExecutable.Loads noffH (v * pageSize + k)
      (image (v * pageSize + k))) :
    ∃ stats, s.fillPage p v noffH = .ok { s with
      mainMemory := splice s.mainMemory (f * pageSize) pageSize fun k => image (v * pageSize + k)
      stats := stats } := by
  have haddr : s.frameAddr (s.pte p v).physicalPage = .ok (f * pageSize) := by
    rw [hframe, frameAddr_eq hf]
  obtain ⟨flag, hflag⟩ : ∃ flag, loadLoop (s.procs p).space.currentExecutable noffH
      (v * pageSize) (f * pageSize) pageSize 0
      (splice s.mainMemory (f * pageSize) pageSize fun _ => 0) false = .ok (splice
        (splice s.mainMemory (f * pageSize) pageSize fun _ => 0) (f * pageSize + 0) pageSize
          fun j => image (v * pageSize + 0 + j), flag) :=
    loadLoop_eq hloads fun j hj => splice_add hj
  rw [Nat.add_zero, Nat.add_zero, splice_splice] at hflag
  unfold fillPage
  simp only [haddr, BitMap.test_eq hbits, hbit, hflag]
  exact ⟨_, rfl⟩

/-- `allocVirtualPage` fills a frame with the stored bytes of the page. -/
theorem fillPage_content {f : ℕ} (hframe : (s.pte p v).physicalPage = f)
    (hf : f < s.numPhysPages) (hbits : v < (s.procs p).backingStore.pages.numBits)
    (hload : (s.procs p).space.currentExecutable.Loadable) (hrange : (v + 1) * pageSize ≤ 2 ^ 31)
    (hlen : (s.procs p).backingStore.pages.bit v = true →
      (v + 1) * pageSize ≤ (s.files (s.procs p).backingStore.filename).length) :
    ∃ stats b, s.fillPage p v (s.procs p).space.currentExecutable.header = .ok ({ s with
      mainMemory := splice s.mainMemory (f * pageSize) pageSize (s.stored p v)
      stats := stats }.setEntry p v { s.pte p v with valid := b }) := by
  have haddr : s.frameAddr (s.pte p v).physicalPage = .ok (f * pageSize) := by
    rw [hframe, frameAddr_eq hf]
  cases hbit : (s.procs p).backingStore.pages.bit v with
  | false =>
      have hstored : s.stored p v = fun j =>
          (s.procs p).space.currentExecutable.image (v * pageSize + j) := by
        funext j
        simp [stored, hbit]
      rw [Nat.add_mul] at hrange
      obtain ⟨stats, hfill⟩ := fillPage_loads hframe hf hbits hbit
        fun k hk => File.loads_image (.inr ⟨hload.code, hload.code_le⟩)
          (.inr ⟨hload.initData, hload.initData_le⟩) (a := v * pageSize + k) (by omega)
      rw [hfill, hstored]
      exact ⟨stats, (s.pte p v).valid, congrArg Except.ok (setEntry_pte _ p v).symm⟩
  | true =>
      have hstored : s.stored p v = fun j =>
          (s.files (s.procs p).backingStore.filename).byte (v * pageSize + j) := by
        funext j
        simp [stored, hbit]
      have hlen := hlen hbit
      rw [Nat.add_mul] at hlen
      have hmin : min pageSize ((s.files (s.procs p).backingStore.filename).length -
          v * pageSize) = pageSize := by omega
      have hread : (s.files (s.procs p).backingStore.filename).readAt
          (splice s.mainMemory (f * pageSize) pageSize fun _ => 0) (f * pageSize) pageSize
            ((v * pageSize : ℕ) : ℤ) =
          .ok (splice s.mainMemory (f * pageSize) pageSize (s.stored p v)) := by
        rw [File.readAt, if_neg (by omega), Int.toNat_natCast, hmin, splice_splice, hstored]
      have haddr' : VM.frameAddr { s with
          mainMemory := splice s.mainMemory (f * pageSize) pageSize fun _ => 0 }
            (s.pte p v).physicalPage = .ok (f * pageSize) := haddr
      unfold fillPage pageIn
      simp only [VM.pte] at haddr haddr' ⊢
      simp only [haddr, BitMap.test_eq hbits, hbit, haddr', hread]
      exact ⟨{ s.stats with numPageIns := s.stats.numPageIns + 1 }, true, rfl⟩

/-! ## Page-out -/

theorem filenameOf_injective : Function.Injective BackingStore.filenameOf := by
  intro a b h
  have hdigit : ∀ d < 10, (Char.ofNat (d + 48)).toNat - 48 = d := by decide
  have hinv : ∀ n, ((Nat.digits 10 n).map fun d => Char.ofNat (d + 48)).map
      (fun c => c.toNat - 48) = Nat.digits 10 n := by
    intro n
    rw [List.map_map]
    refine (List.map_congr_left ?_).trans (List.map_id _)
    intro d hd
    exact hdigit d (Nat.digits_lt_base (by decide) hd)
  have hmap := List.append_cancel_left h
  exact Nat.digits.injective 10 ((hinv a).symm.trans ((congrArg _ hmap).trans (hinv b)))

/-- Two processes have different backing files. -/
theorem Tables.filename_ne (h : Tables s) {q : ℕ} (hp : p < s.numProcs) (hq : q < s.numProcs)
    (hne : q ≠ p) :
    (s.procs q).backingStore.filename ≠ (s.procs p).backingStore.filename := by
  intro heq
  rw [h.filename q hq, h.filename p hp] at heq
  have hid := filenameOf_injective heq
  have howner := h.owner q hq
  rw [hid, h.owner p hp] at howner
  exact hne (Option.some.inj howner).symm

theorem stored_setEntry (s : VM) (p v : ℕ) (e : TranslationEntry) (q w k : ℕ) :
    (s.setEntry p v e).stored q w k = s.stored q w k := by
  unfold stored
  rw [backingStore_setEntry, executable_setEntry]
  rfl

/-- The page that is written back. -/
theorem stored_wroteBack_self {pages : BitMap} (hbit : pages.bit v = true) {k : ℕ}
    (hk : k < pageSize) :
    (s.wroteBack p v pages).stored p v k =
      s.mainMemory ((s.pte p v).physicalPage.toNat * pageSize + k) := by
  have hstore := (procs_wroteBack s p v pages p).2.2
  unfold stored
  rw [hstore]
  simp only [if_true, hbit, wroteBack, Function.update_self, File.writeAt]
  rw [splice_add hk]

/-- The other pages. -/
theorem stored_wroteBack_ne {pages : BitMap} {q w k : ℕ} (hqw : ¬ (q = p ∧ w = v))
    (hname : q ≠ p →
      (s.procs q).backingStore.filename ≠ (s.procs p).backingStore.filename)
    (hbits : ∀ j, pages.bit j = (decide (j = v) || (s.procs p).backingStore.pages.bit j))
    (hlen : (s.procs q).backingStore.pages.bit w = true →
      (w + 1) * pageSize ≤ (s.files (s.procs q).backingStore.filename).length)
    (hk : k < pageSize) : (s.wroteBack p v pages).stored q w k = s.stored q w k := by
  obtain ⟨hspace, -, hstore⟩ := procs_wroteBack s p v pages q
  unfold stored
  rw [hspace, hstore]
  by_cases hq : q = p
  · subst hq
    have hw : w ≠ v := fun h => hqw ⟨rfl, h⟩
    simp only [if_true, hbits, hw, decide_false, Bool.false_or]
    split
    · rename_i hbit
      have hlt : w * pageSize + k < (s.files (s.procs q).backingStore.filename).length := by
        have := hlen hbit
        rw [Nat.add_mul] at this
        omega
      simp only [wroteBack, Function.update_self, File.writeAt]
      rw [splice_block hw hk]
      exact if_pos hlt
    · rfl
  · simp only [if_neg hq]
    split
    · simp only [wroteBack, Function.update_of_ne (hname hq)]
    · rfl

/-- A page that is in the backing store is there as a whole. -/
theorem length_wroteBack {pages : BitMap} {q w : ℕ}
    (hname : q ≠ p →
      (s.procs q).backingStore.filename ≠ (s.procs p).backingStore.filename)
    (hbits : ∀ j, pages.bit j = (decide (j = v) || (s.procs p).backingStore.pages.bit j))
    (hlen : (s.procs q).backingStore.pages.bit w = true →
      (w + 1) * pageSize ≤ (s.files (s.procs q).backingStore.filename).length)
    (hbit : ((s.wroteBack p v pages).procs q).backingStore.pages.bit w = true) :
    (w + 1) * pageSize ≤ ((s.wroteBack p v pages).files
      ((s.wroteBack p v pages).procs q).backingStore.filename).length := by
  obtain ⟨-, -, hstore⟩ := procs_wroteBack s p v pages q
  rw [hstore] at hbit ⊢
  by_cases hq : q = p
  · subst hq
    simp only [if_true, hbits, Bool.or_eq_true, decide_eq_true_eq] at hbit
    simp only [wroteBack, Function.update_self, File.writeAt]
    rcases hbit with rfl | hbit
    · rw [Nat.add_mul]
      omega
    · exact Nat.le_trans (hlen hbit) (Nat.le_max_left _ _)
  · simp only [if_neg hq] at hbit
    simp only [wroteBack, Function.update_of_ne (hname hq)]
    exact hlen hbit

/-- An eviction leaves the bytes of every page where they are looked for. -/
theorem Mirrors.evicted {flat : ℕ → ℕ → Byte} {f : ℤ} {coreMap : CoreMap} {s₁ : VM}
    (h : Mirrors s flat) (htables : Tables s) (hmap : s.Mapped (p, v) f)
    (hout : PagedOut { s with coreMap := coreMap } p v s₁) (frames : BitMap) :
    Mirrors (s₁.evicted p v frames) flat := by
  have hkept := hout.kept_evicted frames
  obtain ⟨hp, hv, hvalid, hframe⟩ := hmap
  have hmem : (s₁.evicted p v frames).mainMemory = s.mainMemory := by
    rcases hout with ⟨-, rfl⟩ | ⟨-, pages, -, -, rfl⟩ <;> rfl
  have hmapped : ∀ w g, (s₁.evicted p v frames).Mapped w g → s.Mapped w g := by
    intro w g hw
    have hw : (s₁.setEntry p v _).Mapped w g := hw
    rw [mapped_setEntry_invalid rfl, hout.sameFrames.mapped] at hw
    exact hw.1
  have hstored : ∀ q w k, (s₁.evicted p v frames).stored q w k = s₁.stored q w k :=
    fun q w k => stored_setEntry s₁ p v _ q w k
  refine ⟨?_, ?_, ?_, ?_⟩
  · intro q w g hw k hk
    rw [hmem]
    exact h.frame q w g (hmapped _ _ hw) k hk
  · intro q hq w hw hclean k hk
    rw [hkept.numProcs] at hq
    rw [hkept.numPages] at hw
    rw [hout.pte_evicted] at hclean
    rw [hstored]
    rcases hout with ⟨hdirty, rfl⟩ | ⟨hdirty, pages, -, hbits, rfl⟩
    · refine h.store q hq w hw ?_ k hk
      split at hclean
      · rename_i heq
        rw [heq.1, heq.2]
        exact .inr hdirty
      · exact hclean
    · by_cases heq : q = p ∧ w = v
      · obtain ⟨rfl, rfl⟩ := heq
        have hbit : pages.bit w = true := by simp [hbits]
        rw [stored_wroteBack_self hbit hk]
        exact h.frame q w _ ⟨hq, hw, hvalid, rfl⟩ k hk
      · rw [if_neg heq] at hclean
        exact (stored_wroteBack_ne heq (htables.filename_ne hp hq) hbits (h.length q hq w hw)
          hk).trans (h.store q hq w hw hclean k hk)
  · intro q hq w hw hbit
    rw [hkept.numProcs] at hq
    rw [hkept.numPages] at hw
    rcases hout with ⟨-, rfl⟩ | ⟨-, pages, -, hbits, rfl⟩
    · rw [VM.evicted] at hbit ⊢
      simp only [unmapped, backingStore_setEntry] at hbit ⊢
      exact h.length q hq w hw hbit
    · rw [VM.evicted] at hbit ⊢
      simp only [unmapped, backingStore_setEntry] at hbit ⊢
      exact length_wroteBack (htables.filename_ne hp hq) hbits (h.length q hq w hw) hbit
  · intro q w
    rw [hout.pte_evicted]
    split
    · exact h.writable p v
    · exact h.writable q w

/-! ## Page-in -/

theorem stored_allocated (s : VM) (p v f : ℕ) (coreMap : CoreMap)
    (mem : ℕ → Byte) (stats : Statistics) (q w k : ℕ) :
    (s.allocated p v f coreMap mem stats).stored q w k = s.stored q w k := by
  rw [allocated, stored_setEntry]
  exact stored_setEntry { s with
    coreMap := coreMap
    nextCorePage := s.nextCorePage + 1 } p v _ q w k

theorem backingStore_allocated (s : VM) (p v f : ℕ) (coreMap : CoreMap)
    (mem : ℕ → Byte) (stats : Statistics) (q : ℕ) :
    ((s.allocated p v f coreMap mem stats).procs q).backingStore =
      (s.procs q).backingStore := by
  rw [allocated, backingStore_setEntry]
  exact backingStore_setEntry { s with
    coreMap := coreMap
    nextCorePage := s.nextCorePage + 1 } p v _ q

/-- A page that is brought in is in its frame. -/
theorem Mirrors.allocated {flat : ℕ → ℕ → Byte} {f : ℕ} (h : Mirrors s flat)
    (hacc : s.Accounts resident ((f : ℤ) :: held)) (hp : p < s.numProcs)
    (hv : v < (s.procs p).space.numPages) (hinvalid : (s.pte p v).valid = false)
    (coreMap : CoreMap) (stats : Statistics) :
    Mirrors (s.allocated p v f coreMap
      (splice s.mainMemory (f * pageSize) pageSize (s.stored p v)) stats) flat := by
  obtain ⟨mem, hmem⟩ : ∃ mem, mem =
    splice s.mainMemory (f * pageSize) pageSize (s.stored p v) := ⟨_, rfl⟩
  rw [← hmem]
  have hkept := kept_allocated s p v f coreMap mem stats
  refine ⟨?_, ?_, ?_, ?_⟩
  · intro q w g hw k hk
    have hmain : (s.allocated p v f coreMap mem stats).mainMemory = mem := rfl
    rw [hmain, hmem]
    rw [mapped_allocated hp hv] at hw
    rcases hw with ⟨heq, rfl⟩ | ⟨hw, -⟩
    · obtain ⟨rfl, rfl⟩ := Prod.mk.inj heq
      rw [Int.toNat_natCast, splice_add hk]
      exact h.store q hp w hv (.inl hinvalid) k hk
    · -- the frame of another page is not the one that is held
      have hres := (hacc.mapped _ _).2 hw
      obtain ⟨g, rfl, -⟩ := hacc.exists_frame hres
      have hne : g ≠ f := by
        rintro rfl
        have hdisj := (List.nodup_append.1 hacc.nodup).2.2
        exact hdisj g (List.mem_map.2 ⟨_, hres, rfl⟩) g (by simp) rfl
      rw [Int.toNat_natCast, splice_block hne hk]
      exact h.frame q w g hw k hk
  · intro q hq w hw hclean k hk
    rw [hkept.numProcs] at hq
    rw [hkept.numPages] at hw
    rw [stored_allocated]
    refine h.store q hq w hw ?_ k hk
    rw [pte_allocated] at hclean
    split at hclean
    · rename_i heq
      rw [heq.1, heq.2]
      exact .inl hinvalid
    · exact hclean
  · intro q hq w hw hbit
    rw [hkept.numProcs] at hq
    rw [hkept.numPages] at hw
    rw [backingStore_allocated] at hbit ⊢
    exact h.length q hq w hw hbit
  · intro q w
    rw [pte_allocated]
    split
    · exact h.writable p v
    · exact h.writable q w

/-! ## The handler -/

theorem Mirrors.makeRoom {flat : ℕ → ℕ → Byte} (h : Mirrors s flat) (hacc : s.Accounts resident [])
    (hfit : StoresFit s) (htables : Tables s) (hn : 0 < s.numPhysPages) :
    ∃ s₁, (if s.coreMap.isFull then s.evict false else .ok s) = .ok s₁ ∧ Mirrors s₁ flat := by
  by_cases hfull : s.coreMap.isFull = true
  · obtain ⟨p, v, f, rest, m', frames, s₁, rfl, hout, heq, -⟩ :=
      hacc.evict (hacc.ne_nil_of_full hn hfull) hfit
    have hmap := (hacc.mapped (p, v) f).1 (by simp)
    exact ⟨_, by rw [if_pos hfull, heq], h.evicted htables hmap hout frames⟩
  · exact ⟨s, by rw [if_neg hfull], h⟩

/-- A held frame is filled with the page. -/
theorem Mirrors.placePage {flat : ℕ → ℕ → Byte} {f : ℕ} (h : Mirrors s flat)
    (hprog : Programs s) (hacc : s.Accounts resident ((f : ℤ) :: held)) (hfit : StoresFit s)
    (hf : f < s.numPhysPages) (hp : p < s.numProcs) (hv : v < (s.procs p).space.numPages)
    (hinvalid : (s.pte p v).valid = false) :
    ∃ s', s.placePage p v f (s.procs p).space.currentExecutable.header = .ok s' ∧
      Mirrors s' flat ∧ (s'.pte p v).valid = true := by
  obtain ⟨m', -, -, heq⟩ := hacc.placePage p v (s.procs p).space.currentExecutable.header
  obtain ⟨t, htdef⟩ : ∃ t, t = s.assigned p v f m' := ⟨_, rfl⟩
  have hexe : (t.procs p).space.currentExecutable = (s.procs p).space.currentExecutable := by
    rw [htdef, executable_assigned]
  have hstore : (t.procs p).backingStore = (s.procs p).backingStore := by
    rw [htdef, backingStore_assigned]
  have hfiles : t.files = s.files := by
    rw [htdef]
    rfl
  have hframe : (t.pte p v).physicalPage = f := by
    rw [htdef, physicalPage_assigned]
  have hstored : t.stored p v = s.stored p v := by
    funext k
    rw [htdef]
    exact stored_setEntry _ p v _ p v k
  have hrange : (v + 1) * pageSize ≤ 2 ^ 31 :=
    Nat.le_trans (Nat.mul_le_mul_right pageSize hv) (hprog.range p hp)
  obtain ⟨stats, b, hfill⟩ : ∃ stats b, t.fillPage p v (t.procs p).space.currentExecutable.header =
      .ok ({ t with
        mainMemory := splice t.mainMemory (f * pageSize) pageSize (t.stored p v)
        stats := stats }.setEntry p v { t.pte p v with valid := b }) := by
    refine fillPage_content hframe ?_ ?_ ?_ hrange ?_
    · rw [htdef]
      exact hf
    · rw [hstore, hfit p hp]
      exact hv
    · rw [hexe]
      exact hprog.loadable p hp
    · rw [hstore, hfiles]
      exact h.length p hp v hv
  have hmain : t.mainMemory = s.mainMemory := by
    rw [htdef]
    rfl
  rw [hexe, hmain, hstored] at hfill
  rw [← htdef, hfill] at heq
  refine ⟨_, heq, ?_⟩
  rw [htdef, setEntry_filled s p v f m' _ stats b rfl]
  refine ⟨h.allocated hacc hp hv hinvalid m' stats, ?_⟩
  rw [pte_allocated]
  simp

/-- `allocVirtualPage` succeeds when there is a free frame. -/
theorem Mirrors.allocVirtualPage {flat : ℕ → ℕ → Byte} (h : Mirrors s flat)
    (hprog : Programs s) (hacc : s.Accounts resident []) (hfit : StoresFit s)
    (hroom : resident.length < s.numPhysPages) (hp : p < s.numProcs) {virtualAddr : BitVec 32}
    (hv : vpnOf virtualAddr < (s.procs p).space.numPages)
    (hinvalid : (s.pte p (vpnOf virtualAddr)).valid = false) (stack : ℕ → Byte) :
    ∃ s', s.allocVirtualPage p virtualAddr stack = .ok (0, s') ∧ Mirrors s' flat ∧
      (s'.pte p (vpnOf virtualAddr)).valid = true := by
  have hheader := readHeader_eq (hprog.loadable p hp).header stack
  have hmagic : (readHeader (s.procs p).space.currentExecutable stack).noffMagic = NOFFMAGIC := by
    rw [hheader]
    exact hprog.magic p hp
  obtain ⟨f, frames, hf, hacc', heq⟩ := hacc.allocVirtualPage (p := p) hroom hmagic
  have hm : Mirrors { s with frames := frames } flat := ⟨h.frame, h.store, h.length, h.writable⟩
  have hprog' : Programs { s with frames := frames } :=
    ⟨hprog.loadable, hprog.magic, hprog.range, hprog.room⟩
  obtain ⟨s', hs', hplaced⟩ := hm.placePage hprog' hacc' hfit hf hp hv hinvalid
  refine ⟨s', ?_, hplaced⟩
  rw [hheader] at heq
  rw [heq]
  simp only [hs']

/-- A page fault is handled, and the page is there. -/
theorem Mirrors.pageFault {flat : ℕ → ℕ → Byte} (h : Mirrors s flat) (hprog : Programs s)
    (hsound : Sound s) (hn : 0 < s.numPhysPages) (hp : p < s.numProcs) {virtualAddr : BitVec 32}
    (hv : vpnOf virtualAddr < (s.procs p).space.numPages)
    (hinvalid : (s.pte p (vpnOf virtualAddr)).valid = false) (stack : ℕ → Byte) :
    ∃ s', s.pageFault false p virtualAddr stack = .ok (0, s') ∧ Mirrors s' flat ∧
      (s'.pte p (vpnOf virtualAddr)).valid = true := by
  obtain ⟨resident, hacc⟩ := hsound.accounts
  obtain ⟨t, ht, hacc₀, hkept₀, hprocs₀, hfault⟩ := hacc.pageFault_eq p virtualAddr stack
  have hm₀ : Mirrors t flat := by
    obtain ⟨stats, rfl⟩ := ht
    exact ⟨h.frame, h.store, h.length, h.writable⟩
  have hinvalid₀ : (t.pte p (vpnOf virtualAddr)).valid = false := by
    rw [pte, hprocs₀]
    exact hinvalid
  have hsound₀ := hsound.kept ⟨resident, hacc₀⟩ hkept₀
  have hn₀ : 0 < t.numPhysPages := by rwa [hkept₀.numPhysPages]
  obtain ⟨s₁, hs₁, hm₁⟩ := hm₀.makeRoom hacc₀ hsound₀.fit hsound₀.tables hn₀
  obtain ⟨rest, hacc₁, hroom, hkept₁, hpte, -⟩ := hacc₀.makeRoom hsound₀.fit hs₁
  have hkept := hkept₀.trans hkept₁
  have hp₁ : p < s₁.numProcs := by rwa [hkept.numProcs]
  have hv₁ : vpnOf virtualAddr < (s₁.procs p).space.numPages := by rwa [hkept.numPages]
  obtain ⟨s₂, hs₂, hm₂⟩ := hm₁.allocVirtualPage (hprog.kept hkept) hacc₁
    (hsound₀.fit.kept hkept₁) hroom hp₁ hv₁ (hpte p _ hinvalid₀) stack
  refine ⟨s₂, ?_, hm₂⟩
  rw [hfault]
  simp only [hs₁, hs₂]

/-! ## Requests -/

/-- The flat memory of `p` after the events, the last one first. -/
def replay (initial : ℕ → Byte) (p : ℕ) : List MemEvent → ℕ → Byte
  | [] => initial
  | ⟨q, .writeMem addr size value, .written⟩ :: es =>
      if q = p then
        splice (replay initial p es) addr.toNat size fun k => value.extractLsb' (8 * k) 8
      else
        replay initial p es
  | _ :: es => replay initial p es

/-- The flat memory of `p`: its initial image and what it has written. -/
def flat (s : VM) (p : ℕ) : ℕ → Byte :=
  replay (s.procs p).space.currentExecutable.image p s.log

/-- What a flat memory would answer to the request of `e` after the events `es`, or a
page fault, but not twice in a row. -/
def Answered (initial : ℕ → Byte) (e : MemEvent) (es : List MemEvent) : Prop :=
  (e.outcome = .pageFault ∧ es.head? ≠ some e) ∨
    match e.request with
    | .readMem addr size =>
        ∃ v, load (replay initial e.process es) addr.toNat size = .ok v ∧ e.outcome = .value v
    | .writeMem _ _ _ => e.outcome = .written

/-- Every request inside its address space has been answered as by a flat memory. -/
def Invisible (s : VM) : Prop :=
  ∀ e es, (e :: es) <:+ s.log →
    e.request.addr.toNat < (s.procs e.process).space.numPages * pageSize →
      Answered (s.procs e.process).space.currentExecutable.image e es

/-- The bytes of a memory depend on the memory, the files and the processes. -/
theorem Mirrors.congr {flat flat' : ℕ → ℕ → Byte} (h : Mirrors s flat)
    (hmem : s'.mainMemory = s.mainMemory) (hfiles : s'.files = s.files)
    (hnum : s'.numProcs = s.numProcs) (hspace : ∀ q, (s'.procs q).space = (s.procs q).space)
    (hstore : ∀ q, (s'.procs q).backingStore = (s.procs q).backingStore)
    (hflat : ∀ q < s.numProcs, flat' q = flat q) : Mirrors s' flat' := by
  have hpte : ∀ q w, s'.pte q w = s.pte q w := by
    intro q w
    rw [pte, hspace]
    rfl
  have hmapped : ∀ w f, s'.Mapped w f ↔ s.Mapped w f := by
    intro w f
    rw [Mapped, Mapped, hnum, hspace, hpte]
  have hstored : ∀ q w k, s'.stored q w k = s.stored q w k := by
    intro q w k
    rw [stored, stored, hstore, hfiles, hspace]
  refine ⟨?_, ?_, ?_, ?_⟩
  · intro q w f hw k hk
    rw [hmapped] at hw
    rw [hmem, hflat q hw.1]
    exact h.frame q w f hw k hk
  · intro q hq w hw hclean k hk
    rw [hnum] at hq
    rw [hspace] at hw
    rw [hpte] at hclean
    rw [hstored, hflat q hq]
    exact h.store q hq w hw hclean k hk
  · intro q hq w hw hbit
    rw [hnum] at hq
    rw [hspace] at hw
    rw [hstore] at hbit ⊢
    rw [hfiles]
    exact h.length q hq w hw hbit
  · intro q w
    rw [hpte]
    exact h.writable q w

/-- A translation for reading sets the use bit. -/
theorem Mirrors.touch {flat : ℕ → ℕ → Byte} (h : Mirrors s flat) {e : TranslationEntry}
    (he : e = { s.pte p v with use := true, dirty := (s.pte p v).dirty || false }) :
    Mirrors (s.setEntry p v e) flat := by
  have hsame := sameFrames_setEntry (s := s) (p := p) (v := v) (e := e) (by rw [he]) (by rw [he])
  have hpte : ∀ q w, ((s.setEntry p v e).pte q w).valid = (s.pte q w).valid ∧
      ((s.setEntry p v e).pte q w).dirty = (s.pte q w).dirty ∧
        ((s.setEntry p v e).pte q w).readOnly = (s.pte q w).readOnly := by
    intro q w
    rw [pte_setEntry]
    split
    · rename_i heq
      obtain ⟨rfl, rfl⟩ := heq
      simp [he]
    · exact ⟨rfl, rfl, rfl⟩
  refine ⟨?_, ?_, ?_, ?_⟩
  · intro q w f hw k hk
    exact h.frame q w f ((hsame.mapped _ _).1 hw) k hk
  · intro q hq w hw hclean k hk
    rw [(hpte q w).1, (hpte q w).2.1] at hclean
    rw [numPages_setEntry] at hw
    rw [stored_setEntry]
    exact h.store q hq w hw hclean k hk
  · intro q hq w hw hbit
    rw [numPages_setEntry] at hw
    rw [backingStore_setEntry] at hbit ⊢
    exact h.length q hq w hw hbit
  · intro q w
    rw [(hpte q w).2.2]
    exact h.writable q w

/-- A write inside a resident page goes to its frame, and the page is dirty. -/
theorem Mirrors.write {flat : ℕ → ℕ → Byte} (h : Mirrors s flat) (hacc : s.Accounts resident [])
    {f off len : ℕ} (hmap : s.Mapped (p, v) f) (hlen : off + len ≤ pageSize) (g : ℕ → Byte)
    {e : TranslationEntry}
    (he : e = { s.pte p v with use := true, dirty := (s.pte p v).dirty || true }) :
    Mirrors { s.setEntry p v e with
        mainMemory := splice s.mainMemory (f * pageSize + off) len g }
      (Function.update flat p (splice (flat p) (v * pageSize + off) len g)) := by
  have hsame := sameFrames_setEntry (s := s) (p := p) (v := v) (e := e) (by rw [he]) (by rw [he])
  have hflat : ∀ q w k, ¬ (q = p ∧ w = v) → k < pageSize →
      Function.update flat p (splice (flat p) (v * pageSize + off) len g) q (w * pageSize + k) =
        flat q (w * pageSize + k) := by
    intro q w k hqw hk
    by_cases hq : q = p
    · subst hq
      have hw : w ≠ v := fun h => hqw ⟨rfl, h⟩
      rw [Function.update_self, splice_inside_block hw hk hlen]
    · rw [Function.update_of_ne hq]
  refine ⟨?_, ?_, ?_, ?_⟩
  · intro q w g' hw₀ k hk
    have hw : s.Mapped (q, w) g' := (hsame.mapped _ _).1 hw₀
    clear hw₀
    show splice s.mainMemory (f * pageSize + off) len g _ = _
    by_cases hqw : q = p ∧ w = v
    · obtain ⟨rfl, rfl⟩ := hqw
      have hg : g' = f := hw.2.2.2.symm.trans hmap.2.2.2
      rw [hg, Int.toNat_natCast, Function.update_self]
      exact splice_shift (h.frame q w f hmap k hk)
    · -- two resident pages have different frames
      obtain ⟨i, rfl, -⟩ := hacc.exists_frame ((hacc.mapped _ _).2 hw)
      have hne : i ≠ f := by
        rintro rfl
        exact hqw (Prod.mk.inj (hacc.page_eq hw hmap))
      rw [Int.toNat_natCast, splice_inside_block hne hk hlen, hflat q w k hqw hk]
      exact h.frame q w i hw k hk
  · intro q hq w hw hclean k hk
    have hclean : ((s.setEntry p v e).pte q w).valid = false ∨
      ((s.setEntry p v e).pte q w).dirty = false := hclean
    have hw : w < ((s.setEntry p v e).procs q).space.numPages := hw
    rw [numPages_setEntry] at hw
    rw [pte_setEntry] at hclean
    have hstored : VM.stored { s.setEntry p v e with
        mainMemory := splice s.mainMemory (f * pageSize + off) len g } q w k = s.stored q w k :=
      stored_setEntry s p v e q w k
    by_cases hqw : q = p ∧ w = v
    · rw [if_pos hqw, he] at hclean
      simp [hmap.2.2.1] at hclean
    · rw [if_neg hqw] at hclean
      rw [hstored, hflat q w k hqw hk]
      exact h.store q hq w hw hclean k hk
  · intro q hq w hw hbit
    have hw : w < ((s.setEntry p v e).procs q).space.numPages := hw
    have hbit : ((s.setEntry p v e).procs q).backingStore.pages.bit w = true := hbit
    rw [numPages_setEntry] at hw
    rw [backingStore_setEntry] at hbit
    show _ ≤ (s.files ((s.setEntry p v e).procs q).backingStore.filename).length
    rw [backingStore_setEntry]
    exact h.length q hq w hw hbit
  · intro q w
    show ((s.setEntry p v e).pte q w).readOnly = false
    rw [pte_setEntry]
    split
    · rw [he]
      exact h.writable p v
    · exact h.writable q w

/-! ## Runs -/

/-- The machine behaves as its flat memories so far. -/
structure Transparent (s : VM) : Prop where
  sound : Sound s
  programs : Programs s
  pos : 0 < s.numPhysPages
  mirrors : Mirrors s s.flat
  log_lt : ∀ e ∈ s.log, e.process < s.numProcs
  /-- After a page fault the page is there. -/
  reissue : ∀ e es, s.log = e :: es → e.outcome = .pageFault →
    (s.pte e.process (vpnOf e.request.addr)).valid = true
  invisible : s.Invisible

theorem replay_cons {initial : ℕ → Byte} {q : ℕ} {e : MemEvent} {es : List MemEvent}
    (he : e.outcome ≠ .written) : replay initial q (e :: es) = replay initial q es := by
  obtain ⟨p, r, o⟩ := e
  cases r with
  | readMem addr size => rfl
  | writeMem addr size value =>
      cases o with
      | written => exact absurd rfl he
      | value v => rfl
      | pageFault => rfl
      | killed => rfl

/-- A process without events has its initial image. -/
theorem replay_of_not_mem {initial : ℕ → Byte} {q : ℕ} {es : List MemEvent}
    (h : ∀ e ∈ es, e.process ≠ q) : replay initial q es = initial := by
  induction es with
  | nil => rfl
  | cons e es ih =>
      have hes := ih fun e' he' => h e' (by simp [he'])
      obtain ⟨p, r, o⟩ := e
      have hp : p ≠ q := h ⟨p, r, o⟩ (by simp)
      cases r with
      | readMem addr size => exact hes
      | writeMem addr size value =>
          cases o with
          | written =>
              rw [replay, if_neg hp]
              exact hes
          | value v => exact hes
          | pageFault => exact hes
          | killed => exact hes

theorem Invisible.cons (h : s.Invisible) {e : MemEvent} (hlog : s'.log = e :: s.log)
    (hpages : ∀ q, (s'.procs q).space.numPages = (s.procs q).space.numPages)
    (hexe : ∀ q, (s'.procs q).space.currentExecutable = (s.procs q).space.currentExecutable)
    (hans : e.request.addr.toNat < (s.procs e.process).space.numPages * pageSize →
      Answered (s.procs e.process).space.currentExecutable.image e s.log) : s'.Invisible := by
  intro e' es hsuffix hin
  rw [hpages] at hin
  rw [hexe]
  rw [hlog, List.suffix_cons_iff] at hsuffix
  rcases hsuffix with heq | hsuffix
  · cases heq
    exact hans hin
  · exact h e' es hsuffix hin

/-- A request that does not end in a page fault. -/
theorem Transparent.answer (h : Transparent s) {r : Request} {o : Outcome} (hp : p < s.numProcs)
    (hsound : Sound s') (hprog : Programs s') (hn : s'.numPhysPages = s.numPhysPages)
    (hm : s'.numProcs = s.numProcs) (hmirrors : Mirrors s' s'.flat)
    (hlog : s'.log = ⟨p, r, o⟩ :: s.log)
    (hpages : ∀ q, (s'.procs q).space.numPages = (s.procs q).space.numPages)
    (hexe : ∀ q, (s'.procs q).space.currentExecutable = (s.procs q).space.currentExecutable)
    (hreissue : o = .pageFault → (s'.pte p (vpnOf r.addr)).valid = true)
    (hans : r.addr.toNat < (s.procs p).space.numPages * pageSize →
      Answered (s.procs p).space.currentExecutable.image ⟨p, r, o⟩ s.log) : Transparent s' := by
  refine ⟨hsound, hprog, by rw [hn]; exact h.pos, hmirrors, ?_, ?_,
    h.invisible.cons hlog hpages hexe hans⟩
  · intro e he
    rw [hlog, List.mem_cons] at he
    rw [hm]
    rcases he with rfl | he
    · exact hp
    · exact h.log_lt e he
  · intro e es heq hfault
    rw [hlog] at heq
    cases heq
    exact hreissue hfault

theorem vpnOf_lt_iff {addr : BitVec 32} {n : ℕ} : vpnOf addr < n ↔ addr.toNat < n * pageSize :=
  Nat.div_lt_iff_lt_mul (by decide)

theorem Programs.congr (h : Programs s) (hm : s'.numProcs = s.numProcs)
    (hspace : ∀ q, (s'.procs q).space = (s.procs q).space) : Programs s' := by
  refine ⟨?_, ?_, ?_, ?_⟩ <;> intro q hq <;> rw [hm] at hq <;> rw [hspace]
  · exact h.loadable q hq
  · exact h.magic q hq
  · exact h.range q hq
  · exact h.room q hq

/-- Nothing is lost when a process exits. -/
theorem Transparent.exit (h : Transparent s) (p : ℕ) : Transparent (s.sysCallExit p) := by
  have hspace := fun q => (procs_sysCallExit s p q).1
  have hstore := fun q => (procs_sysCallExit s p q).2
  refine ⟨sound_sysCallExit h.sound p, h.programs.congr rfl hspace, h.pos, ?_, h.log_lt, ?_, ?_⟩
  · refine h.mirrors.congr rfl rfl rfl hspace hstore ?_
    intro q _
    rw [flat, hspace]
    rfl
  · intro e es heq hfault
    rw [pte, hspace]
    exact h.reissue e es heq hfault
  · intro e es hsuffix hin
    rw [hspace] at hin ⊢
    exact h.invisible e es hsuffix hin

/-- A request beyond the address space ends the process. -/
theorem Transparent.access_killed (h : Transparent s) {r : Request} {stack : ℕ → Byte}
    (hp : p < s.numProcs) (halign : ¬ misaligned r.addr r.size)
    (hv : (s.procs p).space.numPages ≤ vpnOf r.addr) :
    ∃ s', s.access false p r stack = .ok s' ∧ Transparent s' ∧
      s'.log = ⟨p, r, .killed⟩ :: s.log := by
  have htr : translate s.numPhysPages (s.procs p).space.pageTable (s.procs p).space.numPages r.addr
      r.size r.writing = .ok (.exception .addressError) := translate_addressError halign hv
  have hexit := h.exit p
  refine ⟨(s.sysCallExit p).record p r .killed, by simp only [access, htr], ?_, rfl⟩
  have hspace := fun q => (procs_sysCallExit s p q).1
  refine hexit.answer hp (hexit.sound.record p r .killed)
    (hexit.programs.congr rfl fun _ => rfl) rfl
    rfl ?_ rfl (fun _ => rfl) (fun _ => rfl) (fun ho => by cases ho) ?_
  · refine hexit.mirrors.congr rfl rfl rfl (fun _ => rfl) (fun _ => rfl) ?_
    intro q _
    exact replay_cons (e := ⟨p, r, .killed⟩) (by simp)
  · intro hin
    rw [hspace, ← vpnOf_lt_iff] at hin
    exact absurd hin (Nat.not_lt.2 hv)

/-- A request that has been answered with `o` without an exit. -/
structure Served (s : VM) (p : ℕ) (r : Request) (o : Outcome) (s' : VM) : Prop where
  transparent : Transparent s'
  kept : Kept { s with log := ⟨p, r, o⟩ :: s.log } s'

theorem Kept.record (h : Kept s s') (p : ℕ) (r : Request) (o : Outcome) :
    Kept { s with log := ⟨p, r, o⟩ :: s.log } (s'.record p r o) :=
  ⟨h.numPhysPages, h.numProcs, h.numPages, h.executable, h.alive, h.filename, h.storeID, h.numBits,
    h.tablePtr, h.storeTable, by rw [VM.record, h.log]⟩

/-- A request for a page that is not valid brings it in. -/
theorem Transparent.access_pageFault (h : Transparent s) {r : Request} {stack : ℕ → Byte}
    (hp : p < s.numProcs) (halign : ¬ misaligned r.addr r.size)
    (hv : vpnOf r.addr < (s.procs p).space.numPages)
    (hinvalid : (s.pte p (vpnOf r.addr)).valid = false) :
    ∃ s', s.access false p r stack = .ok s' ∧ s.Served p r .pageFault s' ∧
      ∀ resident, s.Accounts resident [] → ∃ rest f, s.Dropped resident rest ∧
        s'.Accounts (rest ++ [((p, vpnOf r.addr), f)]) [] := by
  have htr : translate s.numPhysPages (s.procs p).space.pageTable (s.procs p).space.numPages r.addr
      r.size r.writing = .ok (.exception .pageFault) := translate_pageFault halign hv hinvalid
  obtain ⟨s₁, hfault, hmirrors, hvalid⟩ :=
    h.mirrors.pageFault h.programs h.sound h.pos hp hv hinvalid stack
  obtain ⟨resident, hacc⟩ := h.sound.accounts
  obtain ⟨resident', hacc', hkept, -⟩ := hacc.pageFault h.sound.fit hp hv hinvalid hfault
  have hsound := h.sound.kept ⟨resident', hacc'⟩ hkept
  have hlog : (s₁.record p r .pageFault).log = ⟨p, r, .pageFault⟩ :: s.log := by
    rw [record, hkept.log]
  refine ⟨s₁.record p r .pageFault, ?_, ⟨?_, hkept.record p r .pageFault⟩, ?_⟩
  · simp only [access, htr, hfault, ne_eq, not_true_eq_false, if_false]
  · refine h.answer hp (hsound.record p r .pageFault)
      ((h.programs.kept hkept).congr rfl fun _ => rfl) hkept.numPhysPages hkept.numProcs ?_ hlog
        hkept.numPages hkept.executable (fun _ => hvalid) ?_
    · refine hmirrors.congr rfl rfl rfl (fun _ => rfl) (fun _ => rfl) ?_
      intro q _
      have hexe : ((s₁.record p r .pageFault).procs q).space.currentExecutable =
          (s.procs q).space.currentExecutable := hkept.executable q
      rw [flat, hlog, replay_cons (by simp), hexe]
      rfl
    · intro _
      refine .inl ⟨rfl, ?_⟩
      intro hhead
      cases hlog : s.log with
      | nil => simp [hlog] at hhead
      | cons e es =>
          have he : e = ⟨p, r, .pageFault⟩ := by simpa [hlog] using hhead
          have := h.reissue e es hlog (by rw [he])
          rw [he, hinvalid] at this
          cases this
  · intro resident hacc
    obtain ⟨_, hacc', -, hlast⟩ := hacc.pageFault h.sound.fit hp hv hinvalid hfault
    obtain ⟨rest, f, hdrop, rfl⟩ := hlast rfl
    exact ⟨rest, f, hdrop, hacc'.congr ⟨rfl, rfl, rfl, rfl, fun _ _ => Iff.rfl⟩⟩

/-- A valid page is found in its frame. -/
theorem Transparent.translate_eq (h : Transparent s) {addr : BitVec 32} {size : ℕ}
    (writing : Bool) (hp : p < s.numProcs) (hsize : Sized size) (halign : ¬ misaligned addr size)
    (hv : vpnOf addr < (s.procs p).space.numPages)
    (hvalid : (s.pte p (vpnOf addr)).valid = true) :
    ∃ f : ℕ, s.Mapped (p, vpnOf addr) f ∧
      translate s.numPhysPages (s.procs p).space.pageTable (s.procs p).space.numPages addr size
        writing = .ok (.physical (f * pageSize + offsetOf addr)
          { s.pte p (vpnOf addr) with
            use := true
            dirty := (s.pte p (vpnOf addr)).dirty || writing }) := by
  obtain ⟨resident, hacc⟩ := h.sound.accounts
  have hmap : s.Mapped (p, vpnOf addr) (s.pte p (vpnOf addr)).physicalPage :=
    ⟨hp, hv, hvalid, rfl⟩
  obtain ⟨f, hf, hlt⟩ := hacc.exists_frame ((hacc.mapped _ _).2 hmap)
  have hf : (s.pte p (vpnOf addr)).physicalPage = f := hf
  rw [hf] at hmap
  exact ⟨f, hmap,
    translate_physical hsize halign hv hvalid (h.mirrors.writable p _) (pageFrame_eq hf) hlt⟩

/-- A read of a valid page gives what the flat memory holds. -/
theorem Transparent.access_readMem (h : Transparent s) {addr : BitVec 32} {size : ℕ}
    {stack : ℕ → Byte} (hp : p < s.numProcs) (hsize : Sized size)
    (halign : ¬ misaligned addr size) (hv : vpnOf addr < (s.procs p).space.numPages)
    (hvalid : (s.pte p (vpnOf addr)).valid = true) :
    ∃ s' value, s.access false p (.readMem addr size) stack = .ok s' ∧
      load (s.flat p) addr.toNat size = .ok value ∧
        s.Served p (.readMem addr size) (.value value) s' ∧ SameFrames s s' := by
  obtain ⟨f, hmap, htr⟩ := h.translate_eq false hp hsize halign hv hvalid
  obtain ⟨e, he⟩ : ∃ e, e = { s.pte p (vpnOf addr) with
    use := true
    dirty := (s.pte p (vpnOf addr)).dirty || false } := ⟨_, rfl⟩
  rw [← he] at htr
  have hload : load s.mainMemory (f * pageSize + offsetOf addr) size =
      load (s.flat p) addr.toNat size := by
    have hoff := offset_add_size_le hsize halign
    refine load_congr ?_
    intro k hk
    have := h.mirrors.frame p _ f hmap (offsetOf addr + k) (by omega)
    rwa [Int.toNat_natCast, ← Nat.add_assoc, ← Nat.add_assoc, virtAddr_eq] at this
  obtain ⟨value, hvalue⟩ := load_eq_ok hsize s.mainMemory (f * pageSize + offsetOf addr)
  have haccess : s.access false p (.readMem addr size) stack =
      .ok ((s.setEntry p (vpnOf addr) e).record p (.readMem addr size) (.value value)) := by
    have hmem : (s.setEntry p (vpnOf addr) e).mainMemory = s.mainMemory := rfl
    simp only [access, Request.addr, Request.size, Request.writing, htr, transfer, hmem, hvalue]
  have hexe := executable_setEntry s p (vpnOf addr) e
  have hsame := sameFrames_setEntry (s := s) (p := p) (v := vpnOf addr) (e := e) (by rw [he])
    (by rw [he])
  refine ⟨_, value, haccess, hload.symm.trans hvalue, ⟨h.answer hp (h.sound.access hp haccess) ?_
    rfl rfl ?_ rfl (numPages_setEntry s p _ e) hexe (fun ho => by cases ho) ?_,
    (kept_setEntry s p _ e).record p _ _⟩, hsame.trans ⟨rfl, rfl, rfl, rfl, fun _ _ => Iff.rfl⟩⟩
  · exact (h.programs.kept (kept_setEntry s p _ e)).congr rfl fun _ => rfl
  · refine (h.mirrors.touch he).congr rfl rfl rfl (fun _ => rfl) (fun _ => rfl) ?_
    intro q _
    refine (replay_cons (e := ⟨p, .readMem addr size, .value value⟩) (by simp)).trans ?_
    show replay ((s.setEntry p _ e).procs q).space.currentExecutable.image q s.log = _
    rw [hexe]
    rfl
  · intro _
    exact .inr ⟨value, hload.symm.trans hvalue, rfl⟩

/-- A write to a valid page changes its frame as it changes the flat memory. -/
theorem Transparent.access_writeMem (h : Transparent s) {addr : BitVec 32} {size : ℕ}
    {value : BitVec 32} {stack : ℕ → Byte} (hp : p < s.numProcs) (hsize : Sized size)
    (halign : ¬ misaligned addr size) (hv : vpnOf addr < (s.procs p).space.numPages)
    (hvalid : (s.pte p (vpnOf addr)).valid = true) :
    ∃ s', s.access false p (.writeMem addr size value) stack = .ok s' ∧
      s.Served p (.writeMem addr size value) .written s' ∧ SameFrames s s' := by
  obtain ⟨resident, hacc⟩ := h.sound.accounts
  obtain ⟨f, hmap, htr⟩ := h.translate_eq true hp hsize halign hv hvalid
  obtain ⟨e, he⟩ : ∃ e, e = { s.pte p (vpnOf addr) with
    use := true
    dirty := (s.pte p (vpnOf addr)).dirty || true } := ⟨_, rfl⟩
  rw [← he] at htr
  obtain ⟨g, hg⟩ : ∃ g : ℕ → Byte, g = fun k => value.extractLsb' (8 * k) 8 := ⟨_, rfl⟩
  have hstore : store s.mainMemory (f * pageSize + offsetOf addr) value size =
      .ok (splice s.mainMemory (f * pageSize + offsetOf addr) size g) := by
    rw [hg]
    exact if_pos hsize
  have haccess : s.access false p (.writeMem addr size value) stack =
      .ok ({ s.setEntry p (vpnOf addr) e with
        mainMemory := splice s.mainMemory (f * pageSize + offsetOf addr) size g }.record p
          (.writeMem addr size value) .written) := by
    have hmem : (s.setEntry p (vpnOf addr) e).mainMemory = s.mainMemory := rfl
    simp only [access, Request.addr, Request.size, Request.writing, htr, transfer, hmem, hstore]
  have hexe := executable_setEntry s p (vpnOf addr) e
  have hsame := sameFrames_setEntry (s := s) (p := p) (v := vpnOf addr) (e := e) (by rw [he])
    (by rw [he])
  refine ⟨_, haccess, ⟨h.answer hp (h.sound.access hp haccess) ?_ rfl rfl ?_ rfl
    (numPages_setEntry s p _ e) hexe (fun ho => by cases ho) ?_, ?_⟩,
    hsame.trans ⟨rfl, rfl, rfl, rfl, fun _ _ => Iff.rfl⟩⟩
  · exact (h.programs.kept (kept_setEntry s p _ e)).congr rfl fun _ => rfl
  · have hoff := offset_add_size_le hsize halign
    refine (h.mirrors.write hacc hmap hoff g he).congr rfl rfl rfl (fun _ => rfl)
      (fun _ => rfl) ?_
    intro q _
    show replay ((s.setEntry p _ e).procs q).space.currentExecutable.image q
      (⟨p, .writeMem addr size value, .written⟩ :: s.log) = _
    rw [hexe, virtAddr_eq, replay]
    by_cases hq : q = p
    · subst hq
      rw [if_pos rfl, Function.update_self, hg]
      rfl
    · rw [if_neg (Ne.symm hq), Function.update_of_ne hq]
      rfl
  · intro _
    exact .inr rfl
  · have hkept := kept_setEntry s p (vpnOf addr) e
    exact ⟨hkept.numPhysPages, hkept.numProcs, hkept.numPages, hkept.executable, hkept.alive,
      hkept.filename, hkept.storeID, hkept.numBits, hkept.tablePtr, hkept.storeTable, rfl⟩

theorem Kept.running_iff (h : Kept s s') (q : ℕ) : s'.Running q ↔ s.Running q := by
  rw [Running, Running, h.numProcs, h.alive]

theorem Served.running_iff {r : Request} {o : Outcome} (h : Served s p r o s') (q : ℕ) :
    s'.Running q ↔ s.Running q := h.kept.running_iff q

/-- Every aligned request is answered, and ends no process inside the address space. -/
theorem Transparent.access (h : Transparent s) {r : Request} (hp : p < s.numProcs)
    (hsize : Sized r.size) (halign : ¬ misaligned r.addr r.size) (stack : ℕ → Byte) :
    ∃ s' o, s.access false p r stack = .ok s' ∧ Transparent s' ∧ s'.log = ⟨p, r, o⟩ :: s.log ∧
      (vpnOf r.addr < (s.procs p).space.numPages → ∀ q, s'.Running q ↔ s.Running q) := by
  by_cases hv : vpnOf r.addr < (s.procs p).space.numPages
  · cases hvalid : (s.pte p (vpnOf r.addr)).valid with
    | false =>
        obtain ⟨s', hs', hserved, -⟩ := h.access_pageFault hp halign hv hvalid
        exact ⟨s', _, hs', hserved.transparent, hserved.kept.log, fun _ => hserved.running_iff⟩
    | true =>
        cases r with
        | readMem addr size =>
            obtain ⟨s', _, hs', -, hserved, -⟩ := h.access_readMem hp hsize halign hv hvalid
            exact ⟨s', _, hs', hserved.transparent, hserved.kept.log,
              fun _ => hserved.running_iff⟩
        | writeMem addr size value =>
            obtain ⟨s', hs', hserved, -⟩ := h.access_writeMem hp hsize halign hv hvalid
            exact ⟨s', _, hs', hserved.transparent, hserved.kept.log,
              fun _ => hserved.running_iff⟩
  · obtain ⟨s', hs', htrans, hlog⟩ := h.access_killed hp halign (Nat.not_lt.1 hv)
    exact ⟨s', _, hs', htrans, hlog, fun hlt => absurd hlt hv⟩

theorem initialize_range {executable : File} {stack : ℕ → Byte} {space : AddrSpace}
    (hload : executable.Loadable) (h : AddrSpace.initialize executable stack = some space) :
    space.numPages * pageSize ≤ 2 ^ 31 ∧
      executable.extent + userStackSize.toNat + argumentSize.toNat ≤ space.numPages * pageSize := by
  obtain ⟨hcode, -⟩ := toInt_eq_of_nonneg hload.code.size
  obtain ⟨hinit, -⟩ := toInt_eq_of_nonneg hload.initData.size
  obtain ⟨huninit, -⟩ := toInt_eq_of_nonneg hload.uninitData.size
  have hlt := hload.size_lt
  have hstack : userStackSize.toNat = 1024 ∧ userStackSize.toInt = 1024 := by decide
  have harg : argumentSize.toNat = 512 ∧ argumentSize.toInt = 512 := by decide
  rw [(initialize_eq h).2, readHeader_eq hload.header]
  simp only [BitVec.toNat_add, divRoundUp, pageSize, hstack.1, harg.1, File.extent]
  split <;> omega

/-- A new process has its initial image, and the others have what they had. -/
theorem Mirrors.started {flat flat' : ℕ → ℕ → Byte} {executable : File} {stack : ℕ → Byte}
    {space : AddrSpace} {b : BitMap} {i : ℕ} {t u : Table ℕ} (h : Mirrors s flat)
    (htables : Tables s) (hinit : AddrSpace.initialize executable stack = some space)
    (hclear : ∀ j < space.numPages, b.bit j = false)
    (hne : ∀ p < s.numProcs, (s.procs p).backingStore.storeID ≠ i)
    (hflat : ∀ q < s.numProcs, flat' q = flat q)
    (hnew : flat' s.numProcs = executable.image) :
    Mirrors (s.started space b i t u) flat' := by
  have hexe : space.currentExecutable = executable := by rw [(initialize_eq hinit).2]
  have hfiles : ∀ q < s.numProcs, (s.started space b i t u).files
      (s.procs q).backingStore.filename = s.files (s.procs q).backingStore.filename := by
    intro q hq
    refine Function.update_of_ne ?_ _ _
    rw [htables.filename q hq]
    exact fun heq => hne q hq (filenameOf_injective heq)
  refine ⟨?_, ?_, ?_, ?_⟩
  · intro q w f hw k hk
    rw [mapped_started hinit] at hw
    rw [hflat q hw.1]
    exact h.frame q w f hw k hk
  · intro q hq w hw hclean k hk
    rcases Nat.lt_succ_iff_lt_or_eq.1 hq with hlt | rfl
    · rw [procs_started_of_lt hlt] at hw
      rw [pte, procs_started_of_lt hlt] at hclean
      rw [stored, procs_started_of_lt hlt, hfiles q hlt, hflat q hlt]
      exact h.store q hlt w hw hclean k hk
    · have hw : w < space.numPages := by simpa [VM.started] using hw
      rw [hnew, ← hexe]
      simp [stored, VM.started, hclear w hw]
  · intro q hq w hw hbit
    rcases Nat.lt_succ_iff_lt_or_eq.1 hq with hlt | rfl
    · rw [procs_started_of_lt hlt] at hw hbit ⊢
      rw [hfiles q hlt]
      exact h.length q hlt w hw hbit
    · have hw : w < space.numPages := by simpa [VM.started] using hw
      simp [VM.started, hclear w hw] at hbit
  · intro q w
    by_cases hq : q = s.numProcs
    · subst hq
      simp [pte, VM.started, (initialize_eq hinit).2, TranslationEntry.initial]
    · have : (s.started space b i t u).pte q w = s.pte q w := by
        simp [pte, VM.started, hq]
      rw [this]
      exact h.writable q w

theorem Transparent.exec (h : Transparent s) {executable : File} (hload : executable.Loadable)
    (stack : ℕ → Byte) (words : ℕ → BitVec 32) (created : Bool) :
    ∃ s', s.exec executable stack words created = .ok s' ∧ Transparent s' := by
  rcases h.sound.tables.exec executable stack words created with
    ⟨t, heq, -⟩ | ⟨space, pages, i, t, t', heq, hinit, -, hclear, hne, -⟩
  · refine ⟨_, heq, h.sound.exec heq, h.programs.congr rfl fun _ => rfl, h.pos, ?_, h.log_lt,
      h.reissue, h.invisible⟩
    exact h.mirrors.congr rfl rfl rfl (fun _ => rfl) (fun _ => rfl) fun _ _ => rfl
  · refine ⟨_, heq, h.sound.exec heq, ?_, h.pos, ?_, ?_, ?_, ?_⟩
    · have hspace := (initialize_eq hinit).2
      refine ⟨?_, ?_, ?_, ?_⟩ <;> intro q hq <;> rcases Nat.lt_succ_iff_lt_or_eq.1 hq with hlt | rfl
      · rw [procs_started_of_lt hlt]
        exact h.programs.loadable q hlt
      · simpa [started, hspace] using hload
      · rw [procs_started_of_lt hlt]
        exact h.programs.magic q hlt
      · have hmagic := (initialize_eq hinit).1
        rw [readHeader_eq hload.header] at hmagic
        simpa [started, hspace] using hmagic
      · rw [procs_started_of_lt hlt]
        exact h.programs.range q hlt
      · simpa [started] using (initialize_range hload hinit).1
      · rw [procs_started_of_lt hlt]
        exact h.programs.room q hlt
      · have hexe : space.currentExecutable = executable := by rw [hspace]
        simpa [started, hexe] using (initialize_range hload hinit).2
    · refine h.mirrors.started h.sound.tables hinit hclear hne ?_ ?_
      · intro q hq
        rw [flat, procs_started_of_lt hq]
        rfl
      · have hexe : ((s.started space pages i t t').procs s.numProcs).space.currentExecutable =
            executable := by
          simp [started, (initialize_eq hinit).2]
        rw [flat, hexe]
        refine replay_of_not_mem ?_
        intro e he
        exact Nat.ne_of_lt (h.log_lt e he)
    · intro e he
      exact Nat.lt_succ_of_lt (h.log_lt e he)
    · intro e es hlog hfault
      have hlog : s.log = e :: es := hlog
      rw [pte, procs_started_of_lt (h.log_lt e (by simp [hlog]))]
      exact h.reissue e es hlog hfault
    · intro e es hsuffix hin
      have hsuffix : (e :: es) <:+ s.log := hsuffix
      have hlt := h.log_lt e (hsuffix.subset (by simp))
      rw [procs_started_of_lt hlt] at hin ⊢
      exact h.invisible e es hsuffix hin

/-- The executables can be loaded, and the requests are aligned and of one of the sizes
of the instructions. -/
def Op.WellFormed : Op → Prop
  | .exec executable _ _ _ => executable.Loadable
  | .access _ r _ => Sized r.size ∧ ¬ misaligned r.addr r.size
  | .exit _ => True

theorem Transparent.step (h : Transparent s) {op : Op} (hop : op.WellFormed) :
    ∃ s', s.step false op = .ok s' ∧ Transparent s' := by
  cases op with
  | exec executable stack words created => exact h.exec hop stack words created
  | access p r stack =>
      by_cases hrun : s.Running p
      · obtain ⟨s', -, hs', htrans, -⟩ := h.access hrun.1 hop.1 hop.2 stack
        exact ⟨s', by rw [VM.step, if_pos hrun, hs'], htrans⟩
      · exact ⟨s, by rw [VM.step, if_neg hrun], h⟩
  | exit p =>
      by_cases hrun : s.Running p
      · exact ⟨_, by rw [VM.step, if_pos hrun], h.exit p⟩
      · exact ⟨s, by rw [VM.step, if_neg hrun], h⟩

theorem transparent_boot {numPhysPages : ℕ} (hn : 0 < numPhysPages) (maxProcess : ℕ)
    (words : ℕ → BitVec 32) :
    ∃ s, boot numPhysPages maxProcess words = .ok s ∧ Transparent s := by
  obtain ⟨frames, hnew, -⟩ := BitMap.new_spec numPhysPages words
  obtain ⟨s, hs⟩ : ∃ s, boot numPhysPages maxProcess words = .ok s := by
    unfold boot
    rw [hnew]
    exact ⟨_, rfl⟩
  have hsound := sound_boot hs
  refine ⟨s, hs, ?_⟩
  unfold boot at hs
  rw [hnew] at hs
  cases hs
  have hnone : ∀ {p : ℕ} {P : Prop}, p < 0 → P := fun hp => absurd hp (Nat.not_lt_zero _)
  refine ⟨hsound,
    ⟨fun p hp => hnone hp, fun p hp => hnone hp, fun p hp => hnone hp, fun p hp => hnone hp⟩, hn,
    ⟨fun p v f hmap => hnone hmap.1, fun p hp => hnone hp, fun p hp => hnone hp, fun _ _ => rfl⟩,
    ?_, ?_, ?_⟩
  · intro e he
    cases he
  · intro e es heq
    cases heq
  · intro e es hsuffix
    cases List.suffix_nil.1 hsuffix

/-- A run that is possible. -/
theorem transparent_run {numPhysPages maxProcess : ℕ} (hn : 0 < numPhysPages)
    {words : ℕ → BitVec 32} {s₀ : VM} (h₀ : boot numPhysPages maxProcess words = .ok s₀)
    {ops : List Op} (hops : ∀ op ∈ ops, op.WellFormed)
    (hrun : runFrom (VM.step false) s₀ ops = .ok s) :
    Transparent s ∧ s.numPhysPages = numPhysPages := by
  have hmeets : Meets (VM.step false) (fun _ op => op.WellFormed) s₀ ops :=
    .of_forall fun op hop _ => hops op hop
  have hboot : Transparent s₀ := by
    obtain ⟨s₁, hs₁, htrans⟩ := transparent_boot hn maxProcess words
    rw [h₀] at hs₁
    cases hs₁
    exact htrans
  have hinv : ∀ s op s', Transparent s ∧ s.numPhysPages = numPhysPages → op.WellFormed →
      s.step false op = .ok s' → Transparent s' ∧ s'.numPhysPages = numPhysPages := by
    rintro s op s' ⟨htrans, hphys⟩ hop hs
    obtain ⟨s₁, hs₁, htrans'⟩ := htrans.step hop
    rw [hs] at hs₁
    cases hs₁
    exact ⟨htrans', (htrans.sound.numPhysPages_step hs).trans hphys⟩
  exact invariant_of_meets hinv ⟨hboot, numPhysPages_boot h₀⟩ hmeets hrun

/-! ## What is answered -/

/-- What a system call or a request leaves behind. An Exec with a slot and a file starts a process,
a request of a process that runs is answered once, and only an Exit or a request beyond the
address space ends a process. -/
def Serves (s : VM) (op : Op) (s' : VM) : Prop :=
  match op with
  | .exec executable stack _ created =>
      s'.log = s.log ∧ (∀ q < s.numProcs, s'.Running q ↔ s.Running q) ∧
        ∀ space, AddrSpace.initialize executable stack = some space → created = true →
          (s.storeTable.alloc s.numProcs).1 ≠ -1 →
            s'.Running s.numProcs ∧ (s'.procs s.numProcs).space = space
  | .access p r _ =>
      if s.Running p then
        (∃ outcome, s'.log = ⟨p, r, outcome⟩ :: s.log) ∧
          (r.addr.toNat < (s.procs p).space.numPages * pageSize → ∀ q, s'.Running q ↔ s.Running q)
      else
        s' = s
  | .exit p => s'.log = s.log ∧ ∀ q, s'.Running q ↔ s.Running q ∧ q ≠ p

theorem exec_starts {executable : File} {stack : ℕ → Byte} {words : ℕ → BitVec 32}
    {space : AddrSpace} (h : s.exec executable stack words true = .ok s')
    (hinit : AddrSpace.initialize executable stack = some space)
    (hslot : (s.storeTable.alloc s.numProcs).1 ≠ -1) :
    s'.Running s.numProcs ∧ (s'.procs s.numProcs).space = space := by
  simp only [exec, if_neg hslot, hinit] at h
  split at h
  · cases h
  · simp only [Bool.true_eq_false, if_false] at h
    split at h
    · cases h
    · cases h
      simp [Running]

theorem Transparent.serves (h : Transparent s) {op : Op} (hop : op.WellFormed)
    (hs : s.step false op = .ok s') : Serves s op s' := by
  cases op with
  | exec executable stack words created =>
      refine ⟨?_, ?_, fun space hinit hcreated hslot => ?_⟩
      · rcases h.sound.tables.exec executable stack words created with
          ⟨t, heq, -⟩ | ⟨space, pages, i, t, t', heq, -⟩ <;>
        · rw [VM.step, heq] at hs
          cases hs
          rfl
      · intro q hq
        rcases h.sound.tables.exec executable stack words created with
          ⟨t, heq, -⟩ | ⟨space, pages, i, t, t', heq, -⟩
        · rw [VM.step, heq] at hs
          cases hs
          exact Iff.rfl
        · rw [VM.step, heq] at hs
          cases hs
          rw [Running, Running, procs_started_of_lt hq]
          exact and_congr_left fun _ => iff_of_true (Nat.lt_succ_of_lt hq) hq
      · subst hcreated
        exact exec_starts hs hinit hslot
  | access p r stack =>
      simp only [VM.step] at hs
      by_cases hrun : s.Running p
      · rw [if_pos hrun] at hs
        obtain ⟨s₁, o, hs₁, -, hlog, hkeep⟩ := h.access hrun.1 hop.1 hop.2 stack
        rw [hs] at hs₁
        cases hs₁
        simp only [Serves, if_pos hrun]
        exact ⟨⟨o, hlog⟩, fun hin => hkeep (vpnOf_lt_iff.2 hin)⟩
      · rw [if_neg hrun] at hs
        cases hs
        simp only [Serves, if_neg hrun]
  | exit p =>
      simp only [VM.step] at hs
      by_cases hrun : s.Running p
      · rw [if_pos hrun] at hs
        cases hs
        refine ⟨rfl, fun q => ?_⟩
        by_cases hq : q = p
        · simp [Running, sysCallExit, hq]
        · simp [Running, sysCallExit, hq]
      · rw [if_neg hrun] at hs
        cases hs
        exact ⟨rfl, fun q => ⟨fun hq => ⟨hq, fun heq => hrun (heq ▸ hq)⟩, fun hq => hq.1⟩⟩

/-- Demand paging is invisible: whatever processes are started and whatever they ask for, the
machine never stops, each request of a process that runs is answered, and a request inside
an address space is answered as by a flat memory, after one page fault at most. -/
theorem paging_invisible {numPhysPages : ℕ} (hn : 0 < numPhysPages) (maxProcess : ℕ)
    (words : ℕ → BitVec 32) (ops : List Op) (hops : ∀ op ∈ ops, op.WellFormed) :
    ∃ s₀ s, boot numPhysPages maxProcess words = .ok s₀ ∧
      runFrom (VM.step false) s₀ ops = .ok s ∧ s.Invisible ∧
        Meets (VM.step false) (fun m op => ∀ m', m.step false op = .ok m' → Serves m op m')
          s₀ ops := by
  obtain ⟨s₀, hs₀, htrans⟩ := transparent_boot hn maxProcess words
  have hmeets : Meets (VM.step false) (fun _ op => op.WellFormed) s₀ ops :=
    .of_forall fun op hop _ => hops op hop
  obtain ⟨s, hs, htrans'⟩ := exists_of_meets (fun s op h hop => h.step hop) htrans hmeets
  refine ⟨s₀, s, hs₀, hs, htrans'.invisible, ?_⟩
  refine (Meets.congr (I := Transparent) ?_ ?_ htrans hmeets).1 hmeets
  · intro m op m' hm hop hstep
    obtain ⟨m₁, hm₁, htrans₁⟩ := hm.step hop
    rw [hstep] at hm₁
    cases hm₁
    exact htrans₁
  · exact fun m op hm hop => iff_of_true hop fun m' => hm.serves hop

/-- A program of one word of code, the number 7. -/
def sevenProgram : File where
  length := 44
  byte := fun i =>
    if i = 0 then 0xad#8
    else if i = 1 then 0xdf#8
    else if i = 2 then 0xba#8
    else if i = 8 then 40#8
    else if i = 12 then 4#8
    else if i = 40 then 7#8
    else 0#8

theorem sevenProgram_loadable : sevenProgram.Loadable where
  header := by decide
  code := ⟨by decide, by decide, by decide, by decide, by decide⟩
  initData := ⟨by decide, by decide, by decide, by decide, by decide⟩
  uninitData := ⟨by decide, by decide, by decide, by decide, by decide⟩
  size_lt := by decide
  code_le := by decide
  initData_le := by decide

/-- Two processes take turns with the one frame there is: each request faults and is made
again. -/
def takeTurns : List Op :=
  [Op.exec sevenProgram (fun _ => 0) (fun _ => 0) true,
    Op.exec sevenProgram (fun _ => 0) (fun _ => 0) true] ++
  ([(0, Request.writeMem 4 4 9), (1, .readMem 4 4), (0, .readMem 4 4), (1, .readMem 0 4)].flatMap
    fun r => [Op.access r.1 r.2 fun _ => 0, Op.access r.1 r.2 fun _ => 0])

/-- The one process reads the 9 that it has written, and the other one 0 and the 7 of its code. -/
theorem paging_invisible_oneFrame :
    ∃ s₀ s, boot 1 14 (fun _ => 0) = .ok s₀ ∧ runFrom (VM.step false) s₀ takeTurns = .ok s ∧
      s.log.reverse.map (fun e => (e.process, e.outcome)) =
        [(0, .pageFault), (0, .written), (1, .pageFault), (1, .value 0), (0, .pageFault),
          (0, .value 9), (1, .pageFault), (1, .value 7)] ∧
      s.Invisible ∧
        Meets (VM.step false) (fun m op => ∀ m', m.step false op = .ok m' → Serves m op m')
          s₀ takeTurns := by
  obtain ⟨s₀, s, hboot, hrun, hinvisible, hserves⟩ :=
    paging_invisible (by decide : 0 < 1) 14 (fun _ => 0) takeTurns (by
      have haligned : Sized 4 ∧ ¬ misaligned 4 4 ∧ ¬ misaligned 0 4 := by decide
      simp only [takeTurns, List.flatMap_cons, List.flatMap_nil, List.cons_append, List.nil_append,
        List.forall_mem_cons, List.not_mem_nil, false_implies, implies_true, and_true]
      exact ⟨sevenProgram_loadable, sevenProgram_loadable, ⟨haligned.1, haligned.2.1⟩,
        ⟨haligned.1, haligned.2.1⟩, ⟨haligned.1, haligned.2.1⟩, ⟨haligned.1, haligned.2.1⟩,
        ⟨haligned.1, haligned.2.1⟩, ⟨haligned.1, haligned.2.1⟩, ⟨haligned.1, haligned.2.2⟩,
        haligned.1, haligned.2.2⟩)
  have hpass : ((boot 1 14 fun _ => 0).map fun s₀ => passes (VM.step false) s₀ takeTurns fun s =>
      s.log.reverse.map (fun e => (e.process, e.outcome)) =
        [(0, .pageFault), (0, .written), (1, .pageFault), (1, .value 0), (0, .pageFault),
          (0, .value 9), (1, .pageFault), (1, .value 7)]).toOption = some true := by
    decide +kernel
  rw [hboot] at hpass
  replace hpass := Option.some.inj hpass
  obtain ⟨s', hs', hend⟩ := runFrom_of_passes hpass
  rw [hrun] at hs'
  cases hs'
  exact ⟨s₀, s, hboot, hrun, of_decide_eq_true hend, hinvisible, hserves⟩

end VM

end Nachos
