import Nachos.Userprog.Frames

/-!
# Room for a forked thread

`AddrSpace::allocateThreadSpace`, which `Fork2` calls. A page table is an array on the
heap: what `pageTable` says at `numPages` and above is what the heap holds behind it,
and `raw` is what it holds where the new table is put. Only the roll-back reads behind a
table: it takes the frames to be freed from the old table, and not from the new one.
-/

namespace Nachos

open Lib

namespace VM

/-- `divRoundUp(UserStackSize, PageSize)`. -/
def newPages : ℕ := divRoundUp userStackSize.toNat pageSize

/-- The roll-back: `FreePage(pageTable[j].physicalPage)` for the `k` pages from `j` on. -/
def freeFrom (s : VM) (pageTable : ℕ → TranslationEntry) : ℕ → ℕ → Except Fault VM
  | 0, _ => .ok s
  | k + 1, j =>
      match s.freePage (pageTable j).physicalPage with
      | .error e => .error e
      | .ok s' => freeFrom s' pageTable k (j + 1)

/-- The entry of a new page. -/
def threadEntry (i : ℕ) (allocpage : ℤ) : TranslationEntry where
  virtualPage := i
  physicalPage := allocpage
  valid := true
  readOnly := false
  use := false
  dirty := false

/-- The loop that fills the new table, for the `k` pages from `i` on: nothing in place of
the table when there is no frame for one of them. -/
def allocFrom (s : VM) (space : AddrSpace) :
    ℕ → ℕ → (ℕ → TranslationEntry) → Except Fault (Option (ℕ → TranslationEntry) × VM)
  | 0, _, newTable => .ok (some newTable, s)
  | k + 1, i, newTable =>
      match s.allocPage with
      | .error e => .error e
      | .ok (allocpage, s') =>
          if allocpage = -1 then
            match s'.freeFrom space.pageTable (i - space.numPages) space.numPages with
            | .error e => .error e
            | .ok s'' => .ok (none, s'')
          else
            allocFrom s' space k (i + 1) (Function.update newTable i (threadEntry i allocpage))

/-- The loop of `bzero`, for the `k` pages from `i` on. -/
def zeroFrom (s : VM) (pageTable : ℕ → TranslationEntry) : ℕ → ℕ → Except Fault VM
  | 0, _ => .ok s
  | k + 1, i =>
      match s.frameAddr (pageTable i).physicalPage with
      | .error e => .error e
      | .ok frame =>
          zeroFrom { s with mainMemory := splice s.mainMemory frame pageSize fun _ => 0 } pageTable
            k (i + 1)

/-- `AddrSpace::allocateThreadSpace` of the address space of `p`. -/
def allocateThreadSpace (s : VM) (p : ℕ) (raw : ℕ → TranslationEntry) : Except Fault (Bool × VM) :=
  let space := (s.procs p).space
  match s.allocFrom space newPages space.numPages
      fun i => if i < space.numPages then space.pageTable i else raw i with
  | .error e => .error e
  | .ok (none, s') => .ok (false, s')
  | .ok (some newTable, s') =>
      match s'.zeroFrom newTable newPages space.numPages with
      | .error e => .error e
      | .ok s'' =>
          .ok (true, s''.setSpace p
            { space with
              pageTable := newTable
              numPages := space.numPages + newPages })

/-! ## What the two results mean -/

/-- The frame exists, and the memory manager may give it away. -/
def FrameFree (s : VM) (f : ℕ) : Prop := f < s.frames.numBits ∧ s.frames.bit f = false

instance (s : VM) (f : ℕ) : Decidable (s.FrameFree f) := inferInstanceAs (Decidable (_ ∧ _))

def freeFrames (s : VM) : ℕ := Nat.count (fun f => s.frames.bit f = false) s.frames.numBits

/-- The memory is as it was. -/
structure Restored (s s' : VM) (p : ℕ) : Prop where
  numPages : (s'.procs p).space.numPages = (s.procs p).space.numPages
  entries : ∀ v < (s.procs p).space.numPages, s'.pte p v = s.pte p v
  frames : ∀ f, s'.FrameFree f ↔ s.FrameFree f
  mainMemory : s'.mainMemory = s.mainMemory

/-- The page is one of those that the address space has got. -/
def NewPage (s : VM) (p v : ℕ) : Prop :=
  (s.procs p).space.numPages ≤ v ∧ v < (s.procs p).space.numPages + newPages

/-- The address space has got new pages, on frames that were free and are zero. -/
structure Enlarged (s s' : VM) (p : ℕ) : Prop where
  numPages : (s'.procs p).space.numPages = (s.procs p).space.numPages + newPages
  entries : ∀ v < (s.procs p).space.numPages, s'.pte p v = s.pte p v
  valid : ∀ v, s.NewPage p v → (s'.pte p v).valid = true
  frame : ∀ v, s.NewPage p v → ∃ f, (s'.pte p v).physicalPage = (f : ℕ) ∧ s.FrameFree f ∧
    ∀ k < pageSize, s'.mainMemory (f * pageSize + k) = 0
  distinct : ∀ v w, s.NewPage p v → s.NewPage p w →
    (s'.pte p v).physicalPage = (s'.pte p w).physicalPage → v = w

/-- What `allocateThreadSpace` promises by its result. -/
def SpaceSpec (s : VM) (p : ℕ) (result : Bool × VM) : Prop :=
  (result.1 = false → s.Restored result.2 p) ∧ (result.1 = true → s.Enlarged result.2 p)

/-- What the heap holds behind the page table names the free frames, and nothing else. -/
def HeapNamesFree (s : VM) (p : ℕ) : Prop :=
  ∀ f : ℤ, (∃ k < s.freeFrames, (s.pte p ((s.procs p).space.numPages + k)).physicalPage = f) ↔
    ∃ n : ℕ, f = n ∧ s.FrameFree n

variable {s s' : VM} {p : ℕ}

/-! ## The roll-back -/

theorem freePage_eq {f : ℕ} (hf : f < s.frames.numBits) :
    ∃ b, s.freePage f = .ok { s with frames := b } ∧ b.numBits = s.frames.numBits ∧
      ∀ g, b.bit g = (!decide (g = f) && s.frames.bit g) := by
  obtain ⟨b, hclear, hbits, hbit⟩ := BitMap.clear_spec hf
  exact ⟨b, by rw [freePage, hclear], hbits, hbit⟩

/-- A call of `FreePage` that returns was made with a frame. -/
theorem exists_of_freePage {page : ℤ} (h : s.freePage page = .ok s') :
    ∃ f : ℕ, page = f ∧ f < s.frames.numBits := by
  by_cases hin : s.frames.InRange page
  · refine ⟨page.toNat, (Int.toNat_of_nonneg hin.1).symm, ?_⟩
    have := hin.2
    have := hin.1
    omega
  · simp [freePage, BitMap.clear, hin] at h

/-- The roll-back comes to its end when it names frames only. -/
theorem freeFrom_spec {T : ℕ → TranslationEntry} {k j : ℕ}
    (h : ∀ i < k, ∃ f : ℕ, (T (j + i)).physicalPage = f ∧ f < s.frames.numBits) :
    ∃ b, s.freeFrom T k j = .ok { s with frames := b } ∧ b.numBits = s.frames.numBits ∧
      ∀ g, b.bit g = false ↔ s.frames.bit g = false ∨ ∃ i < k, (T (j + i)).physicalPage = g := by
  induction k generalizing s j with
  | zero => exact ⟨s.frames, rfl, rfl, by simp⟩
  | succ k ih =>
      obtain ⟨f, hf, hlt⟩ := h 0 (Nat.succ_pos k)
      rw [Nat.add_zero] at hf
      obtain ⟨b₁, hfree, hbits, hbit⟩ := freePage_eq hlt
      obtain ⟨b₂, hrest, hbits', hbit'⟩ := ih (s := { s with frames := b₁ }) (j := j + 1) (by
        intro i hi
        have := h (i + 1) (by omega)
        rwa [hbits, Nat.add_right_comm, Nat.add_assoc])
      refine ⟨b₂, by rw [freeFrom, hf, hfree]; exact hrest, hbits'.trans hbits, ?_⟩
      intro g
      rw [hbit', show ({ s with frames := b₁ } : VM).frames.bit g = b₁.bit g from rfl, hbit]
      constructor
      · rintro (hg | ⟨i, hi, hg⟩)
        · rcases Bool.and_eq_false_iff.1 hg with hg | hg
          · have hgf : g = f := by simpa using hg
            exact .inr ⟨0, Nat.succ_pos k, by rw [Nat.add_zero, hf, hgf]⟩
          · exact .inl hg
        · exact .inr ⟨i + 1, by omega, by rwa [Nat.add_comm i 1, ← Nat.add_assoc]⟩
      · rintro (hg | ⟨i, hi, hg⟩)
        · exact .inl (by rw [hg, Bool.and_false])
        · cases i with
          | zero =>
              rw [Nat.add_zero, hf, Nat.cast_inj] at hg
              exact .inl (by simp [hg])
          | succ i => exact .inr ⟨i, by omega, by rwa [Nat.add_assoc, Nat.add_comm 1 i]⟩

theorem exists_of_freeFrom {T : ℕ → TranslationEntry} {k j : ℕ} (h : s.freeFrom T k j = .ok s') :
    ∀ i < k, ∃ f : ℕ, (T (j + i)).physicalPage = f ∧ f < s.frames.numBits := by
  induction k generalizing s j with
  | zero => exact fun i hi => absurd hi (Nat.not_lt_zero i)
  | succ k ih =>
      rw [freeFrom] at h
      split at h
      · cases h
      · rename_i s₁ hfree
        intro i hi
        obtain ⟨f, hf, hlt⟩ := exists_of_freePage hfree
        cases i with
        | zero => exact ⟨f, hf, hlt⟩
        | succ i =>
            obtain ⟨b, hb, hbits, -⟩ := freePage_eq (s := s) hlt
            rw [hf, hb] at hfree
            cases hfree
            have := ih h i (by omega)
            rwa [hbits, Nat.add_assoc, Nat.add_comm 1 i] at this

/-! ## The loop that takes the frames -/

theorem allocPage_of_free (h : 0 < s.freeFrames) :
    ∃ f b, s.allocPage = .ok ((f : ℕ), { s with frames := b }) ∧ s.FrameFree f ∧
      b.numBits = s.frames.numBits ∧ (∀ g, b.bit g = (decide (g = f) || s.frames.bit g)) ∧
        s.freeFrames = ({ s with frames := b } : VM).freeFrames + 1 := by
  obtain ⟨f, b, hfind, hlt, hclear, hbits, hbit, hcount⟩ := BitMap.find_of_clear h
  exact ⟨f, b, by rw [allocPage, hfind], ⟨hlt, hclear⟩, hbits, hbit, hcount⟩

theorem allocPage_of_full (h : s.freeFrames = 0) :
    s.allocPage = .ok (-1, s) ∧ ∀ f, ¬ s.FrameFree f := by
  rcases s.frames.find_spec with ⟨hfind, hall⟩ | ⟨f, b, -, hlt, hclear, -⟩
  · refine ⟨by rw [allocPage, hfind], ?_⟩
    rintro f ⟨hlt, hclear⟩
    rw [hall f hlt] at hclear
    cases hclear
  · exact absurd h (Nat.count_ne_iff_exists.2 ⟨f, hlt, hclear⟩)

/-- One turn of the loop that finds a frame. -/
theorem allocFrom_succ {space : AddrSpace} {k i f : ℕ} {newTable : ℕ → TranslationEntry}
    (h : s.allocPage = .ok ((f : ℕ), s')) :
    s.allocFrom space (k + 1) i newTable =
      s'.allocFrom space k (i + 1) (Function.update newTable i (threadEntry i f)) := by
  have hf : (f : ℤ) ≠ -1 := by omega
  simp only [allocFrom, h, if_neg hf]

/-- With enough frames, the new entries are filled with different frames that were free. -/
theorem allocFrom_enough {k : ℕ} (space : AddrSpace) (i : ℕ) (newTable : ℕ → TranslationEntry)
    (h : k ≤ s.freeFrames) :
    ∃ T b, s.allocFrom space k i newTable = .ok (some T, { s with frames := b }) ∧
      b.numBits = s.frames.numBits ∧ (∀ v < i, T v = newTable v) ∧
        ∃ frameOf : ℕ → ℕ, (∀ j < k, T (i + j) = threadEntry (i + j) (frameOf j)) ∧
          (∀ j < k, s.FrameFree (frameOf j)) ∧
            ∀ j < k, ∀ j' < k, frameOf j = frameOf j' → j = j' := by
  induction k generalizing s i newTable with
  | zero => exact ⟨newTable, s.frames, rfl, rfl, fun v _ => rfl, fun _ => 0, by simp⟩
  | succ k ih =>
      obtain ⟨f, b, halloc, hfree, hbits, hbit, hcount⟩ := allocPage_of_free (s := s) (by omega)
      obtain ⟨T, b', hrest, hbits', hold, frameOf, hnew, hframe, hinj⟩ :=
        ih (s := { s with frames := b }) (i + 1)
          (Function.update newTable i (threadEntry i f)) (by omega)
      -- a frame that is taken later is still free after the first one
      have hlater : ∀ j < k, frameOf j ≠ f ∧ s.FrameFree (frameOf j) := by
        intro j hj
        obtain ⟨hlt, hclear⟩ := hframe j hj
        rw [show ({ s with frames := b } : VM).frames = b from rfl] at hlt hclear
        rw [hbit, Bool.or_eq_false_iff, decide_eq_false_iff_not] at hclear
        exact ⟨hclear.1, by rwa [hbits] at hlt, hclear.2⟩
      refine ⟨T, b', by rw [allocFrom_succ halloc, hrest], hbits'.trans hbits, ?_,
        fun j => if j = 0 then f else frameOf (j - 1), ?_, ?_, ?_⟩
      · intro v hv
        rw [hold v (by omega), Function.update_of_ne (by omega)]
      · intro j hj
        cases j with
        | zero =>
            rw [Nat.add_zero, hold i (by omega), Function.update_self]
            simp
        | succ j =>
            have := hnew j (by omega)
            rw [Nat.add_right_comm, Nat.add_assoc] at this
            simpa using this
      · intro j hj
        cases j with
        | zero => simpa using hfree
        | succ j => simpa using (hlater j (by omega)).2
      · intro j hj j' hj' heq
        cases j with
        | zero =>
            cases j' with
            | zero => rfl
            | succ j' => exact absurd (by simpa using heq.symm) (hlater j' (by omega)).1
        | succ j =>
            cases j' with
            | zero => exact absurd (by simpa using heq) (hlater j (by omega)).1
            | succ j' => rw [hinj j (by omega) j' (by omega) (by simpa using heq)]

/-- With too few frames, all frames are taken, and then the roll-back frees as many entries of
the old table as the loop has taken. -/
theorem allocFrom_short {k : ℕ} (space : AddrSpace) (i : ℕ) (newTable : ℕ → TranslationEntry)
    (h : s.freeFrames < k) :
    ∃ b, b.numBits = s.frames.numBits ∧ (∀ f < b.numBits, b.bit f = true) ∧
      s.allocFrom space k i newTable =
        match ({ s with frames := b } : VM).freeFrom space.pageTable
            (i + s.freeFrames - space.numPages) space.numPages with
        | .error e => .error e
        | .ok s' => .ok (none, s') := by
  induction k generalizing s i newTable with
  | zero => exact absurd h (Nat.not_lt_zero _)
  | succ k ih =>
      cases hfree : s.freeFrames with
      | zero =>
          obtain ⟨halloc, hnone⟩ := allocPage_of_full hfree
          refine ⟨s.frames, rfl, ?_, by simp only [allocFrom, halloc, if_pos, Nat.add_zero]⟩
          intro f hf
          by_contra hbit
          exact hnone f ⟨hf, by simpa using hbit⟩
      | succ c =>
          obtain ⟨f, b, halloc, -, hbits, -, hcount⟩ := allocPage_of_free (s := s) (by omega)
          obtain ⟨b', hbits', hall, hrest⟩ := ih (s := { s with frames := b }) (i + 1)
            (Function.update newTable i (threadEntry i f)) (by omega)
          have hc : ({ s with frames := b } : VM).freeFrames = c := by omega
          refine ⟨b', hbits'.trans hbits, hall, ?_⟩
          rw [allocFrom_succ halloc, hrest, hc, Nat.add_assoc, Nat.add_comm 1 c]

/-! ## The loop of `bzero` -/

/-- The frames of the entries are zero, and what was zero is still zero. -/
theorem zeroFrom_spec {T : ℕ → TranslationEntry} {k i : ℕ} (frameOf : ℕ → ℕ)
    (h : ∀ j < k, (T (i + j)).physicalPage = frameOf j ∧ frameOf j < s.numPhysPages) :
    ∃ mem, s.zeroFrom T k i = .ok { s with mainMemory := mem } ∧
      (∀ a, s.mainMemory a = 0 → mem a = 0) ∧
        ∀ j < k, ∀ a < pageSize, mem (frameOf j * pageSize + a) = 0 := by
  induction k generalizing s i frameOf with
  | zero => exact ⟨s.mainMemory, rfl, fun a ha => ha, by simp⟩
  | succ k ih =>
      obtain ⟨hpage, hlt⟩ := h 0 (Nat.succ_pos k)
      rw [Nat.add_zero] at hpage
      let zeroed : ℕ → Byte := splice s.mainMemory (frameOf 0 * pageSize) pageSize fun _ => 0
      obtain ⟨mem, hrest, hkept, hzero⟩ := ih (s := { s with mainMemory := zeroed })
        (i := i + 1) (fun j => frameOf (j + 1)) (by
          intro j hj
          rw [Nat.add_assoc, Nat.add_comm 1 j]
          exact h (j + 1) (by omega))
      refine ⟨mem, by rw [zeroFrom, hpage, frameAddr_eq hlt]; exact hrest, ?_, ?_⟩
      · intro a ha
        have hzeroed : zeroed a = 0 := by
          simp only [zeroed, splice, ha, ite_self]
        exact hkept a hzeroed
      · intro j hj a ha
        cases j with
        | zero =>
            have hzeroed : zeroed (frameOf 0 * pageSize + a) = 0 := splice_add ha
            exact hkept _ hzeroed
        | succ j => exact hzero j (by omega) a ha

/-! ## Both results -/

/-- With enough frames the call succeeds. -/
theorem allocateThreadSpace_enough (hbits : s.frames.numBits = s.numPhysPages)
    (raw : ℕ → TranslationEntry) (h : newPages ≤ s.freeFrames) :
    ∃ s', s.allocateThreadSpace p raw = .ok (true, s') ∧ s.Enlarged s' p := by
  obtain ⟨T, b, halloc, -, hold, frameOf, hnew, hfree, hinj⟩ :=
    allocFrom_enough (s.procs p).space (s.procs p).space.numPages
      (fun i => if i < (s.procs p).space.numPages then (s.procs p).space.pageTable i else raw i) h
  obtain ⟨mem, hzeroFrom, -, hzero⟩ :=
    zeroFrom_spec (s := { s with frames := b }) (T := T) (k := newPages)
      (i := (s.procs p).space.numPages) frameOf (by
        intro j hj
        have hlt := (hfree j hj).1
        exact ⟨by rw [hnew j hj]; rfl, by rwa [hbits] at hlt⟩)
  refine ⟨_, by simp only [allocateThreadSpace, halloc, hzeroFrom]; rfl, ?_⟩
  have hsplit : ∀ v, s.NewPage p v → ∃ j < newPages, v = (s.procs p).space.numPages + j := by
    rintro v ⟨hle, hlt⟩
    exact ⟨v - (s.procs p).space.numPages, by omega, by omega⟩
  have hpte : ∀ j < newPages, T ((s.procs p).space.numPages + j) =
      threadEntry ((s.procs p).space.numPages + j) (frameOf j) := hnew
  constructor
  case numPages => simp [setSpace]
  case entries =>
    intro v hv
    simp [setSpace, pte, hold v hv, hv]
  case valid =>
    intro v hv
    obtain ⟨j, hj, rfl⟩ := hsplit v hv
    simp [setSpace, pte, hpte j hj, threadEntry]
  case frame =>
    intro v hv
    obtain ⟨j, hj, rfl⟩ := hsplit v hv
    exact ⟨frameOf j, by simp [setSpace, pte, hpte j hj, threadEntry], hfree j hj, hzero j hj⟩
  case distinct =>
    intro v w hv hw heq
    obtain ⟨j, hj, rfl⟩ := hsplit v hv
    obtain ⟨j', hj', rfl⟩ := hsplit w hw
    simp only [setSpace, pte, Function.update_self, hpte j hj, hpte j' hj', threadEntry,
      Nat.cast_inj] at heq
    rw [hinj j hj j' hj' heq]

/-- With too few frames the call takes them all, and what it frees are the frames that the heap
behind the page table names. -/
theorem allocateThreadSpace_short (raw : ℕ → TranslationEntry) (h : s.freeFrames < newPages) :
    ∃ b, b.numBits = s.frames.numBits ∧ (∀ f < b.numBits, b.bit f = true) ∧
      s.allocateThreadSpace p raw =
        match ({ s with frames := b } : VM).freeFrom (s.procs p).space.pageTable s.freeFrames
            (s.procs p).space.numPages with
        | .error e => .error e
        | .ok s' => .ok (false, s') := by
  obtain ⟨b, hbits, hall, halloc⟩ :=
    allocFrom_short (s.procs p).space (s.procs p).space.numPages
      (fun i => if i < (s.procs p).space.numPages then (s.procs p).space.pageTable i else raw i) h
  refine ⟨b, hbits, hall, ?_⟩
  rw [Nat.add_sub_cancel_left] at halloc
  simp only [allocateThreadSpace, halloc]
  split
  · rename_i e heq
    split at heq
    · cases heq
      rfl
    · cases heq
  · rename_i heq
    split at heq
    · cases heq
    · cases heq
      rfl
  · rename_i heq
    split at heq
    · cases heq
    · cases heq

/-- A frame for each entry behind the old table that the roll-back reads. -/
def HeapNamesFrames (s : VM) (p : ℕ) : Prop :=
  ∀ k < s.freeFrames, ∃ f : ℕ,
    (s.pte p ((s.procs p).space.numPages + k)).physicalPage = f ∧ f < s.frames.numBits

/-- After the roll-back the free frames are those that it has freed. -/
theorem allocateThreadSpace_rolledBack (raw : ℕ → TranslationEntry) (h : s.freeFrames < newPages)
    (hnames : s.HeapNamesFrames p) :
    ∃ b, s.allocateThreadSpace p raw = .ok (false, { s with frames := b }) ∧
      ∀ f, ({ s with frames := b } : VM).FrameFree f ↔
        ∃ k < s.freeFrames, (s.pte p ((s.procs p).space.numPages + k)).physicalPage = f := by
  obtain ⟨b, hbits, hall, hcall⟩ := allocateThreadSpace_short (p := p) raw h
  obtain ⟨b', hfreed, hbits', hbit⟩ := freeFrom_spec (s := { s with frames := b })
    (T := (s.procs p).space.pageTable) (k := s.freeFrames) (j := (s.procs p).space.numPages) (by
      intro k hk
      rw [show ({ s with frames := b } : VM).frames.numBits = b.numBits from rfl, hbits]
      exact hnames k hk)
  refine ⟨b', by rw [hcall, hfreed], ?_⟩
  intro f
  constructor
  · rintro ⟨hlt, hclear⟩
    rcases (hbit f).1 hclear with hfull | hk
    · have hlt' : f < b.numBits := hbits' ▸ hlt
      rw [show ({ s with frames := b } : VM).frames = b from rfl, hall f hlt'] at hfull
      cases hfull
    · exact hk
  · rintro ⟨k, hk, hpage⟩
    obtain ⟨f', hf', hlt⟩ := hnames k hk
    rw [hf', Nat.cast_inj] at hpage
    have hlt' : f < b'.numBits := by
      rw [hbits', show ({ s with frames := b } : VM).frames.numBits = b.numBits from rfl, hbits,
        ← hpage]
      exact hlt
    exact ⟨hlt', (hbit f).2 (.inr ⟨k, hk, by rw [← hpage]; exact hf'⟩)⟩

theorem heapNamesFrames_of_ok {raw : ℕ → TranslationEntry} {result : Bool × VM}
    (h : s.freeFrames < newPages) (hok : s.allocateThreadSpace p raw = .ok result) :
    s.HeapNamesFrames p := by
  obtain ⟨b, hbits, -, hcall⟩ := allocateThreadSpace_short (p := p) raw h
  rw [hcall] at hok
  split at hok
  · cases hok
  · rename_i s₁ hfreed
    intro k hk
    obtain ⟨f, hf, hlt⟩ := exists_of_freeFrom hfreed k hk
    exact ⟨f, hf, hbits ▸ hlt⟩

/-- A call that is short of frames keeps its promise when the heap names the frames that were
free. -/
theorem spec_iff_of_short (raw : ℕ → TranslationEntry) (h : s.freeFrames < newPages) :
    (∃ result, s.allocateThreadSpace p raw = .ok result ∧ s.SpaceSpec p result) ↔
      s.HeapNamesFree p := by
  constructor
  · rintro ⟨result, hok, hspec⟩ f
    have hnames := heapNamesFrames_of_ok h hok
    obtain ⟨b, hback, hfree⟩ := allocateThreadSpace_rolledBack raw h hnames
    rw [hback] at hok
    cases hok
    have hrestored := hspec.1 rfl
    constructor
    · rintro ⟨k, hk, rfl⟩
      obtain ⟨n, hn, -⟩ := hnames k hk
      exact ⟨n, hn, (hrestored.frames n).1 ((hfree n).2 ⟨k, hk, hn⟩)⟩
    · rintro ⟨n, rfl, hn⟩
      exact (hfree n).1 ((hrestored.frames n).2 hn)
  · intro hheap
    have hnames : s.HeapNamesFrames p := by
      intro k hk
      obtain ⟨n, hn, hlt, -⟩ := (hheap _).1 ⟨k, hk, rfl⟩
      exact ⟨n, hn, hlt⟩
    obtain ⟨b, hback, hfree⟩ := allocateThreadSpace_rolledBack raw h hnames
    refine ⟨_, hback, fun _ => ⟨rfl, fun _ _ => rfl, ?_, rfl⟩, by simp⟩
    intro f
    rw [hfree f]
    constructor
    · intro hk
      obtain ⟨n, hn, hnfree⟩ := (hheap f).1 hk
      rwa [Nat.cast_inj.1 hn]
    · intro hf
      exact (hheap f).2 ⟨f, rfl, hf⟩

/-- When no frame is free, nothing has been taken and nothing is freed. -/
theorem heapNamesFree_of_full (h : s.freeFrames = 0) : s.HeapNamesFree p := by
  obtain ⟨-, hnone⟩ := allocPage_of_full h
  intro f
  constructor
  · rintro ⟨k, hk, -⟩
    omega
  · rintro ⟨n, -, hn⟩
    exact absurd hn (hnone n)

/-- A Fork that gets its pages, or not one of them, keeps its promise. One that gets some of
them restores the memory only where the heap behind the page table happens to name the frames
that it has taken. -/
theorem allocateThreadSpace_iff (hbits : s.frames.numBits = s.numPhysPages) (p : ℕ)
    (raw : ℕ → TranslationEntry) :
    (∃ result, s.allocateThreadSpace p raw = .ok result ∧ s.SpaceSpec p result) ↔
      newPages ≤ s.freeFrames ∨ s.freeFrames = 0 ∨ s.HeapNamesFree p := by
  by_cases henough : newPages ≤ s.freeFrames
  · obtain ⟨s', hok, henlarged⟩ := allocateThreadSpace_enough (p := p) hbits raw henough
    have hspec : s.SpaceSpec p (true, s') := ⟨by simp, fun _ => henlarged⟩
    exact iff_of_true ⟨_, hok, hspec⟩ (.inl henough)
  · rw [spec_iff_of_short raw (by omega)]
    constructor
    · intro h
      exact .inr (.inr h)
    · rintro (h | h | h)
      · exact absurd h henough
      · exact heapNamesFree_of_full h
      · exact h

/-- A process on all frames but the last one; the heap behind its page table is zero. -/
def crowded : VM where
  numPhysPages := 32
  mainMemory := fun _ => 0
  frames :=
    { numBits := 32
      map := fun _ => 0x7fffffff#32 }
  coreMap := .new 32
  nextCorePage := 0
  files := fun _ => .empty
  procs := Function.update (fun _ => .none) 0
    { Process.none with
      space :=
        { pageTable := fun i => if i < 31 then threadEntry i i else
            { threadEntry 0 0 with valid := false }
          numPages := 31
          currentExecutable := .empty }
      alive := true }
  numProcs := 1
  tablePtr := ((Table.new 32).alloc 0).2
  storeTable := ((Table.new 32).alloc 0).2
  stats :=
    { numPageFaults := 0
      numPageIns := 0
      numPageOuts := 0 }
  log := []

/-- The same with nine frames free. -/
def roomy : VM :=
  { crowded with
    frames :=
      { numBits := 32
        map := fun _ => 0x7fffff#32 }
    procs := Function.update crowded.procs 0
      { crowded.procs 0 with space := { (crowded.procs 0).space with numPages := 23 } } }

theorem allocateThreadSpace_iff_roomy :
    ∃ result, roomy.allocateThreadSpace 0 (fun i => threadEntry i 0) = .ok result ∧
      roomy.SpaceSpec 0 result :=
  (allocateThreadSpace_iff rfl 0 fun i => threadEntry i 0).2 (.inl (by decide +kernel))

/-- The Fork that fails there keeps the frame 31, and frees the frame 0 of a page in use. -/
theorem failed_fork_frees_page :
    ¬ ∃ result, crowded.allocateThreadSpace 0 (fun i => threadEntry i 0) = .ok result ∧
      crowded.SpaceSpec 0 result := by
  rintro ⟨⟨returned, s'⟩, hok, hspec⟩
  have hrun : (crowded.allocateThreadSpace 0 fun i => threadEntry i 0).toOption.map
      (fun r => (r.1, r.2.frames.bit 0, r.2.frames.bit 31)) = some (false, false, true) := by
    decide +kernel
  rw [hok] at hrun
  have hparts : (returned, s'.frames.bit 0, s'.frames.bit 31) = (false, false, true) :=
    Option.some.inj hrun
  simp only [Prod.mk.injEq] at hparts
  obtain ⟨hreturned, hzero, hlast⟩ := hparts
  have hfree : crowded.FrameFree 31 := by decide +kernel
  have hfree' := ((hspec.1 hreturned).frames 31).2 hfree
  rw [hfree'.2] at hlast
  cases hlast

end VM

end Nachos
