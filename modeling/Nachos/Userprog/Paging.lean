import Nachos.Userprog.Frames

/-!
# Frame accounting

Between two page faults no frame is held: the list of resident pages loses a page in an
eviction, the first one under FIFO replacement, and gets a new last one when a page is
allocated. Every system call and every request keeps the three records of this list, so
they agree in every state that a run reaches.
-/

namespace Nachos

open Lib

namespace VM

variable {s s' : VM} {p v : ℕ} {resident : List (VPage × ℤ)} {held : List ℤ}

/-! ## The handler -/

/-- The state after an eviction, with the state `s₁` that `pageOut` has before it clears
the valid bit and the new bit map of the frames. -/
def evicted (s₁ : VM) (p v : ℕ) (frames : BitMap) : VM := { s₁.unmapped p v with frames := frames }

/-- The first resident page is evicted: it is paged out, unmapped and its frame is
freed. -/
theorem Accounts.evict (h : s.Accounts resident held) (hne : resident ≠ []) (hfit : StoresFit s) :
    ∃ p v f rest coreMap frames s₁, resident = ((p, v), f) :: rest ∧
      PagedOut { s with coreMap := coreMap } p v s₁ ∧
        s.evict false = .ok (s₁.evicted p v frames) ∧
          (s₁.evicted p v frames).Accounts rest held := by
  obtain ⟨p, v, f, l, rest, m', use, s₁, hsplit, hout, heq, hacc, hfifo⟩ :=
    h.evictPage false hne hfit (by simp)
  obtain ⟨rfl, rfl⟩ := hfifo rfl
  obtain ⟨frames, hfree, hacc⟩ := hacc.freePage
  refine ⟨p, v, f, rest, m', frames, s₁, hsplit, hout, ?_, hacc⟩
  unfold VM.evict
  simp only [heq]
  exact hfree

theorem PagedOut.kept_evicted {coreMap : CoreMap} {s₁ : VM}
    (h : PagedOut { s with coreMap := coreMap } p v s₁) (frames : BitMap) :
    Kept s (s₁.evicted p v frames) := by
  have h₁ : Kept s { s with coreMap := coreMap } := .of_procs rfl rfl rfl rfl rfl rfl
  have h₂ : Kept s₁ (s₁.unmapped p v) := kept_setEntry s₁ p v _
  have h₃ : Kept (s₁.unmapped p v) (s₁.evicted p v frames) := .of_procs rfl rfl rfl rfl rfl rfl
  exact h₁.trans (h.kept.trans (h₂.trans h₃))

theorem PagedOut.pte_evicted {coreMap : CoreMap} {s₁ : VM}
    (h : PagedOut { s with coreMap := coreMap } p v s₁) (frames : BitMap) (q w : ℕ) :
    (s₁.evicted p v frames).pte q w =
      if q = p ∧ w = v then { s.pte p v with valid := false, dirty := false } else s.pte q w := by
  show (s₁.setEntry p v _).pte q w = _
  rw [pte_setEntry, h.pte, h.pte]
  rfl

/-- What the handler leaves of the resident pages when it makes room: all of them, or all but
the first when every frame is taken. -/
def Dropped (s : VM) (resident rest : List (VPage × ℤ)) : Prop :=
  rest = resident ∨ resident.length = s.numPhysPages ∧ ∃ x, resident = x :: rest

/-- When the core map is full, every frame holds a page. -/
theorem Accounts.length_of_full (h : s.Accounts resident held) (hfull : s.coreMap.isFull = true) :
    resident.length = s.numPhysPages := by
  have hsize : s.coreMap.size = s.coreMap.capacity := by simpa [CoreMap.isFull] using hfull
  rw [← h.holds.size, hsize, h.capacity]

theorem Accounts.ne_nil_of_full (h : s.Accounts resident held) (hn : 0 < s.numPhysPages)
    (hfull : s.coreMap.isFull = true) : resident ≠ [] := by
  rintro rfl
  have hlength := h.length_of_full hfull
  rw [List.length_nil] at hlength
  omega

/-- The handler makes room when there is none. -/
theorem Accounts.makeRoom (h : s.Accounts resident []) (hfit : StoresFit s) {s₁ : VM}
    (hs : (if s.coreMap.isFull then s.evict false else .ok s) = .ok s₁) :
    ∃ rest, s₁.Accounts rest [] ∧ rest.length < s₁.numPhysPages ∧ Kept s s₁ ∧
      (∀ q w, (s.pte q w).valid = false → (s₁.pte q w).valid = false) ∧
        s.Dropped resident rest := by
  split at hs
  · rename_i hfull
    have hsize := h.length_of_full hfull
    by_cases hne : resident = []
    · have hzero : s.coreMap.size = 0 := by rw [h.holds.size, hne]; rfl
      have : s.evict false = .error .nullPointer := by
        unfold VM.evict VM.evictPage CoreMap.evictCorePage
        simp only [hzero, if_true]
      rw [this] at hs
      cases hs
    · obtain ⟨p, v, f, rest, m', frames, s₂, rfl, hout, heq, hacc⟩ := h.evict hne hfit
      rw [heq] at hs
      cases hs
      have hkept := hout.kept_evicted frames
      refine ⟨rest, hacc, ?_, hkept, ?_, .inr ⟨hsize, _, rfl⟩⟩
      · rw [hkept.numPhysPages, ← hsize]
        exact Nat.lt_succ_self rest.length
      · intro q w hqw
        rw [hout.pte_evicted]
        split
        · rfl
        · exact hqw
  · rename_i hfull
    cases hs
    refine ⟨resident, h, ?_, .of_procs rfl rfl rfl rfl rfl rfl, fun _ _ => id, .inl rfl⟩
    have : s.coreMap.size ≠ s.coreMap.capacity := by simpa [CoreMap.isFull] using hfull
    rw [h.holds.size, h.capacity] at this
    have hle := h.length_le
    rw [List.length_nil] at hle
    omega

/-- `allocVirtualPage` with a free frame: the frame is taken, and the page is placed in
it. -/
theorem Accounts.allocVirtualPage (h : s.Accounts resident [])
    (hroom : resident.length < s.numPhysPages) {virtualAddr : BitVec 32} {stack : ℕ → Byte}
    (hmagic : (readHeader (s.procs p).space.currentExecutable stack).noffMagic = NOFFMAGIC) :
    ∃ (f : ℕ) (frames : BitMap), f < s.numPhysPages ∧
      { s with frames := frames }.Accounts resident [(f : ℤ)] ∧
      s.allocVirtualPage p virtualAddr stack =
        match { s with frames := frames }.placePage p (vpnOf virtualAddr) f
            (readHeader (s.procs p).space.currentExecutable stack) with
        | .error e => .error e
        | .ok s' => .ok (0, s') := by
  obtain ⟨f, frames, halloc, hf, hacc⟩ := h.allocPage hroom
  refine ⟨f, frames, hf, hacc, ?_⟩
  unfold VM.allocVirtualPage
  cases hplace : { s with frames := frames }.placePage p (vpnOf virtualAddr) f
      (readHeader (s.procs p).space.currentExecutable stack) with
  | error e => simp only [hmagic, ne_eq, not_true_eq_false, if_false, halloc, hplace]
  | ok s' => simp only [hmagic, ne_eq, not_true_eq_false, if_false, halloc, hplace]

/-- A page fault is counted; the rest of it is in a state `t` with other statistics. -/
theorem Accounts.pageFault_eq (h : s.Accounts resident []) (p : ℕ) (virtualAddr : BitVec 32)
    (stack : ℕ → Byte) :
    ∃ t, (∃ stats, t = { s with stats := stats }) ∧ t.Accounts resident [] ∧ Kept s t ∧
      t.procs = s.procs ∧ s.pageFault false p virtualAddr stack =
        match if t.coreMap.isFull then t.evict false else .ok t with
        | .error e => .error e
        | .ok s' => s'.allocVirtualPage p virtualAddr stack :=
  ⟨_, ⟨{ s.stats with numPageFaults := s.stats.numPageFaults + 1 }, rfl⟩,
    h.congr ⟨rfl, rfl, rfl, rfl, fun _ _ => Iff.rfl⟩, .of_procs rfl rfl rfl rfl rfl rfl, rfl, rfl⟩

/-- A page fault that is handled keeps the accounts; the page that is brought in is the last
one of the resident pages. -/
theorem Accounts.pageFault (h : s.Accounts resident []) (hfit : StoresFit s)
    {virtualAddr : BitVec 32} {stack : ℕ → Byte} {val : ℤ} (hp : p < s.numProcs)
    (hv : vpnOf virtualAddr < (s.procs p).space.numPages)
    (hinvalid : (s.pte p (vpnOf virtualAddr)).valid = false)
    (hs : s.pageFault false p virtualAddr stack = .ok (val, s')) :
    ∃ resident', s'.Accounts resident' [] ∧ Kept s s' ∧
      (val = 0 → ∃ rest f, s.Dropped resident rest ∧
        resident' = rest ++ [((p, vpnOf virtualAddr), f)]) := by
  obtain ⟨t, -, hacc₀, hkept₀, hprocs₀, hfault⟩ := h.pageFault_eq p virtualAddr stack
  have hinvalid₀ : (t.pte p (vpnOf virtualAddr)).valid = false := by
    rw [pte, hprocs₀]
    exact hinvalid
  rw [hfault] at hs
  split at hs
  · cases hs
  · rename_i t₁ ht₁
    obtain ⟨rest, hacc, hroom, hkept₁, hpte, hdrop⟩ := hacc₀.makeRoom (hfit.kept hkept₀) ht₁
    have hdrop : s.Dropped resident rest := by
      rw [Dropped, ← hkept₀.numPhysPages]
      exact hdrop
    have hkept := hkept₀.trans hkept₁
    by_cases hmagic : (readHeader (t₁.procs p).space.currentExecutable stack).noffMagic = NOFFMAGIC
    · obtain ⟨f, frames, -, hacc', heq⟩ := hacc.allocVirtualPage (p := p) hroom hmagic
      rw [heq] at hs
      split at hs
      · cases hs
      · rename_i t₂ hplace
        cases hs
        have hp₁ : p < t₁.numProcs := by rwa [hkept.numProcs]
        have hv₁ : vpnOf virtualAddr < (t₁.procs p).space.numPages := by rwa [hkept.numPages]
        obtain ⟨hacc₂, hkept₂, -⟩ := hacc'.of_placePage hp₁ hv₁ (hpte p _ hinvalid₀) hplace
        have hframes : Kept t₁ { t₁ with frames := frames } := .of_procs rfl rfl rfl rfl rfl rfl
        exact ⟨_, hacc₂, hkept.trans (hframes.trans hkept₂), fun _ => ⟨rest, f, hdrop, rfl⟩⟩
    · have heq : t₁.allocVirtualPage p virtualAddr stack = .ok (1, t₁) := by
        unfold VM.allocVirtualPage
        rw [if_pos hmagic]
      rw [heq] at hs
      cases hs
      exact ⟨rest, hacc, hkept, fun h0 => by cases h0⟩

/-! ## Runs -/

/-- The tables of the processes: there are never more threads than backing stores, and
every process has a backing store of its own. -/
structure Tables (s : VM) : Prop where
  tableSize : s.tablePtr.tableSize = s.storeTable.tableSize
  used : s.tablePtr.used ≤ s.storeTable.used
  owner : ∀ p < s.numProcs, s.storeTable.get (s.procs p).backingStore.storeID = some p
  filename : ∀ p < s.numProcs, (s.procs p).backingStore.filename =
    BackingStore.filenameOf (s.procs p).backingStore.storeID

/-- The state after a successful `exec`. -/
def started (s : VM) (space : AddrSpace) (pages : BitMap) (storeID : ℕ)
    (storeTable tablePtr : Table ℕ) : VM :=
  { s with
    procs := Function.update s.procs s.numProcs
      { space := space
        backingStore :=
          { pages := pages
            filename := BackingStore.filenameOf storeID
            storeID := storeID }
        alive := true }
    numProcs := s.numProcs + 1
    files := Function.update s.files (BackingStore.filenameOf storeID) .empty
    storeTable := storeTable
    tablePtr := tablePtr }

/-- A slot that has been taken is given back. -/
theorem Tables.giveBack (h : Tables s) {i : ℕ} {t : Table ℕ} (hnone : s.storeTable.get i = none)
    (hsize : t.tableSize = s.storeTable.tableSize) (hused : t.used = s.storeTable.used + 1)
    (hget : ∀ j : ℕ, t.get j = if j = i then some s.numProcs else s.storeTable.get j) :
    Tables { s with storeTable := t.release i } := by
  refine ⟨?_, ?_, ?_, h.filename⟩
  · show s.tablePtr.tableSize = (t.release i).tableSize
    rw [Table.tableSize_release, hsize, h.tableSize]
  · show s.tablePtr.used ≤ (t.release i).used
    have := h.used
    rw [Table.used_release, hget i, hused]
    simpa using this
  · intro p hp
    show (t.release i).get (s.procs p).backingStore.storeID = some p
    have howner := h.owner p hp
    have hne : (s.procs p).backingStore.storeID ≠ i := by
      rintro heq
      rw [heq, hnone] at howner
      cases howner
    rw [Table.get_release, if_neg hne, hget, if_neg hne, howner]

/-- Two slots that have been taken belong to a new process. -/
theorem Tables.start (h : Tables s) {i : ℕ} {t t' : Table ℕ} (hnone : s.storeTable.get i = none)
    (hsize : t.tableSize = s.storeTable.tableSize) (hused : t.used = s.storeTable.used + 1)
    (hget : ∀ j : ℕ, t.get j = if j = i then some s.numProcs else s.storeTable.get j)
    (hsize' : t'.tableSize = s.tablePtr.tableSize) (hused' : t'.used = s.tablePtr.used + 1)
    (space : AddrSpace) (pages : BitMap) :
    (∀ p < s.numProcs, (s.procs p).backingStore.storeID ≠ i) ∧
      Tables (s.started space pages i t t') := by
  have hne : ∀ p < s.numProcs, (s.procs p).backingStore.storeID ≠ i := by
    intro p hp heq
    have howner := h.owner p hp
    rw [heq, hnone] at howner
    cases howner
  refine ⟨hne, ?_, ?_, ?_, ?_⟩
  · show t'.tableSize = t.tableSize
    rw [hsize', hsize, h.tableSize]
  · show t'.used ≤ t.used
    have := h.used
    omega
  · intro p hp
    show t.get _ = some p
    rcases Nat.lt_succ_iff_lt_or_eq.1 hp with hlt | rfl
    · rw [hget]
      simp [started, Nat.ne_of_lt hlt, hne p hlt, h.owner p hlt]
    · rw [hget]
      simp [started]
  · intro p hp
    rcases Nat.lt_succ_iff_lt_or_eq.1 hp with hlt | rfl
    · simp [started, Nat.ne_of_lt hlt, h.filename p hlt]
    · simp [started]

/-- `exec` on good tables: it does nothing but take and give back a slot, or it starts a
process. There is always a slot for the thread. -/
theorem Tables.exec (h : Tables s) (executable : File) (stack : ℕ → Byte)
    (words : ℕ → BitVec 32) (created : Bool) :
    (∃ storeTable, s.exec executable stack words created =
        .ok { s with storeTable := storeTable } ∧ Tables { s with storeTable := storeTable }) ∨
      ∃ space pages storeID storeTable tablePtr,
        s.exec executable stack words created =
          .ok (s.started space pages storeID storeTable tablePtr) ∧
        AddrSpace.initialize executable stack = some space ∧ pages.numBits = space.numPages ∧
        (∀ j < space.numPages, pages.bit j = false) ∧
        (∀ p < s.numProcs, (s.procs p).backingStore.storeID ≠ storeID) ∧
        Tables (s.started space pages storeID storeTable tablePtr) := by
  rcases s.storeTable.alloc_spec s.numProcs with
    ⟨halloc, -⟩ | ⟨i, t, halloc, -, hnone, hsize, hused, hget⟩
  · refine .inl ⟨s.storeTable, ?_, h⟩
    unfold VM.exec
    simp only [halloc, if_true]
  · have hi : ¬ (i : ℤ) = -1 := by omega
    have hback := h.giveBack hnone hsize hused hget
    cases hinit : AddrSpace.initialize executable stack with
    | none =>
        refine .inl ⟨t.release i, ?_, hback⟩
        unfold VM.exec
        simp only [halloc, hi, if_false, hinit]
    | some space =>
        obtain ⟨pages, hnew, hnum, hclear⟩ := BitMap.new_spec space.numPages words
        cases created with
        | false =>
            refine .inl ⟨t.release i, ?_, hback⟩
            unfold VM.exec
            simp only [halloc, hi, if_false, hinit, hnew, if_true]
        | true =>
            rcases s.tablePtr.alloc_spec s.numProcs with
              ⟨-, hfull⟩ | ⟨j, t', halloc', -, -, hsize', hused', -⟩
            · -- every thread has a backing store, and this one is not on the table yet
              have hle := t.used_le
              have htables := h.used
              have htables' := h.tableSize
              omega
            · have hj : ¬ (j : ℤ) = -1 := by omega
              obtain ⟨hne, htables⟩ :=
                h.start hnone hsize hused hget hsize' hused' space pages
              refine .inr ⟨space, pages, i, t, t', ?_, rfl, hnum, hclear, hne, htables⟩
              unfold VM.exec
              simp only [halloc, hi, if_false, hinit, hnew, halloc', hj, Int.toNat_natCast,
                Bool.true_eq_false]
              rfl

theorem releaseSlots_spec (p : ℕ) (t : Table ℕ) :
    (releaseSlots p t).tableSize = t.tableSize ∧ (releaseSlots p t).used ≤ t.used := by
  unfold releaseSlots
  induction List.range TABLESIZE generalizing t with
  | nil => exact ⟨rfl, Nat.le_refl _⟩
  | cons i is ih =>
      rw [List.foldl_cons]
      by_cases hget : t.get i = some p
      · rw [if_pos hget]
        obtain ⟨hsize, hused⟩ := ih (t.release i)
        rw [Table.tableSize_release] at hsize
        rw [Table.used_release] at hused
        exact ⟨hsize, Nat.le_trans hused (Nat.sub_le _ _)⟩
      · rw [if_neg hget]
        exact ih t

/-- The accounts of the frames and of the slots are in order. -/
structure Sound (s : VM) : Prop where
  accounts : ∃ resident, s.Accounts resident []
  fit : StoresFit s
  tables : Tables s

theorem Sound.kept {s₁ : VM} (h : Sound s) (hacc : ∃ resident, s₁.Accounts resident [])
    (hkept : Kept s s₁) : Sound s₁ := by
  refine ⟨hacc, h.fit.kept hkept, ?_, ?_, ?_, ?_⟩
  · rw [hkept.tablePtr, hkept.storeTable]
    exact h.tables.tableSize
  · rw [hkept.tablePtr, hkept.storeTable]
    exact h.tables.used
  · intro p hp
    rw [hkept.numProcs] at hp
    rw [hkept.storeTable, hkept.storeID]
    exact h.tables.owner p hp
  · intro p hp
    rw [hkept.numProcs] at hp
    rw [hkept.filename, hkept.storeID]
    exact h.tables.filename p hp

theorem tablePtr_sysCallExit (s : VM) (p : ℕ) :
    (s.sysCallExit p).tablePtr = releaseSlots p s.tablePtr := by
  simp only [sysCallExit]

/-- Exit keeps the address space and the backing store. -/
theorem procs_sysCallExit (s : VM) (p q : ℕ) :
    ((s.sysCallExit p).procs q).space = (s.procs q).space ∧
      ((s.sysCallExit p).procs q).backingStore = (s.procs q).backingStore := by
  by_cases hq : q = p
  · subst hq
    simp [sysCallExit]
  · simp [sysCallExit, hq]

theorem sound_sysCallExit (h : Sound s) (p : ℕ) : Sound (s.sysCallExit p) := by
  have hspace := fun q => (procs_sysCallExit s p q).1
  have hstore := fun q => (procs_sysCallExit s p q).2
  obtain ⟨resident, hacc⟩ := h.accounts
  obtain ⟨hsize, hused⟩ := releaseSlots_spec p s.tablePtr
  refine ⟨⟨resident, hacc.congr ⟨rfl, rfl, rfl, rfl, ?_⟩⟩, ?_, ?_, ?_, ?_, ?_⟩
  · intro v f
    simp only [Mapped, pte, hspace]
    rfl
  · intro q hq
    rw [hspace, hstore]
    exact h.fit q hq
  · rw [tablePtr_sysCallExit, hsize]
    exact h.tables.tableSize
  · rw [tablePtr_sysCallExit]
    exact Nat.le_trans hused h.tables.used
  · intro q hq
    rw [hstore]
    exact h.tables.owner q hq
  · intro q hq
    rw [hstore]
    exact h.tables.filename q hq

/-- A change of main memory and of the log. -/
theorem Sound.transfer (h : Sound s) {physAddr : ℕ} {r : Request}
    (hs : s.transfer p physAddr r = .ok s') : Sound s' := by
  obtain ⟨resident, hacc⟩ := h.accounts
  unfold VM.transfer at hs
  cases r with
  | readMem addr size =>
      simp only at hs
      split at hs
      · cases hs
      · cases hs
        exact ⟨⟨resident, hacc.congr ⟨rfl, rfl, rfl, rfl, fun _ _ => Iff.rfl⟩⟩, h.fit,
          ⟨h.tables.tableSize, h.tables.used, h.tables.owner, h.tables.filename⟩⟩
  | writeMem addr size value =>
      simp only at hs
      split at hs
      · cases hs
      · cases hs
        exact ⟨⟨resident, hacc.congr ⟨rfl, rfl, rfl, rfl, fun _ _ => Iff.rfl⟩⟩, h.fit,
          ⟨h.tables.tableSize, h.tables.used, h.tables.owner, h.tables.filename⟩⟩

theorem Sound.record (h : Sound s) (p : ℕ) (r : Request) (o : Outcome) :
    Sound (s.record p r o) := by
  obtain ⟨resident, hacc⟩ := h.accounts
  exact ⟨⟨resident, hacc.congr ⟨rfl, rfl, rfl, rfl, fun _ _ => Iff.rfl⟩⟩, h.fit,
    ⟨h.tables.tableSize, h.tables.used, h.tables.owner, h.tables.filename⟩⟩

theorem Sound.access (h : Sound s) {r : Request} {stack : ℕ → Byte} (hp : p < s.numProcs)
    (hs : s.access false p r stack = .ok s') : Sound s' := by
  obtain ⟨resident, hacc⟩ := h.accounts
  unfold VM.access at hs
  split at hs
  · cases hs
  · rename_i physAddr entry htr
    obtain ⟨-, -, hentry⟩ := of_translate_physical htr
    have hsame := sameFrames_setEntry (s := s) (p := p) (v := vpnOf r.addr) (e := entry)
      (by rw [hentry]; rfl) (by rw [hentry]; rfl)
    exact (h.kept ⟨resident, hacc.congr hsame⟩ (kept_setEntry s p _ entry)).transfer hs
  · rename_i htr
    obtain ⟨hv, hinvalid⟩ := of_translate_pageFault htr
    split at hs
    · cases hs
    · rename_i val s₁ hfault
      obtain ⟨resident', hacc', hkept, -⟩ := hacc.pageFault h.fit hp hv hinvalid hfault
      have hsound := h.kept ⟨resident', hacc'⟩ hkept
      split at hs
      · cases hs
        exact (sound_sysCallExit hsound p).record p r .killed
      · cases hs
        exact hsound.record p r .pageFault
  · cases hs
    exact (sound_sysCallExit h p).record p r .killed

/-- The address space that `initialize` makes. -/
theorem initialize_eq {executable : File} {stack : ℕ → Byte} {space : AddrSpace}
    (h : AddrSpace.initialize executable stack = some space) :
    (readHeader executable stack).noffMagic = NOFFMAGIC ∧
      space =
        { pageTable := fun i => .initial i
          numPages := divRoundUp ((readHeader executable stack).code.size +
            (readHeader executable stack).initData.size +
              (readHeader executable stack).uninitData.size + userStackSize +
                argumentSize).toNat pageSize
          currentExecutable := executable } := by
  unfold AddrSpace.initialize at h
  simp only at h
  split at h
  · cases h
  · rename_i hmagic
    cases h
    exact ⟨by simpa using hmagic, rfl⟩

/-- The bytes that the segments, the stack and the arguments of a program take. -/
def programSize (noffH : NoffHeader) : ℕ :=
  noffH.code.size.toNat + noffH.initData.size.toNat + noffH.uninitData.size.toNat +
    userStackSize.toNat + argumentSize.toNat

theorem isLeast_divRoundUp (n : ℕ) : IsLeast {k | n ≤ k * pageSize} (divRoundUp n pageSize) := by
  have hsize : pageSize = 128 := rfl
  rw [divRoundUp, hsize]
  constructor
  · rw [Set.mem_ofPred_eq]
    split <;> omega
  · intro k hk
    rw [Set.mem_ofPred_eq] at hk
    split <;> omega

theorem initialize_numPages {executable : File} {stack : ℕ → Byte} {space : AddrSpace}
    (h : AddrSpace.initialize executable stack = some space) :
    space.numPages =
      divRoundUp (programSize (readHeader executable stack) % 2 ^ 32) pageSize := by
  rw [(initialize_eq h).2]
  simp only [BitVec.toNat_add, programSize, Nat.mod_add_mod]

/-- The pages of an address space are as many as its program needs exactly when the sum of the
sizes does not wrap. -/
theorem isLeast_numPages_iff {executable : File} {stack : ℕ → Byte} {space : AddrSpace}
    (h : AddrSpace.initialize executable stack = some space) :
    IsLeast {n | programSize (readHeader executable stack) ≤ n * pageSize} space.numPages ↔
      programSize (readHeader executable stack) < 2 ^ 32 := by
  rw [initialize_numPages h]
  constructor
  · rintro ⟨hle, -⟩
    rw [Set.mem_ofPred_eq, divRoundUp, show pageSize = 128 from rfl] at hle
    split at hle <;> omega
  · intro hlt
    rw [Nat.mod_eq_of_lt hlt]
    exact isLeast_divRoundUp _

/-- An executable without code and data, and `size` bytes of uninitialized data. -/
def bssExecutable (size : BitVec 32) : File where
  length := 40
  byte i :=
    if i < 4 then NOFFMAGIC.extractLsb' (8 * i) 8
    else if 36 ≤ i then size.extractLsb' (8 * (i - 36)) 8
    else 0

theorem isLeast_numPages_bss :
    ∃ space, AddrSpace.initialize (bssExecutable 100) (fun _ => 0) = some space ∧
      IsLeast {n | programSize (readHeader (bssExecutable 100) fun _ => 0) ≤ n * pageSize}
        space.numPages := by
  have hspace : AddrSpace.initialize (bssExecutable 100) (fun _ => 0) ≠ none := by
    intro h
    cases h
  obtain ⟨space, hinit⟩ := Option.ne_none_iff_exists'.1 hspace
  exact ⟨space, hinit, (isLeast_numPages_iff hinit).2 (by decide)⟩

/-- The sum wraps to zero. -/
theorem numPages_of_wrap :
    ∃ space, AddrSpace.initialize (bssExecutable 0xfffffa00) (fun _ => 0) = some space ∧
      ¬ IsLeast {n | programSize (readHeader (bssExecutable 0xfffffa00) fun _ => 0) ≤ n * pageSize}
        space.numPages :=
  ⟨_, rfl, fun hleast => absurd hleast.1 (by decide)⟩

theorem procs_started_of_lt {space : AddrSpace} {b : BitMap} {i : ℕ} {t u : Table ℕ} {q : ℕ}
    (hq : q < s.numProcs) : (s.started space b i t u).procs q = s.procs q :=
  Function.update_of_ne (Nat.ne_of_lt hq) _ _

theorem mapped_started {executable : File} {stack : ℕ → Byte} {space : AddrSpace} {b : BitMap}
    {i : ℕ} {t u : Table ℕ} {v : VPage} {f : ℤ}
    (h : AddrSpace.initialize executable stack = some space) :
    (s.started space b i t u).Mapped v f ↔ s.Mapped v f := by
  obtain ⟨q, w⟩ := v
  have hnum : (s.started space b i t u).numProcs = s.numProcs + 1 := rfl
  rw [Mapped, Mapped, hnum]
  by_cases hq : q = s.numProcs
  · subst hq
    simp [started, pte, (initialize_eq h).2, TranslationEntry.initial]
  · have hiff : q < s.numProcs + 1 ↔ q < s.numProcs := by omega
    simp [started, pte, hq, hiff]

theorem Sound.exec (h : Sound s) {executable : File} {stack : ℕ → Byte} {words : ℕ → BitVec 32}
    {created : Bool} (hs : s.exec executable stack words created = .ok s') : Sound s' := by
  obtain ⟨resident, hacc⟩ := h.accounts
  rcases h.tables.exec executable stack words created with
    ⟨t, heq, htables⟩ | ⟨space, pages, i, t, t', heq, hinit, hnum, -, -, htables⟩
  · rw [heq] at hs
    cases hs
    exact ⟨⟨resident, hacc.congr ⟨rfl, rfl, rfl, rfl, fun _ _ => Iff.rfl⟩⟩, h.fit, htables⟩
  · rw [heq] at hs
    cases hs
    refine ⟨⟨resident, hacc.congr ⟨rfl, rfl, rfl, rfl, fun _ _ => mapped_started hinit⟩⟩, ?_,
      htables⟩
    intro q hq
    rcases Nat.lt_succ_iff_lt_or_eq.1 hq with hlt | rfl
    · simpa [started, Nat.ne_of_lt hlt] using h.fit q hlt
    · simpa [started] using hnum

theorem Sound.step (h : Sound s) {op : Op} (hs : s.step false op = .ok s') : Sound s' := by
  cases op with
  | exec executable stack words created => exact h.exec hs
  | access p r stack =>
      simp only [VM.step] at hs
      split at hs
      · rename_i hrun
        exact h.access hrun.1 hs
      · cases hs
        exact h
  | exit p =>
      simp only [VM.step] at hs
      split at hs
      · cases hs
        exact sound_sysCallExit h p
      · cases hs
        exact h

/-- The machine keeps its frames. -/
theorem Sound.numPhysPages_step (h : Sound s) {op : Op} (hs : s.step false op = .ok s') :
    s'.numPhysPages = s.numPhysPages := by
  cases op with
  | exec executable stack words created =>
      rcases h.tables.exec executable stack words created with
        ⟨t, heq, -⟩ | ⟨space, pages, i, t, t', heq, -⟩ <;>
      · rw [VM.step, heq] at hs
        cases hs
        rfl
  | access p r stack =>
      simp only [VM.step] at hs
      split at hs
      · rename_i hrun
        unfold VM.access at hs
        split at hs
        · cases hs
        · unfold VM.transfer at hs
          split at hs <;> split at hs <;> cases hs <;> rfl
        · rename_i htr
          obtain ⟨hv, hinvalid⟩ := of_translate_pageFault htr
          obtain ⟨resident, hacc⟩ := h.accounts
          split at hs
          · cases hs
          · rename_i val s₁ hfault
            obtain ⟨-, -, hkept, -⟩ := hacc.pageFault h.fit hrun.1 hv hinvalid hfault
            split at hs <;> cases hs <;> exact hkept.numPhysPages
        · cases hs
          rfl
      · cases hs
        rfl
  | exit p =>
      simp only [VM.step] at hs
      split at hs <;> cases hs <;> rfl

theorem numPhysPages_boot {numPhysPages maxProcess : ℕ} {words : ℕ → BitVec 32}
    (h : boot numPhysPages maxProcess words = .ok s) : s.numPhysPages = numPhysPages := by
  unfold boot at h
  split at h <;> cases h
  rfl

theorem sound_boot {numPhysPages maxProcess : ℕ} {words : ℕ → BitVec 32}
    (h : boot numPhysPages maxProcess words = .ok s) : Sound s := by
  obtain ⟨frames, hnew, hnum, hclear⟩ := BitMap.new_spec numPhysPages words
  unfold boot at h
  rw [hnew] at h
  cases h
  refine ⟨⟨[], ?_⟩, ?_, ?_⟩
  · refine ⟨.new _ _, rfl, hnum, Nat.zero_le _, ?_, .nil, by simp, ?_⟩
    · intro v f
      simp [Mapped]
    · intro f hf
      simp [hclear f hf]
  · intro p hp
    simp at hp
  · refine ⟨by simp, by simp, ?_, ?_⟩
    · intro p hp
      simp at hp
    · intro p hp
      simp at hp

theorem Accounts.test_iff (h : s.Accounts resident []) (f : ℤ) :
    s.frames.test f = .ok true ↔ f ∈ resident.map Prod.snd := by
  by_cases hf : s.frames.InRange f
  · obtain ⟨i, rfl⟩ := Int.eq_ofNat_of_zero_le hf.1
    have hi : i < s.frames.numBits := BitMap.inRange_natCast.1 hf
    have hbits := h.bits i (by rwa [← h.numBits])
    rw [List.append_nil] at hbits
    rw [BitMap.test_eq hi, ← hbits]
    simp
  · rw [BitMap.test, if_neg hf]
    constructor
    · rintro ⟨⟩
    · intro hmem
      have hrange := h.range f (List.mem_append_left [] hmem)
      rw [← h.numBits] at hrange
      exact absurd hrange hf

/-- The three records of the frames agree. -/
structure FramesAgree (s : VM) (entries : List CorePage) : Prop where
  /-- The frames marked in the bit map are those of the core map. -/
  marked : ∀ f : ℤ, s.frames.test f = .ok true ↔ f ∈ entries.map CorePage.physicalPage
  /-- They are those of the valid page-table entries. -/
  valid : ∀ f : ℤ, f ∈ entries.map CorePage.physicalPage ↔ ∃ v, s.Mapped v f
  nodup : (entries.map CorePage.physicalPage).Nodup
  unique : ∀ v w f, s.Mapped v f → s.Mapped w f → v = w
  /-- Each entry of the core map names one valid page-table entry, and the other way
  round. -/
  names : ∀ v f, s.Mapped v f ↔ ∃ c ∈ entries, c.vpage = v ∧ c.physicalPage = f
  size : s.coreMap.size = entries.length
  size_le : s.coreMap.size ≤ s.coreMap.capacity

theorem Accounts.framesAgree (h : s.Accounts resident []) :
    ∃ live, Path s.coreMap.getNext s.coreMap.head live ∧
      s.FramesAgree (live.map s.coreMap.page) := by
  obtain ⟨live, hrep, -, hres⟩ := h.holds
  have hsnd : (live.map s.coreMap.page).map CorePage.physicalPage = resident.map Prod.snd := by
    rw [hres]
    simp
  refine ⟨live, hrep.path, ?_, ?_, ?_, fun _ _ _ => h.page_eq, ?_, ?_, ?_⟩
  · intro f
    rw [hsnd, h.test_iff]
  · intro f
    rw [hsnd, List.mem_map]
    constructor
    · rintro ⟨⟨v, g⟩, hmem, rfl⟩
      exact ⟨v, (h.mapped v g).1 hmem⟩
    · rintro ⟨v, hv⟩
      exact ⟨(v, f), (h.mapped v f).2 hv, rfl⟩
  · rw [hsnd]
    exact (List.nodup_append.1 h.nodup).1
  · intro v f
    rw [← h.mapped, hres]
    simp
  · simp [hrep.size]
  · rw [h.holds.size, h.capacity]
    exact h.length_le

/-- In every state that page faults, Exec and Exit lead to under FIFO replacement, the bit
map, the core map and the page tables agree about the frames. -/
theorem frames_accounted {numPhysPages maxProcess : ℕ} {words : ℕ → BitVec 32} {s₀ s : VM}
    (h₀ : boot numPhysPages maxProcess words = .ok s₀)
    (h : Reachable (step false) s₀ s) :
    ∃ live, Path s.coreMap.getNext s.coreMap.head live ∧
      s.FramesAgree (live.map s.coreMap.page) := by
  have hsound : Sound s := by
    refine Reachable.invariant (sound_boot h₀) ?_ h
    intro s op s' _ hs hstep
    exact hs.step hstep
  obtain ⟨resident, hacc⟩ := hsound.accounts
  exact hacc.framesAgree

/-- A file with a header and nothing else. -/
def emptyProgram : File where
  length := 40
  byte := fun i => [0xad#8, 0xdf#8, 0xba#8].getD i 0#8

/-- A process starts and takes a page fault. -/
theorem frames_accounted_fault :
    ∃ s₀ s, boot 2 14 (fun _ => 0) = .ok s₀ ∧ Reachable (step false) s₀ s ∧
      s.coreMap.size = 1 ∧
        ∃ live, Path s.coreMap.getNext s.coreMap.head live ∧
          s.FramesAgree (live.map s.coreMap.page) := by
  obtain ⟨s₀, h₀⟩ : ∃ s₀, boot 2 14 (fun _ => 0) = .ok s₀ := ⟨_, rfl⟩
  obtain ⟨s, hs, hsize⟩ : ∃ s, Reachable (step false) s₀ s ∧
    decide (s.coreMap.size = 1) = true := by
    refine exists_of_passes
      [.exec emptyProgram (fun _ => 0) (fun _ => 0) true, .access 0 (.readMem 0 4) fun _ => 0] ?_
    cases h₀
    decide +kernel
  exact ⟨s₀, s, h₀, hs, of_decide_eq_true hsize, frames_accounted h₀ hs⟩

end VM

end Nachos
