import Nachos.Userprog.AddrSpace
import Mathlib.Data.List.Perm.Subperm

/-!
# Frames

The bit map of the memory manager, the core map and the page tables of all processes
are three records of one thing, the list of resident pages with their frames.
`Accounts s resident held` says that the machine `s` keeps this list, with the frames of
`held` taken from the bit map and not in the other two records: those of a page that
has been evicted and not freed yet, or of a frame that has been allocated and not
mapped yet. There is one lemma for each part of the page-fault handler between two
calls of the memory manager.
-/

namespace Nachos

open Lib

namespace VM

variable {s s' : VM} {p v : ℕ} {e : TranslationEntry}

/-! ## Page tables -/

@[simp] theorem pte_setEntry (s : VM) (p v : ℕ) (e : TranslationEntry) (q w : ℕ) :
    (s.setEntry p v e).pte q w = if q = p ∧ w = v then e else s.pte q w := by
  by_cases hq : q = p
  · subst hq
    by_cases hw : w = v
    · subst hw
      simp [setEntry, setSpace, pte]
    · simp [setEntry, setSpace, pte, hw]
  · simp [setEntry, setSpace, pte, hq]

/-- What `setEntry` leaves of a process. -/
theorem procs_setEntry (s : VM) (p v : ℕ) (e : TranslationEntry) (q : ℕ) :
    ((s.setEntry p v e).procs q).space.numPages = (s.procs q).space.numPages ∧
      ((s.setEntry p v e).procs q).space.currentExecutable =
          (s.procs q).space.currentExecutable ∧
        ((s.setEntry p v e).procs q).backingStore = (s.procs q).backingStore ∧
          ((s.setEntry p v e).procs q).alive = (s.procs q).alive := by
  by_cases hq : q = p
  · subst hq
    simp [setEntry, setSpace]
  · simp [setEntry, setSpace, hq]

@[simp] theorem numPages_setEntry (s : VM) (p v : ℕ) (e : TranslationEntry) (q : ℕ) :
    ((s.setEntry p v e).procs q).space.numPages = (s.procs q).space.numPages :=
  (procs_setEntry s p v e q).1

@[simp] theorem executable_setEntry (s : VM) (p v : ℕ) (e : TranslationEntry) (q : ℕ) :
    ((s.setEntry p v e).procs q).space.currentExecutable =
      (s.procs q).space.currentExecutable :=
  (procs_setEntry s p v e q).2.1

@[simp] theorem backingStore_setEntry (s : VM) (p v : ℕ) (e : TranslationEntry) (q : ℕ) :
    ((s.setEntry p v e).procs q).backingStore = (s.procs q).backingStore :=
  (procs_setEntry s p v e q).2.2.1

@[simp] theorem alive_setEntry (s : VM) (p v : ℕ) (e : TranslationEntry) (q : ℕ) :
    ((s.setEntry p v e).procs q).alive = (s.procs q).alive :=
  (procs_setEntry s p v e q).2.2.2

theorem setEntry_pte (s : VM) (p v : ℕ) : s.setEntry p v (s.pte p v) = s := by
  unfold setEntry setSpace pte
  simp only [Function.update_eq_self]

theorem setEntry_setEntry (s : VM) (p v : ℕ) (e e' : TranslationEntry) :
    (s.setEntry p v e).setEntry p v e' = s.setEntry p v e' := by
  simp [setEntry, setSpace]

/-! ## What is kept -/

/-- What no page fault changes. -/
structure Kept (s s' : VM) : Prop where
  numPhysPages : s'.numPhysPages = s.numPhysPages
  numProcs : s'.numProcs = s.numProcs
  numPages : ∀ q, (s'.procs q).space.numPages = (s.procs q).space.numPages
  executable : ∀ q, (s'.procs q).space.currentExecutable = (s.procs q).space.currentExecutable
  alive : ∀ q, (s'.procs q).alive = (s.procs q).alive
  filename : ∀ q, (s'.procs q).backingStore.filename = (s.procs q).backingStore.filename
  storeID : ∀ q, (s'.procs q).backingStore.storeID = (s.procs q).backingStore.storeID
  numBits : ∀ q, (s'.procs q).backingStore.pages.numBits =
    (s.procs q).backingStore.pages.numBits
  tablePtr : s'.tablePtr = s.tablePtr
  storeTable : s'.storeTable = s.storeTable
  log : s'.log = s.log

/-- A change of the fields that are not mentioned. -/
theorem Kept.of_procs (hn : s'.numPhysPages = s.numPhysPages) (hm : s'.numProcs = s.numProcs)
    (hprocs : s'.procs = s.procs) (ht : s'.tablePtr = s.tablePtr)
    (hst : s'.storeTable = s.storeTable) (hlog : s'.log = s.log) : Kept s s' := by
  refine ⟨hn, hm, ?_, ?_, ?_, ?_, ?_, ?_, ht, hst, hlog⟩ <;> intro q <;> rw [hprocs]

theorem Kept.trans {s₁ s₂ s₃ : VM} (h : Kept s₁ s₂) (h' : Kept s₂ s₃) : Kept s₁ s₃ where
  numPhysPages := h'.numPhysPages.trans h.numPhysPages
  numProcs := h'.numProcs.trans h.numProcs
  numPages := fun q => (h'.numPages q).trans (h.numPages q)
  executable := fun q => (h'.executable q).trans (h.executable q)
  alive := fun q => (h'.alive q).trans (h.alive q)
  filename := fun q => (h'.filename q).trans (h.filename q)
  storeID := fun q => (h'.storeID q).trans (h.storeID q)
  numBits := fun q => (h'.numBits q).trans (h.numBits q)
  tablePtr := h'.tablePtr.trans h.tablePtr
  storeTable := h'.storeTable.trans h.storeTable
  log := h'.log.trans h.log

theorem kept_setEntry (s : VM) (p v : ℕ) (e : TranslationEntry) : Kept s (s.setEntry p v e) := by
  refine ⟨rfl, rfl, ?_, ?_, ?_, ?_, ?_, ?_, rfl, rfl, rfl⟩ <;> intro q <;> simp

theorem kept_setUseBits (s : VM) (use : VPage → Bool) : Kept s (s.setUseBits use) := by
  refine ⟨rfl, rfl, ?_, ?_, ?_, ?_, ?_, ?_, rfl, rfl, rfl⟩ <;> intro q <;> rfl

/-! ## Accounts -/

/-- The virtual page `v` is valid and has the frame `f`. -/
def Mapped (s : VM) (v : VPage) (f : ℤ) : Prop :=
  v.1 < s.numProcs ∧ v.2 < (s.procs v.1).space.numPages ∧ (s.pte v.1 v.2).valid = true ∧
    (s.pte v.1 v.2).physicalPage = f

/-- The three records of the frames say that `resident` are the pages in memory; the
frames of `held` are marked and nobody's. -/
structure Accounts (s : VM) (resident : List (VPage × ℤ)) (held : List ℤ) : Prop where
  holds : s.coreMap.Holds s.nextCorePage resident
  capacity : s.coreMap.capacity = s.numPhysPages
  numBits : s.frames.numBits = s.numPhysPages
  length_le : resident.length + held.length ≤ s.numPhysPages
  mapped : ∀ v f, (v, f) ∈ resident ↔ s.Mapped v f
  nodup : (resident.map Prod.snd ++ held).Nodup
  range : ∀ f ∈ resident.map Prod.snd ++ held, 0 ≤ f ∧ f < s.numPhysPages
  bits : ∀ f < s.numPhysPages,
    s.frames.bit f = true ↔ (f : ℤ) ∈ resident.map Prod.snd ++ held

/-- Nothing that the accounts speak of differs. -/
structure SameFrames (s s' : VM) : Prop where
  numPhysPages : s'.numPhysPages = s.numPhysPages
  coreMap : s'.coreMap = s.coreMap
  nextCorePage : s'.nextCorePage = s.nextCorePage
  frames : s'.frames = s.frames
  mapped : ∀ v f, s'.Mapped v f ↔ s.Mapped v f

theorem SameFrames.trans {s₁ s₂ s₃ : VM} (h : SameFrames s₁ s₂) (h' : SameFrames s₂ s₃) :
    SameFrames s₁ s₃ where
  numPhysPages := h'.numPhysPages.trans h.numPhysPages
  coreMap := h'.coreMap.trans h.coreMap
  nextCorePage := h'.nextCorePage.trans h.nextCorePage
  frames := h'.frames.trans h.frames
  mapped := fun v f => (h'.mapped v f).trans (h.mapped v f)

variable {resident : List (VPage × ℤ)} {held : List ℤ}

theorem Accounts.congr (h : s.Accounts resident held) (hsame : SameFrames s s') :
    s'.Accounts resident held := by
  obtain ⟨hn, hcore, hnext, hframes, hmapped⟩ := hsame
  refine ⟨?_, ?_, ?_, ?_, ?_, h.nodup, ?_, ?_⟩
  · rw [hcore, hnext]
    exact h.holds
  · rw [hcore, hn]
    exact h.capacity
  · rw [hframes, hn]
    exact h.numBits
  · rw [hn]
    exact h.length_le
  · intro v f
    rw [h.mapped, hmapped]
  · rw [hn]
    exact h.range
  · rw [hn, hframes]
    exact h.bits

/-- The order in which the frames are held does not matter. -/
theorem Accounts.perm {held' : List ℤ} (h : s.Accounts resident held) (hperm : held.Perm held') :
    s.Accounts resident held' := by
  have happ := List.Perm.append_left (resident.map Prod.snd) hperm
  refine ⟨h.holds, h.capacity, h.numBits, ?_, h.mapped, happ.nodup_iff.1 h.nodup, ?_, ?_⟩
  · rw [← hperm.length_eq]
    exact h.length_le
  · intro f hf
    exact h.range f (happ.mem_iff.2 hf)
  · intro f hf
    rw [h.bits f hf, happ.mem_iff]

/-- A change of the use bit and the dirty bit of an entry. -/
theorem sameFrames_setEntry (hvalid : e.valid = (s.pte p v).valid)
    (hframe : e.physicalPage = (s.pte p v).physicalPage) : SameFrames s (s.setEntry p v e) := by
  refine ⟨rfl, rfl, rfl, rfl, ?_⟩
  rintro ⟨q, w⟩ f
  have hn : (s.setEntry p v e).numProcs = s.numProcs := rfl
  simp only [Mapped, numPages_setEntry, pte_setEntry, hn]
  split
  · rename_i heq
    obtain ⟨rfl, rfl⟩ := heq
    rw [hvalid, hframe]
  · rfl

theorem Accounts.exists_nat (h : s.Accounts resident held) {f : ℤ}
    (hf : f ∈ resident.map Prod.snd ++ held) : ∃ i : ℕ, f = i ∧ i < s.numPhysPages := by
  have := h.range f hf
  exact ⟨f.toNat, by omega, by omega⟩

/-- A frame number of a resident page is an index of the bit map. -/
theorem Accounts.exists_frame (h : s.Accounts resident held) {x : VPage × ℤ}
    (hx : x ∈ resident) : ∃ f : ℕ, x.2 = f ∧ f < s.numPhysPages :=
  h.exists_nat (List.mem_append_left held (List.mem_map.2 ⟨x, hx, rfl⟩))

/-- Two resident pages do not share a frame. -/
theorem Accounts.page_eq (h : s.Accounts resident held) {v w : VPage} {f : ℤ}
    (hv : s.Mapped v f) (hw : s.Mapped w f) : v = w := by
  have hnodup := (List.nodup_append.1 h.nodup).1
  have := List.inj_on_of_nodup_map hnodup ((h.mapped v f).2 hv) ((h.mapped w f).2 hw) rfl
  exact congrArg Prod.fst this

/-- With fewer pages than frames there is a free frame. -/
theorem Accounts.exists_free (h : s.Accounts resident held)
    (hlt : resident.length + held.length < s.numPhysPages) :
    ∃ f < s.numPhysPages, s.frames.bit f = false := by
  by_contra hnone
  have hset : ∀ f < s.numPhysPages, s.frames.bit f = true := by
    intro f hf
    by_contra hbit
    exact hnone ⟨f, hf, by simpa using hbit⟩
  have hsub : (List.range s.numPhysPages).map (fun i : ℕ => (i : ℤ)) ⊆
      resident.map Prod.snd ++ held := by
    intro x hx
    obtain ⟨f, hf, rfl⟩ := List.mem_map.1 hx
    have hlt := List.mem_range.1 hf
    exact (h.bits f hlt).1 (hset f hlt)
  have hnd : ((List.range s.numPhysPages).map fun i : ℕ => (i : ℤ)).Nodup := by
    refine List.nodup_range.map ?_
    intro a b hab
    exact Int.ofNat.inj hab
  have hle := (List.subperm_of_subset hnd hsub).length_le
  simp at hle
  omega

/-! ## Eviction -/

/-- The bit map of every backing store has one bit for each page. -/
def StoresFit (s : VM) : Prop :=
  ∀ p < s.numProcs, (s.procs p).backingStore.pages.numBits = (s.procs p).space.numPages

theorem StoresFit.kept (h : StoresFit s) (hkept : Kept s s') : StoresFit s' := by
  intro p hp
  rw [hkept.numProcs] at hp
  rw [hkept.numBits, hkept.numPages, h p hp]

/-- The state after the write of `pageOut`, with the new bit map. -/
def wroteBack (s : VM) (p v : ℕ) (pages : BitMap) : VM :=
  { s with
    procs := Function.update s.procs p
      { s.procs p with backingStore := { (s.procs p).backingStore with pages := pages } }
    files := Function.update s.files (s.procs p).backingStore.filename
      ((s.files (s.procs p).backingStore.filename).writeAt
        (fun k => s.mainMemory ((s.pte p v).physicalPage.toNat * pageSize + k)) pageSize
          (v * pageSize))
    stats := { s.stats with numPageOuts := s.stats.numPageOuts + 1 } }

/-- What the write of `pageOut` leaves of a process. -/
theorem procs_wroteBack (s : VM) (p v : ℕ) (pages : BitMap) (q : ℕ) :
    ((s.wroteBack p v pages).procs q).space = (s.procs q).space ∧
      ((s.wroteBack p v pages).procs q).alive = (s.procs q).alive ∧
        ((s.wroteBack p v pages).procs q).backingStore =
          { (s.procs q).backingStore with
            pages := if q = p then pages else (s.procs q).backingStore.pages } := by
  by_cases hq : q = p
  · subst hq
    simp [wroteBack]
  · simp [wroteBack, hq]

@[simp] theorem pte_wroteBack (s : VM) (p v : ℕ) (pages : BitMap) (q w : ℕ) :
    (s.wroteBack p v pages).pte q w = s.pte q w := by
  rw [pte, (procs_wroteBack s p v pages q).1]
  rfl

theorem frameAddr_eq {f : ℕ} (hf : f < s.numPhysPages) : s.frameAddr f = .ok (f * pageSize) := by
  have : (0 : ℤ) ≤ f ∧ (f : ℤ) < s.numPhysPages := by omega
  rw [frameAddr, if_pos this, Int.toNat_natCast]

/-- The state `pageOut` has before it clears the valid bit: a dirty page has been written
to the backing store. -/
def PagedOut (s : VM) (p v : ℕ) (s₁ : VM) : Prop :=
  ((s.pte p v).dirty = false ∧ s₁ = s) ∨
    ((s.pte p v).dirty = true ∧
      ∃ pages : BitMap, pages.numBits = (s.procs p).backingStore.pages.numBits ∧
        (∀ j, pages.bit j = (decide (j = v) || (s.procs p).backingStore.pages.bit j)) ∧
          s₁ = s.wroteBack p v pages)

/-- The valid bit and the dirty bit are cleared. -/
def unmapped (s : VM) (p v : ℕ) : VM :=
  s.setEntry p v { s.pte p v with valid := false, dirty := false }

theorem pageOut_spec {f : ℕ} (hbits : v < (s.procs p).backingStore.pages.numBits)
    (hframe : (s.pte p v).physicalPage = f) (hf : f < s.numPhysPages) :
    ∃ s₁, PagedOut s p v s₁ ∧ s.pageOut p v = .ok (s₁.unmapped p v) := by
  unfold pageOut
  by_cases hdirty : (s.pte p v).dirty = true
  · obtain ⟨pages, hpages, hnum, hbit⟩ := BitMap.mark_spec hbits
    refine ⟨s.wroteBack p v pages, .inr ⟨hdirty, pages, hnum, hbit, rfl⟩, ?_⟩
    have hwrite : s.writeBack p v = .ok (s.wroteBack p v pages) := by
      unfold writeBack
      simp only [hpages, hframe, frameAddr_eq hf, wroteBack, Int.toNat_natCast]
    rw [if_pos hdirty, hwrite]
    rfl
  · refine ⟨s, .inl ⟨by simpa using hdirty, rfl⟩, ?_⟩
    rw [if_neg hdirty]
    rfl

theorem PagedOut.sameFrames {s₁ : VM} (h : PagedOut s p v s₁) : SameFrames s s₁ := by
  rcases h with ⟨-, rfl⟩ | ⟨-, pages, -, -, rfl⟩
  · exact ⟨rfl, rfl, rfl, rfl, fun _ _ => Iff.rfl⟩
  · refine ⟨rfl, rfl, rfl, rfl, ?_⟩
    intro w f
    have hn : (s.wroteBack p v pages).numProcs = s.numProcs := rfl
    rw [Mapped, Mapped, pte_wroteBack, (procs_wroteBack s p v pages w.1).1, hn]

theorem PagedOut.kept {s₁ : VM} (h : PagedOut s p v s₁) : Kept s s₁ := by
  rcases h with ⟨-, rfl⟩ | ⟨-, pages, hnum, -, rfl⟩
  · exact .of_procs rfl rfl rfl rfl rfl rfl
  · have hspace := fun q => (procs_wroteBack s p v pages q).1
    have halive := fun q => (procs_wroteBack s p v pages q).2.1
    have hstore := fun q => (procs_wroteBack s p v pages q).2.2
    refine ⟨rfl, rfl, ?_, ?_, halive, ?_, ?_, ?_, rfl, rfl, rfl⟩ <;> intro q
    · rw [hspace]
    · rw [hspace]
    · rw [hstore]
    · rw [hstore]
    · rw [hstore]
      by_cases hq : q = p
      · simp [hq, hnum]
      · simp [hq]

theorem PagedOut.pte {s₁ : VM} (h : PagedOut s p v s₁) (q w : ℕ) : s₁.pte q w = s.pte q w := by
  rcases h with ⟨-, rfl⟩ | ⟨-, pages, -, -, rfl⟩
  · rfl
  · rw [pte_wroteBack]

/-- A page is unmapped. -/
theorem mapped_setEntry_invalid (hvalid : e.valid = false) {w : VPage} {f : ℤ} :
    (s.setEntry p v e).Mapped w f ↔ s.Mapped w f ∧ w ≠ (p, v) := by
  obtain ⟨q, w⟩ := w
  have hn : (s.setEntry p v e).numProcs = s.numProcs := rfl
  simp only [Mapped, numPages_setEntry, pte_setEntry, hn, ne_eq, Prod.mk.injEq]
  by_cases heq : q = p ∧ w = v
  · simp [heq, hvalid]
  · simp [heq]

/-- A page is mapped to the frame of its new entry. -/
theorem mapped_setEntry_valid (hp : p < s.numProcs) (hv : v < (s.procs p).space.numPages)
    (hvalid : e.valid = true) {w : VPage} {f : ℤ} :
    (s.setEntry p v e).Mapped w f ↔
      (w = (p, v) ∧ f = e.physicalPage) ∨ (s.Mapped w f ∧ w ≠ (p, v)) := by
  obtain ⟨q, w⟩ := w
  have hn : (s.setEntry p v e).numProcs = s.numProcs := rfl
  simp only [Mapped, numPages_setEntry, pte_setEntry, hn, ne_eq, Prod.mk.injEq]
  by_cases heq : q = p ∧ w = v
  · obtain ⟨rfl, rfl⟩ := heq
    simp [hp, hv, hvalid, eq_comm (a := f)]
  · simp [heq]

/-- An entry goes out of the core map and of the page table. -/
theorem Accounts.unmap {f : ℤ} {l r : List (VPage × ℤ)} {coreMap : CoreMap} {s₁ : VM}
    (h : s.Accounts (l ++ ((p, v), f) :: r) held)
    (hholds : coreMap.Holds s.nextCorePage (l ++ r)) (hcap : coreMap.capacity = s.numPhysPages)
    (hsame : SameFrames { s with coreMap := coreMap } s₁) :
    (s₁.unmapped p v).Accounts (l ++ r) (f :: held) := by
  have hperm : (((l ++ ((p, v), f) :: r).map Prod.snd) ++ held).Perm
      ((l ++ r).map Prod.snd ++ f :: held) := by
    simp only [List.map_append, List.map_cons, List.append_assoc, List.cons_append]
    have hmiddle : (r.map Prod.snd ++ f :: held).Perm (f :: (r.map Prod.snd ++ held)) :=
      List.perm_middle
    exact List.Perm.append_left _ hmiddle.symm
  have hn : s₁.numPhysPages = s.numPhysPages := hsame.numPhysPages
  have hnodup := hperm.nodup_iff.1 h.nodup
  have hpage : ∀ g, ((p, v), g) ∉ l ++ r := by
    intro g hg
    have hg' : ((p, v), g) ∈ l ++ ((p, v), f) :: r := by
      simp only [List.mem_append, List.mem_cons] at hg ⊢
      tauto
    have hmap := (h.mapped (p, v) g).1 hg'
    have hmap' := (h.mapped (p, v) f).1 (by simp)
    obtain rfl : g = f := hmap.2.2.2.symm.trans hmap'.2.2.2
    have hdisj := (List.nodup_append.1 hnodup).2.2
    exact hdisj g (List.mem_map.2 ⟨_, hg, rfl⟩) g (by simp) rfl
  refine ⟨?_, ?_, ?_, ?_, ?_, hnodup, ?_, ?_⟩
  · show s₁.coreMap.Holds s₁.nextCorePage (l ++ r)
    rw [hsame.coreMap, hsame.nextCorePage]
    exact hholds
  · show s₁.coreMap.capacity = s₁.numPhysPages
    rw [hsame.coreMap, hn]
    exact hcap
  · show s₁.frames.numBits = s₁.numPhysPages
    rw [hsame.frames, hn]
    exact h.numBits
  · show (l ++ r).length + (f :: held).length ≤ s₁.numPhysPages
    have := h.length_le
    rw [hn]
    simp only [List.length_append, List.length_cons] at this ⊢
    omega
  · intro w g
    show (w, g) ∈ l ++ r ↔ (s₁.setEntry p v _).Mapped w g
    rw [mapped_setEntry_invalid rfl, hsame.mapped]
    show _ ↔ s.Mapped w g ∧ _
    rw [← h.mapped]
    constructor
    · intro hmem
      refine ⟨?_, ?_⟩
      · simp only [List.mem_append, List.mem_cons] at hmem ⊢
        tauto
      · rintro rfl
        exact hpage g hmem
    · rintro ⟨hmem, hne⟩
      simp only [List.mem_append, List.mem_cons, Prod.mk.injEq] at hmem ⊢
      tauto
  · show ∀ g ∈ _, 0 ≤ g ∧ g < (s₁.numPhysPages : ℤ)
    rw [hn]
    exact fun g hg => h.range g (hperm.mem_iff.2 hg)
  · show ∀ g < s₁.numPhysPages, s₁.frames.bit g = true ↔ _
    intro g hg
    rw [hn] at hg
    rw [hsame.frames, ← hperm.mem_iff]
    exact h.bits g hg

/-- The part of the handler up to `FreePage`: a resident page, the first one with
`LRU == 0`, is paged out and unmapped, and its frame is still marked. -/
theorem Accounts.evictPage (h : s.Accounts resident held) (lru : Bool) (hne : resident ≠ [])
    (hfit : StoresFit s)
    (hok : lru = true → ¬ CoreMap.TailVictim s.useBits (resident.map Prod.fst)) :
    ∃ p v f l r coreMap use s₁, resident = l ++ ((p, v), f) :: r ∧
      PagedOut ({ s with coreMap := coreMap }.setUseBits use) p v s₁ ∧
        s.evictPage lru = .ok (f, s₁.unmapped p v) ∧
          (s₁.unmapped p v).Accounts (l ++ r) (f :: held) ∧
            (lru = false → l = [] ∧ use = s.useBits) := by
  obtain ⟨page, use, m', l, r, heq, hsplit, hholds, hcap, hfifo⟩ :=
    h.holds.evict lru s.useBits hne hok
  obtain ⟨⟨link, p, fr, v⟩, hc⟩ : ∃ c, c = m'.page page := ⟨_, rfl⟩
  rw [← hc] at hsplit
  have hsplit : resident = l ++ ((p, v), fr) :: r := hsplit
  subst hsplit
  obtain ⟨hp, hv, hvalid, hframe⟩ := (h.mapped (p, v) fr).1 (by simp)
  obtain ⟨f, hf, hlt⟩ := h.exists_frame (x := ((p, v), fr)) (by simp)
  have hf : fr = f := hf
  have hbits : v < (s.procs p).backingStore.pages.numBits := by
    rw [hfit p hp]
    exact hv
  obtain ⟨s₁, hout, hpageOut⟩ :=
    pageOut_spec (s := { s with coreMap := m' }.setUseBits use) (p := p) (v := v) hbits
      (hframe.trans hf) hlt
  have hsame₀ : SameFrames { s with coreMap := m' } ({ s with coreMap := m' }.setUseBits use) :=
    ⟨rfl, rfl, rfl, rfl, fun _ _ => Iff.rfl⟩
  have hsame : SameFrames { s with coreMap := m' } s₁ := hsame₀.trans hout.sameFrames
  refine ⟨p, v, fr, l, r, m', use, s₁, rfl, hout, ?_,
    h.unmap hholds (hcap.trans h.capacity) hsame, hfifo⟩
  unfold VM.evictPage
  simp only [heq, ← hc, hpageOut]

/-- `FreePage` of a held frame. -/
theorem Accounts.freePage {f : ℤ} (h : s.Accounts resident (f :: held)) :
    ∃ frames, s.freePage f = .ok { s with frames := frames } ∧
      { s with frames := frames }.Accounts resident held := by
  obtain ⟨i, rfl, hi⟩ := h.exists_nat (f := f) (by simp)
  obtain ⟨frames, hclear, hnum, hbit⟩ := BitMap.clear_spec (b := s.frames) (i := i)
    (by rw [h.numBits]; exact hi)
  have hnodup := List.nodup_middle.1 h.nodup
  rw [List.nodup_cons] at hnodup
  refine ⟨frames, ?_, h.holds, h.capacity, hnum.trans h.numBits, ?_, h.mapped, hnodup.2, ?_, ?_⟩
  · unfold VM.freePage
    rw [hclear]
  · have := h.length_le
    simp only [List.length_cons] at this
    show resident.length + held.length ≤ s.numPhysPages
    omega
  · intro g hg
    refine h.range g ?_
    simp only [List.mem_append, List.mem_cons] at hg ⊢
    tauto
  · intro g hg
    show frames.bit g = true ↔ _
    rw [hbit]
    have hold := h.bits g hg
    by_cases hgi : g = i
    · subst hgi
      simpa using hnodup.1
    · simp only [hgi, decide_false, Bool.not_false, Bool.true_and, hold, List.mem_append,
        List.mem_cons, Int.natCast_inj, false_or]

/-! ## Allocation -/

/-- `AllocPage` finds a frame when fewer than all are taken. -/
theorem Accounts.allocPage (h : s.Accounts resident held)
    (hroom : resident.length + held.length < s.numPhysPages) :
    ∃ (f : ℕ) (frames : BitMap), s.allocPage = .ok ((f : ℤ), { s with frames := frames }) ∧
      f < s.numPhysPages ∧ { s with frames := frames }.Accounts resident ((f : ℤ) :: held) := by
  obtain ⟨g, hg, hgfree⟩ := h.exists_free hroom
  rcases BitMap.find_spec s.frames with ⟨-, hall⟩ | ⟨f, frames, hfind, hf, hfree, -, hnum, hbit⟩
  · have := hall g (by rw [h.numBits]; exact hg)
    simp [hgfree] at this
  · rw [h.numBits] at hf
    have hnew : (f : ℤ) ∉ resident.map Prod.snd ++ held := by
      intro hmem
      have := (h.bits f hf).2 hmem
      simp [hfree] at this
    refine ⟨f, frames, ?_, hf, h.holds, h.capacity, hnum.trans h.numBits, ?_, h.mapped, ?_, ?_, ?_⟩
    · unfold VM.allocPage
      rw [hfind]
    · show resident.length + ((f : ℤ) :: held).length ≤ s.numPhysPages
      simp only [List.length_cons]
      omega
    · exact List.nodup_middle.2 (List.nodup_cons.2 ⟨hnew, h.nodup⟩)
    · intro g hg
      have hmem : g = f ∨ g ∈ resident.map Prod.snd ++ held := by
        simp only [List.mem_append, List.mem_cons] at hg ⊢
        tauto
      rcases hmem with rfl | hmem
      · exact ⟨Int.natCast_nonneg f, Int.ofNat_lt.2 hf⟩
      · exact h.range g hmem
    · intro g hg
      show frames.bit g = true ↔ _
      rw [hbit, Bool.or_eq_true, h.bits g hg, decide_eq_true_eq]
      simp only [List.mem_append, List.mem_cons, Int.natCast_inj]
      tauto

/-- The state in which `allocVirtualPage` fills the frame `f`. -/
def assigned (s : VM) (p v f : ℕ) (coreMap : CoreMap) : VM :=
  { s with
    coreMap := coreMap
    nextCorePage := s.nextCorePage + 1 }.setEntry p v { s.pte p v with physicalPage := f }

/-- The state in which `allocVirtualPage` returns 0. -/
def allocated (s : VM) (p v f : ℕ) (coreMap : CoreMap) (mem : ℕ → Byte)
    (stats : Statistics) : VM :=
  { s.assigned p v f coreMap with
    mainMemory := mem
    stats := stats }.setEntry p v { s.pte p v with physicalPage := f, valid := true }

theorem pte_assigned (s : VM) (p v f : ℕ) (coreMap : CoreMap) (q w : ℕ) :
    (s.assigned p v f coreMap).pte q w =
      if q = p ∧ w = v then { s.pte p v with physicalPage := f } else s.pte q w :=
  pte_setEntry _ p v _ q w

theorem physicalPage_assigned (s : VM) (p v f : ℕ) (coreMap : CoreMap) :
    ((s.assigned p v f coreMap).pte p v).physicalPage = f := by
  rw [pte_assigned, if_pos ⟨rfl, rfl⟩]

theorem executable_assigned (s : VM) (p v f : ℕ) (coreMap : CoreMap) (q : ℕ) :
    ((s.assigned p v f coreMap).procs q).space.currentExecutable =
      (s.procs q).space.currentExecutable :=
  executable_setEntry _ p v _ q

theorem backingStore_assigned (s : VM) (p v f : ℕ) (coreMap : CoreMap) (q : ℕ) :
    ((s.assigned p v f coreMap).procs q).backingStore = (s.procs q).backingStore :=
  backingStore_setEntry _ p v _ q

theorem pte_allocated (s : VM) (p v f : ℕ) (coreMap : CoreMap) (mem : ℕ → Byte)
    (stats : Statistics) (q w : ℕ) :
    (s.allocated p v f coreMap mem stats).pte q w =
      if q = p ∧ w = v then { s.pte p v with physicalPage := f, valid := true }
      else s.pte q w := by
  rw [allocated, pte_setEntry]
  split
  · rfl
  · rename_i hne
    exact (pte_assigned s p v f coreMap q w).trans (if_neg hne)

theorem kept_assigned (s : VM) (p v f : ℕ) (coreMap : CoreMap) :
    Kept s (s.assigned p v f coreMap) := by
  have h₁ : Kept s { s with
      coreMap := coreMap
      nextCorePage := s.nextCorePage + 1 } := .of_procs rfl rfl rfl rfl rfl rfl
  exact h₁.trans (kept_setEntry _ p v _)

theorem kept_allocated (s : VM) (p v f : ℕ) (coreMap : CoreMap) (mem : ℕ → Byte)
    (stats : Statistics) : Kept s (s.allocated p v f coreMap mem stats) := by
  have h₂ : Kept (s.assigned p v f coreMap) { s.assigned p v f coreMap with
      mainMemory := mem
      stats := stats } := .of_procs rfl rfl rfl rfl rfl rfl
  exact (kept_assigned s p v f coreMap).trans (h₂.trans (kept_setEntry _ p v _))

theorem mapped_allocated {f : ℕ} {coreMap : CoreMap} {mem : ℕ → Byte} {stats : Statistics}
    (hp : p < s.numProcs) (hv : v < (s.procs p).space.numPages) {w : VPage} {g : ℤ} :
    (s.allocated p v f coreMap mem stats).Mapped w g ↔
      (w = (p, v) ∧ g = f) ∨ (s.Mapped w g ∧ w ≠ (p, v)) := by
  have hout : (s.assigned p v f coreMap).Mapped w g ∧ w ≠ (p, v) ↔
      s.Mapped w g ∧ w ≠ (p, v) := by
    refine and_congr_left ?_
    intro hne
    have hne : ¬ (w.1 = p ∧ w.2 = v) := fun h => hne (Prod.ext h.1 h.2)
    simp only [Mapped, assigned, pte_setEntry, numPages_setEntry, hne, if_false]
    rfl
  rw [← hout]
  refine mapped_setEntry_valid ?_ ?_ rfl
  · exact hp
  · simpa [assigned] using hv

/-- A held frame is given to a page that is not mapped. -/
theorem Accounts.map {f : ℕ} {coreMap : CoreMap} (h : s.Accounts resident ((f : ℤ) :: held))
    (hp : p < s.numProcs) (hv : v < (s.procs p).space.numPages)
    (hinvalid : (s.pte p v).valid = false)
    (hholds : coreMap.Holds (s.nextCorePage + 1) (resident ++ [((p, v), (f : ℤ))]))
    (hcap : coreMap.capacity = s.numPhysPages) (mem : ℕ → Byte) (stats : Statistics) :
    (s.allocated p v f coreMap mem stats).Accounts (resident ++ [((p, v), (f : ℤ))]) held := by
  have hpage : ∀ g, ((p, v), g) ∉ resident := by
    intro g hg
    have := ((h.mapped _ _).1 hg).2.2.1
    simp [hinvalid] at this
  have heq : (resident ++ [((p, v), (f : ℤ))]).map Prod.snd ++ held =
      resident.map Prod.snd ++ (f : ℤ) :: held := by simp
  refine ⟨hholds, hcap, h.numBits, ?_, ?_, ?_, ?_, ?_⟩
  · have := h.length_le
    show (resident ++ [((p, v), (f : ℤ))]).length + held.length ≤ s.numPhysPages
    simp only [List.length_append, List.length_cons, List.length_nil] at this ⊢
    omega
  · intro w g
    rw [mapped_allocated hp hv, ← h.mapped, List.mem_append, List.mem_singleton, Prod.mk.injEq]
    constructor
    · rintro (hmem | heq)
      · refine .inr ⟨hmem, ?_⟩
        rintro rfl
        exact hpage g hmem
      · exact .inl heq
    · rintro (heq | ⟨hmem, -⟩)
      · exact .inr heq
      · exact .inl hmem
  · rw [heq]
    exact h.nodup
  · rw [heq]
    exact h.range
  · rw [heq]
    exact h.bits

/-- What the fill of a frame can change: main memory, the counters and the valid bit. -/
theorem fillPage_shape {noffH : NoffHeader} (h : s.fillPage p v noffH = .ok s') :
    ∃ mem stats b, s' = { s with
      mainMemory := mem
      stats := stats }.setEntry p v { s.pte p v with valid := b } := by
  unfold fillPage at h
  split at h
  · cases h
  · rename_i frame hframe
    simp only at h
    split at h
    · cases h
    · split at h
      · cases h
      · rename_i mem flag hload
        cases h
        exact ⟨mem, _, (s.pte p v).valid, (setEntry_pte _ p v).symm⟩
    · unfold pageIn at h
      split at h
      · cases h
      · rename_i s₁ hs₁
        cases h
        split at hs₁
        · cases hs₁
        · split at hs₁
          · cases hs₁
          · rename_i mem hmem
            cases hs₁
            exact ⟨mem, { s.stats with numPageIns := s.stats.numPageIns + 1 }, true, rfl⟩

/-- The valid bit is set last. -/
theorem setEntry_filled (s : VM) (p v f : ℕ) (coreMap : CoreMap) (mem : ℕ → Byte)
    (stats : Statistics) (b : Bool) {t : VM}
    (ht : t = { s.assigned p v f coreMap with
      mainMemory := mem
      stats := stats }.setEntry p v { (s.assigned p v f coreMap).pte p v with valid := b }) :
    t.setEntry p v { t.pte p v with valid := true } = s.allocated p v f coreMap mem stats := by
  have hpte : t.pte p v = { s.pte p v with physicalPage := f, valid := b } := by
    rw [ht, pte_setEntry, pte_assigned]
    simp
  rw [hpte, ht, setEntry_setEntry]
  rfl

/-- `allocVirtualPage` after `AllocPage`: the frame is recorded, and then filled. -/
theorem Accounts.placePage {f : ℕ} (h : s.Accounts resident ((f : ℤ) :: held)) (p v : ℕ)
    (noffH : NoffHeader) :
    ∃ coreMap : CoreMap,
      coreMap.Holds (s.nextCorePage + 1) (resident ++ [((p, v), (f : ℤ))]) ∧
      coreMap.capacity = s.numPhysPages ∧
      s.placePage p v f noffH =
        match (s.assigned p v f coreMap).fillPage p v noffH with
        | .error e => .error e
        | .ok s' => .ok (s'.setEntry p v { s'.pte p v with valid := true }) := by
  have hfull : s.coreMap.isFull = false := by
    have := h.length_le
    simp only [List.length_cons] at this
    simp only [CoreMap.isFull, h.holds.size, h.capacity, decide_eq_false_iff_not]
    omega
  obtain ⟨coreMap, hadd, hholds, hcap⟩ := h.holds.add hfull p f v
  refine ⟨coreMap, hholds, hcap.trans h.capacity, ?_⟩
  unfold VM.placePage
  simp only [hadd]
  rfl

/-- A page that has been placed is mapped to its frame. -/
theorem Accounts.of_placePage {f : ℕ} {noffH : NoffHeader}
    (h : s.Accounts resident ((f : ℤ) :: held)) (hp : p < s.numProcs)
    (hv : v < (s.procs p).space.numPages) (hinvalid : (s.pte p v).valid = false)
    (hs : s.placePage p v f noffH = .ok s') :
    s'.Accounts (resident ++ [((p, v), (f : ℤ))]) held ∧ Kept s s' ∧
      ∀ q w, ¬ (q = p ∧ w = v) → s'.pte q w = s.pte q w := by
  obtain ⟨coreMap, hholds, hcap, heq⟩ := h.placePage p v noffH
  rw [heq] at hs
  split at hs
  · cases hs
  · rename_i t hfill
    obtain ⟨mem, stats, b, ht⟩ := fillPage_shape hfill
    rw [setEntry_filled s p v f coreMap mem stats b ht] at hs
    cases hs
    refine ⟨h.map hp hv hinvalid hholds hcap mem stats, kept_allocated s p v f coreMap mem stats,
      ?_⟩
    intro q w hqw
    rw [pte_allocated, if_neg hqw]

end VM

end Nachos
