import Nachos.Threads.Program
import Nachos.Userprog.Paging

/-!
# Page faults of several processes

The page-fault branch of `ExceptionHandler` as a program over the kernel: each process is
a thread, and the handler is cut at the calls of `AllocPage` and `FreePage`, whose
`Acquire` and `Release` re-enable interrupts, so that a timer tick can give the CPU to
another process. No process calls Fork. Exec and Exit are one step each: they touch
no frame and no entry of a page table, and the tables they use have locks of
their own.

The program stops where the machine would (a failed assertion, a wild address).
`allocs` are the values that `AllocPage` has returned.
-/

namespace Nachos

open Lib

namespace PageFaults

/-- Where a process is in the page-fault handler. -/
inductive Pc where
  /-- In the user program. -/
  | run
  /-- `FreePage` after its `Acquire`. -/
  | freeClear (virtualAddr : BitVec 32) (physPageNum : ℤ)
  /-- The call of `allocVirtualPage` after an eviction. -/
  | allocStart (virtualAddr : BitVec 32)
  /-- `AllocPage` after its `Acquire`. -/
  | allocFind (virtualAddr : BitVec 32) (noffH : NoffHeader)
  /-- `allocVirtualPage` after its call of `AllocPage`. -/
  | allocPlace (virtualAddr : BitVec 32) (noffH : NoffHeader) (allocpage : ℤ)

/-- The address that a handler in progress has been called for. -/
def Pc.fault : Pc → Option (BitVec 32)
  | run => none
  | freeClear a _ => some a
  | allocStart a => some a
  | allocFind a _ => some a
  | allocPlace a _ _ => some a

/-- The frame that is marked for a handler in progress. -/
def Pc.frame : Pc → Option ℤ
  | freeClear _ f => some f
  | allocPlace _ _ f => some f
  | _ => none

structure Data where
  vm : VM
  allocs : List ℤ

/-- The lock of `memoryManager`. -/
def memLock : Obj := .user 0

/-- What a process does next, and what a handler does. -/
inductive Act where
  | access (r : Request) (stack : ℕ → Byte)
  /-- The handler goes on. -/
  | goOn (stack : ℕ → Byte)
  | exec (executable : File) (stack : ℕ → Byte) (words : ℕ → BitVec 32) (created : Bool) (join : ℤ)
  | exit
  | other (o : Call Pc)
  | handle (sems : List ℕ)

/-- The call of a system call that does not take part in paging. -/
def foreign : Call Pc → Bool
  | .acquire l => l ≠ memLock
  | .release l => l ≠ memLock
  | .wait _ l => l ≠ memLock
  | .fork _ _ _ => false
  | .finish => false
  | _ => true

/-- `SysCallExit` by `p`. -/
def sysCallExit (d : Data) (p : Tid) : Call Pc × Pc × Data :=
  (.finish, .run, { d with vm := d.vm.sysCallExit p })

/-- `allocVirtualPage` up to its call of `AllocPage`. -/
def allocVirtualPage (d : Data) (p : Tid) (virtualAddr : BitVec 32) (stack : ℕ → Byte) :
    Call Pc × Pc × Data :=
  let noffH := readHeader (d.vm.procs p).space.currentExecutable stack
  if noffH.noffMagic ≠ NOFFMAGIC then
    sysCallExit d p
  else
    (.acquire memLock, .allocFind virtualAddr noffH, d)

/-- The page-fault branch of `ExceptionHandler` up to its first call of the memory
manager. -/
def pageFault (lru : Bool) (d : Data) (p : Tid) (virtualAddr : BitVec 32) (stack : ℕ → Byte) :
    Option (Call Pc × Pc × Data) :=
  let vm := { d.vm with stats := { d.vm.stats with numPageFaults := d.vm.stats.numPageFaults + 1 } }
  if vm.coreMap.isFull then
    match vm.evictPage lru with
    | .error _ => none
    | .ok (physicalPage, vm') =>
        some (.acquire memLock, .freeClear virtualAddr physicalPage, { d with vm := vm' })
  else
    some (allocVirtualPage { d with vm := vm } p virtualAddr stack)

/-- The request `r` of the process `p` with the exception it may raise. -/
def access (lru : Bool) (d : Data) (p : Tid) (r : Request) (stack : ℕ → Byte) :
    Option (Call Pc × Pc × Data) :=
  match translate d.vm.numPhysPages (d.vm.procs p).space.pageTable (d.vm.procs p).space.numPages
      r.addr r.size r.writing with
  | .error _ => none
  | .ok (.physical physAddr entry) =>
      match (d.vm.setEntry p (vpnOf r.addr) entry).transfer p physAddr r with
      | .error _ => none
      | .ok vm => some (.oneTick, .run, { d with vm := vm })
  | .ok (.exception .pageFault) => pageFault lru d p r.addr stack
  | .ok (.exception _) => some (sysCallExit d p)

/-- A process in the user program. -/
def user (lru : Bool) (p : Tid) (d : Data) : Act → Option (Call Pc × Pc × Data)
  | .access r stack => access lru d p r stack
  | .exec executable stack words created join =>
      match d.vm.exec executable stack words created with
      | .error _ => none
      | .ok vm =>
          if vm.numProcs = d.vm.numProcs then
            some (.oneTick, .run, { d with vm := vm })
          else
            some (.fork d.vm.numProcs join .run, .run, { d with vm := vm })
  | .exit => some (sysCallExit d p)
  | .other o => if foreign o then some (o, .run, d) else none
  | .goOn _ => none
  | .handle _ => none

/-- A process in the page-fault handler. -/
def goOn (p : Tid) (d : Data) (stack : ℕ → Byte) : Pc → Option (Call Pc × Pc × Data)
  | .run => none
  | .freeClear virtualAddr physPageNum =>
      match d.vm.freePage physPageNum with
      | .error _ => none
      | .ok vm => some (.release memLock, .allocStart virtualAddr, { d with vm := vm })
  | .allocStart virtualAddr => some (allocVirtualPage d p virtualAddr stack)
  | .allocFind virtualAddr noffH =>
      match d.vm.allocPage with
      | .error _ => none
      | .ok (page, vm) =>
          some (.release memLock, .allocPlace virtualAddr noffH page,
            { d with
              vm := vm
              allocs := page :: d.allocs })
  | .allocPlace virtualAddr noffH allocpage =>
      match d.vm.placePage p (vpnOf virtualAddr) allocpage noffH with
      | .error _ => none
      | .ok vm => some (.oneTick, .run, { d with vm := vm })

def next (lru : Bool) (p : Tid) (pc : Pc) (d : Data) (a : Act) : Option (Call Pc × Pc × Data) :=
  match pc, a with
  | pc, .goOn stack => goOn p d stack pc
  | .run, a => user lru p d a
  | _, _ => none

/-- The program of the processes. -/
def client (lru : Bool) : Client Pc Data Act where
  next p pc d _ a := next lru p pc d a
  handler a d :=
    match a with
    | .handle sems => some (sems, d)
    | _ => none

/-- A handler is in progress. -/
def Pc.busy (pc : Pc) : Bool := pc.fault.isSome

/-- `StartProcess` up to `machine->Run()`. -/
def startProcess (numPhysPages maxProcess : ℕ) (words : ℕ → BitVec 32) (executable : File)
    (stack : ℕ → Byte) (storeWords : ℕ → BitVec 32) (created : Bool) : Except Fault VM :=
  match VM.boot numPhysPages maxProcess words with
  | .error e => .error e
  | .ok vm => vm.exec executable stack storeWords created

/-- The handlers in progress. -/
def handlers (k : Kernel Pc Data) : List Pc := ((List.range k.numThreads).map k.pc).filter Pc.busy

/-- The list of the pages in the core map. -/
def vpages (vm : VM) (live : List ℕ) : List VPage := live.map fun q => (vm.coreMap.page q).vpage

/-- The request raises a page fault. -/
def Faults (vm : VM) (p : Tid) (r : Request) : Prop :=
  translate vm.numPhysPages (vm.procs p).space.pageTable (vm.procs p).space.numPages r.addr r.size
    r.writing = .ok (.exception .pageFault)

/-- When a handler starts on a core map that is not full, there is a free frame for it and
for each handler in progress; and no handler evicts the last page by the
`LRU == 1` scan. -/
def Room (lru : Bool) (k : Kernel Pc Data) : Label Act → Prop
  | .act (.access r _) =>
      Faults k.data.vm k.currentThread r →
        if k.data.vm.coreMap.isFull then
          lru = true → ∀ live, Path k.data.vm.coreMap.getNext k.data.vm.coreMap.head live →
            ¬ CoreMap.TailVictim k.data.vm.useBits (vpages k.data.vm live)
        else
          k.data.vm.coreMap.size + (handlers k).length < k.data.vm.coreMap.capacity
  | _ => True

/-! ## The frames of the handlers -/

/-- The frames are accounted for with `hs` the handlers in progress, and there is a frame
for each of them. -/
def Balanced (vm : VM) (hs : List Pc) : Prop :=
  ∃ resident, vm.Accounts resident (hs.filterMap Pc.frame) ∧
    resident.length + hs.length ≤ vm.numPhysPages

variable {vm vm' : VM} {hs hs' : List Pc} {virtualAddr : BitVec 32} {noffH : NoffHeader}

theorem Balanced.perm (h : Balanced vm hs) (hperm : hs.Perm hs') : Balanced vm hs' := by
  obtain ⟨resident, hacc, hle⟩ := h
  exact ⟨resident, hacc.perm (hperm.filterMap _), by rwa [← hperm.length_eq]⟩

theorem Balanced.congr (h : Balanced vm hs) (hsame : VM.SameFrames vm vm') : Balanced vm' hs := by
  obtain ⟨resident, hacc, hle⟩ := h
  exact ⟨resident, hacc.congr hsame, by rwa [hsame.numPhysPages]⟩

/-- A page is evicted for a new handler, which takes its place. -/
theorem Balanced.evict {lru : Bool} {physicalPage : ℤ} (h : Balanced vm hs)
    (hfit : vm.StoresFit)
    (hok : lru = true → ∀ live, Path vm.coreMap.getNext vm.coreMap.head live →
      ¬ CoreMap.TailVictim vm.useBits (vpages vm live))
    (hevict : vm.evictPage lru = .ok (physicalPage, vm')) :
    Balanced vm' (.freeClear virtualAddr physicalPage :: hs) ∧ VM.Kept vm vm' ∧
      ∀ q w, (vm.pte q w).valid = false → (vm'.pte q w).valid = false := by
  obtain ⟨resident, hacc, hle⟩ := h
  by_cases hne : resident = []
  · have hzero : vm.coreMap.size = 0 := by rw [hacc.holds.size, hne]; rfl
    have : vm.evictPage lru = .error .nullPointer := by
      unfold VM.evictPage CoreMap.evictCorePage
      simp only [hzero, if_true]
    rw [this] at hevict
    cases hevict
  · have hok' : lru = true → ¬ CoreMap.TailVictim vm.useBits (resident.map Prod.fst) := by
      intro hlru
      obtain ⟨live, hrep, -, hres⟩ := hacc.holds
      have := hok hlru live hrep.path
      rw [hres, List.map_map]
      exact this
    obtain ⟨p, v, f, l, r, m', use, s₁, rfl, hout, heq, hacc', -⟩ :=
      hacc.evictPage lru hne hfit hok'
    rw [heq] at hevict
    cases hevict
    have hkept₀ : VM.Kept vm ({ vm with coreMap := m' }.setUseBits use) := by
      have hcore : VM.Kept vm { vm with coreMap := m' } := .of_procs rfl rfl rfl rfl rfl rfl
      exact hcore.trans (VM.kept_setUseBits _ use)
    have hkept₁ : VM.Kept s₁ (s₁.unmapped p v) := VM.kept_setEntry s₁ p v _
    have hkept := hkept₀.trans (hout.kept.trans hkept₁)
    refine ⟨⟨l ++ r, hacc', ?_⟩, hkept, ?_⟩
    · rw [hkept.numPhysPages]
      simp only [List.length_append, List.length_cons] at hle ⊢
      omega
    · intro q w hqw
      rw [VM.unmapped, VM.pte_setEntry]
      split
      · rfl
      · rw [hout.pte]
        exact hqw

theorem Balanced.free {physPageNum : ℤ} (h : Balanced vm (.freeClear virtualAddr physPageNum :: hs))
    (hfree : vm.freePage physPageNum = .ok vm') :
    Balanced vm' (.allocStart virtualAddr :: hs) ∧
      ∃ frames, vm' = { vm with frames := frames } := by
  obtain ⟨resident, hacc, hle⟩ := h
  obtain ⟨frames, heq, hacc'⟩ := VM.Accounts.freePage hacc
  rw [heq] at hfree
  cases hfree
  exact ⟨⟨resident, hacc', hle⟩, frames, rfl⟩

/-- `AllocPage` finds a frame, since there is one for each handler. -/
theorem Balanced.alloc {page : ℤ} (h : Balanced vm (.allocFind virtualAddr noffH :: hs))
    (halloc : vm.allocPage = .ok (page, vm')) :
    0 ≤ page ∧ Balanced vm' (.allocPlace virtualAddr noffH page :: hs) ∧
      ∃ frames, vm' = { vm with frames := frames } := by
  obtain ⟨resident, hacc, hle⟩ := h
  have hacc' : vm.Accounts resident (hs.filterMap Pc.frame) := hacc
  have hheld : (hs.filterMap Pc.frame).length ≤ hs.length := List.length_filterMap_le _ _
  have hroom : resident.length + (hs.filterMap Pc.frame).length < vm.numPhysPages := by
    rw [List.length_cons] at hle
    omega
  obtain ⟨f, frames, heq, -, hacc''⟩ := hacc'.allocPage hroom
  rw [heq] at halloc
  cases halloc
  exact ⟨Int.natCast_nonneg f, ⟨resident, hacc'', hle⟩, frames, rfl⟩

theorem Balanced.place {p : ℕ} {allocpage : ℤ}
    (h : Balanced vm (.allocPlace virtualAddr noffH allocpage :: hs)) (hp : p < vm.numProcs)
    (hv : vpnOf virtualAddr < (vm.procs p).space.numPages)
    (hinvalid : (vm.pte p (vpnOf virtualAddr)).valid = false)
    (hplace : vm.placePage p (vpnOf virtualAddr) allocpage noffH = .ok vm') :
    Balanced vm' hs ∧ VM.Kept vm vm' ∧
      ∀ q w, ¬ (q = p ∧ w = vpnOf virtualAddr) → vm'.pte q w = vm.pte q w := by
  obtain ⟨resident, hacc, hle⟩ := h
  have hacc : vm.Accounts resident (allocpage :: hs.filterMap Pc.frame) := hacc
  obtain ⟨f, rfl, -⟩ := hacc.exists_nat (f := allocpage) (by simp)
  obtain ⟨hacc', hkept, hpte⟩ := hacc.of_placePage hp hv hinvalid hplace
  refine ⟨⟨_, hacc', ?_⟩, hkept, hpte⟩
  rw [hkept.numPhysPages]
  simp only [List.length_append, List.length_cons, List.length_nil] at hle ⊢
  omega

/-- A handler that has no frame starts, or is given up. -/
theorem Balanced.drop {pc : Pc} (h : Balanced vm (pc :: hs)) (hpc : pc.frame = none) :
    Balanced vm hs := by
  obtain ⟨resident, hacc, hle⟩ := h
  rw [List.filterMap_cons_none hpc] at hacc
  rw [List.length_cons] at hle
  exact ⟨resident, hacc, by omega⟩

theorem Balanced.enter {pc : Pc} (h : Balanced vm hs) (hpc : pc.frame = none)
    (hroom : vm.coreMap.size + hs.length < vm.coreMap.capacity) : Balanced vm (pc :: hs) := by
  obtain ⟨resident, hacc, hle⟩ := h
  rw [hacc.holds.size, hacc.capacity] at hroom
  refine ⟨resident, ?_, ?_⟩
  · rw [List.filterMap_cons_none hpc]
    exact hacc
  · rw [List.length_cons]
    omega

/-! ## What does not touch the frames -/

/-- No frame and no valid bit of a process that has been started differs. -/
structure Untouched (s s' : VM) : Prop where
  same : VM.SameFrames s s'
  numPages : ∀ q < s.numProcs, (s'.procs q).space.numPages = (s.procs q).space.numPages
  valid : ∀ q < s.numProcs, ∀ w, (s'.pte q w).valid = (s.pte q w).valid
  fit : s.StoresFit → s'.StoresFit

variable {s s' : VM} {p : ℕ}

theorem Untouched.trans {s₁ s₂ s₃ : VM} (h : Untouched s₁ s₂) (h' : Untouched s₂ s₃)
    (hn : s₁.numProcs ≤ s₂.numProcs) : Untouched s₁ s₃ where
  same := h.same.trans h'.same
  numPages := fun q hq => (h'.numPages q (hq.trans_le hn)).trans (h.numPages q hq)
  valid := fun q hq w => (h'.valid q (hq.trans_le hn) w).trans (h.valid q hq w)
  fit := fun hfit => h'.fit (h.fit hfit)

/-- The address spaces and the backing stores are the same. -/
theorem Untouched.of_spaces (hn : s'.numPhysPages = s.numPhysPages) (hm : s'.numProcs = s.numProcs)
    (hcore : s'.coreMap = s.coreMap) (hnext : s'.nextCorePage = s.nextCorePage)
    (hframes : s'.frames = s.frames) (hspace : ∀ q, (s'.procs q).space = (s.procs q).space)
    (hstore : ∀ q, (s'.procs q).backingStore = (s.procs q).backingStore) : Untouched s s' := by
  refine ⟨⟨hn, hcore, hnext, hframes, ?_⟩, ?_, ?_, ?_⟩
  · intro v f
    rw [VM.Mapped, VM.Mapped, VM.pte, VM.pte, hspace, hm]
  · intro q _
    rw [hspace]
  · intro q _ w
    rw [VM.pte, VM.pte, hspace]
  · intro hfit q hq
    rw [hm] at hq
    rw [hspace, hstore]
    exact hfit q hq

theorem untouched_sysCallExit (s : VM) (p : ℕ) : Untouched s (s.sysCallExit p) :=
  .of_spaces rfl rfl rfl rfl rfl (fun q => (VM.procs_sysCallExit s p q).1)
    fun q => (VM.procs_sysCallExit s p q).2

/-- The translation of a request sets the use bit and the dirty bit. -/
theorem untouched_setEntry {v : ℕ} {e : TranslationEntry} (hvalid : e.valid = (s.pte p v).valid)
    (hframe : e.physicalPage = (s.pte p v).physicalPage) : Untouched s (s.setEntry p v e) := by
  refine ⟨VM.sameFrames_setEntry hvalid hframe, ?_, ?_, ?_⟩
  · intro q _
    rw [VM.numPages_setEntry]
  · intro q _ w
    rw [VM.pte_setEntry]
    split
    · rename_i heq
      rw [heq.1, heq.2, hvalid]
    · rfl
  · intro hfit
    exact hfit.kept (VM.kept_setEntry s p v e)

theorem untouched_transfer {physAddr : ℕ} {r : Request} (h : s.transfer p physAddr r = .ok s') :
    Untouched s s' ∧ s'.numProcs = s.numProcs := by
  unfold VM.transfer at h
  cases r with
  | readMem addr size =>
      simp only at h
      split at h
      · cases h
      · cases h
        exact ⟨.of_spaces rfl rfl rfl rfl rfl (fun _ => rfl) fun _ => rfl, rfl⟩
  | writeMem addr size value =>
      simp only at h
      split at h
      · cases h
      · cases h
        exact ⟨.of_spaces rfl rfl rfl rfl rfl (fun _ => rfl) fun _ => rfl, rfl⟩

/-- What Exec can do: it takes or gives back a slot, or it starts a process. -/
theorem exec_cases {executable : File} {stack : ℕ → Byte} {words : ℕ → BitVec 32} {created : Bool}
    (h : s.exec executable stack words created = .ok s') :
    (∃ storeTable, s' = { s with storeTable := storeTable }) ∨
      ∃ space pages storeID storeTable tablePtr,
        s' = s.started space pages storeID storeTable tablePtr ∧
          AddrSpace.initialize executable stack = some space ∧ pages.numBits = space.numPages := by
  unfold VM.exec at h
  simp only at h
  split at h
  · cases h
    exact .inl ⟨s.storeTable, rfl⟩
  · split at h
    · cases h
      exact .inl ⟨_, rfl⟩
    · rename_i space hinit
      obtain ⟨pages, hnew, hnum, -⟩ := BitMap.new_spec space.numPages words
      rw [hnew] at h
      simp only at h
      split at h
      · cases h
        exact .inl ⟨_, rfl⟩
      · split at h
        · cases h
        · cases h
          exact .inr ⟨space, pages, _, _, _, rfl, hinit, hnum⟩

theorem untouched_exec {executable : File} {stack : ℕ → Byte} {words : ℕ → BitVec 32}
    {created : Bool} (h : s.exec executable stack words created = .ok s') :
    Untouched s s' ∧ (s'.numProcs = s.numProcs ∨ s'.numProcs = s.numProcs + 1) := by
  rcases exec_cases h with ⟨t, rfl⟩ | ⟨space, pages, i, t, u, rfl, hinit, hnum⟩
  · exact ⟨.of_spaces rfl rfl rfl rfl rfl (fun _ => rfl) fun _ => rfl, .inl rfl⟩
  · refine ⟨⟨⟨rfl, rfl, rfl, rfl, fun _ _ => VM.mapped_started hinit⟩, ?_, ?_, ?_⟩, .inr rfl⟩
    · intro q hq
      rw [VM.procs_started_of_lt hq]
    · intro q hq w
      rw [VM.pte, VM.procs_started_of_lt hq]
      rfl
    · intro hfit q hq
      rcases Nat.lt_succ_iff_lt_or_eq.1 hq with hlt | rfl
      · rw [VM.procs_started_of_lt hlt]
        exact hfit q hlt
      · simpa [VM.started] using hnum

/-! ## Runs -/

theorem exists_perm_filter_update {β : Type*} (P : β → Bool) (f : ℕ → β) {i n : ℕ} (hi : i < n) :
    ∃ rest, ∀ b, (((List.range n).map (Function.update f i b)).filter P).Perm
      ([b].filter P ++ rest) := by
  refine ⟨(((List.range n).erase i).map f).filter P, ?_⟩
  intro b
  have hperm := ((List.perm_cons_erase (List.mem_range.2 hi)).map (Function.update f i b)).filter P
  have hrest : ((List.range n).erase i).map (Function.update f i b) =
      ((List.range n).erase i).map f := by
    refine List.map_congr_left ?_
    intro t ht
    have hne : t ≠ i := by
      rintro rfl
      exact List.nodup_range.not_mem_erase ht
    exact Function.update_of_ne hne b f
  rw [List.map_cons, Function.update_self, hrest] at hperm
  refine hperm.trans ?_
  rw [← List.filter_append]
  exact List.Perm.refl _

/-- What is true in every state of a run in which there are frames enough. -/
structure Sound (k : Kernel Pc Data) : Prop where
  procs : k.data.vm.numProcs = k.numThreads
  fresh : ∀ t, k.numThreads ≤ t → k.pc t = .run
  fit : k.data.vm.StoresFit
  faulting : ∀ t a, (k.pc t).fault = some a → vpnOf a < (k.data.vm.procs t).space.numPages ∧
    (k.data.vm.pte t (vpnOf a)).valid = false
  balanced : Balanced k.data.vm (handlers k)
  allocs : ∀ page ∈ k.data.allocs, 0 ≤ page

variable {lru : Bool} {k k' : Kernel Pc Data} {lab : Label Act}

theorem Sound.lt_of_fault (h : Sound k) {t : Tid} {a : BitVec 32} (ht : (k.pc t).fault = some a) :
    t < k.data.vm.numProcs := by
  by_contra hlt
  rw [h.procs] at hlt
  rw [h.fresh t (Nat.not_lt.1 hlt)] at ht
  cases ht

/-- The handlers that are not the one of the current process. -/
theorem exists_rest (hcur : k.currentThread < k.numThreads) :
    ∃ rest, (handlers k).Perm ([k.pc k.currentThread].filter Pc.busy ++ rest) ∧
      ∀ pc, (((List.range k.numThreads).map (Function.update k.pc k.currentThread pc)).filter
        Pc.busy).Perm ([pc].filter Pc.busy ++ rest) := by
  obtain ⟨rest, hrest⟩ := exists_perm_filter_update Pc.busy k.pc hcur
  have hold := hrest (k.pc k.currentThread)
  rw [Function.update_eq_self] at hold
  exact ⟨rest, hold, hrest⟩

open Kernel in
theorem Sound.quiet (h : Sound k) (hq : Quiet k k') : Sound k' := by
  obtain ⟨hpc, hdata, hnum, -⟩ := hq
  have hhandlers : handlers k' = handlers k := by rw [handlers, handlers, hpc, hnum]
  refine ⟨?_, ?_, ?_, ?_, ?_, ?_⟩
  · rw [hdata, hnum]
    exact h.procs
  · rw [hpc, hnum]
    exact h.fresh
  · rw [hdata]
    exact h.fit
  · rw [hdata, hpc]
    exact h.faulting
  · rw [hdata, hhandlers]
    exact h.balanced
  · rw [hdata]
    exact h.allocs

open Kernel in
/-- A call that a process makes in its own code, with what remains to be shown. -/
theorem Sound.own {o : Call Pc} {pc : Pc} {data : Data} (h : Sound k)
    (hcur : k.currentThread < k.numThreads) (hk' : (k.advance pc data).exec o = .ok k')
    (hfork : ∀ t join start, o ≠ .fork t join start)
    (hprocs : data.vm.numProcs = k.data.vm.numProcs) (hfit : data.vm.StoresFit)
    (hpages : ∀ q < k.data.vm.numProcs,
      (data.vm.procs q).space.numPages = (k.data.vm.procs q).space.numPages)
    (hothers : ∀ q < k.data.vm.numProcs, q ≠ k.currentThread → ∀ w,
      (k.data.vm.pte q w).valid = false → (data.vm.pte q w).valid = false)
    (hown : ∀ a, pc.fault = some a → vpnOf a < (data.vm.procs k.currentThread).space.numPages ∧
      (data.vm.pte k.currentThread (vpnOf a)).valid = false)
    (hbalanced : ∀ rest, (handlers k).Perm ([k.pc k.currentThread].filter Pc.busy ++ rest) →
      Balanced data.vm ([pc].filter Pc.busy ++ rest))
    (hallocs : ∀ page ∈ data.allocs, 0 ≤ page) : Sound k' := by
  obtain ⟨hpc, hdata, hnum⟩ : k'.pc = Function.update k.pc k.currentThread pc ∧ k'.data = data ∧
      k'.numThreads = k.numThreads := by
    rcases exec_program hk' with hq | ⟨join, start, ho, -⟩
    · exact ⟨hq.pc, hq.data, hq.numThreads⟩
    · exact absurd ho (hfork _ join start)
  refine ⟨?_, ?_, ?_, ?_, ?_, ?_⟩
  · rw [hdata, hnum, hprocs, h.procs]
  · intro t ht
    rw [hnum] at ht
    rw [hpc, Function.update_of_ne (hcur.trans_le ht).ne']
    exact h.fresh t ht
  · rw [hdata]
    exact hfit
  · intro t a ht
    rw [hdata]
    rw [hpc] at ht
    by_cases htc : t = k.currentThread
    · subst htc
      rw [Function.update_self] at ht
      exact hown a ht
    · rw [Function.update_of_ne htc] at ht
      have hlt := h.lt_of_fault ht
      obtain ⟨hv, hinvalid⟩ := h.faulting t a ht
      rw [hpages t hlt]
      exact ⟨hv, hothers t hlt htc _ hinvalid⟩
  · obtain ⟨rest, hold, hrest⟩ := exists_rest hcur
    rw [hdata, handlers, hpc, hnum]
    exact (hbalanced rest hold).perm (hrest pc).symm
  · rw [hdata]
    exact hallocs

open Kernel in
/-- A call without a change of the frames, by a process that starts no handler. -/
theorem Sound.untouched {o : Call Pc} {data : Data} (h : Sound k)
    (hcur : k.currentThread < k.numThreads) (hk' : (k.advance .run data).exec o = .ok k')
    (hfork : ∀ t join start, o ≠ .fork t join start) (hu : Untouched k.data.vm data.vm)
    (hprocs : data.vm.numProcs = k.data.vm.numProcs) (hallocs : data.allocs = k.data.allocs)
    (hframe : (k.pc k.currentThread).frame = none) : Sound k' := by
  refine h.own hcur hk' hfork hprocs (hu.fit h.fit) hu.numPages ?_ ?_ ?_ ?_
  · intro q hq _ w hw
    rw [hu.valid q hq]
    exact hw
  · intro a ha
    cases ha
  · intro rest hrest
    have hbal := (h.balanced.perm hrest).congr hu.same
    rw [List.filter_cons] at hbal
    split at hbal
    · exact hbal.drop hframe
    · exact hbal
  · rw [hallocs]
    exact h.allocs

open Kernel in
theorem Sound.allocVirtualPage {o : Call Pc} {pc : Pc} {d data : Data} {stack : ℕ → Byte}
    (h : Sound k) (hcur : k.currentThread < k.numThreads)
    (hnext : allocVirtualPage d k.currentThread virtualAddr stack = (o, pc, data))
    (hk' : (k.advance pc data).exec o = .ok k') (hu : Untouched k.data.vm d.vm)
    (hprocs : d.vm.numProcs = k.data.vm.numProcs) (hallocs : d.allocs = k.data.allocs)
    (hframe : (k.pc k.currentThread).frame = none)
    (hv : vpnOf virtualAddr < (k.data.vm.procs k.currentThread).space.numPages)
    (hinvalid : (k.data.vm.pte k.currentThread (vpnOf virtualAddr)).valid = false)
    (hbalanced : ∀ rest, (handlers k).Perm ([k.pc k.currentThread].filter Pc.busy ++ rest) →
      ∀ noffH, Balanced k.data.vm (.allocFind virtualAddr noffH :: rest)) : Sound k' := by
  have hlt : k.currentThread < k.data.vm.numProcs := by rwa [h.procs]
  unfold PageFaults.allocVirtualPage at hnext
  simp only at hnext
  split at hnext
  · cases hnext
    have hexit := untouched_sysCallExit d.vm k.currentThread
    exact h.untouched hcur hk' (by simp) (hu.trans hexit hprocs.ge) hprocs hallocs hframe
  · cases hnext
    refine h.own hcur hk' (by simp) hprocs (hu.fit h.fit) hu.numPages ?_ ?_ ?_ ?_
    · intro q hq _ w hw
      rw [hu.valid q hq]
      exact hw
    · intro a ha
      cases ha
      rw [hu.numPages _ hlt, hu.valid _ hlt]
      exact ⟨hv, hinvalid⟩
    · intro rest hrest
      exact (hbalanced rest hrest _).congr hu.same
    · rw [hallocs]
      exact h.allocs

open Kernel in
theorem Sound.pageFault {o : Call Pc} {pc : Pc} {data : Data} {r : Request} {stack : ℕ → Byte}
    (h : Sound k) (hcur : k.currentThread < k.numThreads) (hpc : k.pc k.currentThread = .run)
    (hroom : Room lru k (.act (.access r stack)))
    (hfault : Faults k.data.vm k.currentThread r)
    (hnext : pageFault lru k.data k.currentThread r.addr stack = some (o, pc, data))
    (hk' : (k.advance pc data).exec o = .ok k') : Sound k' := by
  obtain ⟨hv, hinvalid⟩ := of_translate_pageFault hfault
  have hroom := hroom hfault
  obtain ⟨vm₀, hvm₀⟩ : ∃ vm₀, vm₀ = { k.data.vm with
    stats := { k.data.vm.stats with numPageFaults := k.data.vm.stats.numPageFaults + 1 } } :=
    ⟨_, rfl⟩
  have hu : Untouched k.data.vm vm₀ := by
    rw [hvm₀]
    exact .of_spaces rfl rfl rfl rfl rfl (fun _ => rfl) fun _ => rfl
  have hn : vm₀.numProcs = k.data.vm.numProcs := by rw [hvm₀]
  unfold PageFaults.pageFault at hnext
  rw [← hvm₀] at hnext
  simp only [hu.same.coreMap] at hnext
  split at hnext
  · rename_i hfull
    rw [if_pos hfull] at hroom
    split at hnext
    · cases hnext
    · rename_i f vm' hevict
      cases hnext
      have hok : lru = true → ∀ live, Path vm₀.coreMap.getNext vm₀.coreMap.head live →
          ¬ CoreMap.TailVictim vm₀.useBits (vpages vm₀ live) := by
        rw [hvm₀]
        exact hroom
      have hevicted : ∀ {rest}, Balanced vm₀ rest → Balanced vm' (.freeClear r.addr f :: rest) ∧
          VM.Kept vm₀ vm' ∧ ∀ q w, (vm₀.pte q w).valid = false → (vm'.pte q w).valid = false :=
        fun hbal => hbal.evict (hu.fit h.fit) hok hevict
      have hbal₀ := h.balanced.congr hu.same
      obtain ⟨-, hkept, hpte⟩ := hevicted hbal₀
      have hlt : k.currentThread < k.data.vm.numProcs := by rwa [h.procs]
      refine h.own hcur hk' (by simp) (hkept.numProcs.trans hn) ((hu.fit h.fit).kept hkept)
        ?_ ?_ ?_ ?_ h.allocs
      · intro q hq
        exact (hkept.numPages q).trans (hu.numPages q hq)
      · intro q hq _ w hw
        refine hpte q w ?_
        rw [hu.valid q hq]
        exact hw
      · intro a ha
        cases ha
        refine ⟨?_, hpte _ _ ?_⟩
        · rw [hkept.numPages, hu.numPages _ hlt]
          exact hv
        · rw [hu.valid _ hlt]
          exact hinvalid
      · intro rest hrest
        rw [hpc] at hrest
        exact (hevicted (hbal₀.perm hrest)).1
  · rename_i hfull
    rw [if_neg hfull] at hroom
    refine h.allocVirtualPage hcur (Option.some.inj hnext) hk' hu hn rfl (by rw [hpc]; rfl) hv
      hinvalid ?_
    intro rest hrest noffH
    rw [hrest.length_eq, hpc] at hroom
    rw [hpc] at hrest
    exact (h.balanced.perm hrest).enter rfl hroom

open Kernel in
theorem Sound.access {o : Call Pc} {pc : Pc} {data : Data} {r : Request} {stack : ℕ → Byte}
    (h : Sound k) (hcur : k.currentThread < k.numThreads) (hpc : k.pc k.currentThread = .run)
    (hroom : Room lru k (.act (.access r stack)))
    (hnext : access lru k.data k.currentThread r stack = some (o, pc, data))
    (hk' : (k.advance pc data).exec o = .ok k') : Sound k' := by
  have hframe : (k.pc k.currentThread).frame = none := by
    rw [hpc]
    rfl
  unfold PageFaults.access at hnext
  split at hnext
  · cases hnext
  · rename_i physAddr entry htr
    obtain ⟨-, -, hentry⟩ := of_translate_physical htr
    have hu : Untouched k.data.vm (k.data.vm.setEntry k.currentThread (vpnOf r.addr) entry) :=
      untouched_setEntry (by rw [hentry]; rfl) (by rw [hentry]; rfl)
    split at hnext
    · cases hnext
    · rename_i vm' htransfer
      cases hnext
      obtain ⟨hu', hn'⟩ := untouched_transfer htransfer
      exact h.untouched hcur hk' (by simp) (hu.trans hu' le_rfl) hn' rfl hframe
  · rename_i htr
    exact h.pageFault hcur hpc hroom htr hnext hk'
  · cases hnext
    exact h.untouched hcur hk' (by simp) (untouched_sysCallExit _ _) rfl rfl hframe

open Kernel in
/-- A new process. -/
theorem Sound.fork {data : Data} {join : ℤ} (h : Sound k)
    (hpc : k.pc k.currentThread = .run)
    (hk' : (k.advance .run data).exec (.fork k.data.vm.numProcs join .run) = .ok k')
    (hu : Untouched k.data.vm data.vm) (hprocs : data.vm.numProcs = k.data.vm.numProcs + 1)
    (hallocs : data.allocs = k.data.allocs) : Sound k' := by
  obtain ⟨hpc', hdata, hnum⟩ : k'.pc = k.pc ∧ k'.data = data ∧
      k'.numThreads = k.numThreads + 1 := by
    simp only [exec, Kernel.fork] at hk'
    split at hk'
    · cases hk'
      refine ⟨?_, rfl, rfl⟩
      have hupdate : Function.update k.pc k.currentThread .run = k.pc :=
        Function.update_eq_self_iff.2 hpc.symm
      have hnew := h.fresh k.data.vm.numProcs h.procs.ge
      simp only [readyToRun_pc, push_pc, advance_pc, hupdate]
      exact Function.update_eq_self_iff.2 hnew.symm
    · cases hk'
  have hhandlers : handlers k' = handlers k := by
    have hbusy : (k.pc k.numThreads).busy = false := by
      rw [h.fresh _ le_rfl]
      rfl
    rw [handlers, handlers, hpc', hnum, List.range_succ, List.map_append, List.filter_append]
    simp [hbusy]
  refine ⟨?_, ?_, ?_, ?_, ?_, ?_⟩
  · rw [hdata, hnum, hprocs, h.procs]
  · intro t ht
    rw [hnum] at ht
    rw [hpc']
    exact h.fresh t (Nat.le_of_succ_le ht)
  · rw [hdata]
    exact hu.fit h.fit
  · intro t a ht
    rw [hpc'] at ht
    have hlt := h.lt_of_fault ht
    rw [hdata, hu.numPages t hlt, hu.valid t hlt]
    exact h.faulting t a ht
  · rw [hdata, hhandlers]
    exact h.balanced.congr hu.same
  · rw [hdata, hallocs]
    exact h.allocs

open Kernel in
theorem Sound.user {o : Call Pc} {pc : Pc} {data : Data} {a : Act} (h : Sound k)
    (hcur : k.currentThread < k.numThreads) (hpc : k.pc k.currentThread = .run)
    (hroom : Room lru k (.act a)) (hnext : user lru k.currentThread k.data a = some (o, pc, data))
    (hk' : (k.advance pc data).exec o = .ok k') : Sound k' := by
  have hframe : (k.pc k.currentThread).frame = none := by
    rw [hpc]
    rfl
  cases a with
  | access r stack => exact h.access hcur hpc hroom hnext hk'
  | goOn stack => cases hnext
  | handle sems => cases hnext
  | exit =>
      cases hnext
      exact h.untouched hcur hk' (by simp) (untouched_sysCallExit _ _) rfl rfl hframe
  | other o' =>
      simp only [PageFaults.user] at hnext
      split at hnext
      · rename_i hforeign
        cases hnext
        refine h.untouched hcur hk' ?_ ?_ rfl rfl hframe
        · rintro t join start rfl
          cases hforeign
        · exact .of_spaces rfl rfl rfl rfl rfl (fun _ => rfl) fun _ => rfl
      · cases hnext
  | exec executable stack words created join =>
      simp only [PageFaults.user] at hnext
      split at hnext
      · cases hnext
      · rename_i vm' hexec
        obtain ⟨hu, hn⟩ := untouched_exec hexec
        split at hnext
        · rename_i heq
          cases hnext
          exact h.untouched hcur hk' (by simp) hu heq rfl hframe
        · rename_i hne
          cases hnext
          exact h.fork hpc hk' hu (hn.resolve_left hne) rfl

open Kernel in
theorem Sound.goOn {o : Call Pc} {pc : Pc} {data : Data} {stack : ℕ → Byte} (h : Sound k)
    (hcur : k.currentThread < k.numThreads)
    (hnext : goOn k.currentThread k.data stack (k.pc k.currentThread) = some (o, pc, data))
    (hk' : (k.advance pc data).exec o = .ok k') : Sound k' := by
  have hlt : k.currentThread < k.data.vm.numProcs := by rwa [h.procs]
  cases hpc : k.pc k.currentThread with
  | run =>
      rw [hpc] at hnext
      cases hnext
  | freeClear a f =>
      obtain ⟨hv, hinvalid⟩ := h.faulting k.currentThread a (by rw [hpc]; rfl)
      rw [hpc] at hnext
      simp only [PageFaults.goOn] at hnext
      split at hnext
      · cases hnext
      · rename_i vm' hfree
        cases hnext
        have hbal : ∀ rest, (handlers k).Perm ([k.pc k.currentThread].filter Pc.busy ++ rest) →
            Balanced vm' (.allocStart a :: rest) ∧
              ∃ frames, vm' = { k.data.vm with frames := frames } := by
          intro rest hrest
          rw [hpc] at hrest
          exact Balanced.free (h.balanced.perm hrest) hfree
        obtain ⟨rest, hrest, -⟩ := exists_rest hcur
        obtain ⟨-, frames, rfl⟩ := hbal rest hrest
        refine h.own hcur hk' (by simp) rfl h.fit (fun _ _ => rfl) (fun _ _ _ _ hw => hw) ?_
          (fun rest hrest => (hbal rest hrest).1) h.allocs
        intro a' ha'
        cases ha'
        exact ⟨hv, hinvalid⟩
  | allocStart a =>
      obtain ⟨hv, hinvalid⟩ := h.faulting k.currentThread a (by rw [hpc]; rfl)
      rw [hpc] at hnext
      refine h.allocVirtualPage hcur (Option.some.inj hnext) hk' ?_ rfl rfl (by rw [hpc]; rfl) hv
        hinvalid ?_
      · exact .of_spaces rfl rfl rfl rfl rfl (fun _ => rfl) fun _ => rfl
      · intro rest hrest noffH
        rw [hpc] at hrest
        obtain ⟨resident, hacc, hle⟩ := h.balanced.perm hrest
        exact ⟨resident, hacc, hle⟩
  | allocFind a noffH =>
      obtain ⟨hv, hinvalid⟩ := h.faulting k.currentThread a (by rw [hpc]; rfl)
      rw [hpc] at hnext
      simp only [PageFaults.goOn] at hnext
      split at hnext
      · cases hnext
      · rename_i page vm' halloc
        cases hnext
        have hbal : ∀ rest, (handlers k).Perm ([k.pc k.currentThread].filter Pc.busy ++ rest) →
            0 ≤ page ∧ Balanced vm' (.allocPlace a noffH page :: rest) ∧
              ∃ frames, vm' = { k.data.vm with frames := frames } := by
          intro rest hrest
          rw [hpc] at hrest
          exact Balanced.alloc (h.balanced.perm hrest) halloc
        obtain ⟨rest, hrest, -⟩ := exists_rest hcur
        obtain ⟨hpage, -, frames, rfl⟩ := hbal rest hrest
        refine h.own hcur hk' (by simp) rfl h.fit (fun _ _ => rfl) (fun _ _ _ _ hw => hw) ?_
          (fun rest hrest => (hbal rest hrest).2.1) ?_
        · intro a' ha'
          cases ha'
          exact ⟨hv, hinvalid⟩
        · intro q hq
          rcases List.mem_cons.1 hq with rfl | hq
          · exact hpage
          · exact h.allocs q hq
  | allocPlace a noffH page =>
      obtain ⟨hv, hinvalid⟩ := h.faulting k.currentThread a (by rw [hpc]; rfl)
      rw [hpc] at hnext
      simp only [PageFaults.goOn] at hnext
      split at hnext
      · cases hnext
      · rename_i vm' hplace
        cases hnext
        have hbal : ∀ rest, (handlers k).Perm ([k.pc k.currentThread].filter Pc.busy ++ rest) →
            Balanced vm' rest ∧ VM.Kept k.data.vm vm' ∧ ∀ q w,
              ¬ (q = k.currentThread ∧ w = vpnOf a) → vm'.pte q w = k.data.vm.pte q w := by
          intro rest hrest
          rw [hpc] at hrest
          exact Balanced.place (h.balanced.perm hrest) hlt hv hinvalid hplace
        obtain ⟨rest, hrest, -⟩ := exists_rest hcur
        obtain ⟨-, hkept, hpte⟩ := hbal rest hrest
        refine h.own hcur hk' (by simp) hkept.numProcs (h.fit.kept hkept)
          (fun q _ => hkept.numPages q) ?_ ?_ (fun rest hrest => (hbal rest hrest).1) h.allocs
        · intro q _ hq w hw
          rw [hpte q w fun heq => hq heq.1]
          exact hw
        · intro a' ha'
          cases ha'

open Kernel in
theorem Sound.step (h : Sound k) (hp : k.Placed) (hroom : Room lru k lab)
    (hinner : ∀ t o, .call o ∈ k.stack t → o.isInner = true)
    (hk' : Kernel.step (client lru) k lab = .ok k') : Sound k' := by
  rcases step_program hinner hk' with
    ⟨a, o, pc, data, rfl, -, hnext, -, he⟩ | ⟨a, rfl, hh⟩ | ⟨-, hq⟩
  · replace hnext : next lru k.currentThread (k.pc k.currentThread) k.data a = some (o, pc, data) :=
      hnext
    unfold next at hnext
    split at hnext
    · exact h.goOn hp.current_lt hnext he
    · rename_i hpc _
      exact h.user hp.current_lt hpc hroom hnext he
    · cases hnext
  · obtain ⟨sems, data, hhandler, hq⟩ := handle_program hh
    have hdata : data = k.data := by
      cases a <;> simp [client] at hhandler
      exact hhandler.2.symm
    rw [hdata] at hq
    exact h.quiet hq
  · exact h.quiet hq

/-- No process is left without a frame. -/
structure FramesGiven (d : Data) : Prop where
  /-- Every call of `AllocPage` has returned a frame number. -/
  allocs : ∀ page ∈ d.allocs, 0 ≤ page
  /-- Every valid entry holds a frame of the machine. -/
  valid : ∀ v f, d.vm.Mapped v f → 0 ≤ f ∧ f < d.vm.numPhysPages
  /-- No two valid entries hold the same frame. -/
  unique : ∀ v w f, d.vm.Mapped v f → d.vm.Mapped w f → v = w

theorem Sound.framesGiven (h : Sound k) : FramesGiven k.data := by
  obtain ⟨resident, hacc, -⟩ := h.balanced
  refine ⟨h.allocs, ?_, fun _ _ _ => hacc.page_eq⟩
  intro v f hmap
  have hmem : f ∈ resident.map Prod.snd := List.mem_map.2 ⟨(v, f), (hacc.mapped v f).2 hmap, rfl⟩
  exact hacc.range f (List.mem_append_left _ hmem)

/-- The first process has been started. -/
theorem Sound.init {numPhysPages maxProcess : ℕ} {words storeWords : ℕ → BitVec 32}
    {executable : File} {stack : ℕ → Byte} {created : Bool} {vm : VM}
    (h : startProcess numPhysPages maxProcess words executable stack storeWords created = .ok vm)
    (hone : vm.numProcs = 1) (initialValue : ℕ → ℤ) :
    Sound (Kernel.init .run ⟨vm, []⟩ initialValue) := by
  unfold startProcess at h
  split at h
  · cases h
  · rename_i vm₀ h₀
    have hsound := (VM.sound_boot h₀).exec h
    obtain ⟨resident, hacc⟩ := hsound.accounts
    refine ⟨hone, fun _ _ => rfl, hsound.fit, ?_, ⟨resident, hacc, hacc.length_le⟩, ?_⟩
    · intro t a ha
      cases ha
    · intro page hpage
      cases hpage

/-- In every run in which each handler finds room when it starts, every process gets a
frame. -/
theorem page_faults_get_frames (lru : Bool) {numPhysPages maxProcess : ℕ}
    {words storeWords : ℕ → BitVec 32} {executable : File} {stack : ℕ → Byte} {created : Bool}
    {vm : VM}
    (h : startProcess numPhysPages maxProcess words executable stack storeWords created = .ok vm)
    (hone : vm.numProcs = 1) (initialValue : ℕ → ℤ) {labs : List (Label Act)}
    {k : Kernel Pc Data}
    (hroom : Meets (Kernel.step (client lru)) (Room lru)
      (Kernel.init .run ⟨vm, []⟩ initialValue) labs)
    (hk : runFrom (Kernel.step (client lru)) (Kernel.init .run ⟨vm, []⟩ initialValue)
      labs = .ok k) :
    FramesGiven k.data := by
  have hinit := Sound.init h hone initialValue
  have hinv : Kernel.Runs (client lru) .run ⟨vm, []⟩ initialValue k ∧ Sound k := by
    refine invariant_of_meets
      (I := fun k => Kernel.Runs (client lru) .run ⟨vm, []⟩ initialValue k ∧ Sound k) ?_
        ⟨Reachable.refl _ _, hinit⟩ hroom hk
    rintro k lab k' ⟨hruns, hsound⟩ hroom hk'
    have hsound' := hsound.step (Kernel.Runs.placed hruns) hroom (Kernel.Runs.inner hruns) hk'
    exact ⟨Reachable.tail hruns hk', hsound'⟩
  exact hinv.2.framesGiven

/-- A program with 44 pages. -/
def wideProgram : File where
  length := 40
  byte := fun i =>
    if i = 0 then 0xad#8
    else if i = 1 then 0xdf#8
    else if i = 2 then 0xba#8
    else if i = 37 then 16#8
    else 0#8

/-- A request of a word of the page `v`. -/
def readPage (v : ℕ) : Label Act :=
  .act (.access (.readMem (BitVec.ofNat 32 (v * pageSize)) 4) fun _ => 0)

def proceed : Label Act := .act (.goOn fun _ => 0)

/-- A page fault without a switch, when the core map is not full. -/
def faultAlone (v : ℕ) : List (Label Act) :=
  [readPage v, .go, .go, .go, .go, proceed, .go, .go, .go, proceed, .go, .go]

def execOther : Label Act := .act (.exec VM.emptyProgram (fun _ => 0) (fun _ => 0) true 0)

/-- A test of `Room` with `LRU == 0`. -/
def roomTest (k : Kernel Pc Data) (_ : Label Act) : Bool :=
  k.data.vm.coreMap.isFull ||
    decide (k.data.vm.coreMap.size + (handlers k).length < k.data.vm.coreMap.capacity)

theorem room_of_roomTest {k : Kernel Pc Data} {lab : Label Act} (h : roomTest k lab = true) :
    Room false k lab := by
  unfold Room
  split
  · intro _
    split
    · rintro ⟨⟩
    · rename_i hfull
      simpa [roomTest, hfull] using h
  · trivial

/-- The started machine passes the test. -/
theorem exists_of_startProcess {numPhysPages maxProcess : ℕ} {words storeWords : ℕ → BitVec 32}
    {executable : File} {stack : ℕ → Byte} {created : Bool} {test : VM → Bool}
    (h : (match startProcess numPhysPages maxProcess words executable stack storeWords created with
      | .ok vm => decide (vm.numProcs = 1) && test vm
      | .error _ => false) = true) :
    ∃ vm, startProcess numPhysPages maxProcess words executable stack storeWords created = .ok vm ∧
      vm.numProcs = 1 ∧ test vm = true := by
  split at h
  · rename_i vm hvm
    rw [Bool.and_eq_true, decide_eq_true_eq] at h
    exact ⟨vm, hvm, h⟩
  · cases h

/-- Two handlers at once: the time slice of the first ends when it has its frame. -/
theorem page_faults_get_frames_two :
    ∃ vm labs k, startProcess 32 14 (fun _ => 0) wideProgram (fun _ => 0) (fun _ => 0) true =
        .ok vm ∧ vm.numProcs = 1 ∧
      Meets (Kernel.step (client false)) (Room false)
        (Kernel.init .run ⟨vm, []⟩ fun _ => 0) labs ∧
      runFrom (Kernel.step (client false)) (Kernel.init .run ⟨vm, []⟩ fun _ => 0) labs = .ok k ∧
      k.data.allocs = [1, 0] ∧ FramesGiven k.data := by
  obtain ⟨vm, hvm, hone, htest⟩ : ∃ vm,
      startProcess 32 14 (fun _ => 0) wideProgram (fun _ => 0) (fun _ => 0) true = .ok vm ∧
        vm.numProcs = 1 ∧ passesMeeting (Kernel.step (client false)) roomTest
          (fun k => decide (k.data.allocs = [1, 0])) (Kernel.init .run ⟨vm, []⟩ fun _ => 0)
          ([execOther, .go, .go, .go, readPage 0, .go, .go, .go, .go, proceed, .go, .go, .timer] ++
            [.go, .go, .go, .go, readPage 0, .go, .go, .go, .go, proceed]) = true :=
    exists_of_startProcess (by decide +kernel)
  obtain ⟨hmeets, k, hk, hallocs⟩ := of_passesMeeting htest
  have hroom := hmeets.imp fun _ _ => room_of_roomTest
  exact ⟨vm, _, k, hvm, hone, hroom, hk, of_decide_eq_true hallocs,
    page_faults_get_frames false hvm hone _ hroom hk⟩

/-- One process has all 32 frames. Another one evicts a page of it and frees the frame, and
its time slice ends in the `Release` of `FreePage`: the first process faults again, finds
that the core map is not full and takes the frame. The other process finds none. -/
theorem freed_frame_taken :
    ∃ vm k, startProcess 32 14 (fun _ => 0) wideProgram (fun _ => 0) (fun _ => 0) true =
        .ok vm ∧ vm.numProcs = 1 ∧
      Kernel.Runs (client false) .run ⟨vm, []⟩ (fun _ => 0) k ∧ -1 ∈ k.data.allocs ∧
        ¬ FramesGiven k.data := by
  obtain ⟨vm, hvm, hone, htest⟩ : ∃ vm,
      startProcess 32 14 (fun _ => 0) wideProgram (fun _ => 0) (fun _ => 0) true = .ok vm ∧
        vm.numProcs = 1 ∧ passes (Kernel.step (client false))
          (Kernel.init .run ⟨vm, []⟩ fun _ => 0)
          ((List.range 32).flatMap faultAlone ++ [execOther, .go, .go, .timer, .go] ++
            [.go, .go, .go, readPage 0, .go, .go, .go, .go, proceed, .go, .go, .timer, .go] ++
            [.go, .go, .go, .go, readPage 0, .go, .go, .go, .go, proceed, .go, .go, .go] ++
            [proceed, .go, .timer, .go, .go, .go, .go, .go, proceed, .go, .go, .go, .go, proceed])
          (fun k => decide (-1 ∈ k.data.allocs)) = true :=
    exists_of_startProcess (by decide +kernel)
  obtain ⟨k, hk, hmem⟩ := exists_of_passes _ htest
  rw [decide_eq_true_eq] at hmem
  refine ⟨vm, k, hvm, hone, hk, hmem, ?_⟩
  intro hgiven
  have := hgiven.allocs (-1) hmem
  omega

end PageFaults

end Nachos
