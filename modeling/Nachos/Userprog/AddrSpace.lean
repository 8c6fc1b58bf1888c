import Nachos.Machine.Translate
import Nachos.Userprog.CoreMap
import Nachos.Userprog.Table
import Mathlib.Data.Nat.Digits.Defs

/-!
# Address spaces and demand paging

`AddrSpace`, `MemoryManager` and `BackingStore` of `addrspace.cc` and the page-fault
branch of `ExceptionHandler`, for processes that run one at a time: a page fault is
handled before another thread runs, and no process calls Fork. A process has one
thread, one address space and one backing store, so one number stands for all
three. The stub file system is used, whose files are those of the host.

What the machine has not initialised is an argument: the words of a new `BitMap`, and
the part of a `NoffHeader` on the stack that a short file does not fill. On a
little-endian host `WordToHost` is the identity and the header is never swapped.
-/

namespace Nachos

open Lib

/-! ## Files -/

/-- A file: `byte` is read below `length` only. -/
structure File where
  length : ℕ
  byte : ℕ → Byte

/-- `Create` makes a new file, or truncates the one there is. -/
def File.empty : File where
  length := 0
  byte := fun _ => 0

/-- `ReadAt(into, numBytes, position)`, with `into` an index of `mem`. `Lseek` asserts
that the position is not negative. -/
def File.readAt (file : File) (mem : ℕ → Byte) (into numBytes : ℕ) (position : ℤ) :
    Except Fault (ℕ → Byte) :=
  if position < 0 then
    .error .assertion
  else
    .ok (splice mem into (min numBytes (file.length - position.toNat))
      fun k => file.byte (position.toNat + k))

/-- `WriteAt(from, numBytes, position)`; a gap is filled with zeros. -/
def File.writeAt (file : File) (source : ℕ → Byte) (numBytes position : ℕ) : File where
  length := max file.length (position + numBytes)
  byte := splice (fun a => if a < file.length then file.byte a else 0) position numBytes source

/-! ## Executables -/

structure Segment where
  virtualAddr : BitVec 32
  inFileAddr : BitVec 32
  size : BitVec 32

structure NoffHeader where
  noffMagic : BitVec 32
  code : Segment
  initData : Segment
  uninitData : Segment

def NOFFMAGIC : BitVec 32 := 0xbadfad#32

/-- The `int` at the index `k`. -/
def wordAt (b : ℕ → Byte) (k : ℕ) : BitVec 32 := b (k + 3) ++ b (k + 2) ++ b (k + 1) ++ b k

def segmentAt (b : ℕ → Byte) (k : ℕ) : Segment where
  virtualAddr := wordAt b k
  inFileAddr := wordAt b (k + 4)
  size := wordAt b (k + 8)

def sizeofNoffHeader : ℕ := 40

/-- `executable->ReadAt((char *)&noffH, sizeof(noffH), 0)`. -/
def readHeader (executable : File) (stack : ℕ → Byte) : NoffHeader :=
  let b := splice stack 0 (min sizeofNoffHeader executable.length) executable.byte
  { noffMagic := wordAt b 0
    code := segmentAt b 4
    initData := segmentAt b 16
    uninitData := segmentAt b 28 }

def userStackSize : BitVec 32 := 1024#32

def argumentSize : BitVec 32 := 512#32

def divRoundUp (n s : ℕ) : ℕ := n / s + if 0 < n % s then 1 else 0

structure AddrSpace where
  pageTable : ℕ → TranslationEntry
  numPages : ℕ
  currentExecutable : File

/-- The entry of the page `i` in a new page table. -/
def TranslationEntry.initial (i : ℕ) : TranslationEntry where
  virtualPage := i
  physicalPage := -2
  valid := false
  readOnly := false
  use := false
  dirty := false

/-- `AddrSpace::Initialize`, nothing when it returns 1. -/
def AddrSpace.initialize (executable : File) (stack : ℕ → Byte) : Option AddrSpace :=
  let noffH := readHeader executable stack
  if noffH.noffMagic ≠ NOFFMAGIC then
    none
  else
    let size := noffH.code.size + noffH.initData.size + noffH.uninitData.size + userStackSize +
      argumentSize
    some
      { pageTable := fun i => .initial i
        numPages := divRoundUp size.toNat pageSize
        currentExecutable := executable }

/-- The test of the loop of `allocVirtualPage`, with `int` comparisons. -/
def Segment.holds (seg : Segment) (currAddress : BitVec 32) : Prop :=
  0 < seg.size.toInt ∧ currAddress.toInt < (seg.virtualAddr + seg.size).toInt ∧
    seg.virtualAddr.toInt ≤ currAddress.toInt

instance (seg : Segment) (currAddress : BitVec 32) : Decidable (seg.holds currAddress) :=
  inferInstanceAs (Decidable (_ ∧ _))

/-- Where in the file the byte of an address is read from, if it is. -/
def NoffHeader.source (noffH : NoffHeader) (currAddress : BitVec 32) : Option (BitVec 32) :=
  if noffH.code.holds currAddress then
    some (noffH.code.inFileAddr + (currAddress - noffH.code.virtualAddr))
  else if noffH.initData.holds currAddress then
    some (noffH.initData.inFileAddr + (currAddress - noffH.initData.virtualAddr))
  else
    none

/-- The loop of `allocVirtualPage`, for the `k` bytes from `written` on, with the frame
at the index `frame` of main memory: the memory and `flag`. -/
def loadLoop (executable : File) (noffH : NoffHeader) (vpAddr frame : ℕ) :
    ℕ → ℕ → (ℕ → Byte) → Bool → Except Fault ((ℕ → Byte) × Bool)
  | 0, _, mem, flag => .ok (mem, flag)
  | k + 1, written, mem, flag =>
      match noffH.source (BitVec.ofNat 32 (written + vpAddr)) with
      | none => loadLoop executable noffH vpAddr frame k (written + 1) mem flag
      | some position =>
          match executable.readAt mem (frame + written) 1 position.toInt with
          | .error e => .error e
          | .ok mem' => loadLoop executable noffH vpAddr frame k (written + 1) mem' true

/-! ## The machine -/

structure BackingStore where
  pages : BitMap
  filename : List Char
  storeID : ℕ

/-- The name that `BackingStore::Initialize` builds: the digits, the last one first. -/
def BackingStore.filenameOf (ID : ℕ) : List Char :=
  ['a', 'j', 'n', 'r', '_'] ++ (Nat.digits 10 ID).map fun d => Char.ofNat (d + 48)

structure Process where
  space : AddrSpace
  backingStore : BackingStore
  alive : Bool

/-- What stands for a process that has not been started. -/
def Process.none : Process where
  space :=
    { pageTable := fun i => .initial i
      numPages := 0
      currentExecutable := .empty }
  backingStore :=
    { pages :=
        { numBits := 0
          map := fun _ => 0 }
      filename := []
      storeID := 0 }
  alive := false

/-- What reading from the memory of a process comes to. -/
inductive Got (α : Type) where
  | got (a : α)
  /-- The call that reads has returned FALSE or NULL. -/
  | refused
  /-- The process has exited in the handler of an exception. -/
  | killed

structure Statistics where
  numPageFaults : ℕ
  numPageIns : ℕ
  numPageOuts : ℕ

inductive Request where
  | readMem (addr : BitVec 32) (size : ℕ)
  | writeMem (addr : BitVec 32) (size : ℕ) (value : BitVec 32)
  deriving DecidableEq

namespace Request

def addr : Request → BitVec 32
  | readMem a _ => a
  | writeMem a _ _ => a

def size : Request → ℕ
  | readMem _ n => n
  | writeMem _ n _ => n

def writing : Request → Bool
  | readMem _ _ => false
  | writeMem _ _ _ => true

end Request

/-- What a request comes to. After a page fault it has returned FALSE and the handler has
run; after any other exception the process has exited. -/
inductive Outcome where
  | value (v : BitVec 32)
  | written
  | pageFault
  | killed
  deriving DecidableEq

structure MemEvent where
  process : ℕ
  request : Request
  outcome : Outcome

structure VM where
  numPhysPages : ℕ
  mainMemory : ℕ → Byte
  /-- The bit map of `memoryManager`. -/
  frames : BitMap
  coreMap : CoreMap
  /-- The address of the next `new CorePage`. -/
  nextCorePage : ℕ
  files : List Char → File
  procs : ℕ → Process
  /-- The processes started so far are those below. -/
  numProcs : ℕ
  tablePtr : Table ℕ
  storeTable : Table ℕ
  stats : Statistics
  /-- The requests made so far, the last one first. -/
  log : List MemEvent

namespace VM

def pte (s : VM) (p vpn : ℕ) : TranslationEntry := (s.procs p).space.pageTable vpn

def setSpace (s : VM) (p : ℕ) (space : AddrSpace) : VM :=
  { s with procs := Function.update s.procs p { s.procs p with space := space } }

/-- `pageTable[vpn] = entry` in the address space of `p`. -/
def setEntry (s : VM) (p vpn : ℕ) (entry : TranslationEntry) : VM :=
  s.setSpace p
    { (s.procs p).space with
      pageTable := Function.update (s.procs p).space.pageTable vpn entry }

/-- The use bits of all page tables. -/
def useBits (s : VM) : VPage → Bool := fun v => (s.pte v.1 v.2).use

def setUseBits (s : VM) (use : VPage → Bool) : VM :=
  { s with
    procs := fun p =>
      { s.procs p with
        space :=
          { (s.procs p).space with
            pageTable := fun v => { s.pte p v with use := use (p, v) } } } }

/-- The index of `machine->mainMemory[physicalPage * PageSize]`. -/
def frameAddr (s : VM) (physicalPage : ℤ) : Except Fault ℕ :=
  if 0 ≤ physicalPage ∧ physicalPage < s.numPhysPages then
    .ok (physicalPage.toNat * pageSize)
  else
    .error .wildAddress

/-- `MemoryManager::FreePage`. -/
def freePage (s : VM) (physPageNum : ℤ) : Except Fault VM :=
  match s.frames.clear physPageNum with
  | .error e => .error e
  | .ok frames => .ok { s with frames := frames }

/-- The write of `BackingStore::pageOut`, when the page is dirty. -/
def writeBack (s : VM) (p virtualPage : ℕ) : Except Fault VM :=
  let store := (s.procs p).backingStore
  match store.pages.mark virtualPage with
  | .error e => .error e
  | .ok pages =>
      match s.frameAddr (s.pte p virtualPage).physicalPage with
      | .error e => .error e
      | .ok frame =>
          .ok { s with
            procs := Function.update s.procs p
              { s.procs p with backingStore := { store with pages := pages } }
            files := Function.update s.files store.filename
              ((s.files store.filename).writeAt (fun k => s.mainMemory (frame + k)) pageSize
                (virtualPage * pageSize))
            stats := { s.stats with numPageOuts := s.stats.numPageOuts + 1 } }

/-- `BackingStore::pageOut` of the backing store of `p`. -/
def pageOut (s : VM) (p virtualPage : ℕ) : Except Fault VM :=
  match if (s.pte p virtualPage).dirty then s.writeBack p virtualPage else .ok s with
  | .error e => .error e
  | .ok s' =>
      .ok (s'.setEntry p virtualPage
        { s'.pte p virtualPage with valid := false, dirty := false })

/-- `BackingStore::pageIn` of the backing store of `p`. -/
def pageIn (s : VM) (p virtualPage : ℕ) : Except Fault VM :=
  match s.frameAddr (s.pte p virtualPage).physicalPage with
  | .error e => .error e
  | .ok frame =>
      match (s.files (s.procs p).backingStore.filename).readAt s.mainMemory frame pageSize
          (virtualPage * pageSize : ℕ) with
      | .error e => .error e
      | .ok mem =>
          .ok ({ s with mainMemory := mem }.setEntry p virtualPage
            { s.pte p virtualPage with valid := true })

/-- The part of `allocVirtualPage` that fills the frame, from the executable or from the
backing store. -/
def fillPage (s : VM) (p vpn : ℕ) (noffH : NoffHeader) : Except Fault VM :=
  match s.frameAddr (s.pte p vpn).physicalPage with
  | .error e => .error e
  | .ok frame =>
      let s := { s with mainMemory := splice s.mainMemory frame pageSize fun _ => 0 }
      match (s.procs p).backingStore.pages.test vpn with
      | .error e => .error e
      | .ok false =>
          match loadLoop (s.procs p).space.currentExecutable noffH (vpn * pageSize) frame pageSize 0
              s.mainMemory false with
          | .error e => .error e
          | .ok (mem, flag) =>
              .ok { s with
                mainMemory := mem
                stats :=
                  { s.stats with numPageIns := s.stats.numPageIns + if flag then 1 else 0 } }
      | .ok true =>
          match s.pageIn p vpn with
          | .error e => .error e
          | .ok s => .ok { s with stats := { s.stats with numPageIns := s.stats.numPageIns + 1 } }

/-- `MemoryManager::AllocPage`. -/
def allocPage (s : VM) : Except Fault (ℤ × VM) :=
  match s.frames.find with
  | .error e => .error e
  | .ok (page, frames) => .ok (page, { s with frames := frames })

/-- `allocVirtualPage` after its call of `AllocPage`. -/
def placePage (s : VM) (p vpn : ℕ) (allocpage : ℤ) (noffH : NoffHeader) : Except Fault VM :=
  match (s.coreMap.alloc s.nextCorePage (.new p allocpage vpn)).addCorePage s.nextCorePage with
  | .error e => .error e
  | .ok (_, coreMap) =>
      let s' := { s with
        coreMap := coreMap
        nextCorePage := s.nextCorePage + 1 }.setEntry p vpn
          { s.pte p vpn with physicalPage := allocpage }
      match s'.fillPage p vpn noffH with
      | .error e => .error e
      | .ok s' => .ok (s'.setEntry p vpn { s'.pte p vpn with valid := true })

/-- `AddrSpace::allocVirtualPage` in the address space of `p`: the value it returns and
the new state. -/
def allocVirtualPage (s : VM) (p : ℕ) (virtualAddr : BitVec 32) (stack : ℕ → Byte) :
    Except Fault (ℤ × VM) :=
  let noffH := readHeader (s.procs p).space.currentExecutable stack
  if noffH.noffMagic ≠ NOFFMAGIC then
    .ok (1, s)
  else
    match s.allocPage with
    | .error e => .error e
    | .ok (allocpage, s') =>
        match s'.placePage p (vpnOf virtualAddr) allocpage noffH with
        | .error e => .error e
        | .ok s' => .ok (0, s')

/-- The part of the page-fault handler that makes room, up to its call of `FreePage`: the
frame to be freed and the new state. -/
def evictPage (lru : Bool) (s : VM) : Except Fault (ℤ × VM) :=
  match s.coreMap.evictCorePage lru s.useBits with
  | .error e => .error e
  | .ok (none, _, _) => .error .nullPointer
  | .ok (some page, use, coreMap) =>
      let corePage := coreMap.page page
      match ({ s with coreMap := coreMap }.setUseBits use).pageOut corePage.backingStore
          corePage.virtualPage with
      | .error e => .error e
      | .ok s' => .ok (corePage.physicalPage, s')

/-- The part of the page-fault handler that makes room. -/
def evict (lru : Bool) (s : VM) : Except Fault VM :=
  match s.evictPage lru with
  | .error e => .error e
  | .ok (physicalPage, s') => s'.freePage physicalPage

/-- The page-fault branch of `ExceptionHandler`: the value of `allocVirtualPage` and the
new state. -/
def pageFault (lru : Bool) (s : VM) (p : ℕ) (virtualAddr : BitVec 32) (stack : ℕ → Byte) :
    Except Fault (ℤ × VM) :=
  let s := { s with stats := { s.stats with numPageFaults := s.stats.numPageFaults + 1 } }
  match if s.coreMap.isFull then s.evict lru else .ok s with
  | .error e => .error e
  | .ok s' => s'.allocVirtualPage p virtualAddr stack

/-- The loop of `SysCallExit`: the slots whose thread has the address space of `p`. -/
def releaseSlots (p : ℕ) (t : Table ℕ) : Table ℕ :=
  (List.range TABLESIZE).foldl (fun t (i : ℕ) => if t.get i = some p then t.release i else t) t

/-- `SysCallExit` called by `p`. The pages stay where they are. -/
def sysCallExit (s : VM) (p : ℕ) : VM :=
  { s with
    procs := Function.update s.procs p { s.procs p with alive := false }
    tablePtr := releaseSlots p s.tablePtr }

def record (s : VM) (p : ℕ) (r : Request) (outcome : Outcome) : VM :=
  { s with log := ⟨p, r, outcome⟩ :: s.log }

/-- `ReadMem` or `WriteMem` after the translation. -/
def transfer (s : VM) (p physAddr : ℕ) (r : Request) : Except Fault VM :=
  match r with
  | .readMem _ size =>
      match load s.mainMemory physAddr size with
      | .error e => .error e
      | .ok v => .ok (s.record p r (.value v))
  | .writeMem _ size value =>
      match store s.mainMemory physAddr value size with
      | .error e => .error e
      | .ok mem => .ok ({ s with mainMemory := mem }.record p r .written)

/-- `ReadMem` or `WriteMem` by `p`, with the exception it may raise. -/
def access (lru : Bool) (s : VM) (p : ℕ) (r : Request) (stack : ℕ → Byte) : Except Fault VM :=
  match translate s.numPhysPages (s.procs p).space.pageTable (s.procs p).space.numPages r.addr
      r.size r.writing with
  | .error e => .error e
  | .ok (.physical physAddr entry) => (s.setEntry p (vpnOf r.addr) entry).transfer p physAddr r
  | .ok (.exception .pageFault) =>
      match s.pageFault lru p r.addr stack with
      | .error e => .error e
      | .ok (val, s') =>
          if val ≠ 0 then
            .ok ((s'.sysCallExit p).record p r .killed)
          else
            .ok (s'.record p r .pageFault)
  | .ok (.exception _) => .ok ((s.sysCallExit p).record p r .killed)

/-- `machine->ReadMem` by `p`. -/
def readMem (lru : Bool) (stack : ℕ → ℕ → Byte) (p size : ℕ) (s : VM) (addr : BitVec 32) :
    Except Fault (Got (BitVec 32) × VM) :=
  match s.access lru p (.readMem addr size) (stack s.log.length) with
  | .error e => .error e
  | .ok s' =>
      match s'.log with
      | ⟨_, _, .value v⟩ :: _ => .ok (.got v, s')
      | ⟨_, _, .killed⟩ :: _ => .ok (.killed, s')
      | _ => .ok (.refused, s')

/-- The request is made again when the first one has been refused. -/
def readMemTwice (lru : Bool) (stack : ℕ → ℕ → Byte) (p size : ℕ) (s : VM) (addr : BitVec 32) :
    Except Fault (Got (BitVec 32) × VM) :=
  match s.readMem lru stack p size addr with
  | .ok (.refused, s') => s'.readMem lru stack p size addr
  | r => r

/-- `Exec2` from the slot of the backing store on (and `StartProcess`, which does the
same). `created` is what `fileSystem->Create` returns. When there is no slot for a
thread that has been forked, its address space is deleted under it. -/
def exec (s : VM) (executable : File) (stack : ℕ → Byte) (words : ℕ → BitVec 32)
    (created : Bool) : Except Fault VM :=
  match s.storeTable.alloc s.numProcs with
  | (storeID, storeTable) =>
      if storeID = -1 then
        .ok s
      else
        match AddrSpace.initialize executable stack with
        | none => .ok { s with storeTable := storeTable.release storeID }
        | some space =>
            match BitMap.new space.numPages words with
            | .error e => .error e
            | .ok pages =>
                if created = false then
                  .ok { s with storeTable := storeTable.release storeID }
                else
                  match s.tablePtr.alloc s.numProcs with
                  | (processID, tablePtr) =>
                      if processID = -1 then
                        .error .useAfterFree
                      else
                        let filename := BackingStore.filenameOf storeID.toNat
                        .ok { s with
                          procs := Function.update s.procs s.numProcs
                            { space := space
                              backingStore :=
                                { pages := pages
                                  filename := filename
                                  storeID := storeID.toNat }
                              alive := true }
                          numProcs := s.numProcs + 1
                          files := Function.update s.files filename .empty
                          storeTable := storeTable
                          tablePtr := tablePtr }

inductive Op where
  | exec (executable : File) (stack : ℕ → Byte) (words : ℕ → BitVec 32) (created : Bool)
  | access (p : ℕ) (r : Request) (stack : ℕ → Byte)
  | exit (p : ℕ)

/-- A process that has been started and has not exited. -/
def Running (s : VM) (p : ℕ) : Prop := p < s.numProcs ∧ (s.procs p).alive = true

instance (s : VM) (p : ℕ) : Decidable (s.Running p) := inferInstanceAs (Decidable (_ ∧ _))

/-- A system call, or a request of a process that runs. -/
def step (lru : Bool) (s : VM) : Op → Except Fault VM
  | .exec executable stack words created => s.exec executable stack words created
  | .access p r stack => if s.Running p then s.access lru p r stack else .ok s
  | .exit p => if s.Running p then .ok (s.sysCallExit p) else .ok s

/-- The machine before the first process, with `numPhysPages` frames and room for
`maxProcess` processes. -/
def boot (numPhysPages maxProcess : ℕ) (words : ℕ → BitVec 32) : Except Fault VM :=
  match BitMap.new numPhysPages words with
  | .error e => .error e
  | .ok frames =>
      .ok
        { numPhysPages := numPhysPages
          mainMemory := fun _ => 0
          frames := frames
          coreMap := .new numPhysPages
          nextCorePage := 0
          files := fun _ => .empty
          procs := fun _ => .none
          numProcs := 0
          tablePtr := .new maxProcess
          storeTable := .new maxProcess
          stats :=
            { numPageFaults := 0
              numPageIns := 0
              numPageOuts := 0 }
          log := [] }

end VM

end Nachos
