import Nachos.Machine.FlatProcessor
import Nachos.Userprog.FlatMemory
import Nachos.Userprog.UserRegisters

/-!
# Time sharing

The processes share one machine: one set of user registers, the frames, and a kernel that brings the
pages in. `Scheduler::Run` saves and restores the registers, `OneInstruction` runs the instructions,
and `ExceptionHandler` resolves the page faults, after which the instruction is run again. In a
system call, and in its start-up code, a process has the kernel read and write its memory and its
registers. Each process is beside a flat processor of its own, which does what the process does.
-/

namespace Nachos

namespace TimeSharing

open Lib Mips

/-! ## The system -/

/-- What a process does. -/
inductive Event where
  | instruction
  /-- An exception that is no page fault. -/
  | trap (which : ExceptionType)
  /-- `ReadMem`, `WriteMem` and `WriteRegister` in the kernel. -/
  | readMem (addr : BitVec 32) (size : ℕ) (value : BitVec 32)
  | writeMem (addr : BitVec 32) (size : ℕ) (value : BitVec 32)
  | writeRegister (num : Fin 40) (value : BitVec 32)
  deriving DecidableEq

structure System where
  vm : VM
  registers : Registers
  /-- The member `userRegisters` of the thread of a process. -/
  userRegisters : ℕ → Registers
  /-- The thread has been run, and comes back from `SWITCH` when it is run again. -/
  begun : ℕ → Bool
  currentProcess : Option ℕ
  /-- The process is in its start-up code or in a system call. -/
  trapped : ℕ → Bool
  /-- What the processes have done, the last first. -/
  log : List (ℕ × Event)

inductive Op where
  | exec (executable : File) (stack : ℕ → Byte) (words : ℕ → BitVec 32) (created : Bool)
  | oneInstruction (stack : ℕ → Byte)
  | access (r : Request) (stack : ℕ → Byte)
  | writeRegister (num : Fin 40) (value : BitVec 32)
  /-- The process leaves the kernel. -/
  | goOn
  /-- The call of `DelayedLoad` in `CheckIfDue`. -/
  | interrupt
  | run (p : ℕ)
  | exit

/-- The machine writes to the page table of the process, and to main memory. -/
def putBack (s : VM) (p : ℕ) (m : Machine) : VM :=
  { s.setSpace p { (s.procs p).space with pageTable := m.pageTable } with
    mainMemory := m.mainMemory }

namespace System

def machine (s : System) (p : ℕ) : Machine where
  registers := s.registers
  mainMemory := s.vm.mainMemory
  pageTable := (s.vm.procs p).space.pageTable
  pageTableSize := (s.vm.procs p).space.numPages

/-- The machine has come to `m`. -/
def resume (s : System) (p : ℕ) (m : Machine) : System :=
  { s with
    vm := putBack s.vm p m
    registers := m.registers }

def note (s : System) (p : ℕ) (e : Event) : System := { s with log := (p, e) :: s.log }

/-- `ExceptionHandler`. A system call goes on in the moves that follow. -/
def exceptionHandler (s : System) (p : ℕ) (stack : ℕ → Byte) :
    ExceptionType → Except Fault System
  | .pageFault =>
      match s.vm.pageFault false p (s.registers BadVAddrReg) stack with
      | .error fault => .error fault
      | .ok (val, vm) => .ok { s with vm := if val ≠ 0 then vm.sysCallExit p else vm }
  | .syscall => .ok { s with trapped := Function.update s.trapped p true }
  | _ => .ok { s with vm := s.vm.sysCallExit p }

/-- `OneInstruction` of the process `p`, with the handler of its exception. -/
def oneInstruction (s : System) (p : ℕ) (stack : ℕ → Byte) : Except Fault System :=
  match (s.machine p).oneInstruction with
  | .error fault => .error fault
  | .ok (.finished m) => .ok ((s.resume p m).note p .instruction)
  | .ok (.exception .pageFault _ m) => (s.resume p m).exceptionHandler p stack .pageFault
  | .ok (.exception which _ m) =>
      ((s.resume p m).note p (.trap which)).exceptionHandler p stack which

/-- `RaiseException` in the kernel. -/
def raiseException (s : System) (p : ℕ) (stack : ℕ → Byte) (which : ExceptionType)
    (badVAddr : BitVec 32) : Except Fault System :=
  match delayedLoad (Function.update s.registers BadVAddrReg badVAddr) 0 0 with
  | .error fault => .error fault
  | .ok r => ({ s with registers := r } : System).exceptionHandler p stack which

/-- `ReadMem` or `WriteMem` in the kernel. -/
def access (s : System) (p : ℕ) (stack : ℕ → Byte) : Request → Except Fault System
  | .readMem addr size =>
      match (s.machine p).readMem addr size with
      | .error fault => .error fault
      | .ok (.error which) => s.raiseException p stack which addr
      | .ok (.ok (value, m)) => .ok ((s.resume p m).note p (.readMem addr size value))
  | .writeMem addr size value =>
      match (s.machine p).writeMem addr size value with
      | .error fault => .error fault
      | .ok (.error which) => s.raiseException p stack which addr
      | .ok (.ok m) => .ok ((s.resume p m).note p (.writeMem addr size value))

/-- The registers that `SaveUserState` leaves. -/
def saved (s : System) : ℕ → Registers :=
  match s.currentProcess with
  | none => s.userRegisters
  | some q => Function.update s.userRegisters q s.registers

/-- `Scheduler::Run`. A thread that runs for the first time begins with `InitRegisters`. -/
def run (s : System) (p : ℕ) : System :=
  { s with
    registers :=
      if s.begun p then s.saved p
      else UserThreads.initRegisters (s.vm.procs p).space.numPages
    userRegisters := s.saved
    begun := Function.update s.begun p true
    currentProcess := some p }

/-- A move of the current process. -/
def move (s : System) (p : ℕ) : Op → Except Fault System
  | .oneInstruction stack => if s.trapped p then .ok s else s.oneInstruction p stack
  | .access r stack => if s.trapped p then s.access p stack r else .ok s
  | .writeRegister num value =>
      if s.trapped p ∧ num ≠ 0 ∧ num.val < 37 then
        .ok (({ s with registers := Function.update s.registers num value } : System).note p
          (.writeRegister num value))
      else .ok s
  | .goOn => .ok { s with trapped := Function.update s.trapped p false }
  | .interrupt =>
      match delayedLoad s.registers 0 0 with
      | .error fault => .error fault
      | .ok r => .ok { s with registers := r }
  | .exit => .ok (if s.trapped p then { s with vm := s.vm.sysCallExit p } else s)
  | _ => .ok s

def moveCurrent (s : System) (op : Op) : Except Fault System :=
  match s.currentProcess with
  | none => .ok s
  | some p => if s.vm.Running p then s.move p op else .ok s

def step (s : System) : Op → Except Fault System
  | .exec executable stack words created =>
      match s.vm.exec executable stack words created with
      | .error fault => .error fault
      | .ok vm => .ok { s with vm := vm }
  | .run p => if s.vm.Running p then .ok (s.run p) else .ok s
  | op => s.moveCurrent op

/-- Before the first process. -/
def boot (vm : VM) (registers : Registers) (userRegisters : ℕ → Registers) : System where
  vm := vm
  registers := registers
  userRegisters := userRegisters
  begun := fun _ => false
  currentProcess := none
  trapped := fun _ => true
  log := []

/-- The registers of `p`, wherever they are. -/
def registersOf (s : System) (p : ℕ) : Registers :=
  if s.currentProcess = some p then s.registers
  else if s.begun p then s.userRegisters p
  else UserThreads.initRegisters (s.vm.procs p).space.numPages

/-- What `p` has done, the last first. -/
def events (s : System) (p : ℕ) : List Event :=
  s.log.filterMap fun x => if x.1 = p then some x.2 else none

end System

/-! ## A processor for each process -/

/-- `none` is that the processor does something else. -/
def exec (q : Processor) : Event → Option Processor
  | .instruction =>
      match q.oneInstruction with
      | .ok (.finished q') => some q'
      | _ => none
  | .trap which =>
      match q.oneInstruction with
      | .ok (.exception which') => if which' = which then some { q with loaded := 0 } else none
      | _ => none
  | .readMem addr size value =>
      if ¬ Denied q.size addr size ∧ load q.memory addr.toNat size = .ok value then some q else none
  | .writeMem addr size value =>
      if Denied q.size addr size then none
      else
        match store q.memory addr.toNat value size with
        | .error _ => none
        | .ok memory => some { q with memory := memory }
  | .writeRegister num value =>
      if num ≠ 0 ∧ num.val < 37 then
        some { q with registers := Function.update q.registers num value }
      else none

/-- The processor after the events, the last one first. -/
def replay (q : Processor) : List Event → Option Processor
  | [] => some q
  | e :: es => (replay q es).bind (exec · e)

/-- A new process alone. -/
def start (space : AddrSpace) : Processor where
  registers := UserThreads.initRegisters space.numPages
  memory := space.currentExecutable.image
  size := space.numPages * pageSize
  loaded := 0

def Event.Executes : Event → Prop
  | .instruction | .trap _ => True
  | _ => False

/-- No process has used the register of a load in the instruction after it. -/
def System.Careful (s : System) : Prop :=
  ∀ p e es q, (e :: es) <:+ s.events p → e.Executes →
    replay (start (s.vm.procs p).space) es = some q → q.Careful

/-! ## The memories -/

/-- The flat memories are where the machine keeps them, and its books are in order. -/
structure Backed (s : VM) (flat : ℕ → ℕ → Byte) : Prop where
  sound : s.Sound
  programs : s.Programs
  frames : s.numPhysPages = numPhysPages
  mirrors : s.Mirrors flat

variable {s s' : VM} {flat flat' : ℕ → ℕ → Byte} {p v : ℕ} {e : TranslationEntry}

theorem Backed.congr (h : Backed s flat) (hflat : ∀ q < s.numProcs, flat' q = flat q) :
    Backed s flat' :=
  ⟨h.sound, h.programs, h.frames,
    h.mirrors.congr rfl rfl rfl (fun _ => rfl) (fun _ => rfl) hflat⟩

/-- Nothing is lost when a process exits. -/
theorem Backed.exit (h : Backed s flat) (p : ℕ) : Backed (s.sysCallExit p) flat :=
  ⟨VM.sound_sysCallExit h.sound p, h.programs.congr rfl fun q => (VM.procs_sysCallExit s p q).1,
    h.frames, h.mirrors.congr rfl rfl rfl (fun q => (VM.procs_sysCallExit s p q).1)
      (fun q => (VM.procs_sysCallExit s p q).2) fun _ _ => rfl⟩

theorem Backed.pageFault (h : Backed s flat) (hp : p < s.numProcs) {virtualAddr : BitVec 32}
    (hv : vpnOf virtualAddr < (s.procs p).space.numPages)
    (hinvalid : (s.pte p (vpnOf virtualAddr)).valid = false) (stack : ℕ → Byte) :
    ∃ s', s.pageFault false p virtualAddr stack = .ok (0, s') ∧ Backed s' flat ∧ s.Kept s' := by
  have hpos : 0 < s.numPhysPages := by
    rw [h.frames]
    decide
  obtain ⟨s', hfault, hmirrors, -⟩ :=
    h.mirrors.pageFault h.programs h.sound hpos hp hv hinvalid stack
  obtain ⟨resident, hacc⟩ := h.sound.accounts
  obtain ⟨resident', hacc', hkept, -⟩ := hacc.pageFault h.sound.fit hp hv hinvalid hfault
  exact ⟨s', hfault, ⟨h.sound.kept ⟨resident', hacc'⟩ hkept, h.programs.kept hkept,
    hkept.numPhysPages.trans h.frames, hmirrors⟩, hkept⟩

/-- A valid page is found in its frame. -/
theorem Backed.translate_eq (h : Backed s flat) {addr : BitVec 32} {size : ℕ} (writing : Bool)
    (hp : p < s.numProcs) (hsize : Sized size) (halign : ¬ misaligned addr size)
    (hv : vpnOf addr < (s.procs p).space.numPages) (hvalid : (s.pte p (vpnOf addr)).valid = true) :
    ∃ f : ℕ, s.Mapped (p, vpnOf addr) f ∧
      translate numPhysPages (s.procs p).space.pageTable (s.procs p).space.numPages addr size
        writing = .ok (.physical (f * pageSize + offsetOf addr)
          { s.pte p (vpnOf addr) with
            use := true
            dirty := (s.pte p (vpnOf addr)).dirty || writing }) := by
  obtain ⟨resident, hacc⟩ := h.sound.accounts
  have hmap : s.Mapped (p, vpnOf addr) (s.pte p (vpnOf addr)).physicalPage := ⟨hp, hv, hvalid, rfl⟩
  obtain ⟨f, hf, hlt⟩ := hacc.exists_frame ((hacc.mapped _ _).2 hmap)
  have hf : (s.pte p (vpnOf addr)).physicalPage = f := hf
  rw [hf] at hmap
  exact ⟨f, hmap, translate_physical hsize halign hv hvalid (h.mirrors.writable p _)
    (pageFrame_eq hf) (h.frames ▸ hlt)⟩

/-- A read sets the use bit. -/
theorem Backed.touch (h : Backed s flat)
    (he : e = { s.pte p v with use := true, dirty := (s.pte p v).dirty || false }) :
    Backed (s.setEntry p v e) flat := by
  have hsame := VM.sameFrames_setEntry (s := s) (p := p) (v := v) (e := e) (by rw [he]) (by rw [he])
  have hkept := VM.kept_setEntry s p v e
  obtain ⟨resident, hacc⟩ := h.sound.accounts
  exact ⟨h.sound.kept ⟨resident, hacc.congr hsame⟩ hkept, h.programs.kept hkept, h.frames,
    h.mirrors.touch he⟩

/-- A write goes to the frame of its page. -/
theorem Backed.write (h : Backed s flat) {f off len : ℕ} (hmap : s.Mapped (p, v) f)
    (hlen : off + len ≤ pageSize) (g : ℕ → Byte)
    (he : e = { s.pte p v with use := true, dirty := (s.pte p v).dirty || true }) :
    Backed { s.setEntry p v e with
        mainMemory := splice s.mainMemory (f * pageSize + off) len g }
      (Function.update flat p (splice (flat p) (v * pageSize + off) len g)) := by
  have hsame := VM.sameFrames_setEntry (s := s) (p := p) (v := v) (e := e) (by rw [he]) (by rw [he])
  have hkept := VM.kept_setEntry s p v e
  obtain ⟨resident, hacc⟩ := h.sound.accounts
  have hkept' : s.Kept { s.setEntry p v e with
      mainMemory := splice s.mainMemory (f * pageSize + off) len g } :=
    ⟨hkept.numPhysPages, hkept.numProcs, hkept.numPages, hkept.executable, hkept.alive,
      hkept.filename, hkept.storeID, hkept.numBits, hkept.tablePtr, hkept.storeTable, hkept.log⟩
  have hsame' : s.SameFrames { s.setEntry p v e with
      mainMemory := splice s.mainMemory (f * pageSize + off) len g } :=
    hsame.trans ⟨rfl, rfl, rfl, rfl, fun _ _ => Iff.rfl⟩
  exact ⟨h.sound.kept ⟨resident, hacc.congr hsame'⟩ hkept', h.programs.kept hkept', h.frames,
    h.mirrors.write hacc hmap hlen g he⟩

/-! ## The machine of a process -/

theorem procs_putBack_of_ne {m : Machine} {q : ℕ} (hq : q ≠ p) :
    (putBack s p m).procs q = s.procs q := Function.update_of_ne hq _ _

theorem procs_putBack (s : VM) (p : ℕ) (m : Machine) (q : ℕ) :
    ((putBack s p m).procs q).space.numPages = (s.procs q).space.numPages ∧
      ((putBack s p m).procs q).space.currentExecutable = (s.procs q).space.currentExecutable ∧
        ((putBack s p m).procs q).alive = (s.procs q).alive := by
  by_cases hq : q = p
  · subst hq
    simp [putBack, VM.setSpace]
  · rw [procs_putBack_of_ne hq]
    exact ⟨rfl, rfl, rfl⟩

theorem pageTable_putBack (s : VM) (p : ℕ) (m : Machine) :
    ((putBack s p m).procs p).space.pageTable = m.pageTable := by
  simp [putBack, VM.setSpace]

/-- The machine of `p` has come to `m`, and the flat memory of `p` to `mem`. -/
structure Holds (s : VM) (flat : ℕ → ℕ → Byte) (p : ℕ) (m : Machine) (mem : ℕ → Byte) : Prop where
  backed : Backed (putBack s p m) (Function.update flat p mem)
  size : m.pageTableSize = (s.procs p).space.numPages

variable {m : Machine} {mem : ℕ → Byte}

/-- What `Translate` comes to for the machine. -/
theorem Holds.translate_cases (h : Holds s flat p m mem) (hp : p < s.numProcs) {addr : BitVec 32}
    {n : ℕ} (hn : Sized n) (writing : Bool) :
    Denied ((s.procs p).space.numPages * pageSize) addr n ∧
        translate numPhysPages m.pageTable m.pageTableSize addr n writing =
          .ok (.exception .addressError) ∨
      translate numPhysPages m.pageTable m.pageTableSize addr n writing =
        .ok (.exception .pageFault) ∨
      ¬ Denied ((s.procs p).space.numPages * pageSize) addr n ∧ ∃ (f : ℕ) (e : TranslationEntry),
        (putBack s p m).Mapped (p, vpnOf addr) f ∧
          translate numPhysPages m.pageTable m.pageTableSize addr n writing =
            .ok (.physical (f * pageSize + offsetOf addr) e) ∧
              e = { (putBack s p m).pte p (vpnOf addr) with
                use := true
                dirty := ((putBack s p m).pte p (vpnOf addr)).dirty || writing } := by
  have hpages := (procs_putBack s p m p).1
  have htable := pageTable_putBack s p m
  rw [h.size]
  by_cases halign : misaligned addr n
  · refine .inl ⟨.inl halign, ?_⟩
    rw [translate, if_pos halign]
  by_cases hv : vpnOf addr < (s.procs p).space.numPages
  · have hallows : ¬ Denied ((s.procs p).space.numPages * pageSize) addr n :=
      not_or.2 ⟨halign, Nat.not_le.2 (VM.vpnOf_lt_iff.1 hv)⟩
    cases hvalid : (m.pageTable (vpnOf addr)).valid with
    | false => exact .inr (.inl (translate_pageFault halign hv hvalid))
    | true =>
        refine .inr (.inr ⟨hallows, ?_⟩)
        obtain ⟨f, hmap, ht⟩ := h.backed.translate_eq writing hp hn halign (hpages ▸ hv)
          ((congrArg (fun t : ℕ → TranslationEntry => (t (vpnOf addr)).valid) htable).trans hvalid)
        rw [htable, hpages] at ht
        exact ⟨f, _, hmap, ht, rfl⟩
  · exact .inl ⟨.inr (Nat.not_lt.1 (mt VM.vpnOf_lt_iff.2 hv)),
      translate_addressError halign (Nat.not_lt.1 hv)⟩

/-- The machine has set the bits of an entry. -/
theorem putBack_update (s : VM) (p : ℕ) (m : Machine) (mainMemory : ℕ → Byte) (v : ℕ)
    (e : TranslationEntry) :
    putBack s p { m with
        mainMemory := mainMemory
        pageTable := Function.update m.pageTable v e } =
      { (putBack s p m).setEntry p v e with mainMemory := mainMemory } := by
  simp [putBack, VM.setEntry, VM.setSpace]

theorem backing (flat : ℕ → ℕ → Byte) (hp : p < s.numProcs) :
    Backing (Holds s flat p) ((s.procs p).space.numPages * pageSize) where
  registers _ h := ⟨h.backed, h.size⟩
  read {m mem n} addr h hn := by
    obtain ⟨hdenied, ht⟩ | ht | ⟨hallows, f, e, hmap, ht, he⟩ := h.translate_cases hp hn false
    · exact .inl ⟨hdenied, by rw [Machine.readMem, ht]⟩
    · exact .inr (.inl (by rw [Machine.readMem, ht]))
    · refine .inr (.inr ⟨hallows, ?_⟩)
      have hload : load m.mainMemory (f * pageSize + offsetOf addr) n = load mem addr.toNat n := by
        have hoff := offset_add_size_le hn fun halign => hallows (.inl halign)
        refine load_congr fun k hk => ?_
        have hframe := h.backed.mirrors.frame p _ f hmap (offsetOf addr + k) (by omega)
        rw [Int.toNat_natCast, ← Nat.add_assoc, ← Nat.add_assoc, virtAddr_eq,
          Function.update_self] at hframe
        exact hframe
      obtain ⟨value, hvalue⟩ := load_eq_ok hn m.mainMemory (f * pageSize + offsetOf addr)
      refine ⟨value, _, readMem_eq ht hvalue, hload.symm.trans hvalue, ?_, h.size⟩
      exact (putBack_update s p m m.mainMemory _ e).symm ▸ h.backed.touch he
  write {m mem n} addr value h hn := by
    obtain ⟨hdenied, ht⟩ | ht | ⟨hallows, f, e, hmap, ht, he⟩ := h.translate_cases hp hn true
    · exact .inl ⟨hdenied, by rw [Machine.writeMem, ht]⟩
    · exact .inr (.inl (by rw [Machine.writeMem, ht]))
    · refine .inr (.inr ⟨hallows, ?_⟩)
      have hoff := offset_add_size_le hn fun halign => hallows (.inl halign)
      have hstore : ∀ (b : ℕ → Byte) a, store b a value n =
          .ok (splice b a n fun k => value.extractLsb' (8 * k) 8) := fun b a => if_pos hn
      refine ⟨_, { m with
        mainMemory := splice m.mainMemory (f * pageSize + offsetOf addr) n fun k =>
          value.extractLsb' (8 * k) 8
        pageTable := Function.update m.pageTable (vpnOf addr) e }, ?_, hstore _ _, ?_, h.size⟩
      · simp only [Machine.writeMem, ht, hstore]
      have hwrite := h.backed.write hmap hoff (fun k => value.extractLsb' (8 * k) 8) he
      rw [virtAddr_eq, Function.update_self, Function.update_idem] at hwrite
      rw [putBack_update]
      exact hwrite

/-! ## The system beside the processors -/

/-- The processors do what the processes have done. -/
structure Shared (s : System) (P : ℕ → Processor) : Prop where
  backed : Backed s.vm fun q => (P q).memory
  size : ∀ q < s.vm.numProcs, (P q).size = (s.vm.procs q).space.numPages * pageSize
  settles : ∀ q < s.vm.numProcs, Settles (s.registersOf q) (P q)
  /-- No load is pending in the kernel. -/
  idle : ∀ q < s.vm.numProcs, s.trapped q = true → s.registersOf q LoadReg = 0
  current : ∀ q, s.currentProcess = some q → s.begun q = true
  fresh : ∀ q, s.vm.numProcs ≤ q → s.begun q = false
  logged : ∀ x ∈ s.log, x.1 < s.vm.numProcs
  replays : ∀ q < s.vm.numProcs, replay (start (s.vm.procs q).space) (s.events q) = some (P q)

/-- What a move of `p` leaves alone. -/
structure Moved (s : System) (p : ℕ) (s' : System) : Prop where
  numProcs : s'.vm.numProcs = s.vm.numProcs
  numPages : ∀ q, (s'.vm.procs q).space.numPages = (s.vm.procs q).space.numPages
  executable : ∀ q,
    (s'.vm.procs q).space.currentExecutable = (s.vm.procs q).space.currentExecutable
  userRegisters : s'.userRegisters = s.userRegisters
  begun : s'.begun = s.begun
  currentProcess : s'.currentProcess = s.currentProcess
  trapped : ∀ q, q ≠ p → s'.trapped q = s.trapped q

theorem start_congr {space space' : AddrSpace} (hpages : space'.numPages = space.numPages)
    (hexe : space'.currentExecutable = space.currentExecutable) : start space' = start space := by
  rw [start, start, hpages, hexe]

variable {t t' : System} {P : ℕ → Processor} {q : Processor} {act : Event}

theorem events_self (hlog : t'.log = (p, act) :: t.log) : t'.events p = act :: t.events p := by
  rw [System.events, hlog, List.filterMap_cons, if_pos rfl]
  rfl

theorem events_other (hlog : t'.log = (p, act) :: t.log) {r : ℕ} (hr : r ≠ p) :
    t'.events r = t.events r := by
  rw [System.events, hlog, List.filterMap_cons, if_neg hr.symm]
  rfl

theorem events_congr (hlog : t'.log = t.log) (r : ℕ) : t'.events r = t.events r := by
  rw [System.events, hlog]
  rfl

theorem registersOf_current (hcur : t.currentProcess = some p) : t.registersOf p = t.registers :=
  if_pos hcur

/-- The processor of the current process makes its move with it. -/
theorem Shared.moved (h : Shared t P) (hcur : t.currentProcess = some p) (hmoved : Moved t p t')
    (hp : p < t.vm.numProcs)
    (hbacked : Backed t'.vm (Function.update (fun r => (P r).memory) p q.memory))
    (hsettles : Settles t'.registers q) (hsize : q.size = (P p).size)
    (hidle : t'.trapped p = true → t'.registers LoadReg = 0)
    (hlog : t'.log = t.log ∧ q = P p ∨
      ∃ act, t'.log = (p, act) :: t.log ∧ exec (P p) act = some q) :
    Shared t' (Function.update P p q) := by
  have hcur' := hmoved.currentProcess.trans hcur
  have hother : ∀ r, r ≠ p → t'.registersOf r = t.registersOf r := by
    intro r hr
    have hne : t.currentProcess ≠ some r := fun heq => hr (Option.some.inj (heq.symm.trans hcur))
    rw [System.registersOf, System.registersOf, hmoved.currentProcess, hmoved.begun,
      hmoved.userRegisters, hmoved.numPages, if_neg hne, if_neg hne]
  have hstart : ∀ r, start (t'.vm.procs r).space = start (t.vm.procs r).space := fun r =>
    start_congr (hmoved.numPages r) (hmoved.executable r)
  have hevents : ∀ r, r ≠ p → t'.events r = t.events r := by
    intro r hr
    obtain ⟨hlog, -⟩ | ⟨act, hlog, -⟩ := hlog
    · exact events_congr hlog r
    · exact events_other hlog hr
  constructor
  · refine hbacked.congr fun r _ => ?_
    by_cases hr : r = p
    · rw [hr, Function.update_self, Function.update_self]
    · rw [Function.update_of_ne hr, Function.update_of_ne hr]
  · intro r hlt
    rw [hmoved.numPages]
    rw [hmoved.numProcs] at hlt
    by_cases hr : r = p
    · rw [hr, Function.update_self, hsize, h.size p hp]
    · rw [Function.update_of_ne hr, h.size r hlt]
  · intro r hlt
    rw [hmoved.numProcs] at hlt
    by_cases hr : r = p
    · rw [hr, Function.update_self, registersOf_current hcur']
      exact hsettles
    · rw [Function.update_of_ne hr, hother r hr]
      exact h.settles r hlt
  · intro r hlt htrapped
    rw [hmoved.numProcs] at hlt
    by_cases hr : r = p
    · subst hr
      rw [registersOf_current hcur']
      exact hidle htrapped
    · rw [hother r hr]
      exact h.idle r hlt (hmoved.trapped r hr ▸ htrapped)
  · intro r hr
    rw [hmoved.currentProcess] at hr
    rw [hmoved.begun]
    exact h.current r hr
  · intro r hle
    rw [hmoved.numProcs] at hle
    rw [hmoved.begun]
    exact h.fresh r hle
  · intro x hx
    rw [hmoved.numProcs]
    obtain ⟨hlog, -⟩ | ⟨act, hlog, -⟩ := hlog
    · exact h.logged x (hlog ▸ hx)
    · rw [hlog] at hx
      rcases List.mem_cons.1 hx with rfl | hx
      · exact hp
      · exact h.logged x hx
  · intro r hlt
    rw [hmoved.numProcs] at hlt
    by_cases hr : r = p
    · subst hr
      rw [hstart, Function.update_self]
      obtain ⟨hlog, rfl⟩ | ⟨act, hlog, hexec⟩ := hlog
      · rw [events_congr hlog]
        exact h.replays r hlt
      · rw [events_self hlog, replay, h.replays r hlt]
        exact hexec
    · rw [hstart, hevents r hr, Function.update_of_ne hr]
      exact h.replays r hlt

/-! ## The moves of a process -/

theorem Moved.refl (t : System) (p : ℕ) : Moved t p t :=
  ⟨rfl, fun _ => rfl, fun _ => rfl, rfl, rfl, rfl, fun _ _ => rfl⟩

theorem Moved.trans {t'' : System} (h : Moved t p t') (h' : Moved t' p t'') : Moved t p t'' :=
  ⟨h'.numProcs.trans h.numProcs, fun q => (h'.numPages q).trans (h.numPages q),
    fun q => (h'.executable q).trans (h.executable q), h'.userRegisters.trans h.userRegisters,
    h'.begun.trans h.begun, h'.currentProcess.trans h.currentProcess,
    fun q hq => (h'.trapped q hq).trans (h.trapped q hq)⟩

theorem Moved.resume (t : System) (p : ℕ) (m : Machine) : Moved t p (t.resume p m) :=
  ⟨rfl, fun q => (procs_putBack t.vm p m q).1, fun q => (procs_putBack t.vm p m q).2.1, rfl, rfl,
    rfl, fun _ _ => rfl⟩

theorem Moved.note (h : Moved t p t') (act : Event) : Moved t p (t'.note p act) :=
  ⟨h.numProcs, h.numPages, h.executable, h.userRegisters, h.begun, h.currentProcess, h.trapped⟩

theorem Moved.exit (t : System) (p : ℕ) : Moved t p { t with vm := t.vm.sysCallExit p } :=
  ⟨rfl, fun q => by rw [(VM.procs_sysCallExit t.vm p q).1],
    fun q => by rw [(VM.procs_sysCallExit t.vm p q).1], rfl, rfl, rfl, fun _ _ => rfl⟩

/-- The system has gone on from `t` to `t'`. -/
structure Extends (t t' : System) : Prop where
  numProcs : t.vm.numProcs ≤ t'.vm.numProcs
  start : ∀ q < t.vm.numProcs, start (t'.vm.procs q).space = start (t.vm.procs q).space
  log : t.log <:+ t'.log

theorem Extends.refl (t : System) : Extends t t := ⟨le_rfl, fun _ _ => rfl, List.suffix_refl _⟩

theorem Moved.extends (h : Moved t p t') (hlog : t.log <:+ t'.log) : Extends t t' :=
  ⟨h.numProcs.ge, fun q _ => start_congr (h.numPages q) (h.executable q), hlog⟩

/-- What the handler of an exception does: a page fault is resolved, and other exceptions end the
process or leave it in its system call. -/
theorem exceptionHandler_ok (which : ExceptionType) (stack : ℕ → Byte) (hbacked : Backed t.vm flat)
    (hp : p < t.vm.numProcs)
    (hmissing : which = .pageFault →
      vpnOf (t.registers BadVAddrReg) < (t.vm.procs p).space.numPages ∧
        (t.vm.pte p (vpnOf (t.registers BadVAddrReg))).valid = false) :
    ∃ t', t.exceptionHandler p stack which = .ok t' ∧ Backed t'.vm flat ∧ Moved t p t' ∧
      t'.registers = t.registers ∧ t'.log = t.log := by
  have hexit : ∃ t', (.ok { t with vm := t.vm.sysCallExit p } : Except Fault System) = .ok t' ∧
      Backed t'.vm flat ∧ Moved t p t' ∧ t'.registers = t.registers ∧ t'.log = t.log :=
    ⟨_, rfl, hbacked.exit p, .exit t p, rfl, rfl⟩
  cases which with
  | pageFault =>
      obtain ⟨hv, hinvalid⟩ := hmissing rfl
      obtain ⟨vm, hfault, hbacked', hkept⟩ := hbacked.pageFault hp hv hinvalid stack
      refine ⟨{ t with vm := vm }, ?_, hbacked', ?_, rfl, rfl⟩
      · simp only [System.exceptionHandler, hfault, ne_eq, not_true_eq_false, if_false]
      · exact ⟨hkept.numProcs, hkept.numPages, hkept.executable, rfl, rfl, rfl, fun _ _ => rfl⟩
  | syscall =>
      exact ⟨_, rfl, hbacked, ⟨rfl, fun _ => rfl, fun _ => rfl, rfl, rfl, rfl,
        fun q hq => Function.update_of_ne hq _ _⟩, rfl, rfl⟩
  | readOnly => exact hexit
  | busError => exact hexit
  | addressError => exact hexit
  | overflow => exact hexit
  | illegalInstr => exact hexit

theorem putBack_machine (t : System) (p : ℕ) : putBack t.vm p (t.machine p) = t.vm := by
  simp only [putBack, VM.setSpace, System.machine, Function.update_eq_self]

theorem Shared.holds (h : Shared t P) (p : ℕ) :
    Holds t.vm (fun r => (P r).memory) p (t.machine p) (P p).memory := by
  refine ⟨?_, rfl⟩
  rw [putBack_machine, Function.update_eq_self]
  exact h.backed

/-- The handler finds the page that is missing in the page table of the process. -/
theorem missing_resume {badVAddr : BitVec 32}
    (hsize : m.pageTableSize = (t.vm.procs p).space.numPages) (hmissing : m.Missing badVAddr) :
    vpnOf badVAddr < ((t.resume p m).vm.procs p).space.numPages ∧
      ((t.resume p m).vm.pte p (vpnOf badVAddr)).valid = false := by
  obtain ⟨hv, hinvalid⟩ := hmissing
  constructor
  · change _ < ((putBack t.vm p m).procs p).space.numPages
    rwa [(procs_putBack t.vm p m p).1, ← hsize]
  · change (((putBack t.vm p m).procs p).space.pageTable _).valid = false
    rwa [pageTable_putBack]

/-- An instruction of the current process: the flat processor does it too, or it has faulted and
everything is as before. -/
theorem Shared.oneInstruction (h : Shared t P) (hcur : t.currentProcess = some p)
    (hp : p < t.vm.numProcs) (hmode : t.trapped p = false) {stack : ℕ → Byte}
    (hs : t.oneInstruction p stack = .ok t') :
    Extends t t' ∧ ((∀ act, act.Executes → t'.log = (p, act) :: t.log → (P p).Careful) →
      ∃ q, Shared t' (Function.update P p q)) := by
  have hB := backing (fun r => (P r).memory) hp
  rw [← h.size p hp] at hB
  have hholds := h.holds p
  have hsettles : Settles (t.machine p).registers (P p) := by
    have := h.settles p hp
    rwa [registersOf_current hcur] at this
  unfold System.oneInstruction at hs
  cases hrun : (t.machine p).oneInstruction with
  | error fault =>
      rw [hrun] at hs
      cases hs
  | ok ending =>
      rw [hrun] at hs
      have hsimulates := hB.oneInstruction_simulates hholds hsettles
      rw [hrun] at hsimulates
      cases ending with
      | finished m =>
          cases hs
          have hmoved := (Moved.resume t p m).note .instruction
          refine ⟨hmoved.extends (List.suffix_cons _ _), fun hcareful => ?_⟩
          obtain ⟨q, hq, hholds', hsettles', hsize⟩ :=
            hsimulates (hcareful .instruction trivial rfl)
          refine ⟨q, h.moved hcur hmoved hp hholds'.backed hsettles' hsize (fun htrapped => ?_)
            (.inr ⟨.instruction, rfl, by rw [exec, hq]⟩)⟩
          exact absurd (hmode.symm.trans htrapped) (by decide)
      | exception which badVAddr m =>
          obtain ⟨hholds', hmissing⟩ := hB.oneInstruction_undone hholds which badVAddr m hrun
          have hentered := oneInstruction_entered hrun
          have hsettles' := hsettles.entered hentered
          have hbad : m.registers BadVAddrReg = badVAddr := hentered.badVAddr fun heq =>
            absurd (heq ▸ hsettles.general) (by decide)
          have hbacked : Backed (t.resume p m).vm fun r => (P r).memory := by
            have := hholds'.backed
            rwa [Function.update_eq_self] at this
          by_cases hwhich : which = .pageFault
          · subst hwhich
            obtain ⟨t₁, ht₁, hbacked₁, hmoved₁, hregs, hlog⟩ := exceptionHandler_ok
              (t := t.resume p m) .pageFault stack hbacked hp fun _ => by
                change vpnOf (m.registers BadVAddrReg) < _ ∧
                  ((t.resume p m).vm.pte p (vpnOf (m.registers BadVAddrReg))).valid = false
                rw [hbad]
                exact missing_resume hholds'.size (hmissing rfl)
            cases ht₁.symm.trans hs
            have hmoved := (Moved.resume t p m).trans hmoved₁
            refine ⟨hmoved.extends (hlog ▸ List.suffix_refl _), fun _ => ⟨P p, ?_⟩⟩
            refine h.moved hcur hmoved hp ?_ (hregs ▸ hsettles') rfl ?_ (.inl ⟨hlog, rfl⟩)
            · rwa [Function.update_eq_self]
            · intro _
              rw [hregs]
              exact hentered.loadReg
          · have hs : ((t.resume p m).note p (.trap which)).exceptionHandler p stack which =
                .ok t' := by
              cases which <;> first | exact absurd rfl hwhich | exact hs
            obtain ⟨t₁, ht₁, hbacked₁, hmoved₁, hregs, hlog⟩ := exceptionHandler_ok
              (t := (t.resume p m).note p (.trap which)) which stack hbacked hp
              fun heq => absurd heq hwhich
            cases ht₁.symm.trans hs
            have hmoved := ((Moved.resume t p m).note (.trap which)).trans hmoved₁
            refine ⟨hmoved.extends (hlog ▸ List.suffix_cons _ _), fun hcareful => ?_⟩
            have hq : (P p).oneInstruction = .ok (.exception which) :=
              (hsimulates (hcareful (.trap which) trivial hlog)).resolve_left hwhich
            refine ⟨{ P p with loaded := 0 }, h.moved hcur hmoved hp ?_ ?_ rfl ?_
              (.inr ⟨.trap which, hlog, ?_⟩)⟩
            · change Backed t'.vm (Function.update (fun r => (P r).memory) p (P p).memory)
              rwa [Function.update_eq_self]
            · rw [hregs]
              refine ⟨hsettles'.resumed, hsettles'.zero, hsettles'.zeroSettled, .inl ?_⟩
              exact congrArg BitVec.toNat hentered.loadReg
            · intro _
              rw [hregs]
              exact hentered.loadReg
            · rw [exec, hq]
              exact if_pos rfl

/-- The kernel resolves every exception. -/
theorem Shared.stops (h : Shared t P) (hcur : t.currentProcess = some p) (hp : p < t.vm.numProcs)
    {stack : ℕ → Byte} {fault : Fault} (hs : t.oneInstruction p stack = .error fault) :
    (t.machine p).oneInstruction = .error fault := by
  have hB := backing (fun r => (P r).memory) hp
  have hsettles : Settles (t.machine p).registers (P p) := by
    have := h.settles p hp
    rwa [registersOf_current hcur] at this
  unfold System.oneInstruction at hs
  cases hrun : (t.machine p).oneInstruction with
  | error fault' =>
      rw [hrun] at hs
      cases hs
      rfl
  | ok ending =>
      rw [hrun] at hs
      cases ending with
      | finished m => cases hs
      | exception which badVAddr m =>
          obtain ⟨hholds, hmissing⟩ := hB.oneInstruction_undone (h.holds p) which badVAddr m hrun
          have hbad : m.registers BadVAddrReg = badVAddr :=
            (oneInstruction_entered hrun).badVAddr fun heq =>
              absurd (heq ▸ hsettles.general) (by decide)
          have hok : ∀ t₁ : System, t₁.vm = (t.resume p m).vm → t₁.registers = m.registers →
              ∃ t', t₁.exceptionHandler p stack which = .ok t' := by
            intro t₁ hvm hregs
            obtain ⟨t', ht', -⟩ := exceptionHandler_ok (t := t₁) which stack
              (by rw [hvm]; exact hholds.backed) (by rw [hvm]; exact hp) fun hwhich => by
                rw [hvm, hregs, hbad]
                exact missing_resume hholds.size (hmissing hwhich)
            exact ⟨t', ht'⟩
          obtain ⟨t', ht'⟩ := hok (t.resume p m) rfl rfl
          obtain ⟨t'', ht''⟩ := hok ((t.resume p m).note p (.trap which)) rfl rfl
          cases which <;> first | cases ht'.symm.trans hs | cases ht''.symm.trans hs

/-- A request of the kernel has ended in an exception. -/
theorem Shared.raiseException (h : Shared t P) (hcur : t.currentProcess = some p)
    (hp : p < t.vm.numProcs) {which : ExceptionType} {badVAddr : BitVec 32} (stack : ℕ → Byte)
    (hmissing : which = .pageFault → (t.machine p).Missing badVAddr) :
    ∃ t', t.raiseException p stack which badVAddr = .ok t' ∧ Extends t t' ∧ Shared t' P := by
  have hsettles : Settles (t.machine p).registers (P p) := by
    have := h.settles p hp
    rwa [registersOf_current hcur] at this
  have hlt : ((t.machine p).registers LoadReg).toNat < 40 := by
    have := hsettles.general
    omega
  obtain ⟨m, hraise⟩ := raiseException_ok hlt which badVAddr
  obtain ⟨-, -, hentered⟩ := raiseException_entered hraise
  have hload : (Function.update t.registers BadVAddrReg badVAddr LoadReg).toNat < 40 := by
    rw [Function.update_of_ne (by decide)]
    exact hlt
  obtain ⟨r, hr, -⟩ := delayedLoad_ok hload 0 0
  have hm : m = { t.machine p with registers := r } := by
    have hr' : delayedLoad (Function.update (t.machine p).registers BadVAddrReg badVAddr) 0 0 =
      .ok r := hr
    rw [Machine.raiseException, hr'] at hraise
    cases hraise
    rfl
  subst hm
  have hbad : r BadVAddrReg = badVAddr := hentered.badVAddr fun heq =>
    absurd (heq ▸ hsettles.general) (by decide)
  obtain ⟨t', ht', hbacked, hmoved, hregs, hlog⟩ := exceptionHandler_ok
    (t := { t with registers := r }) which stack h.backed hp fun hwhich => by
      change vpnOf (r BadVAddrReg) < _ ∧ (t.vm.pte p (vpnOf (r BadVAddrReg))).valid = false
      rw [hbad]
      exact hmissing hwhich
  have hframe : Moved t p { t with registers := r } :=
    ⟨rfl, fun _ => rfl, fun _ => rfl, rfl, rfl, rfl, fun _ _ => rfl⟩
  refine ⟨t', by rw [System.raiseException, hr]; exact ht',
    (hframe.trans hmoved).extends (hlog ▸ List.suffix_refl _), ?_⟩
  have hmoved' := h.moved (q := P p) hcur (hframe.trans hmoved) hp ?_ ?_ rfl ?_ (.inl ⟨hlog, rfl⟩)
  · rwa [Function.update_eq_self] at hmoved'
  · rwa [Function.update_eq_self]
  · rw [hregs]
    exact hsettles.entered hentered
  · intro _
    rw [hregs]
    exact hentered.loadReg

/-- The kernel reads and writes what the flat processor has in its memory. -/
theorem Shared.access (h : Shared t P) (hcur : t.currentProcess = some p) (hp : p < t.vm.numProcs)
    (hmode : t.trapped p = true) {r : Request} (hsize : Sized r.size) (stack : ℕ → Byte) :
    ∃ t' q, t.access p stack r = .ok t' ∧ Extends t t' ∧ Shared t' (Function.update P p q) := by
  have hB := backing (fun r => (P r).memory) hp
  rw [← h.size p hp] at hB
  have hsettles := h.settles p hp
  have hidle := h.idle p hp hmode
  rw [registersOf_current hcur] at hsettles hidle
  have hraise : ∀ which badVAddr, (which = .pageFault → (t.machine p).Missing badVAddr) →
      ∃ t' q, t.raiseException p stack which badVAddr = .ok t' ∧ Extends t t' ∧
        Shared t' (Function.update P p q) := by
    intro which badVAddr hmissing
    obtain ⟨t', ht', hextends, hshared⟩ := h.raiseException hcur hp stack hmissing
    refine ⟨t', P p, ht', hextends, ?_⟩
    rwa [Function.update_eq_self]
  cases r with
  | readMem addr size =>
      replace hsize : Sized size := hsize
      obtain ⟨-, hread⟩ | hread | ⟨hallows, value, m, hread, hload, hholds⟩ :=
        hB.read addr (h.holds p) hsize
      · simp only [System.access, hread]
        exact hraise .addressError addr fun hwhich => absurd hwhich (by decide)
      · simp only [System.access, hread]
        exact hraise .pageFault addr fun _ => missing_of_readMem hread
      · have hregs : m.registers = t.registers := (readMem_frame hread).2
        refine ⟨(t.resume p m).note p (.readMem addr size value), P p,
          by simp only [System.access, hread],
          ((Moved.resume t p m).note _).extends (List.suffix_cons _ _), ?_⟩
        refine h.moved hcur ((Moved.resume t p m).note _) hp hholds.backed ?_ rfl ?_
          (.inr ⟨_, rfl, if_pos ⟨hallows, hload⟩⟩)
        · change Settles m.registers _
          rwa [hregs]
        · intro _
          change m.registers LoadReg = 0
          rw [hregs, hidle]
  | writeMem addr size value =>
      replace hsize : Sized size := hsize
      obtain ⟨-, hwrite⟩ | hwrite | ⟨hallows, memory, m, hwrite, hstore, hholds⟩ :=
        hB.write addr value (h.holds p) hsize
      · simp only [System.access, hwrite]
        exact hraise .addressError addr fun hwhich => absurd hwhich (by decide)
      · simp only [System.access, hwrite]
        exact hraise .pageFault addr fun _ => missing_of_writeMem hwrite
      · have hregs : m.registers = t.registers := writeMem_registers hwrite
        refine ⟨(t.resume p m).note p (.writeMem addr size value), { P p with memory := memory },
          by simp only [System.access, hwrite],
          ((Moved.resume t p m).note _).extends (List.suffix_cons _ _), ?_⟩
        refine h.moved hcur ((Moved.resume t p m).note _) hp hholds.backed ?_ rfl ?_
          (.inr ⟨_, rfl, ?_⟩)
        · change Settles m.registers _
          rw [hregs]
          exact ⟨hsettles.resumed, hsettles.zero, hsettles.zeroSettled, hsettles.pending⟩
        · intro _
          change m.registers LoadReg = 0
          rw [hregs, hidle]
        · rw [exec, if_neg hallows, hstore]

/-- The kernel writes a register. -/
theorem Shared.writeRegister (h : Shared t P) (hcur : t.currentProcess = some p)
    (hp : p < t.vm.numProcs) (hmode : t.trapped p = true) {num : Fin 40} (hzero : num ≠ 0)
    (hnum : num.val < 37) (value : BitVec 32) :
    ∃ q, Shared (({ t with registers := Function.update t.registers num value } : System).note p
      (.writeRegister num value)) (Function.update P p q) := by
  have hsettles := h.settles p hp
  have hidle := h.idle p hp hmode
  rw [registersOf_current hcur] at hsettles hidle
  refine ⟨_, h.moved hcur ⟨rfl, fun _ => rfl, fun _ => rfl, rfl, rfl, rfl, fun _ _ => rfl⟩ hp ?_
    (hsettles.update hidle hzero hnum value) rfl ?_ (.inr ⟨_, rfl, if_pos ⟨hzero, hnum⟩⟩)⟩
  · change Backed t.vm (Function.update (fun r => (P r).memory) p (P p).memory)
    rw [Function.update_eq_self]
    exact h.backed
  · intro _
    exact (Function.update_of_ne (ne_of_val_lt hnum (by decide)).symm _ _).trans hidle

/-- The pending load of the current process is completed early. -/
theorem Shared.interrupt (h : Shared t P) (hcur : t.currentProcess = some p)
    (hp : p < t.vm.numProcs) :
    ∃ r, delayedLoad t.registers 0 0 = .ok r ∧
      Shared { t with registers := r } (Function.update P p (P p)) := by
  have hsettles := h.settles p hp
  rw [registersOf_current hcur] at hsettles
  have hlt : (t.registers LoadReg).toNat < 40 := by
    have := hsettles.general
    omega
  obtain ⟨r, hr, hdone⟩ := delayedLoad_ok hlt 0 0
  refine ⟨r, hr, h.moved hcur ⟨rfl, fun _ => rfl, fun _ => rfl, rfl, rfl, rfl, fun _ _ => rfl⟩ hp ?_
    (hsettles.done hdone) rfl (fun _ => hdone.loadReg) (.inl ⟨rfl, rfl⟩)⟩
  rw [Function.update_eq_self]
  exact h.backed

/-- The process leaves the kernel. -/
theorem Shared.goOn (h : Shared t P) (hcur : t.currentProcess = some p) (hp : p < t.vm.numProcs) :
    Shared { t with trapped := Function.update t.trapped p false } (Function.update P p (P p)) := by
  have hsettles := h.settles p hp
  rw [registersOf_current hcur] at hsettles
  refine h.moved hcur ⟨rfl, fun _ => rfl, fun _ => rfl, rfl, rfl, rfl,
    fun q hq => Function.update_of_ne hq _ _⟩ hp ?_ hsettles rfl ?_ (.inl ⟨rfl, rfl⟩)
  · rw [Function.update_eq_self]
    exact h.backed
  · intro htrapped
    exact absurd ((Function.update_self p false t.trapped).symm.trans htrapped) (by decide)

theorem Shared.exit (h : Shared t P) (hcur : t.currentProcess = some p) (hp : p < t.vm.numProcs)
    (hmode : t.trapped p = true) :
    Shared { t with vm := t.vm.sysCallExit p } (Function.update P p (P p)) := by
  have hsettles := h.settles p hp
  have hidle := h.idle p hp hmode
  rw [registersOf_current hcur] at hsettles hidle
  refine h.moved hcur (.exit t p) hp ?_ hsettles rfl (fun _ => hidle) (.inl ⟨rfl, rfl⟩)
  rw [Function.update_eq_self]
  exact h.backed.exit p

/-- A context switch leaves the registers of every process what they are. -/
theorem Shared.registersOf_run (h : Shared t P) (p r : ℕ) :
    (t.run p).registersOf r = t.registersOf r := by
  have hsaved : ∀ r, t.begun r = true → t.saved r = t.registersOf r := by
    intro r hbegun
    cases hcur : t.currentProcess with
    | none => simp [System.saved, System.registersOf, hcur, hbegun]
    | some q =>
        by_cases hr : r = q
        · subst hr
          simp [System.saved, System.registersOf, hcur]
        · simp [System.saved, System.registersOf, hcur, hbegun, hr, Ne.symm hr]
  have hnew : ∀ r, t.begun r = false →
      t.registersOf r = UserThreads.initRegisters (t.vm.procs r).space.numPages := by
    intro r hbegun
    have hne : t.currentProcess ≠ some r := fun hcur =>
      absurd ((h.current r hcur).symm.trans hbegun) (by decide)
    simp [System.registersOf, hne, hbegun]
  by_cases hr : r = p
  · subst hr
    rw [registersOf_current rfl]
    cases hbegun : t.begun r with
    | true => simp only [System.run, hbegun, if_true, hsaved r hbegun]
    | false => simp [System.run, hbegun, hnew r hbegun]
  · have hne : (t.run p).currentProcess ≠ some r := fun heq => hr (Option.some.inj heq).symm
    rw [System.registersOf, if_neg hne]
    cases hbegun : t.begun r with
    | true => simp [System.run, hr, hbegun, hsaved r hbegun]
    | false => simp [System.run, hr, hbegun, hnew r hbegun]

theorem Shared.run (h : Shared t P) (hp : p < t.vm.numProcs) : Shared (t.run p) P where
  backed := h.backed
  size := h.size
  settles r hr := by
    rw [h.registersOf_run]
    exact h.settles r hr
  idle r hr htrapped := by
    rw [h.registersOf_run]
    exact h.idle r hr htrapped
  current r hr := by
    cases Option.some.inj hr
    exact Function.update_self _ _ _
  fresh r hr := by
    have hne : r ≠ p := fun heq => absurd hp (Nat.not_lt.2 (heq ▸ hr))
    exact (Function.update_of_ne hne _ _).trans (h.fresh r hr)
  logged := h.logged
  replays := h.replays

theorem initRegisters_settles (space : AddrSpace) :
    Settles (UserThreads.initRegisters space.numPages) (start space) := by
  have hload : UserThreads.initRegisters space.numPages LoadReg = 0 := rfl
  have hzero : UserThreads.initRegisters space.numPages 0 = 0 := rfl
  refine ⟨⟨?_, hload, ?_, fun _ _ _ _ => rfl⟩, hzero, hzero, .inl ?_⟩
  · rw [hload]
    decide
  · intro i hi0 _ hval
    rw [hload] at hval
    exact absurd (Fin.ext hval) hi0
  · rw [hload]
    rfl

/-- A new process has its initial image. -/
theorem Backed.started (h : Backed s flat) {executable : File} (hload : executable.Loadable)
    {stack : ℕ → Byte} {words : ℕ → BitVec 32} {created : Bool} {space : AddrSpace} {pages : BitMap}
    {i : ℕ} {storeTable tablePtr : Table ℕ}
    (hexec : s.exec executable stack words created =
      .ok (s.started space pages i storeTable tablePtr))
    (hinit : AddrSpace.initialize executable stack = some space)
    (hclear : ∀ j < space.numPages, pages.bit j = false)
    (hne : ∀ q < s.numProcs, (s.procs q).backingStore.storeID ≠ i) :
    Backed (s.started space pages i storeTable tablePtr)
      (Function.update flat s.numProcs executable.image) := by
  obtain ⟨hmagic, hspace⟩ := VM.initialize_eq hinit
  have hrange := VM.initialize_range hload hinit
  rw [readHeader_eq hload.header] at hmagic
  have hexe : space.currentExecutable = executable := by rw [hspace]
  have hlast : (s.started space pages i storeTable tablePtr).procs s.numProcs =
      { space := space
        backingStore :=
          { pages := pages
            filename := BackingStore.filenameOf i
            storeID := i }
        alive := true } := Function.update_self ..
  refine ⟨h.sound.exec hexec, ⟨?_, ?_, ?_, ?_⟩, h.frames, ?_⟩
  · intro q hq
    rcases Nat.lt_succ_iff_lt_or_eq.1 hq with hlt | rfl
    · rw [VM.procs_started_of_lt hlt]
      exact h.programs.loadable q hlt
    · rw [hlast, hexe]
      exact hload
  · intro q hq
    rcases Nat.lt_succ_iff_lt_or_eq.1 hq with hlt | rfl
    · rw [VM.procs_started_of_lt hlt]
      exact h.programs.magic q hlt
    · rw [hlast, hexe]
      exact hmagic
  · intro q hq
    rcases Nat.lt_succ_iff_lt_or_eq.1 hq with hlt | rfl
    · rw [VM.procs_started_of_lt hlt]
      exact h.programs.range q hlt
    · rw [hlast]
      exact hrange.1
  · intro q hq
    rcases Nat.lt_succ_iff_lt_or_eq.1 hq with hlt | rfl
    · rw [VM.procs_started_of_lt hlt]
      exact h.programs.room q hlt
    · rw [hlast, hexe]
      exact hrange.2
  · refine h.mirrors.started h.sound.tables hinit hclear hne (fun q hq => ?_) ?_
    · exact Function.update_of_ne (Nat.ne_of_lt hq) _ _
    · exact Function.update_self ..

/-- A new process begins alone. -/
theorem Shared.exec (h : Shared t P) {executable : File} (hload : executable.Loadable)
    (stack : ℕ → Byte) (words : ℕ → BitVec 32) (created : Bool) :
    ∃ vm P', t.vm.exec executable stack words created = .ok vm ∧ Extends t { t with vm := vm } ∧
      Shared { t with vm := vm } P' := by
  rcases h.backed.sound.tables.exec executable stack words created with
    ⟨storeTable, heq, -⟩ | ⟨space, pages, i, storeTable, tablePtr, heq, hinit, -, hclear, hne, -⟩
  · refine ⟨_, P, heq, ⟨le_rfl, fun _ _ => rfl, List.suffix_refl _⟩,
      ?_, h.size, h.settles, h.idle, h.current, h.fresh, h.logged, h.replays⟩
    exact ⟨h.backed.sound.exec heq, h.backed.programs.congr rfl fun _ => rfl, h.backed.frames,
      h.backed.mirrors.congr rfl rfl rfl (fun _ => rfl) (fun _ => rfl) fun _ _ => rfl⟩
  · have hexe : space.currentExecutable = executable := by rw [(VM.initialize_eq hinit).2]
    have hold : ∀ q < t.vm.numProcs, (t.vm.started space pages i storeTable tablePtr).procs q =
        t.vm.procs q := fun q hq => VM.procs_started_of_lt hq
    have hlast : ((t.vm.started space pages i storeTable tablePtr).procs t.vm.numProcs).space =
        space := by simp [VM.started]
    have hbegun := h.fresh t.vm.numProcs le_rfl
    have hcur : t.currentProcess ≠ some t.vm.numProcs := fun heq =>
      absurd ((h.current _ heq).symm.trans hbegun) (by decide)
    have hregs : ∀ q < t.vm.numProcs, System.registersOf
        { t with vm := t.vm.started space pages i storeTable tablePtr } q = t.registersOf q := by
      intro q hq
      simp only [System.registersOf, hold q hq]
    have hregs' : System.registersOf
        { t with vm := t.vm.started space pages i storeTable tablePtr } t.vm.numProcs =
          UserThreads.initRegisters space.numPages := by
      simp only [System.registersOf, if_neg hcur, hbegun, Bool.false_eq_true, if_false, hlast]
    have hbacked := h.backed.started hload heq hinit hclear hne
    refine ⟨_, Function.update P t.vm.numProcs (start space), heq,
      ⟨Nat.le_succ _, fun q hq => by rw [hold q hq], List.suffix_refl _⟩,
      ?_, ?_, ?_, ?_, h.current, ?_, ?_, ?_⟩
    · refine hbacked.congr fun q _ => ?_
      by_cases hq : q = t.vm.numProcs
      · rw [hq, Function.update_self, Function.update_self, start, hexe]
      · rw [Function.update_of_ne hq, Function.update_of_ne hq]
    · intro q hq
      rcases Nat.lt_succ_iff_lt_or_eq.1 hq with hlt | rfl
      · dsimp only
        rw [Function.update_of_ne (Nat.ne_of_lt hlt), hold q hlt, h.size q hlt]
      · dsimp only
        rw [Function.update_self, hlast, start]
    · intro q hq
      rcases Nat.lt_succ_iff_lt_or_eq.1 hq with hlt | rfl
      · rw [Function.update_of_ne (Nat.ne_of_lt hlt), hregs q hlt]
        exact h.settles q hlt
      · rw [Function.update_self, hregs']
        exact initRegisters_settles space
    · intro q hq htrapped
      rcases Nat.lt_succ_iff_lt_or_eq.1 hq with hlt | rfl
      · rw [hregs q hlt]
        exact h.idle q hlt htrapped
      · rw [hregs']
        rfl
    · exact fun q hq => h.fresh q (Nat.le_of_succ_le hq)
    · exact fun x hx => Nat.lt_succ_of_lt (h.logged x hx)
    · intro q hq
      have hevents :
          System.events { t with vm := t.vm.started space pages i storeTable tablePtr } q =
            t.events q := rfl
      rw [hevents]
      rcases Nat.lt_succ_iff_lt_or_eq.1 hq with hlt | rfl
      · rw [Function.update_of_ne (Nat.ne_of_lt hlt)]
        dsimp only
        rw [hold q hlt]
        exact h.replays q hlt
      · -- nothing has been done under the number of the new process
        have hnone : t.events t.vm.numProcs = [] := by
          refine List.filterMap_eq_nil_iff.2 fun x hx => ?_
          exact if_neg (Nat.ne_of_lt (h.logged x hx))
        rw [hnone, Function.update_self]
        dsimp only
        rw [hlast]
        rfl

/-! ## Every move -/

/-- The executables can be loaded, and the requests of the kernel have the sizes of `ReadMem` and
`WriteMem`. -/
def Op.WellFormed : Op → Prop
  | .exec executable _ _ _ => executable.Loadable
  | .access r _ => Sized r.size
  | _ => True

/-- The instruction of `p` stops the machine. -/
def System.Stops (s : System) (p : ℕ) (fault : Fault) : Prop :=
  s.currentProcess = some p ∧ p < s.vm.numProcs ∧ (s.machine p).oneInstruction = .error fault

variable {op : Op}

theorem Shared.move (h : Shared t P) (hcur : t.currentProcess = some p) (hp : p < t.vm.numProcs)
    (hop : op.WellFormed) :
    (∃ t', t.move p op = .ok t' ∧ Extends t t' ∧
      ((∀ act, act.Executes → t'.log = (p, act) :: t.log → (P p).Careful) → ∃ P', Shared t' P')) ∨
      ∃ fault, t.move p op = .error fault ∧ t.Stops p fault := by
  have hstay : t.move p op = .ok t → ∃ t', t.move p op = .ok t' ∧ Extends t t' ∧
      ((∀ act, act.Executes → t'.log = (p, act) :: t.log → (P p).Careful) → ∃ P', Shared t' P') :=
    fun heq => ⟨t, heq, .refl t, fun _ => ⟨P, h⟩⟩
  cases op with
  | exec executable stack words created => exact .inl (hstay rfl)
  | run q => exact .inl (hstay rfl)
  | goOn =>
      exact .inl
        ⟨_, rfl, ⟨le_rfl, fun _ _ => rfl, List.suffix_refl _⟩, fun _ => ⟨_, h.goOn hcur hp⟩⟩
  | interrupt =>
      obtain ⟨r, hr, hshared⟩ := h.interrupt hcur hp
      exact .inl ⟨{ t with registers := r }, by simp only [System.move, hr],
        ⟨le_rfl, fun _ _ => rfl, List.suffix_refl _⟩, fun _ => ⟨_, hshared⟩⟩
  | oneInstruction stack =>
      cases hmode : t.trapped p with
      | true => exact .inl (hstay (by simp only [System.move, hmode, if_true]))
      | false =>
          have hmove : t.move p (.oneInstruction stack) = t.oneInstruction p stack := by
            simp only [System.move, hmode, Bool.false_eq_true, if_false]
          rw [hmove]
          cases hs : t.oneInstruction p stack with
          | error fault => exact .inr ⟨fault, rfl, hcur, hp, h.stops hcur hp hs⟩
          | ok t' =>
              obtain ⟨hextends, hnext⟩ := h.oneInstruction hcur hp hmode hs
              refine .inl ⟨t', rfl, hextends, fun hcareful => ?_⟩
              obtain ⟨q, hshared⟩ := hnext hcareful
              exact ⟨_, hshared⟩
  | access r stack =>
      cases hmode : t.trapped p with
      | false =>
          exact .inl (hstay (by simp only [System.move, hmode, Bool.false_eq_true, if_false]))
      | true =>
          obtain ⟨t', q, ht', hextends, hshared⟩ := h.access hcur hp hmode hop stack
          exact .inl ⟨t', by simp only [System.move, hmode, if_true, ht'], hextends,
            fun _ => ⟨_, hshared⟩⟩
  | writeRegister num value =>
      by_cases hmode : t.trapped p = true ∧ num ≠ 0 ∧ num.val < 37
      · obtain ⟨q, hshared⟩ := h.writeRegister hcur hp hmode.1 hmode.2.1 hmode.2.2 value
        exact .inl ⟨_, if_pos hmode, ⟨le_rfl, fun _ _ => rfl, List.suffix_cons _ _⟩,
          fun _ => ⟨_, hshared⟩⟩
      · exact .inl (hstay (if_neg hmode))
  | exit =>
      cases hmode : t.trapped p with
      | false =>
          exact .inl (hstay (by simp only [System.move, hmode, Bool.false_eq_true, if_false]))
      | true =>
          exact .inl ⟨_, by simp only [System.move, hmode, if_true],
            (Moved.exit t p).extends (List.suffix_refl _), fun _ => ⟨_, h.exit hcur hp hmode⟩⟩

/-- The current process uses no register of a load in the instruction after it, if the events that
the move adds are careful. -/
theorem Shared.careful_of_extends (h : Shared t P) (hp : p < t.vm.numProcs)
    (hextends : Extends t t') (hcareful : t'.Careful) :
    ∀ act, act.Executes → t'.log = (p, act) :: t.log → (P p).Careful := by
  intro act hact hlog
  refine hcareful p act (t.events p) (P p) ?_ hact ?_
  · rw [events_self hlog]
  · rw [hextends.start p hp]
    exact h.replays p hp

theorem Shared.moveCurrent (h : Shared t P) (hop : op.WellFormed) :
    (∃ t', t.moveCurrent op = .ok t' ∧ Extends t t' ∧ (t'.Careful → ∃ P', Shared t' P')) ∨
      ∃ p fault, t.moveCurrent op = .error fault ∧ t.Stops p fault := by
  unfold System.moveCurrent
  cases hcur : t.currentProcess with
  | none => exact .inl ⟨t, rfl, .refl t, fun _ => ⟨P, h⟩⟩
  | some p =>
      by_cases hrunning : t.vm.Running p
      · simp only [if_pos hrunning]
        obtain ⟨t', hmove, hextends, hnext⟩ | ⟨fault, hmove, hstops⟩ := h.move hcur hrunning.1 hop
        · exact .inl ⟨t', hmove, hextends, fun hcareful =>
            hnext (h.careful_of_extends hrunning.1 hextends hcareful)⟩
        · exact .inr ⟨p, fault, hmove, hstops⟩
      · simp only [if_neg hrunning]
        exact .inl ⟨t, rfl, .refl t, fun _ => ⟨P, h⟩⟩

/-- Every move goes on, unless an instruction stops the machine. -/
theorem Shared.step (h : Shared t P) (hop : op.WellFormed) :
    (∃ t', t.step op = .ok t' ∧ Extends t t' ∧ (t'.Careful → ∃ P', Shared t' P')) ∨
      ∃ p fault, t.step op = .error fault ∧ t.Stops p fault := by
  cases op with
  | exec executable stack words created =>
      obtain ⟨vm, P', hexec, hextends, hshared⟩ := h.exec hop stack words created
      exact .inl ⟨_, by simp only [System.step, hexec], hextends, fun _ => ⟨P', hshared⟩⟩
  | run p =>
      simp only [System.step]
      by_cases hrunning : t.vm.Running p
      · rw [if_pos hrunning]
        exact .inl ⟨_, rfl, ⟨le_rfl, fun _ _ => rfl, List.suffix_refl _⟩,
          fun _ => ⟨P, h.run hrunning.1⟩⟩
      · rw [if_neg hrunning]
        exact .inl ⟨t, rfl, .refl t, fun _ => ⟨P, h⟩⟩
  | oneInstruction stack => exact h.moveCurrent hop
  | access r stack => exact h.moveCurrent hop
  | writeRegister num value => exact h.moveCurrent hop
  | goOn => exact h.moveCurrent hop
  | interrupt => exact h.moveCurrent hop
  | exit => exact h.moveCurrent hop

/-! ## Runs -/

/-- No process has done anything twice after the move. -/
def once (s : System) (op : Op) : Bool :=
  match s.step op with
  | .ok s' => decide (s'.log.map Prod.fst).Nodup
  | .error _ => true

end TimeSharing

end Nachos
