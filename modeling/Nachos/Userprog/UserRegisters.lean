import Nachos.Userprog.ThreadStacks

/-!
# The registers and the page table of the machine

The machine has one set of user registers and one page table register. `Scheduler::Run` saves the
registers of the old thread before `SWITCH`, and a thread that comes back from `SWITCH` restores
its own; a thread that runs for the first time sets them in its start-up code instead. This is the
program of the user threads together with that part of the machine: an instruction writes the
registers as the label says, an interrupt completes a delayed load, and `own` is a history variable
with what the code of each thread has left last.

A Fork makes its new table for the pages that the process has at its start. When another Fork of the
process replaces the page table before it is done, it goes on behind the end of the new table, and
what it overwrites there may be the page table or the saved registers of a thread.
-/

namespace Nachos

open Lib

namespace UserThreads

open Kernel

/-! ## Registers -/

def StackReg : Fin 40 := 29

def PCReg : Fin 40 := 34

def NextPCReg : Fin 40 := 35

def LoadReg : Fin 40 := 37

def LoadValueReg : Fin 40 := 38

def BadVAddrReg : Fin 40 := 39

/-- `Machine::DelayedLoad`. -/
def delayedLoad (nextReg nextValue : BitVec 32) (r : Registers) : Registers :=
  let loaded :=
    if h : (r LoadReg).toNat < 40 then Function.update r ⟨(r LoadReg).toNat, h⟩
      (r LoadValueReg) else r
  Function.update (Function.update (Function.update loaded LoadReg nextReg) LoadValueReg
    nextValue) 0 0

/-- `AddrSpace::InitRegisters`. -/
def initRegisters (numPages : ℕ) : Registers :=
  Function.update (Function.update (Function.update (fun _ => 0) PCReg 0) NextPCReg 4) StackReg
    (BitVec.ofInt 32 (numPages * pageSize - 16))

/-- The registers that the start-up code of a thread leaves; `ForkedThread` sets the program
counter. -/
def startRegisters (numPages : ℕ) : Option (BitVec 32) → Registers
  | none => initRegisters numPages
  | some funcPtr =>
      Function.update (Function.update (initRegisters numPages) PCReg funcPtr) NextPCReg
        (funcPtr + 4)

/-- What `RaiseException` does to the registers at a system call. -/
def raiseRegisters (r : Registers) : Registers := delayedLoad 0 0 (Function.update r BadVAddrReg 0)

/-- What `ExceptionHandler` does to the registers when a system call returns. -/
def returnRegisters (result : Option ℤ) (r : Registers) : Registers :=
  let r' :=
    match result with
    | some value => Function.update r 2 (BitVec.ofInt 32 value)
    | none => r
  Function.update (Function.update r' PCReg (r' NextPCReg)) NextPCReg (r' NextPCReg + 4)

/-- No delayed load is pending. -/
def Settled (r : Registers) : Prop := delayedLoad 0 0 r = r

theorem settled_of_zero {r : Registers} (h0 : r 0 = 0) (hload : r LoadReg = 0)
    (hvalue : r LoadValueReg = 0) : Settled r := by
  have hsame : ∀ i, r i = 0 → Function.update r i 0 = r := fun i hi =>
    Function.update_eq_self_iff.2 hi.symm
  -- the load of nothing gives the register 0 its 0 again
  have hloaded : (if h : (r LoadReg).toNat < 40 then
      Function.update r ⟨(r LoadReg).toNat, h⟩ (r LoadValueReg) else r) = r := by
    split
    · have hreg : (⟨(r LoadReg).toNat, ‹_›⟩ : Fin 40) = 0 := Fin.ext (by simp [hload])
      rw [hreg, hvalue, hsame 0 h0]
    · rfl
  simp only [Settled, delayedLoad, hloaded, hsame LoadReg hload, hsame LoadValueReg hvalue,
    hsame 0 h0]

theorem settled_delayedLoad (r : Registers) : Settled (delayedLoad 0 0 r) := by
  refine settled_of_zero ?_ ?_ ?_
  · simp [delayedLoad]
  · simp [delayedLoad, LoadReg, LoadValueReg]
  · simp [delayedLoad, LoadValueReg]

theorem settled_startRegisters (numPages : ℕ) (funcPtr : Option (BitVec 32)) :
    Settled (startRegisters numPages funcPtr) := by
  have hother : ∀ i, i ≠ StackReg → i ≠ PCReg → i ≠ NextPCReg →
      startRegisters numPages funcPtr i = 0 := by
    intro i hstack hpc hnext
    cases funcPtr with
    | none => simp [startRegisters, initRegisters, hstack, hnext]
    | some funcPtr => simp [startRegisters, initRegisters, hstack, hpc, hnext]
  refine settled_of_zero ?_ ?_ ?_
  · exact hother _ (by decide) (by decide) (by decide)
  · exact hother _ (by decide) (by decide) (by decide)
  · exact hother _ (by decide) (by decide) (by decide)

/-! ## The machine -/

structure Machine where
  registers : Registers
  pageTable : ℕ
  pageTableSize : ℕ
  /-- The member `userRegisters` of every thread. -/
  userRegisters : Tid → Registers
  /-- What the code of the thread has left in the registers last. -/
  own : Tid → Registers

namespace Machine

/-- `Thread::SaveUserState`. -/
def saveUserState (m : Machine) (t : Tid) : Machine :=
  { m with userRegisters := Function.update m.userRegisters t m.registers }

/-- `AddrSpace::RestoreState` for the thread `t`. -/
def restoreState (m : Machine) (d : Data) (t : Tid) : Machine :=
  { m with
    pageTable := (d.spaces (d.mySpace t)).pageTable
    pageTableSize := (d.spaces (d.mySpace t)).numPages }

/-- `Thread::RestoreUserState`. -/
def restoreUserState (m : Machine) (d : Data) (t : Tid) : Machine :=
  { m.restoreState d t with registers := m.userRegisters t }

/-- What the code of the thread `t` does to the registers `r` when it goes from `pc` to its next
call, and the program point is `pc'` then. A handler and `LoadArguments` do not write the registers
of a delayed load. -/
def written (d d' : Data) (t : Tid) (pc' : Pc) (a : Act) (pc : Pc) (r : Registers) : Registers :=
  match pc, a with
  | .start funcPtr, _ => startRegisters (d.spaces (d.mySpace t)).numPages funcPtr
  | .run, .back writes => writes r
  | _, .back writes => delayedLoad 0 0 (writes r)
  | _, .other _ writes => delayedLoad 0 0 (writes r)
  | .run, _ => raiseRegisters r
  | _, _ => if pc' = .run then returnRegisters (d'.result t) r else r

/-- The code of the thread `t` is left with `pc'`. The history follows the thread: an instruction
finds the registers of the machine, and the kernel goes on with what the thread itself has left. -/
def leave (m : Machine) (d d' : Data) (t : Tid) (pc pc' : Pc) (a : Act) : Machine :=
  { m with
    registers := written d d' t pc' a pc m.registers
    own := Function.update m.own t
      (written d d' t pc' a pc (if pc = .run then m.registers else m.own t)) }

/-- The own code of the current thread. `ProcessStartExec` and `ForkedThread` load the page table,
and `Fork2` loads it again when `allocateThreadSpace` has replaced it. -/
def ownCode (m : Machine) (k : Kernel Pc Data) (a : Act) (k' : Kernel Pc Data) : Machine :=
  let t := k.currentThread
  let left := m.leave k.data k'.data t (k.pc t) (k'.pc t) a
  match k.pc t with
  | .start _ => left.restoreState k'.data t
  | _ =>
      match k'.pc t with
      | .forkAlloc _ _ => (left.saveUserState t).restoreUserState k'.data t
      | _ => left

/-- The step has called `Scheduler::Run`, which leaves the old thread after its `SWITCH`. -/
def switches (k k' : Kernel Pc Data) : Bool :=
  match k'.stack k.currentThread with
  | .afterSwitch :: _ => true
  | _ => false

/-- A step of the current thread up to `SWITCH`. An interrupt handler, that of the timer too,
completes a delayed load first. -/
def advance (m : Machine) (k : Kernel Pc Data) (lab : Label Act) (k' : Kernel Pc Data) : Machine :=
  match k.stack k.currentThread, lab with
  | [], .act a => m.ownCode k a k'
  | .afterSwitch :: _, _ => m.restoreUserState k.data k.currentThread
  | _, .interrupt _ => { m with registers := delayedLoad 0 0 m.registers }
  | _, .timer => { m with registers := delayedLoad 0 0 m.registers }
  | _, _ => m

end Machine

/-- The kernel with the user threads, and the machine. -/
structure State where
  kernel : Kernel Pc Data
  machine : Machine

/-- One step: `Scheduler::Run` saves the registers of the thread that it switches from. -/
def State.step (s : State) (lab : Label Act) : Except Stop State :=
  match Kernel.step client s.kernel lab with
  | .error e => .error e
  | .ok k' =>
      let m := s.machine.advance s.kernel lab k'
      .ok ⟨k', if Machine.switches s.kernel k' then m.saveUserState s.kernel.currentThread else m⟩

/-- The machine starts with registers that do not matter. -/
def State.initial (numPages : ℕ) (joinValue : ℕ → ℤ) (initialValue : ℕ → ℤ) (m : Machine) :
    State where
  kernel := UserThreads.initial numPages joinValue initialValue
  machine := m

/-- The registers are what the thread has left, up to the delayed load. -/
def Loaded (left r : Registers) : Prop := r = left ∨ r = delayedLoad 0 0 left

/-- The page table of the machine is that of the address space of the thread. -/
def Mapped (d : Data) (t : Tid) (m : Machine) : Prop :=
  m.pageTable = (d.spaces (d.mySpace t)).pageTable ∧
    m.pageTableSize = (d.spaces (d.mySpace t)).numPages

theorem Loaded.delayedLoad {left r : Registers} (h : Loaded left r) :
    Loaded left (delayedLoad 0 0 r) := by
  rcases h with rfl | rfl
  · exact .inr rfl
  · exact .inr (settled_delayedLoad left)

theorem Loaded.eq_of_settled {left r : Registers} (h : Loaded left r) (hs : Settled left) :
    r = left := by
  rcases h with rfl | rfl
  · rfl
  · exact hs

/-! ## Runs -/

/-- The thread has passed its start-up code. -/
def Begun (k : Kernel Pc Data) (t : Tid) : Prop := ∀ func, k.pc t ≠ .start func

/-- The thread is in `Scheduler::Run` after `SWITCH`. -/
def Switched (k : Kernel Pc Data) (t : Tid) : Prop := ∃ rest, k.stack t = .afterSwitch :: rest

/-- The registers of a thread that is switched out are in its `userRegisters`, and those of
the current thread in the machine. -/
structure Faithful (s : State) : Prop where
  parked : ∀ t < s.kernel.numThreads, t ≠ s.kernel.currentThread → Begun s.kernel t →
    Switched s.kernel t
  settled : ∀ t < s.kernel.numThreads, Begun s.kernel t → s.kernel.pc t ≠ .run →
    Settled (s.machine.own t)
  saved : ∀ t < s.kernel.numThreads, Begun s.kernel t → Switched s.kernel t →
    Loaded (s.machine.own t) (s.machine.userRegisters t)
  current : Begun s.kernel s.kernel.currentThread → ¬ Switched s.kernel s.kernel.currentThread →
    Loaded (s.machine.own s.kernel.currentThread) s.machine.registers ∧
      Mapped s.kernel.data s.kernel.currentThread s.machine

/-- Only the end of an `allocateThreadSpace` replaces a page table. -/
theorem Turn.spaces {t : Tid} {pc pc' : Pc} {d d' : Data} {view : View} {o : Call Pc}
    (h : Turn t d view pc o pc' d') (hpc' : ∀ func object, pc' ≠ .forkAlloc func object) {space : ℕ}
    (hlt : space < d.numSpaces) : d'.spaces space = d.spaces space := by
  cases h with
  | exec pc child join numPages h => simp [Data.forked, Data.newThread, Data.newSpace, hlt.ne]
  | forkCommit func newTable i h => exact absurd rfl (hpc' func d.numObjects)
  | _ => rfl

theorem Mapped.of_spaces {d d' : Data} {t : Tid} {m m' : Machine} (h : Mapped d t m)
    (hmy : d'.mySpace t = d.mySpace t)
    (hspaces : d'.spaces (d.mySpace t) = d.spaces (d.mySpace t))
    (htable : m'.pageTable = m.pageTable) (hsize : m'.pageTableSize = m.pageTableSize) :
    Mapped d' t m' := by
  unfold Mapped
  rw [hmy, hspaces, htable, hsize]
  exact h

namespace Machine

variable {k k' : Kernel Pc Data} {m : Machine} {t : Tid}

theorem switches_iff : switches k k' = true ↔ Switched k' k.currentThread := by
  unfold switches Switched
  split
  · simp_all
  · simp_all

theorem written_start (d d' : Data) (t : Tid) (pc' : Pc) (a : Act) (func : Option (BitVec 32))
    (r : Registers) : written d d' t pc' a (.start func) r =
      startRegisters (d.spaces (d.mySpace t)).numPages func := rfl

/-- The rest of a system call leaves the registers alone, until it returns. -/
theorem written_kernel {d d' : Data} {pc pc' : Pc} {a : Act} {r : Registers}
    (hstart : ∀ func, pc ≠ .start func) (hrun : pc ≠ .run)
    (hback : ∀ writes, a ≠ .back writes) (hother : ∀ o writes, a ≠ .other o writes) :
    written d d' t pc' a pc r = if pc' = .run then returnRegisters (d'.result t) r else r := by
  cases a with
  | back writes => exact absurd rfl (hback writes)
  | other o writes => exact absurd rfl (hother o writes)
  | _ =>
    cases pc with
    | start func => exact absurd rfl (hstart func)
    | run => exact absurd rfl hrun
    | _ => rfl

/-- The code of a thread in the kernel leaves no delayed load. -/
theorem settled_written {d d' : Data} {pc pc' : Pc} {a : Act} {r : Registers} (hpc' : pc' ≠ .run)
    (hback : ∀ writes, a = .back writes → pc' = .run)
    (hr : (∀ func, pc ≠ .start func) → pc ≠ .run → Settled r) :
    Settled (written d d' t pc' a pc r) := by
  by_cases hstart : ∃ func, pc = .start func
  · obtain ⟨func, rfl⟩ := hstart
    exact settled_startRegisters _ _
  have hstart : ∀ func, pc ≠ .start func := fun func h => hstart ⟨func, h⟩
  by_cases hother : ∃ o writes, a = .other o writes
  · obtain ⟨o, writes, rfl⟩ := hother
    cases pc with
    | start func => exact absurd rfl (hstart func)
    | _ => exact settled_delayedLoad _
  by_cases hrun : pc = .run
  · subst hrun
    cases a with
    | back writes => exact absurd (hback _ rfl) hpc'
    | _ => exact settled_delayedLoad _
  rw [written_kernel hstart hrun (fun writes h => hpc' (hback writes h))
    (fun o writes h => hother ⟨o, writes, h⟩), if_neg hpc']
  exact hr hstart hrun

/-- The own code of a thread leaves the page table alone, or loads the one of the moment. -/
theorem ownCode_cases (m : Machine) (k : Kernel Pc Data) (a : Act) (k' : Kernel Pc Data) :
    m.ownCode k a k' = (m.leave k.data k'.data k.currentThread (k.pc k.currentThread)
        (k'.pc k.currentThread) a).restoreState k'.data k.currentThread ∨
      m.ownCode k a k' = ((m.leave k.data k'.data k.currentThread (k.pc k.currentThread)
        (k'.pc k.currentThread) a).saveUserState k.currentThread).restoreUserState
          k'.data k.currentThread ∨
        Begun k k.currentThread ∧
          (∀ func object, k'.pc k.currentThread ≠ .forkAlloc func object) ∧
            m.ownCode k a k' = m.leave k.data k'.data k.currentThread (k.pc k.currentThread)
              (k'.pc k.currentThread) a := by
  simp only [ownCode]
  split
  · exact .inl rfl
  · rename_i hstart
    split
    · exact .inr (.inl rfl)
    · rename_i halloc
      exact .inr (.inr ⟨hstart, halloc, rfl⟩)

theorem ownCode_own_eq (a : Act) :
    (m.ownCode k a k').own k.currentThread =
      written k.data k'.data k.currentThread (k'.pc k.currentThread) a (k.pc k.currentThread)
        (if k.pc k.currentThread = .run then m.registers else m.own k.currentThread) := by
  rcases m.ownCode_cases k a k' with h | h | ⟨-, -, h⟩
  · simp [h, restoreState, leave]
  · simp [h, restoreUserState, restoreState, saveUserState, leave]
  · simp [h, leave]

/-- The code of a thread that has its own registers, or is to run an instruction, leaves its own
registers. -/
theorem ownCode_own (a : Act)
    (h : (∃ func, k.pc k.currentThread = .start func) ∨ k.pc k.currentThread = .run ∨
      m.registers = m.own k.currentThread) :
    (m.ownCode k a k').own k.currentThread = (m.ownCode k a k').registers := by
  have hleave : (m.leave k.data k'.data k.currentThread (k.pc k.currentThread)
      (k'.pc k.currentThread) a).own k.currentThread = (m.leave k.data k'.data k.currentThread
        (k.pc k.currentThread) (k'.pc k.currentThread) a).registers := by
    simp only [leave, Function.update_self]
    rcases h with ⟨func, hpc⟩ | hpc | hown
    · simp only [hpc, written_start]
    · rw [if_pos hpc]
    · rw [hown, ite_self]
  rcases m.ownCode_cases k a k' with h | h | ⟨-, -, h⟩
  · rw [h]
    exact hleave
  · rw [h]
    simpa [restoreUserState, restoreState, saveUserState] using hleave
  · rw [h]
    exact hleave

theorem ownCode_of_ne (a : Act) (ht : t ≠ k.currentThread) :
    (m.ownCode k a k').own t = m.own t ∧
      (m.ownCode k a k').userRegisters t = m.userRegisters t := by
  rcases m.ownCode_cases k a k' with h | h | ⟨-, -, h⟩
  · simp [h, restoreState, leave, ht]
  · simp [h, restoreUserState, restoreState, saveUserState, leave, ht]
  · simp [h, leave, ht]

/-- A step of the current thread leaves what the other threads have saved. -/
theorem advance_of_ne (lab : Label Act) (ht : t ≠ k.currentThread) :
    (m.advance k lab k').own t = m.own t ∧
      (m.advance k lab k').userRegisters t = m.userRegisters t := by
  unfold advance
  split
  · exact ownCode_of_ne _ ht
  all_goals exact ⟨rfl, rfl⟩

/-- A part of a kernel routine completes a delayed load at most. -/
theorem advance_of_kernel (lab : Label Act) (hne : k.stack k.currentThread ≠ [])
    (hsw : ¬ Switched k k.currentThread) :
    ((m.advance k lab k').registers = m.registers ∨
        (m.advance k lab k').registers = delayedLoad 0 0 m.registers) ∧
      (m.advance k lab k').own = m.own ∧ (m.advance k lab k').pageTable = m.pageTable ∧
        (m.advance k lab k').pageTableSize = m.pageTableSize := by
  unfold advance
  split
  · exact absurd ‹_› hne
  · exact absurd ⟨_, ‹_›⟩ hsw
  · exact ⟨.inr rfl, rfl, rfl, rfl⟩
  · exact ⟨.inr rfl, rfl, rfl, rfl⟩
  · exact ⟨.inl rfl, rfl, rfl, rfl⟩

theorem advance_of_switched (lab : Label Act) (hsw : Switched k k.currentThread) :
    m.advance k lab k' = m.restoreUserState k.data k.currentThread := by
  obtain ⟨rest, hst⟩ := hsw
  simp [advance, hst]

end Machine

variable {s s' : State} {k k' : Kernel Pc Data} {lab : Label Act}

theorem State.step_eq_ok (h : s.step lab = .ok s') :
    Kernel.step client s.kernel lab = .ok s'.kernel ∧
      s'.machine =
        if Machine.switches s.kernel s'.kernel then
          (s.machine.advance s.kernel lab s'.kernel).saveUserState s.kernel.currentThread
        else
          s.machine.advance s.kernel lab s'.kernel := by
  unfold State.step at h
  cases hk : Kernel.step client s.kernel lab with
  | error e => simp [hk] at h
  | ok k' =>
      simp only [hk, Except.ok.injEq] at h
      subst h
      exact ⟨rfl, rfl⟩

/-- Up to `SWITCH`, a step leaves the registers of the current thread and its page table in the
machine. -/
theorem Faithful.advance (h : Faithful s) {d₀ : Data} {initialValue : ℕ → ℤ}
    (hr : Runs client (.start (some 0)) d₀ initialValue s.kernel) (hsp : Spaced s.kernel)
    (hs : Kernel.step client s.kernel lab = .ok k')
    (hb : Begun k' s.kernel.currentThread) :
    Loaded ((s.machine.advance s.kernel lab k').own s.kernel.currentThread)
        (s.machine.advance s.kernel lab k').registers ∧
      Mapped k'.data s.kernel.currentThread (s.machine.advance s.kernel lab k') := by
  rcases step_turn hr.placed.current_lt hr.inner hs with
    ⟨a, o, pc, rfl, hst, hturn, -, hadv⟩ | ⟨hne, hq⟩
  · have hown : s.machine.advance s.kernel (.act a) k' = s.machine.ownCode s.kernel a k' := by
      simp [Machine.advance, hst]
    rw [hown]
    have hnot : ¬ Switched s.kernel s.kernel.currentThread := by
      rintro ⟨rest, hrest⟩
      rw [hst] at hrest
      cases hrest
    refine ⟨.inl (Machine.ownCode_own a ?_).symm, ?_⟩
    · by_cases hbegun : Begun s.kernel s.kernel.currentThread
      · by_cases hrun : s.kernel.pc s.kernel.currentThread = .run
        · exact .inr (.inl hrun)
        · have hset := h.settled _ hr.placed.current_lt hbegun hrun
          exact .inr (.inr ((h.current hbegun hnot).1.eq_of_settled hset))
      · simp only [Begun, not_forall, not_not] at hbegun
        exact .inl hbegun
    rcases s.machine.ownCode_cases s.kernel a k' with heq | heq | ⟨hbegun, halloc, heq⟩
    · rw [heq]
      exact ⟨rfl, rfl⟩
    · rw [heq]
      exact ⟨rfl, rfl⟩
    · rw [heq]
      refine (h.current hbegun hnot).2.of_spaces ?_ ?_ rfl rfl
      · exact (hsp.mySpace_of_turn hadv hturn hr.placed.current_lt).2
      · rw [hadv.self] at halloc
        exact hturn.spaces halloc (hsp.mySpace_lt hr.placed.current_lt)
  · have hbegun : Begun s.kernel s.kernel.currentThread := by
      unfold Begun
      rw [← hq.pc]
      exact hb
    rw [hq.data]
    by_cases hsw : Switched s.kernel s.kernel.currentThread
    · rw [Machine.advance_of_switched lab hsw]
      exact ⟨h.saved _ hr.placed.current_lt hbegun hsw, rfl, rfl⟩
    · obtain ⟨hreg, hown, htable, hsize⟩ := Machine.advance_of_kernel (m := s.machine) lab hne hsw
      obtain ⟨hload, hmap⟩ := h.current hbegun hsw
      refine ⟨?_, hmap.of_spaces rfl rfl htable hsize⟩
      rw [hown]
      rcases hreg with hreg | hreg
      · rw [hreg]
        exact hload
      · rw [hreg]
        exact hload.delayedLoad

theorem next_back {t : Tid} {pc pc' : Pc} {d d' : Data} {view : View} {o : Call Pc}
    {writes : Registers → Registers} (h : next t pc d view (.back writes) = some (o, pc', d')) :
    pc' = .run := by
  simp only [next] at h
  split at h
  · cases h
    rfl
  · cases h
    rfl
  · cases h
    rfl
  · cases h

theorem pc_of_back (hcur : k.currentThread < k.numThreads)
    (hinner : ∀ t o, .call o ∈ k.stack t → o.isInner = true) {writes : Registers → Registers}
    (hst : k.stack k.currentThread = [])
    (hs : Kernel.step client k (.act (.back writes)) = .ok k') : k'.pc k.currentThread = .run := by
  rcases step_advances hcur hinner hs with
    ⟨a, o, pc, ⟨⟩, -, hnext, -, -, hadv⟩ | ⟨a, sems, ⟨⟩, -⟩ | ⟨hne, -⟩
  · rw [hadv.self]
    exact next_back (show next _ _ _ k.view _ = _ from hnext)
  · exact absurd hst hne

/-- A step leaves the other threads that have begun where they are. -/
theorem others_of_step {d₀ : Data} {initialValue : ℕ → ℤ}
    (hr : Runs client (.start (some 0)) d₀ initialValue k)
    (hs : Kernel.step client k lab = .ok k') {t : Tid} (ht : t < k'.numThreads)
    (htc : t ≠ k.currentThread) (hb : Begun k' t) :
    t < k.numThreads ∧ k'.pc t = k.pc t ∧ k'.stack t = k.stack t := by
  have hold : t < k.numThreads ∧ k'.pc t = k.pc t := by
    rcases step_turn hr.placed.current_lt hr.inner hs with
      ⟨a, o, pc, -, -, hturn, -, hadv⟩ | ⟨-, hq⟩
    · rcases hturn.pc_cases hadv ht with ⟨h, -⟩ | ⟨-, hlt, hpc⟩ | ⟨func, hpc⟩
      · exact absurd h htc
      · exact ⟨hlt, hpc⟩
      · exact absurd hpc (hb func)
    · exact ⟨hq.numThreads ▸ ht, by rw [hq.pc]⟩
  refine ⟨hold.1, hold.2, ?_⟩
  rcases step_stack_cases hr.placed.current_lt hs t with heq | ⟨h, -⟩ | ⟨hle, -⟩
  · exact heq
  · exact absurd h htc
  · exact absurd hold.1 (not_lt.2 hle)

/-- The code of a thread in the kernel leaves no delayed load pending. -/
theorem Faithful.settled_advance (h : Faithful s) {d₀ : Data} {initialValue : ℕ → ℤ}
    (hr : Runs client (.start (some 0)) d₀ initialValue s.kernel)
    (hs : Kernel.step client s.kernel lab = .ok k') (hb : Begun k' s.kernel.currentThread)
    (hpc : k'.pc s.kernel.currentThread ≠ .run) :
    Settled ((s.machine.advance s.kernel lab k').own s.kernel.currentThread) := by
  have hcur := hr.placed.current_lt
  rcases step_turn hcur hr.inner hs with ⟨a, o, pc, rfl, hst, -, -, -⟩ | ⟨hne, hq⟩
  · have hown : s.machine.advance s.kernel (.act a) k' = s.machine.ownCode s.kernel a k' := by
      simp [Machine.advance, hst]
    have hback : ∀ writes, a = .back writes → k'.pc s.kernel.currentThread = .run := by
      rintro writes rfl
      exact pc_of_back hcur hr.inner hst hs
    rw [hown, Machine.ownCode_own_eq]
    refine Machine.settled_written hpc hback fun hstart hrun => ?_
    rw [if_neg hrun]
    exact h.settled _ hcur hstart hrun
  · have hown : (s.machine.advance s.kernel lab k').own = s.machine.own := by
      by_cases hsw : Switched s.kernel s.kernel.currentThread
      · rw [Machine.advance_of_switched lab hsw]
        rfl
      · exact (Machine.advance_of_kernel lab hne hsw).2.1
    rw [hown]
    refine h.settled _ hcur ?_ ?_
    · intro func
      rw [← hq.pc]
      exact hb func
    · rwa [← hq.pc]

theorem Faithful.step (h : Faithful s) {d₀ : Data} {initialValue : ℕ → ℤ}
    (hr : Runs client (.start (some 0)) d₀ initialValue s.kernel) (hsp : Spaced s.kernel)
    (hs : s.step lab = .ok s') : Faithful s' := by
  obtain ⟨hs, hm⟩ := State.step_eq_ok hs
  have hcur := hr.placed.current_lt
  have hown : s'.machine.own = (s.machine.advance s.kernel lab s'.kernel).own := by
    rw [hm]
    split
    · rfl
    · rfl
  have huser : ∀ t, t ≠ s.kernel.currentThread →
      s'.machine.userRegisters t = s.machine.userRegisters t := by
    intro t ht
    rw [hm]
    split
    · simpa [Machine.saveUserState, ht] using (Machine.advance_of_ne lab ht).2
    · exact (Machine.advance_of_ne lab ht).2
  have hbegun : ∀ t, s'.kernel.pc t = s.kernel.pc t → Begun s'.kernel t → Begun s.kernel t := by
    intro t hpc hb func
    rw [← hpc]
    exact hb func
  have hswitched : ∀ t, s'.kernel.stack t = s.kernel.stack t →
      (Switched s'.kernel t ↔ Switched s.kernel t) := by
    intro t hst
    unfold Switched
    rw [hst]
  obtain ⟨fs, -, hstack, -, hrun⟩ := step_stack hcur hs
  refine ⟨?_, ?_, ?_, ?_⟩
  · intro t ht htc' hb
    by_cases htc : t = s.kernel.currentThread
    · subst htc
      rcases hrun with hrun | ⟨gs, rfl⟩
      · exact absurd hrun.symm htc'
      · exact ⟨gs, by rw [hstack, Function.update_self]⟩
    · obtain ⟨hlt, hpc, hst⟩ := others_of_step hr hs ht htc hb
      exact (hswitched t hst).2 (h.parked t hlt htc (hbegun t hpc hb))
  · intro t ht hb hpc
    rw [hown]
    by_cases htc : t = s.kernel.currentThread
    · subst htc
      exact h.settled_advance hr hs hb hpc
    · obtain ⟨hlt, hpc', -⟩ := others_of_step hr hs ht htc hb
      rw [(Machine.advance_of_ne lab htc).1]
      exact h.settled t hlt (hbegun t hpc' hb) (hpc' ▸ hpc)
  · intro t ht hb hsw
    rw [hown]
    by_cases htc : t = s.kernel.currentThread
    · subst htc
      rw [hm, if_pos (Machine.switches_iff.2 hsw)]
      simpa [Machine.saveUserState] using (h.advance hr hsp hs hb).1
    · obtain ⟨hlt, hpc, hst⟩ := others_of_step hr hs ht htc hb
      rw [(Machine.advance_of_ne lab htc).1, huser t htc]
      exact h.saved t hlt (hbegun t hpc hb) ((hswitched t hst).1 hsw)
  · intro hb hsw
    have hlt' : s'.kernel.currentThread < s'.kernel.numThreads := (hr.placed.step hs).current_lt
    by_cases htc : s'.kernel.currentThread = s.kernel.currentThread
    · rw [htc] at hb hsw ⊢
      have hno : ¬ Machine.switches s.kernel s'.kernel = true := fun hc =>
        hsw (Machine.switches_iff.1 hc)
      rw [hm, if_neg hno]
      exact h.advance hr hsp hs hb
    · -- a thread that is switched to is to return from `SWITCH`
      obtain ⟨hlt, hpc, hst⟩ := others_of_step hr hs hlt' htc hb
      exact absurd ((hswitched _ hst).2 (h.parked _ hlt htc (hbegun _ hpc hb))) hsw

theorem Faithful.init (numPages : ℕ) (joinValue : ℕ → ℤ) (initialValue : ℕ → ℤ) (m : Machine) :
    Faithful (State.initial numPages joinValue initialValue m) := by
  have hno : ∀ t, ¬ Begun (State.initial numPages joinValue initialValue m).kernel t := fun t hb =>
    hb (some 0) rfl
  exact ⟨fun t _ _ hb => absurd hb (hno t), fun t _ hb => absurd hb (hno t),
    fun t _ hb => absurd hb (hno t), fun hb => absurd hb (hno _)⟩

theorem faithful_of_runs {numPages : ℕ} {joinValue : ℕ → ℤ} {initialValue : ℕ → ℤ} {m : Machine}
    (h : Reachable State.step (State.initial numPages joinValue initialValue m) s) :
    Reachable (Kernel.step client) (UserThreads.initial numPages joinValue initialValue) s.kernel ∧
      Faithful s := by
  refine Reachable.invariant (I := fun s => Reachable (Kernel.step client)
    (UserThreads.initial numPages joinValue initialValue) s.kernel ∧ Faithful s) ?_ ?_ h
  · exact ⟨.refl _ _, .init numPages joinValue initialValue m⟩
  · intro s lab s' _ hi hs
    obtain ⟨hr, hsp⟩ := spaced_of_runs hi.1
    exact ⟨hi.1.tail (State.step_eq_ok hs).1, hi.2.step hr hsp hs⟩

/-- A thread that is to run an instruction finds its own registers and page table. -/
theorem own_of_runs {numPages : ℕ} {joinValue : ℕ → ℤ} {initialValue : ℕ → ℤ} {m : Machine}
    (h : Reachable State.step (State.initial numPages joinValue initialValue m) s)
    (hstack : s.kernel.stack s.kernel.currentThread = [])
    (hpc : s.kernel.pc s.kernel.currentThread = .run) :
    Loaded (s.machine.own s.kernel.currentThread) s.machine.registers ∧
      Mapped s.kernel.data s.kernel.currentThread s.machine := by
  refine (faithful_of_runs h).2.current ?_ ?_
  · intro func
    rw [hpc]
    exact Pc.noConfusion
  · rintro ⟨rest, hrest⟩
    rw [hstack] at hrest
    cases hrest

/-! ## Overlapping Forks -/

/-- The loop of `allocateThreadSpace` with its new table, at the page `i`. -/
def Pc.enlarging : Pc → Option (ℕ × ℕ)
  | .forkPage _ newTable i => some (newTable, i)
  | .forkFound _ newTable i _ => some (newTable, i)
  | _ => none

/-- A Fork replaces the page table of its process when no other thread of the process is in the
loop of `allocateThreadSpace`. -/
def Alone (k : Kernel Pc Data) (lab : Label Act) : Prop :=
  ∀ space, Reserves space k lab → ∀ t < k.numThreads, t ≠ k.currentThread →
    k.data.mySpace t = space → (k.pc t).enlarging = none

/-- The current thread is to write an entry behind the end of its new table. -/
def WritesBehind (k : Kernel Pc Data) : Prop :=
  k.stack k.currentThread = [] ∧ ∃ func newTable i,
    k.pc k.currentThread = .forkFound func newTable i true ∧
      i + 1 < (k.data.spaces (k.data.mySpace k.currentThread)).numPages + newPages ∧
        k.data.tableSize newTable ≤ i + 1

/-- A new table has an entry for every page that the loop runs through. -/
def Fitting (k : Kernel Pc Data) : Prop :=
  ∀ t < k.numThreads, ∀ newTable i, (k.pc t).enlarging = some (newTable, i) →
    newTable < k.data.numTables ∧ i < k.data.tableSize newTable ∧
      k.data.tableSize newTable = (k.data.spaces (k.data.mySpace t)).numPages + newPages

theorem Fitting.not_writesBehind (h : Fitting k) (hcur : k.currentThread < k.numThreads) :
    ¬ WritesBehind k := by
  rintro ⟨-, func, newTable, i, hpc, hgo, hbehind⟩
  obtain ⟨-, -, hsize⟩ := h _ hcur newTable i (by rw [hpc]; rfl)
  omega

/-- Behind the table there is nothing that the thread can go on with. -/
theorem WritesBehind.stops (h : WritesBehind k) (lab : Label Act) :
    Kernel.step client k lab ≠ .ok k' := by
  obtain ⟨hst, func, newTable, i, hpc, hgo, hbehind⟩ := h
  intro hs
  cases lab with
  | act a =>
      simp only [Kernel.step, hst, act, client, hpc] at hs
      cases a <;> simp [next, goOn, forkLoop, hgo, not_lt.2 hbehind] at hs
  | _ => simp [Kernel.step, hst] at hs

section

variable {t : Tid} {pc pc' : Pc} {d d' : Data} {view : View} {o : Call Pc}

theorem Turn.entries (h : Turn t d view pc o pc' d') {table : ℕ} (hlt : table < d.numTables) :
    table < d'.numTables ∧ d'.tableSize table = d.tableSize table := by
  cases h with
  | exec pc child join numPages h =>
      simp [Data.forked, Data.newThread, Data.newSpace, hlt.ne, Nat.lt_succ_of_lt hlt]
  | fork pc func h => simp [hlt.ne, Nat.lt_succ_of_lt hlt]
  | _ => exact ⟨hlt, rfl⟩

/-- A thread enters the loop with a new table, and goes on to a page for which it has an entry. -/
theorem Turn.enlarging (h : Turn t d view pc o pc' d') {newTable i : ℕ}
    (hpc' : pc'.enlarging = some (newTable, i)) :
    (newTable = d.numTables ∧ i = (d.spaces (d.mySpace t)).numPages ∧
        d' = d.newTable ((d.spaces (d.mySpace t)).numPages + newPages)) ∨
      d' = d ∧ ∃ j, pc.enlarging = some (newTable, j) ∧ (i = j ∨ i < d.tableSize newTable) := by
  cases h with
  | fork pc func h =>
      cases hpc'
      exact .inl ⟨rfl, rfl, rfl⟩
  | forkPage func newTable' i' found =>
      cases hpc'
      exact .inr ⟨rfl, i, rfl, .inl rfl⟩
  | forkNext func newTable' i' h hsize =>
      cases hpc'
      exact .inr ⟨rfl, i', rfl, .inr hsize⟩
  | other pc pc' o h h' ho => cases pc' <;> cases h' <;> cases hpc'
  | begins func pc' h => cases pc' <;> cases h <;> cases hpc'
  | _ => cases hpc'

end

theorem Fitting.step (h : Fitting k) (halone : Alone k lab) {d₀ : Data} {initialValue : ℕ → ℤ}
    (hr : Runs client (.start (some 0)) d₀ initialValue k) (hsp : Spaced k)
    (hs : Kernel.step client k lab = .ok k') : Fitting k' := by
  have hcur := hr.placed.current_lt
  have hgrows := (hsp.step hr hs).2
  rcases step_turn hcur hr.inner hs with ⟨a, o, pc, rfl, hst, hturn, -, hadv⟩ | ⟨-, hq⟩
  · intro u hu newTable i hpc
    rcases hturn.pc_cases hadv hu with ⟨rfl, hpc'⟩ | ⟨hne, hlt, hpc'⟩ | ⟨func, hpc'⟩
    · rw [hpc'] at hpc
      have hmy := (hsp.mySpace_of_turn hadv hturn hcur).2
      rcases hturn.enlarging hpc with ⟨rfl, rfl, hd⟩ | ⟨hd, j, hj, hij⟩
      · rw [hmy, hd]
        have hpos : 0 < newPages := by decide
        simpa using hpos
      · obtain ⟨htable, hin, hsize⟩ := h _ hcur newTable j hj
        rw [hd]
        exact ⟨htable, by omega, hsize⟩
    · rw [hpc'] at hpc
      obtain ⟨htable, hin, hsize⟩ := h u hlt newTable i hpc
      obtain ⟨htable', hsize'⟩ := hturn.entries htable
      rw [hgrows.mySpace u hlt, hsize']
      refine ⟨htable', hin, hsize.trans ?_⟩
      -- the thread is in the loop, so nobody replaces the table of its process now
      rcases hgrows.top _ (hsp.mySpace_lt hlt) with ⟨hres, -⟩ | ⟨-, htop⟩
      · rw [halone _ hres u hlt hne rfl] at hpc
        cases hpc
      · unfold Data.topOf pageSize at htop
        omega
    · rw [hpc'] at hpc
      cases hpc
  · intro u hu newTable i hpc
    rw [hq.numThreads] at hu
    rw [hq.pc] at hpc
    rw [hq.data]
    exact h u hu newTable i hpc

theorem fitting_of_meets {numPages : ℕ} {joinValue : ℕ → ℤ} {initialValue : ℕ → ℤ} {m : Machine}
    {labs : List (Label Act)}
    (hmeets : Meets State.step (fun s lab => Alone s.kernel lab)
      (State.initial numPages joinValue initialValue m) labs)
    (h : runFrom State.step (State.initial numPages joinValue initialValue m) labs = .ok s) :
    Fitting s.kernel := by
  refine (invariant_of_meets (I := fun s => Reachable (Kernel.step client)
    (UserThreads.initial numPages joinValue initialValue) s.kernel ∧ Fitting s.kernel)
      ?_ ⟨.refl _ _, ?_⟩ hmeets h).2
  · rintro s lab s' ⟨hr, hfit⟩ halone hs
    have hk := (State.step_eq_ok hs).1
    obtain ⟨hruns, hsp⟩ := spaced_of_runs hr
    exact ⟨hr.tail hk, hfit.step halone hruns hsp hk⟩
  · intro t _ newTable i hpc
    cases hpc

/-- In every run of user threads in which no Fork replaces a page table while another Fork of the
process goes on, no entry is written behind a table, and a thread that is to run an instruction
finds the registers that its own last instruction, system call or start-up code has left, with a
pending load completed or not, and the page table of its address space. -/
theorem registers_own_of_alone (numPages : ℕ) (joinValue : ℕ → ℤ) (initialValue : ℕ → ℤ)
    (m : Machine) (labs : List (Label Act)) (s : State)
    (hmeets : Meets State.step (fun s lab => Alone s.kernel lab)
      (State.initial numPages joinValue initialValue m) labs)
    (h : runFrom State.step (State.initial numPages joinValue initialValue m) labs = .ok s) :
    ¬ WritesBehind s.kernel ∧
      (s.kernel.stack s.kernel.currentThread = [] →
        s.kernel.pc s.kernel.currentThread = .run →
          Loaded (s.machine.own s.kernel.currentThread) s.machine.registers ∧
          s.machine.pageTable =
            (s.kernel.data.spaces (s.kernel.data.mySpace s.kernel.currentThread)).pageTable ∧
          s.machine.pageTableSize =
            (s.kernel.data.spaces (s.kernel.data.mySpace s.kernel.currentThread)).numPages) := by
  have hr := (faithful_of_runs ⟨labs, h⟩).1
  refine ⟨(fitting_of_meets hmeets h).not_writesBehind (spaced_of_runs hr).1.placed.current_lt, ?_⟩
  exact fun hstack hpc => own_of_runs ⟨labs, h⟩ hstack hpc

/-- A test of `Alone`. -/
def aloneTest (s : State) (_ : Label Act) : Bool :=
  let t := s.kernel.currentThread
  let space := s.kernel.data.mySpace t
  !((s.kernel.stack t).isEmpty && (s.kernel.pc t).commits (s.kernel.data.spaces space).numPages) ||
    (List.range s.kernel.numThreads).all fun u =>
      u = t || s.kernel.data.mySpace u ≠ space || ((s.kernel.pc u).enlarging).isNone

theorem alone_of_test {lab : Label Act} (h : aloneTest s lab = true) : Alone s.kernel lab := by
  rintro space ⟨hst, hcommits, rfl⟩ u hu hne hmy
  simp only [aloneTest, hst, List.isEmpty_nil, hcommits, Bool.and_self, Bool.not_true,
    Bool.false_or, List.all_eq_true, List.mem_range, Bool.or_eq_true, decide_eq_true_eq,
    Option.isNone_iff_eq_none] at h
  rcases h u hu with (hself | hother) | hnone
  · exact absurd hself hne
  · exact absurd hmy hother
  · exact hnone

/-- The first process forks a thread, which forks another one, so that the page table is replaced
twice; the first thread returns to its program after that. -/
def forkAndReturn : List (Label Act) :=
  proceed 2 ++ forkThread 1 ++ yieldTo 3 ++ proceed 2 ++ forkThread 2 ++ yieldTo 4 ++
    [Label.act (Act.back id), .go, .go]

theorem registers_own_of_alone_fork :
    ∃ labs s, Meets State.step (fun s lab => Alone s.kernel lab) (State.initial 10 (fun _ => 0)
        (fun _ => 0) ⟨fun _ => 0, 0, 0, fun _ _ => 0, fun _ _ => 0⟩) labs ∧
      runFrom State.step (State.initial 10 (fun _ => 0) (fun _ => 0)
        ⟨fun _ => 0, 0, 0, fun _ _ => 0, fun _ _ => 0⟩) labs = .ok s ∧
      s.kernel.numThreads = 3 ∧ s.kernel.currentThread = 0 ∧ s.machine.registers StackReg = 1264 ∧
        s.machine.pageTable = 2 ∧ s.machine.pageTableSize = 26 ∧
          Loaded (s.machine.own 0) s.machine.registers := by
  have hpass : passesMeeting State.step aloneTest
      (fun s => s.kernel.numThreads = 3 ∧ s.kernel.currentThread = 0 ∧
        (s.kernel.stack s.kernel.currentThread).isEmpty ∧
          s.kernel.pc s.kernel.currentThread = .run ∧ s.machine.registers StackReg = 1264 ∧
            (s.kernel.data.spaces (s.kernel.data.mySpace s.kernel.currentThread)).pageTable = 2 ∧
            (s.kernel.data.spaces (s.kernel.data.mySpace s.kernel.currentThread)).numPages = 26)
      (State.initial 10 (fun _ => 0) (fun _ => 0)
        ⟨fun _ => 0, 0, 0, fun _ _ => 0, fun _ _ => 0⟩) forkAndReturn = true := by
    decide +kernel
  obtain ⟨hmeets, s, hs, hend⟩ := of_passesMeeting hpass
  replace hmeets := hmeets.imp (Q := fun s lab => Alone s.kernel lab) fun _ _ => alone_of_test
  obtain ⟨hnum, hcur, hempty, hpc, hreg, htable, hsize⟩ := of_decide_eq_true hend
  obtain ⟨-, hrun⟩ := registers_own_of_alone 10 _ _ _ _ s hmeets hs
  obtain ⟨hload, htable', hsize'⟩ := hrun (List.isEmpty_iff.1 hempty) hpc
  rw [hcur] at hload
  exact ⟨_, s, hmeets, hs, hnum, hcur, hreg, htable'.trans htable, hsize'.trans hsize, hload⟩

/-- Two threads of the first process call Fork. The time slice of the one ends after its first page,
and the other one replaces the page table before the first goes on. -/
def forkTogether : List (Label Act) :=
  proceed 2 ++ forkThread 1 ++ yieldTo 3 ++ proceed 2 ++
    Label.act (Act.fork 0) :: List.replicate 4 Label.go ++
      [Label.act (Act.page true), .go, .go, .timer] ++ List.replicate 5 Label.go ++
        forkThread 2 ++ yieldTo 4 ++
          (List.replicate 7
            (proceed 4 ++ Label.act (Act.page true) :: List.replicate 3 Label.go)).flatten

/-- The first of the two is to write the entry 26 of a table of 26 entries. -/
theorem forks_write_behind :
    ∃ s, Reachable State.step (State.initial 10 (fun _ => 0) (fun _ => 0)
        ⟨fun _ => 0, 0, 0, fun _ _ => 0, fun _ _ => 0⟩) s ∧
      WritesBehind s.kernel ∧ ∀ lab s', s.step lab ≠ .ok s' := by
  have hpass : passes State.step (State.initial 10 (fun _ => 0) (fun _ => 0)
      ⟨fun _ => 0, 0, 0, fun _ _ => 0, fun _ _ => 0⟩) forkTogether
      (fun s => (s.kernel.stack s.kernel.currentThread).isEmpty ∧
        s.kernel.pc s.kernel.currentThread = .forkFound 0 2 25 true ∧
          (s.kernel.data.spaces (s.kernel.data.mySpace s.kernel.currentThread)).numPages = 26 ∧
            s.kernel.data.tableSize 2 = 26) = true := by
    decide +kernel
  obtain ⟨s, hs, hend⟩ := exists_of_passes _ hpass
  obtain ⟨hempty, hpc, hpages, hsize⟩ := of_decide_eq_true hend
  have hbehind : WritesBehind s.kernel :=
    ⟨List.isEmpty_iff.1 hempty, 0, 2, 25, hpc, by rw [hpages]; decide, hsize.le⟩
  exact ⟨s, hs, hbehind, fun lab s' hstep => hbehind.stops lab (State.step_eq_ok hstep).1⟩

end UserThreads

end Nachos
