import Nachos.Lib.Run
import Nachos.Machine.Crashes
import Nachos.Userprog.UserRegisters

/-!
# The register of a delayed load

The index of the store in `DelayedLoad` is itself a register, and it is saved and restored with the
others. This is everything that writes registers: the machine, the kernel through `WriteRegister`,
and the context switches, in any order and with whatever memory and page tables the kernel has left.
-/

namespace Nachos

namespace DelayedLoads

open Lib Mips

abbrev Tid := ℕ

/-- The members of the machine and of the threads that have to do with user registers. -/
structure System where
  registers : Registers
  /-- The member `userRegisters` of a thread. Nothing initialises it. -/
  userRegisters : Tid → Registers
  /-- The member `space` of the thread is not `NULL`. -/
  space : Tid → Bool
  /-- The thread has been run. It comes back from `SWITCH` when it is run again. -/
  begun : Tid → Bool
  currentThread : Tid

/-- The registers that the kernel writes by name: the result of a system call, the arguments of a
program, its stack and its program counters. -/
def kernelRegisters : List (Fin 40) := [2, 4, 5, UserThreads.StackReg, PCReg, NextPCReg]

inductive Move where
  | initRegisters (numPages : ℕ)
  | writeRegister (num : Fin 40) (value : BitVec 32)
  /-- `OneInstruction`, with the memory and the page table of the moment. -/
  | oneInstruction (mainMemory : ℕ → Byte) (pageTable : ℕ → TranslationEntry) (pageTableSize : ℕ)
  | raiseException (badVAddr : BitVec 32)
  /-- The call of `DelayedLoad` in `CheckIfDue`. -/
  | interrupt
  /-- A new thread, at an address that may have been that of another one. -/
  | create (t : Tid) (userRegisters : Registers)
  /-- An assignment to `space`: a thread that starts a program assigns its own, and a thread that
  makes another one assigns that of the new thread. -/
  | setSpace (t : Tid) (space : Bool)
  /-- `SaveUserState` and `RestoreUserState` in `Fork2`. -/
  | saveAndRestore
  /-- `Scheduler::Run`. -/
  | run (t : Tid)

inductive Stop where
  | disabled
  | fault (fault : Fault)

/-- The registers after an instruction, or as the handler of its exception finds them. -/
def registersAfter : Ending → Registers
  | .finished m => m.registers
  | .exception _ _ m => m.registers

namespace System

/-- `Machine::Machine`, when the thread `main` runs. -/
def init (main : Tid) (userRegisters : Tid → Registers) : System where
  registers := fun _ => 0
  userRegisters := userRegisters
  space := fun _ => false
  begun := fun t => t = main
  currentThread := main

def machine (s : System) (mainMemory : ℕ → Byte) (pageTable : ℕ → TranslationEntry)
    (pageTableSize : ℕ) : Machine :=
  { registers := s.registers
    mainMemory := mainMemory
    pageTable := pageTable
    pageTableSize := pageTableSize }

/-- `Thread::SaveUserState`. -/
def saveUserState (s : System) : System :=
  { s with userRegisters := Function.update s.userRegisters s.currentThread s.registers }

/-- `Thread::RestoreUserState`. -/
def restoreUserState (s : System) : System :=
  { s with registers := s.userRegisters s.currentThread }

/-- `Scheduler::Run`. A thread that has not been run starts elsewhere and does not restore. -/
def run (s : System) (t : Tid) : System :=
  let saved := if s.space s.currentThread then s.saveUserState else s
  let switched := { saved with currentThread := t, begun := Function.update saved.begun t true }
  if s.begun t && s.space t then switched.restoreUserState else switched

def step (s : System) : Move → Except Stop System
  | .initRegisters numPages => .ok { s with registers := UserThreads.initRegisters numPages }
  | .writeRegister num value =>
      if num ∈ kernelRegisters then
        .ok { s with registers := Function.update s.registers num value }
      else
        .error .disabled
  | .oneInstruction mainMemory pageTable pageTableSize =>
      match (s.machine mainMemory pageTable pageTableSize).oneInstruction with
      | .error fault => .error (.fault fault)
      | .ok e => .ok { s with registers := registersAfter e }
  | .raiseException badVAddr =>
      match delayedLoad (Function.update s.registers BadVAddrReg badVAddr) 0 0 with
      | .error fault => .error (.fault fault)
      | .ok r => .ok { s with registers := r }
  | .interrupt =>
      match delayedLoad s.registers 0 0 with
      | .error fault => .error (.fault fault)
      | .ok r => .ok { s with registers := r }
  | .create t userRegisters =>
      if t = s.currentThread then
        .error .disabled
      else
        .ok { s with
          userRegisters := Function.update s.userRegisters t userRegisters
          space := Function.update s.space t false
          begun := Function.update s.begun t false }
  | .setSpace t space =>
      if t = s.currentThread ∨ s.begun t = false then
        .ok { s with space := Function.update s.space t space }
      else
        .error .disabled
  | .saveAndRestore => .ok s.saveUserState.restoreUserState
  | .run t => .ok (s.run t)

end System

/-! ## The invariant -/

/-- The register 0 is 0, and a delayed load is one of a general register. -/
structure Confined (r : Registers) : Prop where
  zero : r 0 = 0
  general : (r LoadReg).toNat < 32

/-- The registers of the machine are confined, and so are those that `Scheduler::Run` restores. -/
structure Kept (s : System) : Prop where
  registers : Confined s.registers
  saved : ∀ t, t ≠ s.currentThread → s.begun t = true → s.space t = true →
    Confined (s.userRegisters t)

variable {r r' : Registers} {m m' : Machine} {s s' : System}

/-- A delayed load of a confined register file writes general registers, and its own two. -/
theorem Confined.delayedLoad (h : Confined r) (nextReg nextValue : BitVec 32) :
    ∃ r', delayedLoad r nextReg nextValue = .ok r' ∧
      ∀ k : Fin 40, 32 ≤ k.val → k ≠ LoadReg → k ≠ LoadValueReg → r' k = r k := by
  have hgeneral := h.general
  obtain ⟨r', hr', hdone⟩ := delayedLoad_ok (by omega : (r LoadReg).toNat < 40) nextReg nextValue
  refine ⟨r', hr', fun k hk hreg hvalue => hdone.kept k ?_ hreg hvalue (by omega)⟩
  rintro rfl
  exact absurd hk (by decide)

/-- What `DelayedLoad` leaves is confined if the next load is. -/
theorem confined_of_delayedLoad {nextReg nextValue : BitVec 32} (hnext : nextReg.toNat < 32)
    (h : delayedLoad r nextReg nextValue = .ok r') : Confined r' := by
  have hdone := (of_delayedLoad_ok h).2
  exact ⟨hdone.zero, by rwa [hdone.loadReg]⟩

theorem Confined.update (h : Confined r) {i : Fin 40} (hzero : i ≠ 0) (hload : i ≠ LoadReg)
    (value : BitVec 32) : Confined (Function.update r i value) := by
  constructor
  · rw [Function.update_of_ne hzero.symm, h.zero]
  · rw [Function.update_of_ne hload.symm]
    exact h.general

/-! ## Instructions -/

/-- The run of an instruction leaves confined registers if it ends. -/
def EndsConfined (run : Except Fault Ending) : Prop :=
  ∀ e, run = .ok e → Confined (registersAfter e)

theorem finish_endsConfined {nextLoadReg : BitVec 32} (hnext : nextLoadReg.toNat < 32)
    (nextLoadValue pcAfter : BitVec 32) :
    EndsConfined (m.finish nextLoadReg nextLoadValue pcAfter) := by
  intro e h
  unfold Machine.finish at h
  split at h
  · cases h
  · rename_i r hr
    cases h
    have hconfined := confined_of_delayedLoad hnext hr
    exact ((hconfined.update (by decide) (by decide) _).update (by decide) (by decide) _).update
      (by decide) (by decide) _

theorem raiseException_endsConfined (m : Machine) (which : ExceptionType) (badVAddr : BitVec 32) :
    EndsConfined (m.raiseException which badVAddr) := by
  intro e h
  unfold Machine.raiseException at h
  split at h
  · cases h
  · rename_i r hr
    cases h
    exact confined_of_delayedLoad (by decide) hr

theorem reading_endsConfined {addr : BitVec 32} {size : ℕ}
    {next : BitVec 32 → Machine → Except Fault Ending}
    (hnext : ∀ value m', EndsConfined (next value m')) :
    EndsConfined (m.reading addr size next) := by
  unfold Machine.reading
  split
  · exact fun e h => by cases h
  · exact raiseException_endsConfined m _ _
  · exact hnext _ _

theorem writing_endsConfined {addr value : BitVec 32} {size : ℕ}
    {next : Machine → Except Fault Ending} (hnext : ∀ m', EndsConfined (next m')) :
    EndsConfined (m.writing addr size value next) := by
  unfold Machine.writing
  split
  · exact fun e h => by cases h
  · exact raiseException_endsConfined m _ _
  · exact hnext _

theorem perform_endsConfined (m : Machine) (x : Execution) : EndsConfined (m.perform x) := by
  cases x with
  | stop fault => exact fun e h => by cases h
  | raise which badVAddr => exact raiseException_endsConfined m which badVAddr
  | assign ws pcAfter => exact finish_endsConfined (by decide) _ _
  | load addr size rt nextLoadValue =>
      have hrt : (BitVec.ofNat 32 rt).toNat < 32 := by
        rw [BitVec.toNat_ofNat]
        omega
      exact reading_endsConfined fun _ _ => finish_endsConfined hrt _ _
  | store addr size value => exact writing_endsConfined fun _ => finish_endsConfined (by decide) _ _
  | merge addr value =>
      exact reading_endsConfined fun _ _ => writing_endsConfined fun _ =>
        finish_endsConfined (by decide) _ _

theorem oneInstruction_endsConfined (m : Machine) : EndsConfined m.oneInstruction :=
  reading_endsConfined fun _ _ => perform_endsConfined _ _

/-! ## Runs -/

theorem initRegisters_confined (numPages : ℕ) :
    Confined (UserThreads.initRegisters numPages) := by
  have hzero : ∀ i : Fin 40, i ≠ UserThreads.StackReg → i ≠ UserThreads.PCReg →
      i ≠ UserThreads.NextPCReg → UserThreads.initRegisters numPages i = 0 := by
    intro i hstack hpc hnext
    rw [UserThreads.initRegisters, Function.update_of_ne hstack, Function.update_of_ne hnext,
      Function.update_of_ne hpc]
  refine ⟨hzero 0 (by decide) (by decide) (by decide), ?_⟩
  rw [hzero LoadReg (by decide) (by decide) (by decide)]
  decide

theorem kernelRegisters_spare {num : Fin 40} (h : num ∈ kernelRegisters) :
    num ≠ 0 ∧ num ≠ LoadReg := by
  revert num
  decide

theorem Kept.setRegisters (h : Kept s) {r : Registers} (hr : Confined r) :
    Kept { s with registers := r } := ⟨hr, h.saved⟩

/-- What is restored after `SWITCH` has been saved before, or is what the machine holds. -/
theorem Kept.saveUserState (h : Kept s) :
    ∀ t, s.begun t = true → s.space t = true → Confined (s.saveUserState.userRegisters t) := by
  intro t hbegun hspace
  by_cases ht : t = s.currentThread
  · subst ht
    simp only [System.saveUserState, Function.update_self]
    exact h.registers
  · simp only [System.saveUserState, Function.update_of_ne ht]
    exact h.saved t ht hbegun hspace

theorem run_eq (s : System) (t : Tid) :
    (s.run t).currentThread = t ∧ (s.run t).space = s.space ∧
      (s.run t).begun = Function.update s.begun t true ∧
        (s.run t).userRegisters =
          if s.space s.currentThread then s.saveUserState.userRegisters else s.userRegisters := by
  simp only [System.run]
  split <;> split <;> exact ⟨rfl, rfl, rfl, rfl⟩

theorem Kept.run (h : Kept s) (t : Tid) : Kept (s.run t) := by
  obtain ⟨hcurrent, hspaces, hbegan, huser⟩ := run_eq s t
  -- `userRegisters` at the `SWITCH`
  have hsaved : ∀ u, s.begun u = true → s.space u = true →
      Confined ((s.run t).userRegisters u) := by
    intro u hbegun hspace
    rw [huser]
    split
    · exact h.saveUserState u hbegun hspace
    · rename_i hnull
      exact h.saved u (fun hu => hnull (hu ▸ hspace)) hbegun hspace
  constructor
  · have hregisters : (s.run t).registers =
        if s.begun t && s.space t then (s.run t).userRegisters t else s.registers := by
      simp only [System.run]
      split <;> split <;> rfl
    rw [hregisters]
    split
    · rename_i hback
      rw [Bool.and_eq_true] at hback
      exact hsaved t hback.1 hback.2
    · exact h.registers
  · intro u hu hbegun hspace
    rw [hcurrent] at hu
    rw [hbegan, Function.update_of_ne hu] at hbegun
    rw [hspaces] at hspace
    exact hsaved u hbegun hspace

theorem Kept.step (h : Kept s) {a : Move} (hstep : s.step a = .ok s') : Kept s' := by
  cases a with
  | initRegisters numPages =>
      cases hstep
      exact h.setRegisters (initRegisters_confined numPages)
  | writeRegister num value =>
      simp only [System.step] at hstep
      split at hstep
      · rename_i hnum
        cases hstep
        obtain ⟨hzero, hload⟩ := kernelRegisters_spare hnum
        exact h.setRegisters (h.registers.update hzero hload value)
      · cases hstep
  | oneInstruction mainMemory pageTable pageTableSize =>
      simp only [System.step] at hstep
      split at hstep
      · cases hstep
      · rename_i e he
        cases hstep
        exact h.setRegisters (oneInstruction_endsConfined _ e he)
  | raiseException badVAddr =>
      simp only [System.step] at hstep
      split at hstep
      · cases hstep
      · rename_i r hr
        cases hstep
        exact h.setRegisters (confined_of_delayedLoad (by decide) hr)
  | interrupt =>
      simp only [System.step] at hstep
      split at hstep
      · cases hstep
      · rename_i r hr
        cases hstep
        exact h.setRegisters (confined_of_delayedLoad (by decide) hr)
  | create t userRegisters =>
      simp only [System.step] at hstep
      split at hstep
      · cases hstep
      · cases hstep
        refine ⟨h.registers, fun u hu hbegun hspace => ?_⟩
        have hne : u ≠ t := by
          rintro rfl
          simp at hspace
        simp only [Function.update_of_ne hne] at hbegun hspace ⊢
        exact h.saved u hu hbegun hspace
  | setSpace t space =>
      simp only [System.step] at hstep
      split at hstep
      · rename_i hown
        cases hstep
        refine ⟨h.registers, fun u hu hbegun hspace => ?_⟩
        have hne : u ≠ t := by
          rintro rfl
          rcases hown with rfl | hnew
          · exact hu rfl
          · exact absurd (hnew.symm.trans hbegun) (by decide)
        simp only [Function.update_of_ne hne] at hspace
        exact h.saved u hu hbegun hspace
      · cases hstep
  | saveAndRestore =>
      cases hstep
      refine ⟨?_, fun u hu hbegun hspace => h.saveUserState u hbegun hspace⟩
      simp only [System.restoreUserState, System.saveUserState, Function.update_self]
      exact h.registers
  | run t =>
      cases hstep
      exact h.run t

theorem init_kept (main : Tid) (userRegisters : Tid → Registers) :
    Kept (System.init main userRegisters) :=
  ⟨⟨rfl, (by decide : (0 : ℕ) < 32)⟩, fun _ _ _ hspace => by cases hspace⟩

/-- In every run from the start of the machine: the register 0 is 0 between instructions, the index
of a delayed load is that of a general register, and `DelayedLoad` writes none of the others but
its own two, be it called by the kernel or at the end of an instruction. -/
theorem delayed_loads_general (main : Tid) (userRegisters : Tid → Registers) (s : System)
    (h : Reachable System.step (System.init main userRegisters) s) :
    s.registers 0 = 0 ∧ (s.registers LoadReg).toNat < 32 ∧
      (∀ nextReg nextValue, ∃ r, delayedLoad s.registers nextReg nextValue = .ok r ∧
        ∀ k : Fin 40, 32 ≤ k.val → k ≠ LoadReg → k ≠ LoadValueReg → r k = s.registers k) ∧
      ∀ mainMemory pageTable pageTableSize,
        (s.machine mainMemory pageTable pageTableSize).oneInstruction ≠ .error .wildAddress ∧
          ∀ (instr : Instruction) ws pcAfter, instr.execute s.registers = .assign ws pcAfter →
            ((s.machine mainMemory pageTable pageTableSize).assign ws).registers LoadReg =
              s.registers LoadReg := by
  have hkept := h.invariant (init_kept main userRegisters) fun _ _ _ _ hs hstep => hs.step hstep
  have hconfined := hkept.registers
  refine ⟨hconfined.zero, hconfined.general, hconfined.delayedLoad, fun mainMemory pageTable
    pageTableSize => ⟨fun hwild => ?_, fun instr ws pcAfter hassign => assign_loadReg hassign⟩⟩
  have hgeneral := hconfined.general
  by_cases hcrash : (s.machine mainMemory pageTable pageTableSize).Crashing
  · rcases hcrash.stops with hstop | hstop <;> cases hstop.symm.trans hwild
  · have hsound := sound_of_not_crashing hcrash
    rw [hwild] at hsound
    have hindex : 40 ≤ (s.registers LoadReg).toNat := hsound.2
    omega

/-- A program runs `LW r5,0(r0)`, and another thread runs before it goes on. -/
def loadsFive : List Move :=
  [.setSpace 0 true, .initRegisters 10,
    .oneInstruction (running 0x8c050000#32).mainMemory (onePage true) 1,
    .create 1 fun _ => 40, .run 1, .run 0]

theorem delayed_loads_five :
    ∃ s, runFrom System.step (System.init 0 fun _ _ => 40) loadsFive = .ok s ∧
      s.registers LoadReg = 5 ∧ s.registers 0 = 0 := by
  have hrun : ∃ s, runFrom System.step (System.init 0 fun _ _ => 40) loadsFive = .ok s ∧
      s.registers LoadReg = 5 := ⟨_, rfl, by decide⟩
  obtain ⟨s, hrun, hfive⟩ := hrun
  exact ⟨s, hrun, hfive, (delayed_loads_general 0 (fun _ _ => 40) s ⟨_, hrun⟩).1⟩

end DelayedLoads

end Nachos
