import Nachos.Machine.ArithmeticLogic

/-!
# Instructions that stop the simulator

`OneInstruction` ends, or hands an exception to the kernel, whatever the word that it fetches and
whatever the page table, but for two kinds of instructions: the partial accesses to a word, which
assert that their address is aligned, and the division whose quotient has no place in an `int`.
-/

namespace Nachos

namespace Mips

open Lib

variable {instr : Instruction} {r : Registers} {m m₁ : Machine} {addr value : BitVec 32} {size : ℕ}

/-! ## The instructions -/

/-- The instructions for a part of a word at any address. -/
def OpCode.partialWord : OpCode → Bool
  | .lwl | .lwr | .swl | .swr => true
  | _ => false

/-- The code fails its assertion on the address. -/
def Instruction.Unaligned (instr : Instruction) (r : Registers) : Prop :=
  instr.opCode.partialWord = true ∧ (r (gpr instr.rs) + instr.extra) &&& 3#32 ≠ 0#32

/-- The code has the host divide the least `int` by -1. -/
def Instruction.Divides (instr : Instruction) (r : Registers) : Prop :=
  instr.opCode = .div ∧ r (gpr instr.rs) = 0x80000000#32 ∧ r (gpr instr.rt) = 0xffffffff#32

/-- The codes that have a branch in the `switch`. -/
def OpCode.hasBranch : OpCode → Bool
  | .rfe | .special | .bcond => false
  | _ => true

theorem specialTable_hasBranch : ∀ i : Fin 64, (specialTable.get i).hasBranch = true := by
  decide

theorem opTable_hasBranch : ∀ i : Fin 64, (opTable.get i).1 ≠ .special →
    (opTable.get i).1 ≠ .bcond → (opTable.get i).1.hasBranch = true := by
  decide

theorem decode_hasBranch (value : BitVec 32) :
    (Instruction.decode value).opCode.hasBranch = true := by
  simp only [Instruction.decode, opCodeOf]
  split
  · exact specialTable_hasBranch _
  · split
    · split_ifs <;> rfl
    · exact opTable_hasBranch _ ‹_› ‹_›

/-- The accesses to memory have the sizes of `ReadMem` and `WriteMem`. -/
def Execution.Fits : Execution → Prop
  | .load _ size _ _ => Sized size
  | .store _ size _ => Sized size
  | _ => True

theorem execute_fits (instr : Instruction) (r : Registers) : (instr.execute r).Fits := by
  rcases instr with ⟨op, rs, rt, rd, extra⟩
  cases op <;> simp only [Instruction.execute] <;> (try split) <;> (try split) <;>
    simp [Execution.Fits, Sized]

theorem stop_iff {c : Prop} [Decidable c] {x : Execution} {fault fault' : Fault}
    (hx : ∀ f, x ≠ .stop f) :
    (if c then Execution.stop fault' else x) = .stop fault ↔ fault = fault' ∧ c := by
  split
  · rename_i hc
    simp [hc, eq_comm]
  · rename_i hc
    simp [hc, hx]

theorem execute_stop_iff (hbranch : instr.opCode.hasBranch = true) (fault : Fault) :
    instr.execute r = .stop fault ↔
      (fault = .assertion ∧ instr.Unaligned r) ∨ (fault = .divideError ∧ instr.Divides r) := by
  rcases instr with ⟨op, rs, rt, rd, extra⟩
  cases op with
  | lwl | lwr | swl | swr =>
      simp only [Instruction.execute, Instruction.Unaligned, Instruction.Divides,
        OpCode.partialWord, reduceCtorEq, false_and, and_false, or_false, true_and]
      exact stop_iff fun _ h => by cases h
  | div =>
      simp only [Instruction.execute, Instruction.Unaligned, Instruction.Divides,
        OpCode.partialWord, Bool.false_eq_true, false_and, and_false, false_or,
        true_and]
      split
      · rename_i hzero
        refine iff_of_false (fun h => by cases h) ?_
        rintro ⟨-, -, hneg⟩
        rw [hzero] at hneg
        exact absurd hneg (by decide)
      · exact stop_iff fun _ h => by cases h
  | rfe | special | bcond => cases hbranch
  | _ =>
      refine iff_of_false ?_ ?_
      · intro h
        simp only [Instruction.execute] at h
        (try split at h) <;> cases h
      · rintro (⟨-, hpartial, -⟩ | ⟨-, hop, -⟩)
        · cases hpartial
        · cases hop

/-! ## The machine -/

/-- The run of an instruction, where `reg` is the register of the pending load: it ends, or the
load would leave the register file. -/
def Sound (reg : BitVec 32) : Except Fault Ending → Prop
  | .ok _ => True
  | .error fault => fault = .wildAddress ∧ 40 ≤ reg.toNat

theorem delayedLoad_error {nextReg nextValue : BitVec 32} {fault : Fault}
    (h : delayedLoad r nextReg nextValue = .error fault) :
    fault = .wildAddress ∧ 40 ≤ (r LoadReg).toNat := by
  unfold delayedLoad at h
  split at h
  · cases h
  · cases h
    exact ⟨rfl, by omega⟩

theorem raiseException_sound (m : Machine) (which : ExceptionType) (badVAddr : BitVec 32) :
    Sound (m.registers LoadReg) (m.raiseException which badVAddr) := by
  unfold Machine.raiseException
  split
  · rename_i fault h
    have herror := delayedLoad_error h
    rwa [Function.update_of_ne (by decide)] at herror
  · trivial

theorem finish_sound (m : Machine) (nextLoadReg nextLoadValue pcAfter : BitVec 32) :
    Sound (m.registers LoadReg) (m.finish nextLoadReg nextLoadValue pcAfter) := by
  unfold Machine.finish
  split
  · rename_i fault h
    exact delayedLoad_error h
  · trivial

theorem readMem_ne_error (hsize : Sized size) (fault : Fault) :
    m.readMem addr size ≠ .error fault := by
  unfold Machine.readMem
  split
  · rename_i h
    exact absurd h (translate_ne_error hsize _)
  · exact fun h => by cases h
  · obtain ⟨v, hv⟩ := load_eq_ok hsize m.mainMemory ‹ℕ›
    simp only [hv, ne_eq, reduceCtorEq, not_false_eq_true]

theorem writeMem_ne_error (hsize : Sized size) (fault : Fault) :
    m.writeMem addr size value ≠ .error fault := by
  unfold Machine.writeMem
  split
  · rename_i h
    exact absurd h (translate_ne_error hsize _)
  · exact fun h => by cases h
  · have hstore : ∀ mem a, ∃ mem', store mem a value size = .ok mem' := fun mem a =>
      ⟨_, if_pos hsize⟩
    obtain ⟨mem', hmem'⟩ := hstore m.mainMemory ‹ℕ›
    simp only [hmem', ne_eq, reduceCtorEq, not_false_eq_true]

theorem reading_sound (hsize : Sized size) {next : BitVec 32 → Machine → Except Fault Ending}
    (hnext : ∀ value m', m.readMem addr size = .ok (.ok (value, m')) →
      Sound (m.registers LoadReg) (next value m')) :
    Sound (m.registers LoadReg) (m.reading addr size next) := by
  unfold Machine.reading
  split
  · rename_i h
    exact absurd h (readMem_ne_error hsize _)
  · exact raiseException_sound m _ _
  · rename_i h
    exact hnext _ _ h

theorem writing_sound (hsize : Sized size) {next : Machine → Except Fault Ending}
    (hnext : ∀ m', m'.registers = m.registers → Sound (m.registers LoadReg) (next m')) :
    Sound (m.registers LoadReg) (m.writing addr size value next) := by
  unfold Machine.writing
  split
  · rename_i h
    exact absurd h (writeMem_ne_error hsize _)
  · exact raiseException_sound m _ _
  · rename_i h
    exact hnext _ (writeMem_registers h)

theorem finish_sound_of_eq {m' : Machine} (h : m'.registers = m.registers)
    (nextLoadReg nextLoadValue pcAfter : BitVec 32) :
    Sound (m.registers LoadReg) (m'.finish nextLoadReg nextLoadValue pcAfter) := by
  rw [← h]
  exact finish_sound m' nextLoadReg nextLoadValue pcAfter

/-- No instruction assigns the register of the pending load. -/
theorem assign_loadReg {ws : List (Fin 40 × BitVec 32)} {pcAfter : BitVec 32}
    (h : instr.execute r = .assign ws pcAfter) :
    (m.assign ws).registers LoadReg = m.registers LoadReg := by
  apply assign_of_notMem
  intro hmem
  exact absurd (lt_of_mem_writes (assign_subset_writes h hmem)) (by decide)

theorem perform_sound (hstop : ∀ fault, instr.execute r ≠ .stop fault) :
    Sound (m.registers LoadReg) (m.perform (instr.execute r)) := by
  have hfits := execute_fits instr r
  cases hexecute : instr.execute r with
  | stop fault => exact absurd hexecute (hstop fault)
  | raise which badVAddr => exact raiseException_sound m which badVAddr
  | assign ws pcAfter =>
      rw [← assign_loadReg hexecute]
      exact finish_sound (m.assign ws) 0 0 pcAfter
  | load addr size rt nextLoadValue =>
      rw [hexecute] at hfits
      exact reading_sound hfits fun value m' h => finish_sound_of_eq (readMem_frame h).2 _ _ _
  | store addr size value =>
      rw [hexecute] at hfits
      exact writing_sound hfits fun m' h => finish_sound_of_eq h _ _ _
  | merge addr value =>
      have hword : Sized 4 := .inr (.inr rfl)
      refine reading_sound hword fun old m' h => ?_
      rw [← (readMem_frame h).2]
      exact writing_sound hword fun m'' h' => finish_sound_of_eq h' _ _ _

/-- The instruction that the machine fetches fails an assertion or divides. -/
def Machine.Crashing (m : Machine) : Prop :=
  ∃ instr, m.Fetches instr ∧ (instr.Unaligned m.registers ∨ instr.Divides m.registers)

/-- `OneInstruction` fails no assertion and the host does not trap. With the register of the
pending load in the register file, the instruction ends. -/
structure Machine.Withstands (m : Machine) : Prop where
  no_assertion : m.oneInstruction ≠ .error .assertion
  no_trap : m.oneInstruction ≠ .error .divideError
  ends : (m.registers LoadReg).toNat < 40 → ∃ e, m.oneInstruction = .ok e

theorem Sound.withstands (h : Sound (m.registers LoadReg) m.oneInstruction) : m.Withstands := by
  cases hrun : m.oneInstruction with
  | ok e => exact ⟨by simp [hrun], by simp [hrun], fun _ => ⟨e, hrun⟩⟩
  | error fault =>
      rw [hrun] at h
      obtain ⟨rfl, hindex⟩ := h
      exact ⟨by simp [hrun], by simp [hrun], fun hlt => by omega⟩

theorem Machine.Crashing.stops (h : m.Crashing) :
    m.oneInstruction = .error .assertion ∨ m.oneInstruction = .error .divideError := by
  obtain ⟨instr, ⟨raw, m₁, hread, rfl⟩, hcrash⟩ := h
  have hrun := oneInstruction_of_fetch hread
  have hstop := execute_stop_iff (r := m.registers) (decode_hasBranch raw)
  rw [(readMem_frame hread).2] at hrun
  rcases hcrash with hcrash | hcrash
  · rw [(hstop .assertion).2 (.inl ⟨rfl, hcrash⟩)] at hrun
    exact .inl hrun
  · rw [(hstop .divideError).2 (.inr ⟨rfl, hcrash⟩)] at hrun
    exact .inr hrun

theorem sound_of_not_crashing (h : ¬ m.Crashing) :
    Sound (m.registers LoadReg) m.oneInstruction := by
  refine reading_sound (.inr (.inr rfl)) fun raw m₁ hread => ?_
  have hframe := (readMem_frame hread).2
  rw [← hframe]
  refine perform_sound fun fault hstop => h ⟨_, ⟨raw, m₁, hread, rfl⟩, ?_⟩
  rw [hframe] at hstop
  exact ((execute_stop_iff (decode_hasBranch raw) fault).1 hstop).imp And.right And.right

/-- An instruction stops the simulator exactly when it is a partial access to a word at an address
that is not aligned, or the division of the least `int` by -1. -/
theorem oneInstruction_withstands_iff (m : Machine) : m.Withstands ↔ ¬ m.Crashing := by
  constructor
  · intro hwithstands hcrash
    exact hcrash.stops.elim hwithstands.no_assertion hwithstands.no_trap
  · intro hsafe
    exact (sound_of_not_crashing hsafe).withstands

/-- `LWL r1,1(r0)`, at an address that is not aligned. -/
theorem lwl_fails_assertion :
    ∃ m : Machine, (∀ vpn < m.pageTableSize, pageFrame (m.pageTable vpn) < numPhysPages) ∧
      (m.registers LoadReg).toNat < 40 ∧ ¬ m.Withstands := by
  refine ⟨running 0x88010001#32, fun _ _ => (by decide : (0 : ℕ) < 32), by decide, ?_⟩
  intro hwithstands
  obtain ⟨m₁, hfetch⟩ := running_fetch 0x88010001#32
  have hstop : (Instruction.decode 0x88010001#32).execute (running 0x88010001#32).registers =
      .stop .assertion :=
    (execute_stop_iff (by decide) .assertion).2 (.inl ⟨rfl, by decide, by decide⟩)
  have hrun := oneInstruction_of_fetch hfetch
  rw [(readMem_frame hfetch).2, hstop] at hrun
  exact hwithstands.no_assertion hrun

end Mips

end Nachos
